import StackLisp.Proofs.Building

/-!
# Going through lists with host functions

The host program registers functions and applies `map` and `filter` to them. Whatever else happens,
the library goes on working as long as no function takes one of its names.

- `HostFunction.Gives`: what a host function can give for an argument;
- `Engine.Equipped`: what stays of the library while host functions are registered;
- `Replies.host`: a call of a host function;
- `GivesList`: the result is a list of certain values, or a certain error;
- `map_and_filter_of_host`: so it is with `map` and `filter`, by the results of the function.
-/

namespace StackLisp

open Eval

/-- The function gives this result for the argument when it is called with some store. If its result
depends on nothing but the argument, this is one result, up to the numbers of the objects that the
function makes for it: those it takes from the store. -/
def HostFunction.Gives (hf : HostFunction) (v : Value) (r : Except Error Value) : Prop :=
  ∃ store : Store, ((hf.call [v]).run store).1 = r

/-- The engine after functions were registered one after the other, each under its name. -/
def Engine.registerHosts (e : Engine) (functions : List (String × HostFunction)) : Engine :=
  functions.foldl (fun e p => e.registerHost p.1 p.2) e

namespace Engine

variable {e : Engine}

/-- The functions that go through lists are bound to their names, and do what their definitions
say. -/
structure Equipped (e : Engine) : Prop where
  made : e.store.symbols.Made
  builtin : ∀ b : Builtin, b.name ∈ Vocabulary.listNames →
    ∃ ref, e.Knows e.store.symbols b.name (.intrinsic ref (.builtin b))
  defines : ∀ (i : Nat) (d : Definition), Vocabulary.all[i]? = some d →
    d.name ∈ Vocabulary.listNames → ∃ c, e.Knows e.store.symbols d.name (.closure c) ∧ e.Defines d c

theorem Loaded.equipped {n : Nat} (h : e.Loaded n) (hn : 15 ≤ n) : e.Equipped where
  made := h.made
  builtin b _ := h.builtin b
  defines i d hd hname := h.defines i d hd ((Vocabulary.lt_of_mem_listNames hd hname).trans_le hn)

namespace Equipped

theorem lists (h : e.Equipped) : ListLibrary e.store.symbols e where
  builtin := h.builtin
  defines i d hd hname := by
    obtain ⟨c, hknows, hc⟩ := h.defines i d hd hname
    exact ⟨c, hknows, hc.functionOf (.refl _)⟩

/-- A function of another name may be registered. -/
theorem registerHost (h : e.Equipped) {name : String} (hname : name ∉ Vocabulary.listNames)
    (function : HostFunction) : (e.registerHost name function).Equipped := by
  have hknows : ∀ {other : String} {v : Value}, other ∈ Vocabulary.listNames →
      e.Knows e.store.symbols other v → (e.registerHost name function).Knows
        (e.registerHost name function).store.symbols other v := fun {other _} hother hv =>
    Knows.defineName (e := { e with
      hosts := e.hosts.push function, store := (e.store.intrinsic (.host name e.hosts.size)).2 })
      hv h.made fun heq : other = name => hname (heq ▸ hother)
  have hext : e.store.symbols.Extends (e.registerHost name function).store.symbols :=
    SymbolTable.extends_intern _ name
  refine ⟨h.made.intern name, fun b hb => ?_, fun i d hd hd' => ?_⟩
  · obtain ⟨ref, hv⟩ := h.builtin b hb
    exact ⟨ref, hknows hb hv⟩
  · obtain ⟨c, hv, hc⟩ := h.defines i d hd hd'
    obtain ⟨term, himplements, hmeans⟩ := hc.body
    exact ⟨c, hknows hd' hv, hc.heads.mono hext, ⟨term, himplements, hmeans.mono hext⟩, hc.scope,
      hc.isMacro⟩

theorem registerHosts (h : e.Equipped) {functions : List (String × HostFunction)}
    (hnames : ∀ p ∈ functions, p.1 ∉ Vocabulary.listNames) :
    (e.registerHosts functions).Equipped := by
  induction functions generalizing e with
  | nil => exact h
  | cons p functions ih =>
    rw [List.forall_mem_cons] at hnames
    exact ih (h.registerHost hnames.1 p.2) hnames.2

end Equipped

/-- Registering functions changes neither the limits nor the stack. -/
theorem idle_registerHosts (h : e.Idle) (functions : List (String × HostFunction)) :
    (e.registerHosts functions).Idle ∧ (e.registerHosts functions).limits = e.limits := by
  induction functions generalizing e with
  | nil => exact ⟨h, rfl⟩
  | cons p functions ih =>
    exact ih (e := e.registerHost p.1 p.2) ⟨h.sp, h.frame, h.depth⟩

end Engine

/-! ## Calls of host functions -/

/-- A call of a host function. -/
theorem Setting.Replies.host {ev : Evaluator} {table : SymbolTable} {named : table.Named}
    {t : Engine} {ref : Ref} {name : String} {index : Nat} {hf : HostFunction}
    (hfound : t.hosts[index]? = some hf) (v : Value) :
    (Setting.steady ev table named).Replies t 1 (.intrinsic ref (.host name index)) [v]
      (hf.Gives v) := by
  have hcall : (Intrinsic.host name index).call (Setting.steady ev table named).evaluator [v] =
      (Target.host name index [v]).call ev := by
    rw [Intrinsic.call, Target.resolve]
    rfl
  -- which function it is depends on what is registered, and not on the stack
  have hblind : Blind ((Target.host name index [v]).call ev) := by
    refine .reading (fun _ _ _ _ _ => rfl) fun e => ?_
    cases e.hosts[index]? with
    | none => exact .throw _
    | some supplied => exact .make _
  have hrun : ∀ {s : Engine} {supplied : HostFunction}, s.hosts[index]? = some supplied →
      (Target.host name index [v]).call ev s = Eval.make (supplied.call [v]) s := by
    intro s supplied hsupplied
    rw [Target.call, bind_of_ok (get_run s), hsupplied]
  refine .intrinsic ⟨hcall ▸ hblind, fun s => ?_⟩ fun t' hallows => ?_
  · rw [hcall]
    cases hsupplied : s.hosts[index]? with
    | none =>
      rw [Target.call, bind_of_ok (get_run s), hsupplied]
      exact .of_same_envs rfl
    | some supplied =>
      rw [hrun hsupplied, make_run]
      exact .of_same_envs rfl
  · have hfound' : t'.hosts[index]? = some hf := by rwa [hallows.hosts]
    refine ⟨_, { t' with store := ((hf.call [v]).run t'.store).2 }, ?_, ⟨rfl, rfl, rfl, id⟩,
      t'.store, rfl⟩
    rw [hcall, hrun hfound']
    exact make_run _ t'

/-! ## Applying functions that make lists -/

/-- The result is a list of values such as `S` allows, or an error that it allows instead. -/
def GivesList (S : Except Error (List Value) → Prop) : Except Error Value → Prop
  | .ok w => ∃ vs, S (.ok vs) ∧ w.items? = some vs
  | .error error => S (.error error)

/-- A call that comes to a list of the values, while no code runs. -/
theorem Setting.Serves.concludes {n : Nat} {table : SymbolTable} {named : table.Named} {e : Engine}
    {c : Closure} {args : List Value} {S : Except Error (List Value) → Prop}
    (h : ∀ ev, (Setting.steady ev table named).Serves { e with depth := e.depth + 1 } n c args
      (ListLibrary.ListsResult (.steady ev table named) { e with depth := e.depth + 1 } S))
    (hidle : e.Idle) (hdepth : 0 < e.limits.maxApplyDepth) {fuel : Nat} (hfuel : n + 2 ≤ fuel) :
    Concludes e (GivesList S) (args.length + (n + 2) * stride)
      ((Machine.evaluator fuel).apply c args e) := by
  have hframe : e.frame ≤ e.sp := by rw [hidle.frame]; exact Nat.zero_le _
  have hlist : ∀ ev, (Setting.steady ev table named).Serves { e with depth := e.depth + 1 } n c args
      (GivesList S) := fun ev => (h ev).mono le_rfl fun r hr => by
    cases r with
    | error error => exact hr
    | ok w => exact hr.imp fun vs hvs => ⟨hvs.1, hvs.2.1⟩
  obtain ⟨r, e', t, hrun, -, hcore, hsteady, hresult⟩ := Machine.apply_cases (R := .steady)
    (fun ev hnot => (hlist ev).ends hframe hnot) hidle hdepth hfuel
  rw [hrun]
  refine ⟨hresult, ?_, fun env scope henv => ?_⟩
  · exact (Engine.congr_core Engine.globals (fun _ _ _ _ => rfl) hcore).trans hsteady.globals
  · rw [Engine.congr_core Engine.envs (fun _ _ _ _ => rfl) hcore]
    exact hsteady.kept henv

/-- On an engine that was built with the prelude, `map` gives the results of a host function for the
items of a list, in order, and `filter` those items for which the result passes for true; both fail
as the function fails first. -/
theorem map_and_filter_of_host {setup : Setup} (hbuiltins : setup.builtins = true)
    (hprelude : setup.prelude = true) {files : String → FileAnswer} {steps : Nat} {built : Engine}
    (hbuild : Interpreter.build steps setup files = .ok built)
    {functions : List (String × HostFunction)}
    (hnames : ∀ p ∈ functions, p.1 ∉ Vocabulary.listNames) {e : Engine}
    (he : e = built.registerHosts functions) {index : Nat} {hf : HostFunction}
    (hfound : e.hosts[index]? = some hf) (ref : Ref) (name : String) {l : Value}
    {items : List Value} (hl : l.items? = some items) :
    ∃ map filter : Closure, e.globalNamed? "map" = some (.closure map) ∧
      e.globalNamed? "filter" = some (.closure filter) ∧
      ∀ fuel, 17 + items.length * 91 ≤ fuel →
        Concludes e (GivesList (ListLibrary.Results hf.Gives items))
          ((18 + items.length * 91) * stride)
          ((Machine.evaluator fuel).apply map [.intrinsic ref (.host name index), l] e) ∧
        Concludes e (GivesList (ListLibrary.Chosen hf.Gives items))
          ((18 + items.length * 91) * stride)
          ((Machine.evaluator fuel).apply filter [.intrinsic ref (.host name index), l] e) := by
  obtain ⟨hloaded, hidle₀, hdepth⟩ := Interpreter.loaded_of_build hbuiltins hprelude hbuild
  have hequipped : e.Equipped := he ▸ (hloaded.equipped (by decide)).registerHosts hnames
  obtain ⟨hidle, hlimits⟩ : e.Idle ∧ e.limits = built.limits :=
    he ▸ Engine.idle_registerHosts hidle₀ functions
  rw [← hlimits] at hdepth
  have hn := hequipped.made.named
  have hlists : ListLibrary e.store.symbols { e with depth := e.depth + 1 } :=
    ⟨hequipped.lists.builtin, hequipped.lists.defines⟩
  obtain ⟨map, hmap, hmapOf⟩ := hlists.defines 13 _ rfl (by decide)
  obtain ⟨filter, hfilter, hfilterOf⟩ := hlists.defines 14 _ rfl (by decide)
  -- a host function replies at once, without code of its own
  have hreplies : ∀ ev, ∀ v ∈ items, (Setting.steady ev e.store.symbols hn).Replies
      { e with depth := e.depth + 1 } 1 (.intrinsic ref (.host name index)) [v] (hf.Gives v) :=
    fun ev v _ => .host (t := { e with depth := e.depth + 1 }) hfound v
  refine ⟨map, filter, Engine.Knows.globalNamed?_eq hmap, Engine.Knows.globalNamed?_eq hfilter,
    fun fuel hfuel => ⟨?_, ?_⟩⟩
  · have hserves := fun ev => (hlists.map_items (W := .steady ev e.store.symbols hn) hmap hmapOf
      (hreplies ev) hl).outside
    refine (Setting.Serves.concludes hserves hidle hdepth (by omega)).mono (fun _ => id) ?_
    simp only [List.length_cons, List.length_nil, stride]
    omega
  · have hserves := fun ev => (hlists.filter_items (W := .steady ev e.store.symbols hn) hfilter
      hfilterOf (hreplies ev) hl).outside
    refine (Setting.Serves.concludes hserves hidle hdepth (by omega)).mono (fun _ => id) ?_
    simp only [List.length_cons, List.length_nil, stride]
    omega

/-- A function that makes a new string of a string, by writing it twice, and fails for booleans. -/
def HostFunction.doubling : HostFunction where
  call
    | [.string _ text] => modifyGet (·.string (text ++ text))
    | [.boolean b] => throw (.wrongType "text" (.boolean b))
    | _ => pure .nil

namespace HostFunction

variable {r : Except Error Value}

@[simp]
theorem gives_doubling_string {ref : Ref} {text : String} :
    doubling.Gives (.string ref text) r ↔ ∃ new, r = .ok (.string new (text ++ text)) := by
  refine ⟨fun ⟨store, h⟩ => ⟨store.nextRef, h.symm⟩, ?_⟩
  rintro ⟨new, rfl⟩
  exact ⟨{ nextRef := new }, rfl⟩

@[simp]
theorem gives_doubling_nil : doubling.Gives .nil r ↔ r = .ok .nil :=
  ⟨fun ⟨_, h⟩ => h.symm, fun h => ⟨.empty, h.symm⟩⟩

@[simp]
theorem gives_doubling_boolean {b : Bool} :
    doubling.Gives (.boolean b) r ↔ r = .error (.wrongType "text" (.boolean b)) :=
  ⟨fun ⟨_, h⟩ => h.symm, fun h => ⟨.empty, h.symm⟩⟩

/-- New strings are made of all items, if they are strings. -/
theorem gives_doubled {ref ref' : Ref} {a b : String} (h : GivesList
      (ListLibrary.Results doubling.Gives [.string ref a, .string ref' b]) r) :
    Meets (fun w => ∃ new new',
      w.items? = some [.string new (a ++ a), .string new' (b ++ b)]) r := by
  cases r with
  | error error =>
    obtain ⟨v, hv, hfails⟩ := ListLibrary.Results.exists_fails h
    simp only [List.mem_cons, List.not_mem_nil, or_false] at hv
    obtain rfl | rfl := hv <;> simp at hfails
  | ok w =>
    obtain ⟨vs, hvs, hw⟩ := h
    cases hvs with
    | cons ha hvs =>
      cases hvs with
      | cons hb hvs =>
        cases hvs
        obtain ⟨new, ⟨⟩⟩ := gives_doubling_string.1 ha
        obtain ⟨new', ⟨⟩⟩ := gives_doubling_string.1 hb
        exact meets_ok.2 ⟨new, new', hw⟩

/-- Nothing but the boolean makes it fail. -/
theorem gives_doubled_error {ref ref' : Ref} {a c : String} {b : Bool} (h : GivesList
      (ListLibrary.Results doubling.Gives [.string ref a, .boolean b, .string ref' c]) r) :
    r = .error (.wrongType "text" (.boolean b)) := by
  cases r with
  | error error =>
    obtain ⟨v, hv, hfails⟩ := ListLibrary.Results.exists_fails h
    simp only [List.mem_cons, List.not_mem_nil, or_false] at hv
    obtain rfl | rfl | rfl := hv
    · simp at hfails
    · exact gives_doubling_boolean.1 hfails
    · simp at hfails
  | ok w =>
    obtain ⟨vs, hvs, -⟩ := h
    cases hvs with
    | cons _ hvs =>
      cases hvs with
      | cons hb _ => simp at hb

/-- Its result for a string passes for true. -/
theorem gives_chosen {ref : Ref} {a : String} (h : GivesList
      (ListLibrary.Chosen doubling.Gives [.nil, .string ref a]) r) :
    Meets (·.items? = some [.string ref a]) r := by
  cases r with
  | error error =>
    obtain ⟨v, hv, hfails⟩ := ListLibrary.Results.exists_fails h
    simp only [List.mem_cons, List.not_mem_nil, or_false] at hv
    obtain rfl | rfl := hv <;> simp at hfails
  | ok w =>
    obtain ⟨_, ⟨results, hresults, rfl⟩, hw⟩ := h
    cases hresults with
    | cons hnil hresults =>
      cases hresults with
      | cons ha hresults =>
        cases hresults
        obtain ⟨⟩ := gives_doubling_nil.1 hnil
        obtain ⟨new, ⟨⟩⟩ := gives_doubling_string.1 ha
        exact meets_ok.2 hw

end HostFunction

/-- One of two functions is applied to strings, of which it makes new strings, to a list with a
boolean, where it fails, and to a list with an item for which its result does not pass for true. -/
theorem map_and_filter_of_doubling :
    ∃ (built : Engine) (map filter : Closure),
      Interpreter.build 301 Interpreter.roomy (fun _ => .unread) = .ok built ∧
      let e := built.registerHosts [("double", .doubling), ("print", ⟨fun _ => pure .nil⟩)]
      let f := Value.intrinsic 0 (.host "double" built.hosts.size)
      e.globalNamed? "map" = some (.closure map) ∧
      e.globalNamed? "filter" = some (.closure filter) ∧
      Concludes e (Meets fun w => ∃ new new', w.items? = some [.string new "cc", .string new' "dd"])
        (200 * stride) ((Machine.evaluator 500).apply map
          [f, .list 0 (.string 1 "c") [.string 2 "d"]] e) ∧
      Concludes e (· = .error (.wrongType "text" (.boolean true))) (291 * stride)
        ((Machine.evaluator 500).apply map
          [f, .list 0 (.string 1 "c") [.boolean true, .string 2 "d"]] e) ∧
      Concludes e (Meets (·.items? = some [.string 1 "c"])) (200 * stride)
        ((Machine.evaluator 500).apply filter [f, .list 0 .nil [.string 1 "c"]] e) := by
  obtain ⟨built, hbuild⟩ := Interpreter.exists_build_roomy fun _ => .unread
  have hnames : ∀ p ∈ [("double", HostFunction.doubling), ("print", ⟨fun _ => pure .nil⟩)],
      p.1 ∉ Vocabulary.listNames := by
    simp only [List.forall_mem_cons, List.not_mem_nil, false_implies, implies_true, and_true]
    decide
  have hfound : (built.registerHosts [("double", .doubling),
      ("print", ⟨fun _ => pure .nil⟩)]).hosts[built.hosts.size]? = some .doubling := by
    change ((built.hosts.push _).push _)[built.hosts.size]? = _
    rw [Array.getElem?_push, if_neg (by simp), Array.getElem?_push_size]
  have happly := fun (l : Value) {items : List Value} (hl : l.items? = some items) =>
    map_and_filter_of_host rfl rfl hbuild hnames rfl hfound 0 "double" hl
  obtain ⟨map, filter, hmap, hfilter, htexts⟩ :=
    happly (.list 0 (.string 1 "c") [.string 2 "d"]) rfl
  obtain ⟨map', _, hmap', -, hfails⟩ :=
    happly (.list 0 (.string 1 "c") [.boolean true, .string 2 "d"]) rfl
  obtain ⟨_, filter', -, hfilter', hchosen⟩ := happly (.list 0 .nil [.string 1 "c"]) rfl
  -- the functions of the library are the same each time
  obtain rfl := Value.closure.inj (Option.some.inj (hmap.symm.trans hmap'))
  obtain rfl := Value.closure.inj (Option.some.inj (hfilter.symm.trans hfilter'))
  exact ⟨built, map, filter, hbuild, hmap, hfilter,
    (htexts 500 (by decide)).1.mono (fun _ => HostFunction.gives_doubled) le_rfl,
    (hfails 500 (by decide)).1.mono (fun _ => HostFunction.gives_doubled_error) le_rfl,
    (hchosen 500 (by decide)).2.mono (fun _ => HostFunction.gives_chosen) le_rfl⟩

end StackLisp
