import StackLisp.Interpreter
import StackLisp.Proofs.Growth
import StackLisp.Proofs.Library
import StackLisp.Proofs.Written

/-!
# Engines with the library

What an engine knows after the built-in functions and some of the prelude's definitions were
loaded.

- `Engine.Defines`: a closure is what a definition of the prelude defines;
- `Engine.Loaded`: so many definitions are loaded, and there are no other macros;
- `Engine.Loaded.gains`: they stay loaded while code runs that defines nothing;
- `Engine.Loaded.define`: one more definition is loaded when it is bound to its name;
- `Engine.Loaded.library`: the functions of the library are there, and do what they should.
-/

namespace StackLisp

/-! ## Larger tables -/

section

variable {table table' : SymbolTable} (hext : table.Extends table')
include hext

theorem Signature.Heads.mono {signature : Signature} {c : Closure} (h : signature.Heads table c) :
    signature.Heads table' c where
  positional := h.positional
  variadic := h.variadic
  names i name hi := by
    obtain ⟨s, hs, hconstant⟩ := h.names i name hi
    exact ⟨s, hext.known hs, hconstant⟩

/-- A term does what an expression says when more names are known, too. -/
theorem Expression.Means.mono {x : Expression} {t : Term} (h : x.Means table t) :
    x.Means table' t := by
  -- with one more claim for the arguments of calls
  refine @Expression.Means.rec table (fun x t _ => x.Means table' t)
    (fun xs ts _ => List.Forall₂ (Means table') xs ts) ?_ ?_ ?_ ?_ ?_ ?_ ?_ ?_ ?_ ?_ ?_ ?_ _ _ h
  · exact .constant
  · exact .string
  · exact fun hs => .symbol (hext.known hs)
  · exact fun hs => .lookup (hext.known hs)
  · exact fun _ _ _ => .conditional
  · exact fun _ _ => .call
  · exact fun hheads hunbound himplements _ => .function (hheads.mono hext) hunbound himplements
  · exact fun hs _ => .define (hext.known hs)
  · exact fun _ => .binding
  · exact fun _ => .declare
  · exact .nil
  · exact fun _ _ => .cons

theorem Value.Written.mono {texts : Ref → Option String} {v : Value} {p : Phrase}
    (h : v.Written texts table p) : v.Written texts table' p := by
  -- with one more claim for the items of lists
  refine @Value.Written.rec texts table (fun v p _ => v.Written texts table' p)
    (fun vs ps _ => List.Forall₂ (Value.Written texts table') vs ps) ?_ ?_ ?_ ?_ ?_ ?_ ?_ ?_ _ _ h
  · exact .literal
  · exact fun hname hs => .symbol hname (hext.known hs)
  · exact .string
  · exact fun href hquote _ => .quoted href (hext.known hquote)
  · exact .nil
  · exact fun href _ _ => .list href
  · exact .nil
  · exact fun _ _ => .cons

theorem Engine.Knows.mono {e : Engine} {name : String} {v : Value} (h : e.Knows table name v) :
    e.Knows table' name v := by
  obtain ⟨s, hs, hglobal⟩ := h
  exact ⟨s, hext.known hs, hglobal⟩

end

/-! ## Binding names -/

namespace Engine

variable {e : Engine} {table : SymbolTable} {name other : String} {s : Symbol} {v w : Value}

theorem knows_define (hs : table.lookup name = some s) : (e.define s v).Knows table name v := by
  refine ⟨s, hs, ?_⟩
  simp [global?, define, Globals.get?_insert]

/-- Binding a name leaves the values of all others. -/
theorem Knows.define (h : e.Knows table name v) (hm : table.Made)
    (hs : table.lookup other = some s) (hne : name ≠ other) :
    (e.define s w).Knows table name v := by
  obtain ⟨s', hs', hglobal⟩ := h
  have hid : s.id ≠ s'.id := fun hid => hne (hm.eq_of_id_eq hs' hs hid.symm)
  refine ⟨s', hs', ?_⟩
  rw [global?, Engine.define, Globals.get?_insert, if_neg hid]
  exact hglobal

theorem knows_defineName : (e.defineName name v).Knows (e.defineName name v).store.symbols name v :=
  knows_define (e := { e with store := (e.store.intern name).2 })
    (SymbolTable.lookup_intern e.store.symbols name)

theorem Knows.defineName (h : e.Knows e.store.symbols name v) (hm : e.store.symbols.Made)
    (hne : name ≠ other) :
    (e.defineName other w).Knows (e.defineName other w).store.symbols name v :=
  define (e := { e with store := (e.store.intern other).2 })
    (h.mono (SymbolTable.extends_intern _ other)) (hm.intern other)
    (SymbolTable.lookup_intern e.store.symbols other) hne

end Engine

/-! ## Definitions -/

/-- The closure is what the definition defines. It was made outside all calls. -/
structure Engine.Defines (e : Engine) (d : Definition) (c : Closure) : Prop where
  heads : d.signature.Heads e.store.symbols c
  body : ∃ t, c.Implements [t] ∧ d.body.Means e.store.symbols t
  scope : ∃ env, c.env = some env ∧ e.envs.heap[env]? = some ⟨[], none⟩
  isMacro : e.isMacro c = d.isMacro

/-- The built-in functions and the first `n` definitions of the prelude are bound to their names,
and no other global values are macros. -/
structure Engine.Loaded (n : Nat) (e : Engine) : Prop where
  made : e.store.symbols.Made
  macros_lt : ∀ ref ∈ e.macros, ref < e.store.nextRef
  closures_lt : ∀ (s : Symbol) (c : Closure), e.global? s = some (.closure c) →
    c.ref < e.store.nextRef
  builtin : ∀ b : Builtin, ∃ ref,
    e.Knows e.store.symbols b.name (.intrinsic ref (.builtin b))
  defines : ∀ (i : Nat) (d : Definition), Vocabulary.all[i]? = some d → i < n →
    ∃ c, e.Knows e.store.symbols d.name (.closure c) ∧ e.Defines d c
  only : ∀ (s : Symbol) (c : Closure), e.global? s = some (.closure c) → e.isMacro c = true →
    ∃ name ∈ Vocabulary.macros n, ∃ s', e.store.symbols.lookup name = some s' ∧ s'.id = s.id

namespace Engine

variable {n : Nat} {e e' : Engine}

theorem Gains.knows (h : e.Gains e') {name : String} {v : Value}
    (hv : e.Knows e.store.symbols name v) : e'.Knows e'.store.symbols name v := by
  obtain ⟨s, hs, hglobal⟩ := hv
  exact ⟨s, h.symbols.known hs, by rw [global?, h.globals]; exact hglobal⟩

theorem Gains.isMacro_eq (h : e.Gains e') (c : Closure) : e'.isMacro c = e.isMacro c := by
  rw [isMacro, h.macros, isMacro]

theorem Defines.gains {d : Definition} {c : Closure} (h : e.Defines d c) (hg : e.Gains e') :
    e'.Defines d c where
  heads := h.heads.mono hg.symbols
  body := by
    obtain ⟨t, himplements, hmeans⟩ := h.body
    exact ⟨t, himplements, hmeans.mono hg.symbols⟩
  scope := by
    obtain ⟨env, henv, hscope⟩ := h.scope
    exact ⟨env, henv, hg.kept hscope⟩
  isMacro := (hg.isMacro_eq c).trans h.isMacro

theorem Defines.functionOf {d : Definition} {c : Closure} (h : e.Defines d c)
    {table : SymbolTable} (hext : e.store.symbols.Extends table) :
    FunctionOf table e.envs [] d.signature d.body c where
  heads := h.heads.mono hext
  body := by
    obtain ⟨t, himplements, hmeans⟩ := h.body
    exact ⟨t, himplements, hmeans.mono hext⟩
  scope := by
    obtain ⟨env, henv, hscope⟩ := h.scope
    exact ⟨env, henv, .outermost hscope (Bindings.binds_nil table)⟩

namespace Loaded

/-- What is loaded stays so while nothing is defined. -/
theorem gains (h : e.Loaded n) (hg : e.Gains e') : e'.Loaded n where
  made := hg.made h.made
  macros_lt ref href := (h.macros_lt ref (hg.macros ▸ href)).trans_le hg.refs
  closures_lt s c hglobal := by
    rw [global?, hg.globals] at hglobal
    exact (h.closures_lt s c hglobal).trans_le hg.refs
  builtin b := by
    obtain ⟨ref, hknows⟩ := h.builtin b
    exact ⟨ref, hg.knows hknows⟩
  defines i d hd hi := by
    obtain ⟨c, hknows, hc⟩ := h.defines i d hd hi
    exact ⟨c, hg.knows hknows, hc.gains hg⟩
  only s c hglobal hkind := by
    rw [global?, hg.globals] at hglobal
    rw [hg.isMacro_eq] at hkind
    obtain ⟨name, hname, s', hs', hid⟩ := h.only s c hglobal hkind
    exact ⟨name, hname, s', hg.symbols.known hs', hid⟩

/-- The functions of the library are there. -/
theorem library (h : e.Loaded n) {table : SymbolTable} (hext : e.store.symbols.Extends table) :
    Library table n e where
  builtin b := by
    obtain ⟨ref, hknows⟩ := h.builtin b
    exact ⟨ref, hknows.mono hext⟩
  defines i d hd hi := by
    obtain ⟨c, hknows, hc⟩ := h.defines i d hd hi
    exact ⟨c, hknows.mono hext, hc.functionOf hext⟩

/-- A closure that is not bound globally may become a macro. -/
theorem markMacro (h : e.Loaded n) {c : Closure} (hlt : c.ref < e.store.nextRef)
    (hnew : ∀ (s : Symbol) (c' : Closure), e.global? s = some (.closure c') → c'.ref ≠ c.ref) :
    (e.markMacro c).Loaded n := by
  have hsame : ∀ {s : Symbol} {c' : Closure}, e.global? s = some (.closure c') →
      (e.markMacro c).isMacro c' = e.isMacro c' := fun hglobal => by
    simp [isMacro, Engine.markMacro, Std.HashSet.contains_insert, (hnew _ _ hglobal).symm]
  refine ⟨h.made, fun ref href => ?_, h.closures_lt, h.builtin, fun i d hd hi => ?_,
    fun s c' hglobal hkind => h.only s c' hglobal (hsame hglobal ▸ hkind)⟩
  · rcases Std.HashSet.mem_insert.1 href with heq | hmem
    · exact eq_of_beq heq ▸ hlt
    · exact h.macros_lt ref hmem
  · obtain ⟨c', ⟨s, hs, hglobal⟩, hc'⟩ := h.defines i d hd hi
    exact ⟨c', ⟨s, hs, hglobal⟩, hc'.heads, hc'.body, hc'.scope, (hsame hglobal).trans hc'.isMacro⟩

/-- One more definition is loaded when its closure is bound to its name. -/
theorem define (h : e.Loaded n) {d : Definition} (hd : Vocabulary.all[n]? = some d) {c : Closure}
    (hc : e.Defines d c) (hlt : c.ref < e.store.nextRef) {s : Symbol}
    (hs : e.store.symbols.lookup d.name = some s) :
    (e.define s (.closure c)).Loaded (n + 1) where
  made := h.made
  macros_lt := h.macros_lt
  closures_lt s' c' hglobal := by
    obtain heq | hold := Globals.eq_or_of_get?_insert hglobal
    · exact Value.closure.inj heq ▸ hlt
    · exact h.closures_lt s' c' hold
  builtin b := by
    obtain ⟨ref, hknows⟩ := h.builtin b
    exact ⟨ref, hknows.define h.made hs (Vocabulary.name_builtin_ne b hd)⟩
  defines i d' hd' hi := by
    rcases Nat.lt_succ_iff_lt_or_eq.1 hi with hi | rfl
    -- definitions have different names, so those before keep their bindings
    · obtain ⟨c', hknows, hc'⟩ := h.defines i d' hd' hi
      exact ⟨c', hknows.define h.made hs (Vocabulary.name_ne hd' hd hi.ne),
        hc'.heads, hc'.body, hc'.scope, hc'.isMacro⟩
    · obtain rfl := Option.some.inj (hd.symm.trans hd')
      exact ⟨c, knows_define hs, hc.heads, hc.body, hc.scope, hc.isMacro⟩
  only s' c' hglobal hkind := by
    rw [global?, Engine.define, Globals.get?_insert] at hglobal
    split at hglobal
    · next hid =>
      obtain rfl := Value.closure.inj (Option.some.inj hglobal)
      have hkind' : d.isMacro = true := hc.isMacro.symm.trans hkind
      exact ⟨d.name, Vocabulary.mem_macros hd (Nat.lt_succ_self n) hkind', s, hs, hid⟩
    · obtain ⟨name, hname, s', hs', hid⟩ := h.only s' c' hglobal hkind
      exact ⟨name, Vocabulary.macros_mono (Nat.le_succ n) hname, s', hs', hid⟩

end Loaded

/-! ## Built-in functions -/

/-- The functions are bound to their names, and there are no closures. -/
structure Offers (functions : List Intrinsic) (e : Engine) : Prop where
  made : e.store.symbols.Made
  macros : ∀ ref, ref ∉ e.macros
  known : ∀ f ∈ functions, ∃ ref, e.Knows e.store.symbols f.name (.intrinsic ref f)
  closures : ∀ (s : Symbol) (c : Closure), e.global? s ≠ some (.closure c)

namespace Offers

variable {functions : List Intrinsic}

theorem new (limits : Limits) (files : String → FileAnswer) :
    (Engine.new limits files).Offers [] where
  made := .empty
  macros _ := Std.HashSet.not_mem_empty
  known f hf := absurd hf List.not_mem_nil
  closures s c h := by
    cases (Globals.get?_empty s).symm.trans h

theorem register (h : e.Offers functions) {f : Intrinsic}
    (hf : ∀ g ∈ functions, g.name ≠ f.name) : (e.register f).Offers (functions ++ [f]) where
  made := h.made.intern f.name
  macros := h.macros
  known g hg := by
    rcases List.mem_append.1 hg with hg | hg
    · obtain ⟨ref, hknows⟩ := h.known g hg
      exact ⟨ref, Knows.defineName (e := { e with store := (e.store.intrinsic f).2 }) hknows h.made
        (hf g hg)⟩
    · obtain rfl := List.mem_singleton.1 hg
      exact ⟨_, knows_defineName (e := { e with store := (e.store.intrinsic g).2 })⟩
  closures s c hglobal := by
    have hsome :
        (e.globals.insert (e.store.intern f.name).1 (.intrinsic e.store.nextRef f)).get? s =
          some (.closure c) := hglobal
    obtain heq | hold := Globals.eq_or_of_get?_insert hsome
    · cases heq
    · exact h.closures s c hold

/-- Functions of different names are bound one after the other. -/
theorem foldl_register (h : e.Offers functions) (more : List Intrinsic)
    (hnodup : ((functions ++ more).map Intrinsic.name).Nodup) :
    (more.foldl Engine.register e).Offers (functions ++ more) := by
  induction more generalizing e functions with
  | nil => rwa [List.append_nil]
  | cons f more ih =>
    rw [List.append_cons] at hnodup ⊢
    refine ih (h.register fun g hg hname => ?_) hnodup
    rw [List.map_append, List.map_append, List.nodup_append] at hnodup
    have hdisjoint := (List.nodup_append.1 hnodup.1).2.2
    exact hdisjoint _ (List.mem_map_of_mem hg) _ (List.mem_singleton_self _) hname

end Offers

/-- An engine with the built-in functions has none of the definitions yet. -/
theorem Loaded.bare {setup : Setup} (hbuiltins : setup.builtins = true)
    (files : String → FileAnswer) : (Interpreter.bare setup files).Loaded 0 := by
  have hnodup : (Intrinsic.standard.map Intrinsic.name).Nodup := by decide +kernel
  have hoffers : (Interpreter.bare setup files).Offers Intrinsic.standard := by
    rw [Interpreter.bare, if_pos hbuiltins]
    exact (Offers.new setup.limits files).foldl_register Intrinsic.standard hnodup
  exact {
    made := hoffers.made
    macros_lt := fun ref href => absurd href (hoffers.macros ref)
    closures_lt := fun s c hglobal => absurd hglobal (hoffers.closures s c)
    builtin := fun b => hoffers.known _ (Intrinsic.builtin_mem_standard b)
    defines := fun _ _ _ hi => absurd hi (Nat.not_lt_zero _)
    only := fun s c hglobal => absurd hglobal (hoffers.closures s c) }

end Engine

end StackLisp
