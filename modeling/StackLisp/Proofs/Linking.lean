import StackLisp.Proofs.Capture
import StackLisp.Proofs.Reached

/-!
# Which links a capture sets

When a function literal is evaluated, the machine walks over the frames of the calls in progress and
links their environments, from the running call outwards, until it comes to one that is linked
already. The running call itself gets a new link in any case, and the outermost one never does.

- `CallFrame.Walk`: the environments of the frames from one back to another, along the saved frame
  pointers;
- `Environments.LinkedUp`: which links are set and which stay as they are;
- `linkedUp_linkUp`: linking sets just these, whatever links there were;
- `Machine.step_closure`: the whole effect of evaluating a function literal on the engine;
- `capture_links_callers`: so it is wherever a machine at work evaluates one.
-/

namespace StackLisp

/-! ## The walk over the frames -/

/-- From a frame back to `home`, which is left out, the calls have the environments of the list,
innermost first. A frame starts behind its callee, environment, saved frame pointer and saved
position. -/
inductive CallFrame.Walk (s : Stack) (home : Nat) : (frame : Nat) → List EnvId → Prop
  | home : Walk s home home []
  | call {base caller : Nat} {env : EnvId} {scopes : List EnvId} : base + 4 ≠ home →
      s.slots[base + 1]? = some (.env env) → s.slots[base + 2]? = some (.int caller) →
      Walk s home caller scopes → Walk s home (base + 4) (env :: scopes)

/-- The saved frame pointers lead one way only. -/
theorem CallFrame.Walk.unique {s : Stack} {home frame : Nat} {scopes others : List EnvId}
    (h : Walk s home frame scopes) (h' : Walk s home frame others) : scopes = others := by
  induction h generalizing others with
  | home =>
    cases h' with
    | home => rfl
    | call hne => exact absurd rfl hne
  | call hne henv hcaller _ ih =>
    cases h' with
    | home => exact absurd rfl hne
    | call _ henv' hcaller' hrest =>
      cases henv.symm.trans henv'
      cases hcaller.symm.trans hcaller'
      rw [ih hrest]

/-- Frames that are spelled out are walked over. -/
theorem Spelled.walk {s : Stack} {home floor frame sp : Nat} {frames : List Frame}
    (hhome : home ≤ floor) (h : Spelled s.slots home floor frames frame sp) :
    CallFrame.Walk s home frame (frames.map Frame.env) := by
  induction h with
  | nil => exact .home
  | cons h hc he hl hr ho hm ih =>
    have hlt := (Spelled.cons h hc he hl hr ho hm).home_lt hhome
    exact .call hlt.ne' he hl ih

/-! ## Links -/

/-- How links are set, where `env` is the environment of the running call, and `callers` are those
of the calls around it, innermost first. -/
structure Environments.LinkedUp (before after : Environments) (env : EnvId)
    (callers : List EnvId) : Prop where
  /-- The running call is linked to its caller, whatever its link was. -/
  running : ∀ caller ∈ callers.head?, after.next? env = some caller
  /-- A caller is linked to its own caller if it had no link, and neither had those before it. -/
  between : ∀ i, (h : i + 1 < callers.length) → after.next? callers[i] =
    if ∀ caller ∈ callers.take (i + 1), before.next? caller = none then some callers[i + 1]
    else before.next? callers[i]
  /-- The outermost call keeps its link, also if it is the running one. -/
  outermost : ∀ outer ∈ (env :: callers).getLast?, after.next? outer = before.next? outer
  others : ∀ other ∉ env :: callers, after.next? other = before.next? other
  bindings : ∀ other, after.bindings other = before.bindings other
  size : after.size = before.size

/-- A link of another environment leaves a link alone. -/
theorem Environments.next?_link_of_ne (envs : Environments) {env other next : EnvId}
    (h : other ≠ env) : (envs.link env next).next? other = envs.next? other := by
  rw [next?_link, if_neg fun heq => h heq.1]

namespace Environments.LinkedUp

variable {envs after : Environments} {env caller : EnvId} {callers : List EnvId}

theorem alone (envs : Environments) (env : EnvId) : envs.LinkedUp envs env [] :=
  ⟨by simp, by simp, fun _ _ => rfl, fun _ _ => rfl, fun _ => rfl, rfl⟩

/-- The first link is none of those further out. -/
theorem next?_first (envs : Environments) (hdistinct : (env :: callers).Nodup) (next : EnvId)
    {other : EnvId} (hmem : other ∈ callers) :
    (envs.link env next).next? other = envs.next? other :=
  envs.next?_link_of_ne fun heq => (List.nodup_cons.1 hdistinct).1 (heq ▸ hmem)

/-- Linking stops at a caller that is linked already. -/
theorem stop (hdistinct : (env :: caller :: callers).Nodup) (henv : env < envs.size)
    (hlinked : (envs.next? caller).isSome) :
    envs.LinkedUp (envs.link env caller) env (caller :: callers) where
  running := by simp [next?_link, henv]
  between i h := by
    rw [next?_first envs hdistinct caller (List.getElem_mem _), if_neg]
    intro hnone
    rw [hnone caller (by simp)] at hlinked
    cases hlinked
  outermost outer houter := by
    rw [List.getLast?_cons_cons] at houter
    exact next?_first envs hdistinct caller (List.mem_of_getLast? houter)
  others other hother := envs.next?_link_of_ne fun heq => hother (heq ▸ List.mem_cons_self)
  bindings other := envs.bindings_link env other caller
  size := envs.size_link env caller

/-- Linking goes on from a caller that is not linked yet. -/
theorem onward (hdistinct : (env :: caller :: callers).Nodup) (henv : env < envs.size)
    (hfree : envs.next? caller = none) (h : (envs.link env caller).LinkedUp after caller callers) :
    envs.LinkedUp after env (caller :: callers) where
  running := by
    rw [h.others env (List.nodup_cons.1 hdistinct).1]
    simp [next?_link, henv]
  between i hi := by
    have hsame : ∀ other ∈ callers, (envs.link env caller).next? other = envs.next? other :=
      fun _ hmem => next?_first envs hdistinct caller (List.mem_cons_of_mem _ hmem)
    cases i with
    | zero =>
      have hi' : 0 < callers.length := by simpa using hi
      rw [if_pos (by simp [hfree])]
      exact h.running _ (by simp [List.head?_eq_getElem?, hi'])
    | succ i =>
      have hi' : i + 1 < callers.length := by simpa using hi
      -- the caller has no link, so it is for the others to decide
      have hnone : (∀ other ∈ callers.take (i + 1), (envs.link env caller).next? other = none) ↔
          ∀ other ∈ (caller :: callers).take (i + 1 + 1), envs.next? other = none := by
        rw [List.take_succ_cons, List.forall_mem_cons, and_iff_right hfree]
        refine forall₂_congr fun other hmem => ?_
        rw [hsame other (List.mem_of_mem_take hmem)]
      simp only [List.getElem_cons_succ]
      rw [h.between i hi', hsame _ (List.getElem_mem _)]
      exact if_congr hnone rfl rfl
  outermost outer houter := by
    rw [List.getLast?_cons_cons] at houter
    rw [h.outermost outer houter]
    exact next?_first envs hdistinct caller (List.mem_of_getLast? houter)
  others other hother := by
    rw [List.mem_cons, not_or] at hother
    rw [h.others other hother.2, envs.next?_link_of_ne hother.1]
  bindings other := by rw [h.bindings, bindings_link]
  size := by rw [h.size, size_link]

end Environments.LinkedUp

/-- Linking up environments that are all different sets these links. -/
theorem linkedUp_linkUp {env : EnvId} {callers : List EnvId} {envs : Environments}
    (hdistinct : (env :: callers).Nodup) (hsize : ∀ other ∈ env :: callers, other < envs.size) :
    envs.LinkedUp (linkUp envs (env :: callers)) env callers := by
  induction callers generalizing env envs with
  | nil => exact .alone envs env
  | cons caller callers ih =>
    have henv := hsize env List.mem_cons_self
    have hne : caller ≠ env := fun heq => (List.nodup_cons.1 hdistinct).1 (heq ▸ List.mem_cons_self)
    simp only [linkUp, envs.next?_link_of_ne hne]
    split
    case isTrue hlinked => exact .stop hdistinct henv hlinked
    case isFalse hfree =>
      refine .onward hdistinct henv (Option.not_isSome_iff_eq_none.1 hfree) ?_
      refine ih hdistinct.of_cons fun other hmem => ?_
      rw [Environments.size_link]
      exact hsize other (List.mem_cons_of_mem _ hmem)

/-! ## Evaluating a function literal -/

open Eval CallFrame in
/-- The whole effect of evaluating a function literal: the environments of the calls are linked up,
and a copy of the function, bound to that of the running call, takes its place on the stack. -/
theorem Machine.step_closure {ev : Evaluator} {home floor p : Nat} {e : Engine} {f : Frame}
    {rest : List Frame} {template : Closure} {operands : List Value} (hhome : home ≤ floor)
    (h : e.Holds home floor (f :: rest)) (hd : f.closure.code.decode p = .ok .closure)
    (hf : f.operands = .closure template :: operands) :
    step ev home ⟨f.closure, p⟩ e = (.ok (.running ⟨f.closure, p + 1⟩),
      Engine.fill
        { e with
          store := e.store.fresh.2
          envs := linkUp e.envs (f.env :: rest.map Frame.env)
          macros := if e.isMacro template then e.macros.insert e.store.nextRef else e.macros }
        (e.sp - 1)
        (.value (.closure { template with ref := e.store.nextRef, env := some f.env }))) := by
  have hslot : e.sp - 1 = e.frame + operands.length := by
    rw [h.sp_eq, hf, List.length_cons]
    rfl
  rw [closure_run hhome h hd hf, bind_of_ok (Reference.bind_eq _ _ _ _), hslot]
  refine bind_of_ok (write_run ?_ _) _
  exact h.room [] hf

/-- Wherever a machine at work evaluates a function literal, the walk over the frames ends and gives
the environments of the calls since `home`, which are all different. The running closure has the
function among its constants. A copy of that, bound to the environment of the running call, takes
its place on the stack. Of the links, just those between the calls are set that are to be set, and
of the rest of the engine nothing changes: no binding, no other slot and not whether the function
itself is a macro. -/
theorem capture_links_callers [Unbound] {fuel home : Nat} {e : Engine} {a : Activation}
    (h : Working fuel home e a) (hd : a.closure.code.fetch a.position = .ok .closure) :
    ∃ (env : EnvId) (callers : List EnvId) (place : Nat) (template : Closure) (e' : Engine),
      (∀ scopes, CallFrame.Walk e.stack home e.frame scopes ↔ scopes = env :: callers) ∧
      (∀ steps, e.stack.size < steps →
        CallFrame.enclosing e.stack home steps e.frame #[] = .ok (env :: callers).toArray) ∧
      (env :: callers).Nodup ∧
      a.closure.constants[place]? = some (.closure template) ∧ template.env = none ∧
      e.stack.slots[e.sp - 1]? = some (.value (.closure template)) ∧
      Machine.step (Machine.evaluator fuel) home a e =
        (.ok (.running { a with position := a.position + 1 }), e') ∧
      e' = Engine.fill
        { e with
          store := e.store.fresh.2
          envs := e'.envs
          macros := if e.isMacro template then e.macros.insert e.store.nextRef else e.macros }
        (e.sp - 1) (.value (.closure { template with ref := e.store.nextRef, env := some env })) ∧
      e.envs.LinkedUp e'.envs env callers ∧ e'.isMacro template = e.isMacro template := by
  obtain ⟨floor, ⟨hhome, -, f, rest, hclosure, hf, hgo⟩, -⟩ := h.coherent
  obtain ⟨c, p⟩ := a
  obtain rfl : c = f.closure := hclosure
  have hdecode := Code.decode_of_fetch hd
  -- the function to be bound is on top of the operands
  obtain ⟨place, template, operands, hv, hunbound, hoperands⟩ := hgo.of_closure hdecode
  have hwalk : CallFrame.Walk e.stack home e.frame (f.env :: rest.map Frame.env) :=
    Spelled.walk hhome hf
  -- every call has a younger environment than its caller, so no two are the same
  have hdistinct : (f.env :: rest.map Frame.env).Nodup := hgo.scopes.imp fun hgt => hgt.ne'
  have hsize : ∀ other ∈ f.env :: rest.map Frame.env, other < e.envs.size :=
    List.forall_mem_cons.2 ⟨hgo.env, fun other hmem =>
      ((List.pairwise_cons.1 hgo.scopes).1 other hmem).trans hgo.env⟩
  have htop : e.stack.slots[e.sp - 1]? = some (.value (.closure template)) := by
    have hspells := hf.spells
    rw [hoperands] at hspells
    rw [hf.sp_eq, hoperands]
    exact hspells.1
  refine ⟨f.env, rest.map Frame.env, place, template, _, fun scopes => ⟨fun hs => hs.unique hwalk,
    fun hs => hs ▸ hwalk⟩, fun steps hsteps => ?_, hdistinct, hv, hunbound, htop,
    Machine.step_closure hhome hf hdecode hoperands, rfl, linkedUp_linkUp hdistinct hsize, ?_⟩
  · -- every frame takes slots of its own, so there are fewer of them than slots
    have hlength := hf.length_le_size.trans_lt hsteps
    simpa using CallFrame.enclosing_eq hhome hf hlength #[]
  · -- a copy is made a macro only if the function is one
    change (if e.isMacro template then e.macros.insert e.store.nextRef else e.macros).contains
      template.ref = e.isMacro template
    split
    case isTrue hmarked =>
      rw [hmarked, Std.HashSet.contains_insert, Bool.or_eq_true]
      exact .inr hmarked
    case isFalse => rfl

/-! ## An example -/

section Example

attribute [local instance] Unbound.anywhere

/-- A function that does nothing but call another one. -/
def callOf (ref : Ref) (c : Closure) : Closure :=
  { ref, name := "anonymous", code := #[1, 8, 0, 4, 0, 3], positional := 0, variadic := false
    constants := #[.closure c], env := none }

theorem coded_callOf {G : Value → Prop} (ref : Ref) {c : Closure} (h : G (.closure c)) :
    (callOf ref c).Coded G := by
  have hcode : EmitsBody (callOf ref c).constants [.call (.constant (.closure c)) []]
      [.const 0, .call 0, .ret] := .last (.call (.constant rfl .nil) rfl .nil)
  refine .intro ⟨⟨_, rfl, hcode, by simp [labelIds]⟩, ?_⟩ ?_
  · simp [ClosureOf.parameters, callOf]
  · simpa using .call (.constant h) (List.forall_mem_nil _)

theorem Compiler.coded_emptyThunk {G : Value → Prop} (ref : Ref) (h : G .nil) :
    (emptyThunk ref).Coded G := by
  have hempty : EmitsBody (emptyFunction ref).constants [.constant .nil] [.const 0, .ret] :=
    .last (.constant rfl .nil)
  have hinner : (emptyFunction ref).Coded G := by
    refine .intro ⟨⟨_, rfl, hempty, by simp [labelIds]⟩, ?_⟩ ?_
    · simp [ClosureOf.parameters, emptyFunction]
    · simpa using .constant h
  exact .intro (implements_emptyThunk ref (ref + 1) none) (by simpa using .function rfl hinner)

theorem Working.next {fuel home : Nat} {e : Engine} {a a' : Activation}
    (h : Working fuel home e a)
    (hstep : (Machine.step (Machine.evaluator fuel) home a e).1 = .ok (.running a')) :
    Working fuel home (Machine.step (Machine.evaluator fuel) home a e).2 a' :=
  h.step (Prod.ext hstep rfl)

/-- The function of the form `(fn ())` is called by a function that is called by another one, and is
about to evaluate its function literal. None of the three is bound to an environment. -/
theorem Working.nested : ∃ e, Working 1 0 e ⟨Compiler.emptyThunk 0, 3⟩ ∧
    CallFrame.enclosing e.stack 0 (e.stack.size + 1) e.frame #[] = .ok #[2, 1, 0] ∧
    e.envs.next? 1 = none ∧ e.envs.next? 0 = none := by
  have hreached := Reached.bare { builtins := false, limits := { initialSlots := 32 } }
    fun _ => .unread
  have hinner : (Value.closure (Compiler.emptyThunk 0)).Proper 0 :=
    .closure (fun _ => trivial) (by simp [Compiler.emptyThunk]) (Compiler.coded_emptyThunk 0 .nil)
  have hmiddle : (Value.closure (callOf 2 (Compiler.emptyThunk 0))).Proper 0 :=
    .closure (fun _ => trivial) (by simp [callOf]) (coded_callOf 2 hinner)
  have houter : (callOf 3 (callOf 2 (Compiler.emptyThunk 0))).Callable 0 :=
    ⟨coded_callOf 3 hmiddle, by simp [callOf]⟩
  -- two calls are made, and then the function to be bound is pushed
  have hstart : Working 1 0 _ ⟨callOf 3 (callOf 2 (Compiler.emptyThunk 0)), 1⟩ :=
    .start hreached houter (List.forall_mem_nil _) (by decide) (Prod.ext rfl rfl)
  have hpush : Working 1 0 _ ⟨callOf 3 (callOf 2 (Compiler.emptyThunk 0)), 3⟩ := hstart.next rfl
  have hcall : Working 1 0 _ ⟨callOf 2 (Compiler.emptyThunk 0), 1⟩ := hpush.next rfl
  have hpush' : Working 1 0 _ ⟨callOf 2 (Compiler.emptyThunk 0), 3⟩ := hcall.next rfl
  have hcall' : Working 1 0 _ ⟨Compiler.emptyThunk 0, 1⟩ := hpush'.next rfl
  exact ⟨_, hcall'.next rfl, rfl, rfl, rfl⟩

/-- There, linking goes all the way. -/
theorem capture_links_callers_nested : ∃ e a, Working 1 0 e a ∧
    a.closure.code.fetch a.position = .ok .closure ∧ e.envs.next? 1 = none ∧
    ∃ next e', Machine.step (Machine.evaluator 1) 0 a e = (.ok (.running next), e') ∧
      e'.envs.next? 2 = some 1 ∧ e'.envs.next? 1 = some 0 ∧ e'.envs.next? 0 = none := by
  obtain ⟨e, hworking, hwalk, hmiddle, houter⟩ := Working.nested
  obtain ⟨env, callers, -, -, e', -, hfound, -, -, -, -, hstep, -, hlinked, -⟩ :=
    capture_links_callers hworking rfl
  have hscopes : (env :: callers).toArray = #[2, 1, 0] :=
    Except.ok.inj ((hfound _ (Nat.lt_succ_self _)).symm.trans hwalk)
  obtain ⟨rfl, rfl⟩ := List.cons.inj (congrArg Array.toList hscopes)
  have hbetween : e'.envs.next? 1 = some 0 := by
    simpa [hmiddle] using hlinked.between 0 Nat.one_lt_two
  exact ⟨e, _, hworking, rfl, hmiddle, _, e', hstep, hlinked.running 1 rfl, hbetween,
    (hlinked.outermost 0 rfl).trans houter⟩

end Example

end StackLisp
