import StackLisp.Proofs.Loaded
import StackLisp.Proofs.Objects
import StackLisp.Proofs.Sessions
import StackLisp.Proofs.Simulation
import StackLisp.Proofs.Verified

/-!
# The machine refines the reference evaluator

Machines with enough fuel end exactly like the reference evaluator, with the same value or error
and the same engine apart from the stack, unless there are too few slots for it. This holds for all
calls from outside, and so for the evaluators as a whole.

- `Machine.agrees_applyWith`: calls from outside agree;
- `agree_evaluator`: the evaluator of the machine follows that of the reference;
- `MacroFree`, `Compiler.compileThunk_reads`: forms that call no macro are read as they stand;
- `compiled_form_refines`: the machine does what such a form means.
-/

namespace StackLisp

open Eval

attribute [local instance] Unbound.never

namespace Machine

variable {R : Nat} {X : Nat → Evaluator} {y : Evaluator} {c : Closure} {args : List Value}
  {s t : Engine}

/-- The slots that a call from outside takes before its code starts. -/
def entry (c : Closure) (args : List Value) : Nat :=
  1 + args.length + CallFrame.header + c.code.maxStack + 1

/-- A call from outside starts as the leader's does, unless the stack is used up. -/
theorem start_mirrors (hc : c.Callable t.envs.size) (args : List Value)
    (hgist : s.gist = t.gist) (hframe : s.frame ≤ s.sp) :
    (Leeway.lax R).GivesUp (entry c args) s.limits.maxSlots s.sp (start c args s).1 ∨
    match Reference.enter c args t with
    | (.ok env, t₁) => ∃ s₁, start c args s = (.ok ⟨c, 1⟩, s₁) ∧ s.Spares s.sp s₁ ∧
        Mirrors t₁ ⟨c, env, [], 0⟩ [] s.frame s.sp s₁
    | (.error stop, t₁) => ∃ s₁, start c args s = (.error stop, s₁) ∧ s.Spares s.sp s₁ ∧
        s₁.gist = t₁.gist := by
  -- the stack can be used up twice: by the arguments and by the frame
  rcases pushCall_run c args s with ⟨hno, hfull⟩ | ⟨-, s₀, hpush, hr, hprepared⟩
  · have hlt : s.limits.maxSlots < s.sp + args.length + 1 :=
      Nat.lt_of_not_le fun hle => hno (.inr hle)
    refine .inl ⟨overflow _ s, by rw [start, bind_of_error hfull], ?_, _, hlt, rfl⟩
    rw [entry]
    omega
  · have hlimits : s₀.limits.maxSlots = s.limits.maxSlots := congrArg Limits.maxSlots hr.limits
    have hspares : s.Spares s.sp s₀ := ⟨hr.slots, hr.size, hlimits⟩
    rcases performs_enter hc.terms.1 hprepared with ⟨hno, hfull⟩ | ⟨-, hperforms⟩
    · have hlt := lt_demand_of_not_admits hno
      have hstop : (start c args s).1 = .error (overflow (demand c s₀.sp) s₀) := by
        rw [start, bind_of_ok hpush, hfull]
      rw [hlimits] at hlt
      refine .inl ⟨_, hstop, ?_, _, hlt, by rw [overflow, hlimits]⟩
      rw [demand, hprepared.sp] at hlt
      rw [entry]
      omega
    · have hblind := Reference.blind_enter c args
      have hgist₀ := (Engine.gist_of_core hr.core).trans hgist
      rw [start, bind_of_ok hpush]
      refine .inr ?_
      cases hrun : Reference.enter c args t with
      | mk result t₁ =>
        cases result with
        | ok env =>
          obtain ⟨s₁, hx, hspares₁, hgist₁, hf⟩ := hperforms.ok_of_gist hblind hgist₀ hrun
          exact ⟨s₁, hx, hspares.trans hspares₁, hframe, hgist₁, 0, hf⟩
        | error stop =>
          obtain ⟨s₁, hx, hspares₁, hgist₁⟩ := hperforms.error_of_gist hblind hgist₀ hrun
          exact ⟨s₁, hx, hspares.trans hspares₁, hgist₁⟩

/-- The machines are at the start of a closure's code, and the leader at that of its terms. -/
theorem pursues_body (hev : Evaluator.Agree (.lax R) X y) (hs : t.Sound) (hframe : t.frame ≤ t.sp)
    (hc : c.Callable t.envs.size) (hargs : ∀ v ∈ args, v.Proper t.envs.size) {env : EnvId}
    {t₁ : Engine} (henter : Reference.enter c args t = (.ok env, t₁)) :
    Pursues (.lax R) X t₁ ⟨c, env, [], 0⟩ [] ⟨c, 1⟩ R (Reference.call y (R + 1) [] c args t) := by
  obtain ⟨hk, hs₁, rfl, hsize, -⟩ := (Reference.safe_enter hc hargs).of_ok hs hframe henter
  obtain ⟨himplements, hterms⟩ := hc.terms
  have hp : Poised t₁ ⟨c, t.envs.size, [], 0⟩ [] :=
    ⟨hs₁, hk.frame_le hframe, hsize ▸ Nat.lt_succ_self _, List.pairwise_singleton _ _⟩
  have hbody := himplements.body.pursues (K := pure) hev (callsPursued hev R) rfl rfl hp
    (fun term hterm => (hterms term hterm).mono hk.envs) fun v t' q _ hret => .finish hret rfl
  rw [bind_pure] at hbody
  rw [Reference.call, bind_of_ok henter]
  exact hbody

/-- Machines that start the call at engines like `t` do what the leader did, which started it
there. -/
structure CallTracks (R : Nat) (X : Nat → Evaluator) (c : Closure) (args : List Value) (t : Engine)
    (o : Except Stop Value × Engine) : Prop where
  spent : Spent o.1 → ∀ i ≤ R, ∀ {s : Engine}, s.gist = t.gist → s.frame ≤ s.sp →
    (∃ slots, (Leeway.lax R).GivesUp slots s.limits.maxSlots s.sp (callWith (X i) i c args s).1) ∨
      Spent (callWith (X i) i c args s).1
  ends : ¬ Spent o.1 → ∃ enough, ∀ i {s : Engine}, s.gist = t.gist → s.frame ≤ s.sp →
    (Leeway.lax R).GivesUp enough s.limits.maxSlots s.sp (callWith (X i) i c args s).1 ∨
      (i < enough ∧ Spent (callWith (X i) i c args s).1) ∨
      Arrives s.sp s (callWith (X i) i c args s) o

/-- Machines that cannot start a call do not make it. -/
theorem givesUp_of_start {i slots maxSlots sp : Nat}
    (h : (Leeway.lax R).GivesUp slots maxSlots sp (start c args s).1) :
    (Leeway.lax R).GivesUp slots maxSlots sp (callWith (X i) i c args s).1 := by
  obtain ⟨stop, hstop, hexcused⟩ := h
  exact ⟨stop, by rw [callWith_run, bind_of_error (Prod.ext hstop rfl)], hexcused⟩

/-- The leader stops before its first term. -/
theorem CallTracks.of_error (hc : c.Callable t.envs.size) {stop : Stop} {t₁ : Engine}
    (henter : Reference.enter c args t = (.error stop, t₁)) :
    CallTracks R X c args t (.error stop, t₁) := by
  have hstops : ∀ i {s : Engine}, s.gist = t.gist → s.frame ≤ s.sp →
      (Leeway.lax R).GivesUp (entry c args) s.limits.maxSlots s.sp
        (callWith (X i) i c args s).1 ∨
      Arrives s.sp s (callWith (X i) i c args s) (.error stop, t₁) := by
    intro i s hgist hframe
    have hstart := start_mirrors (R := R) hc args hgist hframe
    rw [henter] at hstart
    refine hstart.imp givesUp_of_start ?_
    rintro ⟨s₁, hstart, hspares, hgist₁⟩
    rw [callWith_run, bind_of_error hstart]
    exact ⟨rfl, hgist₁, hspares⟩
  refine ⟨fun ho i _ s hgist hframe => (hstops i hgist hframe).imp (⟨_, ·⟩) fun h => ?_,
    fun _ => ⟨entry c args, fun i s hgist hframe => (hstops i hgist hframe).imp_right .inr⟩⟩
  exact h.result.trans ho

/-- The leader arrives at its first term, and the run from there decides. -/
theorem CallTracks.of_ok (hc : c.Callable t.envs.size) {env : EnvId} {t₁ : Engine}
    (henter : Reference.enter c args t = (.ok env, t₁)) {o : Except Stop Value × Engine}
    (h : Pursues (.lax R) X t₁ ⟨c, env, [], 0⟩ [] ⟨c, 1⟩ R o) : CallTracks R X c args t o := by
  obtain ⟨hspent, hends⟩ := h
  have hstarts : ∀ i {s : Engine}, s.gist = t.gist → s.frame ≤ s.sp →
      (Leeway.lax R).GivesUp (entry c args) s.limits.maxSlots s.sp
        (callWith (X i) i c args s).1 ∨
      ∃ s₁, callWith (X i) i c args s = run (X i) s.frame i ⟨c, 1⟩ s₁ ∧ s.Spares s.sp s₁ ∧
        Mirrors t₁ ⟨c, env, [], 0⟩ [] s.frame s.sp s₁ := by
    intro i s hgist hframe
    have hstart := start_mirrors (R := R) hc args hgist hframe
    rw [henter] at hstart
    refine hstart.imp givesUp_of_start ?_
    rintro ⟨s₁, hstart, hspares, hmirrors⟩
    exact ⟨s₁, by rw [callWith_run, bind_of_ok hstart], hspares, hmirrors⟩
  -- the leader spends all its fuel, or it ends
  refine ⟨fun ho i hi s hgist hframe => ?_, fun ho => ?_⟩
  · rcases hstarts i hgist hframe with h | ⟨s₁, hrun, hspares, hmirrors⟩
    · exact .inl ⟨_, h⟩
    · rw [hrun, ← hspares.limit]
      exact hspent ho i hi i hi hmirrors
  · obtain ⟨enough, hends⟩ := hends ho
    refine ⟨max (entry c args) enough, fun i s hgist hframe => ?_⟩
    rcases hstarts i hgist hframe with h | ⟨s₁, hrun, hspares, hmirrors⟩
    · exact .inl (h.mono (le_max_left _ _))
    · rw [hrun, ← hspares.limit]
      rcases hends i i hmirrors with h | ⟨hi, h⟩ | h
      · exact .inl (h.mono (le_max_right _ _))
      · exact .inr (.inl ⟨lt_max_of_lt_right (hi.elim id id), h⟩)
      · exact .inr (.inr ⟨h.result, h.gist, hspares.trans h.spares⟩)

/-- Machines that are started from outside do what the leader does. -/
theorem callWith_follows (hev : Evaluator.Agree (.lax R) X y) (hs : t.Sound)
    (hframe : t.frame ≤ t.sp) (hc : c.Callable t.envs.size)
    (hargs : ∀ v ∈ args, v.Proper t.envs.size) :
    CallTracks R X c args t (Reference.call y (R + 1) [] c args t) := by
  cases henter : Reference.enter c args t with
  | mk result t₁ =>
    cases result with
    | error stop =>
      have hleader : Reference.call y (R + 1) [] c args t = (.error stop, t₁) := by
        rw [Reference.call, bind_of_error henter]
      rw [hleader]
      exact .of_error hc henter
    | ok env => exact .of_ok hc henter (pursues_body hev hs hframe hc hargs henter)

/-- Calls from outside agree with those of the reference evaluator. -/
theorem agrees_applyWith (hev : Evaluator.Agree (.lax R) X y) (hX : ∀ i, (X i).Safe)
    (hc : c.Callable t.envs.size) (hargs : ∀ v ∈ args, v.Proper t.envs.size) :
    Agrees (.lax R) t (fun i => applyWith (X i) i c args) (Reference.apply y (R + 1) c args)
      ProperResult := by
  have hsafe := Reference.safe_apply hev.safe (R + 1) hc hargs
  refine ⟨hsafe, fun hs hframe => ?_⟩
  -- leader and followers refuse at the same depth
  have hcount : ∀ {s : Engine}, s.gist = t.gist →
      s.limits.maxApplyDepth = t.limits.maxApplyDepth ∧ s.depth = t.depth :=
    fun hgist => ⟨Engine.congr_gist (·.limits.maxApplyDepth) (fun _ _ _ _ _ => rfl) hgist,
      Engine.congr_gist Engine.depth (fun _ _ _ _ _ => rfl) hgist⟩
  by_cases hdeep : t.limits.maxApplyDepth ≤ t.depth
  · -- calls nest too deep for both
    have hleader : Reference.apply y (R + 1) c args t = (.error (.fault (.exhausted
        (.applyDepth t.limits.maxApplyDepth))), t) := if_pos hdeep
    rw [hleader]
    refine ⟨fun ho => (nomatch ho), fun _ => ⟨0, fun i s hlike => .inr (.inr ?_)⟩⟩
    obtain ⟨hsame, hdepth⟩ := hcount hlike.gist
    rw [applyWith_of_deep _ _ c args (by rwa [hsame, hdepth]), hsame]
    exact ⟨rfl, hlike, .refl s⟩
  · have hleader : Reference.apply y (R + 1) c args t =
        ((Reference.call y (R + 1) [] c args { t with depth := t.depth + 1 }).1,
          { (Reference.call y (R + 1) [] c args { t with depth := t.depth + 1 }).2 with
            depth := t.depth }) := if_neg hdeep
    have hrun : ∀ i {s : Engine}, s.gist = t.gist → applyWith (X i) i c args s =
        ((callWith (X i) i c args { s with depth := t.depth + 1 }).1,
          { (callWith (X i) i c args { s with depth := t.depth + 1 }).2 with
            sp := s.sp, frame := s.frame, depth := t.depth }) := by
      intro i s hgist
      obtain ⟨hsame, hdepth⟩ := hcount hgist
      rw [applyWith_run _ _ c args (by rwa [hsame, hdepth]), hdepth]
    have hs₀ : Engine.Sound { t with depth := t.depth + 1 } :=
      ⟨hs.globals, hs.bindings, hs.older, hs.hosts⟩
    obtain ⟨hspent, hends⟩ := callWith_follows hev hs₀ hframe hc hargs
    rw [hleader]
    refine ⟨fun ho i hi s hlike => ?_, fun ho => ?_⟩
    · rw [hrun i hlike.gist]
      exact hspent ho i hi (Engine.gist_withDepth _ hlike.gist) hlike.frame
    · obtain ⟨enough, hends⟩ := hends ho
      refine ⟨enough, fun i s hlike => ?_⟩
      have henvs : s.envs = t.envs :=
        Engine.congr_gist Engine.envs (fun _ _ _ _ _ => rfl) hlike.gist
      rw [← henvs] at hc hargs
      obtain ⟨hkeeps, -, -⟩ := safe_applyWith (hX i) i hc hargs (hs.of_gist hlike.gist) hlike.frame
      rw [hrun i hlike.gist] at hkeeps ⊢
      refine (hends i (Engine.gist_withDepth _ hlike.gist) hlike.frame).imp_right
        (.imp_right fun h => ?_)
      exact ⟨h.result, ⟨Engine.gist_withDepth t.depth h.gist, hlike.frame, False.elim, trivial⟩,
        hkeeps⟩

end Machine

/-! ## Evaluators -/

/-- Followers that start one unit of fuel later. -/
theorem Agrees.delay {α : Type} {R : Nat} {t : Engine} {X : Nat → Eval α} {y : Eval α}
    {Q : α → Engine → Prop} (h : Agrees (.lax R) t (fun i => X (i + 1)) y Q)
    (hx : ∀ s, Spent (X 0 s).1) : Agrees (.lax (R + 1)) t X y Q := by
  refine ⟨h.safe, fun hs hf => ?_⟩
  obtain ⟨hspent, hends⟩ := h.tracks hs hf
  have hlike : ∀ {s}, (Leeway.lax (R + 1)).Like s t → (Leeway.lax R).Like s t :=
    fun h => ⟨h.gist, h.frame, h.exact, h.near⟩
  -- the first follower has no fuel, and each other one is as good as the one before it
  refine ⟨fun ho i hi s hs => ?_, fun ho => ?_⟩
  · cases i with
    | zero => exact .inr (hx s)
    | succ i => exact hspent ho i (Nat.le_of_succ_le_succ hi) s (hlike hs)
  · obtain ⟨enough, hends⟩ := hends ho
    refine ⟨enough + 1, fun i s hs => ?_⟩
    cases i with
    | zero => exact .inr (.inl ⟨Nat.succ_pos _, hx s⟩)
    | succ i =>
      rcases hends i s (hlike hs) with h | ⟨hi, h⟩ | h
      · exact .inl (h.mono (Nat.le_succ _))
      · exact .inr (.inl ⟨Nat.succ_lt_succ hi, h⟩)
      · exact .inr (.inr
          ⟨h.result, ⟨h.like.gist, h.like.frame, h.like.exact, h.like.near⟩, h.keeps⟩)

/-- Machines follow the reference evaluator in all that may be asked of them. -/
theorem agree_evaluator (R : Nat) :
    Evaluator.Agree (.lax R) Machine.evaluator (Reference.evaluator R) := by
  induction R with
  | zero =>
    have hspent : ∀ i ≤ (Leeway.lax 0).patience, i = 0 := fun i hi => Nat.le_zero.1 hi
    refine ⟨⟨0, fun i _ => Nat.zero_le _⟩, fun i hi => ?_, fun _ _ => ?_, fun t path => ?_⟩
    · rw [hspent i hi]
      exact le_rfl
    · exact .spent (fun i hi s => by rw [hspent i hi]; rfl) _
    · exact .spent (fun i hi s => by rw [hspent i hi]; rfl) _
  | succ R ih =>
    refine ⟨⟨R + 1, fun i hi => ?_⟩, fun i hi => ?_, fun hc hargs => ?_, fun t path => ?_⟩
    · obtain ⟨i, rfl⟩ := Nat.exists_eq_add_of_le' (Nat.one_le_of_lt hi)
      exact Nat.le_of_succ_le_succ hi
    · cases i with
      | zero => exact Nat.zero_le _
      | succ i => exact Nat.le_of_succ_le_succ hi
    · exact .delay (Machine.agrees_applyWith ih Machine.safe_evaluator hc hargs) fun _ => rfl
    · exact .delay (Machine.agrees_loadFile ih t path) fun _ => rfl

/-! ## Forms without macros -/

/-- Neither the form nor any part of it that is evaluated calls a macro. -/
inductive MacroFree (k : Keywords) (e : Engine) : Value → Prop
  | intro {form : Value} : Compiler.macroCall? k e form = none →
      (∀ {ref head others shape}, form = .list ref head others →
        Shape.ofItems k head others = .ok shape → ∀ part ∈ shape.parts, MacroFree k e part) →
      MacroFree k e form

/-- Without macros no form calls one. -/
theorem macroFree_of_noMacros {k : Keywords} {e : Engine} (he : e.NoMacros) (form : Value) :
    MacroFree k e form := by
  refine .intro (Compiler.macroCall?_of_noMacros he form) fun heq hshape part hpart => ?_
  subst heq
  rcases Shape.mem_of_mem_parts hshape hpart with rfl | hmem
  · exact .intro rfl nofun
  · exact macroFree_of_noMacros he part
termination_by sizeOf form
decreasing_by
  have := List.sizeOf_lt_of_mem hmem
  simp only [List.cons.sizeOf_spec] at this
  simp_all only [Value.list.sizeOf_spec]
  omega

namespace Compiler

/-- A form that calls no macro is its own expansion. -/
theorem expandWithin_of_none {ev : Evaluator} {k : Keywords} {fuel : Nat} {form w : Value}
    {e e' : Engine} (hnone : macroCall? k e form = none)
    (h : expandWithin ev k fuel form e = (.ok w, e')) : form = w ∧ e = e' := by
  cases fuel with
  | zero => cases h
  | succ fuel =>
    have honce : expandOnce ev k form e = (.ok form, e) := by
      rw [expandOnce, Eval.bind_of_ok (Eval.get_run e), hnone]
      rfl
    rw [expandWithin, Eval.bind_of_ok honce, if_pos (Value.identical_refl form)] at h
    cases h
    exact ⟨rfl, rfl⟩

/-- Compiling forms without macros that are made of known objects. Their parts stay as they are, and
so do literals and quoted values. -/
def Policy.macroFree (ev : Evaluator) (k : Keywords) (origin : Engine) (w : Objects) :
    Policy ev k where
  World := Unit
  state _ e := e.globals = origin.globals ∧ e.macros = origin.macros
  form _ v := MacroFree k origin v ∧ v.KnownIn w
  value _ v := v.KnownIn w
  same := Eq
  expands e v u e' := v = u ∧ e = e'
  form_mono _ h := h
  value_mono _ h := h
  same_of_identity _ hu hv h := hu.eq_of_identity hv h
  parts {_ _ _ _ _ _ _ _} _ hform hshape part hpart := by
    obtain ⟨⟨-, hparts⟩, hknown⟩ := hform
    refine ⟨hparts rfl hshape part hpart, ?_⟩
    rcases Shape.mem_of_mem_parts hshape hpart with rfl | hmem
    · exact Value.madeOf_nil
    · exact (Value.madeOf_list_iff.1 hknown).2 part hmem
  quoted {_ _ _ _ _ _ _ _} _ hform hshape :=
    (Value.madeOf_list_iff.1 hform.2).2 _ (List.mem_cons_of_mem _ (Shape.mem_of_quotation hshape))
  atom hform _ := hform.2
  symbol _ s := Value.madeOf_symbol s
  nil _ := Value.madeOf_nil
  fresh hs := hs
  expand {w v e u e'} hs hform h := by
    have hnone : macroCall? k e v = none := by
      obtain ⟨⟨hnone, -⟩, -⟩ := hform
      rw [← hnone]
      simp only [macroCall?, Engine.global?, Engine.isMacro, hs.1, hs.2]
      rfl
    obtain ⟨rfl, rfl⟩ := expandWithin_of_none hnone h
    exact ⟨w, le_rfl, hs, hform, rfl, rfl⟩

/-- From one engine to another, the term reads the form as it stands, with its own literals and
quoted values as constants. -/
abbrev ReadsPlainly (k : Keywords) : Engine → Value → Term → Engine → Prop :=
  Reads k (fun e v u e' => v = u ∧ e = e') Eq

/-- A form without macros is compiled to a function that evaluates a term which reads it. -/
theorem compileThunk_reads {ev : Evaluator} {form : Value} {c : Closure} {e e' : Engine}
    {w : Objects} (hknown : form.KnownIn w) (hfree : MacroFree (Keywords.intern e.store).1 e form)
    (h : compileThunk ev form e = (.ok c, e')) :
    ∃ term e₁, ReadsPlainly (Keywords.intern e.store).1
        { e with store := (Keywords.intern e.store).2 } form term e₁ ∧
      e' = { e₁ with store := e₁.store.fresh.2 } ∧ c.terms = [term] ∧
      (FunctionLiteral.thunk [form]).Heads c := by
  rw [compileThunk_run] at h
  let π := Policy.macroFree ev (Keywords.intern e.store).1 e w
  have hforms : ∀ v ∈ (FunctionLiteral.thunk [form]).body, π.form () v := by
    rintro v hv
    obtain rfl := List.mem_singleton.1 hv
    exact ⟨hfree, hknown⟩
  have hstate : π.state () { e with store := (Keywords.intern e.store).2 } := ⟨rfl, rfl⟩
  obtain ⟨_, hcompiled⟩ := compileTop_compiled (FunctionLiteral.complete_thunk _) hstate hforms h
  obtain ⟨body, e₁, hreads, -, rfl, himplements, -⟩ := hcompiled.body
  rcases hreads with ⟨-, hreads⟩ | ⟨hnil, -⟩
  · obtain ⟨term, _, _, hterm, hrest, rfl⟩ := inTurn_cons.1 hreads
    cases hrest
    exact ⟨term, _, hterm, rfl, himplements.terms_eq, hcompiled.heads⟩
  · cases hnil

end Compiler

/-- Calling a function without parameters evaluates its only term. -/
theorem Reference.apply_thunk {form : Value} {c : Closure} {term : Term}
    (hheads : (FunctionLiteral.thunk [form]).Heads c) (hterms : c.terms = [term]) (R : Nat) :
    (evaluator (R + 1)).apply c [] = evalTop R term := by
  have harity : CallFrame.checkArity c 0 = .ok () := by
    simp [CallFrame.checkArity, hheads.positional, FunctionLiteral.thunk]
  have hbindings : bindArguments c [] = pure [] := by
    simp [bindArguments, hheads.variadic, FunctionLiteral.thunk, bindPositional, Eval.ofExcept]
  have henter : enter c [] = fun e =>
      (.ok (e.envs.create [] none).1, { e with envs := (e.envs.create [] none).2 }) := by
    rw [enter, List.length_nil, harity, hbindings, hheads.unbound]
    rfl
  have hcall : call (evaluator R) (R + 1) [] c [] = (enter c [] >>= fun env => eval
      { evaluator := evaluator R, call := call (evaluator R) R, env, callers := [] } term) := by
    rw [call, hterms]
    rfl
  have happly : (evaluator (R + 1)).apply c [] = nested (call (evaluator R) (R + 1) [] c []) := rfl
  rw [happly, hcall, henter]
  rfl

/-! ## Refinement -/

/-- The first computation, on a stack that may have `slots` slots, ended with the result of the
second one, at an engine that differs by its stack and the limit to it only. -/
structure SameOutcome (slots : Nat) (r o : Except Stop Value × Engine) : Prop where
  result : r.1 = o.1
  core : r.2.core = (o.2.allowing slots).core

/-- The machine ran out of stack: it needed more slots than there may be. -/
def Exhausted (slots : Nat) (r : Except Stop Value) : Prop :=
  ∃ needed, slots < needed ∧ r = .error (.fault (.exhausted (.stack needed slots)))

/-- The machine does what a form without macros means. In every session, the function that such a
form is compiled to evaluates a term that reads the form. If the reference evaluator ends on the
term, with a value or an error, then there is an amount of fuel and of stack slots with which all
machines end like it, and machines with less stack end like it or run out of stack. And if a machine
ends, then it has run out of stack or ends like the reference evaluator with enough fuel. -/
theorem compiled_form_refines {e e' : Engine} {form : Value} {fuel : Nat} {c : Closure}
    {w : Objects} (he : Session e) (hform : form.Proper e.envs.size) (hknown : form.KnownIn w)
    (hfree : MacroFree (Keywords.intern e.store).1 e form)
    (hc : Compiler.compileThunk (Machine.evaluator fuel) form e = (.ok c, e')) :
    ∃ term e₁, Compiler.ReadsPlainly (Keywords.intern e.store).1
        { e with store := (Keywords.intern e.store).2 } form term e₁ ∧
      (∀ R, ¬ Spent (Reference.evalTop R term e').1 → ∃ enough, ∀ m ≥ enough, ∀ slots,
        (slots < enough ∧
          Exhausted slots ((Machine.evaluator m).apply c [] (e'.allowing slots)).1) ∨
        SameOutcome slots ((Machine.evaluator m).apply c [] (e'.allowing slots))
          (Reference.evalTop R term e')) ∧
      ∀ m slots, ¬ Spent ((Machine.evaluator m).apply c [] (e'.allowing slots)).1 →
        Exhausted slots ((Machine.evaluator m).apply c [] (e'.allowing slots)).1 ∨
        ∃ enough, ∀ R ≥ enough,
          SameOutcome slots ((Machine.evaluator m).apply c [] (e'.allowing slots))
            (Reference.evalTop R term e') := by
  obtain ⟨term, e₁, hreads, -, hterms, hheads⟩ := Compiler.compileThunk_reads hknown hfree hc
  have husable := he.usable
  have hcompile := (Compiler.agrees_compileThunk (Machine.safe_evaluator fuel).agree hform).safe
  obtain ⟨hk, hs, hcallable⟩ := hcompile.of_ok husable.sound husable.frame_le hc
  have hframe := hk.frame_le husable.frame_le
  -- what the machines do, for each amount of fuel that the leader has
  have hagrees : ∀ R, Agrees (.lax (R + 1)) e' (fun m => (Machine.evaluator m).apply c [])
      (Reference.evalTop R term) ProperResult := by
    intro R
    have hnone : ∀ v ∈ ([] : List Value), v.Proper e'.envs.size := fun _ hv => nomatch hv
    have hagrees := (agree_evaluator (R + 1)).apply hcallable.1 hnone
    rwa [Reference.apply_thunk hheads hterms] at hagrees
  have hlike : ∀ R slots, (Leeway.lax R).Like (e'.allowing slots) e' :=
    fun _ _ => ⟨rfl, hframe, False.elim, trivial⟩
  have hgivesUp : ∀ {R slots n sp} {r : Except Stop Value}, (Leeway.lax R).GivesUp n slots sp r →
      Exhausted slots r := by
    rintro R slots n sp r ⟨_, rfl, -, needed, hlt, rfl⟩
    exact ⟨needed, hlt, rfl⟩
  have hsame : ∀ {R m slots}, (Leeway.lax (R + 1)).Follows (e'.allowing slots)
      ((Machine.evaluator m).apply c [] (e'.allowing slots)) (Reference.evalTop R term e') →
      SameOutcome slots ((Machine.evaluator m).apply c [] (e'.allowing slots))
        (Reference.evalTop R term e') := by
    intro R m slots h
    -- neither changes its limits, so that the engines differ by the stack's only
    obtain ⟨hkeeps, -, -⟩ := (hagrees R).safe hs hframe
    refine ⟨h.result, Engine.core_of_gist h.like.gist (h.keeps.limits.trans ?_)⟩
    simp only [Engine.allowing, Engine.on, hkeeps.limits]
  refine ⟨term, e₁, hreads, fun R hends => ?_, fun m slots hends => ?_⟩
  · obtain ⟨enough, hfollow⟩ := ((hagrees R).tracks hs hframe).ends hends
    -- the slots in use are counted as well
    refine ⟨e'.sp + enough, fun m hm slots => ?_⟩
    rcases hfollow m _ (hlike _ slots) with h | ⟨hlt, -⟩ | h
    · refine .inl ⟨?_, hgivesUp h⟩
      obtain ⟨_, -, hlt, -⟩ := h
      exact hlt
    · exact absurd hlt (Nat.not_lt.2 ((Nat.le_add_left _ _).trans hm))
    · exact .inr (hsame h)
  · by_cases hexhausted : Exhausted slots ((Machine.evaluator m).apply c [] (e'.allowing slots)).1
    · exact .inl hexhausted
    · refine .inr ⟨m, fun R hR => ?_⟩
      have htracks := (hagrees R).tracks hs hframe
      by_cases hspent : Spent (Reference.evalTop R term e').1
      · -- the leader would have as much fuel as the machine
        rcases htracks.spent hspent m (Nat.le_succ_of_le hR) _ (hlike _ slots) with ⟨_, h⟩ | h
        · exact absurd (hgivesUp h) hexhausted
        · exact absurd h hends
      · obtain ⟨enough, hfollow⟩ := htracks.ends hspent
        rcases hfollow m _ (hlike _ slots) with h | ⟨-, h⟩ | h
        · exact absurd (hgivesUp h) hexhausted
        · exact absurd h hends
        · exact hsame h

theorem Compiler.known_assigning (k : Keywords) (x : Symbol) :
    ∃ w : Objects, (assigning k x).KnownIn w := by
  let assignment := Value.list 0 (.symbol k.assign) [.symbol x, .number (2 : Float)]
  let conditional := Value.list 1 (.symbol k.conditional) [.symbol x, assignment, .symbol x]
  let parameters := Value.list 2 (.symbol x) []
  let function := Value.list 3 (.symbol k.function) [parameters, conditional]
  -- the lists are allocated from the inside out
  obtain ⟨w₀, -, hbelow, hassignment⟩ : ∃ w, ∅ ≤ w ∧ w.Below 1 ∧ assignment.KnownIn w :=
    (Objects.below_empty 0).addList (by simp)
  obtain ⟨w₁, -, hbelow, hconditional⟩ : ∃ w, w₀ ≤ w ∧ w.Below 2 ∧ conditional.KnownIn w :=
    hbelow.addList (by simp [hassignment])
  obtain ⟨w₂, hle, hbelow, hparameters⟩ : ∃ w, w₁ ≤ w ∧ w.Below 3 ∧ parameters.KnownIn w :=
    hbelow.addList (by simp)
  obtain ⟨w₃, -, hbelow, hfunction⟩ : ∃ w, w₂ ≤ w ∧ w.Below 4 ∧ function.KnownIn w :=
    hbelow.addList (by simp [hparameters, hconditional.mono hle])
  obtain ⟨w₄, -, -, hcall⟩ : ∃ w, w₃ ≤ w ∧ w.Below 5 ∧ (assigning k x).KnownIn w :=
    hbelow.addList (by simpa using hfunction)
  exact ⟨w₄, hcall⟩

/-- The form `((fn (x) (if x (set! x 2) x)) 1)` in a new interpreter. -/
theorem compiled_form_refines_assigning : ∃ (e e' e₁ : Engine) (form : Value) (c : Closure)
    (term : Term) (w : Objects), Session e ∧ form.Proper e.envs.size ∧ form.KnownIn w ∧
    MacroFree (Keywords.intern e.store).1 e form ∧
    Compiler.compileThunk (Machine.evaluator 2) form e = (.ok c, e') ∧
    Compiler.ReadsPlainly (Keywords.intern e.store).1
      { e with store := (Keywords.intern e.store).2 } form term e₁ ∧
    ∀ m slots, ¬ Spent ((Machine.evaluator m).apply c [] (e'.allowing slots)).1 →
      Exhausted slots ((Machine.evaluator m).apply c [] (e'.allowing slots)).1 ∨
      ∃ enough, ∀ R ≥ enough,
        SameOutcome slots ((Machine.evaluator m).apply c [] (e'.allowing slots))
          (Reference.evalTop R term e') := by
  obtain ⟨e, he⟩ : ∃ e, e = Interpreter.bare {} fun _ => .unread := ⟨_, rfl⟩
  have hsession : Session e := he ▸ .bare {} _
  have hnew := Interpreter.bare_eq {} fun _ => .unread
  have hmade : e.store.symbols.Made := he ▸ (Engine.Loaded.bare rfl _).made
  -- there are no macros, and room for nested forms
  have hmacros : e.NoMacros := by
    intro s c _
    rw [he, hnew]
    simp [Engine.isMacro, Engine.new]
  have hroom : ∀ x, (Compiler.assigningForm x).nesting ≤ e.limits.maxCompileDepth := by
    intro x
    rw [he, hnew]
    simp [Compiler.assigningForm, Form.nesting, Form.nestingAll, Engine.new]
  have hfuel : 0 < (Machine.evaluator 2).fuel := Nat.one_pos
  have hx : (⟨(Keywords.intern e.store).1.rest.id + 1, "x"⟩ : Symbol) ≠
      (Keywords.intern e.store).1.rest := fun h =>
    absurd (congrArg Symbol.id h) (Nat.succ_ne_self _)
  have hproper : ∀ k x n, (Compiler.assigning k x).Proper n := by
    intro k x n
    simp [Compiler.assigning, Value.proper_list_iff, Value.Proper.symbol, Value.Proper.number]
  obtain ⟨w, hknown⟩ := Compiler.known_assigning (Keywords.intern e.store).1 ⟨_ + 1, "x"⟩
  have hfree := macroFree_of_noMacros (k := (Keywords.intern e.store).1) hmacros
  obtain ⟨c, e', hc⟩ := Compiler.compileThunk_of_fits hfuel hmacros
    (Compiler.denotes_assigning hmade.named hx) (hroom _) (Compiler.fits_assigning _)
  obtain ⟨term, e₁, hreads, -, hmachine⟩ :=
    compiled_form_refines hsession (hproper _ _ _) hknown (hfree _) hc
  exact ⟨e, e', e₁, _, c, term, w, hsession, hproper _ _ _, hknown, hfree _, hc, hreads, hmachine⟩

end StackLisp
