import Mathlib.Data.List.Forall2
import StackLisp.Proofs.Agreement
import StackLisp.Proofs.Builtins
import StackLisp.Proofs.Ready
import StackLisp.Proofs.Transitions

/-!
# Coherent machines

The invariant of a running machine: the stack spells out frames, each of which can go on from where
it is with the operands that it has, and the environments of the calls are linked as calls link
them. One step keeps it, whatever the instruction, and so does a whole run.

- `Coherent`: the invariant;
- `Course`, `Course.of_canGoOn`: what the next instruction can do;
- `Machine.step_coherent`: a step leads from a coherent machine to a coherent one, ends the run with
  a proper value, or stops it for a reason that is not the machine's;
- `Machine.safe_applyWith`: calls from outside the machine are safe.
-/

namespace StackLisp

section

variable [Unbound]

/-- The operand is what its origin says. -/
def Operand.Matches (c : Closure) (n : Nat) : Operand → Value → Prop
  | .constant place, v => c.constants[place]? = some v
  | .result, v => v.Proper n

/-- With `pending` operands more on top, the call can go on at `p`. -/
structure Frame.CanRun (n : Nat) (f : Frame) (p : Nat) (pending : List Operand) : Prop where
  pos : 0 < p
  ready : ∃ origins, Ready f.closure (Value.Proper n) (ClosureOf.Coded (Value.Proper n)) p
    (pending ++ origins) ∧ List.Forall₂ (Operand.Matches f.closure n) origins f.operands

/-- The running call can go on at `p`, and the calls around it once it has returned. Inner calls
have younger environments, which are enclosed by others. -/
structure CanGoOn (e : Engine) (p : Nat) (f : Frame) (rest : List Frame) : Prop where
  running : f.CanRun e.envs.size p []
  suspended : ∀ g ∈ rest, g.CanRun e.envs.size g.resume [.result]
  scopes : ((f :: rest).map Frame.env).Pairwise (· > ·)
  env : f.env < e.envs.size
  linked : ¬ Unbound.allowed → ∀ env ∈ ((f :: rest).map Frame.env).dropLast,
    (e.envs.next? env).isSome

/-- A machine at work on the calls that were made since frame pointer `home`. -/
structure Coherent (home floor : Nat) (e : Engine) (a : Activation) : Prop where
  home_le : home ≤ floor
  sound : e.Sound
  frames : ∃ f rest, a.closure = f.closure ∧ e.Holds home floor (f :: rest) ∧
    CanGoOn e a.position f rest

/-- The slots in use are there. -/
theorem Coherent.sp_le {home floor : Nat} {e : Engine} {a : Activation}
    (h : Coherent home floor e a) : e.sp ≤ e.stack.size := by
  obtain ⟨-, -, f, rest, -, hf, -⟩ := h
  exact hf.sp_le

/-- What a step of a coherent machine comes to. -/
def Coherent.Leads (home floor : Nat) (e : Engine) : Except Stop CallFrame.Progress × Engine → Prop
  | (.ok (.running a), e') => e.Retains floor e' ∧ Coherent home floor e' a
  | (.ok (.returned v), e') => e.Retains floor e' ∧ e'.Sound ∧ v.Proper e'.envs.size
  | (.error stop, e') => e.Retains floor e' ∧ e'.Sound ∧ stop.Tame

end

/-! ## More environments -/

theorem Ready.mono {c : Closure} {G H : Value → Prop} {T U : Closure → Prop} {p : Nat}
    {operands : List Operand} (h : Ready c G T p operands) (hg : ∀ v, G v → H v)
    (ht : ∀ c, T c → U c) : Ready c H U p operands := by
  induction h with
  | ret hd hs => exact .ret hd hs
  | pop hd _ ih => exact .pop hd ih
  | value hd hv hG hlt _ ih => exact .value hd hv (hg _ hG) hlt ih
  | operand hd hv hlt _ ih => exact .operand hd hv hlt ih
  | load hd hs _ ih => exact .load hd hs ih
  | assign hd hs _ ih => exact .assign hd hs ih
  | closure hd hv he hT _ ih => exact .closure hd hv he (ht _ hT) ih
  | call hd _ ih => exact .call hd ih
  | jump hd hlt _ ih => exact .jump hd hlt ih
  | jumpIfNot hd hlt _ _ ih ih' => exact .jumpIfNot hd hlt ih ih'

theorem Ready.lt_size {c : Closure} {G : Value → Prop} {T : Closure → Prop} {p : Nat}
    {operands : List Operand} (h : Ready c G T p operands) : p < c.code.size := by
  cases h <;> exact Code.lt_size_of_decode (by assumption)

variable [Unbound] {n m home floor : Nat} {e e' : Engine}

theorem Operand.Matches.mono {c : Closure} (hnm : n ≤ m) {origin : Operand} {v : Value}
    (h : origin.Matches c n v) : origin.Matches c m v := by
  cases origin with
  | constant place => exact h
  | result => exact Value.Proper.mono hnm h

theorem Frame.CanRun.mono {f : Frame} {p : Nat} {pending : List Operand} (hnm : n ≤ m)
    (h : f.CanRun n p pending) : f.CanRun m p pending := by
  obtain ⟨hpos, origins, hready, hmatches⟩ := h
  exact ⟨hpos, origins, hready.mono (fun _ => .mono hnm) fun _ hc => hc.mono fun _ => .mono hnm,
    hmatches.imp fun _ _ => Operand.Matches.mono hnm⟩

/-- A call that waits for a result can go on with it. -/
theorem Frame.CanRun.push {f : Frame} {p : Nat} {v : Value} (h : f.CanRun n p [.result])
    (hv : v.Proper n) : (f.withOperands (v :: f.operands)).CanRun n p [] := by
  obtain ⟨hpos, origins, hready, hmatches⟩ := h
  exact ⟨hpos, .result :: origins, hready, .cons hv hmatches⟩

theorem Frame.CanRun.lt_size {f : Frame} {p : Nat} {pending : List Operand}
    (h : f.CanRun n p pending) : p < f.closure.code.size := by
  obtain ⟨-, _, hready, -⟩ := h
  exact hready.lt_size

/-- Operands of results that are expected on top are there. -/
theorem matches_replicate {c : Closure} {count : Nat} {origins : List Operand}
    {operands : List Value} (h : List.Forall₂ (Operand.Matches c n)
      (List.replicate count .result ++ origins) operands) :
    ∃ top below, operands = top ++ below ∧ top.length = count ∧ (∀ v ∈ top, v.Proper n) ∧
      List.Forall₂ (Operand.Matches c n) origins below := by
  induction count generalizing operands with
  | zero => exact ⟨[], operands, rfl, rfl, fun _ hv => (nomatch hv), h⟩
  | succ count ih =>
    rw [List.replicate_succ, List.cons_append] at h
    cases h with
    | cons hv h =>
      obtain ⟨top, below, rfl, hlength, htop, hbelow⟩ := ih h
      exact ⟨_ :: top, below, rfl, by simp [hlength], List.forall_mem_cons.2 ⟨hv, htop⟩, hbelow⟩

/-- Where a call finds its callee and its arguments. -/
theorem matches_call {c : Closure} {count : Nat} {origins : List Operand} {operands : List Value}
    (h : List.Forall₂ (Operand.Matches c n) (List.replicate (count + 1) .result ++ origins)
      operands) :
    ∃ (callee : Value) (args below : List Value), operands = args.reverse ++ callee :: below ∧
      count = args.length ∧ callee.Proper n ∧ (∀ v ∈ args, v.Proper n) ∧
      List.Forall₂ (Operand.Matches c n) origins below := by
  obtain ⟨top, below, rfl, hlength, htop, hbelow⟩ := matches_replicate h
  -- the callee is the lowest of the operands, below the arguments
  obtain ⟨callee, args, hsplit⟩ : ∃ callee args, top.reverse = callee :: args :=
    List.exists_cons_of_length_eq_add_one (by rw [List.length_reverse, hlength])
  obtain rfl : top = args.reverse ++ [callee] := by
    rw [← List.reverse_reverse top, hsplit, List.reverse_cons]
  refine ⟨callee, args, below, by simp, by simpa using hlength.symm, htop callee (by simp),
    fun v hv => htop v (by simp [hv]), hbelow⟩

/-! ## Engines with other stacks -/

namespace Engine

/-- An engine is sound whatever is on its stack, and however much may be. -/
theorem Sound.of_gist (h : e.Sound) (hgist : e'.gist = e.gist) : e'.Sound := by
  have hglobals : e'.globals = e.globals :=
    Engine.congr_gist Engine.globals (fun _ _ _ _ _ => rfl) hgist
  have hhosts : e'.hosts = e.hosts := Engine.congr_gist Engine.hosts (fun _ _ _ _ _ => rfl) hgist
  have henvs : e'.envs = e.envs := Engine.congr_gist Engine.envs (fun _ _ _ _ _ => rfl) hgist
  refine ⟨?_, ?_, henvs ▸ h.older, hhosts ▸ h.hosts⟩
  · rw [hglobals, henvs]
    exact h.globals
  · rw [henvs]
    exact h.bindings

theorem Sound.of_core (h : e.Sound) (hcore : e'.core = e.core) : e'.Sound :=
  h.of_gist (gist_of_core hcore)

theorem Sound.restacks (h : e.Sound) (hr : e.Restacks floor e') : e'.Sound :=
  h.of_core hr.core

end Engine

/-- What a construct keeps is also kept by the computation that performs it. -/
theorem Performs.outcome {α β : Type} {x : Eval β} {y : Eval α} {next : α → β}
    {frames : α → List Frame} {Q : α → Engine → Prop}
    (h : Performs home floor e x y next frames) (hy : y.Safe e Q) (hs : e.Sound)
    (hframe : e.frame ≤ e.sp) (hfloor : floor ≤ e.sp) :
    (∃ a e₁ e', y e = (.ok a, e₁) ∧ Q a e₁ ∧ x e = (.ok (next a), e') ∧ e'.envs = e₁.envs ∧
      e.Retains floor e' ∧ e'.Sound ∧ e'.Holds home floor (frames a)) ∨
    ∃ stop e', x e = (.error stop, e') ∧ e.Retains floor e' ∧ e'.Sound ∧ stop.Tame := by
  obtain ⟨hk, hs', hq⟩ := hy hs hframe
  cases hrun : y e with
  | mk r e₁ =>
    rw [hrun] at hk hs' hq
    cases r with
    | ok a =>
      obtain ⟨e', hx, hr, hf⟩ := h.ok hrun
      exact .inl ⟨a, e₁, e', rfl, hq, hx, hr.envs, (hk.toRetains.mono hfloor).trans hr.retains,
        hs'.restacks hr, hf⟩
    | error stop =>
      obtain ⟨e', hx, hr⟩ := h.error hrun
      exact .inr ⟨stop, e', hx, (hk.toRetains.mono hfloor).trans hr.retains, hs'.restacks hr, hq⟩

/-! ## Steps -/

namespace CanGoOn

variable {p : Nat} {f : Frame} {rest : List Frame}

/-- The running call goes on. -/
theorem advance (h : CanGoOn e p f rest) (hr : e.Retains floor e') {operands : List Value}
    {p' : Nat} (hrun : (f.withOperands operands).CanRun e'.envs.size p' []) :
    CanGoOn e' p' (f.withOperands operands) rest where
  running := hrun
  suspended g hg := (h.suspended g hg).mono hr.envs
  scopes := h.scopes
  env := h.env.trans_le hr.envs
  linked hnone env henv := hr.linked (h.linked hnone env henv)

/-- The running call makes a call, which gets the youngest environment. -/
theorem call (h : CanGoOn e p f rest) (hr : e.Retains floor e') {operands : List Value}
    {resume : Nat} {c : Closure} {env : EnvId}
    (hrun : (Frame.mk c env [] 0).CanRun e'.envs.size 1 [])
    (hresume : (Frame.mk f.closure f.env operands resume).CanRun e'.envs.size resume [.result])
    (hnew : env = e.envs.size) (henv : env < e'.envs.size)
    (hlinked : ¬ Unbound.allowed → (e'.envs.next? env).isSome) :
    CanGoOn e' 1 ⟨c, env, [], 0⟩ (⟨f.closure, f.env, operands, resume⟩ :: rest) where
  running := hrun
  suspended := List.forall_mem_cons.2 ⟨hresume, fun g hg => (h.suspended g hg).mono hr.envs⟩
  scopes := by
    refine List.pairwise_cons.2 ⟨fun env' hmem => ?_, h.scopes⟩
    -- the new environment is the youngest one
    rw [hnew]
    rcases List.mem_cons.1 hmem with rfl | hmem
    · exact h.env
    · exact ((List.pairwise_cons.1 h.scopes).1 env' hmem).trans h.env
  env := henv
  linked hnone env' hmem := by
    rw [List.map_cons, List.map_cons, List.dropLast_cons_cons] at hmem
    rcases List.mem_cons.1 hmem with rfl | hmem
    · exact hlinked hnone
    · exact hr.linked (h.linked hnone env' hmem)

/-- The running call returns to the call that made it. -/
theorem ret {g : Frame} (h : CanGoOn e p f (g :: rest)) (hr : e.Retains floor e') {v : Value}
    (hrun : (g.withOperands (v :: g.operands)).CanRun e'.envs.size g.resume []) :
    CanGoOn e' g.resume (g.withOperands (v :: g.operands)) rest where
  running := hrun
  suspended g' hg := (h.suspended g' (List.mem_cons_of_mem _ hg)).mono hr.envs
  scopes := (List.pairwise_cons.1 h.scopes).2
  env := (((List.pairwise_cons.1 h.scopes).1 g.env (List.mem_cons_self ..)).trans h.env).trans_le
    hr.envs
  linked hnone env hmem := by
    have hlinked := h.linked hnone env
    rw [List.map_cons, List.map_cons, List.dropLast_cons_cons] at hlinked
    exact hr.linked (hlinked (List.mem_cons_of_mem _ hmem))

/-- Where the running call is about to bind a function, the function is on top of its operands and
comes from the constants. -/
theorem of_closure (h : CanGoOn e p f rest) (hd : f.closure.code.decode p = .ok .closure) :
    ∃ (place : Nat) (template : Closure) (operands : List Value),
      f.closure.constants[place]? = some (.closure template) ∧ template.env = none ∧
      f.operands = .closure template :: operands := by
  obtain ⟨-, origins, hready, hmatches⟩ := h.running
  rw [List.nil_append] at hready
  obtain ⟨place, template, origins, rfl, hv, hunbound, -⟩ := hready.of_closure hd
  obtain ⟨v, operands, hmatch, -, hoperands⟩ := List.forall₂_cons_left_iff.1 hmatches
  obtain rfl := Option.some.inj (hmatch.symm.trans hv)
  exact ⟨place, template, operands, hv, hunbound, hoperands⟩

end CanGoOn

/-! ## Courses -/

/-- What the next instruction of the running call does. It does the same on every stack that spells
out the same frames. -/
inductive Course (e : Engine) (p : Nat) (f : Frame) (rest : List Frame) : Prop
  /-- It does something outside the stack, after which the call goes on with other operands. -/
  | act {α : Type} {y : Evaluator → Eval α} {Q : α → Engine → Prop}
      {operands : α → List Value} {p' : Nat} :
      (∀ {κ X ev}, Evaluator.Agree κ X ev → Agrees κ e (fun i => y (X i)) (y ev) Q) →
      (∀ {ev home floor s}, home ≤ floor → Engine.Holds home floor (f :: rest) s →
        (∀ {a s₁}, y ev s = (.ok a, s₁) → s.Keeps s₁) →
        Performs home floor s (Machine.step ev home ⟨f.closure, p⟩) (y ev)
          (fun _ => .running ⟨f.closure, p'⟩) fun a => f.withOperands (operands a) :: rest) →
      (∀ a e₁, e.envs.size ≤ e₁.envs.size → Q a e₁ →
        (f.withOperands (operands a)).CanRun e₁.envs.size p' []) → Course e p f rest
  /-- It calls a closure. -/
  | call {c : Closure} {n : UInt16} {args operands : List Value} :
      f.closure.code.decode p = .ok (.call n) →
      f.operands = args.reverse ++ .closure c :: operands → n.toNat = args.length →
      (Value.closure c).Proper e.envs.size → (∀ v ∈ args, v.Proper e.envs.size) →
      (Frame.mk f.closure f.env operands (p + 2)).CanRun e.envs.size (p + 2) [.result] →
      Course e p f rest
  /-- It calls what is no function. -/
  | reject {error : Error} : (∀ {ev home floor s}, Engine.Holds home floor (f :: rest) s →
        Machine.step ev home ⟨f.closure, p⟩ s = (.error (.fault error), s)) → error.Tame →
      Course e p f rest
  /-- It returns. -/
  | ret {v : Value} {operands : List Value} : f.closure.code.decode p = .ok .ret →
      f.operands = v :: operands → v.Proper e.envs.size → Course e p f rest

namespace Course

open Machine

variable {f : Frame} {rest : List Frame} {p : Nat}

/-- An instruction that only rearranges operands. -/
theorem move {operands : List Value} {p' : Nat}
    (hperforms : ∀ {ev home floor s}, Engine.Holds home floor (f :: rest) s →
      Performs home floor s (step ev home ⟨f.closure, p⟩) (pure ())
        (fun _ => .running ⟨f.closure, p'⟩) fun _ => f.withOperands operands :: rest)
    (hrun : (f.withOperands operands).CanRun e.envs.size p' []) : Course e p f rest :=
  .act (y := fun _ => pure ()) (Q := AnyResult) (fun _ => .pure fun _ => trivial)
    (fun _ hf _ => hperforms hf) fun _ _ hle _ => hrun.mono hle

/-- An instruction whose result takes the place of some operands. -/
theorem result {α : Type} {y : Evaluator → Eval α} {Q : α → Engine → Prop} {value : α → Value}
    {operands : List Value} {origins : List Operand} {p' : Nat}
    (hagrees : ∀ {κ X ev}, Evaluator.Agree κ X ev → Agrees κ e (fun i => y (X i)) (y ev) Q)
    (hperforms : ∀ {ev home floor s}, home ≤ floor → Engine.Holds home floor (f :: rest) s →
      (∀ {a s₁}, y ev s = (.ok a, s₁) → s.Keeps s₁) →
      Performs home floor s (step ev home ⟨f.closure, p⟩) (y ev)
        (fun _ => .running ⟨f.closure, p' + 1⟩)
        fun a => f.withOperands (value a :: operands) :: rest)
    (hproper : ∀ a e₁, e.envs.size ≤ e₁.envs.size → Q a e₁ → (value a).Proper e₁.envs.size)
    (hready : Ready f.closure (Value.Proper e.envs.size)
      (ClosureOf.Coded (Value.Proper e.envs.size)) (p' + 1) (.result :: origins))
    (hmatches : List.Forall₂ (Operand.Matches f.closure e.envs.size) origins operands) :
    Course e p f rest := by
  refine .act hagrees hperforms fun a e₁ hle hq => ?_
  have hrun : (f.withOperands operands).CanRun e.envs.size (p' + 1) [.result] :=
    ⟨Nat.succ_pos _, origins, hready, hmatches⟩
  exact (hrun.mono hle).push (hproper a e₁ hle hq)

/-- Every call that can go on takes one of the courses. -/
theorem of_canGoOn (hgo : CanGoOn e p f rest) : Course e p f rest := by
  obtain ⟨hpos, origins, hready, hmatches⟩ := hgo.running
  rw [List.nil_append] at hready
  cases hready with
  | ret hd hsize =>
    obtain ⟨v, operands, hv, -, hoperands⟩ := List.forall₂_cons_left_iff.1 hmatches
    exact .ret hd hoperands hv
  | pop hd hnext =>
    obtain ⟨v, operands, -, hrest, hoperands⟩ := List.forall₂_cons_left_iff.1 hmatches
    exact move (performs_pop · hd hoperands) ⟨Nat.succ_pos _, _, hnext, hrest⟩
  | value hd hv hG hlt hnext =>
    rw [hmatches.length_eq] at hlt
    exact move (performs_const · hd hv hlt) ⟨Nat.succ_pos _, _, hnext, .cons hG hmatches⟩
  | operand hd hv hlt hnext =>
    rw [hmatches.length_eq] at hlt
    exact move (performs_const · hd hv hlt) ⟨Nat.succ_pos _, _, hnext, .cons hv hmatches⟩
  | load hd hsymbol hnext =>
    obtain ⟨v, operands, hv, hrest, hoperands⟩ := List.forall₂_cons_left_iff.1 hmatches
    obtain rfl := Option.some.inj (hv.symm.trans hsymbol)
    exact result (fun _ => .blind (Reference.blind_lookup _ _) (Reference.safe_lookup _ _))
      (fun _ hf _ => performs_load hf hd hoperands) (fun _ _ _ hproper => hproper) hnext hrest
  | assign hd hsymbol hnext =>
    obtain ⟨v, _, hv, hrest, hoperands⟩ := List.forall₂_cons_left_iff.1 hmatches
    obtain ⟨w, operands, hw, hrest', rfl⟩ := List.forall₂_cons_left_iff.1 hrest
    obtain rfl := Option.some.inj (hw.symm.trans hsymbol)
    exact result
      (fun _ => .blind (Reference.blind_assign _ _ _ _) (Reference.safe_assign _ _ _ hv))
      (fun _ hf _ => performs_assign hf hd hoperands) (fun _ _ hle _ => hv.mono hle) hnext hrest'
  | closure hd hv henv hT hnext =>
    obtain ⟨v, operands, hmatch, hrest, hoperands⟩ := List.forall₂_cons_left_iff.1 hmatches
    obtain rfl := Option.some.inj (hmatch.symm.trans hv)
    exact result
      (fun _ => .blind (Reference.blind_bind _ _ _) (Reference.safe_bind hgo.scopes hgo.env hT))
      (fun hhome hf _ => performs_closure hhome hf hd hoperands) (fun _ _ _ hproper => hproper)
      hnext hrest
  | @call _ n origins hd hnext =>
    -- the verifier says that there are operands enough, not what they are
    obtain ⟨callee, args, operands, hoperands, hn, hcallee, hargs, hrest⟩ := matches_call hmatches
    cases callee with
    | closure c => exact .call hd hoperands hn hcallee hargs ⟨Nat.succ_pos _, origins, hnext, hrest⟩
    | intrinsic ref function =>
      exact result (fun hev => function.agrees_call hev hargs)
        (fun _ hf hkeeps => performs_intrinsic hf hd hoperands hn hkeeps)
        (fun _ _ _ hproper => hproper) hnext hrest
    | _ =>
      exact .reject (performs_uncallable · hd hoperands hn (by simp) (by simp)) trivial
  | jump hd hlt hnext =>
    -- with its own operands a frame is itself, but only up to `rfl`
    have hperforms : ∀ {ev home floor s}, Engine.Holds home floor (f :: rest) s →
        Performs home floor s (step ev home ⟨f.closure, p⟩) (pure ()) _
          fun _ => f.withOperands f.operands :: rest :=
      (performs_jump · hd (by omega) hnext.lt_size)
    exact move hperforms ⟨by omega, _, hnext, hmatches⟩
  | jumpIfNot hd hlt hnext hother =>
    obtain ⟨v, operands, -, hrest, hoperands⟩ := List.forall₂_cons_left_iff.1 hmatches
    refine move (performs_jumpIfNot · hd hoperands (by omega) hother.lt_size) ?_
    split
    · exact ⟨by omega, _, hnext, hrest⟩
    · exact ⟨by omega, _, hother, hrest⟩

end Course

/-! ## Steps of coherent machines -/

namespace Machine

open Coherent

variable {ev : Evaluator} {f : Frame} {rest : List Frame} {p : Nat}

/-- An instruction after which the running call goes on. -/
theorem leads_of_performs {α : Type} {y : Eval α} {Q : α → Engine → Prop}
    {operands : α → List Value} {p' : Nat} (hhome : home ≤ floor) (hs : e.Sound)
    (h : e.Holds home floor (f :: rest)) (hgo : CanGoOn e p f rest)
    (hperforms : Performs home floor e (step ev home ⟨f.closure, p⟩) y
      (fun _ => .running ⟨f.closure, p'⟩) (fun a => f.withOperands (operands a) :: rest))
    (hy : y.Safe e Q)
    (hrun : ∀ a e₁, e.envs.size ≤ e₁.envs.size → Q a e₁ →
      (f.withOperands (operands a)).CanRun e₁.envs.size p' []) :
    Leads home floor e (step ev home ⟨f.closure, p⟩ e) := by
  rcases hperforms.outcome hy hs (h.frame_le hhome) (Spelled.floor_le h) with
    ⟨a, e₁, e', -, hq, hx, henvs, hr, hs', hf⟩ | ⟨stop, e', hx, hr, hs', htame⟩
  · rw [hx]
    have hrun' := hrun a e₁ (henvs ▸ hr.envs) hq
    rw [← henvs] at hrun'
    exact ⟨hr, hhome, hs', f.withOperands (operands a), rest, rfl, hf, hgo.advance hr hrun'⟩
  · rw [hx]
    exact ⟨hr, hs', htame⟩

/-- A return, to a call of the machine or to the outside. -/
theorem leads_of_ret (hhome : home ≤ floor) (hs : e.Sound) (h : e.Holds home floor (f :: rest))
    (hgo : CanGoOn e p f rest) (hd : f.closure.code.decode p = .ok .ret) {v : Value}
    {operands : List Value} (hoperands : f.operands = v :: operands) (hv : v.Proper e.envs.size) :
    Leads home floor e (step ev home ⟨f.closure, p⟩ e) := by
  cases rest with
  | nil =>
    rw [finish_run h hd hoperands]
    have hr : e.Restacks floor { e with sp := e.frame, frame := home } := .move floor e _ _
    exact ⟨hr.retains, hs.restacks hr, hv⟩
  | cons g rest =>
    have hresume := hgo.suspended g (List.mem_cons_self ..)
    have hperforms : Performs home floor e (step ev home ⟨f.closure, p⟩) _ _ _ :=
      performs_return hhome h hd hoperands hresume.pos hresume.lt_size
    obtain ⟨e', hx, hr, hf'⟩ := hperforms.ok rfl
    rw [hx]
    have hrun := (hresume.mono hr.retains.envs).push (hv.mono hr.retains.envs)
    exact ⟨hr.retains, hhome, hs.restacks hr, g.withOperands (v :: g.operands), rest, rfl, hf',
      hgo.ret hr.retains hrun⟩

/-- A call of a closure. -/
theorem leads_of_call {c : Closure} {n : UInt16} {args operands : List Value}
    (hhome : home ≤ floor) (hs : e.Sound) (h : e.Holds home floor (f :: rest))
    (hgo : CanGoOn e p f rest) (hd : f.closure.code.decode p = .ok (.call n))
    (hf : f.operands = args.reverse ++ .closure c :: operands) (hn : n.toNat = args.length)
    (hc : (Value.closure c).Proper e.envs.size) (hargs : ∀ v ∈ args, v.Proper e.envs.size)
    (hresume : (Frame.mk f.closure f.env operands (p + 2)).CanRun e.envs.size (p + 2) [.result]) :
    Leads home floor e (step ev home ⟨f.closure, p⟩ e) := by
  obtain ⟨⟨himplements, hall⟩, -⟩ := hc.callable
  -- either the stack is used up, or the call does what the reference does
  rcases performs_call himplements h hd hf hn with ⟨-, e', hfull, hr⟩ | ⟨-, hperforms⟩
  · rw [hfull]
    exact ⟨hr.retains, hs.restacks hr, trivial⟩
  · rcases hperforms.outcome (Reference.safe_enter hc.callable hargs) hs (h.frame_le hhome)
      (Spelled.floor_le h) with
      ⟨env, e₁, e', -, ⟨hnew, hsize, hnext⟩, hx, henvs, hr, hs', hf'⟩ | ⟨stop, e', hx, hr, hs', ht⟩
    · rw [hx]
      rw [← henvs] at hsize hnext
      -- the new frame is at the start of its code, and the caller waits for a result
      refine ⟨hr, hhome, hs', _, _, rfl, hf', hgo.call hr ?_ ?_ hnew ?_ ?_⟩
      · have hbody : (Frame.mk c env [] 0).CanRun e.envs.size 1 [] :=
          ⟨Nat.one_pos, [], himplements.ready hall, .nil⟩
        exact hbody.mono hr.envs
      · exact hresume.mono hr.envs
      · rw [hnew, hsize]
        exact Nat.lt_succ_self _
      · intro hnone
        rw [hnext]
        cases hc with
        | closure henv => exact Option.isSome_iff_ne_none.2 fun h => hnone (henv h)
    · rw [hx]
      exact ⟨hr, hs', ht⟩

/-- One step of a coherent machine. -/
theorem step_coherent (hev : ev.Safe) {a : Activation} (h : Coherent home floor e a) :
    Leads home floor e (step ev home a e) := by
  obtain ⟨hhome, hs, f, rest, hclosure, hf, hgo⟩ := h
  obtain ⟨c, p⟩ := a
  obtain rfl : c = f.closure := hclosure
  cases Course.of_canGoOn hgo with
  | act hagrees hperforms hrun =>
    -- an evaluator that agrees with itself is safe, and so is what is done with it
    have hsafe := (hagrees hev.agree).safe
    refine leads_of_performs hhome hs hf hgo (hperforms hhome hf fun hok => ?_) hsafe hrun
    exact (hsafe.of_ok hs (hf.frame_le hhome) hok).1
  | call hd hoperands hn hc hargs hresume =>
    exact leads_of_call hhome hs hf hgo hd hoperands hn hc hargs hresume
  | reject hrun htame =>
    rw [hrun hf]
    exact ⟨.refl _ _, hs, htame⟩
  | ret hd hoperands hv => exact leads_of_ret hhome hs hf hgo hd hoperands hv

/-! ## Runs -/

/-- A run of a coherent machine. -/
theorem run_coherent (hev : ev.Safe) (fuel : Nat) {a : Activation}
    (h : Coherent home floor e a) :
    e.Retains floor (run ev home fuel a e).2 ∧ (run ev home fuel a e).2.Sound ∧
      match (run ev home fuel a e).1 with
      | .ok v => v.Proper (run ev home fuel a e).2.envs.size
      | .error stop => stop.Tame := by
  -- coherence is kept by every step, and what is retained adds up
  induction fuel generalizing e a with
  | zero => exact ⟨.refl _ _, h.sound, trivial⟩
  | succ fuel ih =>
    have hstep := step_coherent hev h
    unfold run
    split
    all_goals
      rename_i heq
      rw [heq] at hstep
    · obtain ⟨hr, hnext⟩ := hstep
      obtain ⟨hr', hrest⟩ := ih hnext
      exact ⟨hr.trans hr', hrest⟩
    · exact hstep
    · exact hstep

/-- A call from outside starts a coherent machine. -/
theorem start_coherent {c : Closure} {args : List Value} (hs : e.Sound) (hframe : e.frame ≤ e.sp)
    (hc : c.Callable e.envs.size) (hargs : ∀ v ∈ args, v.Proper e.envs.size) :
    match start c args e with
    | (.ok a, e') => e.Retains e.sp e' ∧ Coherent e.frame e.sp e' a
    | (.error stop, e') => e.Retains e.sp e' ∧ e'.Sound ∧ stop.Tame := by
  obtain ⟨himplements, hall⟩ := hc.coded
  rcases pushCall_run c args e with ⟨-, hfull⟩ | ⟨-, e₀, hpush, hr, hprepared⟩
  · rw [start, Eval.bind_of_error hfull]
    exact ⟨.refl _ _, hs, trivial⟩
  · rw [start, Eval.bind_of_ok hpush]
    have hs₀ := hs.restacks hr
    -- nothing is called yet, so the frame pointer is still that of the caller
    have hframe₀ : e₀.frame = e.frame := by
      have hspelled := hprepared.spelled
      generalize e₀.frame = frame at hspelled
      cases hspelled
      rfl
    have hsp₀ := hprepared.sp
    rw [← hr.envs] at hc hargs hall
    rcases performs_enter himplements hprepared with ⟨-, hfull⟩ | ⟨-, hperforms⟩
    · rw [hfull]
      exact ⟨hr.retains, hs₀, trivial⟩
    · rcases hperforms.outcome (Reference.safe_enter hc hargs) hs₀ (by omega) (by omega) with
        ⟨env, e₁, e', -, ⟨hnew, hsize, -⟩, hx, henvs, hr', hs', hf'⟩ | ⟨stop, e', hx, hr', hs', ht⟩
      · rw [hx]
        refine ⟨hr.retains.trans hr', hframe, hs', _, _, rfl, hf', ?_, ?_, ?_, ?_, ?_⟩
        · have hbody : (Frame.mk c env [] 0).CanRun e₀.envs.size 1 [] :=
            ⟨Nat.one_pos, [], himplements.ready hall, .nil⟩
          exact hbody.mono hr'.envs
        · exact fun _ hg => nomatch hg
        · exact List.pairwise_singleton _ _
        · rw [henvs, hnew, hsize]
          exact Nat.lt_succ_self _
        · exact fun _ _ henv => nomatch henv
      · rw [hx]
        exact ⟨hr.retains.trans hr', hs', ht⟩

theorem callWith_coherent (hev : ev.Safe) (fuel : Nat) {c : Closure} {args : List Value}
    (hs : e.Sound) (hframe : e.frame ≤ e.sp) (hc : c.Callable e.envs.size)
    (hargs : ∀ v ∈ args, v.Proper e.envs.size) :
    e.Retains e.sp (callWith ev fuel c args e).2 ∧ (callWith ev fuel c args e).2.Sound ∧
      match (callWith ev fuel c args e).1 with
      | .ok v => v.Proper (callWith ev fuel c args e).2.envs.size
      | .error stop => stop.Tame := by
  have hstart := start_coherent hs hframe hc hargs
  rw [callWith_run]
  cases hrun : start c args e with
  | mk r e₁ =>
    rw [hrun] at hstart
    cases r with
    | error stop =>
      rw [Eval.bind_of_error hrun]
      exact hstart
    | ok a =>
      obtain ⟨hr, hcoherent⟩ := hstart
      obtain ⟨hr', hrest⟩ := run_coherent hev fuel hcoherent
      rw [Eval.bind_of_ok hrun]
      exact ⟨hr.trans hr', hrest⟩

/-- Calls from outside the machine are safe. -/
theorem safe_applyWith (hev : ev.Safe) (fuel : Nat) {c : Closure} {args : List Value}
    (hc : c.Callable e.envs.size) (hargs : ∀ v ∈ args, v.Proper e.envs.size) :
    (applyWith ev fuel c args).Safe e ProperResult := by
  intro hs hframe
  by_cases hdeep : e.limits.maxApplyDepth ≤ e.depth
  · rw [applyWith_of_deep ev fuel c args hdeep]
    exact ⟨.refl e, hs, trivial⟩
  · have hs₀ : Engine.Sound { e with depth := e.depth + 1 } :=
      ⟨hs.globals, hs.bindings, hs.older, hs.hosts⟩
    have hcall := callWith_coherent hev fuel hs₀ hframe hc hargs
    rw [applyWith_run ev fuel c args hdeep]
    revert hcall
    rcases callWith ev fuel c args { e with depth := e.depth + 1 } with ⟨_ | v, e'⟩
    all_goals
      rintro ⟨hr, hs', hresult⟩
      exact ⟨⟨⟨hr.limits, hr.hosts, hr.files, rfl, hr.slots, hr.size, hr.bound, hr.envs,
        hr.linked⟩, rfl, rfl⟩, ⟨hs'.globals, hs'.bindings, hs'.older, hs'.hosts⟩, hresult⟩

end Machine

end StackLisp
