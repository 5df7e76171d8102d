import StackLisp.Proofs.Windows

/-!
# Calls nested in each other

Code that runs outside the machine may call closures again. Each closure that is called while
another one is running counts towards a limit, however the call came about: through the function
`apply`, through a file that is loaded, or through a macro that is expanded. Once the limit is
reached, the next one ends everything that is in progress. Intrinsic functions that are applied to
arguments count for nothing, however many of them are applied in each other.

- `Obeys`: a computation ends as the answers of its evaluator make it end;
- `Asks.place`, `Asks.stops`: where something is asked, and what a failure to answer leads to;
- `Nested`: requests that are made while others are being answered;
- `Nested.place`, `Nested.stops`: the same for requests that are nested;
- `ComesDownTo`: intrinsic functions applied in each other.
-/

namespace StackLisp

open Eval

variable {α β : Type} {e t : Engine}

/-- What is done outside the stack decides how the whole ends. -/
theorem Performs.result {home floor : Nat} {x : Eval β} {y : Eval α} {next : α → β}
    {frames : α → List Frame} (h : Performs home floor e x y next frames) :
    (x e).1 = (y e).1.map next := by
  cases hy : y e with
  | mk r e₁ =>
    cases r with
    | ok a =>
      obtain ⟨e', hx, -⟩ := h.ok hy
      rw [hx]
      rfl
    | error stop =>
      obtain ⟨e', hx, -⟩ := h.error hy
      rw [hx]
      rfl

/-! ## Evaluators without fuel for one request -/

open Classical in
/-- The evaluator, but for one request on one engine, which takes more fuel than there is. -/
noncomputable def Evaluator.spending (ev : Evaluator) (request : Request) (t : Engine) :
    Evaluator where
  fuel := ev.fuel
  apply c args s := if .apply c args = request ∧ s = t then (.error .outOfFuel, s)
    else ev.apply c args s
  loadFile path s := if .loadFile path = request ∧ s = t then (.error .outOfFuel, s)
    else ev.loadFile path s

variable {ev : Evaluator} {request : Request}

theorem Evaluator.answer_spending (r : Request) (s : Engine) (h : ¬ (r = request ∧ s = t)) :
    r.answer (ev.spending request t) s = r.answer ev s := by
  cases r <;> exact if_neg h

theorem Evaluator.answer_spending_self :
    request.answer (ev.spending request t) t = (.error .outOfFuel, t) := by
  cases request <;> exact if_pos ⟨rfl, rfl⟩

section

variable [Unbound]

/-! ## Computations and their evaluators -/

/-- At the engine `e`, the computation ends in the same way with evaluators that agree. -/
def Obeys (F : Evaluator → Eval α) (e : Engine) : Prop :=
  ∀ (κ : Leeway) (X : Nat → Evaluator) (y : Evaluator), κ.Like e e → Evaluator.Agree κ X y →
    (Spent (F y e).1 → ∀ i ≤ κ.patience,
      (∃ slots, κ.GivesUp slots e.limits.maxSlots e.sp (F (X i) e).1) ∨ Spent (F (X i) e).1) ∧
    (¬ Spent (F y e).1 → ∃ enough, ∀ i, enough ≤ i →
      κ.GivesUp enough e.limits.maxSlots e.sp (F (X i) e).1 ∨ (F (X i) e).1 = (F y e).1)

namespace Obeys

/-- The evaluator is not used. -/
theorem of_const {F : Evaluator → Eval α} {r : Except Stop α} (h : ∀ ev, (F ev e).1 = r) :
    Obeys F e := by
  intro κ X y _ _
  simp only [h]
  exact ⟨fun hspent _ _ => .inr hspent, fun _ => ⟨0, fun _ _ => .inr trivial⟩⟩

/-- What safe computations do with their evaluators decides how the whole ends. -/
theorem of_agrees {F : Evaluator → Eval β} {G : Evaluator → Eval α} {Q : α → Engine → Prop}
    {next : α → β} (hs : e.Sound) (hframe : e.frame ≤ e.sp)
    (h : ∀ {κ X y}, Evaluator.Agree κ X y → Agrees κ e (fun i => G (X i)) (G y) Q)
    (hF : ∀ ev, (∀ {a e₁}, G ev e = (.ok a, e₁) → e.Keeps e₁) →
      (F ev e).1 = (G ev e).1.map next) : Obeys F e := by
  intro κ X y hlike hev
  have hdoes := h hev
  obtain ⟨hspent, hends⟩ := hdoes.tracks hs hframe
  have hleader := hF y fun hok => (hdoes.safe.of_ok hs hframe hok).1
  -- where the part that asks the evaluator stops, the whole stops in the same way
  have hstop {ev : Evaluator} {stop : Stop} (hg : (G ev e).1 = .error stop) :
      (F ev e).1 = .error stop := by
    have hF := hF ev fun hok => by simp [hok] at hg
    rw [hF, hg]
    rfl
  have hgives {i slots : Nat} (h : κ.GivesUp slots e.limits.maxSlots e.sp (G (X i) e).1) :
      κ.GivesUp slots e.limits.maxSlots e.sp (F (X i) e).1 := by
    obtain ⟨stop, hg, hexcuse⟩ := h
    exact ⟨stop, hstop hg, hexcuse⟩
  refine ⟨fun hy i hi => ?_, fun hy => ?_⟩
  · have hy : Spent (G y e).1 := by
      rw [hleader] at hy
      revert hy
      cases (G y e).1 <;> simp [Spent, Except.map]
    exact (hspent hy i hi e hlike).imp (.imp fun _ => hgives) hstop
  · obtain ⟨enough, hends⟩ := hends fun hg => hy (hstop hg)
    refine ⟨enough, fun i hi => ?_⟩
    rcases hends i e hlike with hgiven | ⟨hlt, -⟩ | hfollows
    · exact .inl (hgives hgiven)
    · exact absurd hlt (by omega)
    · right
      have hkeeps := hfollows.keeps
      rw [hF (X i) fun hok => by rwa [hok] at hkeeps, hleader, hfollows.result]

/-- A safe computation obeys its evaluator. -/
theorem of_safe {F : Evaluator → Eval α} {Q : α → Engine → Prop} (he : e.Usable)
    (h : ∀ {κ X y}, Evaluator.Agree κ X y → Agrees κ e (fun i => F (X i)) (F y) Q) : Obeys F e :=
  of_agrees he.sound he.frame_le h fun ev _ => (congrFun Except.map_id (F ev e).1).symm

open Machine in
/-- A step of a coherent machine obeys the evaluator. -/
theorem step {home floor : Nat} {a : Activation} (h : Coherent home floor e a) :
    Obeys (Machine.step · home a) e := by
  obtain ⟨hhome, hs, f, rest, hclosure, hf, hgo⟩ := h
  obtain ⟨c, p⟩ := a
  obtain rfl : c = f.closure := hclosure
  have hsame {r : Except Stop CallFrame.Progress}
      (h : ∀ ev, (Machine.step ev home ⟨f.closure, p⟩ e).1 = r) :
      Obeys (Machine.step · home ⟨f.closure, p⟩) e := of_const h
  cases Course.of_canGoOn hgo with
  | act hagrees hperforms _ =>
    exact of_agrees hs (hf.frame_le hhome) hagrees fun ev hkeeps =>
      (hperforms hhome hf hkeeps).result
  | @call c n args operands hd hoperands hn hc _ _ =>
    obtain ⟨⟨himplements, -⟩, -⟩ := hc.callable
    -- whether there is room for the call does not depend on the evaluator
    have hcall (ev : Evaluator) : (¬ Admits c args e ∧ ∃ e', Machine.step ev home _ e =
          (.error (overflow (demand c e.sp) e), e') ∧ e.Restacks floor e') ∨
        Admits c args e ∧ Performs home floor e (Machine.step ev home _) _ _ _ :=
      performs_call himplements hf hd hoperands hn
    by_cases hadmits : Admits c args e
    · refine hsame (r := (Reference.enter c args e).1.map fun _ => .running ⟨c, 1⟩) fun ev => ?_
      exact ((hcall ev).resolve_left fun h => h.1 hadmits).2.result
    · refine hsame (r := .error (overflow (demand c e.sp) e)) fun ev => ?_
      obtain ⟨-, e', hrun, -⟩ := (hcall ev).resolve_right fun h => hadmits h.1
      rw [hrun]
  | reject hrun _ => exact hsame fun ev => congrArg Prod.fst (hrun hf)
  | ret hd hoperands _ =>
    cases rest with
    | nil => exact hsame fun ev => congrArg Prod.fst (finish_run hf hd hoperands)
    | cons g rest =>
      have hresume := hgo.suspended g (List.mem_cons_self ..)
      refine hsame (r := .ok (.running ⟨g.closure, g.resume⟩)) fun ev => ?_
      have hperforms : Performs home floor e (Machine.step ev home _) _ _ _ :=
        performs_return hhome hf hd hoperands hresume.pos hresume.lt_size
      exact hperforms.result

end Obeys

/-! ## Where something is asked, and what a failure to answer leads to -/

/-- Followers do what the leader does, or stop for one of the excused reasons, on engines with these
limits on which calls nest that deep. -/
def Leeway.within (limits : Limits) (depth : Nat) (excused : Stop → Prop) : Leeway where
  exact := True
  excused _ _ _ := excused
  patience := 0
  near r _ := r.Lawful ∧ r.limits = limits ∧ r.depth = depth

section

variable {limits : Limits} {depth : Nat} {excused : Stop → Prop}

theorem Leeway.like_within (he : e.Usable) :
    (Leeway.within e.limits e.depth excused).Like e e :=
  ⟨rfl, he.frame_le, fun _ => rfl, he.room, rfl, rfl⟩

/-- Evaluators agree if they do on every single request. -/
theorem Evaluator.Agree.of_answers {X : Nat → Evaluator} {y : Evaluator}
    (hfuel : ∀ i, (X i).fuel = y.fuel) (hy : y.Safe)
    (h : ∀ (request : Request) (s : Engine), s.Usable → request.Allowed s.envs.size →
      s.limits = limits → s.depth = depth →
      (Spent (request.answer y s).1 →
        (∃ stop, (request.answer (X 0) s).1 = .error stop ∧ excused stop) ∨
          Spent (request.answer (X 0) s).1) ∧
      (¬ Spent (request.answer y s).1 → ∀ i, request.answer (X i) s = request.answer y s)) :
    Evaluator.Agree (.within limits depth excused) X y := by
  have htracks (request : Request) {s : Engine} (hallowed : request.Allowed s.envs.size)
      (hsafe : (request.answer y).Safe s ProperResult) (hs : s.Sound) (hframe : s.frame ≤ s.sp) :
      Tracks (.within limits depth excused) s (fun i => request.answer (X i))
        (request.answer y s) := by
    -- followers are compared on the very engine of the leader, so one answer decides for each
    refine ⟨fun hspent i hi s' hlike => ?_, fun hends => ?_⟩
    · obtain rfl := hlike.exact trivial
      obtain rfl := Nat.le_zero.1 hi
      obtain ⟨hroom, hlimits, hdepth⟩ := hlike.near
      exact ((h request s' ⟨hs, hframe, hroom⟩ hallowed hlimits hdepth).1 hspent).imp_left
        fun hgiven => ⟨0, hgiven⟩
    · refine ⟨0, fun i s' hlike => .inr (.inr ?_)⟩
      obtain rfl := hlike.exact trivial
      obtain ⟨hroom, hlimits, hdepth⟩ := hlike.near
      obtain ⟨hk, -, -⟩ := hsafe hs hframe
      rw [(h request s' ⟨hs, hframe, hroom⟩ hallowed hlimits hdepth).2 hends i]
      exact ⟨rfl, ⟨rfl, hk.frame_le hframe, fun _ => rfl, hk.lawful hroom,
        hk.limits.trans hlimits, hk.depth.trans hdepth⟩, hk⟩
  exact ⟨⟨0, fun i _ => (hfuel i).ge⟩, fun i _ => (hfuel i).le,
    fun {s c args} hc hargs => ⟨hy.apply hc hargs,
      htracks (.apply c args) ⟨hc, hargs⟩ (hy.apply hc hargs)⟩,
    fun s path => ⟨hy.loadFile s path,
      htracks (.loadFile path) trivial (hy.loadFile s path)⟩⟩

end

variable {F : Evaluator → Eval α}

/-- What is asked for may be done, and it is asked on an engine with the same limits, on which calls
nest as deep. -/
theorem Asks.place (h : Asks F ev e request t) (he : e.Usable) (hF : Obeys F e) (hev : ev.Safe) :
    t.Usable ∧ request.Allowed t.envs.size ∧ t.limits = e.limits ∧ t.depth = e.depth := by
  -- otherwise the evaluators differ only where agreement says nothing
  obtain ⟨other, hfuel, hsame, hne⟩ := h
  by_contra hnot
  have hagree : Evaluator.Agree (.within e.limits e.depth fun _ => False) (fun _ => other) ev := by
    refine .of_answers (fun _ => hfuel) hev fun r s hs hr hlimits hdepth => ?_
    have hanswer : r.answer other s = r.answer ev s := by
      refine hsame r s ?_
      rintro ⟨rfl, rfl⟩
      exact hnot ⟨hs, hr, hlimits, hdepth⟩
    rw [hanswer]
    exact ⟨.inr, fun _ _ => rfl⟩
  obtain ⟨hspent, hends⟩ := hF _ _ _ (Leeway.like_within he) hagree
  by_cases hev : Spent (F ev e).1
  · rcases hspent hev 0 le_rfl with ⟨_, stop, -, hfalse⟩ | hother
    · exact hfalse
    · exact hne (hother.trans hev.symm)
  · obtain ⟨enough, hends⟩ := hends hev
    rcases hends enough le_rfl with ⟨stop, -, hfalse⟩ | hother
    · exact hfalse
    · exact hne hother

theorem Evaluator.Safe.spending (h : ev.Safe) : (ev.spending request t).Safe where
  apply {s c args} hc hargs hs hf := by
    by_cases hr : Request.apply c args = request ∧ s = t
    · rw [show (ev.spending request t).apply c args s = (.error .outOfFuel, s) from if_pos hr]
      exact ⟨.refl s, hs, trivial⟩
    · rw [show (ev.spending request t).apply c args s = ev.apply c args s from if_neg hr]
      exact h.apply hc hargs hs hf
  loadFile s path hs hf := by
    by_cases hr : Request.loadFile path = request ∧ s = t
    · rw [show (ev.spending request t).loadFile path s = (.error .outOfFuel, s) from if_pos hr]
      exact ⟨.refl s, hs, trivial⟩
    · rw [show (ev.spending request t).loadFile path s = ev.loadFile path s from if_neg hr]
      exact h.loadFile s path hs hf

/-- If no fuel is left for what is asked, then there is none for what asks. -/
theorem Asks.spent (h : Asks F ev e request t) (he : e.Usable) (hF : Obeys F e) (hev : ev.Safe) :
    Spent (F (ev.spending request t) e).1 := by
  obtain ⟨other, hfuel, hsame, hne⟩ := h
  by_contra hends
  -- the request would not be needed, so that both evaluators could do without it
  have hfollow {x : Evaluator} (hx : x.fuel = ev.fuel)
      (hsame : ∀ r s, ¬ (r = request ∧ s = t) → r.answer x s = r.answer ev s) :
      (F x e).1 = (F (ev.spending request t) e).1 := by
    have hagree : Evaluator.Agree (.within e.limits e.depth fun _ => False)
        (fun i => if i = 0 then ev.spending request t else x) (ev.spending request t) := by
      refine .of_answers (fun i => ?_) hev.spending fun r s _ _ _ _ => ?_
      · split
        · rfl
        · exact hx
      · refine ⟨.inr, fun hr i => ?_⟩
        have hother : ¬ (r = request ∧ s = t) := by
          rintro ⟨rfl, rfl⟩
          rw [Evaluator.answer_spending_self] at hr
          exact hr rfl
        split
        · rfl
        · rw [hsame r s hother, Evaluator.answer_spending r s hother]
    obtain ⟨enough, hends⟩ := (hF _ _ _ (Leeway.like_within he) hagree).2 hends
    rcases hends (enough + 1) (Nat.le_succ _) with ⟨stop, -, hfalse⟩ | hother
    · exact hfalse.elim
    · exact hother
  exact hne ((hfollow hfuel hsame).trans (hfollow rfl fun _ _ _ => rfl).symm)

/-- A failure to answer is passed on by what asks. -/
theorem Asks.stops (h : Asks F ev e request t) (he : e.Usable) (hF : Obeys F e) (hev : ev.Safe)
    {stop : Stop} (hstop : (request.answer ev t).1 = .error stop) :
    (F ev e).1 = .error stop ∨ Spent (F ev e).1 := by
  have hagree : Evaluator.Agree (.within e.limits e.depth (· = stop)) (fun _ => ev)
      (ev.spending request t) := by
    refine .of_answers (fun _ => rfl) hev.spending fun r s _ _ _ _ => ?_
    by_cases hr : r = request ∧ s = t
    · obtain ⟨rfl, rfl⟩ := hr
      rw [Evaluator.answer_spending_self]
      exact ⟨fun _ => .inl ⟨stop, hstop, rfl⟩, fun hends => absurd rfl hends⟩
    · rw [Evaluator.answer_spending r s hr]
      exact ⟨.inr, fun _ _ => rfl⟩
  refine ((hF _ _ _ (Leeway.like_within he) hagree).1 (h.spent he hF hev) 0 le_rfl).imp_left ?_
  rintro ⟨_, _, hgiven, rfl⟩
  exact hgiven

end

/-! ## Requests in requests -/

attribute [local instance] Unbound.anywhere

/-- A run goes on from where the machine is, unless it has run out of fuel before. -/
theorem Underway.callWith {left : Nat} {c : Closure} {args : List Value} {e' : Engine}
    {a : Activation} (h : Underway left c args e e' a) (fuel : Nat) :
    Spent (Machine.callWith (Machine.evaluator left) fuel c args
        { e with depth := e.depth + 1 }).1 ∨
      ∃ steps, Machine.callWith (Machine.evaluator left) fuel c args
        { e with depth := e.depth + 1 } =
          Machine.run (Machine.evaluator left) e.frame steps a e' := by
  -- each step that was made has used one unit of the fuel
  induction h with
  | start _ hstart =>
    refine .inr ⟨fuel, ?_⟩
    rw [Machine.callWith_run, bind_of_ok hstart]
  | step _ hstep ih =>
    rcases ih with hspent | ⟨steps, hrun⟩
    · exact .inl hspent
    · cases steps with
      | zero =>
        rw [hrun]
        exact .inl rfl
      | succ steps =>
        refine .inr ⟨steps, ?_⟩
        rw [hrun]
        simp only [Machine.run, hstep]

/-- A call that has begun was within the limit. -/
theorem Underway.shallow {left : Nat} {c : Closure} {args : List Value} {e' : Engine}
    {a : Activation} (h : Underway left c args e e' a) : e.depth < e.limits.maxApplyDepth := by
  induction h with
  | start hshallow _ => exact hshallow
  | step _ _ ih => exact ih

/-- A call that has begun stops where one of its steps does. -/
theorem Underway.stops {left : Nat} {c : Closure} {args : List Value} {e' : Engine}
    {a : Activation} (h : Underway left c args e e' a) {stop : Stop}
    (hstop : (Machine.step (Machine.evaluator left) e.frame a e').1 = .error stop) :
    ((Machine.evaluator (left + 1)).apply c args e).1 = .error stop ∨
      Spent ((Machine.evaluator (left + 1)).apply c args e).1 := by
  have hrun : ((Machine.evaluator (left + 1)).apply c args e).1 =
      (Machine.callWith (Machine.evaluator left) left c args
        { e with depth := e.depth + 1 }).1 := by
    have happly := Machine.applyWith_run (Machine.evaluator left) left c args h.shallow.not_ge
    exact (congrArg Prod.fst happly :)
  rw [hrun]
  -- the call is run with as much fuel as it is given, and may have spent it on the way here
  rcases h.callWith left with hspent | ⟨steps, hrun⟩
  · exact .inr hspent
  · rw [hrun]
    cases steps with
    | zero => exact .inr rfl
    | succ steps =>
      left
      rw [Machine.run]
      cases hstep : Machine.step (Machine.evaluator left) e.frame a e' with
      | mk r e'' =>
        rw [hstep] at hstop
        obtain rfl : r = .error stop := hstop
        simp only [hstep]

/-- What passes on every failure passes on one that may be a lack of fuel. -/
theorem stops_trans {β : Type} {r : Except Stop α} {r' : Except Stop β} {stop : Stop}
    (h : r = .error stop ∨ Spent r)
    (hpass : ∀ {stop}, r = .error stop → r' = .error stop ∨ Spent r') :
    r' = .error stop ∨ Spent r' := by
  rcases h with h | h
  · exact hpass h
  · exact .inr ((hpass h).elim id id)

/-- In the course of a task, something is asked of the evaluator. `calls` closures are running by
then, each called from outside by the one before, and there is fuel for `left` more. -/
inductive Nested (fuel : Nat) (task : Task) (e : Engine) :
    (calls left : Nat) → Request → Engine → Prop
  | asked {request : Request} {t : Engine} : Asks task.run (Machine.evaluator fuel) e request t →
      Nested fuel task e 0 fuel request t
  /-- A closure is called, and asks for something when it is at some instruction. -/
  | call {calls left : Nat} {c : Closure} {args : List Value} {request : Request}
      {t t₁ t₂ : Engine} {a : Activation} :
      Nested fuel task e calls (left + 1) (.apply c args) t → Underway left c args t t₁ a →
      Asks (Machine.step · t.frame a) (Machine.evaluator left) t₁ request t₂ →
      Nested fuel task e (calls + 1) left request t₂
  /-- A file is loaded, and something is asked while its forms are compiled and evaluated. -/
  | load {calls left : Nat} {path : String} {request : Request} {t t₁ : Engine} :
      Nested fuel task e calls (left + 1) (.loadFile path) t →
      Asks (Machine.loadFile · path) (Machine.evaluator left) t request t₁ →
      Nested fuel task e calls left request t₁

namespace Nested

variable {fuel calls left : Nat} {task : Task}

/-- Calls that are running are counted. -/
theorem place (h : Nested fuel task e calls left request t) (he : e.Usable)
    (htask : task.Allowed e.envs.size) :
    t.Usable ∧ request.Allowed t.envs.size ∧ t.limits = e.limits ∧ t.depth = e.depth + calls := by
  induction h with
  | asked hasks =>
    exact hasks.place he (.of_safe he fun hev => Task.agrees_run hev htask)
      (Machine.safe_evaluator fuel)
  | @call calls left c args request t t₁ t₂ a _ hunderway hasks ih =>
    obtain ⟨ht, ⟨hc, hargs⟩, hlimits, hdepth⟩ := ih
    obtain ⟨hcoherent, hr⟩ := hunderway.coherent ht hc hargs
    -- the machine that asks is in the middle of the call
    have ht₁ : t₁.Usable :=
      hcoherent.usable (hr.lawful (Engine.lawful_withDepth ht.room _) hcoherent.sp_le)
    obtain ⟨ht₂, hallowed, hlimits', hdepth'⟩ :=
      hasks.place ht₁ (.step hcoherent) (Machine.safe_evaluator left)
    have hcounted : t₁.depth = t.depth + 1 := hr.depth
    exact ⟨ht₂, hallowed, (hlimits'.trans hr.limits).trans hlimits, by omega⟩
  | @load _ left path _ _ _ _ hasks ih =>
    obtain ⟨ht, -, hlimits, hdepth⟩ := ih
    obtain ⟨ht₁, hallowed, hlimits', hdepth'⟩ := hasks.place ht
      (.of_safe ht fun hev => Machine.agrees_loadFile hev _ path) (Machine.safe_evaluator left)
    exact ⟨ht₁, hallowed, hlimits'.trans hlimits, hdepth'.trans hdepth⟩

/-- A failure to answer ends the task. -/
theorem stops (h : Nested fuel task e calls left request t) (he : e.Usable)
    (htask : task.Allowed e.envs.size) {stop : Stop}
    (hstop : (request.answer (Machine.evaluator left) t).1 = .error stop) :
    (task.run (Machine.evaluator fuel) e).1 = .error stop ∨
      Spent (task.run (Machine.evaluator fuel) e).1 := by
  induction h generalizing stop with
  | asked hasks =>
    exact hasks.stops he (.of_safe he fun hev => Task.agrees_run hev htask)
      (Machine.safe_evaluator fuel) hstop
  | @call calls left c args request t t₁ t₂ a h hunderway hasks ih =>
    obtain ⟨ht, ⟨hc, hargs⟩, -, -⟩ := h.place he htask
    obtain ⟨hcoherent, hr⟩ := hunderway.coherent ht hc hargs
    have ht₁ := hcoherent.usable (hr.lawful (Engine.lawful_withDepth ht.room _) hcoherent.sp_le)
    -- the step stops, with it the call, and then all that is around it
    have hstep := hasks.stops ht₁ (.step hcoherent) (Machine.safe_evaluator left) hstop
    exact stops_trans (stops_trans hstep hunderway.stops) ih
  | @load _ left path _ _ _ h hasks ih =>
    obtain ⟨ht, -⟩ := h.place he htask
    exact stops_trans (hasks.stops ht (.of_safe ht fun hev => Machine.agrees_loadFile hev _ path)
      (Machine.safe_evaluator left) hstop) ih

/-- Closures that are running are no more than the limit allows. -/
theorem calls_le (h : Nested fuel task e calls left request t) (he : e.Usable)
    (htask : task.Allowed e.envs.size) : calls ≤ e.limits.maxApplyDepth - e.depth := by
  induction h with
  | asked _ => exact Nat.zero_le _
  | @call calls left c args request t t₁ t₂ a h hunderway _ _ =>
    -- the last of them was within the limit when it was called
    obtain ⟨-, -, hlimits, hdepth⟩ := h.place he htask
    have hshallow := hunderway.shallow
    rw [hlimits, hdepth] at hshallow
    omega
  | load _ _ ih => exact ih

end Nested

/-! ## Intrinsic functions -/

/-- A call of the function `f` with `args` comes down to one of `g` with `args'`, through so many
applications of intrinsic functions, each one an argument of the one before. -/
inductive ComesDownTo : (applications : Nat) → (f : Intrinsic) → (args : List Value) →
    (g : Intrinsic) → (args' : List Value) → Prop
  | here {f : Intrinsic} {args : List Value} : ComesDownTo 0 f args f args
  | apply {n : Nat} {f g : Intrinsic} {ref : Ref} {list : Value} {items args : List Value} :
      list.items? = some items → ComesDownTo n f items g args →
      ComesDownTo (n + 1) .apply [.intrinsic ref f, list] g args

theorem ComesDownTo.resolve {n : Nat} {f g : Intrinsic} {args args' : List Value}
    (h : ComesDownTo n f args g args') : Target.resolve f args = Target.resolve g args' := by
  induction h with
  | here => rfl
  | apply hitems _ ih =>
    rw [Target.resolve]
    split
    next hnone =>
      rw [hitems] at hnone
      cases hnone
    next hsome =>
      rw [hitems] at hsome
      exact Option.some.inj hsome ▸ ih

/-- Nothing is counted on the way. -/
theorem ComesDownTo.call {n : Nat} {f g : Intrinsic} {args args' : List Value}
    (h : ComesDownTo n f args g args') (ev : Evaluator) : f.call ev args = g.call ev args' := by
  rw [Intrinsic.call, h.resolve, Intrinsic.call]

/-- What the limit on nested calls bounds. In the course of a task, closures that are called while
others are running are counted, whatever called them, and are never more than the limit allows.
Where the limit has been reached, the next call of a closure ends the whole task with an error that
says so, unless its fuel has run out. Applications of intrinsic functions in each other are not
counted: on every engine, any number of them does what the innermost one does. -/
theorem nested_calls_are_bounded {e : Engine} (he : Reached e) {task : Task}
    (htask : task.Allowed e.envs.size) (fuel : Nat) :
    (∀ {calls left : Nat} {request : Request} {t : Engine},
      Nested fuel task e calls left request t →
      t.depth = e.depth + calls ∧ calls ≤ e.limits.maxApplyDepth - e.depth ∧
      ∀ {c : Closure} {args : List Value}, request = .apply c args →
        e.limits.maxApplyDepth ≤ e.depth + calls →
        (task.run (Machine.evaluator fuel) e).1 =
            .error (.fault (.exhausted (.applyDepth e.limits.maxApplyDepth))) ∨
          Spent (task.run (Machine.evaluator fuel) e).1) ∧
    ∀ {n : Nat} {f g : Intrinsic} {args args' : List Value}, ComesDownTo n f args g args' →
      ∀ (ev : Evaluator) (t : Engine), f.call ev args t = g.call ev args' t := by
  refine ⟨fun {calls left request t} h => ?_, fun h ev t => by rw [h.call ev]⟩
  obtain ⟨-, -, hlimits, hdepth⟩ := h.place he.usable htask
  refine ⟨hdepth, h.calls_le he.usable htask, ?_⟩
  rintro c args rfl hdeep
  rw [← hdepth] at hdeep
  cases left with
  | zero =>
    -- there is no fuel for another call, so that the task runs out of it
    exact .inr ((h.stops he.usable htask rfl).elim id id)
  | succ left =>
    refine h.stops he.usable htask ?_
    have hrefused :=
      Machine.applyWith_of_deep (Machine.evaluator left) left c args (hlimits ▸ hdeep)
    exact hlimits ▸ (congrArg Prod.fst hrefused :)

/-- Under a limit of one, the function of the form `(fn ())` is called while it is running. The call
`(apply apply (list identical? (list () ())))` gives an answer all the same. -/
theorem nested_calls_are_bounded_one : ∃ (e : Engine) (c : Closure),
    Reached e ∧ (e.limits.maxApplyDepth = 1 ∧ e.depth = 1) ∧
    ((Machine.evaluator 5).apply c [] e).1 = .error (.fault (.exhausted (.applyDepth 1))) ∧
    Intrinsic.call (Machine.evaluator 5) .apply [.intrinsic 0 .apply,
      .list 1 (.intrinsic 2 (.builtin .identical)) [.list 3 .nil [.nil]]] e =
        (.ok (.boolean true), e) := by
  obtain ⟨e, e₁, c, he, hc, -, ⟨hlimits, -, hdepth⟩, -, hstarted, hworking⟩ :=
    Working.literal_within (show 6 ≤ ({ maxApplyDepth := 1 } : Limits).maxSlots by decide)
      (by decide) rfl
  have hreached : Reached e₁ := .working (hworking 5)
  have hlimit : e₁.limits.maxApplyDepth = 1 := by rw [hstarted.limits, hlimits]
  have hcounted : e₁.depth = 1 := by rw [hstarted.depth, hdepth]
  have hcallable := hc.mono hstarted.envs_le
  have hrefused : (Machine.evaluator 5).apply c [] e₁ = _ :=
    Machine.applyWith_of_deep (Machine.evaluator 4) 4 c [] (by rw [hlimit, hcounted])
  -- the call is asked for, as it would end differently if it took too much fuel
  have hasks : Asks (Task.apply c []).run (Machine.evaluator 5) e₁ (.apply c []) e₁ := by
    have hspent : Request.answer ((Machine.evaluator 5).spending (.apply c []) e₁) (.apply c []) e₁
        = _ := Evaluator.answer_spending_self
    rw [Request.answer] at hspent
    refine ⟨(Machine.evaluator 5).spending (.apply c []) e₁, rfl, Evaluator.answer_spending, ?_⟩
    rw [Task.run, Task.run, hrefused, hspent]
    simp
  have hallowed : (Task.apply c []).Allowed e₁.envs.size := ⟨hcallable, List.forall_mem_nil _⟩
  obtain ⟨hbounded, huncounted⟩ := nested_calls_are_bounded hreached hallowed 5
  obtain ⟨-, -, hstops⟩ := hbounded (.asked hasks)
  refine ⟨e₁, c, hreached, ⟨hlimit, hcounted⟩, ?_, ?_⟩
  · have hends := hstops rfl (by rw [hlimit, hcounted])
    rw [hlimit] at hends
    exact hends.resolve_right (by simp [Task.run, hrefused, Spent])
  · rw [huncounted (.apply rfl (.apply rfl .here)), Intrinsic.call, Target.resolve]
    rfl

end StackLisp
