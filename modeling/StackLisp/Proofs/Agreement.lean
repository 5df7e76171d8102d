import StackLisp.Proofs.Safe

/-!
# Computations that agree

Two ways of running programs are compared by letting one lead: a computation `y` leads, and a
family of computations `X i`, with more and more fuel, follows it. They agree when the followers
end as the leader does once they have enough fuel, apart from what they are excused for, and run
out of fuel when the leader does and they have no more of it.

- `Leeway`: what followers are allowed;
- `Agrees`: the leader is safe and the followers track it;
- `Agrees.bind`: sequences of computations that agree do so;
- `Evaluator.Agree`: two evaluators agree on all that the compiler and built-in functions may ask.
-/

namespace StackLisp

/-- What followers are allowed. -/
structure Leeway where
  /-- Engines must be equal, and not only apart from their stacks and the limits to them. -/
  exact : Prop
  /-- What a follower may stop with, whatever the leader does, on a stack with the given limit and
  pointer. More is excused the more slots there would have to be. -/
  excused : (slots maxSlots sp : Nat) → Stop → Prop
  excused_mono : ∀ {m n maxSlots sp stop}, m ≤ n → excused m maxSlots sp stop →
    excused n maxSlots sp stop := by exact fun _ h => h
  /-- Followers up to this one have no more fuel than the leader. -/
  patience : Nat
  /-- How a follower's stack may differ from the leader's. -/
  near : Room → Room → Prop := fun _ _ => True

namespace Leeway

variable (κ : Leeway) {α β : Type}

/-- A follower's engine is like the leader's. -/
structure Like (s t : Engine) : Prop where
  gist : s.gist = t.gist
  frame : s.frame ≤ s.sp
  exact : κ.exact → s = t
  near : κ.near s.room t.room

/-- A follower that started at `s` ended like the leader. -/
structure Follows (s : Engine) (o o' : Except Stop α × Engine) : Prop where
  result : o.1 = o'.1
  like : κ.Like o.2 o'.2
  keeps : s.Keeps o.2

/-- A follower stopped with an excuse. -/
def GivesUp (slots maxSlots sp : Nat) (r : Except Stop α) : Prop :=
  ∃ stop, r = .error stop ∧ κ.excused slots maxSlots sp stop

variable {κ} {m n maxSlots sp : Nat} {r : Except Stop α}

theorem GivesUp.mono (hmn : m ≤ n) (h : κ.GivesUp m maxSlots sp r) : κ.GivesUp n maxSlots sp r :=
  h.imp fun _ => And.imp_right (κ.excused_mono hmn)

end Leeway

/-- The computation ran out of fuel. -/
def Spent {α : Type} (r : Except Stop α) : Prop :=
  r = .error .outOfFuel

/-- From engines like `t`, the followers do what the leader did, which started there. -/
structure Tracks (κ : Leeway) {α : Type} (t : Engine) (X : Nat → Eval α)
    (o : Except Stop α × Engine) : Prop where
  /-- A leader that runs out of fuel is joined by the followers that have no more. -/
  spent : Spent o.1 → ∀ i ≤ κ.patience, ∀ s, κ.Like s t →
    (∃ slots, κ.GivesUp slots s.limits.maxSlots s.sp (X i s).1) ∨ Spent (X i s).1
  /-- A leader that ends is joined by the followers that have enough fuel and slots. -/
  ends : ¬ Spent o.1 → ∃ enough, ∀ i s, κ.Like s t →
    κ.GivesUp enough s.limits.maxSlots s.sp (X i s).1 ∨ (i < enough ∧ Spent (X i s).1) ∨
      κ.Follows s (X i s) o

/-- At the engine `t`, the leader is safe and the followers track it. -/
structure Agrees [Unbound] (κ : Leeway) {α : Type} (t : Engine) (X : Nat → Eval α) (y : Eval α)
    (Q : α → Engine → Prop) : Prop where
  safe : y.Safe t Q
  tracks : t.Sound → t.frame ≤ t.sp → Tracks κ t X (y t)

namespace Tracks

open Eval

variable {κ : Leeway} {α β : Type} {s t t' : Engine} {X : Nat → Eval α} {F : Nat → α → Eval β}
  {i : Nat}

/-- A follower that stops in its first part stops as a whole. -/
theorem bind_stops {stop : Stop} (h : (X i s).1 = .error stop) :
    ((X i >>= F i) s).1 = .error stop := by
  have hrun : X i s = (.error stop, (X i s).2) := Prod.ext h rfl
  rw [bind_of_error hrun]

theorem bind_givesUp {slots maxSlots sp : Nat} (h : κ.GivesUp slots maxSlots sp (X i s).1) :
    κ.GivesUp slots maxSlots sp ((X i >>= F i) s).1 := by
  obtain ⟨stop, hstop, hexcused⟩ := h
  exact ⟨stop, bind_stops hstop, hexcused⟩

/-- When the leader stops in its first part, the followers do. -/
theorem bind_error {stop : Stop} (h : Tracks κ t X (.error stop, t')) :
    Tracks κ t (fun i => X i >>= F i) (.error stop, t') := by
  refine ⟨fun hspent i hi s hlike => ?_, fun hnot => ?_⟩
  · rcases h.spent (by cases hspent; rfl) i hi s hlike with ⟨slots, h⟩ | h
    · exact .inl ⟨slots, bind_givesUp h⟩
    · exact .inr (bind_stops h)
  · obtain ⟨enough, hends⟩ := h.ends fun hspent => hnot (by cases hspent; rfl)
    refine ⟨enough, fun i s hlike => ?_⟩
    rcases hends i s hlike with h | ⟨hi, h⟩ | h
    · exact .inl (bind_givesUp h)
    · exact .inr (.inl ⟨hi, bind_stops h⟩)
    · have hrun : X i s = (.error stop, (X i s).2) := Prod.ext h.result rfl
      rw [show (X i >>= F i) s = (.error stop, (X i s).2) from bind_of_error hrun _]
      exact .inr (.inr ⟨rfl, h.like, h.keeps⟩)

/-- When the leader is through with its first part, so are the followers, and the rest decides. -/
theorem bind_ok {a : α} {o : Except Stop β × Engine} (h : Tracks κ t X (.ok a, t'))
    (hrest : Tracks κ t' (fun i => F i a) o) : Tracks κ t (fun i => X i >>= F i) o := by
  have hnot : ¬ Spent (Except.ok a : Except Stop α) := nofun
  obtain ⟨enough, hends⟩ := h.ends hnot
  -- a follower that got this far goes on from its own engine, which is like the leader's
  have hgo : ∀ {i s}, κ.Follows s (X i s) (.ok a, t') → (X i >>= F i) s = F i a (X i s).2 := by
    intro i s h
    have hrun : X i s = (.ok a, (X i s).2) := Prod.ext h.result rfl
    exact bind_of_ok hrun (F i)
  refine ⟨fun hspent i hi s hlike => ?_, fun hnot => ?_⟩
  · rcases hends i s hlike with h | ⟨-, h⟩ | h
    · exact .inl ⟨enough, bind_givesUp h⟩
    · exact .inr (bind_stops h)
    · rw [hgo h, ← h.keeps.limits, ← h.keeps.sp]
      exact hrest.spent hspent i hi _ h.like
  · obtain ⟨enough', hends'⟩ := hrest.ends hnot
    -- enough for both parts is enough for the sequence
    refine ⟨max enough enough', fun i s hlike => ?_⟩
    rcases hends i s hlike with h | ⟨hi, h⟩ | h
    · exact .inl ((bind_givesUp h).mono (le_max_left _ _))
    · exact .inr (.inl ⟨lt_max_of_lt_left hi, bind_stops h⟩)
    · rw [hgo h, ← h.keeps.limits, ← h.keeps.sp]
      rcases hends' i _ h.like with h' | ⟨hi, h'⟩ | h'
      · exact .inl (h'.mono (le_max_right _ _))
      · exact .inr (.inl ⟨lt_max_of_lt_right hi, h'⟩)
      · exact .inr (.inr ⟨h'.result, h'.like, h.keeps.trans h'.keeps⟩)

end Tracks

namespace Agrees

open Eval

variable [Unbound] {κ : Leeway} {α β : Type} {t : Engine}

theorem mono {X : Nat → Eval α} {y : Eval α} {Q R : α → Engine → Prop} (h : Agrees κ t X y Q)
    (hqr : ∀ a t', t.Keeps t' → Q a t' → R a t') : Agrees κ t X y R :=
  ⟨h.safe.mono hqr, h.tracks⟩

/-- What follows from the way the leader ended. -/
theorem strengthen {X : Nat → Eval α} {y : Eval α} {Q R : α → Engine → Prop}
    (h : Agrees κ t X y Q)
    (hqr : ∀ a t', t.Sound → t.frame ≤ t.sp → y t = (.ok a, t') → Q a t' → R a t') :
    Agrees κ t X y R := by
  refine ⟨fun hs hf => ?_, h.tracks⟩
  obtain ⟨hk, hs', hq⟩ := h.safe hs hf
  refine ⟨hk, hs', ?_⟩
  cases hr : y t with
  | mk r t' =>
    rw [hr] at hq
    cases r with
    | error stop => exact hq
    | ok a => exact hqr a t' hs hf hr hq

/-- Computations need to agree on sound engines only. -/
theorem of_sound {X : Nat → Eval α} {y : Eval α} {Q : α → Engine → Prop}
    (h : t.Sound → t.frame ≤ t.sp → Agrees κ t X y Q) : Agrees κ t X y Q :=
  ⟨fun hs hf => (h hs hf).safe hs hf, fun hs hf => (h hs hf).tracks hs hf⟩

/-- A computation that does not see the stack agrees with itself. -/
theorem blind {y : Eval α} {Q : α → Engine → Prop} (hb : Blind y) (hs : y.Safe t Q) :
    Agrees κ t (fun _ => y) y Q := by
  refine ⟨hs, fun hsound hframe => ?_⟩
  have hrun : ∀ s, κ.Like s t →
      y s = ((y t).1, (y t).2.on s.stack s.sp s.frame s.limits.maxSlots) :=
    fun s h => hb.run_gist h.gist
  refine ⟨fun hspent i _ s h => .inr ?_, fun _ => ⟨0, fun i s h => .inr (.inr ?_)⟩⟩
  · rw [hrun s h]
    exact hspent
  · obtain ⟨hk, -, -⟩ := hs hsound hframe
    have hst := Engine.eq_on_of_gist h.gist
    -- neither engine's stack has changed
    have hleader : (y t).2.room = t.room := by
      rw [Engine.room, hb.same_room t, Engine.room, ← hk.limits, ← hk.depth]
      rfl
    have hfollower : (y s).2.room = s.room := by
      rw [hrun s h, Engine.room, Engine.room, hst, Engine.on, Engine.on, hk.limits, hk.depth]
    refine ⟨by rw [hrun s h], ⟨by rw [hrun s h]; rfl, by rw [hrun s h]; exact h.frame, ?_, ?_⟩, ?_⟩
    · intro hexact
      rw [h.exact hexact]
    · rw [hleader, hfollower]
      exact h.near
    · rw [hrun s h, hst, Engine.on, Engine.on]
      exact ⟨⟨by simp only [hk.limits], hk.hosts, hk.files, hk.depth, fun _ _ _ h => h, le_rfl,
        le_max_left _ _, hk.envs, hk.linked⟩, rfl, rfl⟩

theorem pure {a : α} {Q : α → Engine → Prop} (h : t.Sound → Q a t) :
    Agrees κ t (fun _ => Pure.pure a) (Pure.pure a) Q :=
  .blind (.pure a) (.pure h)

theorem fail {error : Error} (h : error.Tame) (Q : α → Engine → Prop) :
    Agrees κ t (fun _ => Eval.fail error) (Eval.fail error) Q :=
  .blind (.throw _) (.fail h Q)

/-- Looking at the engine, to go on in a way that depends on neither stack nor limit. -/
theorem reading {F : Nat → Engine → Eval α} {G : Engine → Eval α} {Q : α → Engine → Prop}
    (hF : ∀ i e stack sp frame maxSlots, F i (e.on stack sp frame maxSlots) = F i e)
    (h : Agrees κ t (fun i => F i t) (G t) Q) :
    Agrees κ t (fun i => get >>= F i) (get >>= G) Q := by
  have hread : ∀ {i : Nat} {s : Engine}, s.gist = t.gist → (get >>= F i) s = F i t s := by
    intro i s hgist
    rw [bind_of_ok (get_run s), Engine.congr_gist (F i) (hF i) hgist]
  have ht : (get >>= G) t = G t t := bind_of_ok (get_run t) G
  refine ⟨fun hs hframe => ht ▸ h.safe hs hframe, fun hs hframe => ?_⟩
  obtain ⟨hspent, hends⟩ := h.tracks hs hframe
  rw [ht]
  refine ⟨fun hy i hi s hlike => ?_, fun hy => ?_⟩
  · rw [hread hlike.gist]
    exact hspent hy i hi s hlike
  · obtain ⟨enough, hends⟩ := hends hy
    refine ⟨enough, fun i s hlike => ?_⟩
    rw [hread hlike.gist]
    exact hends i s hlike

/-- Sequences agree if their parts do. -/
theorem bind {X : Nat → Eval α} {y : Eval α} {F : Nat → α → Eval β} {G : α → Eval β}
    {Q : α → Engine → Prop} {R : β → Engine → Prop} (hx : Agrees κ t X y Q)
    (hf : ∀ a t', y t = (.ok a, t') → t.Keeps t' → t'.Sound → Q a t' →
      Agrees κ t' (fun i => F i a) (G a) R) :
    Agrees κ t (fun i => X i >>= F i) (y >>= G) R := by
  refine ⟨hx.safe.bind fun a t' hr hk hs hq => (hf a t' hr hk hs hq).safe, fun hs hframe => ?_⟩
  have htracks := hx.tracks hs hframe
  obtain ⟨hk, hs', hq⟩ := hx.safe hs hframe
  cases hy : y t with
  | mk r t' =>
    rw [hy] at hk hs' hq htracks
    cases r with
    | error stop =>
      rw [show (y >>= G) t = (.error stop, t') from bind_of_error hy G]
      exact htracks.bind_error
    | ok a =>
      rw [show (y >>= G) t = G a t' from bind_of_ok hy G]
      exact htracks.bind_ok ((hf a t' hy hk hs' hq).tracks hs' (hk.frame_le hframe))

/-- A follower that is not excused for anything ends as the leader does. -/
theorem together {s : Engine} {x y : Eval α} {Q : α → Engine → Prop}
    (h : Agrees κ t (fun _ => x) y Q)
    (hexcused : ∀ slots maxSlots sp stop, ¬ κ.excused slots maxSlots sp stop) (hs : t.Sound)
    (hframe : t.frame ≤ t.sp) (hlike : κ.Like s t) :
    κ.Follows s (x s) (y t) ∨ Spent (x s).1 ∧ Spent (y t).1 := by
  obtain ⟨hspent, hends⟩ := h.tracks hs hframe
  by_cases hy : Spent (y t).1
  · rcases hspent hy 0 (Nat.zero_le _) s hlike with ⟨_, stop, -, hexcuse⟩ | hx
    · exact absurd hexcuse (hexcused _ _ _ stop)
    · exact .inr ⟨hx, hy⟩
  · obtain ⟨enough, hends⟩ := hends hy
    rcases hends enough s hlike with ⟨stop, -, hexcuse⟩ | ⟨hlt, -⟩ | hfollows
    · exact absurd hexcuse (hexcused _ _ _ stop)
    · exact absurd hlt (lt_irrefl _)
    · exact .inl hfollows

end Agrees

/-- Followers' evaluators agree with a leader's on all that may be asked of them. -/
structure Evaluator.Agree [Unbound] (κ : Leeway) (X : Nat → Evaluator) (y : Evaluator) : Prop where
  /-- The followers have as much fuel in the end. -/
  fuel : ∃ enough, ∀ i, enough ≤ i → y.fuel ≤ (X i).fuel
  /-- At first they have no more. -/
  patient : ∀ i ≤ κ.patience, (X i).fuel ≤ y.fuel
  apply : ∀ {t : Engine} {c : Closure} {args : List Value}, c.Callable t.envs.size →
    (∀ v ∈ args, v.Proper t.envs.size) →
    Agrees κ t (fun i => (X i).apply c args) (y.apply c args) ProperResult
  loadFile : ∀ (t : Engine) (path : String),
    Agrees κ t (fun i => (X i).loadFile path) (y.loadFile path) ProperResult

/-- Whatever may be asked of the evaluator is safe. -/
structure Evaluator.Safe [Unbound] (ev : Evaluator) : Prop where
  apply : ∀ {e : Engine} {c : Closure} {args : List Value}, c.Callable e.envs.size →
    (∀ v ∈ args, v.Proper e.envs.size) → (ev.apply c args).Safe e ProperResult
  loadFile : ∀ (e : Engine) (path : String), (ev.loadFile path).Safe e ProperResult

theorem Evaluator.Agree.safe [Unbound] {κ : Leeway} {X : Nat → Evaluator} {y : Evaluator}
    (h : Evaluator.Agree κ X y) : y.Safe :=
  ⟨fun hc hargs => (h.apply hc hargs).safe, fun e path => (h.loadFile e path).safe⟩

/-- Followers must do exactly what the leader does, with a stack within the limits. -/
def Leeway.strict : Leeway :=
  { exact := True, excused := fun _ _ _ _ => False, patience := 0, near := fun r _ => r.Lawful }

/-- A safe computation agrees with one that does the same on sound engines. -/
theorem Agrees.of_eq [Unbound] {α : Type} {t : Engine} {x y : Eval α} {Q : α → Engine → Prop}
    (h : y.Safe t Q) (heq : t.Sound → t.frame ≤ t.sp → t.room.Lawful → x t = y t) :
    Agrees .strict t (fun _ => x) y Q := by
  refine ⟨h, fun hs hf => ⟨fun hspent _ _ s hlike => .inr ?_, fun _ => ⟨0, fun _ s hlike => ?_⟩⟩⟩
  · obtain rfl := hlike.exact trivial
    rw [heq hs hf hlike.near]
    exact hspent
  · obtain ⟨hk, -, -⟩ := h hs hf
    obtain rfl := hlike.exact trivial
    rw [heq hs hf hlike.near]
    exact .inr (.inr ⟨rfl, ⟨rfl, hk.frame_le hf, fun _ => rfl, hk.lawful hlike.near⟩, hk⟩)

theorem Evaluator.Safe.agree [Unbound] {ev : Evaluator} (h : ev.Safe) :
    Evaluator.Agree .strict (fun _ => ev) ev where
  fuel := ⟨0, fun _ _ => le_rfl⟩
  patient _ _ := le_rfl
  apply hc hargs := .of_eq (h.apply hc hargs) fun _ _ _ => rfl
  loadFile t path := .of_eq (h.loadFile t path) fun _ _ _ => rfl

end StackLisp
