import StackLisp.Proofs.Expanding

/-!
# Compiling alongside an expansion

Two runs are followed side by side. One compiles and expands forms on the way. The other only
expands, and what comes out is compiled in a third run, where there are no macros. The first two
runs call the same macros in the same order, so they are in parallel; what they make differs, since
the one makes closures and the other lists.

- `Compiler.Passes`: building with macros is expanding, and then building without;
- `Compiler.Passes.seq`: this holds of a sequence if it holds of its parts;
- `Compiler.Ways.Row`: the same of forms that are expanded in a row;
- `Compiler.row_call`, `row_conditional`, `row_assignment`, `row_function`: it holds of a form if it
  holds of the forms in it that are evaluated.
-/

namespace StackLisp

namespace Compiler

/-! ## Outcomes -/

variable {origin : Engine} {state : Engine → Prop} {ρ σ τ : Matching}

/-- How building ends, next to an expansion that ended in the given engine: what is built from the
expansion's result fails as well, or gives a builder alike. -/
inductive Matches (origin : Engine) (state : Engine → Prop) (σ : Matching) (b : Builder)
    (e' : Engine) (stays : Prop) (z : Build Unit) : Except Stop (Unit × Builder) × Engine → Prop
  | failed {stop : Stop} {e : Engine}
      (h : stays → ∀ b' s, b.Alike σ b' → s.NoMacros → ∃ stop' s', z b' s = (.error stop', s')) :
      Matches origin state σ b e' stays z (.error stop, e)
  | built {b₁ : Builder} {e : Engine} (τ : Matching) (hτ : ∀ i j, σ i j → τ i j)
      (hpar : Parallel origin state τ e e')
      (h : stays → ∀ b' s, b.Alike σ b' → s.NoMacros → ∃ b₁' s', z b' s = (.ok ((), b₁'), s') ∧
        s'.NoMacros ∧ b₁.Alike τ b₁') :
      Matches origin state σ b e' stays z (.ok ((), b₁), e)

namespace Matches

variable {b : Builder} {e' : Engine} {stays stays' : Prop} {z z' : Build Unit}
  {r : Except Stop (Unit × Builder) × Engine}

/-- More builders are alike when more objects correspond. -/
theorem narrow (h : Matches origin state τ b e' stays z r) (hσ : ∀ i j, σ i j → τ i j)
    (hz : stays' → stays ∧ ∀ b s, s.NoMacros → z' b s = z b s) :
    Matches origin state σ b e' stays' z' r := by
  cases h with
  | failed h =>
    refine .failed fun hstays b' s hb hs => ?_
    rw [(hz hstays).2 b' s hs]
    exact h (hz hstays).1 b' s (hb.mono hσ) hs
  | built υ hυ hpar h =>
    refine .built υ (fun i j hij => hυ i j (hσ i j hij)) hpar fun hstays b' s hb hs => ?_
    rw [(hz hstays).2 b' s hs]
    exact h (hz hstays).1 b' s (hb.mono hσ) hs

/-- After the expansion more objects may be made. -/
theorem withStore {ev : Evaluator} (hpure : PureMacros ev origin state)
    (h : Matches origin state σ b e' stays z r) {store : Store}
    (hstore : e'.store.nextRef ≤ store.nextRef) :
    Matches origin state σ b { e' with store } stays z r := by
  cases h with
  | failed h => exact .failed h
  | built υ hυ hpar h => exact .built υ hυ (hpar.withStore hpure (Nat.le_refl _) hstore) h

/-- What was built before goes before on both sides. -/
theorem prepend {b₁ : Builder} {stays₁ stays₂ : Prop} {z₁ z₂ : Build Unit}
    (h : Matches origin state τ b₁ e' stays₂ z₂ r) (hτ : ∀ i j, σ i j → τ i j)
    (hbuilt : stays₁ → ∀ b' s, b.Alike σ b' → s.NoMacros → ∃ b₁' s', z₁ b' s = (.ok ((), b₁'), s') ∧
      s'.NoMacros ∧ b₁.Alike τ b₁') :
    Matches origin state σ b e' (stays₁ ∧ stays₂) (z₁ >>= fun _ => z₂) r := by
  cases h with
  | failed h =>
    refine .failed fun hstays b' s hb hs => ?_
    obtain ⟨b₁', s₁, hrun, hs₁, hb₁⟩ := hbuilt hstays.1 b' s hb hs
    rw [Build.bind_of_ok hrun]
    exact h hstays.2 b₁' s₁ hb₁ hs₁
  | built υ hυ hpar h =>
    refine .built υ (fun i j hij => hυ i j (hτ i j hij)) hpar fun hstays b' s hb hs => ?_
    obtain ⟨b₁', s₁, hrun, hs₁, hb₁⟩ := hbuilt hstays.1 b' s hb hs
    rw [Build.bind_of_ok hrun]
    exact h hstays.2 b₁' s₁ hb₁ hs₁

end Matches

/-- How compiling a function literal ends, next to an expansion that ended in the given engine: what
its body was expanded to fails as well, or gives a closure that agrees. -/
inductive Closes (origin : Engine) (state : Engine → Prop) (σ : Matching) (e' : Engine)
    (stays : Prop) (z : Eval Closure) : Except Stop Closure × Engine → Prop
  | failed {stop : Stop} {e : Engine}
      (h : stays → ∀ s, s.NoMacros → ∃ stop' s', z s = (.error stop', s')) :
      Closes origin state σ e' stays z (.error stop, e)
  | compiled {c : Closure} {e : Engine} (τ : Matching) (hτ : ∀ i j, σ i j → τ i j)
      (hpar : Parallel origin state τ e e')
      (h : stays → ∀ s, s.NoMacros → ∃ c' s', z s = (.ok c', s') ∧ s'.NoMacros ∧
        (Value.closure c).Alike .any (.closure c')) :
      Closes origin state σ e' stays z (.ok c, e)

/-! ## Passes -/

/-- Building `x`, in which forms are expanded on the way, is expanding by `y` and then building `z`
from the result where there are no macros. If the expansion is deep enough and fails, `x` fails. Of
what was expanded `stays` must hold, or else nothing is said about `z`. -/
def Passes (origin : Engine) (state : Engine → Prop) (deep : Prop) (ρ : Matching) {α : Type}
    (x : Build Unit) (y : Eval α) (stays : α → Prop) (z : α → Build Unit) : Prop :=
  ∀ ⦃σ : Matching⦄ ⦃e e' : Engine⦄ (b : Builder), (∀ i j, ρ i j → σ i j) →
    Parallel origin state σ e e' →
      (∀ a t', y e' = (.ok a, t') → Matches origin state σ b t' (stays a) (z a) (x b e)) ∧
      (deep → ∀ stop t', y e' = (.error stop, t') → ∃ stop' t, x b e = (.error stop', t))

namespace Passes

variable {deep : Prop} {α β : Type} {x x₁ x₂ : Build Unit} {y : Eval α} {y₁ : Eval α}
  {y₂ : Eval β} {stays : α → Prop} {stays₁ : α → Prop} {stays₂ : β → Prop} {z : α → Build Unit}
  {z₁ : α → Build Unit} {z₂ : β → Build Unit}

/-- One part after the other. -/
theorem seq (h₁ : Passes origin state deep ρ x₁ y₁ stays₁ z₁)
    (h₂ : Passes origin state deep ρ x₂ y₂ stays₂ z₂) :
    Passes origin state deep ρ (x₁ >>= fun _ => x₂)
      (y₁ >>= fun a => y₂ >>= fun c => pure (a, c))
      (fun p => stays₁ p.1 ∧ stays₂ p.2) (fun p => z₁ p.1 >>= fun _ => z₂ p.2) := by
  intro σ e e' b hσ hpar
  obtain ⟨hok, herror⟩ := h₁ b hσ hpar
  -- if the first expansion fails there is no second one, and nothing to build from
  rcases hy : y₁ e' with ⟨stop | a, t₁⟩
  · have hboth := Eval.bind_of_error hy fun a => y₂ >>= fun c => pure (a, c)
    refine ⟨fun p t' h => ?_, fun hdeep stop' t' h => ?_⟩
    · rw [hboth] at h
      cases h
    · obtain ⟨stop', t, hx⟩ := herror hdeep stop t₁ hy
      exact ⟨stop', t, Build.bind_of_error hx _⟩
  · have hboth := Eval.bind_of_ok hy fun a => y₂ >>= fun c => pure (a, c)
    have hfirst := hok a t₁ hy
    rw [hboth]
    generalize hx : x₁ b e = r at hfirst
    cases hfirst with
    | failed hz =>
      -- the expansion goes on, but what it gives is not built either
      rw [Build.bind_of_error hx]
      refine ⟨?_, fun _ _ _ _ => ⟨_, _, rfl⟩⟩
      rintro p t' h
      obtain ⟨c, t₂, -, hpair⟩ := Eval.bind_eq_ok.1 h
      cases hpair
      refine .failed fun hstays b' s hb hs => ?_
      obtain ⟨stop', s', hrun⟩ := hz hstays.1 b' s hb hs
      exact ⟨stop', s', Build.bind_of_error hrun _⟩
    | @built b₁ e₁ τ hτ hpar₁ hz =>
      rw [Build.bind_of_ok hx]
      obtain ⟨hok₂, herror₂⟩ := h₂ b₁ (fun i j hij => hτ i j (hσ i j hij)) hpar₁
      refine ⟨fun p t' h => ?_, fun hdeep stop t' h => ?_⟩
      · obtain ⟨c, t₂, hy₂, hpair⟩ := Eval.bind_eq_ok.1 h
        cases hpair
        exact (hok₂ c _ hy₂).prepend hτ hz
      · rcases hy₂ : y₂ t₁ with ⟨stop₂ | c, t₂⟩
        · exact herror₂ hdeep stop₂ t₂ hy₂
        · rw [Eval.bind_of_ok hy₂] at h
          cases h

/-- The result of an expansion may be made into something else, which is built the same way. -/
theorem map {ev : Evaluator} (hpure : PureMacros ev origin state)
    (h : Passes origin state deep ρ x y stays z) {f : α → Store → β × Store}
    {stays' : β → Prop} {z' : β → Build Unit}
    (hstore : ∀ a (store : Store), store.nextRef ≤ (f a store).2.nextRef)
    (hz : ∀ a e' t' (store : Store), y e' = (.ok a, t') → stays' (f a store).1 →
      stays a ∧ ∀ b s, s.NoMacros → z' (f a store).1 b s = z a b s) :
    Passes origin state deep ρ x (y >>= fun a => Eval.onStore (f a)) stays' z' := by
  intro σ e e' b hσ hpar
  obtain ⟨hok, herror⟩ := h b hσ hpar
  refine ⟨fun c t' hc => ?_, fun hdeep stop t' hstop => ?_⟩
  · obtain ⟨a, t₁, hy, hmade⟩ := Eval.bind_eq_ok.1 hc
    obtain ⟨rfl, rfl⟩ : c = (f a t₁.store).1 ∧ t' = { t₁ with store := (f a t₁.store).2 } := by
      simpa [eq_comm] using hmade
    exact ((hok a t₁ hy).withStore hpure (hstore a _)).narrow (fun _ _ h => h) (hz a e' t₁ _ hy)
  -- making something of the result cannot fail, so the expansion itself did
  · rcases hy : y e' with ⟨stop₁ | a, t₁⟩
    · exact herror hdeep stop₁ t₁ hy
    · rw [Eval.bind_of_ok hy] at hstop
      cases hstop

/-- A result may be given in another form. -/
theorem congr {ev : Evaluator} (hpure : PureMacros ev origin state)
    (h : Passes origin state deep ρ x y stays z) {f : α → β} {y' : Eval β} {stays' : β → Prop}
    {z' : β → Build Unit} (hy : y' = y >>= fun a => pure (f a))
    (hz : ∀ a e' t', y e' = (.ok a, t') → stays' (f a) → stays a ∧ z' (f a) = z a) :
    Passes origin state deep ρ x y' stays' z' := by
  rw [hy]
  refine h.map hpure (f := fun a store => (f a, store)) (fun _ _ => Nat.le_refl _) ?_
  intro a e' t' _ ha hstays
  obtain ⟨hstays', hsame⟩ := hz a e' t' ha hstays
  exact ⟨hstays', fun b s _ => by rw [hsame]⟩

/-- What both sides build by themselves may come first. -/
theorem own {ev : Evaluator} (hpure : PureMacros ev origin state) {p p' : Build Unit}
    (hp : Passes origin state deep ρ p (pure ()) (fun _ => True) fun _ => p')
    (h : Passes origin state deep ρ x y stays z) :
    Passes origin state deep ρ (p >>= fun _ => x) y stays (fun a => p' >>= fun _ => z a) := by
  refine (hp.seq h).congr hpure (f := Prod.snd) ?_ ?_
  · simp
  · exact fun a _ _ _ hstays => ⟨⟨trivial, hstays⟩, rfl⟩

end Passes

/-- Both sides add the same instruction. -/
theorem passes_emit (deep : Prop) (i : Instruction) :
    Passes origin state deep ρ (emit i) (pure ()) (fun _ => True) (fun _ => emit i) := by
  intro σ e e' b hσ hpar
  refine ⟨fun a t' h => ?_, fun _ _ _ h => by cases h⟩
  cases h
  exact .built σ (fun _ _ h => h) hpar fun _ b' s hb hs => ⟨_, s, rfl, hs, hb.emit i⟩

/-- An addition that is refused on both sides or on none. -/
theorem passes_addition (deep : Prop) {p p' : Build Unit}
    (h : ∀ {σ : Matching} (b : Builder) (e : Engine), (∀ i j, ρ i j → σ i j) → σ.OneToOne →
      (∃ stop, p b e = (.error stop, e) ∧
        ∀ b' s, b.Alike σ b' → ∃ stop', p' b' s = (.error stop', s)) ∨
      ∃ b₁, p b e = (.ok ((), b₁), e) ∧
        ∀ b' s, b.Alike σ b' → ∃ b₁', p' b' s = (.ok ((), b₁'), s) ∧ b₁.Alike σ b₁') :
    Passes origin state deep ρ p (pure ()) (fun _ => True) (fun _ => p') := by
  intro σ e e' b hσ hpar
  refine ⟨fun a t' ha => ?_, fun _ _ _ h => by cases h⟩
  cases ha
  obtain ⟨stop, hrun, hsame⟩ | ⟨b₁, hrun, hsame⟩ := h b e hσ hpar.oneToOne
  · rw [hrun]
    refine .failed fun _ b' s hb _ => ?_
    obtain ⟨stop', hrun'⟩ := hsame b' s hb
    exact ⟨stop', s, hrun'⟩
  · rw [hrun]
    refine .built σ (fun _ _ h => h) hpar fun _ b' s hb hs => ?_
    obtain ⟨b₁', hrun', hb₁⟩ := hsame b' s hb
    exact ⟨b₁', s, hrun', hs, hb₁⟩

/-- Pushing from the same place is possible on both sides or on none. -/
theorem pushAt_run (b : Builder) (place : Nat) (e : Engine) :
    (do return ((), ← Eval.ofExcept (b.pushAt place)) : Eval (Unit × Builder)) e =
      if 65535 < place then (.error (.fault (.exhausted .constants)), e)
      else (.ok ((), b.emit (.const place.toUInt16)), e) := by
  rw [Builder.pushAt]
  split <;> rfl

/-- Alike constants are pushed from the same place. -/
theorem passes_constant (deep : Prop) {v v' : Value} (hv : v.Alike ρ v') :
    Passes origin state deep ρ (constant v) (pure ()) (fun _ => True) (fun _ => constant v') := by
  have hrun : ∀ (w : Value) (c : Builder) (s : Engine), constant w c s =
      if 65535 < (c.place w).1 then (.error (.fault (.exhausted .constants)), s)
      else (.ok ((), (c.place w).2.emit (.const (c.place w).1.toUInt16)), s) :=
    fun w c s => pushAt_run (c.place w).2 (c.place w).1 s
  refine passes_addition deep fun {σ} b e hσ hone => ?_
  -- the place is the same on both sides, and so is whether its index fits one word
  have hplace : ∀ b', b.Alike σ b' → _ := fun b' hb => hb.place hone (hv.mono hσ)
  by_cases hfar : 65535 < (b.place v).1
  · refine .inl ⟨.fault (.exhausted .constants), ?_, fun b' s hb =>
      ⟨.fault (.exhausted .constants), ?_⟩⟩
    · rw [hrun, if_pos hfar]
    · rw [hrun, if_pos ((hplace b' hb).1 ▸ hfar)]
  · refine .inr ⟨_, (hrun v b e).trans (if_neg hfar), fun b' s hb => ?_⟩
    have hsame := hplace b' hb
    refine ⟨_, (hrun v' b' s).trans (if_neg (hsame.1 ▸ hfar)), ?_⟩
    rw [← hsame.1]
    exact hsame.2.emit _

/-- Labels are taken from the same count. -/
theorem passes_label {deep : Prop} {α : Type} {x : UInt16 → Build Unit} {y : Eval α}
    {stays : α → Prop} {z : UInt16 → α → Build Unit}
    (h : ∀ l, Passes origin state deep ρ (x l) y stays (z l)) :
    Passes origin state deep ρ (label >>= x) y stays (fun a => label >>= fun l => z l a) := by
  intro σ e e' b hσ hpar
  -- the builders have given out as many labels, so the last one is taken on both sides
  rcases Nat.lt_or_ge b.nextLabel 65535 with hlt | hfull
  · rw [Build.bind_of_ok (label_of_lt hlt e)]
    obtain ⟨hok, herror⟩ := h b.nextLabel.toUInt16 { b with nextLabel := b.nextLabel + 1 } hσ hpar
    refine ⟨fun a t' ha => ?_, herror⟩
    -- the other builder takes the same label, and is then alike again
    have hsame : ∀ (b' : Builder) (s : Engine), b.Alike σ b' →
        (label >>= fun l => z l a) b' s = z b.nextLabel.toUInt16 a
          { b' with nextLabel := b.nextLabel + 1 } s := by
      intro b' s hb
      rw [Build.bind_of_ok (label_of_lt (hb.nextLabel ▸ hlt) s), hb.nextLabel]
    have hbuild := hok a t' ha
    generalize x b.nextLabel.toUInt16 _ e = r at hbuild
    cases hbuild with
    | failed hz =>
      refine .failed fun hstays b' s hb hs => ?_
      dsimp only
      rw [hsame b' s hb]
      exact hz hstays _ s (hb.relabel _) hs
    | built τ hτ hpar₁ hz =>
      refine .built τ hτ hpar₁ fun hstays b' s hb hs => ?_
      dsimp only
      rw [hsame b' s hb]
      exact hz hstays _ s (hb.relabel _) hs
  · rw [Build.bind_of_error (label_of_le hfull e)]
    refine ⟨fun a t' _ => .failed fun _ b' s hb _ => ?_, fun _ _ _ _ => ⟨_, _, rfl⟩⟩
    exact ⟨_, s, Build.bind_of_error (label_of_le (hb.nextLabel ▸ hfull) s) _⟩

/-! ## Parts in a row -/

/-- A way to compile with macros, a way to expand, and a way to compile without macros. -/
structure Ways where
  compile : Value → Build Unit
  expand : Value → Eval Expansion
  compileRest : Value → Build Unit

variable {ev : Evaluator} {deep : Prop} {W : Ways}

namespace Ways

/-- Compiling a form with macros is expanding it, and then compiling without macros. -/
def Part (W : Ways) (origin : Engine) (state : Engine → Prop) (deep : Prop) (ρ : Matching)
    (v v' : Value) : Prop :=
  Passes origin state deep ρ (W.compile v) (W.expand v') (fun x => x.callsStay = true)
    fun x => W.compileRest x.form

/-- Building something from forms in a row is expanding them in a row, and then building it from
what they expanded to. -/
def Row (W : Ways) (origin : Engine) (state : Engine → Prop) (deep : Prop) (ρ : Matching)
    (x : Build Unit) (vs' : List Value) (z : List Value → Build Unit) : Prop :=
  Passes origin state deep ρ x (expandEach W.expand vs') StaysAll fun xs =>
    z (xs.map Expansion.form)

end Ways

section

variable (hpure : PureMacros ev origin state)
include hpure

/-- With no forms there is nothing to expand. -/
theorem row_nil {p p' : Build Unit} {z : List Value → Build Unit}
    (hp : Passes origin state deep ρ p (pure ()) (fun _ => True) fun _ => p') (hz : z [] = p') :
    W.Row origin state deep ρ p [] z := by
  refine hp.congr hpure (f := fun _ => []) ?_ fun _ _ _ _ _ => ⟨trivial, hz⟩
  simp [expandEach]

/-- One form is compiled before what is built from the others. -/
theorem row_cons {v v' : Value} {vs' : List Value} {x : Build Unit} {z z' : List Value → Build Unit}
    (hv : W.Part origin state deep ρ v v') (h : W.Row origin state deep ρ x vs' z)
    (hz : ∀ u us, us.length = vs'.length → z' (u :: us) = (W.compileRest u >>= fun _ => z us)) :
    W.Row origin state deep ρ (W.compile v >>= fun _ => x) (v' :: vs') z' := by
  refine (Passes.seq hv h).congr hpure (f := fun p => p.1 :: p.2) ?_ ?_
  · simp [expandEach]
  · rintro ⟨x, xs⟩ e' t' hrun hstays
    obtain ⟨hx, hxs⟩ := List.forall_mem_cons.1 hstays
    obtain ⟨_, e₁, -, hrun⟩ := Eval.bind_eq_ok.1 hrun
    obtain ⟨_, e₂, hrow, hpair⟩ := Eval.bind_eq_ok.1 hrun
    cases hpair
    -- `hz` is about as many expansions as there were forms
    have hlength : (xs.map Expansion.form).length = vs'.length := by
      rw [List.length_map, length_expandEach hrow]
    exact ⟨⟨hx, hxs⟩, hz x.form _ hlength⟩

/-- What both sides build by themselves may come before the forms. -/
theorem row_own {vs' : List Value} {p p' x : Build Unit} {z : List Value → Build Unit}
    (hp : Passes origin state deep ρ p (pure ()) (fun _ => True) fun _ => p')
    (h : W.Row origin state deep ρ x vs' z) :
    W.Row origin state deep ρ (p >>= fun _ => x) vs' (fun us => p' >>= fun _ => z us) :=
  hp.own hpure h

/-- Forms compiled in order. -/
theorem row_forM {vs vs' : List Value} (h : List.Forall₂ (W.Part origin state deep ρ) vs vs')
    {p p' : Build Unit} (hp : Passes origin state deep ρ p (pure ()) (fun _ => True) fun _ => p') :
    W.Row origin state deep ρ (vs.forM W.compile >>= fun _ => p) vs'
      (fun us => us.forM W.compileRest >>= fun _ => p') := by
  induction h with
  | nil => exact row_nil hpure hp rfl
  | @cons v v' vs vs' hv _ ih =>
    have hassoc : ((v :: vs).forM W.compile >>= fun _ => p) =
        (W.compile v >>= fun _ => vs.forM W.compile >>= fun _ => p) := bind_assoc _ _ _
    rw [hassoc]
    exact row_cons hpure hv ih fun u us _ => bind_assoc _ _ _

omit hpure in
/-- The value of the first form is dropped before the others are evaluated. -/
theorem compileBody_bind (compile : Value → Build Unit) (p : Build Unit) (v w : Value)
    (vs : List Value) :
    (compileBody compile (v :: w :: vs) >>= fun _ => p) = (compile v >>= fun _ =>
      emit .pop >>= fun _ => compileBody compile (w :: vs) >>= fun _ => p) := by
  change (compile v >>= fun _ => emit .pop >>= fun _ => compileBody compile (w :: vs)) >>= _ = _
  simp only [bind_assoc]

/-- The forms of a body. -/
theorem row_body {vs vs' : List Value} (h : List.Forall₂ (W.Part origin state deep ρ) vs vs')
    {p p' : Build Unit} (hp : Passes origin state deep ρ p (pure ()) (fun _ => True) fun _ => p') :
    W.Row origin state deep ρ (compileBody W.compile vs >>= fun _ => p) vs'
      (fun us => compileBody W.compileRest us >>= fun _ => p') := by
  induction h with
  | nil => exact row_nil hpure (Passes.own hpure (passes_constant deep .nil) hp) rfl
  | cons hv hothers ih =>
    cases hothers with
    -- the last form keeps its value
    | nil =>
      refine row_cons hpure hv (row_nil hpure (z := fun _ => p') hp rfl) fun u us hlength => ?_
      obtain rfl := List.length_eq_zero_iff.1 hlength
      rfl
    | cons hw hothers =>
      rw [compileBody_bind]
      refine row_cons hpure hv (row_own hpure (passes_emit deep .pop) ih) fun u us hlength => ?_
      obtain ⟨u₂, us, rfl⟩ := List.exists_cons_of_length_eq_add_one hlength
      exact compileBody_bind W.compileRest p' u u₂ us

/-! ## Special forms -/

/-- A call evaluates all items of its list. -/
theorem row_call {head head' : Value} {others others' : List Value}
    (h : List.Forall₂ (W.Part origin state deep ρ) (head :: others) (head' :: others')) :
    W.Row origin state deep ρ (compileCall W.compile (head :: others) others.length)
      (head' :: others') (fun us => compileCall W.compileRest us others'.length) := by
  have hlength : others.length = others'.length := by simpa using h.length_eq
  have hend : Passes origin state deep ρ
      (do
        if 65535 < others.length then Eval.fail (α := Unit) (.exhausted .callArguments)
        emit (.call others.length.toUInt16)) (pure ()) (fun _ => True)
      fun _ => (do
        if 65535 < others.length then Eval.fail (α := Unit) (.exhausted .callArguments)
        emit (.call others.length.toUInt16)) := by
    -- the limit on arguments is the same on both sides, since expanding does not change how many
    by_cases hmany : 65535 < others.length
    · simp only [if_pos hmany]
      exact passes_addition deep fun b e _ _ => .inl ⟨_, rfl, fun b' s _ => ⟨_, rfl⟩⟩
    · simp only [if_neg hmany]
      exact passes_emit deep _
  rw [← hlength]
  exact row_forM hpure h hend

/-- An assignment evaluates the value. -/
theorem row_assignment (way : Assignment) (target : Symbol) {v v' : Value}
    (h : W.Part origin state deep ρ v v') :
    W.Row origin state deep ρ (compileShape W.compile (.assignment way target v)) [v']
      (fun us => compileShape W.compileRest (.assignment way target (us.headD .nil))) := by
  have hend : W.Row origin state deep ρ (emit way.instruction) [] fun _ => emit way.instruction :=
    row_nil hpure (passes_emit deep _) rfl
  have hvalue : W.Row origin state deep ρ
      (W.compile v >>= fun _ => emit way.instruction) [v']
      (fun us => W.compileRest (us.headD .nil) >>= fun _ => emit way.instruction) :=
    row_cons hpure h hend fun u us _ => rfl
  exact row_own hpure (passes_constant deep (.symbol target)) hvalue

/-- The parts of a conditional with its labels. -/
def branches (compile : Value → Build Unit) (otherwise done : UInt16)
    (test consequent alternative : Value) : Build Unit := do
  compile test
  emit (.jumpIfNot otherwise)
  compile consequent
  emit (.jump done)
  emit (.label otherwise)
  compile alternative
  emit (.label done)

/-- An alternative that is absent is the empty list on both sides. -/
theorem row_branches {test test' consequent consequent' : Value} {extra extra' : List Value}
    (htest : W.Part origin state deep ρ test test')
    (hthen : W.Part origin state deep ρ consequent consequent')
    (helse : List.Forall₂ (W.Part origin state deep ρ) extra extra')
    (hnil : Passes origin state deep ρ (W.compile .nil) (pure ()) (fun _ => True)
      fun _ => W.compileRest .nil) (otherwise done : UInt16) :
    W.Row origin state deep ρ
      (branches W.compile otherwise done test consequent (extra.headD .nil))
      (test' :: consequent' :: extra'.take 1)
      (fun us => branches W.compileRest otherwise done (us.headD .nil) (us.tail.headD .nil)
        (us.tail.tail.headD .nil)) := by
  have hdone : Passes origin state deep ρ (emit (.label done)) (pure ()) (fun _ => True)
      fun _ => emit (.label done) := passes_emit deep _
  -- the alternative, then what stands between the branches, then what stands before them
  have halternative : W.Row origin state deep ρ
      (W.compile (extra.headD .nil) >>= fun _ => emit (.label done)) (extra'.take 1)
      (fun us => W.compileRest (us.headD .nil) >>= fun _ => emit (.label done)) := by
    cases helse with
    | nil => exact row_nil hpure (Passes.own hpure hnil hdone) rfl
    | cons ha _ =>
      have hlast : W.Row origin state deep ρ (emit (.label done)) [] fun _ => emit (.label done) :=
        row_nil hpure hdone rfl
      exact row_cons hpure ha hlast fun u us _ => rfl
  have hbetween := row_own hpure (passes_emit deep (.jump done))
    (row_own hpure (passes_emit deep (.label otherwise)) halternative)
  have hconsequent : W.Row origin state deep ρ _ (consequent' :: extra'.take 1)
      (fun us => W.compileRest (us.headD .nil) >>= fun _ => emit (.jump done) >>= fun _ =>
        emit (.label otherwise) >>= fun _ => W.compileRest (us.tail.headD .nil) >>= fun _ =>
          emit (.label done)) := row_cons hpure hthen hbetween fun u us _ => rfl
  have hbefore := row_own hpure (passes_emit deep (.jumpIfNot otherwise)) hconsequent
  exact row_cons hpure htest hbefore fun u us _ => rfl

/-- A conditional evaluates three forms, or two. Its labels are taken before all of them. -/
theorem row_conditional {test test' consequent consequent' : Value} {extra extra' : List Value}
    (htest : W.Part origin state deep ρ test test')
    (hthen : W.Part origin state deep ρ consequent consequent')
    (helse : List.Forall₂ (W.Part origin state deep ρ) extra extra')
    (hnil : Passes origin state deep ρ (W.compile .nil) (pure ()) (fun _ => True)
      fun _ => W.compileRest .nil) :
    W.Row origin state deep ρ
      (compileConditional W.compile test consequent (extra.headD .nil))
      (test' :: consequent' :: extra'.take 1)
      (fun us => compileConditional W.compileRest (us.headD .nil) (us.tail.headD .nil)
        (us.tail.tail.headD .nil)) :=
  passes_label fun otherwise => passes_label fun done =>
    row_branches hpure htest hthen helse hnil otherwise done

omit hpure in
/-- A function literal is compiled no further than its body. -/
theorem compileLiteral_stops {compile : Value → Build Unit} {literal : FunctionLiteral}
    {stop : Stop} {e e₁ : Engine}
    (h : (do compileBody compile literal.body; emit .ret : Build Unit)
      (.ofParameters literal.parameters.symbols) e = (.error stop, e₁)) :
    compileLiteral compile literal e = (.error stop, e₁) :=
  Eval.bind_of_error h _

omit hpure in
/-- A function that was compiled is pushed from a new place. -/
theorem compileShape_function_run {compile : Value → Build Unit} {literal : FunctionLiteral}
    {c : Closure} {e e₁ : Engine} (h : compileLiteral compile literal e = (.ok c, e₁))
    (b : Builder) : compileShape compile (.function literal) b e =
      if 65535 < b.constants.size then (.error (.fault (.exhausted .constants)), e₁)
      else (.ok ((), (Builder.emit { b with constants := b.constants.push (.closure c) }
        (.const b.constants.size.toUInt16)).emit .closure), e₁) := by
  have hrun : template c b e₁ = _ :=
    pushAt_run { b with constants := b.constants.push (.closure c) } b.constants.size e₁
  rw [compileShape_function_of_ok h]
  split_ifs at hrun ⊢
  · exact Build.bind_of_error hrun _
  · exact Build.bind_of_ok hrun _

omit hpure in
/-- The closures that a literal is compiled to agree, whatever its body has become. -/
theorem templateOf_alike (literal : FunctionLiteral) (body : List Value) {b b' : Builder}
    (h : b.Alike ρ b') (ref ref' : Ref) (code : Code) :
    (Value.closure (templateOf literal ref code b.constants)).Alike .any
      (.closure (templateOf { literal with body } ref' code b'.constants)) :=
  .closure trivial rfl rfl rfl rfl h.constants

/-- A function literal whose body is compiled alongside its expansion is itself. -/
theorem compileLiteral_alike (literal : FunctionLiteral) {body' : List Value}
    (h : List.Forall₂ (W.Part origin state deep ρ) literal.body body') {e e' : Engine}
    (hσ : ∀ i j, ρ i j → σ i j) (hpar : Parallel origin state σ e e') :
    (∀ xs t', expandEach W.expand body' e' = (.ok xs, t') →
      Closes origin state σ t' (StaysAll xs)
        (compileLiteral W.compileRest { literal with body := xs.map Expansion.form })
        (compileLiteral W.compile literal e)) ∧
    (deep → ∀ stop t', expandEach W.expand body' e' = (.error stop, t') →
      ∃ stop' t, compileLiteral W.compile literal e = (.error stop', t)) := by
  -- the body has a builder of its own, which starts with the same parameters on both sides
  obtain ⟨hok, herror⟩ := row_body hpure h (passes_emit deep .ret)
    (.ofParameters literal.parameters.symbols) hσ hpar
  have hparameters := Builder.Alike.ofParameters hpar.oneToOne literal.parameters.symbols
  refine ⟨fun xs t' hxs => ?_, fun hdeep stop t' hstop => ?_⟩
  · have hcompiled := hok xs t' hxs
    generalize hbuild : (compileBody W.compile literal.body >>= fun _ => emit .ret)
      (.ofParameters literal.parameters.symbols) e = r at hcompiled
    cases hcompiled with
    | failed hz =>
      rw [compileLiteral_stops hbuild]
      refine .failed fun hstays s hs => ?_
      obtain ⟨stop', s', hrun⟩ := hz hstays _ s hparameters hs
      exact ⟨stop', s', compileLiteral_stops hrun⟩
    | @built b₁ e₁ τ hτ hpar₁ hz =>
      rw [compileLiteral_run hbuild]
      -- without macros the same program is assembled
      cases hcode : Assembly.assemble b₁.program.toList with
      | error error =>
        refine .failed fun hstays s hs => ?_
        obtain ⟨b₁', s₁, hrun, -, hb₁⟩ := hz hstays _ s hparameters hs
        have hrest : compileLiteral W.compileRest { literal with body := xs.map Expansion.form } s =
          _ := compileLiteral_run hrun
        rw [← hb₁.program, hcode] at hrest
        exact ⟨_, s₁, hrest⟩
      | ok code =>
        refine .compiled τ hτ (hpar₁.withStore hpure (Nat.le_succ _) (Nat.le_refl _))
          fun hstays s hs => ?_
        obtain ⟨b₁', s₁, hrun, hs₁, hb₁⟩ := hz hstays _ s hparameters hs
        have hrest : compileLiteral W.compileRest { literal with body := xs.map Expansion.form } s =
          _ := compileLiteral_run hrun
        rw [← hb₁.program, hcode] at hrest
        exact ⟨_, _, hrest, hs₁, templateOf_alike literal _ hb₁ _ _ code⟩
  · obtain ⟨stop', t, hrun⟩ := herror hdeep stop t' hstop
    exact ⟨stop', t, compileLiteral_stops hrun⟩

/-- A function literal is compiled on its own, and then pushed as one constant. -/
theorem row_function (literal : FunctionLiteral) {body' : List Value}
    (h : List.Forall₂ (W.Part origin state deep ρ) literal.body body') :
    W.Row origin state deep ρ (compileShape W.compile (.function literal)) body'
      (fun us => compileShape W.compileRest (.function { literal with body := us })) := by
  intro σ e e' b hσ hpar
  obtain ⟨hok, herror⟩ := compileLiteral_alike hpure literal h hσ hpar
  refine ⟨fun xs t' hxs => ?_, fun hdeep stop t' hstop => ?_⟩
  · have hcloses := hok xs t' hxs
    generalize hrun : compileLiteral W.compile literal e = r at hcloses
    cases hcloses with
    | failed hrest =>
      rw [compileShape_function_of_error hrun]
      refine .failed fun hstays b' s _ hs => ?_
      obtain ⟨stop', s', hrun'⟩ := hrest hstays s hs
      exact ⟨stop', s', compileShape_function_of_error hrun' b'⟩
    | compiled τ hτ hpar₁ hrest =>
      rw [compileShape_function_run hrun]
      -- the literal is compiled on both sides by now, but there may be no place left for it
      by_cases hfar : 65535 < b.constants.size
      · rw [if_pos hfar]
        refine .failed fun hstays b' s hb hs => ?_
        obtain ⟨c', s₁, hrun', -, -⟩ := hrest hstays s hs
        exact ⟨_, _, (compileShape_function_run hrun' b').trans (if_pos (hb.size ▸ hfar))⟩
      · rw [if_neg hfar]
        refine .built τ hτ hpar₁ fun hstays b' s hb hs => ?_
        obtain ⟨c', s₁, hrun', hs₁, hc⟩ := hrest hstays s hs
        refine ⟨_, _, (compileShape_function_run hrun' b').trans
          (if_neg (hb.size ▸ hfar)), hs₁, ?_⟩
        rw [hb.size]
        exact (((hb.mono hτ).literal hc).emit _).emit _
  · obtain ⟨stop', t, hrun⟩ := herror hdeep stop t' hstop
    exact ⟨stop', t, compileShape_function_of_error hrun b⟩

end

end Compiler

end StackLisp
