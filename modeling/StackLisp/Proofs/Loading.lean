import StackLisp.Proofs.Compiling

/-!
# Loading with evaluators that agree

Loading a text reads, compiles and calls one form after the other. What is read holds no closures,
and reading fails only for reasons that are not the machine's, so with evaluators that agree texts
and files are loaded alike.

- `Datum.fine_next`, `Datum.fine_readOne`: what is read is proper;
- `Machine.agrees_evalForm`, `Machine.agrees_loadText`, `Machine.agrees_loadFile`: evaluating forms,
  texts and files agrees.
-/

namespace StackLisp

/-! ## Reading -/

namespace Datum

variable [Unbound]

/-- The next datum of some tokens is proper. -/
theorem fine_next {store : Store} {tokens : List Located} {reading : Reading} (n : Nat)
    (h : next store tokens = some reading) : Fine (·.Proper n) reading.result := by
  obtain ⟨_, -, -, hfine⟩ := next_stocked (σ := .proper n) (w := ()) trivial h
  exact hfine

/-- The first datum of a text is proper. -/
theorem fine_readOne (n : Nat) (store : Store) (text : String) :
    Fine (·.Proper n) (readOne store text).1 := by
  obtain ⟨_, -, -, hfine⟩ := @readOne_stocked (.proper n) () store trivial text
  exact hfine

end Datum

/-! ## Evaluating what was read -/

namespace Machine

open Eval

theorem blind_readForm (tokens : List Located) : Blind (readForm tokens) := by
  intro e stack sp frame maxSlots
  unfold readForm
  simp only [Engine.on]
  split
  · rfl
  · split <;> rfl

variable [Unbound] {κ : Leeway} {X : Nat → Evaluator} {y : Evaluator} {t : Engine}

/-- Evaluating a form agrees. -/
theorem agrees_evalForm (hev : Evaluator.Agree κ X y) {form : Value}
    (h : form.Proper t.envs.size) :
    Agrees κ t (fun i => evalForm (X i) form) (evalForm y form) ProperResult :=
  .bind (Compiler.agrees_compileThunk hev h) fun _ _ _ _ _ hc =>
    hev.apply hc.1 (fun _ hv => nomatch hv)

theorem safe_readForm (tokens : List Located) :
    Safe t (readForm tokens) fun r e => ∀ found ∈ r, found.1.Proper e.envs.size := by
  intro hs _
  unfold readForm
  split
  · exact ⟨.refl t, hs, fun _ h => by cases h⟩
  · rename_i reading h
    have hread := Datum.fine_next t.envs.size h
    split
    all_goals
      rename_i hresult
      rw [hresult] at hread
    · refine ⟨.of_same_envs rfl, hs.withStore _, fun found hfound => ?_⟩
      cases hfound
      exact hread
    · exact ⟨.of_same_envs rfl, hs.withStore _, hread⟩

/-- Evaluating the forms of some tokens agrees. -/
theorem agrees_loadTokens (hev : Evaluator.Agree κ X y) {t : Engine} {last : Value}
    (tokens : List Located) (hlast : last.Proper t.envs.size) :
    Agrees κ t (fun i => loadTokens (X i) last tokens) (loadTokens y last tokens)
      ProperResult := by
  unfold loadTokens
  refine .bind (.blind (blind_readForm tokens) (safe_readForm tokens)) ?_
  rintro (_ | ⟨form, rest, hrest⟩) t₁ - hk - hform
  · exact .pure fun _ => hlast.mono hk.envs
  · refine .bind (agrees_evalForm hev (hform _ rfl)) fun v t₂ _ _ _ hv => ?_
    exact agrees_loadTokens hev rest hv
termination_by tokens.length

/-- Evaluating a text agrees. -/
theorem agrees_loadText (hev : Evaluator.Agree κ X y) (t : Engine) (text : String) :
    Agrees κ t (fun i => loadText (X i) text) (loadText y text) ProperResult :=
  .bind (fine_scan text).agrees fun tokens _ _ _ _ _ => agrees_loadTokens hev tokens .nil

/-- Evaluating a file agrees. -/
theorem agrees_loadFile (hev : Evaluator.Agree κ X y) (t : Engine) (path : String) :
    Agrees κ t (fun i => loadFile (X i) path) (loadFile y path) ProperResult := by
  refine .reading (fun _ _ _ _ _ _ => rfl) ?_
  cases t.files path with
  | text content => exact agrees_loadText hev t content
  | fault cause => exact .fail (by trivial) _
  | unread => exact .blind (.throw _) fun hs _ => ⟨.refl t, hs, trivial⟩

end Machine

end StackLisp
