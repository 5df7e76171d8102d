import Mathlib.Order.Nat
import StackLisp.Proofs.Concatenation

/-!
# Reading makes progress

A reader that goes on after every value and every error gets to the end of its tokens. Whatever a
call gives, it has taken at least one token, although a token that is nested too deep is left where
it is: those that opened the levels around it have been taken.

- `Datum.readWith_rest_suffix`, `Datum.readWith_ne_form`: the tokens that a reading leaves, and what
  it does not complain about;
- `Datum.taken`: how far a reader has come after some calls;
- `reading_makes_progress`: all calls of a reader.
-/

namespace StackLisp

namespace Datum

/-! ## One call -/

/-- The tokens that a reading leaves stand behind those that it has taken. -/
theorem readWith_rest_suffix (quote : Symbol) (store : Store) (levels : List Level)
    (tokens : List Located) : (readWith quote store levels tokens).rest <:+ tokens := by
  induction tokens generalizing store levels with
  | nil => exact List.suffix_rfl
  | cons t rest ih =>
    rw [readWith]
    cases step quote store levels t with
    | done v after => exact List.suffix_cons t rest
    | more inner after => exact (ih after inner).trans (List.suffix_cons t rest)
    | failed error after => exact List.suffix_cons t rest
    | refused error after => exact List.suffix_rfl

/-- A value that does not complete the datum leaves a level open. -/
theorem ne_nil_of_settle {quote : Symbol} {store after : Store} {v : Value}
    {levels inner : List Level} (h : settle quote store v levels = .more inner after) :
    inner ≠ [] := by
  induction levels generalizing store v with
  | nil => cases h
  | cons level outer ih =>
    cases level with
    | list reversed =>
      cases h
      exact List.cons_ne_nil _ _
    | quote => exact ih h

/-- A token that asks for more leaves a level open. -/
theorem ne_nil_of_step {quote : Symbol} {store after : Store} {t : Located}
    {levels inner : List Level} (h : step quote store levels t = .more inner after) :
    inner ≠ [] := by
  unfold step at h
  split at h
  -- a list was closed
  · exact ne_nil_of_settle h
  · unfold startDatum at h
    split at h
    · cases h
    cases ht : t.token with
    | leftParen | quote =>
      rw [ht] at h
      cases h
      exact List.cons_ne_nil _ _
    | rightParen =>
      rw [ht] at h
      cases h
    | string text =>
      rw [ht] at h
      exact ne_nil_of_settle h
    | atom text =>
      rw [ht] at h
      dsimp only at h
      split at h
      · exact ne_nil_of_settle h
      · cases h

/-- A reading that runs out of tokens is inside a list or a quote, so it does not complain that
there is no form. -/
theorem readWith_ne_form {quote : Symbol} {store : Store} {levels : List Level}
    {tokens : List Located} (h : levels ≠ [] ∨ tokens ≠ []) :
    (readWith quote store levels tokens).result ≠ .error (.unfinished .form) := by
  -- a level is open from the first token on
  induction tokens generalizing store levels with
  | nil =>
    obtain ⟨level, outer, rfl⟩ := List.exists_cons_of_ne_nil (h.resolve_right (· rfl))
    cases level <;> simp [readWith, unfinished]
  | cons t rest ih =>
    have hmoves := moves_step quote store levels t
    rw [readWith]
    cases hstep : step quote store levels t with
    | done v after => simp
    | more inner after => exact ih (.inl (ne_nil_of_step hstep))
    | failed error after =>
      rw [hstep] at hmoves
      cases hmoves with
      | failed _ herror => exact fun he => herror .form (Except.error.inj he)
    | refused error after =>
      rw [hstep] at hmoves
      cases hmoves with
      | refused _ herror => exact fun he => herror .form (Except.error.inj he)

/-- A call with tokens left gives something, and leaves fewer of them. -/
theorem exists_next (store : Store) (tokens : List Located) (h : tokens ≠ []) :
    ∃ reading, next store tokens = some reading ∧ reading.rest <:+ tokens ∧
      reading.rest.length < tokens.length ∧ reading.result ≠ .error (.unfinished .form) := by
  obtain ⟨t, rest, rfl⟩ := List.exists_cons_of_ne_nil h
  refine ⟨_, rfl, readWith_rest_suffix _ _ _ _, next_rest_length rfl, readWith_ne_form (.inr h)⟩

/-! ## All calls -/

/-- How many tokens a reader has taken before its call number `i`, if it went on after all calls
before that, whatever they gave. Each call finds a store of its own. -/
def taken (stores : Nat → Store) (tokens : List Located) : (i : Nat) → Nat
  | 0 => 0
  | i + 1 =>
    match next (stores i) (tokens.drop (taken stores tokens i)) with
    | some reading => tokens.length - reading.rest.length
    | none => taken stores tokens i

section

variable (stores : Nat → Store) (tokens : List Located)

/-- A call with tokens left takes some of them. -/
theorem exists_next_of_taken_lt {i : Nat} (h : taken stores tokens i < tokens.length) :
    ∃ reading, next (stores i) (tokens.drop (taken stores tokens i)) = some reading ∧
      taken stores tokens i < taken stores tokens (i + 1) ∧
      taken stores tokens (i + 1) ≤ tokens.length ∧
      reading.rest = tokens.drop (taken stores tokens (i + 1)) ∧
      reading.result ≠ .error (.unfinished .form) := by
  obtain ⟨reading, hnext, hsuffix, hlength, hform⟩ :=
    exists_next (stores i) (List.drop (taken stores tokens i) tokens)
      (by rwa [ne_eq, List.drop_eq_nil_iff, Nat.not_le])
  have htaken : taken stores tokens (i + 1) = tokens.length - reading.rest.length := by
    rw [taken, hnext]
  rw [List.length_drop] at hlength
  refine ⟨reading, hnext, by omega, by omega, ?_, hform⟩
  rw [htaken]
  exact List.suffix_iff_eq_drop.1 (hsuffix.trans (List.drop_suffix _ _))

/-- A call without tokens takes none. -/
theorem taken_succ_of_le {i : Nat} (h : tokens.length ≤ taken stores tokens i) :
    taken stores tokens (i + 1) = taken stores tokens i := by
  rw [taken, List.drop_eq_nil_of_le h]
  rfl

theorem taken_mono : Monotone (taken stores tokens) := by
  refine monotone_nat_of_le_succ fun i => ?_
  rcases Nat.lt_or_ge (taken stores tokens i) tokens.length with hlt | hge
  · obtain ⟨_, _, hstep, _⟩ := exists_next_of_taken_lt stores tokens hlt
    exact hstep.le
  · exact (taken_succ_of_le stores tokens hge).ge

/-- Each call takes a token, as long as there are any. -/
theorem min_le_taken (i : Nat) : min i tokens.length ≤ taken stores tokens i := by
  induction i with
  | zero => exact (Nat.min_le_left _ _)
  | succ i ih =>
    rcases Nat.lt_or_ge (taken stores tokens i) tokens.length with hlt | hge
    · obtain ⟨_, _, hstep, _⟩ := exists_next_of_taken_lt stores tokens hlt
      omega
    · rw [taken_succ_of_le stores tokens hge]
      omega

end

end Datum

open Datum

/-- As long as tokens are left, every call of a reader ends, with a value or an error, and has taken
at least one token more, but no more than there are. It never complains that there is no form. So
calls that are made one after the other, also after errors, take all tokens in at most as many calls
as there are tokens, and all calls after those give nothing. -/
theorem reading_makes_progress (stores : Nat → Store) (tokens : List Located) :
    (∀ i, taken stores tokens i < tokens.length →
      ∃ reading, next (stores i) (tokens.drop (taken stores tokens i)) = some reading ∧
        taken stores tokens i < taken stores tokens (i + 1) ∧
        taken stores tokens (i + 1) ≤ tokens.length ∧
        reading.rest = tokens.drop (taken stores tokens (i + 1)) ∧
        reading.result ≠ .error (.unfinished .form)) ∧
      ∃ n ≤ tokens.length, ∀ i,
        next (stores i) (tokens.drop (taken stores tokens i)) = none ↔ n ≤ i := by
  refine ⟨fun i => exists_next_of_taken_lt stores tokens, ?_⟩
  have hnone : ∀ i, next (stores i) (tokens.drop (taken stores tokens i)) = none ↔
      tokens.length ≤ taken stores tokens i := fun i => by
    rw [next_eq_none_iff, List.drop_eq_nil_iff]
  have hend : tokens.length ≤ taken stores tokens tokens.length := by
    simpa using min_le_taken stores tokens tokens.length
  -- the first call that finds no token left
  classical
  have hexists : ∃ n, tokens.length ≤ taken stores tokens n := ⟨_, hend⟩
  refine ⟨Nat.find hexists, Nat.find_le hend,
    fun i => (hnone i).trans ⟨Nat.find_min' hexists, fun hle => ?_⟩⟩
  exact (Nat.find_spec hexists).trans (taken_mono stores tokens hle)

end StackLisp
