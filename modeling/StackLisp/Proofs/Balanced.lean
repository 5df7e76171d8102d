import Mathlib.Algebra.Group.Nat.Defs
import StackLisp.Proofs.Grammar
import StackLisp.Proofs.Scanning
import StackLisp.Text.Balance

/-!
# Balanced texts are complete

Whether a text is balanced is found out by a count of its own, which knows only strings, comments
and parentheses. It keeps step with the scan for tokens.

- `Balance.Matches`: the count and the scan after the same characters;
- `isBalanced_iff`: a text is balanced when it has tokens, and as many parentheses close among them
  as open, or more;
- `Datum.excess_of_readTokens`: where reading stops inside a list, a parenthesis is missing;
- `balance_agrees_with_reader`: the balance and the reader.
-/

namespace StackLisp

namespace Token

/-- How many more parentheses are opened than closed. -/
def excess (ts : List Token) : Int :=
  ts.count .leftParen - ts.count .rightParen

theorem excess_append (ts us : List Token) : excess (ts ++ us) = excess ts + excess us := by
  simp only [excess, List.count_append, Int.natCast_add]
  omega

theorem excess_cons (t : Token) (ts : List Token) : excess (t :: ts) = excess [t] + excess ts :=
  excess_append [t] ts

@[simp]
theorem excess_nil : excess [] = 0 := rfl

@[simp]
theorem excess_leftParen (ts : List Token) : excess (.leftParen :: ts) = 1 + excess ts :=
  excess_cons .leftParen ts

@[simp]
theorem excess_rightParen (ts : List Token) : excess (.rightParen :: ts) = -1 + excess ts :=
  excess_cons .rightParen ts

@[simp]
theorem excess_quote (ts : List Token) : excess (.quote :: ts) = excess ts := by
  simp [excess]

@[simp]
theorem excess_string (text : String) (ts : List Token) :
    excess (.string text :: ts) = excess ts := by
  simp [excess]

@[simp]
theorem excess_atom (text : String) (ts : List Token) : excess (.atom text :: ts) = excess ts := by
  simp [excess]

theorem excess_reverse (ts : List Token) : excess ts.reverse = excess ts := by
  simp [excess]

theorem excess_le_zero_iff {ts : List Token} :
    excess ts ≤ 0 ↔ ts.count .leftParen ≤ ts.count .rightParen := by
  unfold excess
  omega

end Token

open Token

/-! ## The count and the scan -/

namespace Balance

/-- The count and the scan have taken the same characters. -/
structure Matches (b : Balance) (s : Scan) : Prop where
  inString : b.inString = true ↔ s.InString
  inComment : b.inComment = true ↔ s.pending = .comment
  depth : b.depth = excess (s.found.map Located.token)

theorem matches_start : Matches .start .start :=
  ⟨by simp [start, Scan.start, Scan.InString], by simp [start, Scan.start], rfl⟩

variable {b : Balance} {s : Scan} {c : Char}

/-- An atom counts for nothing. -/
theorem Matches.closeAtom (h : Matches b s) : Matches b s.closeAtom := by
  obtain ⟨pending, place, found⟩ := s
  cases pending with
  | atom start reversed =>
    obtain ⟨hstring, hcomment, hdepth⟩ := h
    refine ⟨?_, ?_, ?_⟩
    · simpa [Scan.InString, Scan.closeAtom] using hstring
    · simpa [Scan.closeAtom] using hcomment
    · simpa [Scan.closeAtom] using hdepth
  | _ => exact h

/-- Outside strings and comments only four characters count. -/
theorem step_of_plain (hstring : b.inString = false) (hcomment : b.inComment = false)
    (hc : c ∉ ['"', ';', '(', ')']) : b.step c = b := by
  simp only [List.mem_cons, List.not_mem_nil, or_false, not_or] at hc
  simp [Balance.step, hstring, hcomment, hc]

theorem isBlank_of_mem {c : Char} (hc : c ∈ ['"', ';', '(', ')']) : isBlank c = false := by
  simp only [List.mem_cons, List.not_mem_nil, or_false] at hc
  rcases hc with rfl | rfl | rfl | rfl <;> rfl

theorem Matches.fresh (h : Matches b s) (hs : s.pending = .nothing) (c : Char) :
    Matches (b.step c) (s.fresh c) := by
  obtain ⟨hstring, hcomment, hdepth⟩ := h
  have hnoString : b.inString = false := by simpa [Scan.InString, hs] using hstring
  have hnoComment : b.inComment = false := by simpa [hs] using hcomment
  -- the scan tells more kinds of characters apart than the count does
  unfold Scan.fresh
  split
  · next hblank =>
    rw [step_of_plain hnoString hnoComment fun hc => by simp [isBlank_of_mem hc] at hblank]
    exact ⟨hstring, hcomment, hdepth⟩
  split
  · next hc =>
    have hstep : b.step c = { b with inComment := true } := by
      simp [Balance.step, hnoString, hnoComment, hc]
    rw [hstep]
    exact ⟨by simp [hnoString, Scan.InString], by simp, hdepth⟩
  split
  · next hc =>
    have hstep : b.step c = { b with depth := b.depth + 1 } := by
      simp [Balance.step, hnoString, hnoComment, hc]
    rw [hstep]
    exact ⟨hstring, hcomment, by simp [hdepth, Int.add_comm]⟩
  split
  · next hc =>
    have hstep : b.step c = { b with depth := b.depth - 1 } := by
      simp [Balance.step, hnoString, hnoComment, hc]
    rw [hstep]
    exact ⟨hstring, hcomment, by simp [hdepth, Int.sub_eq_add_neg, Int.add_comm]⟩
  split
  · next hc =>
    rw [step_of_plain hnoString hnoComment (by simp [hc])]
    exact ⟨hstring, hcomment, by simp [hdepth]⟩
  split
  · next hc =>
    have hstep : b.step c = { b with inString := true } := by
      simp [Balance.step, hnoString, hnoComment, hc]
    rw [hstep]
    exact ⟨by simp [Scan.InString], by simp [hnoComment], hdepth⟩
  · rw [step_of_plain hnoString hnoComment (by simp_all)]
    exact ⟨by simp [hnoString, Scan.InString], by simp [hnoComment], hdepth⟩

/-- Both take a character in the same way. -/
theorem Matches.step (h : Matches b s) (c : Char) : Matches (b.step c) (s.step c) := by
  have hstring := h.inString
  have hcomment := h.inComment
  -- an atom is nothing to the count, so it has one case less than the scan
  unfold Scan.step
  split
  · next hs => exact h.fresh hs c
  · next hs =>
    have hnoString : b.inString = false := by simpa [Scan.InString, hs] using hstring
    rw [Balance.step, if_pos (hcomment.2 hs)]
    refine ⟨?_, by simp, h.depth⟩
    by_cases hc : c = '\n' <;> simp [hnoString, Scan.InString, hc]
  · next start reversed hs =>
    have hin : b.inString = true := hstring.2 ⟨start, reversed, hs⟩
    have hnoComment : b.inComment = false := by simpa [hs] using hcomment
    split
    · next hc =>
      have hstep : b.step c = { b with inString := false } := by
        simp [Balance.step, hnoComment, hc, hin]
      rw [hstep]
      exact ⟨by simp [Scan.InString], by simp [hnoComment], by simp [h.depth]⟩
    · next hc =>
      rw [Balance.step, hnoComment, if_neg hc, if_pos hin]
      exact ⟨by simp [hin, Scan.InString], by simp [hnoComment], h.depth⟩
  · next start reversed hs =>
    split
    · exact h.closeAtom.fresh (Scan.pending_closeAtom_of_atom hs) c
    · next hc =>
      have hnoString : b.inString = false := by simpa [Scan.InString, hs] using hstring
      have hnoComment : b.inComment = false := by simpa [hs] using hcomment
      rw [step_of_plain hnoString hnoComment fun hmem => by simp_all [isDelimiter]]
      exact ⟨by simp [hnoString, Scan.InString], by simp [hnoComment], h.depth⟩

theorem Matches.foldl (h : Matches b s) (cs : List Char) :
    Matches (cs.foldl Balance.step b) (cs.foldl Scan.step s) := by
  induction cs generalizing b s with
  | nil => exact h
  | cons c cs ih => exact ih (h.step c)

/-- A character moves the depth by one at most. -/
theorem depth_step (b : Balance) (c : Char) :
    b.depth - 1 ≤ (b.step c).depth ∧ (b.step c).depth ≤ b.depth + 1 := by
  unfold Balance.step
  repeat' split
  all_goals constructor
  all_goals first | omega | (dsimp only; omega)

/-- The depth of a text is no greater than its length, on either side. -/
theorem depth_foldl (b : Balance) (cs : List Char) :
    b.depth - cs.length ≤ (cs.foldl Balance.step b).depth ∧
      (cs.foldl Balance.step b).depth ≤ b.depth + cs.length := by
  induction cs generalizing b with
  | nil => simp
  | cons c cs ih =>
    have hstep := depth_step b c
    have hrest := ih (b.step c)
    rw [List.foldl_cons, List.length_cons]
    omega

end Balance

/-- A text is balanced exactly when it has tokens, and no fewer parentheses among them are closed
than opened. -/
theorem isBalanced_iff {text : String} :
    isBalanced text = true ↔
      ∃ ts, Token.scan text = .ok ts ∧ excess (ts.map Located.token) ≤ 0 := by
  have hmatches := Balance.matches_start.foldl text.toList
  -- the end of the text finishes an atom that is open
  have hclosed := hmatches.closeAtom
  simp only [isBalanced, Bool.and_eq_true, decide_eq_true_eq, Bool.not_eq_true',
    ← Bool.not_eq_true, hmatches.inString, Token.scan, Scan.finish_eq_ok_iff]
  constructor
  · rintro ⟨hdepth, hopen⟩
    exact ⟨_, ⟨hopen, rfl⟩, by rwa [List.map_reverse, excess_reverse, ← hclosed.depth]⟩
  · rintro ⟨_, ⟨hopen, rfl⟩, hexcess⟩
    rw [List.map_reverse, excess_reverse, ← hclosed.depth] at hexcess
    exact ⟨hexcess, hopen⟩

/-! ## Phrases and unfinished data -/

namespace Phrase

mutual

/-- A phrase closes what it opens. -/
theorem excess_tokens (p : Phrase) : excess p.tokens = 0 := by
  cases p with
  | string text => simp [tokens]
  | atom text => simp [tokens]
  | quoted inner => rw [tokens, excess_quote, excess_tokens inner]
  | list items =>
    rw [tokens, excess_leftParen, excess_append, excess_tokensOf items]
    rfl

theorem excess_tokensOf (ps : List Phrase) : excess (tokensOf ps) = 0 := by
  cases ps with
  | nil => rfl
  | cons p ps => rw [tokensOf, excess_append, excess_tokens p, excess_tokensOf ps, Int.add_zero]

end

end Phrase

namespace Datum

/-- The number of open lists. -/
def openLists : List Level → Nat
  | [] => 0
  | .list _ :: outer => openLists outer + 1
  | .quote :: outer => openLists outer

variable {quote : Symbol} {store after : Store} {levels inner : List Level} {t : Located}

/-- A value is put into a list or completes quotes. It leaves the lists open. -/
theorem settle_cases (quote : Symbol) (store : Store) (v : Value) (levels : List Level) :
    (∃ w after, settle quote store v levels = .done w after) ∨
      ∃ inner after, settle quote store v levels = .more inner after ∧
        openLists inner = openLists levels := by
  induction levels generalizing store v with
  | nil => exact .inl ⟨v, store, rfl⟩
  | cons level outer ih =>
    cases level with
    | list reversed => exact .inr ⟨_, store, rfl, rfl⟩
    | quote => exact ih _ _

/-- What a token does to the open lists, and that it never leaves an error for what is missing. -/
inductive Moves (lists : Int) : Progress → Prop
  | done (v : Value) (store : Store) : Moves lists (.done v store)
  | more {levels : List Level} (store : Store) (h : (openLists levels : Int) = lists) :
      Moves lists (.more levels store)
  | failed {error : Error} (store : Store) (h : ∀ what, error ≠ .unfinished what) :
      Moves lists (.failed error store)
  | refused {error : Error} (store : Store) (h : ∀ what, error ≠ .unfinished what) :
      Moves lists (.refused error store)

theorem moves_settle (quote : Symbol) (store : Store) (v : Value) {levels : List Level}
    {lists : Int} (h : (openLists levels : Int) = lists) :
    Moves lists (settle quote store v levels) := by
  obtain ⟨w, after, hdone⟩ | ⟨inner, after, hmore, hinner⟩ := settle_cases quote store v levels
  · rw [hdone]
    exact .done w after
  · rw [hmore]
    exact .more after (by rw [hinner, h])

theorem ne_unfinished_of_ofAtom {text : String} {place : Span} {error : Error}
    (h : ofAtom store text place = .error error) (what : Unfinished) :
    error ≠ .unfinished what := by
  rintro rfl
  unfold ofAtom at h
  grind

theorem moves_startDatum (quote : Symbol) (store : Store) (levels : List Level) (t : Located) :
    Moves (openLists levels + excess [t.token]) (startDatum quote store levels t) := by
  unfold startDatum
  split
  · exact .refused store (by simp)
  cases ht : t.token with
  | leftParen => exact .more store rfl
  | quote => exact .more store (by simp [openLists])
  | rightParen => exact .failed store (by simp)
  | string text => exact moves_settle _ _ _ (by simp)
  | atom text =>
    dsimp only
    split
    · exact moves_settle _ _ _ (by simp)
    · next error herror => exact .failed store (ne_unfinished_of_ofAtom herror)

theorem moves_step (quote : Symbol) (store : Store) (levels : List Level) (t : Located) :
    Moves (openLists levels + excess [t.token]) (step quote store levels t) := by
  unfold step
  split
  · next reversed outer ht =>
    refine moves_settle _ _ _ ?_
    rw [ht, openLists, excess_rightParen, excess_nil]
    omega
  · exact moves_startDatum quote store _ t

/-- Where reading stops for want of tokens it is never inside a string, and if it is inside a list,
a parenthesis is missing. -/
theorem excess_of_readWith {ts : List Located} {what : Unfinished}
    (h : (readWith quote store levels ts).result = .error (.unfinished what)) :
    what ≠ .string ∧ (what = .list → 0 < openLists levels + excess (ts.map Located.token)) := by
  induction ts generalizing store levels with
  | nil =>
    simp only [readWith, Except.error.injEq, Error.unfinished.injEq] at h
    subst h
    cases levels with
    | nil => simp [unfinished]
    | cons level outer =>
      cases level with
      | quote => simp [unfinished]
      | list reversed =>
        refine ⟨by simp [unfinished], fun _ => ?_⟩
        rw [openLists, List.map_nil, excess_nil]
        omega
  | cons t rest ih =>
    have hmoves := moves_step quote store levels t
    rw [readWith] at h
    -- only where the token asks for more can the reading stop for want of tokens
    cases hstep : step quote store levels t with
    | done v after => simp [hstep] at h
    | more inner after =>
      rw [hstep] at h hmoves
      obtain ⟨hstring, hlist⟩ := ih h
      cases hmoves with
      | more _ hinner =>
        refine ⟨hstring, fun hwhat => ?_⟩
        have := hlist hwhat
        rw [List.map_cons, excess_cons]
        omega
    | failed error after =>
      rw [hstep] at h hmoves
      cases hmoves with
      | failed _ herror => exact absurd (Except.error.inj h) (herror what)
    | refused error after =>
      rw [hstep] at h hmoves
      cases hmoves with
      | refused _ herror => exact absurd (Except.error.inj h) (herror what)

/-- The data before the one that is not finished close what they open. -/
theorem excess_of_readTokens {ts : List Located} {reversed : List Value} {what : Unfinished}
    (h : (readTokens store ts reversed).1 = .error (.unfinished what)) :
    what ≠ .string ∧ (what = .list → 0 < excess (ts.map Located.token)) := by
  fun_induction readTokens store ts reversed with
  | case1 => cases h
  | case2 store ts reversed reading hnext error herror =>
    obtain rfl := Except.error.inj h
    cases ts with
    | nil => cases hnext
    | cons t rest =>
      simp only [next, Option.some.injEq] at hnext
      rw [← hnext] at herror
      simpa [openLists] using excess_of_readWith herror
  | case3 store ts reversed reading hnext v hv _ ih =>
    obtain ⟨result, rest, middle⟩ := reading
    obtain rfl : result = .ok v := hv
    -- a datum that was read is a phrase, and leaves the excess as it was
    obtain ⟨p, us, rfl, hp, -⟩ := next_eq_ok_iff.1 hnext
    obtain ⟨hstring, hlist⟩ := ih h
    refine ⟨hstring, fun hwhat => ?_⟩
    rw [List.map_append, excess_append, hp.spelling, p.excess_tokens, Int.zero_add]
    exact hlist hwhat

end Datum

/-- The balance of a text agrees with its tokens and with the reader. A text shorter than `2 ^ 31`
keeps the depth within 32 bits after each of its characters. A text is balanced exactly when it has
tokens, and at least as many parentheses among them are closed as are opened. A text that is read as
a whole is balanced, and one that ends inside a list or a string is not. -/
theorem balance_agrees_with_reader :
    (∀ text : String, text.length < 2 ^ 31 → ∀ n,
      ((text.toList.take n).foldl Balance.step .start).depth.natAbs < 2 ^ 31) ∧
    (∀ text, isBalanced text = true ↔ ∃ ts, Token.scan text = .ok ts ∧
      (ts.map Located.token).count .leftParen ≤ (ts.map Located.token).count .rightParen) ∧
    (∀ text store forms after, Datum.readAll store text = (.ok forms, after) →
      isBalanced text = true) ∧
    ∀ text store what after, Datum.readAll store text = (.error (.unfinished what), after) →
      what = .list ∨ what = .string → isBalanced text = false := by
  -- each character changes the depth by one at most; the rest is counted over the tokens
  refine ⟨?_, ?_, ?_, ?_⟩
  · intro text hshort n
    have hdepth := Balance.depth_foldl .start (text.toList.take n)
    have hlength : (text.toList.take n).length ≤ text.length := by
      rw [← String.length_toList]
      exact List.length_take_le' n _
    rw [Balance.start] at hdepth ⊢
    dsimp only at hdepth
    omega
  · intro text
    simp only [isBalanced_iff, excess_le_zero_iff]
  · intro text store forms after hread
    obtain ⟨ts, ps, hscan, hps, -⟩ := Datum.readAll_eq_ok_iff.1 hread
    have hexcess : excess (ts.map Located.token) = 0 := by
      rw [hps.spelling, Phrase.excess_tokensOf]
    exact isBalanced_iff.2 ⟨ts, hscan, Int.le_of_eq hexcess⟩
  · intro text store what after hread hwhat
    rw [← Bool.not_eq_true, isBalanced_iff]
    rintro ⟨ts, hscan, hexcess⟩
    rw [Datum.readAll, hscan] at hread
    obtain ⟨hstring, hlist⟩ := Datum.excess_of_readTokens (congrArg Prod.fst hread)
    exact Int.not_le.2 (hlist (hwhat.resolve_right hstring)) hexcess

end StackLisp
