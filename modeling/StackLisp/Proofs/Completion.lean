import StackLisp.Proofs.Concatenation

/-!
# Incomplete texts and wrong ones

The reader's complaints tell whether a text can still be completed. A text that ends inside a list
is completed by closing parentheses, and by one number of them only. Any other complaint is about a
token that is there, so it stays whatever comes behind.

- `Datum.readWith_stopped`: a reading that ran out of tokens goes on where it stopped;
- `Datum.exists_resume_closing`: all levels that are open can be closed;
- `Datum.readTokens_closing`: the tokens of a text that ends inside a list can be completed;
- `Datum.readTokens_append_of_error`: a complaint that is not about the end stays;
- `complaints_tell_incomplete_from_wrong`: the same of texts.
-/

namespace StackLisp

open Token

namespace Datum

variable {quote : Symbol} {store : Store} {levels : List Level} {ts us : List Located}

/-! ## Closing what is open -/

/-- Where a reading ran out of tokens, it goes on with further ones. -/
theorem readWith_stopped {what : Unfinished}
    (h : (readWith quote store levels ts).result = .error (.unfinished what)) :
    ∃ inner after, unfinished inner = what ∧
      ∀ us, readWith quote store levels (ts ++ us) = readWith quote after inner us := by
  induction ts generalizing store levels with
  | nil =>
    simp only [readWith, Except.error.injEq, Error.unfinished.injEq] at h
    exact ⟨levels, store, h, fun _ => rfl⟩
  | cons t rest ih =>
    have hmoves := moves_step quote store levels t
    rw [readWith] at h
    cases hstep : step quote store levels t with
    | done v after => simp [hstep] at h
    | more inner after =>
      rw [hstep] at h
      obtain ⟨inner', after', hwhat, hon⟩ := ih h
      refine ⟨inner', after', hwhat, fun us => ?_⟩
      rw [List.cons_append, readWith_cons_of_more hstep, hon]
    | failed error after =>
      -- a token that is refused is never reported as the end of the text
      rw [hstep] at h hmoves
      cases hmoves with
      | failed _ herror => exact absurd (Except.error.inj h) (herror what)
    | refused error after =>
      rw [hstep] at h hmoves
      cases hmoves with
      | refused _ herror => exact absurd (Except.error.inj h) (herror what)

/-- With as many closing parentheses as lists are open, a value becomes part of a complete datum.
Closing takes no room, so it does not matter how deep the levels are. -/
theorem exists_resume_closing (v : Value)
    (h : us.map Located.token = List.replicate (openLists levels) .rightParen) :
    ∃ w after, resume quote us (settle quote store v levels) =
      { result := .ok w, rest := [], store := after } := by
  induction levels generalizing us store v with
  | nil =>
    obtain rfl : us = [] := by simpa [openLists] using h
    exact ⟨v, store, rfl⟩
  | cons level outer ih =>
    cases level with
    | quote => exact ih _ h
    | list reversed =>
      obtain ⟨t, rest, rfl, ht, hrest⟩ := List.map_eq_cons_iff.1 h
      rw [settle, resume, readWith_cons_of_settle (step_rightParen ht)]
      exact ih _ hrest

/-- A datum that ends inside a list is completed by closing parentheses. -/
theorem readWith_closing
    (h : (readWith quote store levels ts).result = .error (.unfinished .list)) :
    ∃ k, ∀ us, us.map Located.token = List.replicate k .rightParen →
      ∃ w after, readWith quote store levels (ts ++ us) =
        { result := .ok w, rest := [], store := after } := by
  obtain ⟨inner, after, hwhat, hon⟩ := readWith_stopped h
  -- the complaint is about a list, so the innermost level is one
  cases inner with
  | nil => cases hwhat
  | cons level outer =>
    cases level with
    | quote => cases hwhat
    | list reversed =>
      refine ⟨openLists outer + 1, fun us hus => ?_⟩
      obtain ⟨t, rest, rfl, ht, hrest⟩ := List.map_eq_cons_iff.1 hus
      rw [hon, readWith_cons_of_settle (step_rightParen ht)]
      exact exists_resume_closing _ hrest

/-! ## Further tokens -/

theorem readTokens_of_error {reversed : List Value} {reading : Reading} {error : Error}
    (h : next store ts = some reading) (hresult : reading.result = .error error) :
    readTokens store ts reversed = (.error error, reading.store) := by
  rw [readTokens]
  split
  · next hnone => cases h.symm.trans hnone
  · next found hfound =>
    obtain rfl := Option.some.inj (h.symm.trans hfound)
    rw [hresult]

/-- A complaint about a token stays, whatever comes behind. -/
theorem readTokens_append_of_error {reversed : List Value} {error : Error}
    (h : (readTokens store ts reversed).1 = .error error)
    (herror : ∀ what, error ≠ .unfinished what) (us : List Located) :
    (readTokens store (ts ++ us) reversed).1 = .error error := by
  fun_induction readTokens store ts reversed with
  | case1 => cases h
  | case2 store ts reversed reading hnext error' hresult =>
    obtain rfl := Except.error.inj h
    have hfinished : ∀ what, reading.result ≠ .error (.unfinished what) := by
      intro what hwhat
      exact herror what (Except.error.inj (hresult.symm.trans hwhat))
    rw [readTokens_of_error (next_append hnext hfinished us) hresult]
  | case3 store ts reversed reading hnext v hv _ ih =>
    obtain ⟨result, rest, middle⟩ := reading
    obtain rfl : result = .ok v := hv
    rw [readTokens_of_next (next_append hnext (by simp) us)]
    exact ih h

/-- Tokens that end inside a list are completed by closing parentheses. -/
theorem readTokens_closing {reversed : List Value}
    (h : (readTokens store ts reversed).1 = .error (.unfinished .list)) :
    ∃ k, ∀ us, us.map Located.token = List.replicate k .rightParen →
      ∃ vs after, readTokens store (ts ++ us) reversed = (.ok vs, after) := by
  fun_induction readTokens store ts reversed with
  | case1 => cases h
  | case2 store ts reversed reading hnext error hresult =>
    obtain rfl := Except.error.inj h
    -- the datum that ends too early is the last one, so nothing follows once it is closed
    cases ts with
    | nil => cases hnext
    | cons t rest =>
      simp only [next, Option.some.injEq] at hnext
      rw [← hnext] at hresult
      obtain ⟨k, hclosing⟩ := readWith_closing hresult
      refine ⟨k, fun us hus => ?_⟩
      obtain ⟨w, after, hread⟩ := hclosing us hus
      have hwhole : next store (t :: rest ++ us) = some _ := congrArg some hread
      rw [readTokens_of_next hwhole, readTokens_nil]
      exact ⟨_, _, rfl⟩
  | case3 store ts reversed reading hnext v hv _ ih =>
    obtain ⟨result, rest, middle⟩ := reading
    obtain rfl : result = .ok v := hv
    obtain ⟨k, hclosing⟩ := ih h
    refine ⟨k, fun us hus => ?_⟩
    rw [readTokens_of_next (next_append hnext (by simp) us)]
    exact hclosing us hus

end Datum

/-! ## Texts -/

/-- A text of closing parentheses. -/
def closing (k : Nat) : String :=
  String.ofList (List.replicate k ')')

theorem Token.excess_replicate_rightParen (n : Nat) :
    excess (List.replicate n .rightParen) = -n := by
  simp [excess, List.count_replicate]

/-- The tokens of closing parentheses. -/
theorem exists_scan_closing (k : Nat) :
    ∃ us, scan (closing k) = .ok us ∧ us.map Located.token = List.replicate k .rightParen := by
  -- a parenthesis is a token of its own, so none is pending behind it
  have hfold : ∀ s : Scan, s.pending = .nothing →
      ((List.replicate k ')').foldl Scan.step s).pending = .nothing ∧
      ((List.replicate k ')').foldl Scan.step s).tokens =
        s.tokens ++ List.replicate k .rightParen := by
    induction k with
    | zero => simp
    | succ k ih =>
      intro s hs
      have hstep : s.step ')' =
          { s with place := s.place.after ')', found := ⟨.rightParen, s.place⟩ :: s.found } := by
        rw [Scan.step_of_nothing hs]
        rfl
      obtain ⟨hpending, htokens⟩ := ih (s.step ')') (by rw [hstep]; exact hs)
      refine ⟨hpending, htokens.trans ?_⟩
      rw [Scan.tokens_of_nothing (by rw [hstep]; exact hs), Scan.tokens_of_nothing hs, hstep]
      simp [List.replicate_succ]
  obtain ⟨hpending, htokens⟩ := hfold .start rfl
  have hopen : ¬ ((List.replicate k ')').foldl Scan.step .start).InString := by
    rintro ⟨_, _, hs⟩
    cases hpending.symm.trans hs
  refine ⟨_, ?_, htokens⟩
  rw [scan, closing, String.toList_ofList]
  exact Scan.finish_eq_ok_iff.2 ⟨hopen, rfl⟩

namespace Datum

/-- Reading a text that the tokens of another one follow. -/
theorem readAll_append_line {a b : String} {ts us : List Located} (ha : scan a = .ok ts)
    (hb : scan b = .ok us) (store : Store) :
    readAll store (a ++ "\n" ++ b) =
      readTokens store (ts ++ us.map (Located.down (lineCount a))) [] := by
  rw [readAll, scan_append_line ha, hb]
  rfl

/-- A text that is read as a whole opens as many parentheses as it closes. -/
theorem excess_of_readAll {text : String} {store : Store} {ts : List Located} {forms : List Value}
    (hscan : scan text = .ok ts) (h : (readAll store text).1 = .ok forms) :
    excess (ts.map Located.token) = 0 := by
  obtain ⟨ts', ps, hscan', hps, -⟩ := readAll_eq_ok_iff.1 (Prod.ext h rfl)
  obtain rfl := Except.ok.inj (hscan.symm.trans hscan')
  rw [hps.spelling, Phrase.excess_tokensOf]

/-- A text without tokens has left a string open. -/
theorem scan_cases (text : String) :
    (∃ ts, scan text = .ok ts) ∨ scan text = .error (.unfinished .string) := by
  rw [scan]
  by_cases hopen : (text.toList.foldl Scan.step .start).InString
  · exact .inr (Scan.finish_of_inString hopen)
  · exact .inl ⟨_, Scan.finish_eq_ok_iff.2 ⟨hopen, rfl⟩⟩

/-- A text that ends inside a list lacks one number of closing parentheses. -/
theorem exists_completion {text : String} {store : Store}
    (h : (readAll store text).1 = .error (.unfinished .list)) :
    ∃ k, 1 ≤ k ∧
      ∀ n, (∃ forms, (readAll store (text ++ "\n" ++ closing n)).1 = .ok forms) ↔ n = k := by
  obtain ⟨ts, hscan⟩ | hscan := scan_cases text
  · rw [readAll, hscan] at h
    obtain ⟨-, hexcess⟩ := excess_of_readTokens h
    obtain ⟨k, hclosing⟩ := readTokens_closing h
    have hcompletes : ∃ forms, (readAll store (text ++ "\n" ++ closing k)).1 = .ok forms := by
      obtain ⟨us, hus, htokens⟩ := exists_scan_closing k
      obtain ⟨forms, after, hread⟩ := hclosing (us.map (Located.down (lineCount text)))
        ((Located.map_token_down _ us).trans htokens)
      exact ⟨forms, by rw [readAll_append_line hscan hus, hread]⟩
    -- a whole text closes what it opens, so the number is known before anything is read
    have hcount : ∀ n, (∃ forms, (readAll store (text ++ "\n" ++ closing n)).1 = .ok forms) →
        (n : Int) = excess (ts.map Located.token) := by
      rintro n ⟨forms, hread⟩
      obtain ⟨us, hus, htokens⟩ := exists_scan_closing n
      have hwhole : scan (text ++ "\n" ++ closing n) = _ :=
        (scan_append_line hscan _).trans (congrArg _ hus)
      have hbalance := excess_of_readAll hwhole hread
      rw [List.map_append, Located.map_token_down, htokens, excess_append,
        excess_replicate_rightParen] at hbalance
      omega
    have hk := hcount k hcompletes
    refine ⟨k, ?_, fun n => ⟨fun hn => ?_, fun hn => hn ▸ hcompletes⟩⟩
    · have := hexcess rfl
      omega
    · have := hcount n hn
      omega
  · rw [readAll, hscan] at h
    cases h

/-- A complaint that is not about the end of a text is the same with further lines. -/
theorem readAll_append_of_error {text : String} {store : Store} {error : Error}
    (h : (readAll store text).1 = .error error) (herror : ∀ what, error ≠ .unfinished what)
    (more : String) :
    (∀ us, scan more = .ok us → (readAll store (text ++ "\n" ++ more)).1 = .error error) ∧
    ((∀ us, scan more ≠ .ok us) →
      (readAll store (text ++ "\n" ++ more)).1 = .error (.unfinished .string)) := by
  obtain ⟨ts, hscan⟩ | hscan := scan_cases text
  · rw [readAll, hscan] at h
    constructor
    · intro us hus
      rw [readAll_append_line hscan hus]
      exact readTokens_append_of_error h herror _
    · intro hnone
      obtain ⟨us, hus⟩ | hopen := scan_cases more
      · exact absurd hus (hnone us)
      · rw [readAll, scan_append_line hscan, hopen]
        rfl
  · rw [readAll, hscan] at h
    exact absurd (Except.error.inj h).symm (herror .string)

end Datum

/-- The reader's complaints tell incomplete texts from wrong ones. A text that ends inside a list is
completed by closing parentheses on a further line, at least one of them and exactly one number of
them. A text that is malformed or nested too deeply cannot be completed: with any other text on the
lines behind it, the complaint is the same, about the same place, unless that text leaves a string
open and has no tokens at all. -/
theorem complaints_tell_incomplete_from_wrong (text : String) (store : Store) :
    ((Datum.readAll store text).1 = .error (.unfinished .list) →
      ∃ k, 1 ≤ k ∧ ∀ n,
        (∃ forms, (Datum.readAll store (text ++ "\n" ++ closing n)).1 = .ok forms) ↔ n = k) ∧
    ∀ error, (Datum.readAll store text).1 = .error error →
      (∃ cause, error = .malformed cause) ∨ (∃ limit, error = .exhausted limit) →
      ∀ more,
        (∀ us, scan more = .ok us →
          (Datum.readAll store (text ++ "\n" ++ more)).1 = .error error) ∧
        ((∀ us, scan more ≠ .ok us) →
          (Datum.readAll store (text ++ "\n" ++ more)).1 = .error (.unfinished .string)) := by
  refine ⟨Datum.exists_completion, fun error h hkind => Datum.readAll_append_of_error h ?_⟩
  rintro what rfl
  rcases hkind with ⟨_, hkind⟩ | ⟨_, hkind⟩ <;> cases hkind

/-- The text `(a (b` only lacks closing parentheses, while nothing that follows on another line
mends the text `)`. -/
theorem complaints_tell_incomplete_from_wrong_parens :
    (∃ k, 1 ≤ k ∧ ∀ n,
      (∃ forms, (Datum.readAll .empty ("(a (b" ++ "\n" ++ closing n)).1 = .ok forms) ↔ n = k) ∧
    (Datum.readAll .empty (")" ++ "\n" ++ "(b")).1 = .error (.malformed (.strayClose .start)) := by
  obtain ⟨hopen, -⟩ := complaints_tell_incomplete_from_wrong "(a (b" .empty
  obtain ⟨-, hwrong⟩ := complaints_tell_incomplete_from_wrong ")" .empty
  have hscan : scan "(a (b" = .ok [⟨.leftParen, ⟨1, 1⟩⟩, ⟨.atom "a", ⟨1, 2⟩⟩,
      ⟨.leftParen, ⟨1, 4⟩⟩, ⟨.atom "b", ⟨1, 5⟩⟩] := by cbv
  have hopened : ∀ store, (Datum.readAll store "(a (b").1 = .error (.unfinished .list) := by
    intro store
    have hnumber : Decimal.read? ['a'] = none ∧ Decimal.read? ['b'] = none := ⟨by cbv, by cbv⟩
    rw [Datum.readAll, hscan]
    refine congrArg Prod.fst (Datum.readTokens_of_error (by rw [Datum.next]) ?_)
    simp [Datum.readWith, Datum.step, Datum.startDatum, Datum.maxDepth, Datum.settle,
      Datum.ofAtom, Datum.unfinished, hnumber]
  have hstray : (Datum.readAll .empty ")").1 = .error (.malformed (.strayClose .start)) := by cbv
  obtain ⟨us, hus⟩ : ∃ us, scan "(b" = .ok us := ⟨_, rfl⟩
  exact ⟨hopen (hopened .empty), (hwrong _ hstray (.inl ⟨_, rfl⟩) "(b").1 us hus⟩

end StackLisp
