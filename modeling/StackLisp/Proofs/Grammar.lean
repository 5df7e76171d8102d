import StackLisp.Text.Datum

/-!
# The grammar of data

A `Phrase` is a derivation of the grammar: a string, an atom, a quote mark with a phrase after it,
or phrases in parentheses. `Phrase.tokens` is what it is spelt with, `Phrase.nesting` how deep it
goes and `Phrase.value` what it stands for. None of them knows of the levels that reading keeps
open.

- `Datum.readWith_phrase`: reading takes exactly the tokens of a phrase that is not too deep, and
  goes on with its value;
- `Datum.opens_of_readWith`: reading succeeds only where a phrase stands;
- `Phrase.tokens_append_inj`: no phrase is the beginning of another one;
- `reader_accepts_exactly_phrases`: the whole of it.
-/

namespace StackLisp

/-- A derivation of the grammar of data. -/
inductive Phrase where
  | string (text : String)
  | atom (text : String)
  /-- A phrase after a quote mark. -/
  | quoted (inner : Phrase)
  /-- Phrases in parentheses. -/
  | list (items : List Phrase)

namespace Phrase

/-! ## What a phrase is spelt with, and how deep it goes -/

mutual

/-- The tokens of a phrase. -/
def tokens : Phrase → List Token
  | .string text => [.string text]
  | .atom text => [.atom text]
  | .quoted inner => .quote :: inner.tokens
  | .list items => .leftParen :: (tokensOf items ++ [.rightParen])

/-- The tokens of phrases one after the other. -/
def tokensOf : List Phrase → List Token
  | [] => []
  | p :: ps => p.tokens ++ tokensOf ps

end

mutual

/-- Each list and each quote is a level, and a leaf is one more. -/
def nesting : Phrase → Nat
  | .string _ => 1
  | .atom _ => 1
  | .quoted inner => inner.nesting + 1
  | .list items => nestingOf items + 1

/-- The nesting of the deepest of some phrases. -/
def nestingOf : List Phrase → Nat
  | [] => 0
  | p :: ps => max p.nesting (nestingOf ps)

end

/-- No atom among the tokens starts with the reserved character. -/
def Unreserved (tokens : List Token) : Prop :=
  ∀ atom, .atom atom ∈ tokens → atom.toList.head? ≠ some '#'

theorem unreserved_append {ts us : List Token} :
    Unreserved (ts ++ us) ↔ Unreserved ts ∧ Unreserved us := by
  simp only [Unreserved, List.mem_append, or_imp, forall_and]

theorem unreserved_cons {t : Token} {ts : List Token} :
    Unreserved (t :: ts) ↔ Unreserved [t] ∧ Unreserved ts :=
  @unreserved_append [t] ts

theorem tokens_ne_nil (p : Phrase) : p.tokens ≠ [] := by
  cases p <;> simp [tokens]

theorem one_le_nesting (p : Phrase) : 1 ≤ p.nesting := by
  cases p <;> simp [nesting]

theorem nestingOf_le_iff {ps : List Phrase} {n : Nat} :
    nestingOf ps ≤ n ↔ ∀ p ∈ ps, p.nesting ≤ n := by
  induction ps with
  | nil => simp [nestingOf]
  | cons p ps ih => rw [nestingOf, Nat.max_le, ih, List.forall_mem_cons]

theorem unreserved_tokensOf {ps : List Phrase} :
    Unreserved (tokensOf ps) ↔ ∀ p ∈ ps, Unreserved p.tokens := by
  induction ps with
  | nil => simp [tokensOf, Unreserved]
  | cons p ps ih => rw [tokensOf, unreserved_append, ih, List.forall_mem_cons]

/-! ## What a phrase stands for -/

/-- The value of an atom: one of the three literals, a decimal number, or else the symbol of that
name. -/
def atomValue (store : Store) (atom : String) : Value × Store :=
  if atom = "true" then (.boolean true, store)
  else if atom = "false" then (.boolean false, store)
  else if atom = "nil" then (.nil, store)
  else match Decimal.read? atom.toList with
    | some n => (.number n, store)
    | none =>
      let (symbol, store) := store.intern atom
      (.symbol symbol, store)

/-- What an atom can be. -/
theorem atomValue_elim (P : Value × Store → Prop) (store : Store) (atom : String)
    (boolean : ∀ b, P (.boolean b, store)) (nil : P (.nil, store))
    (number : ∀ n, Decimal.read? atom.toList = some n → P (.number n, store))
    (symbol : atom ≠ "true" ∧ atom ≠ "false" ∧ atom ≠ "nil" → Decimal.read? atom.toList = none →
      P (.symbol (store.intern atom).1, (store.intern atom).2)) :
    P (atomValue store atom) := by
  unfold atomValue
  split
  · exact boolean true
  split
  · exact boolean false
  split
  · exact nil
  next htrue hfalse hnil =>
  cases hread : Decimal.read? atom.toList with
  | some n => exact number n hread
  | none => exact symbol ⟨htrue, hfalse, hnil⟩ hread

mutual

/-- The value of a phrase, made from left to right. A quoted phrase is a list of two items. -/
def value (quote : Symbol) (store : Store) : Phrase → Value × Store
  | .string text => store.string text
  | .atom text => atomValue store text
  | .quoted inner =>
    let (v, store) := inner.value quote store
    store.list [.symbol quote, v]
  | .list items =>
    let (vs, store) := valuesOf quote store items
    store.list vs

/-- The values of phrases one after the other. -/
def valuesOf (quote : Symbol) (store : Store) : List Phrase → List Value × Store
  | [] => ([], store)
  | p :: ps =>
    let (v, store) := p.value quote store
    let (vs, store) := valuesOf quote store ps
    (v :: vs, store)

end

/-- The value of a phrase that stands by itself: the name `quote` is interned first. -/
def read (store : Store) (p : Phrase) : Value × Store :=
  let (quote, store) := store.intern "quote"
  p.value quote store

/-- The values of phrases that stand by themselves, one after the other. -/
def readEach (store : Store) : List Phrase → List Value × Store
  | [] => ([], store)
  | p :: ps =>
    let (v, store) := p.read store
    let (vs, store) := readEach store ps
    (v :: vs, store)

/-! ## Where a phrase stands -/

/-- The tokens spell a phrase that can be read: none of its atoms is reserved, and it goes no deeper
than 512 levels. -/
structure Spelt (p : Phrase) (ts : List Located) : Prop where
  spelling : ts.map Located.token = p.tokens
  unreserved : Unreserved p.tokens
  nesting : p.nesting ≤ 512

/-- The tokens from one position up to another spell the phrase. -/
structure Stands (p : Phrase) (ts : List Located) (start stop : Nat) : Prop where
  ordered : start ≤ stop
  within : stop ≤ ts.length
  spelt : p.Spelt (ts.extract start stop)

/-- The tokens are a concatenation of spelt phrases. -/
inductive SpeltEach : List Phrase → List Located → Prop
  | nil : SpeltEach [] []
  | cons {p : Phrase} {ps : List Phrase} {ts us : List Located} (hp : p.Spelt ts)
      (hps : SpeltEach ps us) : SpeltEach (p :: ps) (ts ++ us)

theorem SpeltEach.spelling {ps : List Phrase} {ts : List Located} (h : SpeltEach ps ts) :
    ts.map Located.token = tokensOf ps := by
  induction h with
  | nil => rfl
  | cons hp _ ih => rw [List.map_append, hp.spelling, ih, tokensOf]

/-- The phrase can be read. -/
structure Readable (p : Phrase) : Prop where
  unreserved : Unreserved p.tokens
  nesting : p.nesting ≤ 512

theorem speltEach_iff {ps : List Phrase} {ts : List Located} :
    SpeltEach ps ts ↔ ts.map Located.token = tokensOf ps ∧ ∀ p ∈ ps, p.Readable := by
  constructor
  · intro h
    refine ⟨h.spelling, ?_⟩
    induction h with
    | nil => exact List.forall_mem_nil _
    | cons hp _ ih => exact List.forall_mem_cons.2 ⟨⟨hp.unreserved, hp.nesting⟩, ih⟩
  · rintro ⟨hts, hps⟩
    induction ps generalizing ts with
    | nil =>
      obtain rfl := List.map_eq_nil_iff.1 hts
      exact .nil
    | cons p ps ih =>
      obtain ⟨us, vs, rfl, hus, hvs⟩ := List.map_eq_append_iff.1 hts
      obtain ⟨hp, hps⟩ := List.forall_mem_cons.1 hps
      exact .cons ⟨hus, hp.unreserved, hp.nesting⟩ (ih hvs hps)

theorem forall_readable_iff {ps : List Phrase} :
    (∀ p ∈ ps, p.Readable) ↔ Unreserved (tokensOf ps) ∧ nestingOf ps ≤ 512 := by
  rw [unreserved_tokensOf, nestingOf_le_iff]
  exact ⟨fun h => ⟨fun p hp => (h p hp).unreserved, fun p hp => (h p hp).nesting⟩,
    fun h p hp => ⟨h.1 p hp, h.2 p hp⟩⟩

theorem Stands.append {p : Phrase} {ts : List Located} {start stop : Nat}
    (h : p.Stands ts start stop) : ts.drop start = ts.extract start stop ++ ts.drop stop := by
  have hdrop : (ts.drop start).drop (stop - start) = ts.drop stop := by
    rw [List.drop_drop, Nat.add_sub_cancel' h.ordered]
  rw [List.extract_eq_take_drop, ← hdrop, List.take_append_drop]

theorem Stands.length {p : Phrase} {ts : List Located} {start stop : Nat}
    (h : p.Stands ts start stop) : p.tokens.length = stop - start := by
  have := h.within
  rw [← h.spelt.spelling, List.length_map, List.extract_eq_take_drop, List.length_take,
    List.length_drop]
  omega

/-- A phrase at the beginning of the tokens from a position on. -/
theorem Spelt.stands {p : Phrase} {ts us rest : List Located} {start : Nat} (h : p.Spelt us)
    (hsplit : ts.drop start = us ++ rest) :
    p.Stands ts start (start + us.length) ∧ rest = ts.drop (start + us.length) := by
  have hne : us ≠ [] := by
    rintro rfl
    exact p.tokens_ne_nil h.spelling.symm
  have hlength : ts.length - start = us.length + rest.length := by
    rw [← List.length_drop, hsplit, List.length_append]
  have hpos := List.length_pos_iff.2 hne
  refine ⟨⟨Nat.le_add_right _ _, by omega, ?_⟩, ?_⟩
  · rwa [List.extract_eq_take_drop, hsplit, Nat.add_sub_cancel_left, List.take_left]
  · rw [← List.drop_drop, hsplit, List.drop_left]

/-! ## No phrase is the beginning of another one -/

mutual

/-- The tokens after a phrase do not matter for which phrase it is. -/
theorem tokens_append_inj {p q : Phrase} {ts us : List Token}
    (h : p.tokens ++ ts = q.tokens ++ us) : p = q ∧ ts = us := by
  -- the first token tells of which kind a phrase is
  cases p with
  | string text | atom text => cases q <;> simp_all [tokens]
  | quoted inner =>
    cases q with
    | quoted inner' =>
      simp only [tokens, List.cons_append, List.cons.injEq, true_and] at h
      obtain ⟨rfl, rfl⟩ := tokens_append_inj h
      exact ⟨rfl, rfl⟩
    | _ => simp [tokens] at h
  | list items =>
    cases q with
    | list items' =>
      simp only [tokens, List.cons_append, List.append_assoc, List.nil_append, List.cons.injEq,
        true_and] at h
      obtain ⟨rfl, rfl⟩ := tokensOf_append_inj h
      exact ⟨rfl, rfl⟩
    | _ => simp [tokens] at h

/-- Phrases in a row end where a parenthesis is closed that none of them has opened. -/
theorem tokensOf_append_inj {ps qs : List Phrase} {ts us : List Token}
    (h : tokensOf ps ++ .rightParen :: ts = tokensOf qs ++ .rightParen :: us) :
    ps = qs ∧ ts = us := by
  -- a phrase never starts with a closing parenthesis, so both rows are as long
  cases ps with
  | nil =>
    cases qs with
    | nil => simpa [tokensOf] using h
    | cons q qs => cases q <;> simp [tokensOf, tokens] at h
  | cons p ps =>
    cases qs with
    | nil => cases p <;> simp [tokensOf, tokens] at h
    | cons q qs =>
      simp only [tokensOf, List.append_assoc] at h
      obtain ⟨rfl, hrest⟩ := tokens_append_inj h
      obtain ⟨rfl, rfl⟩ := tokensOf_append_inj hrest
      exact ⟨rfl, rfl⟩

end

end Phrase

namespace Datum

open Phrase

/-! ## Reading a phrase -/

/-- An atom that is not reserved has its value. -/
theorem ofAtom_eq {store : Store} {atom : String} (place : Span)
    (h : atom.toList.head? ≠ some '#') : ofAtom store atom place = .ok (atomValue store atom) := by
  unfold ofAtom atomValue
  grind

/-- Reading after a value was put into the innermost open level. -/
def resume (quote : Symbol) (rest : List Located) : Progress → Reading
  | .done value store => { result := .ok value, rest, store }
  | .more levels store => readWith quote store levels rest
  | .failed error store => { result := .error error, rest, store }
  | .refused error store => { result := .error error, rest, store }

theorem readWith_cons_of_more {quote : Symbol} {store after : Store} {levels inner : List Level}
    {t : Located} (h : step quote store levels t = .more inner after) (rest : List Located) :
    readWith quote store levels (t :: rest) = readWith quote after inner rest := by
  rw [readWith, h]

theorem readWith_cons_of_settle {quote : Symbol} {store after : Store} {levels outer : List Level}
    {t : Located} {v : Value} (h : step quote store levels t = settle quote after v outer)
    (rest : List Located) :
    readWith quote store levels (t :: rest) =
      resume quote rest (settle quote after v outer) := by
  rw [readWith, h]
  cases hsettle : settle quote after v outer with
  | refused error s => exact absurd hsettle (settle_ne_refused _ _ _ _ _ _)
  | _ => rfl

section Step

variable {quote : Symbol} {store : Store} {levels : List Level} {t : Located}

theorem step_leftParen (ht : t.token = .leftParen) (hn : levels.length < maxDepth) :
    step quote store levels t = .more (.list [] :: levels) store := by
  simp [step, startDatum, ht, Nat.not_le.2 hn]

theorem step_quote (ht : t.token = .quote) (hn : levels.length < maxDepth) :
    step quote store levels t = .more (.quote :: levels) store := by
  simp [step, startDatum, ht, Nat.not_le.2 hn]

theorem step_string {text : String} (ht : t.token = .string text) (hn : levels.length < maxDepth) :
    step quote store levels t =
      settle quote (store.string text).2 (store.string text).1 levels := by
  simp [step, startDatum, ht, Nat.not_le.2 hn]

theorem step_atom {text : String} (ht : t.token = .atom text) (hn : levels.length < maxDepth)
    (hplain : text.toList.head? ≠ some '#') :
    step quote store levels t =
      settle quote (atomValue store text).2 (atomValue store text).1 levels := by
  simp [step, startDatum, ht, Nat.not_le.2 hn, ofAtom_eq t.span hplain]

theorem step_rightParen {reversed : List Value} (ht : t.token = .rightParen) :
    step quote store (.list reversed :: levels) t =
      settle quote (store.list reversed.reverse).2 (store.list reversed.reverse).1 levels := by
  simp [step, ht]

end Step

mutual

/-- Reading takes the tokens of a phrase that fits into the open levels, and goes on with its
value. -/
theorem readWith_phrase (quote : Symbol) (store : Store) {levels : List Level} {p : Phrase}
    {ts : List Located} (hspelt : ts.map Located.token = p.tokens) (hplain : Unreserved p.tokens)
    (hfits : levels.length + p.nesting ≤ maxDepth) (rest : List Located) :
    readWith quote store levels (ts ++ rest) =
      resume quote rest (settle quote (p.value quote store).2 (p.value quote store).1 levels) := by
  have hshallow : levels.length < maxDepth := by
    have := p.one_le_nesting
    omega
  -- a leaf is one step; a quote and a list open a level, and what is inside is read with it
  cases p with
  | string text =>
    obtain ⟨t, rfl, ht⟩ : ∃ t, ts = [t] ∧ t.token = .string text := by
      simpa [tokens, List.map_eq_singleton_iff] using hspelt
    exact readWith_cons_of_settle (step_string ht hshallow) rest
  | atom text =>
    obtain ⟨t, rfl, ht⟩ : ∃ t, ts = [t] ∧ t.token = .atom text := by
      simpa [tokens, List.map_eq_singleton_iff] using hspelt
    exact readWith_cons_of_settle (step_atom ht hshallow (hplain text (by simp [tokens]))) rest
  | quoted inner =>
    obtain ⟨t, us, rfl, ht, hus⟩ := List.map_eq_cons_iff.1 hspelt
    rw [nesting] at hfits
    rw [List.cons_append, readWith_cons_of_more (step_quote ht hshallow),
      readWith_phrase quote store hus (unreserved_cons.1 hplain).2
        (by rw [List.length_cons]; omega)]
    rfl
  | list items =>
    obtain ⟨t, us, rfl, ht, hus⟩ := List.map_eq_cons_iff.1 hspelt
    obtain ⟨inside, close, rfl, hinside, hclose⟩ := List.map_eq_append_iff.1 hus
    obtain ⟨c, rfl, hc⟩ := List.map_eq_singleton_iff.1 hclose
    rw [nesting] at hfits
    -- the items are collected in reverse, and put in order when the list is closed
    rw [List.cons_append, readWith_cons_of_more (step_leftParen ht hshallow), List.append_assoc,
      readWith_phrases quote store hinside (unreserved_append.1 (unreserved_cons.1 hplain).2).1
        (by rw [List.length_cons]; omega),
      List.singleton_append, readWith_cons_of_settle (step_rightParen hc), List.append_nil,
      List.reverse_reverse]
    rfl

/-- Reading puts the values of phrases that fit into the open list one after the other. -/
theorem readWith_phrases (quote : Symbol) (store : Store) {levels : List Level}
    {reversed : List Value} {ps : List Phrase} {ts : List Located}
    (hspelt : ts.map Located.token = tokensOf ps) (hplain : Unreserved (tokensOf ps))
    (hfits : (.list reversed :: levels : List Level).length + nestingOf ps ≤ maxDepth)
    (rest : List Located) :
    readWith quote store (.list reversed :: levels) (ts ++ rest) =
      readWith quote (valuesOf quote store ps).2
        (.list ((valuesOf quote store ps).1.reverse ++ reversed) :: levels) rest := by
  cases ps with
  | nil => simp_all [tokensOf, valuesOf]
  | cons p ps =>
    obtain ⟨us, vs, rfl, hus, hvs⟩ := List.map_eq_append_iff.1 hspelt
    rw [tokensOf, unreserved_append] at hplain
    rw [nestingOf] at hfits
    rw [List.append_assoc, readWith_phrase quote store hus hplain.1 (by omega)]
    rw [settle, resume, readWith_phrases quote _ hvs hplain.2
      (by simp only [List.length_cons] at *; omega)]
    simp [valuesOf]

end

/-! ## Where reading succeeds -/

/-- A phrase that fits into the open levels stands at the beginning. -/
def Opens (levels : List Level) (tokens : List Located) : Prop :=
  ∃ (p : Phrase) (ts rest : List Located), tokens = ts ++ rest ∧
    ts.map Located.token = p.tokens ∧ Unreserved p.tokens ∧ levels.length + p.nesting ≤ maxDepth

/-- Phrases that fit into the open levels stand at the beginning, and then a parenthesis is
closed. -/
def Closes (levels : List Level) (tokens : List Located) : Prop :=
  ∃ (ps : List Phrase) (ts : List Located) (c : Located) (rest : List Located),
    tokens = ts ++ c :: rest ∧ c.token = .rightParen ∧ ts.map Located.token = tokensOf ps ∧
    Unreserved (tokensOf ps) ∧ levels.length + nestingOf ps ≤ maxDepth

/-- Only where levels may still be opened does a token start a datum. -/
theorem lt_maxDepth_of_readWith {quote : Symbol} {store : Store} {levels : List Level}
    {t : Located} {rest : List Located} {v : Value}
    (h : (readWith quote store levels (t :: rest)).result = .ok v)
    (hstart : step quote store levels t = startDatum quote store levels t) :
    levels.length < maxDepth := by
  refine Nat.lt_of_not_le fun hdeep => ?_
  rw [readWith, hstart, startDatum, if_pos hdeep] at h
  cases h

theorem ofAtom_reserved {store : Store} {text : String} (place : Span)
    (h : text.toList.head? = some '#') :
    ofAtom store text place = .error (.malformed (.reservedAtom text place)) := by
  -- a text that starts so is none of the literals
  have hliteral : ∀ literal : String, literal.toList.head? ≠ some '#' → text ≠ literal :=
    fun literal hne heq => hne (heq ▸ h)
  rw [ofAtom, if_neg (hliteral _ (by decide)), if_neg (hliteral _ (by decide)),
    if_neg (hliteral _ (by decide)), if_pos h]

mutual

/-- Where reading succeeds and no open list is closed at once, a phrase stands. -/
theorem opens_of_readWith {quote : Symbol} {store : Store} {levels : List Level}
    {ts : List Located} {v : Value} (h : (readWith quote store levels ts).result = .ok v)
    (hopen : ∀ reversed outer, levels = .list reversed :: outer →
      ∀ c rest, ts = c :: rest → c.token ≠ .rightParen) : Opens levels ts := by
  cases ts with
  | nil => cases h
  | cons t rest =>
    have hstart : step quote store levels t = startDatum quote store levels t := by
      unfold step
      split
      · next ht => exact absurd ht (hopen _ _ rfl _ _ rfl)
      · rfl
    have hn := lt_maxDepth_of_readWith h hstart
    -- after a parenthesis or a quote mark fewer tokens are left, and the rest is known to be read
    cases ht : t.token with
    | leftParen =>
      rw [readWith_cons_of_more (step_leftParen ht hn)] at h
      obtain ⟨ps, us, c, after, rfl, hc, hus, hplain, hfits⟩ := closes_of_readWith h hn
      refine ⟨.list ps, t :: (us ++ [c]), after, by simp, by simp [ht, hus, hc, tokens], ?_, ?_⟩
      · simpa [tokens, Unreserved] using hplain
      · rw [nesting]
        rw [List.length_cons] at hfits
        omega
    | quote =>
      rw [readWith_cons_of_more (step_quote ht hn)] at h
      obtain ⟨p, us, after, rfl, hus, hplain, hfits⟩ := opens_of_readWith h (by simp)
      refine ⟨.quoted p, t :: us, after, by simp, by simp [ht, hus, tokens], ?_, ?_⟩
      · simpa [tokens, Unreserved] using hplain
      · rw [nesting]
        rw [List.length_cons] at hfits
        omega
    | rightParen =>
      -- a parenthesis that closes nothing is an error
      rw [readWith, hstart, startDatum, if_neg (Nat.not_le.2 hn), ht] at h
      cases h
    | string text =>
      exact ⟨.string text, [t], rest, rfl, by simp [ht, tokens], by simp [Unreserved, tokens], hn⟩
    | atom text =>
      refine ⟨.atom text, [t], rest, rfl, by simp [ht, tokens], ?_, hn⟩
      suffices text.toList.head? ≠ some '#' by simpa [Unreserved, tokens] using this
      intro hreserved
      rw [readWith, hstart, startDatum, if_neg (Nat.not_le.2 hn), ht] at h
      simp [ofAtom_reserved t.span hreserved] at h
termination_by (ts.length, 0)

/-- Where reading succeeds inside a list, phrases stand until the list is closed. -/
theorem closes_of_readWith {quote : Symbol} {store : Store} {outer : List Level}
    {reversed : List Value} {ts : List Located} {v : Value}
    (h : (readWith quote store (.list reversed :: outer) ts).result = .ok v)
    (hn : outer.length < maxDepth) :
    Closes (.list reversed :: outer) ts := by
  cases hts : ts with
  | nil => rw [hts] at h; cases h
  | cons t rest =>
    by_cases ht : t.token = .rightParen
    · exact ⟨[], [], t, rest, rfl, ht, rfl, by simp [Unreserved, tokensOf], hn⟩
    · -- the first of the phrases is read, and reading goes on behind it
      obtain ⟨p, us, after, hsplit, hus, hplain, hfits⟩ :=
        opens_of_readWith h fun _ _ _ c _ hc => by
          rw [hts, List.cons.injEq] at hc
          exact hc.1 ▸ ht
      have hlt : after.length < ts.length := by
        have hne : us ≠ [] := by
          rintro rfl
          exact p.tokens_ne_nil hus.symm
        have := List.length_pos_iff.2 hne
        rw [hsplit, List.length_append]
        omega
      rw [hsplit, readWith_phrase quote store hus hplain hfits, settle, resume] at h
      obtain ⟨ps, vs, c, last, rfl, hc, hvs, hplains, hfit⟩ := closes_of_readWith h hn
      refine ⟨p :: ps, us ++ vs, c, last, by rw [← hts, hsplit, List.append_assoc], hc,
        by simp [hus, hvs, tokensOf], ?_, ?_⟩
      · rw [tokensOf, unreserved_append]
        exact ⟨hplain, hplains⟩
      · rw [nestingOf]
        simp only [List.length_cons] at *
        omega
termination_by (ts.length, 1)

end

/-! ## Whole data -/

/-- One datum is read exactly where a phrase stands, and it is the value of the phrase. -/
theorem next_eq_ok_iff {store after : Store} {ts rest : List Located} {v : Value} :
    next store ts = some { result := .ok v, rest, store := after } ↔
      ∃ (p : Phrase) (us : List Located), ts = us ++ rest ∧ p.Spelt us ∧
        p.read store = (v, after) := by
  constructor
  · intro h
    cases ts with
    | nil => cases h
    | cons t others =>
      -- reading starts with no level open, where nothing can be closed
      simp only [next, Option.some.injEq] at h
      have hok : (readWith (store.intern "quote").1 (store.intern "quote").2 []
          (t :: others)).result = .ok v := by rw [h]
      obtain ⟨p, us, rest', hsplit, hus, hplain, hfits⟩ := opens_of_readWith hok (by simp)
      rw [hsplit, readWith_phrase _ _ hus hplain hfits, settle, resume] at h
      simp only [Reading.mk.injEq, Except.ok.injEq] at h
      obtain ⟨hv, rfl, hafter⟩ := h
      refine ⟨p, us, hsplit, ⟨hus, hplain, by simpa [maxDepth] using hfits⟩, Prod.ext hv hafter⟩
  · rintro ⟨p, us, rfl, hp, hread⟩
    cases us with
    | nil => exact absurd hp.spelling.symm p.tokens_ne_nil
    | cons t us =>
      have hfits : ([] : List Level).length + p.nesting ≤ maxDepth := by
        simpa [maxDepth] using hp.nesting
      simp only [List.cons_append, next, Option.some.injEq]
      rw [← List.cons_append, readWith_phrase _ _ hp.spelling hp.unreserved hfits, settle, resume]
      have hvalue : p.value (store.intern "quote").1 (store.intern "quote").2 = (v, after) := hread
      rw [hvalue]

theorem readTokens_nil (store : Store) (reversed : List Value) :
    readTokens store [] reversed = (.ok reversed.reverse, store) := by
  unfold readTokens
  rfl

theorem readTokens_of_next {store after : Store} {ts rest : List Located} {v : Value}
    (h : next store ts = some { result := .ok v, rest, store := after }) (reversed : List Value) :
    readTokens store ts reversed = readTokens after rest (v :: reversed) := by
  rw [readTokens]
  split
  · next hnone => simp [h] at hnone
  · next reading hsome =>
    obtain rfl := Option.some.inj (hsome.symm.trans h)
    rfl

/-- All tokens are read exactly when they are a concatenation of phrases. -/
theorem readTokens_eq_ok_iff {store after : Store} {ts : List Located} {reversed vs : List Value} :
    readTokens store ts reversed = (.ok vs, after) ↔
      ∃ ps, SpeltEach ps ts ∧
        (reversed.reverse ++ (readEach store ps).1, (readEach store ps).2) = (vs, after) := by
  constructor
  · intro h
    -- along the recursion of the reader: each step takes the tokens of one phrase
    fun_induction readTokens store ts reversed with
    | case1 store ts reversed hnone =>
      cases ts with
      | nil => exact ⟨[], .nil, by simpa [readEach] using h⟩
      | cons t ts => cases hnone
    | case2 => simp at h
    | case3 store ts reversed reading hnext v hv _ ih =>
      obtain ⟨result, rest, middle⟩ := reading
      obtain rfl : result = .ok v := hv
      obtain ⟨p, us, rfl, hp, hread⟩ := next_eq_ok_iff.1 hnext
      obtain ⟨ps, hps, hall⟩ := ih h
      refine ⟨p :: ps, .cons hp hps, ?_⟩
      simpa [readEach, hread] using hall
  · rintro ⟨ps, hps, h⟩
    induction hps generalizing store reversed with
    | nil =>
      rw [readTokens_nil]
      simpa [readEach] using h
    | @cons p ps ts us hp _ ih =>
      have hnext : next store (ts ++ us) =
          some { result := .ok (p.read store).1, rest := us, store := (p.read store).2 } :=
        next_eq_ok_iff.2 ⟨p, ts, rfl, hp, rfl⟩
      rw [readTokens_of_next hnext]
      exact ih (by simpa [readEach] using h)

/-- A whole text is read exactly when its tokens are a concatenation of phrases. -/
theorem readAll_eq_ok_iff {store after : Store} {text : String} {vs : List Value} :
    readAll store text = (.ok vs, after) ↔
      ∃ ts ps, Token.scan text = .ok ts ∧ SpeltEach ps ts ∧ readEach store ps = (vs, after) := by
  rw [readAll]
  cases hscan : Token.scan text with
  | error error => simp
  | ok ts =>
    constructor
    · intro h
      obtain ⟨ps, hps, hread⟩ := readTokens_eq_ok_iff.1 h
      exact ⟨ts, ps, rfl, hps, hread⟩
    · rintro ⟨ts', ps, hts, hps, hread⟩
      obtain rfl := Except.ok.inj hts
      exact readTokens_eq_ok_iff.2 ⟨ps, hps, hread⟩

end Datum

/-- Reading accepts exactly the grammar. From a position on, one datum is read and the reading stops
at another position exactly when the tokens between them spell a phrase without reserved atoms that
goes at most 512 levels deep, and what is read is the value of that phrase. The phrase and the
position where it ends are determined. A whole text is read exactly when its tokens are a
concatenation of such phrases. -/
theorem reader_accepts_exactly_phrases :
    (∀ (ts : List Located) (start : Nat) (store after : Store) (rest : List Located) (v : Value),
      Datum.next store (ts.drop start) = some { result := .ok v, rest, store := after } ↔
        ∃ (p : Phrase) (stop : Nat), p.Stands ts start stop ∧ rest = ts.drop stop ∧
          p.read store = (v, after)) ∧
    (∀ (ts : List Located) (start stop stop' : Nat) (p p' : Phrase),
      p.Stands ts start stop → p'.Stands ts start stop' → p = p' ∧ stop = stop') ∧
    ∀ (text : String) (store after : Store) (vs : List Value),
      Datum.readAll store text = (.ok vs, after) ↔
        ∃ ts ps, Token.scan text = .ok ts ∧ Phrase.SpeltEach ps ts ∧
          Phrase.readEach store ps = (vs, after) := by
  refine ⟨?_, ?_, ?_⟩
  · intro ts start store after rest v
    rw [Datum.next_eq_ok_iff]
    constructor
    · rintro ⟨p, us, hsplit, hp, hread⟩
      obtain ⟨hstands, hrest⟩ := hp.stands hsplit
      exact ⟨p, _, hstands, hrest, hread⟩
    · rintro ⟨p, stop, hp, rfl, hread⟩
      exact ⟨p, _, hp.append, hp.spelt, hread⟩
  · intro ts start stop stop' p p' hp hp'
    have hsame := congrArg (List.map Located.token) (hp.append.symm.trans hp'.append)
    rw [List.map_append, List.map_append, hp.spelt.spelling, hp'.spelt.spelling] at hsame
    obtain ⟨rfl, -⟩ := Phrase.tokens_append_inj hsame
    -- the same phrase has as many tokens in both places
    have hlength := hp.length.symm.trans hp'.length
    have := hp.ordered
    have := hp'.ordered
    exact ⟨rfl, by omega⟩
  · exact fun _ _ _ _ => Datum.readAll_eq_ok_iff

end StackLisp
