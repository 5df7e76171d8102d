import StackLisp.Proofs.Printing

/-!
# The characters of tokens

A text is made of lexemes: tokens, and the blanks and comments between them. `Lexed` says so without
following the scan, and `StringLeftOpen` says that a text stops in the middle of a string instead.

- `exists_lexed`: every text is made of lexemes, up to a string that is left open;
- `Lexed.scan`: scanning lexemes finds their tokens, each at its place;
- `Lexed.tiles`: the tokens take up ranges of the text, and blanks and comments are all there is
  outside them;
- `Span.foldl_after`: the place after some characters, by counting them;
- `tokens_are_lossless`: the whole of it.
-/

namespace StackLisp

/-! ## Lexemes -/

/-- The characters that spell a token. -/
def Token.chars : Token → List Char
  | .leftParen => ['(']
  | .rightParen => [')']
  | .quote => ['\'']
  | .string text => '"' :: (text.toList ++ ['"'])
  | .atom text => text.toList

/-- A piece of a text: a token, or what may stand between tokens. -/
inductive Lexeme where
  | blank (c : Char)
  /-- A comment, without its semicolon. -/
  | comment (text : List Char)
  | token (t : Token)

namespace Lexeme

/-- The characters of a lexeme. -/
def chars : Lexeme → List Char
  | .blank c => [c]
  | .comment text => ';' :: text
  | .token t => t.chars

/-- The lexeme may stand right before the rest of a text. A comment ends only before a line feed or
with the text, and an atom only before a delimiter or with the text. -/
def Before (rest : List Char) : Lexeme → Prop
  | .blank c => isBlank c = true
  | .comment text => '\n' ∉ text ∧ ∀ c ∈ rest.head?, c = '\n'
  | .token t => t.WellFormed ∧ ∀ text, t = .atom text → ∀ c ∈ rest.head?, isDelimiter c = true

/-- The token that a lexeme is, at a place. -/
def located (place : Span) : Lexeme → List Located
  | .token t => [⟨t, place⟩]
  | _ => []

/-- The tokens among lexemes that start at a place. -/
def locate (place : Span) : List Lexeme → List Located
  | [] => []
  | l :: ls => l.located place ++ locate (l.chars.foldl Span.after place) ls

end Lexeme

/-- The characters are those of some lexemes, and then the rest. -/
inductive Lexed (rest : List Char) : List Lexeme → List Char → Prop
  | nil : Lexed rest [] rest
  | cons {l : Lexeme} {ls : List Lexeme} {cs : List Char} (hl : l.Before cs)
      (hls : Lexed rest ls cs) : Lexed rest (l :: ls) (l.chars ++ cs)

/-- A string literal is left open at the end: behind some lexemes stands a double quote that no
other one follows. -/
def StringLeftOpen (cs : List Char) : Prop :=
  ∃ ls inside, Lexed ('"' :: inside) ls cs ∧ '"' ∉ inside

theorem Lexeme.Before.chars_ne_nil {l : Lexeme} {rest : List Char} (h : l.Before rest) :
    l.chars ≠ [] := by
  cases l with
  | blank c => exact List.cons_ne_nil _ _
  | comment text => exact List.cons_ne_nil _ _
  | token t =>
    cases t with
    | atom text => exact h.1.1
    | _ => exact List.cons_ne_nil _ _

/-- A first part without some characters ends where the first of them stands, or is everything. -/
private theorem exists_run (p : Char → Bool) (cs : List Char) :
    ∃ run rest, cs = run ++ rest ∧ (∀ c ∈ run, p c = true) ∧ ∀ c ∈ rest.head?, p c = false := by
  refine ⟨cs.takeWhile p, cs.dropWhile p, List.takeWhile_append_dropWhile.symm,
    fun c => List.mem_takeWhile_imp, fun c hc => ?_⟩
  have hnot := List.head?_dropWhile_not p cs
  rw [Option.mem_def] at hc
  simpa [hc] using hnot

/-- Every text starts with a lexeme, unless it is empty or starts with a string that is left
open. -/
theorem exists_lexeme {c : Char} {cs : List Char} (h : c = '"' → '"' ∈ cs) :
    ∃ (l : Lexeme) (rest : List Char), l.Before rest ∧ c :: cs = l.chars ++ rest := by
  by_cases hblank : isBlank c = true
  · exact ⟨.blank c, cs, hblank, rfl⟩
  by_cases hcomment : c = ';'
  · subst hcomment
    -- a comment is as long as its line
    obtain ⟨text, rest, rfl, htext, hrest⟩ := exists_run (· ≠ '\n') cs
    refine ⟨.comment text, rest, ⟨fun hmem => ?_, by simpa using hrest⟩, rfl⟩
    simpa using htext _ hmem
  by_cases hleft : c = '('
  · exact ⟨.token .leftParen, cs, ⟨trivial, by simp⟩, by rw [hleft]; rfl⟩
  by_cases hright : c = ')'
  · exact ⟨.token .rightParen, cs, ⟨trivial, by simp⟩, by rw [hright]; rfl⟩
  by_cases hquote : c = '\''
  · exact ⟨.token .quote, cs, ⟨trivial, by simp⟩, by rw [hquote]; rfl⟩
  by_cases hstring : c = '"'
  -- some double quote follows, and the first one ends the string
  · obtain ⟨text, rest, hcs, htext⟩ := List.eq_append_cons_of_mem (h hstring)
    refine ⟨.token (.string (String.ofList text)), rest, ⟨?_, by simp⟩, ?_⟩
    · simpa [Token.WellFormed] using htext
    · simp [Lexeme.chars, Token.chars, hstring, hcs]
  -- none of the delimiters is left, so the character belongs to an atom
  · have hc : isDelimiter c = false := by simp_all [isDelimiter]
    obtain ⟨text, rest, rfl, htext, hrest⟩ := exists_run (fun d => !isDelimiter d) cs
    refine ⟨.token (.atom (String.ofList (c :: text))), rest, ⟨?_, ?_⟩, ?_⟩
    · simpa [Token.WellFormed, hc] using htext
    · exact fun _ _ d hd => by simpa using hrest d hd
    · simp [Lexeme.chars, Token.chars]

/-- Every text is made of lexemes, all of it or up to a string that is left open. -/
theorem exists_lexed (cs : List Char) : (∃ ls, Lexed [] ls cs) ∨ StringLeftOpen cs := by
  cases cs with
  | nil => exact .inl ⟨[], .nil⟩
  | cons c tail =>
    by_cases hopen : c = '"' ∧ '"' ∉ tail
    · obtain ⟨rfl, hopen⟩ := hopen
      exact .inr ⟨[], tail, .nil, hopen⟩
    · have hclosed : c = '"' → '"' ∈ tail := by tauto
      obtain ⟨l, rest, hl, hsplit⟩ := exists_lexeme hclosed
      -- a lexeme takes at least one character, which is what the recursion goes down by
      have hpos := List.length_pos_iff.2 hl.chars_ne_nil
      have hshorter : rest.length ≤ tail.length := by
        have := congrArg List.length hsplit
        rw [List.length_append, List.length_cons] at this
        omega
      rw [hsplit]
      obtain ⟨ls, hls⟩ | ⟨ls, inside, hls, hinside⟩ := exists_lexed rest
      · exact .inl ⟨l :: ls, .cons hl hls⟩
      · exact .inr ⟨l :: ls, inside, .cons hl hls, hinside⟩
termination_by cs.length

/-! ## Scanning lexemes -/

theorem Scan.place_foldl (s : Scan) (cs : List Char) :
    (cs.foldl step s).place = cs.foldl Span.after s.place := by
  induction cs generalizing s with
  | nil => rfl
  | cons c cs ih => rw [List.foldl_cons, ih, place_step, List.foldl_cons]

/-- What is open ends before the next character, or with the text. -/
def Pending.EndsBefore (next : Option Char) : Pending → Prop
  | .nothing => True
  | .comment => ∀ c ∈ next, c = '\n'
  | .atom _ _ => ∀ c ∈ next, isDelimiter c = true
  | .string _ _ => False

namespace Scan

/-- The scan with whatever was open ended. -/
def closed (s : Scan) : Scan :=
  { s.closeAtom with pending := .nothing }

/-- Between two lexemes a character is taken as if nothing were open. -/
theorem step_closed {s : Scan} {c : Char} (h : s.pending.EndsBefore (some c)) :
    s.closed.step c = s.step c := by
  obtain ⟨pending, place, found⟩ := s
  cases pending with
  | nothing => rfl
  | comment =>
    obtain rfl : c = '\n' := h c rfl
    rfl
  -- nothing but its own closing quote ends a string
  | string start reversed => exact h.elim
  | atom start reversed =>
    have hc : isDelimiter c = true := h c rfl
    simp [step, closed, closeAtom, hc]

theorem foldl_closed {s : Scan} {cs : List Char} (hne : cs ≠ [])
    (h : s.pending.EndsBefore cs.head?) : cs.foldl step s.closed = cs.foldl step s := by
  obtain ⟨c, cs, rfl⟩ := List.exists_cons_of_ne_nil hne
  rw [List.foldl_cons, List.foldl_cons, step_closed h]

/-- Characters other than the line feed are taken into an open comment. -/
theorem foldl_comment (place : Span) (found : List Located) {cs : List Char} (h : '\n' ∉ cs) :
    cs.foldl step ⟨.comment, place, found⟩ = ⟨.comment, cs.foldl Span.after place, found⟩ := by
  induction cs generalizing place with
  | nil => rfl
  | cons c cs ih =>
    obtain ⟨hc, hcs⟩ := not_or.1 (List.mem_cons.not.1 h)
    rw [List.foldl_cons, List.foldl_cons, ← ih _ hcs]
    simp [step, Ne.symm hc]

end Scan

/-- A lexeme leaves its token behind, if it is one, and nothing open that goes on. -/
theorem Lexeme.Before.scan {l : Lexeme} {rest : List Char} (h : l.Before rest) (place : Span)
    (found : List Located) :
    ∃ s, l.chars.foldl Scan.step ⟨.nothing, place, found⟩ = s ∧
      s.closed.found = l.located place ++ found ∧ s.pending.EndsBefore rest.head? := by
  refine ⟨_, rfl, ?_⟩
  cases l with
  | blank c =>
    have hc : isBlank c = true := h
    simp [chars, located, Scan.step, Scan.fresh, hc, Scan.closed, Scan.closeAtom,
      Pending.EndsBefore]
  | comment text =>
    have hfirst : Scan.step ⟨.nothing, place, found⟩ ';' = ⟨.comment, place.after ';', found⟩ := rfl
    rw [chars, List.foldl_cons, hfirst, Scan.foldl_comment _ _ h.1]
    exact ⟨rfl, h.2⟩
  | token t =>
    cases t with
    | leftParen | rightParen | quote => exact ⟨rfl, trivial⟩
    | string text =>
      have hfirst : Scan.step ⟨.nothing, place, found⟩ '"' =
          ⟨.string place [], place.after '"', found⟩ := rfl
      obtain ⟨place', hend⟩ := Scan.foldl_string place [] (place.after '"') found h.1
      rw [chars, Token.chars, List.foldl_cons, hfirst, List.foldl_append, hend]
      -- the closing quote has pushed the token already
      simp [Scan.step, Scan.closed, Scan.closeAtom, located, Pending.EndsBefore]
    | atom text =>
      obtain ⟨⟨hne, hplain⟩, hrest⟩ := h
      obtain ⟨c, cs, hcs⟩ := List.exists_cons_of_ne_nil hne
      rw [hcs, List.forall_mem_cons] at hplain
      have hfirst : Scan.step ⟨.nothing, place, found⟩ c =
          ⟨.atom place [c], place.after c, found⟩ := by
        have := hplain.1
        simp_all [Scan.step, Scan.fresh, isDelimiter]
      obtain ⟨place', hend⟩ := Scan.foldl_atom place [c] (place.after c) found hplain.2
      rw [chars, Token.chars, hcs, List.foldl_cons, hfirst, hend]
      -- the atom is still open, and `closed` pushes it
      refine ⟨?_, hrest text rfl⟩
      simp [Scan.closed, Scan.closeAtom, located, ← hcs]

/-- Scanning lexemes finds their tokens, and leaves nothing open that goes on behind them. -/
theorem Lexed.scan {rest cs : List Char} {ls : List Lexeme} (h : Lexed rest ls cs) {s : Scan}
    (hs : s.pending.EndsBefore cs.head?) :
    ∃ spelling s', cs = spelling ++ rest ∧ spelling.foldl Scan.step s = s' ∧
      s'.closed.found = (Lexeme.locate s.place ls).reverse ++ s.closed.found ∧
      s'.pending.EndsBefore rest.head? := by
  induction h generalizing s with
  | nil => exact ⟨[], s, rfl, rfl, rfl, hs⟩
  | @cons l ls cs hl _ ih =>
    have hne := hl.chars_ne_nil
    rw [List.head?_append_of_ne_nil _ hne] at hs
    -- the lexeme is scanned as if nothing were open, and the others are scanned behind it
    obtain ⟨s₁, hs₁, hfound₁, hends₁⟩ := hl.scan s.place s.closed.found
    have hplace : s.closed = ⟨.nothing, s.place, s.closed.found⟩ := by
      rw [Scan.closed, Scan.place_closeAtom]
    rw [← hplace, Scan.foldl_closed hne hs] at hs₁
    obtain ⟨spelling, s', rfl, hs', hfound', hends'⟩ := ih hends₁
    refine ⟨l.chars ++ spelling, s', by rw [List.append_assoc], ?_, ?_, hends'⟩
    · rw [List.foldl_append, hs₁, hs']
    · rw [hfound', hfound₁, ← hs₁, Scan.place_foldl, Lexeme.locate, List.reverse_append,
        List.append_assoc]
      cases l <;> rfl

/-- The tokens of a text made of lexemes. -/
theorem Lexed.scan_eq_ok {text : String} {ls : List Lexeme} (h : Lexed [] ls text.toList) :
    Token.scan text = .ok (Lexeme.locate .start ls) := by
  obtain ⟨spelling, s, hspelling, hs, hfound, hends⟩ := h.scan (s := .start) trivial
  rw [List.append_nil] at hspelling
  refine Scan.finish_eq_ok_iff.2 ⟨?_, ?_⟩
  -- an open string would not end with the text
  · rintro ⟨start, reversed, hopen⟩
    rw [hspelling, hs] at hopen
    rw [hopen] at hends
    exact hends
  · rw [hspelling, hs]
    change s.closed.found.reverse = _
    rw [hfound]
    simp [Scan.closed, Scan.closeAtom, Scan.start]

/-- A text with a string left open has no tokens. -/
theorem StringLeftOpen.scan_eq_error {text : String} (h : StringLeftOpen text.toList) :
    Token.scan text = .error (.unfinished .string) := by
  obtain ⟨ls, inside, hls, hinside⟩ := h
  obtain ⟨spelling, s, hspelling, hs, -, hends⟩ := hls.scan (s := .start) trivial
  -- the quote is not part of what stands before it, so it opens a string
  have hquote : s.step '"' =
      ⟨.string s.closed.place [], s.closed.place.after '"', s.closed.found⟩ := by
    rw [← Scan.step_closed hends]
    rfl
  obtain ⟨place, hend⟩ := Scan.foldl_string s.closed.place [] (s.closed.place.after '"')
    s.closed.found hinside
  refine Scan.finish_of_inString ⟨s.closed.place, inside.reverse ++ [], ?_⟩
  rw [hspelling, List.foldl_append, hs, List.foldl_cons, hquote, hend]

/-! ## Places -/

/-- The number of characters since the last line feed. -/
def sinceLine (cs : List Char) : Nat :=
  (cs.reverse.takeWhile (· ≠ '\n')).length

/-- The place after some characters: one line more for every line feed, and one column more for
every character since the last one. -/
theorem Span.foldl_after (cs : List Char) :
    cs.foldl Span.after .start = ⟨1 + cs.count '\n', 1 + sinceLine cs⟩ := by
  -- from the end, since the last line feed is what the column counts from
  induction cs using List.reverseRecOn with
  | nil => rfl
  | append_singleton cs c ih =>
    rw [List.foldl_append, ih, List.foldl_cons, List.foldl_nil, after, sinceLine, sinceLine,
      List.reverse_append, List.count_append]
    by_cases hc : c = '\n'
    · simp [hc, Nat.add_assoc]
    · simp [hc, Nat.add_comm]

/-! ## Ranges -/

/-- A range of characters, by the positions of the first one and of the first one behind it. -/
structure CharRange where
  start : Nat
  stop : Nat

/-- The position lies in the range. -/
def CharRange.Holds (r : CharRange) (i : Nat) : Prop :=
  r.start ≤ i ∧ i < r.stop

/-- The token takes up the range of the text: it is spelt there, it starts at its span, and if it is
an atom, no character next to it could belong to it. -/
structure Located.Occupies (cs : List Char) (t : Located) (r : CharRange) : Prop where
  spelling : cs = cs.take r.start ++ (t.token.chars ++ cs.drop r.stop)
  wellFormed : t.token.WellFormed
  line : t.span.line = 1 + (cs.take r.start).count '\n'
  col : t.span.col = 1 + sinceLine (cs.take r.start)
  maximal : ∀ text, t.token = .atom text →
    (∀ c ∈ (cs.take r.start).getLast?, isDelimiter c = true) ∧
      ∀ c ∈ (cs.drop r.stop).head?, isDelimiter c = true

/-- The range is a comment, from a semicolon to the next line feed or to the end. -/
structure CommentAt (cs : List Char) (r : CharRange) : Prop where
  semicolon : cs[r.start]? = some ';'
  line : ∀ i, r.Holds i → cs[i]? ≠ some '\n'
  stop : r.stop = cs.length ∨ cs[r.stop]? = some '\n'

/-- From a position on, the ranges follow each other in the text without overlapping, and whatever
is outside them is blank or part of a comment that is outside them as a whole. -/
structure TilesFrom (first : Nat) (cs : List Char) (ranges : List CharRange) : Prop where
  within : ∀ r ∈ ranges, first ≤ r.start ∧ r.start < r.stop ∧ r.stop ≤ cs.length
  ordered : ranges.Pairwise fun r r' => r.stop ≤ r'.start
  outside : ∀ i c, first ≤ i → cs[i]? = some c → (∀ r ∈ ranges, ¬ r.Holds i) →
    isBlank c = true ∨ ∃ comment : CharRange, CommentAt cs comment ∧ first ≤ comment.start ∧
      comment.Holds i ∧ ∀ r ∈ ranges, r.stop ≤ comment.start ∨ comment.stop ≤ r.start

namespace TilesFrom

variable {cs : List Char} {ranges : List CharRange} {n m : Nat}

theorem nil (cs : List Char) : TilesFrom cs.length cs [] := by
  refine ⟨by simp, .nil, fun i c hi hc _ => ?_⟩
  have := (List.getElem?_eq_some_iff.1 hc).1
  omega

/-- Ranges that tile the text from a position on tile it from further back, if the characters in
between are outside as well. -/
theorem extend (h : TilesFrom m cs ranges) (hle : n ≤ m)
    (hgap : ∀ i c, n ≤ i → i < m → cs[i]? = some c → isBlank c = true ∨
      ∃ comment : CharRange, CommentAt cs comment ∧ n ≤ comment.start ∧ comment.Holds i ∧
        comment.stop ≤ m) : TilesFrom n cs ranges := by
  refine ⟨fun r hr => ?_, h.ordered, fun i c hi hc hout => ?_⟩
  · have := h.within r hr
    omega
  by_cases him : i < m
  · obtain hblank | ⟨comment, hcomment, hstart, hholds, hstop⟩ := hgap i c hi him hc
    · exact .inl hblank
    -- the ranges come after the comment
    · exact .inr ⟨comment, hcomment, hstart, hholds,
        fun r hr => .inr (hstop.trans (h.within r hr).1)⟩
  · obtain hblank | ⟨comment, hcomment, hstart, hholds, hapart⟩ :=
      h.outside i c (by omega) hc hout
    · exact .inl hblank
    · exact .inr ⟨comment, hcomment, by omega, hholds, hapart⟩

/-- One more range in front. -/
theorem cons (h : TilesFrom m cs ranges) (hlt : n < m) (hle : m ≤ cs.length) :
    TilesFrom n cs (⟨n, m⟩ :: ranges) := by
  refine ⟨List.forall_mem_cons.2 ⟨⟨Nat.le_refl n, hlt, hle⟩, fun r hr => ?_⟩,
    List.pairwise_cons.2 ⟨fun r hr => (h.within r hr).1, h.ordered⟩, fun i c hi hc hout => ?_⟩
  · have := h.within r hr
    omega
  · obtain ⟨hown, hothers⟩ := List.forall_mem_cons.1 hout
    -- outside the new range is behind it, so the comment is found there and starts behind it too
    have hm : m ≤ i := Nat.le_of_not_lt fun him => hown ⟨hi, him⟩
    obtain hblank | ⟨comment, hcomment, hstart, hholds, hapart⟩ := h.outside i c hm hc hothers
    · exact .inl hblank
    · exact .inr ⟨comment, hcomment, by omega, hholds,
        List.forall_mem_cons.2 ⟨.inl hstart, hapart⟩⟩

end TilesFrom

/-- Where a lexeme ends, at least one of the characters on both sides is a delimiter. -/
theorem Lexeme.Before.delimits {l : Lexeme} {rest : List Char} (h : l.Before rest) :
    ∀ c ∈ l.chars.getLast?, ∀ d ∈ rest.head?, isDelimiter c = true ∨ isDelimiter d = true := by
  intro c hc d hd
  cases l with
  | blank b =>
    have hb : isBlank b = true := h
    obtain rfl : b = c := by simpa [chars] using hc
    exact .inl (by simp [isDelimiter, hb])
  | comment text =>
    obtain rfl := h.2 d hd
    exact .inr rfl
  | token t =>
    cases t with
    | leftParen | rightParen | quote =>
      obtain rfl := Option.some.inj hc
      exact .inl rfl
    | string text =>
      rw [chars, Token.chars, ← List.cons_append, List.getLast?_concat] at hc
      obtain rfl := Option.some.inj hc
      exact .inl rfl
    | atom text => exact .inr (h.2 text rfl d hd)

/-- A comment that is a lexeme takes up its range. -/
theorem Lexeme.Before.commentAt {before text rest : List Char}
    (h : (Lexeme.comment text).Before rest) :
    CommentAt (before ++ (';' :: text ++ rest))
      ⟨before.length, before.length + (';' :: text).length⟩ := by
  refine ⟨by simp, fun i hi hline => ?_, ?_⟩
  · obtain ⟨hge, hlt⟩ : before.length ≤ i ∧ i < before.length + (';' :: text).length := hi
    rw [List.getElem?_append_right hge, List.getElem?_append_left (by omega)] at hline
    obtain hfirst | hmem := List.mem_cons.1 (List.mem_of_getElem? hline)
    · exact absurd hfirst (by decide)
    · exact h.1 hmem
  · cases rest with
    | nil => exact .inl (by simp)
    | cons c rest =>
      obtain rfl := h.2 c rfl
      exact .inr (by simp)

/-- A token that is a lexeme takes up its range. -/
theorem Lexeme.Before.occupies {before rest : List Char} {t : Token}
    (h : (Lexeme.token t).Before rest)
    (hleft : ∀ c ∈ before.getLast?, ∀ d ∈ (t.chars ++ rest).head?,
      isDelimiter c = true ∨ isDelimiter d = true) :
    Located.Occupies (before ++ (t.chars ++ rest)) ⟨t, before.foldl Span.after .start⟩
      ⟨before.length, before.length + t.chars.length⟩ := by
  have htake : (before ++ (t.chars ++ rest)).take before.length = before := List.take_left
  have hdrop : (before ++ (t.chars ++ rest)).drop (before.length + t.chars.length) = rest := by
    rw [← List.append_assoc, ← List.length_append, List.drop_left]
  refine ⟨by rw [htake, hdrop], h.1, ?_, ?_, fun text hatom => ?_⟩
  · rw [htake, Span.foldl_after]
  · rw [htake, Span.foldl_after]
  · rw [htake, hdrop]
    refine ⟨fun c hc => ?_, h.2 text hatom⟩
    -- the first character of the atom is no delimiter, so the one before it is
    obtain ⟨hne, hplain⟩ : (Token.atom text).WellFormed := hatom ▸ h.1
    obtain ⟨d, ds, hds⟩ := List.exists_cons_of_ne_nil hne
    have hd : isDelimiter d = false := hplain d (by simp [hds])
    have hfirst : d ∈ (t.chars ++ rest).head? := by
      have hatom : t = Token.atom text := hatom
      simp [hatom, Token.chars, hds]
    exact (hleft c hc d hfirst).resolve_right (by simp [hd])

/-- The tokens among lexemes take up ranges of the text, and nothing else is outside them than what
may stand between tokens. -/
theorem Lexed.tiles {cs : List Char} {ls : List Lexeme} (h : Lexed [] ls cs) (before : List Char)
    (hleft : ∀ c ∈ before.getLast?, ∀ d ∈ cs.head?, isDelimiter c = true ∨ isDelimiter d = true) :
    ∃ ranges, TilesFrom before.length (before ++ cs) ranges ∧
      List.Forall₂ (Located.Occupies (before ++ cs))
        (Lexeme.locate (before.foldl Span.after .start) ls) ranges := by
  induction h generalizing before with
  | nil => exact ⟨[], by simpa using TilesFrom.nil before, .nil⟩
  | @cons l ls cs hl hls ih =>
    have hne := hl.chars_ne_nil
    have hpos := List.length_pos_iff.2 hne
    -- `hleft` for the rest, whose last character before it is now the lexeme's
    have hnext : ∀ c ∈ (before ++ l.chars).getLast?, ∀ d ∈ cs.head?,
        isDelimiter c = true ∨ isDelimiter d = true := by
      rw [List.getLast?_append_of_ne_nil _ hne]
      exact hl.delimits
    obtain ⟨ranges, htiles, hoccupy⟩ := ih _ hnext
    rw [List.append_assoc, List.length_append] at htiles
    rw [List.append_assoc, List.foldl_append] at hoccupy
    rw [Lexeme.locate]
    -- what is no token only widens the gap before the first range
    cases l with
    | blank c =>
      refine ⟨ranges, htiles.extend (by omega) fun i d hi hlt hd => .inl ?_, hoccupy⟩
      have hc : isBlank c = true := hl
      obtain rfl : i = before.length := by
        simp only [Lexeme.chars, List.length_singleton] at hlt
        omega
      obtain rfl : c = d := by simpa [Lexeme.chars] using hd
      exact hc
    | comment text =>
      refine ⟨ranges, htiles.extend (by omega) fun i d hi hlt hd => .inr ?_, hoccupy⟩
      exact ⟨_, hl.commentAt, Nat.le_refl _, ⟨hi, hlt⟩, Nat.le_refl _⟩
    | token t =>
      refine ⟨⟨before.length, before.length + t.chars.length⟩ :: ranges, ?_, .cons ?_ hoccupy⟩
      · refine htiles.cons (by simpa [Lexeme.chars] using hpos) ?_
        simp [Lexeme.chars]
      · exact hl.occupies hleft

/-- Scanning loses nothing. It fails exactly on a text that leaves a string open. Of any other text
it finds tokens that take up ranges of the text, one after the other: each range spells its token,
each span counts the lines and the columns before its range, and every character outside the ranges
is blank or in a comment. -/
theorem tokens_are_lossless (text : String) :
    (StringLeftOpen text.toList → Token.scan text = .error (.unfinished .string)) ∧
    (¬ StringLeftOpen text.toList → ∃ ts ranges, Token.scan text = .ok ts ∧
      TilesFrom 0 text.toList ranges ∧
      List.Forall₂ (Located.Occupies text.toList) ts ranges) := by
  refine ⟨fun h => h.scan_eq_error, fun h => ?_⟩
  obtain ⟨ls, hls⟩ := (exists_lexed text.toList).resolve_right h
  obtain ⟨ranges, htiles, hoccupy⟩ := hls.tiles [] (by simp)
  exact ⟨_, ranges, hls.scan_eq_ok, htiles, hoccupy⟩

end StackLisp
