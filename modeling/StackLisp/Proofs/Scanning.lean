import Mathlib.Data.List.Forall2
import StackLisp.Text.Token

/-!
# Scanning parts of a text

A scan goes through a text once. What it finds in a part of the text does not depend on what stood
before that part, as long as nothing was left open there.

- `Scan.Follows`: two scans side by side, one of them behind tokens found before and at other
  places;
- `Scan.tokens_foldl`: the tokens of a part, whatever stood before it;
- `Token.scan_append_line`: the tokens of two texts with a line feed between them;
- `Token.scan_sound`: the form of tokens, and the lines on which they start.
-/

namespace StackLisp

/-! ## Behind other tokens -/

/-- The tokens are the same, and their places are related. -/
structure Located.Alike (R : Span → Span → Prop) (t t' : Located) : Prop where
  token : t.token = t'.token
  span : R t.span t'.span

/-- The same is open, and the places where it was opened are related. -/
inductive Pending.Alike (R : Span → Span → Prop) : Pending → Pending → Prop
  | nothing : Alike R .nothing .nothing
  | comment : Alike R .comment .comment
  | string {start start' : Span} (reversed : List Char) (h : R start start') :
      Alike R (.string start reversed) (.string start' reversed)
  | atom {start start' : Span} (reversed : List Char) (h : R start start') :
      Alike R (.atom start reversed) (.atom start' reversed)

/-- Tokens alike, found after others. -/
def Located.Behind (R : Span → Span → Prop) (before found found' : List Located) : Prop :=
  ∃ new, found = new ++ before ∧ List.Forall₂ (Located.Alike R) new found'

theorem Located.Behind.cons {R : Span → Span → Prop} {before found found' : List Located}
    (h : Located.Behind R before found found') {start start' : Span} (hstart : R start start')
    (token : Token) :
    Located.Behind R before (⟨token, start⟩ :: found) (⟨token, start'⟩ :: found') := by
  obtain ⟨new, rfl, hnew⟩ := h
  exact ⟨⟨token, start⟩ :: new, rfl, .cons ⟨rfl, hstart⟩ hnew⟩

/-- The scan `s` is the scan `s'` at other places, behind tokens that were found before. -/
structure Scan.Follows (R : Span → Span → Prop) (before : List Located) (s s' : Scan) : Prop where
  pending : s.pending.Alike R s'.pending
  place : R s.place s'.place
  found : Located.Behind R before s.found s'.found

namespace Scan

/-- No string and no comment is open. -/
def Settled (s : Scan) : Prop :=
  s.closeAtom.pending = .nothing

theorem step_of_settled {s : Scan} {c : Char} (hs : s.Settled) (hc : isDelimiter c = true) :
    s.step c = s.closeAtom.fresh c := by
  obtain ⟨pending, place, found⟩ := s
  cases pending with
  | nothing => rfl
  | atom start reversed => simp [step, hc]
  | _ => cases hs

theorem step_of_nothing {s : Scan} {c : Char} (hs : s.pending = .nothing) :
    s.step c = s.fresh c := by
  rw [step, hs]

variable {R : Span → Span → Prop} {before : List Located} {s s' : Scan}

theorem Follows.closeAtom (h : Follows R before s s') :
    Follows R before s.closeAtom s'.closeAtom := by
  obtain ⟨pending, place, found⟩ := s
  obtain ⟨pending', place', found'⟩ := s'
  obtain ⟨hpending, hplace, hfound⟩ := h
  cases hpending with
  | nothing => exact ⟨.nothing, hplace, hfound⟩
  | comment => exact ⟨.comment, hplace, hfound⟩
  | string reversed hstart => exact ⟨.string reversed hstart, hplace, hfound⟩
  | atom reversed hstart => exact ⟨.nothing, hplace, hfound.cons hstart _⟩

/-- The relation between places holds on after every character. -/
def Advances (R : Span → Span → Prop) : Prop :=
  ∀ {a b : Span} (c : Char), R a b → R (a.after c) (b.after c)

theorem Follows.fresh (hR : Advances R) (h : Follows R before s s') (c : Char) :
    Follows R before (s.fresh c) (s'.fresh c) := by
  obtain ⟨hpending, hplace, hfound⟩ := h
  have hafter := hR c hplace
  unfold Scan.fresh
  split
  · exact ⟨hpending, hafter, hfound⟩
  split
  · exact ⟨.comment, hafter, hfound⟩
  split
  · exact ⟨hpending, hafter, hfound.cons hplace _⟩
  split
  · exact ⟨hpending, hafter, hfound.cons hplace _⟩
  split
  · exact ⟨hpending, hafter, hfound.cons hplace _⟩
  split
  · exact ⟨.string [] hplace, hafter, hfound⟩
  · exact ⟨.atom [c] hplace, hafter, hfound⟩

/-- What was found before and where has no influence on what a character does. -/
theorem Follows.step (hR : Advances R) (h : Follows R before s s') (c : Char) :
    Follows R before (s.step c) (s'.step c) := by
  have hafter := hR c h.place
  have hpending := h.pending
  -- what is open decides what a character does, and it is the same on both sides
  unfold Scan.step
  generalize hp : s.pending = p at hpending ⊢
  generalize hp' : s'.pending = p' at hpending ⊢
  cases hpending with
  | nothing => exact h.fresh hR c
  | comment =>
    refine ⟨?_, hafter, h.found⟩
    dsimp only
    split
    · exact .nothing
    · exact .comment
  | string reversed hstart =>
    dsimp only
    split
    · exact ⟨.nothing, hafter, h.found.cons hstart _⟩
    · exact ⟨.string (c :: reversed) hstart, hafter, h.found⟩
  | atom reversed hstart =>
    dsimp only
    split
    · exact h.closeAtom.fresh hR c
    · exact ⟨.atom (c :: reversed) hstart, hafter, h.found⟩

theorem Follows.foldl (hR : Advances R) (h : Follows R before s s') (cs : List Char) :
    Follows R before (cs.foldl Scan.step s) (cs.foldl Scan.step s') := by
  induction cs generalizing s s' with
  | nil => exact h
  | cons c cs ih => exact ih (h.step hR c)

/-! ## The tokens of a scan -/

/-- A string is open. -/
def InString (s : Scan) : Prop :=
  ∃ start reversed, s.pending = .string start reversed

/-- The tokens found so far, with an atom that is still open. -/
def tokens (s : Scan) : List Token :=
  s.closeAtom.found.reverse.map Located.token

theorem finish_eq_ok_iff {ts : List Located} :
    s.finish = .ok ts ↔ ¬ s.InString ∧ s.closeAtom.found.reverse = ts := by
  unfold finish InString
  split <;> simp_all

theorem finish_of_inString (h : s.InString) : s.finish = .error (.unfinished .string) := by
  obtain ⟨start, reversed, hs⟩ := h
  rw [finish, hs]

theorem map_token_of_finish {ts : List Located} (h : s.finish = .ok ts) :
    ts.map Located.token = s.tokens := by
  rw [tokens, (finish_eq_ok_iff.1 h).2]

theorem Settled.not_inString (h : s.Settled) : ¬ s.InString := by
  rintro ⟨start, reversed, hs⟩
  simp [Settled, Scan.closeAtom, hs] at h

theorem tokens_of_nothing (h : s.pending = .nothing) :
    s.tokens = s.found.reverse.map Located.token := by
  rw [tokens, Scan.closeAtom, h]

theorem tokens_closeAtom (s : Scan) : s.closeAtom.tokens = s.tokens := by
  obtain ⟨pending, place, found⟩ := s
  cases pending <;> rfl

theorem Follows.inString (h : Follows R before s s') : s.InString ↔ s'.InString := by
  unfold InString
  have hpending := h.pending
  generalize s.pending = p at hpending ⊢
  generalize s'.pending = p' at hpending ⊢
  cases hpending <;> simp

theorem Follows.settled (h : Follows R before s s') : s.Settled ↔ s'.Settled := by
  unfold Settled
  have hpending := h.closeAtom.pending
  generalize s.closeAtom.pending = p at hpending ⊢
  generalize s'.closeAtom.pending = p' at hpending ⊢
  cases hpending <;> simp

theorem Follows.tokens (h : Follows R before s s') :
    s.tokens = before.reverse.map Located.token ++ s'.tokens := by
  obtain ⟨new, hfound, hnew⟩ := h.closeAtom.found
  have hsame : new.map Located.token = s'.closeAtom.found.map Located.token := by
    rw [← List.forall₂_eq_eq_eq, List.forall₂_map_left_iff, List.forall₂_map_right_iff]
    exact hnew.imp fun _ _ ht => ht.token
  rw [Scan.tokens, Scan.tokens, hfound]
  simp [hsame]

/-- Where nothing is open, a scan goes on as from the start of a text. -/
theorem follows_start (h : s.pending = .nothing) :
    Follows (fun _ _ => True) s.found s .start := by
  refine ⟨?_, trivial, [], rfl, .nil⟩
  rw [h]
  exact .nothing

/-- The tokens of a part of the text behind which nothing is open are those that it has alone. -/
theorem tokens_foldl (h : s.pending = .nothing) (cs : List Char) :
    (cs.foldl Scan.step s).tokens = s.tokens ++ (cs.foldl Scan.step .start).tokens := by
  rw [((follows_start h).foldl (fun _ _ => trivial) cs).tokens, tokens_of_nothing h]

/-! ## Lines -/

theorem place_closeAtom (s : Scan) : s.closeAtom.place = s.place := by
  unfold Scan.closeAtom
  split <;> rfl

theorem place_step (s : Scan) (c : Char) : (s.step c).place = s.place.after c := by
  have hfresh : ∀ s : Scan, (s.fresh c).place = s.place.after c := by
    intro s
    unfold Scan.fresh
    repeat' split
    all_goals rfl
  unfold Scan.step
  split
  · exact hfresh s
  · rfl
  · split <;> rfl
  · split
    · rw [hfresh, place_closeAtom]
    · rfl

theorem line_foldl (s : Scan) (cs : List Char) :
    (cs.foldl Scan.step s).place.line = s.place.line + cs.count '\n' := by
  induction cs generalizing s with
  | nil => rfl
  | cons c cs ih =>
    rw [List.foldl_cons, ih, place_step, Span.after, List.count_cons]
    by_cases hc : c = '\n'
    · subst hc
      simp only [if_true, beq_self_eq_true]
      omega
    · simp [hc]

/-- A line feed outside strings ends what is open. -/
theorem step_newline (h : ¬ s.InString) :
    s.step '\n' =
      { pending := .nothing
        place := { line := s.place.line + 1, col := 1 }
        found := s.closeAtom.found } := by
  obtain ⟨pending, place, found⟩ := s
  cases pending with
  | nothing => rfl
  | comment => rfl
  | string start reversed => exact absurd ⟨start, reversed, rfl⟩ h
  | atom start reversed => rfl

end Scan

/-- The same column some lines further down. -/
def Span.down (n : Nat) (span : Span) : Span :=
  { span with line := span.line + n }

/-- The same token some lines further down. -/
def Located.down (n : Nat) (t : Located) : Located :=
  { t with span := t.span.down n }

theorem Scan.advances_down (n : Nat) : Advances fun a b => a = b.down n := by
  rintro _ b c rfl
  unfold Span.after Span.down
  split
  · simp only [Nat.add_right_comm]
  · rfl

theorem Located.map_down_of_alike {n : Nat} {ts us : List Located}
    (h : List.Forall₂ (Located.Alike fun a b => a = b.down n) ts us) :
    ts = us.map (Located.down n) := by
  rw [← List.forall₂_eq_eq_eq, List.forall₂_map_right_iff]
  refine h.imp fun t t' ht => ?_
  rw [Located.down, ← ht.token, ← ht.span]

theorem Scan.Follows.finish {n : Nat} {before : List Located} {s s' : Scan}
    (h : Follows (fun a b => a = b.down n) before s s') :
    s.finish = s'.finish.map fun ts => before.reverse ++ ts.map (Located.down n) := by
  by_cases hopen : s'.InString
  · rw [finish_of_inString hopen, finish_of_inString (h.inString.2 hopen)]
    rfl
  · obtain ⟨new, hfound, hnew⟩ := h.closeAtom.found
    rw [finish_eq_ok_iff.2 ⟨hopen, rfl⟩]
    refine finish_eq_ok_iff.2 ⟨mt h.inString.1 hopen, ?_⟩
    rw [hfound, Located.map_down_of_alike hnew]
    simp

theorem Located.map_token_down (n : Nat) (ts : List Located) :
    (ts.map (Located.down n)).map Located.token = ts.map Located.token := by
  simp [Function.comp_def, Located.down]

namespace Token

/-- The number of lines of a text. -/
def lineCount (text : String) : Nat :=
  text.toList.count '\n' + 1

/-- A text whose tokens can be told and a text on the lines behind it have the tokens of both, those
of the second one further down. -/
theorem scan_append_line {a : String} {ts : List Located} (h : scan a = .ok ts) (b : String) :
    scan (a ++ "\n" ++ b) =
      (scan b).map fun us => ts ++ us.map (Located.down (lineCount a)) := by
  obtain ⟨hopen, rfl⟩ := Scan.finish_eq_ok_iff.1 h
  obtain ⟨s, hs⟩ : ∃ s, s = a.toList.foldl Scan.step .start := ⟨_, rfl⟩
  have hline : s.place.line = lineCount a := by
    rw [hs, Scan.line_foldl, lineCount, Scan.start, Span.start, Nat.add_comm]
  rw [← hs] at hopen
  -- behind the line feed the second text is scanned as if it stood alone
  have hstart : Scan.Follows (fun x y => x = y.down (lineCount a)) s.closeAtom.found
      (s.step '\n') .start := by
    rw [Scan.step_newline hopen]
    refine ⟨.nothing, ?_, [], rfl, .nil⟩
    simp [Scan.start, Span.start, Span.down, hline, Nat.add_comm]
  have hend := hstart.foldl (Scan.advances_down _) b.toList
  have hscan : scan (a ++ "\n" ++ b) = (b.toList.foldl Scan.step (s.step '\n')).finish := by
    simp [scan, hs]
  rw [hscan, hend.finish, scan, ← hs]

/-- Behind a text whose tokens can be told, the tokens of the whole are those of both parts. -/
theorem scan_behind_line {a b : String} {ts us : List Located} (ha : scan a = .ok us)
    (h : scan (a ++ "\n" ++ b) = .ok ts) :
    ∃ vs, scan b = .ok vs ∧ ts = us ++ vs.map (Located.down (lineCount a)) := by
  rw [scan_append_line ha] at h
  cases hb : scan b with
  | error error =>
    rw [hb] at h
    cases h
  | ok vs =>
    rw [hb] at h
    exact ⟨vs, rfl, (Except.ok.inj h).symm⟩

end Token

/-! ## The form of tokens and the lines they start on -/

/-- The form that a token has: an atom is not empty and holds no delimiter, and a string holds no
double quote. -/
def Token.WellFormed : Token → Prop
  | .atom text => text.toList ≠ [] ∧ ∀ c ∈ text.toList, isDelimiter c = false
  | .string text => '"' ∉ text.toList
  | _ => True

/-- A token has its form, and starts within the lines so far. -/
structure Located.Sound (last : Nat) (t : Located) : Prop where
  wellFormed : t.token.WellFormed
  one_le : 1 ≤ t.span.line
  le_last : t.span.line ≤ last

theorem Located.Sound.mono {last last' : Nat} {t : Located} (h : t.Sound last)
    (hle : last ≤ last') : t.Sound last' :=
  ⟨h.wellFormed, h.one_le, Nat.le_trans h.le_last hle⟩

theorem Span.line_le_after (span : Span) (c : Char) : span.line ≤ (span.after c).line := by
  unfold Span.after
  split
  · exact Nat.le_succ _
  · exact Nat.le_refl _

/-- What is open can become a token. -/
def Pending.Sound (last : Nat) : Pending → Prop
  | .string start reversed => (1 ≤ start.line ∧ start.line ≤ last) ∧ '"' ∉ reversed
  | .atom start reversed =>
    (1 ≤ start.line ∧ start.line ≤ last) ∧ reversed ≠ [] ∧ ∀ c ∈ reversed, isDelimiter c = false
  | _ => True

namespace Scan

/-- Everything that was found has its form. -/
structure Sound (s : Scan) : Prop where
  one_le : 1 ≤ s.place.line
  pending : s.pending.Sound s.place.line
  found : ∀ t ∈ s.found, t.Sound s.place.line

theorem Sound.closeAtom {s : Scan} (h : s.Sound) : s.closeAtom.Sound := by
  obtain ⟨pending, place, found⟩ := s
  cases pending with
  | atom start reversed =>
    obtain ⟨hone, ⟨hstart, hne, hchars⟩, hfound⟩ := h
    refine ⟨hone, trivial, List.forall_mem_cons.2 ⟨⟨?_, hstart.1, hstart.2⟩, hfound⟩⟩
    simpa [Token.WellFormed] using ⟨hne, hchars⟩
  | _ => exact h

theorem pending_closeAtom_of_atom {s : Scan} {start : Span} {reversed : List Char}
    (h : s.pending = .atom start reversed) : s.closeAtom.pending = .nothing := by
  rw [Scan.closeAtom, h]

/-- What was found keeps its form as the text goes on. -/
theorem Sound.after {s : Scan} (h : s.Sound) (c : Char) :
    1 ≤ (s.place.after c).line ∧ ∀ t ∈ s.found, t.Sound (s.place.after c).line := by
  have hle := Span.line_le_after s.place c
  exact ⟨Nat.le_trans h.one_le hle, fun t ht => (h.found t ht).mono hle⟩

theorem Sound.fresh {s : Scan} (h : s.Sound) (hs : s.pending = .nothing) (c : Char) :
    (s.fresh c).Sound := by
  have hle := Span.line_le_after s.place c
  obtain ⟨hone, hfound⟩ := h.after c
  have hkeep : s.pending.Sound (s.place.after c).line := by
    rw [hs]
    trivial
  -- a token that is one character starts at the place before it
  have hpush : ∀ token : Token, token.WellFormed →
      ∀ t ∈ ⟨token, s.place⟩ :: s.found, t.Sound (s.place.after c).line := fun token htoken =>
    List.forall_mem_cons.2 ⟨⟨htoken, h.one_le, hle⟩, hfound⟩
  unfold Scan.fresh
  split
  · exact ⟨hone, hkeep, hfound⟩
  split
  · exact ⟨hone, trivial, hfound⟩
  split
  · exact ⟨hone, hkeep, hpush .leftParen trivial⟩
  split
  · exact ⟨hone, hkeep, hpush .rightParen trivial⟩
  split
  · exact ⟨hone, hkeep, hpush .quote trivial⟩
  split
  · exact ⟨hone, ⟨⟨h.one_le, hle⟩, List.not_mem_nil⟩, hfound⟩
  · -- none of the cases above is left, so the character starts an atom
    refine ⟨hone, ⟨⟨h.one_le, hle⟩, List.cons_ne_nil _ _, ?_⟩, hfound⟩
    simp_all [isDelimiter]

/-- A character keeps everything in its form. -/
theorem Sound.step {s : Scan} (h : s.Sound) (c : Char) : (s.step c).Sound := by
  have hle := Span.line_le_after s.place c
  obtain ⟨hone, hfound⟩ := h.after c
  have hpending := h.pending
  -- one case for each state: nothing pending, a comment, a string, an atom
  unfold Scan.step
  split
  · next hs => exact h.fresh hs c
  · refine ⟨hone, ?_, hfound⟩
    dsimp only
    split <;> trivial
  · next start reversed hs =>
    rw [hs] at hpending
    obtain ⟨⟨hfirst, hlast⟩, hchars⟩ := hpending
    split
    · refine ⟨hone, trivial, List.forall_mem_cons.2 ⟨⟨?_, hfirst, Nat.le_trans hlast hle⟩, hfound⟩⟩
      simpa [Token.WellFormed] using hchars
    · next hc =>
      refine ⟨hone, ⟨⟨hfirst, Nat.le_trans hlast hle⟩, ?_⟩, hfound⟩
      simpa [eq_comm] using ⟨hc, hchars⟩
  · next start reversed hs =>
    rw [hs] at hpending
    obtain ⟨⟨hfirst, hlast⟩, -, hchars⟩ := hpending
    split
    · exact h.closeAtom.fresh (pending_closeAtom_of_atom hs) c
    · next hc =>
      refine ⟨hone, ⟨⟨hfirst, Nat.le_trans hlast hle⟩, List.cons_ne_nil _ _, ?_⟩, hfound⟩
      exact List.forall_mem_cons.2 ⟨by simpa using hc, hchars⟩

theorem Sound.foldl {s : Scan} (h : s.Sound) (cs : List Char) : (cs.foldl Scan.step s).Sound := by
  induction cs generalizing s with
  | nil => exact h
  | cons c cs ih => exact ih (h.step c)

end Scan

/-- The tokens of a text have their form, and start on lines of the text. -/
theorem Token.scan_sound {text : String} {ts : List Located} (h : scan text = .ok ts) :
    ∀ t ∈ ts, t.Sound (lineCount text) := by
  obtain ⟨-, rfl⟩ := Scan.finish_eq_ok_iff.1 h
  have hstart : Scan.start.Sound := ⟨Nat.le_refl 1, trivial, List.forall_mem_nil _⟩
  have hend := (hstart.foldl text.toList).closeAtom
  have hline : (text.toList.foldl Scan.step .start).closeAtom.place.line = lineCount text := by
    rw [Scan.place_closeAtom, Scan.line_foldl, lineCount, Scan.start, Span.start, Nat.add_comm]
  intro t ht
  rw [← hline]
  exact hend.found t (List.mem_reverse.1 ht)

end StackLisp
