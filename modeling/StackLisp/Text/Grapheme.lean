import StackLisp.Text.GraphemeTable

/-!
# Grapheme clusters

A user-perceived character may be several code points: a letter with its marks, a Hangul syllable,
a flag, a group of joined pictographs. `Grapheme.clusters` divides a text into such clusters by the
rules for extended grapheme clusters. Whether a character joins the cluster before it depends on
its kind and on a `Context`, what must be known of the characters before it.

`Grapheme.clusters_flatten` says that the clusters make up the text.
-/

namespace StackLisp.Grapheme

/-- The part of a character in a cluster. -/
inductive Kind where
  | other
  | carriageReturn
  | lineFeed
  | control
  /-- A mark or modifier. -/
  | extend
  /-- A mark that joins two consonants. -/
  | linker
  /-- The mark that keeps its neighbours apart. -/
  | nonJoiner
  /-- The mark that joins two pictographs. -/
  | joiner
  /-- A mark that takes up space of its own. -/
  | spacing
  /-- A sign that belongs to the character after it. -/
  | prepend
  /-- One half of a flag. -/
  | regional
  /-- A leading consonant of a Hangul syllable. -/
  | leading
  /-- A vowel of a Hangul syllable. -/
  | vowel
  /-- A trailing consonant of a Hangul syllable. -/
  | trailing
  /-- A whole Hangul syllable without a trailing consonant. -/
  | openSyllable
  /-- A whole Hangul syllable with a trailing consonant. -/
  | closedSyllable
  | pictograph
  /-- A consonant that a linker can join. -/
  | consonant
deriving DecidableEq

/-- The number lies in one of the ranges. -/
def isAmong (ranges : List (Nat × Nat)) (n : Nat) : Bool :=
  ranges.any fun range => range.1 ≤ n && n ≤ range.2

/-- The kind of a whole Hangul syllable. They are numbered by leading consonant and vowel, each
followed by its 27 trailing consonants. -/
def Kind.ofSyllable (n : Nat) : Kind :=
  if (n - 0xAC00) % 28 = 0 then .openSyllable else .closedSyllable

/-- The kind of the character with a code point. -/
def Kind.ofCodePoint (n : Nat) : Kind :=
  if 0x20 ≤ n && n < 0x7F then .other
  else if n = 0xD then .carriageReturn
  else if n = 0xA then .lineFeed
  else if n = 0x200C then .nonJoiner
  else if n = 0x200D then .joiner
  else if isAmong controlRanges n then .control
  else if isAmong extendRanges n then .extend
  else if isAmong linkerRanges n then .linker
  else if isAmong spacingRanges n then .spacing
  else if isAmong prependRanges n then .prepend
  else if 0x1F1E6 ≤ n && n ≤ 0x1F1FF then .regional
  else if isAmong leadingRanges n then .leading
  else if isAmong vowelRanges n then .vowel
  else if isAmong trailingRanges n then .trailing
  else if 0xAC00 ≤ n && n ≤ 0xD7A3 then .ofSyllable n
  else if isAmong pictographRanges n then .pictograph
  else if isAmong consonantRanges n then .consonant
  else .other

namespace Kind

/-- The kind of a character. -/
def of (c : Char) : Kind :=
  ofCodePoint c.toNat

/-- Always a cluster of its own, the two parts of a line end apart. -/
def isControl : Kind → Bool
  | .carriageReturn | .lineFeed | .control => true
  | _ => false

/-- Marks without a place of their own. -/
def isExtend : Kind → Bool
  | .extend | .linker | .nonJoiner => true
  | _ => false

/-- The two kinds stand side by side in a Hangul syllable. -/
def inSyllable : Kind → Kind → Bool
  | .leading, .leading | .leading, .vowel | .leading, .openSyllable
  | .leading, .closedSyllable => true
  | .openSyllable, .vowel | .openSyllable, .trailing => true
  | .vowel, .vowel | .vowel, .trailing => true
  | .closedSyllable, .trailing | .trailing, .trailing => true
  | _, _ => false

end Kind

/-- How far a joined pair of consonants has come. -/
inductive Conjunct where
  | absent
  /-- A consonant and marks. -/
  | started
  /-- A consonant and marks, with a linker among them. -/
  | linked
deriving DecidableEq

/-- What the characters so far mean for the next one. -/
structure Context where
  /-- The kind of the last character, if there is one. -/
  last : Option Kind := none
  /-- They end with a pictograph and marks. -/
  pictograph : Bool := false
  /-- They end with a pictograph, marks and a joiner. -/
  joined : Bool := false
  /-- They end with a consonant and marks. -/
  conjunct : Conjunct := .absent
  /-- They end with an odd number of halves of flags. -/
  halfFlag : Bool := false
deriving DecidableEq

namespace Context

/-- A character of the given kind belongs to the cluster before it. -/
def joins (x : Context) (next : Kind) : Bool :=
  match x.last with
  | none => false
  | some last =>
    if last = .carriageReturn && next = .lineFeed then true
    else if last.isControl || next.isControl then false
    else if last.inSyllable next then true
    else if next.isExtend || next = .joiner || next = .spacing then true
    else if last = .prepend then true
    else match next with
      | .consonant => x.conjunct = .linked
      | .pictograph => x.joined
      | .regional => x.halfFlag
      | _ => false

/-- The state of a joined pair of consonants after one more character. -/
def conjunctAfter (x : Context) (next : Kind) : Conjunct :=
  match next with
  | .consonant => .started
  | .linker => if x.conjunct = .absent then .absent else .linked
  | .extend | .joiner => x.conjunct
  | _ => .absent

/-- The context after one more character. -/
def advance (x : Context) (next : Kind) : Context :=
  { last := some next
    pictograph := next = .pictograph || (x.pictograph && next.isExtend)
    joined := next = .joiner && x.pictograph
    conjunct := x.conjunctAfter next
    halfFlag := next = .regional && !x.halfFlag }

end Context

/-- The state between two characters of a division into clusters. -/
structure Division where
  /-- What is known of the characters so far. -/
  context : Context := {}
  /-- The characters of the last cluster, in reverse. -/
  current : List Char := []
  /-- The clusters before it, the last one first. -/
  closed : List (List Char) := []

namespace Division

/-- The clusters so far, the last one first. -/
def all (d : Division) : List (List Char) :=
  if d.current.isEmpty then d.closed else d.current.reverse :: d.closed

/-- Take one more character. -/
def step (d : Division) (c : Char) : Division :=
  let kind := Kind.of c
  let context := d.context.advance kind
  if d.context.joins kind then { d with context, current := c :: d.current }
  else { context, current := [c], closed := d.all }

/-- The characters taken so far. -/
def taken (d : Division) : List Char :=
  d.all.reverse.flatten

/-- A step takes its character and keeps all others. -/
theorem taken_step (d : Division) (c : Char) : (d.step c).taken = d.taken ++ [c] := by
  unfold step
  by_cases h : d.context.joins (Kind.of c)
  · -- the open cluster grows, also if it was empty
    cases ho : d.current <;> simp [h, ho, taken, all]
  · -- the open cluster is closed
    simp [h, taken, all]

/-- A division takes the characters of a text in order. -/
theorem taken_foldl (text : List Char) (d : Division) :
    (text.foldl step d).taken = d.taken ++ text := by
  induction text generalizing d with
  | nil => simp
  | cons c rest ih => simp [ih, taken_step]

end Division

/-- The clusters of a text, in order. -/
def clusters (text : List Char) : List (List Char) :=
  (text.foldl Division.step {}).all.reverse

/-- The clusters of a text make up the text. -/
theorem clusters_flatten (text : List Char) : (clusters text).flatten = text := by
  have h := Division.taken_foldl text {}
  simpa [clusters, Division.taken, Division.all] using h

end StackLisp.Grapheme
