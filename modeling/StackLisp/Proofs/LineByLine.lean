import StackLisp.Proofs.Balanced
import StackLisp.Proofs.Computation
import StackLisp.Proofs.Printing
import StackLisp.Shell.CommandLine

/-!
# Texts typed line by line

A session collects lines until they are balanced, and submits them together without their outer
white space. Where a text can be read as a whole, its lines submit the same data.

- `Phrase.split_at_boundary`: tokens that are balanced end between two phrases, unless they end with
  a quote mark;
- `Token.Scans.trim`: outer white space has no influence on the tokens;
- `LineBuffer.feedEach_phrases`: by induction on the lines, the buffer and the lines to come are
  always some of the phrases of the text;
- `Repl.feedAll_eq_evaluateEach`: the interpreter evaluates what the lines of a session submit;
- `CommandLine.runWith_session`: so it does in a run of the program, whatever the line editor is;
- `TypedLine.applyBackspaces_eq_text`: a line editor that divides lines into clusters;
- `lines_submit_whole_text`: all of it for a whole text.
-/

namespace StackLisp

open Token

/-! ## Boundaries between phrases -/

namespace Phrase

mutual

/-- Nothing is closed in a phrase before it was opened. -/
theorem excess_nonneg {p : Phrase} {us vs : List Token} (h : p.tokens = us ++ vs) :
    0 ≤ excess us := by
  cases us with
  | nil => exact Int.le_refl 0
  | cons t us =>
    cases p with
    | string text | atom text =>
      obtain ⟨rfl, hnil⟩ := List.cons.inj h
      obtain ⟨rfl, -⟩ := List.append_eq_nil_iff.1 hnil.symm
      simp
    | quoted inner =>
      obtain ⟨rfl, hinner⟩ := List.cons.inj h
      rw [excess_quote]
      exact excess_nonneg hinner
    | list items =>
      obtain ⟨rfl, hitems⟩ := List.cons.inj h
      rw [excess_leftParen]
      obtain ⟨ws, rfl, hws⟩ | ⟨ws, hws, -⟩ := List.append_eq_append_iff.1 hitems
      · -- the closing parenthesis may be there or not
        rw [excess_append, excess_tokensOf]
        obtain ⟨rfl, -⟩ | ⟨rfl, -⟩ := List.append_eq_singleton_iff.1 hws.symm
        · decide
        · decide
      · have := excess_nonneg_of hws
        omega

theorem excess_nonneg_of {ps : List Phrase} {us vs : List Token} (h : tokensOf ps = us ++ vs) :
    0 ≤ excess us := by
  cases ps with
  | nil =>
    obtain ⟨rfl, -⟩ := List.append_eq_nil_iff.1 h.symm
    exact Int.le_refl 0
  | cons p ps =>
    obtain ⟨ws, rfl, hws⟩ | ⟨ws, hws, -⟩ := List.append_eq_append_iff.1 h
    · rw [excess_append, p.excess_tokens, Int.zero_add]
      exact excess_nonneg_of hws
    · exact excess_nonneg hws

end

/-- A part of a phrase from its start on lacks a parenthesis, or ends with a quote mark. -/
theorem excess_pos_or_quote {p : Phrase} {us vs : List Token} (h : p.tokens = us ++ vs)
    (hus : us ≠ []) (hvs : vs ≠ []) : 0 < excess us ∨ us.getLast? = some .quote := by
  -- inside a list its parenthesis is open; behind a quote mark it is the phrase there that counts
  obtain ⟨t, us, rfl⟩ := List.exists_cons_of_ne_nil hus
  cases p with
  | string text | atom text =>
    obtain ⟨-, hnil⟩ := List.cons.inj h
    exact absurd (List.append_eq_nil_iff.1 hnil.symm).2 hvs
  | quoted inner =>
    obtain ⟨rfl, hinner⟩ := List.cons.inj h
    cases us with
    | nil => exact .inr rfl
    | cons u us =>
      rw [excess_quote, List.getLast?_cons_cons]
      exact excess_pos_or_quote hinner (List.cons_ne_nil u us) hvs
  | list items =>
    obtain ⟨rfl, hitems⟩ := List.cons.inj h
    obtain ⟨ws, rfl, hws⟩ | ⟨ws, hws, -⟩ := List.append_eq_append_iff.1 hitems
    · obtain ⟨rfl, -⟩ | ⟨-, rfl⟩ := List.append_eq_singleton_iff.1 hws.symm
      · left
        rw [excess_leftParen, List.append_nil, excess_tokensOf]
        decide
      · exact absurd rfl hvs
    · have := excess_nonneg_of hws
      rw [excess_leftParen]
      omega

/-- Tokens of phrases that lack no parenthesis and do not end with a quote mark are whole
phrases. -/
theorem split_at_boundary {ps : List Phrase} {us vs : List Token} (h : tokensOf ps = us ++ vs)
    (hexcess : excess us ≤ 0) (hquote : us.getLast? ≠ some .quote) :
    ∃ qs rs, ps = qs ++ rs ∧ us = tokensOf qs ∧ vs = tokensOf rs := by
  induction ps generalizing us with
  | nil =>
    obtain ⟨rfl, rfl⟩ := List.append_eq_nil_iff.1 h.symm
    exact ⟨[], [], rfl, rfl, rfl⟩
  | cons p ps ih =>
    obtain ⟨ws, rfl, hws⟩ | ⟨ws, hp, rfl⟩ := List.append_eq_append_iff.1 h
    · -- the first phrase stands before the boundary
      rw [excess_append, p.excess_tokens, Int.zero_add] at hexcess
      have hlast : ws.getLast? ≠ some .quote := by
        intro hws
        rw [List.getLast?_append, hws] at hquote
        exact hquote rfl
      obtain ⟨qs, rs, rfl, rfl, rfl⟩ := ih hws hexcess hlast
      exact ⟨p :: qs, rs, rfl, rfl, rfl⟩
    · -- the boundary is not inside of it
      by_cases hus : us = []
      · subst hus
        exact ⟨[], p :: ps, rfl, rfl, by rw [tokensOf, hp, List.nil_append]⟩
      by_cases hws : ws = []
      · subst hws
        rw [List.append_nil] at hp
        exact ⟨[p], ps, rfl, by simp [tokensOf, hp], rfl⟩
      obtain hpos | hlast := excess_pos_or_quote hp hus hws
      · omega
      · exact absurd hlast hquote

theorem readEach_append (store : Store) (ps qs : List Phrase) :
    readEach store (ps ++ qs) =
      ((readEach store ps).1 ++ (readEach (readEach store ps).2 qs).1,
        (readEach (readEach store ps).2 qs).2) := by
  induction ps generalizing store with
  | nil => rfl
  | cons p ps ih => simp only [List.cons_append, readEach, ih]

end Phrase

/-! ## Texts without their outer white space -/

namespace Scan

variable {s : Scan} {c : Char}

/-- A blank is no token, and opens and ends no string. -/
theorem step_blank (s : Scan) (hc : isBlank c = true) :
    ((s.step c).InString ↔ s.InString) ∧ (s.step c).tokens = s.tokens := by
  have hquote : c ≠ '"' := by
    rintro rfl
    cases hc
  obtain ⟨pending, place, found⟩ := s
  cases pending with
  | nothing => simp [step, fresh, hc, InString, tokens, closeAtom]
  | comment =>
    by_cases hline : c = '\n' <;> simp [step, hline, InString, tokens, closeAtom]
  | string start reversed => simp [step, hquote, InString, tokens, closeAtom]
  | atom start reversed => simp [step, isDelimiter, hc, fresh, InString, tokens, closeAtom]

theorem foldl_blank (s : Scan) {cs : List Char} (hcs : ∀ c ∈ cs, isBlank c = true) :
    ((cs.foldl step s).InString ↔ s.InString) ∧ (cs.foldl step s).tokens = s.tokens := by
  induction cs generalizing s with
  | nil => exact ⟨Iff.rfl, rfl⟩
  | cons c cs ih =>
    obtain ⟨hc, hcs⟩ := List.forall_mem_cons.1 hcs
    obtain ⟨hstring, htokens⟩ := s.step_blank hc
    obtain ⟨hstrings, htokenss⟩ := ih (s.step c) hcs
    exact ⟨hstrings.trans hstring, htokenss.trans htokens⟩

theorem pending_foldl_blank (hs : s.pending = .nothing) {cs : List Char}
    (hcs : ∀ c ∈ cs, isBlank c = true) : (cs.foldl step s).pending = .nothing := by
  induction cs generalizing s with
  | nil => exact hs
  | cons c cs ih =>
    obtain ⟨hc, hcs⟩ := List.forall_mem_cons.1 hcs
    refine ih ?_ hcs
    rw [step_of_nothing hs, fresh, if_pos hc]
    exact hs

end Scan

/-- The text has these tokens, wherever they stand. -/
def Token.Scans (text : String) (ts : List Token) : Prop :=
  ∃ us, scan text = .ok us ∧ us.map Located.token = ts

theorem Token.scans_iff {text : String} {ts : List Token} :
    Scans text ts ↔ ¬ (text.toList.foldl Scan.step .start).InString ∧
      (text.toList.foldl Scan.step .start).tokens = ts := by
  constructor
  · rintro ⟨us, hscan, rfl⟩
    exact ⟨(Scan.finish_eq_ok_iff.1 hscan).1, (Scan.map_token_of_finish hscan).symm⟩
  · rintro ⟨hopen, rfl⟩
    exact ⟨_, Scan.finish_eq_ok_iff.2 ⟨hopen, rfl⟩, rfl⟩

/-- What trimming takes away is white space at both ends. -/
theorem toList_trim (text : String) :
    ∃ lead trail, text.toList = lead ++ ((trim text).toList ++ trail) ∧
      (∀ c ∈ lead, isWhiteSpace c = true) ∧ ∀ c ∈ trail, isWhiteSpace c = true := by
  let rest := text.toList.dropWhile isWhiteSpace
  refine ⟨text.toList.takeWhile isWhiteSpace, (rest.reverse.takeWhile isWhiteSpace).reverse,
    ?_, fun c => List.mem_takeWhile_imp, fun c hc => ?_⟩
  · rw [trim, String.toList_ofList, ← List.reverse_append, List.takeWhile_append_dropWhile,
      List.reverse_reverse, List.takeWhile_append_dropWhile]
  · exact List.mem_takeWhile_imp (List.mem_reverse.1 hc)

/-- Where white space separates tokens, a text and the text without its outer white space have the
same tokens. -/
theorem Token.Scans.trim {text : String} {ts : List Token} (h : Scans text ts)
    (hblank : ∀ c ∈ text.toList, isWhiteSpace c = true → isBlank c = true) :
    Scans (trim text) ts := by
  obtain ⟨lead, trail, htext, hlead, htrail⟩ := toList_trim text
  rw [htext] at hblank
  have hlead : ∀ c ∈ lead, isBlank c = true := fun c hc =>
    hblank c (List.mem_append_left _ hc) (hlead c hc)
  have htrail : ∀ c ∈ trail, isBlank c = true := fun c hc =>
    hblank c (List.mem_append_right _ (List.mem_append_right _ hc)) (htrail c hc)
  rw [scans_iff, htext, List.foldl_append, List.foldl_append] at h
  rw [scans_iff]
  -- behind the leading blanks nothing is open, so the rest is scanned as from the start
  have hstart := Scan.pending_foldl_blank (s := .start) rfl hlead
  have hnone : (lead.foldl Scan.step .start).tokens = [] := (Scan.foldl_blank .start hlead).2
  obtain ⟨hstring, htokens⟩ := Scan.foldl_blank
    ((StackLisp.trim text).toList.foldl Scan.step (lead.foldl Scan.step .start)) htrail
  rw [hstring, htokens, Scan.tokens_foldl hstart, hnone, List.nil_append] at h
  refine ⟨fun hopen => h.1 ?_, h.2⟩
  exact ((Scan.follows_start hstart).foldl (fun _ _ => trivial) _).inString.2 hopen

/-! ## Lines -/

namespace Located

/-- The last of the tokens that start on a line. -/
def lastOn (line : Nat) (ts : List Located) : Option Located :=
  (ts.filter fun t => t.span.line = line).getLast?

/-- No line's last token is a quote mark. -/
def QuotesFollowed (ts : List Located) : Prop :=
  ∀ t ∈ ts, lastOn t.span.line ts = some t → t.token ≠ .quote

theorem lastOn_down (line n : Nat) (ts : List Located) :
    lastOn (line + n) (ts.map (Located.down n)) = (lastOn line ts).map (Located.down n) := by
  have hfilter : (ts.map (Located.down n)).filter (fun t => t.span.line = line + n) =
      (ts.filter fun t => t.span.line = line).map (Located.down n) := by
    rw [List.filter_map]
    congr 1
    simp [Function.comp_def, Located.down, Span.down]
  rw [lastOn, lastOn, hfilter, List.getLast?_map]

variable {us vs : List Located} {n : Nat}

/-- Tokens further down are followed when all are. -/
theorem QuotesFollowed.right (h : QuotesFollowed (us ++ vs.map (Located.down n))) :
    QuotesFollowed vs := by
  intro t ht hlast
  -- a last token of the second part is a last token of the whole
  have hdown : lastOn (t.down n).span.line (us ++ vs.map (Located.down n)) = some (t.down n) := by
    change lastOn (t.span.line + n) _ = _
    have := lastOn_down t.span.line n vs
    rw [hlast, lastOn] at this
    rw [lastOn, List.filter_append, List.getLast?_append, this]
    rfl
  exact h (t.down n) (List.mem_append_right us (List.mem_map_of_mem ht)) hdown

/-- The last token before lines further down is the last one of its line. -/
theorem QuotesFollowed.left (h : QuotesFollowed (us ++ vs.map (Located.down n)))
    (hus : ∀ t ∈ us, t.span.line ≤ n) (hvs : ∀ t ∈ vs, 1 ≤ t.span.line) :
    (us.map Located.token).getLast? ≠ some .quote := by
  rw [List.getLast?_map]
  intro hquote
  obtain ⟨t, ht, htoken⟩ := Option.map_eq_some_iff.1 hquote
  obtain ⟨init, rfl⟩ := List.getLast?_eq_some_iff.1 ht
  have hline := hus t (by simp)
  -- the lines further down are other lines
  have hnone : (vs.map (Located.down n)).filter (fun u => u.span.line = t.span.line) = [] := by
    rw [List.filter_eq_nil_iff, List.forall_mem_map]
    intro u hu
    have := hvs u hu
    have hbelow : (u.down n).span.line = u.span.line + n := rfl
    rw [decide_eq_true_eq]
    omega
  have hlast : lastOn t.span.line ((init ++ [t]) ++ vs.map (Located.down n)) = some t := by
    rw [lastOn, List.filter_append, hnone, List.append_nil, List.filter_append]
    simp
  exact h t (by simp) hlast htoken

end Located

/-- The lines of a text, split at the line feeds. -/
def linesOf (text : String) : List String :=
  (text.toList.splitOn '\n').map String.ofList

/-- A text with further lines behind it. -/
def withLines (text : String) (lines : List String) : String :=
  lines.foldl (fun text line => text ++ "\n" ++ line) text

theorem withLines_append (text line : String) (lines : List String) :
    withLines (text ++ "\n" ++ line) lines = text ++ "\n" ++ withLines line lines := by
  induction lines generalizing line with
  | nil => rfl
  | cons next lines ih =>
    have hassoc : text ++ "\n" ++ line ++ "\n" ++ next =
        text ++ "\n" ++ (line ++ "\n" ++ next) := by
      simp [String.append_assoc]
    rw [withLines, List.foldl_cons, hassoc]
    exact ih (line ++ "\n" ++ next)

/-- A text is its lines put together. -/
theorem exists_linesOf (text : String) :
    ∃ first others, linesOf text = first :: others ∧ withLines first others = text := by
  have hjoin : ∀ (l : List Char) (ls : List (List Char)),
      (withLines (String.ofList l) (ls.map String.ofList)).toList =
        ['\n'].intercalate (l :: ls) := by
    intro l ls
    induction ls generalizing l with
    | nil => simp [withLines]
    | cons next ls ih =>
      rw [List.map_cons, withLines, List.foldl_cons, ← withLines, withLines_append]
      simp [ih]
  obtain ⟨l, ls, hsplit⟩ := List.exists_cons_of_ne_nil (List.splitOn_ne_nil '\n' text.toList)
  refine ⟨String.ofList l, ls.map String.ofList, by rw [linesOf, hsplit, List.map_cons], ?_⟩
  rw [← String.toList_inj, hjoin, ← hsplit, List.intercalate_splitOn]

/-! ## What the lines submit -/

/-- The text that an input submits. -/
def Input.texts : Input → List String
  | .submit text => [text]
  | _ => []

/-- Take lines one after the other: the texts that they submit, and the buffer that they leave. -/
def LineBuffer.feedEach (b : LineBuffer) : List String → List String × LineBuffer
  | [] => ([], b)
  | line :: others =>
    let (input, b) := b.feed line
    let (texts, b) := b.feedEach others
    (input.texts ++ texts, b)

theorem LineBuffer.feed_eq_add (b : LineBuffer) {line : String}
    (h : Command.ofLine? (trim line) = none) : b.feed line = b.add line := by
  rw [feed, h]
  cases b.pending <;> rfl

theorem LineBuffer.add_ne_command (b : LineBuffer) (line : String) (c : Command) :
    (b.add line).1 ≠ .command c := by
  unfold add
  dsimp only
  split
  · dsimp only
    split <;> simp
  · simp

open Phrase

/-- The texts have the tokens of the phrases, each text those of some whole ones. -/
inductive Phrase.Submitted : List String → List Phrase → Prop
  | nil : Submitted [] []
  | cons {text : String} {texts : List String} {qs ps : List Phrase}
      (h : Scans text (tokensOf qs)) (hrest : Submitted texts ps) :
      Submitted (text :: texts) (qs ++ ps)

theorem Phrase.Submitted.append {texts texts' : List String} {ps ps' : List Phrase}
    (h : Submitted texts ps) (h' : Submitted texts' ps') :
    Submitted (texts ++ texts') (ps ++ ps') := by
  induction h with
  | nil => exact h'
  | cons hscans _ ih =>
    rw [List.append_assoc]
    exact .cons hscans ih

/-- The phrases of a text are submitted together, if there are any. -/
theorem LineBuffer.add_of_balanced {b : LineBuffer} {line : String} {ps : List Phrase}
    (hbalanced : isBalanced (b.extend line) = true)
    (hscans : Scans (trim (b.extend line)) (tokensOf ps)) :
    Submitted (b.add line).1.texts ps ∧ (b.add line).2 = {} := by
  have hadd : b.add line =
      (if trim (b.extend line) = "" then .nothing else .submit (trim (b.extend line)), {}) := by
    simp [add, hbalanced]
  rw [hadd]
  by_cases hempty : trim (b.extend line) = ""
  · -- a text without characters has no tokens, and only no phrases have none
    have hps : ps = [] := by
      rw [hempty] at hscans
      obtain ⟨us, hscan, hus⟩ := hscans
      obtain rfl : [] = us := Except.ok.inj hscan
      cases ps with
      | nil => rfl
      | cons p ps => exact absurd (List.append_eq_nil_iff.1 hus.symm).1 p.tokens_ne_nil
    rw [if_pos hempty, hps]
    exact ⟨.nil, rfl⟩
  · rw [if_neg hempty]
    have hone := Submitted.cons hscans .nil
    rw [List.append_nil] at hone
    exact ⟨hone, rfl⟩

/-- The lines of a text whose tokens are phrases submit these phrases, each of them whole. -/
theorem LineBuffer.feedEach_phrases {b : LineBuffer} {first : String} {others : List String}
    {ts : List Located} {ps : List Phrase}
    (hblank : ∀ c ∈ (withLines (b.extend first) others).toList,
      isWhiteSpace c = true → isBlank c = true)
    (hscan : Token.scan (withLines (b.extend first) others) = .ok ts)
    (hps : ts.map Located.token = tokensOf ps) (hquotes : Located.QuotesFollowed ts)
    (hcommands : ∀ line ∈ first :: others, Command.ofLine? (trim line) = none) :
    ∃ texts, b.feedEach (first :: others) = (texts, {}) ∧ Submitted texts ps := by
  induction others generalizing b first ts ps with
  | nil =>
    -- a whole text is balanced
    have hexcess : excess (ts.map Located.token) = 0 := by rw [hps, excess_tokensOf]
    have hbalanced := isBalanced_iff.2 ⟨ts, hscan, Int.le_of_eq hexcess⟩
    obtain ⟨hsubmitted, hend⟩ :=
      add_of_balanced hbalanced (Token.Scans.trim ⟨ts, hscan, hps⟩ hblank)
    refine ⟨_, ?_, hsubmitted⟩
    rw [feedEach, feed_eq_add b (hcommands first (by simp))]
    simp [feedEach, hend]
  | cons line others ih =>
    -- the buffer with the first line is the beginning of the text
    have hfeed := feed_eq_add b (hcommands first (by simp))
    have hlater : ∀ l ∈ line :: others, Command.ofLine? (trim l) = none := fun l hl =>
      hcommands l (List.mem_cons_of_mem first hl)
    have htext : withLines (b.extend first) (line :: others) =
        withLines (b.extend first ++ "\n" ++ line) others := rfl
    rw [htext] at hblank hscan
    cases hbalanced : isBalanced (b.extend first) with
    | false =>
      -- the buffer keeps the line, and goes on with the next one
      have hadd : b.add first = (.nothing, { pending := some (b.extend first) }) := by
        simp [add, hbalanced]
      obtain ⟨texts, hfed, hsubmitted⟩ :=
        @ih { pending := some (b.extend first) } line ts ps hblank hscan hps hquotes hlater
      refine ⟨texts, ?_, hsubmitted⟩
      rw [feedEach, hfeed, hadd]
      simp [hfed, Input.texts]
    | true =>
      obtain ⟨us, hus, hexcess⟩ := isBalanced_iff.1 hbalanced
      rw [withLines_append] at hblank hscan
      obtain ⟨vs, hvs, rfl⟩ := scan_behind_line hus hscan
      -- the tokens so far are whole phrases, and the others are those of the later lines
      have hlast := hquotes.left (fun t ht => (scan_sound hus t ht).le_last)
        fun t ht => (scan_sound hvs t ht).one_le
      rw [List.map_append, Located.map_token_down] at hps
      obtain ⟨qs, rs, rfl, hqs, hrs⟩ := split_at_boundary hps.symm hexcess hlast
      simp only [String.toList_append, List.forall_mem_append] at hblank
      obtain ⟨hsubmitted, hend⟩ :=
        add_of_balanced hbalanced (Token.Scans.trim ⟨us, hus, hqs⟩ hblank.1.1)
      obtain ⟨texts, hfed, hlines⟩ :=
        @ih {} line vs rs hblank.2 hvs hrs hquotes.right hlater
      refine ⟨_, ?_, hsubmitted.append hlines⟩
      rw [feedEach, hfeed]
      simp only [hend, hfed]

/-! ## Reading and evaluating what was submitted -/

/-- Read all data of some texts, one text after the other, up to the first error. -/
def Datum.readTexts (store : Store) : List String → Except Error (List Value) × Store
  | [] => (.ok [], store)
  | text :: others =>
    match readAll store text with
    | (.error error, store) => (.error error, store)
    | (.ok vs, store) =>
      match readTexts store others with
      | (.error error, store) => (.error error, store)
      | (.ok ws, store) => (.ok (vs ++ ws), store)

/-- A text with the tokens of phrases is read as their values. -/
theorem Datum.readAll_of_scans (store : Store) {text : String} {ps : List Phrase}
    (h : Scans text (tokensOf ps)) (hreadable : ∀ p ∈ ps, p.Readable) :
    readAll store text = (.ok (readEach store ps).1, (readEach store ps).2) := by
  obtain ⟨ts, hscan, hts⟩ := h
  exact readAll_eq_ok_iff.2 ⟨ts, ps, hscan, speltEach_iff.2 ⟨hts, hreadable⟩, rfl⟩

theorem Datum.readTexts_of_submitted {store : Store} {texts : List String} {ps : List Phrase}
    (h : Submitted texts ps) (hreadable : ∀ p ∈ ps, p.Readable) :
    readTexts store texts = (.ok (readEach store ps).1, (readEach store ps).2) := by
  induction h generalizing store with
  | nil => rfl
  | cons hscans _ ih =>
    rw [List.forall_mem_append] at hreadable
    rw [readTexts, readAll_of_scans store hscans hreadable.1, readEach_append]
    simp only [ih hreadable.2]

/-- What a session shows of the outcome of an input: the value on a line of standard output, or the
error on a line of standard error. -/
def Repl.shown : Except Stop Value → Except String (String × String)
  | .ok v => .ok (v.print ++ "\n", "")
  | .error (.fault error) => .ok ("", "Error: " ++ error.message ++ "\n")
  | .error .outOfFuel => .ok ("", "Error: out of fuel\n")
  | .error (.awaits path) => .error path

/-- Let the interpreter evaluate texts one after the other, each on the engine that the one before
left. The outcome of each is shown behind what its program printed, and behind all that was shown
before. -/
def Repl.evaluateEach (fuel : Nat) (e : Engine) (out err : String) :
    List String → Except String (String × String)
  | [] => .ok (out, err)
  | text :: others => do
    let (result, e) := Interpreter.evalText fuel text e
    let (value, error) ← shown result
    evaluateEach fuel { e with output := "" } (out ++ (e.output ++ value)) (err ++ error) others

/-- What a session reports of an input is the outcome of its evaluation. -/
theorem Repl.report_evaluate {fuel : Nat} {text : String} {e e' : Engine}
    {result : Except Stop Value} (h : Interpreter.evalText fuel text e = (result, e')) :
    (evaluate fuel text).report "Error" e = (shown result).map fun texts =>
      { out := e'.output ++ texts.1
        err := texts.2
        state := (result.toBool, { e' with output := "" }) } := by
  cases result with
  | ok v =>
    have hrun : evaluate fuel text e = (.ok (v.print ++ "\n"), e') :=
      Eval.bind_of_ok h fun v => pure (v.print ++ "\n")
    rw [Eval.report, hrun]
    rfl
  | error stop =>
    have hrun : evaluate fuel text e = (.error stop, e') :=
      Eval.bind_of_error h fun v => pure (v.print ++ "\n")
    rw [Eval.report, hrun]
    cases stop with
    | fault error => simp [shown, Interpreter.takeOutput, Except.map, Except.toBool]
    | outOfFuel => simp [shown, Interpreter.takeOutput, Except.map, Except.toBool]
    | awaits path => rfl

/-- A session evaluates the texts that its lines submit. -/
theorem Repl.feedAll_eq_evaluateEach (fuel : Nat) (r : Repl) (out err : String)
    {lines : List String} (h : ∀ line ∈ lines, Command.ofLine? (trim line) = none) :
    r.feedAll fuel out err lines =
      evaluateEach fuel r.engine out err (r.buffer.feedEach lines).1 := by
  induction lines generalizing r out err with
  | nil => rfl
  | cons line lines ih =>
    obtain ⟨hline, hlines⟩ := List.forall_mem_cons.1 h
    rw [feedAll, feed, LineBuffer.feedEach]
    cases hfeed : r.buffer.feed line with
    | mk input buffer =>
      cases input with
      | nothing =>
        have hnext := ih { r with buffer } out err hlines
        -- nothing is shown
        change feedAll fuel { r with buffer } (out ++ "") (err ++ "") lines = _
        rw [String.append_empty, String.append_empty]
        exact hnext
      | command c =>
        rw [LineBuffer.feed_eq_add _ hline] at hfeed
        exact absurd (congrArg Prod.fst hfeed) (LineBuffer.add_ne_command _ _ _)
      | submit text =>
        simp only [Input.texts, List.singleton_append, evaluateEach]
        obtain ⟨result, e', heval⟩ : ∃ result e',
            Interpreter.evalText fuel text r.engine = (result, e') := ⟨_, _, rfl⟩
        rw [report_evaluate heval, heval]
        dsimp only
        cases hshown : shown result with
        | error path => rfl
        | ok texts => exact ih { engine := { e' with output := "" }, buffer } _ _ hlines

/-- A run without a task of its own evaluates what the lines submit that the editor delivers. -/
theorem CommandLine.runWith_session {editor : LineEditor} {fuel : Nat} {arguments : List String}
    {files : String → FileAnswer} {input : String} {options : Options} {e : Engine}
    (hparse : parse arguments = .ok options) (htask : task? fuel options = none)
    (hengine : engine fuel options files = .ok e)
    (hcommands : ∀ line ∈ editor input, Command.ofLine? (trim line) = none) :
    runWith editor fuel arguments files input =
      (Repl.evaluateEach fuel e Repl.banner "" (({} : LineBuffer).feedEach (editor input)).1).map
        fun texts => { out := texts.1 ++ Repl.farewell, err := texts.2, status := 0 } := by
  simp only [runWith, hparse, hengine, htask]
  rw [Repl.feedAll_eq_evaluateEach fuel { engine := e } Repl.banner "" hcommands]
  cases Repl.evaluateEach fuel e Repl.banner "" (({} : LineBuffer).feedEach (editor input)).1
  all_goals rfl

/-! ## A line editor -/

namespace TypedLine

/-- Clusters that take nothing back are typed one behind the other. -/
theorem text_foldl_press (t : TypedLine) {clusters : List (List Char)}
    (h : ∀ cluster ∈ clusters, cluster ≠ [backspace]) :
    (clusters.foldl press t).text = t.text ++ String.ofList clusters.flatten := by
  induction clusters generalizing t with
  | nil => simp [text]
  | cons cluster clusters ih =>
    obtain ⟨hcluster, hclusters⟩ := List.forall_mem_cons.1 h
    rw [List.foldl_cons, ih _ hclusters, press, if_neg hcluster]
    simp [text, List.reverseAux_eq, String.append_assoc]

/-- A line without backspaces may be left as it is: its clusters would make up the same line. -/
theorem applyBackspaces_eq_text (line : String) :
    applyBackspaces line = ((Grapheme.clusters line.toList).foldl press {}).text := by
  unfold applyBackspaces
  split
  · rfl
  · next hnone =>
    rw [text_foldl_press, Grapheme.clusters_flatten, String.ofList_toList]
    · exact (String.empty_append).symm
    · -- a cluster that is a backspace stands somewhere in the line
      rintro _ hmem rfl
      refine hnone ?_
      rw [List.contains_iff_mem, ← Grapheme.clusters_flatten line.toList, List.mem_flatten]
      exact ⟨_, hmem, List.mem_singleton_self backspace⟩

end TypedLine

/-! ## Equal data -/

namespace Value

mutual

/-- A value without what is not a number is equal to itself. -/
theorem equal_self {v : Value} (h : ∀ x ∈ v.numbers, x.isNaN = false) : v.equal v = true := by
  cases v with
  | number x =>
    rw [equal, Float.beq_self_iff]
    simpa [numbers] using h
  | list ref first others =>
    simp only [numbers, List.forall_mem_append] at h
    rw [equal, equal_self h.1, equalLists_self h.2, Bool.and_true]
  | _ => simp [equal, identical]

theorem equalLists_self {vs : List Value} (h : ∀ x ∈ numbersOf vs, x.isNaN = false) :
    equalLists vs vs = true := by
  cases vs with
  | nil => simp [equalLists]
  | cons v vs =>
    simp only [numbersOf, List.forall_mem_append] at h
    rw [equalLists, equal_self h.1, equalLists_self h.2, Bool.and_true]

end

end Value

namespace Phrase

open Value

mutual

/-- The numbers of a phrase are those of its decimal literals. -/
theorem isNaN_value (quote : Symbol) (store : Store) (p : Phrase) :
    ∀ x ∈ (p.value quote store).1.numbers, x.isNaN = false := by
  cases p with
  | string text => exact List.forall_mem_nil _
  | atom text =>
    refine atomValue_elim (fun made => ∀ x ∈ made.1.numbers, x.isNaN = false) store text
      (fun _ => List.forall_mem_nil _) (List.forall_mem_nil _) ?_ fun _ _ => List.forall_mem_nil _
    intro x hread
    simpa [numbers] using Decimal.isNaN_of_read? hread
  | quoted inner =>
    rw [value, numbers_storeList]
    simpa [numbersOf, numbers] using isNaN_value quote store inner
  | list items =>
    rw [value, numbers_storeList]
    exact isNaN_valuesOf quote store items

theorem isNaN_valuesOf (quote : Symbol) (store : Store) (ps : List Phrase) :
    ∀ x ∈ numbersOf (valuesOf quote store ps).1, x.isNaN = false := by
  cases ps with
  | nil => exact List.forall_mem_nil _
  | cons p ps =>
    rw [valuesOf, numbersOf, List.forall_mem_append]
    exact ⟨isNaN_value quote store p, isNaN_valuesOf quote _ ps⟩

end

theorem isNaN_readEach (store : Store) (ps : List Phrase) :
    ∀ x ∈ numbersOf (readEach store ps).1, x.isNaN = false := by
  induction ps generalizing store with
  | nil => exact List.forall_mem_nil _
  | cons p ps ih =>
    rw [readEach, numbersOf, List.forall_mem_append]
    exact ⟨isNaN_value _ _ p, ih _⟩

end Phrase

/-- Among the characters of ASCII only two count as white space without separating tokens. -/
theorem isBlank_of_isWhiteSpace {c : Char} (hascii : c.toNat < 128) (hvt : c ≠ '\x0b')
    (hff : c ≠ '\x0c') (h : isWhiteSpace c = true) : isBlank c = true := by
  have hranges : c.toNat = 9 ∨ c.toNat = 10 ∨ c.toNat = 11 ∨ c.toNat = 12 ∨ c.toNat = 13 ∨
      c.toNat = 32 := by
    simp only [isWhiteSpace, whiteSpaceRanges, List.any_cons, List.any_nil, Bool.or_false,
      Bool.or_eq_true, Bool.and_eq_true, decide_eq_true_eq] at h
    omega
  have hchar : ∀ n, c.toNat = n → c = Char.ofNat n := fun n hn => by rw [← hn, Char.ofNat_toNat]
  rcases hranges with hn | hn | hn | hn | hn | hn
  · rw [hchar _ hn]
    decide
  · rw [hchar _ hn]
    decide
  · exact absurd (hchar _ hn) hvt
  · exact absurd (hchar _ hn) hff
  · rw [hchar _ hn]
    decide
  · rw [hchar _ hn]
    decide

/-- Typing a text line by line gives the data that reading it as a whole gives. Take an ASCII text
without vertical tabs and form feeds that can be read, in which no line ends with a quote mark and
no line is a command. Its lines submit some inputs and leave the buffer as it was before the first
line. A session that takes the lines lets the interpreter evaluate these inputs and nothing else, in
this order, and shows their values and errors. Read one after the other, the inputs give data equal
to those of the text; they are even the same, and leave the same store. -/
theorem lines_submit_whole_text {text : String} {store after : Store} {forms : List Value}
    (hascii : ∀ c ∈ text.toList, c.toNat < 128 ∧ c ≠ '\x0b' ∧ c ≠ '\x0c')
    (hread : Datum.readAll store text = (.ok forms, after))
    (hquotes : ∀ ts, Token.scan text = .ok ts → Located.QuotesFollowed ts)
    (hcommands : ∀ line ∈ linesOf text, Command.ofLine? (trim line) = none) :
    ∃ inputs typed, ({} : LineBuffer).feedEach (linesOf text) = (inputs, {}) ∧
      (∀ fuel e out err, Repl.feedAll fuel { engine := e } out err (linesOf text) =
        Repl.evaluateEach fuel e out err inputs) ∧
      Datum.readTexts store inputs = (.ok typed, after) ∧
      Value.equalLists typed forms = true ∧ typed = forms := by
  obtain ⟨ts, ps, hscan, hps, hvalues⟩ := Datum.readAll_eq_ok_iff.1 hread
  obtain ⟨hspelling, hreadable⟩ := speltEach_iff.1 hps
  obtain ⟨first, others, hlines, htext⟩ := exists_linesOf text
  rw [hlines] at hcommands ⊢
  have hblank : ∀ c ∈ text.toList, isWhiteSpace c = true → isBlank c = true := fun c hc =>
    isBlank_of_isWhiteSpace (hascii c hc).1 (hascii c hc).2.1 (hascii c hc).2.2
  obtain ⟨inputs, hfed, hsubmitted⟩ :=
    @LineBuffer.feedEach_phrases {} first others ts ps (by rwa [LineBuffer.extend, htext])
      (by rwa [LineBuffer.extend, htext]) hspelling (hquotes ts hscan) hcommands
  refine ⟨inputs, forms, hfed, ?_, ?_, ?_, rfl⟩
  · intro fuel e out err
    rw [Repl.feedAll_eq_evaluateEach fuel _ out err hcommands, hfed]
  · rw [Datum.readTexts_of_submitted hsubmitted hreadable, hvalues]
  · -- no literal is what is not a number, so the data are equal to themselves
    have hnumbers := isNaN_readEach store ps
    rw [hvalues] at hnumbers
    exact Value.equalLists_self hnumbers

/-- A text on five lines, with a string that spans two of them, parentheses and semicolons inside a
string and a comment, a blank line, and a list that starts behind another datum. -/
theorem lines_submit_whole_text_nested :
    ∃ inputs forms typed after,
      inputs = ["(def s \"a ; (\nb\") ; )", "'x (list 1\n  2) y"] ∧
      Datum.readAll .empty "(def s \"a ; (\nb\") ; )\n\n 'x (list 1\n  2) y" =
        (.ok forms, after) ∧
      ({} : LineBuffer).feedEach (linesOf "(def s \"a ; (\nb\") ; )\n\n 'x (list 1\n  2) y") =
        (inputs, {}) ∧
      (∀ fuel e out err, Repl.feedAll fuel { engine := e } out err
          (linesOf "(def s \"a ; (\nb\") ; )\n\n 'x (list 1\n  2) y") =
        Repl.evaluateEach fuel e out err inputs) ∧
      Datum.readTexts .empty inputs = (.ok typed, after) ∧
      Value.equalLists typed forms = true := by
  obtain ⟨ts, hscan, hts, hquotes⟩ : ∃ ts,
      Token.scan "(def s \"a ; (\nb\") ; )\n\n 'x (list 1\n  2) y" = .ok ts ∧
      ts.map Located.token = tokensOf [.list [.atom "def", .atom "s", .string "a ; (\nb"],
        .quoted (.atom "x"), .list [.atom "list", .atom "1", .atom "2"], .atom "y"] ∧
      ∀ t ∈ ts, Located.lastOn t.span.line ts = some t → t.token ≠ .quote :=
    ⟨_, rfl, by decide +kernel, by decide +kernel⟩
  have hread := Datum.readAll_of_scans .empty ⟨ts, hscan, hts⟩
    (forall_readable_iff.2 ⟨by simp [Unreserved, tokensOf, tokens], by decide +kernel⟩)
  have hfed : ({} : LineBuffer).feedEach
      (linesOf "(def s \"a ; (\nb\") ; )\n\n 'x (list 1\n  2) y") =
      (["(def s \"a ; (\nb\") ; )", "'x (list 1\n  2) y"], {}) := by decide +kernel
  obtain ⟨inputs, typed, hinputs, hruns, hsame, hequal, -⟩ := lines_submit_whole_text (by simp)
    hread (fun us hus => Except.ok.inj (hscan.symm.trans hus) ▸ hquotes) (by decide +kernel)
  exact ⟨inputs, _, typed, _, congrArg Prod.fst (hinputs.symm.trans hfed), hread, hinputs, hruns,
    hsame, hequal⟩

end StackLisp
