import StackLisp.Proofs.Roundtrip

/-!
# Assembling what was decoded

Decoding is undone by assembling. Finished code in which every jump leads to an instruction, or to
its end, is read as instructions; they are written again with a label before each one that is jumped
to, named by its offset; and the same words come out. Only word zero may differ: it is counted anew.

- `Code.drop_of_decode`: a decoded instruction stands in the code word for word;
- `Cursor.Reads.drop_eq`: the words of the code are those of the instructions read from it;
- `labelled`: instructions with the labels that their jumps need;
- `target_labelled`: each of these labels stands where its name says;
- `assemble_labelled`: the whole of it.
-/

namespace StackLisp

/-! ## The words behind what is read -/

/-- The number under which an opcode is found is its own. -/
theorem Opcode.word_of_ofWord? {word : UInt16} {op : Opcode} (h : Opcode.ofWord? word = some op) :
    op.word = word := by
  have htable : ∀ n : Fin 14, Opcode.all[n.val]?.map (fun op => op.word.toNat) = some n.val := by
    decide
  rw [Opcode.ofWord?] at h
  obtain ⟨hlt, -⟩ := Array.getElem?_eq_some_iff.1 h
  have hop := htable ⟨word.toNat, hlt⟩
  simp only [h, Option.map_some, Option.some.injEq] at hop
  exact UInt16.toNat_inj.1 hop

/-- Putting an opcode and an operand together gives an instruction of these words. -/
theorem Instruction.words_ofParts (op : Opcode) (operand : UInt16) :
    (ofParts op operand).words = if op.operands = 0 then [op.word] else [op.word, operand] := by
  cases op <;> rfl

/-- A decoded instruction stands in the code word for word. -/
theorem Code.drop_of_decode {code : Code} {p : Nat} {i : Instruction} (h : code.decode p = .ok i) :
    code.toList.drop p = i.words ++ code.toList.drop (p + i.width) := by
  have hdrop {k : Nat} {word : UInt16} (hk : code[k]? = some word) :
      code.toList.drop k = word :: code.toList.drop (k + 1) := by
    obtain ⟨hlt, rfl⟩ := Array.getElem?_eq_some_iff.1 hk
    exact List.drop_eq_getElem_cons (by simpa using hlt)
  rw [← Instruction.length_words]
  rw [decode] at h
  -- one word or two, depending on the operand that the opcode has
  cases hword : code[p]? with
  | none => simp [hword] at h
  | some word =>
    cases hop : Opcode.ofWord? word with
    | none => simp [hword, hop] at h
    | some op =>
      obtain rfl := Opcode.word_of_ofWord? hop
      simp only [hword, hop] at h
      by_cases hz : op.operands = 0
      · rw [if_pos hz, Except.ok.injEq] at h
        rw [← h, Instruction.words_ofParts, if_pos hz, hdrop hword]
        rfl
      · rw [if_neg hz] at h
        cases hoperand : code[p + 1]? with
        | none => simp [hoperand] at h
        | some operand =>
          simp only [hoperand, Except.ok.injEq] at h
          rw [← h, Instruction.words_ofParts, if_neg hz, hdrop hword, hdrop hoperand]
          rfl

/-- The code from a cursor on is, word for word, what is read from there. -/
theorem Cursor.Reads.drop_eq {c : Cursor} {listing : List Instruction}
    (h : c.Reads nextRaw listing) :
    c.code.toList.drop c.position = listing.flatMap Instruction.words := by
  induction h with
  | ended hend => simpa [Cursor.atEnd] using hend
  | @step c c' i listing _ hread _ ih =>
    rw [nextRaw] at hread
    cases hi : c.code.decode c.position with
    | error e => simp [hi] at hread
    | ok j =>
      simp only [hi, Prod.mk.injEq, Except.ok.injEq] at hread
      obtain ⟨rfl, rfl⟩ := hread
      rw [Code.drop_of_decode hi, ih, List.flatMap_cons]

/-- A cursor is put at offset one where the code has a word there. -/
theorem Cursor.at?_one_eq_ok {code : Code} {start : Cursor} (h : Cursor.at? code 1 = .ok start) :
    1 < code.size ∧ start = ⟨code, 1⟩ := by
  rw [Cursor.at?, Code.seek] at h
  split at h
  · cases h
  next hfits =>
    simp only [Except.map, Except.ok.injEq] at h
    simp only [Bool.or_eq_true, decide_eq_true_eq] at hfits
    exact ⟨by omega, h.symm⟩

namespace Assembly

/-! ## Instructions with the labels they need -/

/-- Where instructions stand that follow each other from an offset on. -/
def offsets : Nat → List Instruction → List Nat
  | _, [] => []
  | p, i :: listing => p :: offsets (p + i.width) listing

/-- The label at an offset that is asked for, named by the offset. -/
def mark (wanted : UInt16 → Prop) [DecidablePred wanted] (p : Nat) : List Instruction :=
  if wanted p.toUInt16 then [.label p.toUInt16] else []

/-- Instructions from an offset on, each one behind its label if that is asked for, and the label of
the end if that is asked for. -/
def labelled (wanted : UInt16 → Prop) [DecidablePred wanted] :
    Nat → List Instruction → List Instruction
  | p, [] => mark wanted p
  | p, i :: listing => mark wanted p ++ i :: labelled wanted (p + i.width) listing

instance (program : List Instruction) : DecidablePred (JumpsTo program) := fun _ =>
  inferInstanceAs (Decidable (_ ∨ _))

section

variable {wanted : UInt16 → Prop} [DecidablePred wanted]

@[simp]
theorem extent_mark (p : Nat) : extent (mark wanted p) = 0 := by
  unfold mark
  split <;> rfl

@[simp]
theorem filter_mark (p : Nat) : ((mark wanted p).filter fun i => i.opcode ≠ .label) = [] := by
  unfold mark
  split <;> rfl

theorem label_mem_mark {p : Nat} {id : UInt16} :
    .label id ∈ mark wanted p ↔ wanted id ∧ id = p.toUInt16 := by
  unfold mark
  split <;> aesop

/-- Without its labels, what was labelled is as before. -/
theorem filter_labelled {listing : List Instruction} (hbare : ∀ id, .label id ∉ listing) (p : Nat) :
    ((labelled wanted p listing).filter fun i => i.opcode ≠ .label) = listing := by
  induction listing generalizing p with
  | nil => exact filter_mark p
  | cons i listing ih =>
    have hi : i.opcode ≠ .label := by
      cases i with
      | label id => exact absurd List.mem_cons_self (hbare id)
      | _ => simp [Instruction.opcode]
    have hrest := ih (fun id hid => hbare id (List.mem_cons_of_mem i hid)) (p + i.width)
    rw [labelled, List.filter_append, filter_mark, List.nil_append, List.filter_cons, hrest]
    simp [hi]

/-- Labels take no words. -/
theorem extent_labelled (listing : List Instruction) (p : Nat) :
    extent (labelled wanted p listing) = extent listing := by
  induction listing generalizing p with
  | nil => exact extent_mark p
  | cons i listing ih => simp [labelled, ih]

theorem size_of_bare {i : Instruction} {listing : List Instruction}
    (hbare : ∀ id, .label id ∉ i :: listing) : i.size = i.width := by
  cases i with
  | label id => exact absurd List.mem_cons_self (hbare id)
  | _ => rfl

/-- Without labels, a program takes the words of its instructions. -/
theorem length_flatMap_words {listing : List Instruction} (hbare : ∀ id, .label id ∉ listing) :
    (listing.flatMap Instruction.words).length = extent listing := by
  induction listing with
  | nil => rfl
  | cons i listing ih =>
    have hrest : ∀ id, .label id ∉ listing := fun id hid => hbare id (List.mem_cons_of_mem i hid)
    rw [List.flatMap_cons, List.length_append, Instruction.length_words, ih hrest, extent_cons,
      size_of_bare hbare]

/-- The labels from an offset on name offsets from there on. -/
theorem le_of_label_mem {listing : List Instruction} (hbare : ∀ id, .label id ∉ listing) {p : Nat}
    (hfits : p + extent listing ≤ 65535) {id : UInt16} (h : .label id ∈ labelled wanted p listing) :
    p ≤ id.toNat := by
  induction listing generalizing p with
  | nil =>
    obtain ⟨-, rfl⟩ := label_mem_mark.1 h
    simp at hfits ⊢
    omega
  | cons i listing ih =>
    rw [extent_cons, size_of_bare hbare] at hfits
    rw [labelled, List.mem_append, List.mem_cons] at h
    obtain h | h | h := h
    · obtain ⟨-, rfl⟩ := label_mem_mark.1 h
      simp
      omega
    · exact absurd (h ▸ List.mem_cons_self) (hbare id)
    · have := ih (fun id hid => hbare id (List.mem_cons_of_mem i hid)) (by omega) h
      omega

/-- A label that is asked for stands last where its name says, if that is where an instruction
starts or where the last one ends. -/
theorem target_labelled {listing : List Instruction} (hbare : ∀ id, .label id ∉ listing) {p : Nat}
    (hfits : p + extent listing ≤ 65535) {id : UInt16} (hwanted : wanted id)
    (h : id.toNat ∈ offsets p listing ∨ id.toNat = p + extent listing) :
    ∃ before after, labelled wanted p listing = before ++ .label id :: after ∧
      .label id ∉ after ∧ id.toNat = p + extent before := by
  have hmark {q : Nat} (hq : id.toNat = q) : mark wanted q = [.label id] := by
    have hid : q.toUInt16 = id := by
      rw [← hq]
      exact UInt16.ofNat_toNat
    rw [mark, hid, if_pos hwanted]
  induction listing generalizing p with
  | nil =>
    obtain h : id.toNat = p := by simpa [offsets] using h
    exact ⟨[], [], hmark h, by simp, h⟩
  | cons i listing ih =>
    have hsize := size_of_bare hbare
    have hrest : ∀ id, .label id ∉ listing := fun id hid => hbare id (List.mem_cons_of_mem i hid)
    rw [extent_cons, hsize] at hfits h
    rw [offsets, List.mem_cons, or_assoc] at h
    by_cases hp : id.toNat = p
    · -- later labels have greater names
      refine ⟨[], i :: labelled wanted (p + i.width) listing, by rw [labelled, hmark hp]; rfl,
        fun hmem => ?_, hp⟩
      obtain hmem | hmem := List.mem_cons.1 hmem
      · exact hbare id (hmem ▸ List.mem_cons_self)
      · have := le_of_label_mem hrest (by omega) hmem
        have := i.width_pos
        omega
    · obtain ⟨before, after, hsplit, hlast, hid⟩ :=
        ih hrest (by omega) ((h.resolve_left hp).imp_right fun hend => by omega)
      refine ⟨mark wanted p ++ i :: before, after, ?_, hlast, ?_⟩
      · rw [labelled, hsplit]
        simp
      · simp only [extent_append, extent_mark, extent_cons]
        omega

end

/-! ## Writing them again -/

/-- Where every jump is settled as it is, the words written are those of the program. -/
theorem foldlM_emit_of_settled {labels : Std.HashMap UInt16 Nat} {program : List Instruction}
    (h : ∀ i ∈ program, i.opcode ≠ .label → settled labels i = .ok i) (words : Code) :
    program.foldlM (emit labels) words = .ok (words ++
      ((program.filter fun i => i.opcode ≠ .label).flatMap Instruction.words).toArray) := by
  induction program generalizing words with
  | nil => simp [pure, Except.pure]
  | cons i program ih =>
    have hrest := ih fun j hj => h j (List.mem_cons_of_mem i hj)
    rw [List.foldlM_cons]
    by_cases hi : i.opcode = .label
    · cases i with
      | label id => simpa [emit, bind, Except.bind, Instruction.opcode] using hrest words
      | _ => cases hi
    · have hlabel : ∀ id, i ≠ .label id := by
        rintro id rfl
        exact hi rfl
      rw [emit_eq labels words hlabel, h i List.mem_cons_self hi]
      simp [Except.map, bind, Except.bind, hrest, hi]

/-- A jump to a label that is named by its own place is settled as it is. -/
theorem settled_of_target {program : List Instruction} {i : Instruction}
    (h : ∀ id, i = .jump id ∨ i = .jumpIfNot id → Target program id id.toNat) :
    settled (labels program) i = .ok i := by
  have hresolve {id : UInt16} (hid : i = .jump id ∨ i = .jumpIfNot id) :
      resolve (labels program) id = .ok id := by
    rw [resolve, (h id hid).labels_eq]
    simp
  cases i with
  | jump id => rw [settled, hresolve (.inl rfl), Except.map]
  | jumpIfNot id => rw [settled, hresolve (.inr rfl), Except.map]
  | _ => rfl

/-- Assembling what was decoded. Of code that fits 16-bit offsets, the instructions are read from
offset one to its end; none is a label, and each jump leads to where one of them starts or to the
end. Written again, with a label for each offset that is jumped to, they are assembled to code of
the same size that has the same words from offset one on. -/
theorem assemble_labelled {code : Code} {start : Cursor} {listing : List Instruction}
    (hfits : code.size ≤ 65535) (hstart : Cursor.at? code 1 = .ok start)
    (hreads : start.Reads Cursor.nextRaw listing) (hbare : ∀ id, .label id ∉ listing)
    (hjumps : ∀ id, JumpsTo listing id → id.toNat ∈ offsets 1 listing ∨ id.toNat = code.size) :
    ∃ again, assemble (labelled (JumpsTo listing) 1 listing) = .ok again ∧
      again.size = code.size ∧ ∀ p, 1 ≤ p → again[p]? = code[p]? := by
  obtain ⟨hlow, rfl⟩ := Cursor.at?_one_eq_ok hstart
  have hwords : code.toList.drop 1 = listing.flatMap Instruction.words := hreads.drop_eq
  have hsize : code.size = 1 + extent listing := by
    rw [← length_flatMap_words hbare, ← hwords, List.length_drop, Array.length_toList]
    omega
  set program := labelled (JumpsTo listing) 1 listing with hprogram
  have hwritten : (program.filter fun i => i.opcode ≠ .label) = listing := filter_labelled hbare 1
  have hsettled : ∀ i ∈ program, i.opcode ≠ .label → settled (labels program) i = .ok i := by
    intro i hi hop
    have hmem : i ∈ listing := by
      rw [← hwritten]
      simp [hi, hop]
    refine settled_of_target fun id hid => ?_
    have hjump : JumpsTo listing id := by
      rcases hid with rfl | rfl
      · exact .inl hmem
      · exact .inr hmem
    exact target_labelled hbare (by omega) hjump (hsize ▸ hjumps id hjump)
  have hlength : length program ≤ 65535 := by
    rw [length_eq, hprogram, extent_labelled]
    omega
  refine ⟨_, (assemble_of_length_le hlength).trans (foldlM_emit_of_settled hsettled _), ?_⟩
  -- behind word zero both codes are the words of the listing
  rw [hwritten, ← hwords]
  refine ⟨by simp; omega, fun p hp => ?_⟩
  obtain ⟨q, rfl⟩ := Nat.exists_eq_add_of_le' hp
  simp

/-- Code that is jumped about in: over an instruction, to the end, to the jump itself and back. -/
theorem assemble_labelled_jumps :
    ∃ again, assemble (labelled (JumpsTo [.jump 4, .pop, .jumpIfNot 10, .jump 6, .jump 3])
        1 [.jump 4, .pop, .jumpIfNot 10, .jump 6, .jump 3]) = .ok again ∧
      again.size = 10 ∧
      ∀ p, 1 ≤ p → again[p]? = (#[77, 6, 4, 2, 7, 10, 6, 6, 6, 3] : Code)[p]? := by
  have hstart : Cursor.at? #[77, 6, 4, 2, 7, 10, 6, 6, 6, 3] 1 = .ok ⟨_, 1⟩ := rfl
  have hreads : Cursor.Reads Cursor.nextRaw ⟨#[77, 6, 4, 2, 7, 10, 6, 6, 6, 3], 1⟩
      [.jump 4, .pop, .jumpIfNot 10, .jump 6, .jump 3] :=
    .step rfl rfl <| .step rfl rfl <| .step rfl rfl <| .step rfl rfl <| .step rfl rfl <| .ended rfl
  refine assemble_labelled (by decide) hstart hreads (by simp) fun id hid => ?_
  have hid : id = 4 ∨ id = 6 ∨ id = 3 ∨ id = 10 := by
    simp [JumpsTo] at hid
    tauto
  rcases hid with rfl | rfl | rfl | rfl <;> decide

end Assembly

end StackLisp
