import Mathlib.Data.Set.Basic
import Mathlib.Order.Bounds.Basic
import StackLisp.Proofs.Layout

/-!
# Reading back what was assembled

The finished code of a program is the program itself, less its labels, with each jump taken to the
last label of its number. Which programs have finished code, what word zero of it is and what
reading it gives are all said in terms of the program alone: `Target` counts the words before a
label, `depthAfter` adds up stack effects, and neither follows the assembler's own passes.

- `labels_eq_some_iff`: the assembler's table of labels is `Target`;
- `isGreatest_peakDepth`: the peak of the running sum is the greatest of its values;
- `foldlM_emit_cases`: writing a program stops only at a jump without a label;
- `reads_of_assemble`: reading from the start of any part of the program;
- `assemble_reproduces`: the whole of it.
-/

namespace StackLisp

/-! ## Reading to the end -/

/-- Reading instruction after instruction gives these, and then the code has ended. -/
inductive Cursor.Reads (read : Cursor → Except Error Instruction × Cursor) :
    Cursor → List Instruction → Prop
  | ended {c : Cursor} (h : c.atEnd = true) : Reads read c []
  | step {c c' : Cursor} {i : Instruction} {listing : List Instruction} (hmore : c.atEnd = false)
      (h : read c = (.ok i, c')) (hrest : Reads read c' listing) : Reads read c (i :: listing)

/-- Among instructions that may all be executed, both ways of reading give the same. -/
theorem Cursor.Reads.next {c : Cursor} {listing : List Instruction} (h : c.Reads nextRaw listing)
    (hexec : ∀ i ∈ listing, i.isReserved = false) : c.Reads Cursor.next listing := by
  induction h with
  | ended h => exact .ended h
  | @step c c' i listing hmore h _ ih =>
    have hi : i.isReserved = false := hexec i List.mem_cons_self
    refine .step hmore ?_ (ih fun j hj => hexec j (List.mem_cons_of_mem _ hj))
    simp [Cursor.next, h, Code.executable, hi]

namespace Assembly

/-! ## Labels -/

/-- The last label with this number stands right before the word at this offset. -/
def Target (program : List Instruction) (id : UInt16) (offset : Nat) : Prop :=
  ∃ before after, program = before ++ .label id :: after ∧ .label id ∉ after ∧
    offset = 1 + extent before

/-- A label that was written has a last place. -/
theorem exists_target {program : List Instruction} {id : UInt16} (h : .label id ∈ program) :
    ∃ offset, Target program id offset := by
  -- the first place in the program read backwards
  obtain ⟨after, before, hsplit, hlast⟩ :=
    List.eq_append_cons_of_mem (List.mem_reverse.2 h)
  refine ⟨_, before.reverse, after.reverse, ?_, by simpa using hlast, rfl⟩
  rw [← List.reverse_reverse program, hsplit]
  simp

theorem Target.labels_eq {program : List Instruction} {id : UInt16} {offset : Nat}
    (h : Target program id offset) : (labels program)[id]? = some offset := by
  obtain ⟨before, after, rfl, hlast, rfl⟩ := h
  rw [labels_append hlast, length_eq]

theorem labels_eq_none {program : List Instruction} {id : UInt16} (h : .label id ∉ program) :
    (labels program)[id]? = none := by
  rw [labels, labels_foldl_of_notMem h]
  exact Std.HashMap.getElem?_empty

/-- The table of labels holds the last place of every label, and nothing else. -/
theorem labels_eq_some_iff {program : List Instruction} {id : UInt16} {offset : Nat} :
    (labels program)[id]? = some offset ↔ Target program id offset := by
  refine ⟨fun h => ?_, Target.labels_eq⟩
  by_cases hmem : .label id ∈ program
  · obtain ⟨other, hother⟩ := exists_target hmem
    rw [hother.labels_eq, Option.some.injEq] at h
    exact h ▸ hother
  · rw [labels_eq_none hmem] at h
    cases h

/-- A label stands within the code. -/
theorem Target.le_length {program : List Instruction} {id : UInt16} {offset : Nat}
    (h : Target program id offset) : offset ≤ length program := by
  obtain ⟨before, after, rfl, -, rfl⟩ := h
  rw [length_eq, extent_append]
  omega

/-! ## Instructions in their place -/

/-- How an instruction of the program reads in finished code: a jump names the place of its label,
and the others are as they were written. -/
inductive Placed (program : List Instruction) : Instruction → Instruction → Prop
  | jump {id target : UInt16} (h : Target program id target.toNat) :
      Placed program (.jump id) (.jump target)
  | jumpIfNot {id target : UInt16} (h : Target program id target.toNat) :
      Placed program (.jumpIfNot id) (.jumpIfNot target)
  | same {i : Instruction} (h : i.opcode ≠ .jump ∧ i.opcode ≠ .jumpIfNot) : Placed program i i

/-- Where offsets fit 16 bits, a number that resolves is that of a label in the program. -/
theorem target_of_resolve {program : List Instruction} (hfits : length program ≤ 65535)
    {id target : UInt16} (h : resolve (labels program) id = .ok target) :
    Target program id target.toNat := by
  rw [resolve] at h
  cases hoffset : (labels program)[id]? with
  | none => simp [hoffset] at h
  | some offset =>
    -- labels stand within the code, so nothing is lost in 16 bits
    have htarget := labels_eq_some_iff.1 hoffset
    have hle := htarget.le_length
    simp only [hoffset, Except.ok.injEq] at h
    subst h
    rwa [Nat.toUInt16_eq, UInt16.toNat_ofNat', Nat.mod_eq_of_lt (by omega)]

/-- Settling an instruction puts it in its place. -/
theorem placed_of_settled {program : List Instruction} (hfits : length program ≤ 65535)
    {i j : Instruction} (h : settled (labels program) i = .ok j) : Placed program i j := by
  cases i with
  | jump id =>
    simp only [settled] at h
    cases hid : resolve (labels program) id <;> simp [hid, Except.map] at h
    exact h ▸ .jump (target_of_resolve hfits hid)
  | jumpIfNot id =>
    simp only [settled] at h
    cases hid : resolve (labels program) id <;> simp [hid, Except.map] at h
    exact h ▸ .jumpIfNot (target_of_resolve hfits hid)
  | _ =>
    simp only [settled, Except.ok.injEq] at h
    exact h ▸ .same (by simp [Instruction.opcode])

/-- Reading on from the place of any part of the program gives that part. -/
theorem reads_of_assemble {before after : List Instruction} {code : Code}
    (h : assemble (before ++ after) = .ok code) :
    ∃ listing, List.Forall₂ (Placed (before ++ after))
        (after.filter fun i => i.opcode ≠ .label) listing ∧
      Cursor.Reads Cursor.nextRaw ⟨code, length before⟩ listing := by
  -- what has been read moves over to `before`, so the code and its labels stay the same
  induction after generalizing before with
  | nil =>
    rw [List.append_nil] at h
    exact ⟨[], .nil, .ended (by simp [Cursor.atEnd, size_assemble h])⟩
  | cons i after ih =>
    have hcode : before ++ i :: after = (before ++ [i]) ++ after := by simp
    obtain ⟨listing, hplaced, hreads⟩ := ih (hcode ▸ h)
    rw [← hcode] at hplaced
    by_cases hlabel : ∃ id, i = .label id
    -- a label takes no word, so the cursor is already at what follows it
    · obtain ⟨id, rfl⟩ := hlabel
      rw [length_append_singleton] at hreads
      exact ⟨listing, by simpa [Instruction.opcode] using hplaced, hreads⟩
    · rw [not_exists] at hlabel
      obtain ⟨j, hj, hdecode⟩ := decode_assemble h hlabel
      have hop : i.opcode ≠ .label := by
        cases i with
        | label id => exact absurd rfl (hlabel id)
        | _ => simp [Instruction.opcode]
      have hwidth : j.width = i.size := by
        rw [← Instruction.length_words, size_of_settled hlabel hj]
      have hmore : length before < code.size := by
        rw [size_assemble h, hcode, length_append, length_append_singleton, ← hwidth]
        have := j.width_pos
        omega
      refine ⟨j :: listing, ?_, .step (by simpa [Cursor.atEnd] using hmore) ?_ hreads⟩
      · simp only [List.filter_cons, hop, ne_eq, not_false_eq_true, decide_true, if_true]
        exact .cons (placed_of_settled (length_le_of_assemble h) hj) hplaced
      · simp [Cursor.nextRaw, hdecode, hwidth, length_append_singleton]

/-! ## Programs that are refused -/

/-- The program jumps to a label with this number. -/
def JumpsTo (program : List Instruction) (id : UInt16) : Prop :=
  .jump id ∈ program ∨ .jumpIfNot id ∈ program

theorem jumpsTo_cons {program : List Instruction} {i : Instruction} {id : UInt16} :
    JumpsTo (i :: program) id ↔ (i = .jump id ∨ i = .jumpIfNot id) ∨ JumpsTo program id := by
  simp only [JumpsTo, List.mem_cons, eq_comm]
  tauto

theorem resolve_cases (labels : Std.HashMap UInt16 Nat) (id : UInt16) :
    (∃ target, resolve labels id = .ok target ∧ labels[id]? ≠ none) ∨
    labels[id]? = none ∧ resolve labels id = .error (.inconsistent (.undefinedLabel id)) := by
  unfold resolve
  cases labels[id]? with
  | some offset => exact .inl ⟨_, rfl, Option.some_ne_none offset⟩
  | none => exact .inr ⟨rfl, rfl⟩

/-- Writing an instruction stops only at a jump without a label. -/
theorem emit_cases (labels : Std.HashMap UInt16 Nat) (words : Code) (i : Instruction) :
    (∃ code, emit labels words i = .ok code ∧
      ∀ id, i = .jump id ∨ i = .jumpIfNot id → labels[id]? ≠ none) ∨
    ∃ id, (i = .jump id ∨ i = .jumpIfNot id) ∧ labels[id]? = none ∧
      emit labels words i = .error (.inconsistent (.undefinedLabel id)) := by
  cases i with
  | jump id | jumpIfNot id =>
    obtain ⟨target, hid, hsome⟩ | ⟨hnone, hid⟩ := resolve_cases labels id
    · refine .inl ⟨_, by rw [emit, hid]; rfl, fun other hother => ?_⟩
      obtain rfl : id = other := by simpa using hother
      exact hsome
    · exact .inr ⟨id, by simp, hnone, by rw [emit, hid]; rfl⟩
  | _ => exact .inl ⟨_, rfl, by simp⟩

/-- Writing a program stops only at a jump without a label. -/
theorem foldlM_emit_cases (labels : Std.HashMap UInt16 Nat) (program : List Instruction)
    (words : Code) :
    (∃ code, program.foldlM (emit labels) words = .ok code ∧
      ∀ id, JumpsTo program id → labels[id]? ≠ none) ∨
    ∃ id, JumpsTo program id ∧ labels[id]? = none ∧
      program.foldlM (emit labels) words = .error (.inconsistent (.undefinedLabel id)) := by
  induction program generalizing words with
  | nil => exact .inl ⟨words, rfl, by simp [JumpsTo]⟩
  | cons i program ih =>
    simp only [List.foldlM_cons, jumpsTo_cons]
    obtain ⟨code, hi, hlabelled⟩ | ⟨id, hjump, hnone, hi⟩ := emit_cases labels words i
    · simp only [hi, bind, Except.bind]
      obtain ⟨code', hrest, hlabelled'⟩ | ⟨id, hjump, hnone, hrest⟩ := ih code
      · exact .inl ⟨code', hrest, fun id hid => hid.elim (hlabelled id) (hlabelled' id)⟩
      · exact .inr ⟨id, .inr hjump, hnone, hrest⟩
    · exact .inr ⟨id, .inl hjump, hnone, by simp [hi, bind, Except.bind]⟩

/-- A program whose words fit is finished, unless it jumps to a label that it does not have. -/
theorem assemble_cases {program : List Instruction} (hfits : length program ≤ 65535) :
    (∃ code, assemble program = .ok code ∧ ∀ id, JumpsTo program id → .label id ∈ program) ∨
    ∃ id, JumpsTo program id ∧ .label id ∉ program ∧
      assemble program = .error (.inconsistent (.undefinedLabel id)) := by
  rw [assemble_of_length_le hfits]
  obtain ⟨code, hcode, hlabelled⟩ | ⟨id, hjump, hnone, herror⟩ :=
    foldlM_emit_cases (labels program) program #[(peakDepth program).toUInt16]
  · exact .inl ⟨code, hcode, fun id hid => by_contra fun h => hlabelled id hid (labels_eq_none h)⟩
  · refine .inr ⟨id, hjump, fun hmem => ?_, herror⟩
    obtain ⟨offset, htarget⟩ := exists_target hmem
    rw [htarget.labels_eq] at hnone
    cases hnone

/-! ## Word zero -/

/-- The sum of the static stack effects of the first instructions. -/
def depthAfter (program : List Instruction) (n : Nat) : Int :=
  ((program.take n).map fun i => i.opcode.effect).sum

theorem depthAfter_append_singleton (program : List Instruction) (i : Instruction) (n : Nat) :
    depthAfter (program ++ [i]) n = if n ≤ program.length then depthAfter program n
      else depthAfter program program.length + i.opcode.effect := by
  split
  next h => rw [depthAfter, List.take_append_of_le_length h, depthAfter]
  next h =>
    have hall : (program ++ [i]).take n = program ++ [i] :=
      List.take_of_length_le (by simp; omega)
    simp [depthAfter, hall]

/-- The running sum ends at the sum of all effects, and its peak is the greatest value on the
way. -/
theorem isGreatest_foldl_peak (program : List Instruction) :
    (program.foldl Depth.step {}).current = depthAfter program program.length ∧
    IsGreatest (Set.range (depthAfter program)) (program.foldl Depth.step {}).peak := by
  induction program using List.reverseRecOn with
  | nil => exact ⟨rfl, ⟨0, rfl⟩, by rintro _ ⟨n, rfl⟩; simp [depthAfter]⟩
  | append_singleton program i ih =>
    -- one more instruction adds one more beginning, the whole program
    obtain ⟨hcurrent, ⟨n, hn⟩, hle⟩ := ih
    rw [List.foldl_append]
    simp only [List.foldl_cons, List.foldl_nil, Depth.step, hcurrent]
    have hend : depthAfter (program ++ [i]) (program ++ [i]).length =
        depthAfter program program.length + i.opcode.effect := by
      rw [depthAfter_append_singleton, if_neg (by simp)]
    refine ⟨hend.symm, ?_, ?_⟩
    · -- the peak is either the old one or the value just reached
      rcases max_choice (program.foldl Depth.step {}).peak
        (depthAfter program program.length + i.opcode.effect) with h | h
      · rw [h, ← hn]
        -- from the end on, `depthAfter` no longer changes, so `n` may lie beyond the old end
        rcases Nat.le_total n program.length with hle | hge
        · exact ⟨n, by rw [depthAfter_append_singleton, if_pos hle]⟩
        · refine ⟨program.length, ?_⟩
          rw [depthAfter_append_singleton, if_pos le_rfl, depthAfter, depthAfter,
            List.take_length, List.take_of_length_le hge]
      · exact ⟨_, hend.trans h.symm⟩
    · rintro _ ⟨m, rfl⟩
      rw [depthAfter_append_singleton]
      split
      · exact le_max_of_le_left (hle ⟨m, rfl⟩)
      · exact le_max_right _ _

/-- The peak depth is the greatest sum of effects, over all beginnings of the program. -/
theorem isGreatest_peakDepth (program : List Instruction) :
    IsGreatest (Set.range (depthAfter program)) (peakDepth program : Int) := by
  have h := (isGreatest_foldl_peak program).2
  have hpos : 0 ≤ (program.foldl Depth.step {}).peak := peak_le_foldl program {}
  rwa [peakDepth, Int.toNat_of_nonneg hpos]

/-! ## The whole of it -/

/-- The code is the program: as long as its words, headed by the greatest depth, and read from
offset one to the end as its instructions in order, less the labels, each jump in its place. -/
structure Reproduces (program : List Instruction) (code : Code) : Prop where
  size : code.size = 1 + extent program
  depth : ∃ word, code[0]? = some word ∧
    IsGreatest (Set.range (depthAfter program)) (word.toNat : Int)
  reading : ∃ start listing, Cursor.at? code 1 = .ok start ∧
    List.Forall₂ (Placed program) (program.filter fun i => i.opcode ≠ .label) listing ∧
    start.Reads Cursor.nextRaw listing ∧
    ((∀ i ∈ program, i.opcode ≠ .nop ∧ i.opcode ≠ .dup ∧ i.opcode ≠ .halt) →
      start.Reads Cursor.next listing)

/-- A program with some instruction other than a label takes a word beside word zero. -/
theorem extent_pos {program : List Instruction} (h : ∃ i ∈ program, i.opcode ≠ .label) :
    0 < extent program := by
  obtain ⟨i, hi, hop⟩ := h
  have hsize : 0 < i.size := by
    cases i with
    | label id => exact absurd rfl hop
    | _ => exact Instruction.width_pos _
  obtain ⟨before, after, rfl⟩ := List.append_of_mem hi
  rw [extent_append, extent_cons]
  omega

/-- What was placed may be executed if it was written so. -/
theorem isReserved_of_placed {program written listing : List Instruction}
    (h : List.Forall₂ (Placed program) written listing)
    (hexec : ∀ i ∈ written, i.isReserved = false) : ∀ j ∈ listing, j.isReserved = false := by
  induction h with
  | nil => simp
  | @cons i j _ _ hplaced _ ih =>
    have hi : i.isReserved = false := hexec i List.mem_cons_self
    have hj : j.isReserved = false := by
      cases hplaced with
      | same => exact hi
      | _ => rfl
    intro k hk
    rcases List.mem_cons.1 hk with rfl | hk
    · exact hj
    · exact ih (fun i hi => hexec i (List.mem_cons_of_mem _ hi)) k hk

/-- Finished code reproduces its program. -/
theorem reproduces_of_assemble {program : List Instruction} {code : Code}
    (hwritten : ∃ i ∈ program, i.opcode ≠ .label) (h : assemble program = .ok code) :
    Reproduces program code := by
  have hsize : code.size = 1 + extent program := by rw [size_assemble h, length_eq]
  have hlong := extent_pos hwritten
  refine ⟨hsize, ?_, ?_⟩
  · have hzero : code[0]? = some code[0] := Array.getElem?_eq_getElem (by omega)
    have hword := maxStack_assemble h
    rw [Code.maxStack, hzero] at hword
    exact ⟨code[0], hzero, hword ▸ isGreatest_peakDepth program⟩
  · obtain ⟨listing, hplaced, hreads⟩ := reads_of_assemble (List.nil_append program ▸ h)
    rw [List.nil_append] at hplaced
    refine ⟨⟨code, 1⟩, listing, ?_, hplaced, hreads, fun hexec => hreads.next ?_⟩
    · simp [Cursor.at?, Code.seek, Except.map, show ¬ code.size ≤ 1 by omega]
    · refine isReserved_of_placed hplaced fun i hi => ?_
      rw [List.mem_filter, decide_eq_true_eq] at hi
      have := hexec i hi.1
      cases i <;> simp_all [Instruction.opcode, Instruction.isReserved.eq_def]

/-- Assembling a program and reading the code back. A program of which anything is left without its
labels has finished code exactly when its words fit 16-bit offsets and it has every label that it
jumps to. It is refused for its length first, and then only for a label: its depth always fits. What
is finished reproduces the program. -/
theorem assemble_reproduces (program : List Instruction)
    (hwritten : ∃ i ∈ program, i.opcode ≠ .label) :
    ((∃ code, assemble program = .ok code) ↔
      1 + extent program ≤ 65535 ∧ ∀ id, JumpsTo program id → .label id ∈ program) ∧
    (65535 < 1 + extent program →
      assemble program = .error (.exhausted (.codeLength (1 + extent program)))) ∧
    (1 + extent program ≤ 65535 → ∀ e, assemble program = .error e →
      ∃ id, JumpsTo program id ∧ .label id ∉ program ∧
        e = .inconsistent (.undefinedLabel id)) ∧
    ∀ code, assemble program = .ok code → Reproduces program code := by
  simp only [← length_eq]
  -- a program that fits is either finished or lacks a label that it jumps to
  refine ⟨⟨?_, ?_⟩, assemble_of_lt_length, ?_, fun code => reproduces_of_assemble hwritten⟩
  · rintro ⟨code, hcode⟩
    have hfits := length_le_of_assemble hcode
    obtain ⟨-, -, hlabelled⟩ | ⟨id, -, -, herror⟩ := assemble_cases hfits
    · exact ⟨hfits, hlabelled⟩
    · rw [hcode] at herror
      cases herror
  · rintro ⟨hfits, hlabelled⟩
    obtain ⟨code, hcode, -⟩ | ⟨id, hjump, hmissing, -⟩ := assemble_cases hfits
    · exact ⟨code, hcode⟩
    · exact absurd (hlabelled id hjump) hmissing
  · intro hfits e he
    obtain ⟨code, hcode, -⟩ | ⟨id, hjump, hmissing, herror⟩ := assemble_cases hfits
    · rw [hcode] at he
      cases he
    · rw [he] at herror
      exact ⟨id, hjump, hmissing, by injection herror⟩

/-- A loop whose label is written twice: the jump goes to the second place. -/
theorem assemble_reproduces_loop :
    ∃ code, assemble [.label 3, .const 0, .label 3, .load, .jumpIfNot 3, .ret] = .ok code ∧
      Reproduces [.label 3, .const 0, .label 3, .load, .jumpIfNot 3, .ret] code := by
  obtain ⟨⟨-, hfinished⟩, -, -, hreproduces⟩ :=
    assemble_reproduces [.label 3, .const 0, .label 3, .load, .jumpIfNot 3, .ret]
      ⟨.ret, by decide, by decide⟩
  obtain ⟨code, hcode⟩ := hfinished ⟨by decide, by simp [JumpsTo]⟩
  exact ⟨code, hcode, hreproduces code hcode⟩

end Assembly

end StackLisp
