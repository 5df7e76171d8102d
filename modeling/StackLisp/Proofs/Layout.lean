import Mathlib.Algebra.Ring.Int.Defs
import Mathlib.Algebra.Ring.Nat
import Mathlib.Data.Int.Order.Basic
import Mathlib.Data.List.Induction
import Mathlib.Order.MinMax
import StackLisp.Code.Assembly
import StackLisp.Code.Cursor

/-!
# Where assembled instructions stand

Assembly lays instructions out one after the other. The instruction after a part `before` of a
program starts at the offset `Assembly.length before`, and decoding there gives it back with its
label replaced by the offset that the label stands for.

- `decode_assemble`: decoding at the offset of an instruction;
- `labels_append`: the offset of a label that is not repeated;
- `size_assemble`, `maxStack_assemble`: the length and word zero of the finished code.
-/

namespace StackLisp

/-- The words of an instruction: its opcode, then its operand. -/
def Instruction.words (i : Instruction) : List UInt16 :=
  i.opcode.word :: i.operand?.toList

theorem Instruction.length_words (i : Instruction) : i.words.length = i.width := by
  cases i <;> rfl

/-- Adding the words of an instruction is pushing them one by one. -/
theorem Instruction.append_words (words : Code) (i : Instruction) :
    words ++ i.words.toArray = match i.operand? with
      | some operand => (words.push i.opcode.word).push operand
      | none => words.push i.opcode.word := by
  apply Array.ext'
  cases h : i.operand? <;> simp [Instruction.words, h]

/-- The words of an instruction decode to it, wherever they stand. -/
theorem Code.decode_of_words {code : Code} {p : Nat} {i : Instruction}
    (h : ∀ k < i.words.length, code[p + k]? = i.words[k]?) : code.decode p = .ok i := by
  have hop : code[p]? = some i.opcode.word := by
    simpa [Instruction.words] using h 0 (by simp [Instruction.words])
  unfold decode
  rw [hop]
  simp only [Opcode.ofWord?_word]
  cases hi : i.operand? with
  | none =>
    have hz : i.opcode.operands = 0 := by
      cases i <;> simp_all [Instruction.operand?, Instruction.opcode, Opcode.operands]
    rw [if_pos hz]
    simpa [hi] using Instruction.ofParts_opcode i
  | some n =>
    have hz : i.opcode.operands ≠ 0 := by
      cases i <;> simp_all [Instruction.operand?, Instruction.opcode, Opcode.operands]
    have hn : code[p + 1]? = some n := by
      simpa [Instruction.words, hi] using h 1 (by simp [Instruction.words, hi])
    rw [if_neg hz, hn]
    simpa [hi] using Instruction.ofParts_opcode i

namespace Assembly

/-! ## Offsets -/

/-- The words that a part of a program takes. -/
def extent (program : List Instruction) : Nat :=
  (program.map Instruction.size).sum

@[simp]
theorem extent_nil : extent [] = 0 := rfl

@[simp]
theorem extent_cons (i : Instruction) (program : List Instruction) :
    extent (i :: program) = i.size + extent program := by
  simp [extent]

@[simp]
theorem extent_append (a b : List Instruction) : extent (a ++ b) = extent a + extent b := by
  simp [extent]

theorem length_eq (program : List Instruction) : length program = 1 + extent program := by
  induction program using List.reverseRecOn with
  | nil => rfl
  | append_singleton program i ih =>
    rw [length_append_singleton, ih]
    simp
    omega

/-- A part of a program moves what follows it by its own words. -/
theorem length_append (a b : List Instruction) : length (a ++ b) = length a + extent b := by
  rw [length_eq, length_eq, extent_append]
  omega

/-! ## Labels -/

/-- Labels take no words, so the layout's offset is the length of the code so far. -/
theorem offset_foldl (program : List Instruction) (l : Layout) :
    (program.foldl Layout.step l).offset = l.offset + extent program := by
  induction program generalizing l with
  | nil => simp
  | cons i program ih =>
    rw [List.foldl_cons, ih, extent_cons, ← Nat.add_assoc]
    congr 1
    cases i <;> simp [Layout.step, Instruction.size]

/-- Instructions that are not the label leave its place alone. -/
theorem labels_foldl_of_notMem {program : List Instruction} {id : UInt16}
    (h : .label id ∉ program) (l : Layout) :
    (program.foldl Layout.step l).labels[id]? = l.labels[id]? := by
  induction program generalizing l with
  | nil => rfl
  | cons i program ih =>
    rw [List.mem_cons, not_or] at h
    rw [List.foldl_cons, ih h.2]
    cases i with
    | label other =>
      have hne : other ≠ id := by
        rintro rfl
        exact h.1 rfl
      simp [Layout.step, Std.HashMap.getElem?_insert, hne]
    | _ => rfl

/-- A label stands for the offset at which it was written last. -/
theorem labels_append {before after : List Instruction} {id : UInt16}
    (h : .label id ∉ after) :
    (labels (before ++ .label id :: after))[id]? = some (length before) := by
  have hoffset : (before.foldl Layout.step {}).offset = length before := by
    rw [offset_foldl, length_eq]
  rw [labels, List.foldl_append, List.foldl_cons, labels_foldl_of_notMem h]
  simp [Layout.step, hoffset]

/-! ## The words of a program -/

/-- An instruction as it stands in finished code: a jump names an offset and no label. -/
def settled (labels : Std.HashMap UInt16 Nat) : Instruction → Except Error Instruction
  | .jump id => (resolve labels id).map .jump
  | .jumpIfNot id => (resolve labels id).map .jumpIfNot
  | i => .ok i

/-- Writing an instruction other than a label adds the words of its settled form. -/
theorem emit_eq (labels : Std.HashMap UInt16 Nat) (words : Code) {i : Instruction}
    (h : ∀ id, i ≠ .label id) :
    emit labels words i = (settled labels i).map fun j => words ++ j.words.toArray := by
  simp only [Instruction.append_words]
  cases i with
  | label id => exact absurd rfl (h id)
  | jump id =>
    simp only [emit, settled]
    cases resolve labels id <;> rfl
  | jumpIfNot id =>
    simp only [emit, settled]
    cases resolve labels id <;> rfl
  | _ => rfl

/-- Settling an instruction keeps its size. -/
theorem size_of_settled {labels : Std.HashMap UInt16 Nat} {i j : Instruction}
    (hi : ∀ id, i ≠ .label id) (h : settled labels i = .ok j) : j.words.length = i.size := by
  rw [Instruction.length_words]
  cases i with
  | label id => exact absurd rfl (hi id)
  | jump id =>
    simp only [settled] at h
    cases hr : resolve labels id <;> simp [hr, Except.map] at h
    subst h
    rfl
  | jumpIfNot id =>
    simp only [settled] at h
    cases hr : resolve labels id <;> simp [hr, Except.map] at h
    subst h
    rfl
  | _ =>
    simp only [settled, Except.ok.injEq] at h
    subst h
    rfl

/-- What one instruction adds to the words before it. -/
theorem emit_eq_ok {labels : Std.HashMap UInt16 Nat} {words code : Code} {i : Instruction}
    (h : emit labels words i = .ok code) :
    ∃ added : List UInt16, code = words ++ added.toArray ∧ added.length = i.size := by
  by_cases hi : ∃ id, i = .label id
  · obtain ⟨id, rfl⟩ := hi
    simp only [emit, Except.ok.injEq] at h
    exact ⟨[], by simp [h], rfl⟩
  · rw [not_exists] at hi
    rw [emit_eq labels words hi] at h
    cases hs : settled labels i with
    | error e => simp [hs, Except.map] at h
    | ok j =>
      simp only [hs, Except.map, Except.ok.injEq] at h
      exact ⟨j.words, h.symm, size_of_settled hi hs⟩

/-- What a part of a program adds to the words before it. -/
theorem foldlM_emit_eq_ok {labels : Std.HashMap UInt16 Nat} {program : List Instruction}
    {words code : Code} (h : program.foldlM (emit labels) words = .ok code) :
    ∃ added : List UInt16, code = words ++ added.toArray ∧ added.length = extent program := by
  induction program generalizing words with
  | nil =>
    simp only [List.foldlM_nil, pure, Except.pure, Except.ok.injEq] at h
    exact ⟨[], by simp [h], rfl⟩
  | cons i program ih =>
    rw [List.foldlM_cons] at h
    cases hi : emit labels words i with
    | error e => simp [hi, bind, Except.bind] at h
    | ok middle =>
      simp only [hi, bind, Except.bind] at h
      obtain ⟨first, rfl, hfirst⟩ := emit_eq_ok hi
      obtain ⟨others, rfl, hothers⟩ := ih h
      exact ⟨first ++ others, by simp, by simp [hfirst, hothers]⟩

/-! ## The running sum of stack effects -/

/-- The peak never falls below what it was. -/
theorem peak_le_foldl (program : List Instruction) (d : Depth) :
    d.peak ≤ (program.foldl Depth.step d).peak := by
  induction program generalizing d with
  | nil => exact le_rfl
  | cons i program ih => exact le_trans (le_max_left _ _) (ih (d.step i))

/-- No instruction raises the depth by more than the words it takes. -/
theorem effect_le_size (i : Instruction) : i.opcode.effect ≤ i.size := by
  cases i <;> simp [Instruction.opcode, Opcode.effect, Instruction.size, Instruction.width,
    Opcode.operands]

/-- The running sum and its peak grow by at most the words of the program. -/
theorem peak_foldl_le (program : List Instruction) (d : Depth) (bound : Int)
    (hpeak : d.peak ≤ bound) (hcurrent : d.current ≤ bound) :
    (program.foldl Depth.step d).peak ≤ bound + extent program := by
  induction program generalizing d bound with
  | nil => simpa using hpeak
  | cons i program ih =>
    have hi := effect_le_size i
    have := ih (d.step i) (bound + i.size) (by simp only [Depth.step]; omega)
      (by simp only [Depth.step]; omega)
    rw [List.foldl_cons, extent_cons]
    push_cast
    omega

/-- The peak of the running sum is less than the length of the code. -/
theorem peakDepth_lt_length (program : List Instruction) : peakDepth program < length program := by
  have hpeak := peak_foldl_le program {} 0 le_rfl le_rfl
  rw [length_eq, peakDepth]
  omega

/-! ## Which programs are written -/

/-- A program whose words fit is written: its peak fits word zero with them. -/
theorem assemble_of_length_le {program : List Instruction} (h : length program ≤ 65535) :
    assemble program =
      program.foldlM (emit (labels program)) #[(peakDepth program).toUInt16] := by
  have hpeak := peakDepth_lt_length program
  rw [assemble, if_neg (by omega), if_neg (by omega)]

theorem assemble_of_lt_length {program : List Instruction} (h : 65535 < length program) :
    assemble program = .error (.exhausted (.codeLength (length program))) := by
  rw [assemble, if_pos h]

/-- Finished code fits 16-bit offsets. -/
theorem length_le_of_assemble {program : List Instruction} {code : Code}
    (h : assemble program = .ok code) : length program ≤ 65535 := by
  by_contra hlong
  rw [assemble_of_lt_length (by omega)] at h
  cases h

/-- Finished code is written instruction after instruction. -/
theorem foldlM_emit_of_assemble {program : List Instruction} {code : Code}
    (h : assemble program = .ok code) :
    program.foldlM (emit (labels program)) #[(peakDepth program).toUInt16] = .ok code := by
  rw [← assemble_of_length_le (length_le_of_assemble h), h]

/-! ## The finished code -/

/-- Decoding at the offset of an instruction gives it back, with its label settled. -/
theorem decode_assemble {before after : List Instruction} {i : Instruction} {code : Code}
    (h : assemble (before ++ i :: after) = .ok code) (hi : ∀ id, i ≠ .label id) :
    ∃ j, settled (labels (before ++ i :: after)) i = .ok j ∧
      code.decode (length before) = .ok j := by
  have h := foldlM_emit_of_assemble h
  -- the words in front are those of what stands before, and those behind are not looked at
  generalize labels (before ++ i :: after) = ls at h ⊢
  rw [List.foldlM_append] at h
  cases hb : before.foldlM (emit ls) #[(peakDepth (before ++ i :: after)).toUInt16] with
  | error e => simp [hb, bind, Except.bind] at h
  | ok words =>
    simp only [hb, bind, Except.bind, List.foldlM_cons, emit_eq _ _ hi] at h
    cases hs : settled ls i with
    | error e => simp [hs, Except.map] at h
    | ok j =>
      refine ⟨j, rfl, Code.decode_of_words fun k hk => ?_⟩
      simp only [hs, Except.map] at h
      obtain ⟨first, rfl, hfirst⟩ := foldlM_emit_eq_ok hb
      obtain ⟨others, rfl, -⟩ := foldlM_emit_eq_ok h
      have hstart : length before = (#[(peakDepth (before ++ i :: after)).toUInt16]
          ++ first.toArray).size := by
        simp [length_eq, hfirst]
        omega
      rw [hstart, Array.getElem?_append_left (by simp; omega),
        Array.getElem?_append_right (by omega)]
      simp

/-- The finished code is as long as its instructions say. -/
theorem size_assemble {program : List Instruction} {code : Code}
    (h : assemble program = .ok code) : code.size = length program := by
  obtain ⟨added, rfl, hadded⟩ := foldlM_emit_eq_ok (foldlM_emit_of_assemble h)
  simp [length_eq, hadded, Nat.add_comm]

/-- Word zero of finished code is the peak of the running sum, without loss. -/
theorem maxStack_assemble {program : List Instruction} {code : Code}
    (h : assemble program = .ok code) : code.maxStack = peakDepth program := by
  have hlength := length_le_of_assemble h
  have hpeak := peakDepth_lt_length program
  have hsmall : peakDepth program < 2 ^ 16 := by omega
  obtain ⟨added, rfl, -⟩ := foldlM_emit_eq_ok (foldlM_emit_of_assemble h)
  have hword : (peakDepth program).toUInt16.toNat = peakDepth program :=
    Nat.mod_eq_of_lt hsmall
  simp [Code.maxStack, hword]

end Assembly

end StackLisp
