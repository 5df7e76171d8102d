import Mathlib.Algebra.Order.Group.Int
import StackLisp.Proofs.Layout
import StackLisp.Proofs.Term

/-!
# The structure of finished code

Finished code has lost its labels, but it still has the structure of the terms it evaluates. A
`Block` is a stretch of code that pushes the values of some terms; it says where each part starts
and ends, where the jumps lead, and that the operands never exceed what word zero announces.

- `Lays`: wherever a program has the instructions, the finished code has a block of the terms;
- `Emits.block`: so it is with an assembled program for terms;
- `ClosureOf.Implements.body`: the code of a function is a `Body`, from offset one to its end.
-/

namespace StackLisp

/-- The code from `p` to `q` pushes the values of the terms, one after the other, when it is
entered with `depth` operands. -/
inductive Block (c : Closure) : (depth p : Nat) → List Term → (q : Nat) → Prop
  | nil {depth p : Nat} : Block c depth p [] p
  | constant {depth p q : Nat} {i : UInt16} {v : Value} {rest : List Term} :
      c.code.decode p = .ok (.const i) → c.constants[i.toNat]? = some v →
      depth < c.code.maxStack → Block c (depth + 1) (p + 2) rest q →
      Block c depth p (.constant v :: rest) q
  | lookup {depth p q : Nat} {i : UInt16} {s : Symbol} {rest : List Term} :
      c.code.decode p = .ok (.const i) → c.constants[i.toNat]? = some (.symbol s) →
      depth < c.code.maxStack → c.code.decode (p + 2) = .ok .load →
      Block c (depth + 1) (p + 3) rest q → Block c depth p (.lookup s :: rest) q
  | conditional {depth p q r : Nat} {otherwise done : UInt16}
      {test consequent alternative : Term} {rest : List Term} :
      Block c depth p [test] q → c.code.decode q = .ok (.jumpIfNot otherwise) →
      Block c depth (q + 2) [consequent] r → c.code.decode r = .ok (.jump done) →
      otherwise.toNat = r + 2 → Block c depth (r + 2) [alternative] done.toNat →
      {e : Nat} → Block c (depth + 1) done.toNat rest e →
      Block c depth p (.conditional test consequent alternative :: rest) e
  | assignment {depth p q e : Nat} {i : UInt16} {way : Assignment} {target : Symbol}
      {value : Term} {rest : List Term} :
      c.code.decode p = .ok (.const i) → c.constants[i.toNat]? = some (.symbol target) →
      depth < c.code.maxStack → Block c (depth + 1) (p + 2) [value] q →
      c.code.decode q = .ok way.instruction → Block c (depth + 1) (q + 1) rest e →
      Block c depth p (.assignment way target value :: rest) e
  | function {depth p q : Nat} {i : UInt16} {template : Closure} {rest : List Term} :
      c.code.decode p = .ok (.const i) → c.constants[i.toNat]? = some (.closure template) →
      depth < c.code.maxStack → c.code.decode (p + 2) = .ok .closure →
      Block c (depth + 1) (p + 3) rest q → Block c depth p (.function template :: rest) q
  | call {depth p q e : Nat} {n : UInt16} {callee : Term} {args rest : List Term} :
      Block c depth p (callee :: args) q → c.code.decode q = .ok (.call n) →
      n.toNat = args.length → Block c (depth + 1) (q + 2) rest e →
      Block c depth p (.call callee args :: rest) e

/-- The code from `p` on evaluates the terms in order, drops all values but the last, returns
that one, and ends there. -/
inductive Body (c : Closure) : (p : Nat) → List Term → Prop
  | last {p q : Nat} {t : Term} : Block c 0 p [t] q → c.code.decode q = .ok .ret →
      q + 1 = c.code.size → Body c p [t]
  | cons {p q : Nat} {t : Term} {rest : List Term} : Block c 0 p [t] q →
      c.code.decode q = .ok .pop → Body c (q + 1) rest → Body c p (t :: rest)

/-- A block ends where it starts or later. -/
theorem Block.le {c : Closure} {depth p q : Nat} {terms : List Term}
    (h : Block c depth p terms q) : p ≤ q := by
  induction h <;> omega

/-- Instructions are decoded inside the code only. -/
theorem Code.lt_size_of_decode {code : Code} {p : Nat} {i : Instruction}
    (h : code.decode p = .ok i) : p < code.size := by
  by_contra hge
  rw [decode, Array.getElem?_eq_none (Nat.le_of_not_lt hge)] at h
  cases h

theorem Body.lt_size {c : Closure} {p : Nat} {body : List Term} (h : Body c p body) :
    p < c.code.size := by
  cases h with
  | last hb hret => exact hb.le.trans_lt (Code.lt_size_of_decode hret)
  | cons hb hpop => exact hb.le.trans_lt (Code.lt_size_of_decode hpop)

/-! ## Static depths -/

namespace Assembly

/-- The sum of the static stack effects of a program. -/
def drift (program : List Instruction) : Int :=
  (program.map fun i => i.opcode.effect).sum

@[simp]
theorem drift_nil : drift [] = 0 := rfl

@[simp]
theorem drift_cons (i : Instruction) (program : List Instruction) :
    drift (i :: program) = i.opcode.effect + drift program := by
  simp [drift]

@[simp]
theorem drift_append (a b : List Instruction) : drift (a ++ b) = drift a + drift b := by
  simp [drift]

theorem current_foldl (program : List Instruction) (d : Depth) :
    (program.foldl Depth.step d).current = d.current + drift program := by
  induction program generalizing d with
  | nil => simp
  | cons i program ih =>
    rw [List.foldl_cons, ih, drift_cons]
    simp only [Depth.step]
    omega

/-- The running sum never exceeds the highest value counted. -/
theorem current_le_peak (program : List Instruction) {d : Depth} (h : d.current ≤ d.peak) :
    (program.foldl Depth.step d).current ≤ (program.foldl Depth.step d).peak := by
  induction program generalizing d with
  | nil => exact h
  | cons i program ih => exact ih (le_max_right _ _)

/-- The static depth after any part of a program is at most its peak. -/
theorem drift_le_peakDepth (before after : List Instruction) :
    drift before ≤ peakDepth (before ++ after) := by
  have hcurrent : drift before = (before.foldl Depth.step {}).current := by
    rw [current_foldl]
    simp
  calc drift before
      ≤ (before.foldl Depth.step {}).peak := by
        rw [hcurrent]
        exact current_le_peak before le_rfl
    _ ≤ ((before ++ after).foldl Depth.step {}).peak := by
        rw [List.foldl_append]
        exact peak_le_foldl after _
    _ ≤ peakDepth (before ++ after) := Int.self_le_toNat _

end Assembly

open Assembly

/-- Every term raises the static depth by at least one: both branches of a conditional count, and
what calls and assignments take off the stack does not. -/
theorem Emits.length_le_drift {pool : Array Value} {terms : List Term}
    {program : List Instruction} (h : Emits pool terms program) :
    (terms.length : Int) ≤ drift program := by
  -- the code of each term leaves at least one operand more than the code of its parts pops
  induction h with
  | nil => simp
  | constant _ _ ih =>
    simp [Instruction.opcode, Opcode.effect]
    omega
  | lookup _ _ ih =>
    simp [Instruction.opcode, Opcode.effect]
    omega
  | conditional _ _ _ _ iha ihb ihc ih =>
    simp [Instruction.opcode, Opcode.effect] at *
    omega
  | @assignment i way _ _ _ _ _ _ _ _ iha ih =>
    cases way <;> simp [Instruction.opcode, Opcode.effect, Assignment.instruction] at * <;> omega
  | function _ _ ih =>
    simp [Instruction.opcode, Opcode.effect]
    omega
  | call _ _ _ iha ih =>
    simp [Instruction.opcode, Opcode.effect] at *
    omega

theorem Emits.one_le_drift {pool : Array Value} {t : Term} {program : List Instruction}
    (h : Emits pool [t] program) : 1 ≤ drift program := by
  simpa using h.length_le_drift

/-! ## From programs to finished code -/

theorem labelIds_append (a b : List Instruction) :
    labelIds (a ++ b) = labelIds a ++ labelIds b :=
  List.filterMap_append

theorem mem_labelIds {program : List Instruction} {id : UInt16} :
    id ∈ labelIds program ↔ .label id ∈ program := by
  constructor
  · intro h
    obtain ⟨i, hi, hid⟩ := List.mem_filterMap.1 h
    cases i <;> simp at hid
    subst hid
    exact hi
  · exact fun h => List.mem_filterMap.2 ⟨_, h, rfl⟩

/-- A label that is defined once does not occur again after its definition. -/
theorem notMem_of_nodup {before after : List Instruction} {id : UInt16}
    (h : (labelIds (before ++ .label id :: after)).Nodup) : .label id ∉ after := by
  rw [labelIds_append, List.nodup_append] at h
  intro hmem
  have : id ∉ labelIds after := (List.nodup_cons.1 h.2.1).1
  exact this (mem_labelIds.2 hmem)

section Assembled

variable {c : Closure} {program : List Instruction}

/-- An instruction that names no label stands in the finished code as it was written. -/
theorem decode_of_settled (hasm : assemble program = .ok c.code) {before after : List Instruction}
    {i : Instruction} (hp : program = before ++ i :: after) (hi : ∀ id, i ≠ .label id)
    (hs : ∀ labels, settled labels i = .ok i) : c.code.decode (length before) = .ok i := by
  subst hp
  obtain ⟨j, hj, hd⟩ := decode_assemble hasm hi
  rw [hs, Except.ok.injEq] at hj
  rw [hd, hj]

/-- A label that is defined once is resolved to the offset of what follows it. -/
theorem resolve_label (hasm : assemble program = .ok c.code)
    (hids : (labelIds program).Nodup) {before after : List Instruction} {id : UInt16}
    (hp : program = before ++ .label id :: after) :
    ∃ target : UInt16, resolve (labels program) id = .ok target ∧
      target.toNat = length before := by
  subst hp
  have hle := length_le_of_assemble hasm
  rw [length_append] at hle
  refine ⟨(length before).toUInt16, ?_, ?_⟩
  · rw [resolve, labels_append (notMem_of_nodup hids)]
  · exact UInt16.toNat_ofNat_of_lt' (by simp only [UInt16.size]; omega)

/-- A jump to a label further on leads to the offset of what follows the label, whichever of the
two kinds of jump it is. -/
theorem decode_forward (hasm : assemble program = .ok c.code) (hids : (labelIds program).Nodup)
    {jump : UInt16 → Instruction} {before between after : List Instruction} {id : UInt16}
    (hjump : ∀ labels id, settled labels (jump id) = (resolve labels id).map jump)
    (hlabel : ∀ id other, jump id ≠ .label other)
    (hp : program = before ++ jump id :: (between ++ .label id :: after)) :
    ∃ target : UInt16, c.code.decode (length before) = .ok (jump target) ∧
      target.toNat = length (before ++ jump id :: between) := by
  have hsplit : program = (before ++ jump id :: between) ++ .label id :: after := by simp [hp]
  obtain ⟨target, hr, ht⟩ := resolve_label hasm hids hsplit
  refine ⟨target, ?_, ht⟩
  rw [hp] at hasm hr
  obtain ⟨j, hj, hd⟩ := decode_assemble hasm (hlabel id)
  rw [hjump, hr] at hj
  simp only [Except.map, Except.ok.injEq] at hj
  rw [hd, hj]

/-- Pushing a constant stays within the announced depth. -/
theorem lt_maxStack (hasm : assemble program = .ok c.code) {before after : List Instruction}
    {i : UInt16} {depth : Nat} (hp : program = before ++ .const i :: after)
    (hdepth : (depth : Int) ≤ drift before) : depth < c.code.maxStack := by
  have hpeak := drift_le_peakDepth (before ++ [.const i]) after
  rw [maxStack_assemble hasm, hp]
  simp [Instruction.opcode, Opcode.effect] at hpeak
  omega

/-- Where the jumps of a conditional lead: to the alternative, and to what follows it. -/
theorem decode_conditional (hasm : assemble program = .ok c.code)
    (hids : (labelIds program).Nodup) {before test consequent alternative after : List Instruction}
    {otherwise done : UInt16}
    (hp : program = before ++ (test ++ .jumpIfNot otherwise :: (consequent ++ .jump done ::
      .label otherwise :: (alternative ++ .label done :: after)))) :
    ∃ past out : UInt16,
      c.code.decode (length (before ++ test)) = .ok (.jumpIfNot past) ∧
      c.code.decode (length (before ++ test ++ [.jumpIfNot otherwise] ++ consequent)) =
        .ok (.jump out) ∧
      past.toNat = length (before ++ test ++ [.jumpIfNot otherwise] ++ consequent) + 2 ∧
      out.toNat = length (before ++ test ++ [.jumpIfNot otherwise] ++ consequent ++ [.jump done,
        .label otherwise] ++ alternative) := by
  -- each jump leads to a label further on; only the split of the program differs
  obtain ⟨past, hpast, hpastAt⟩ := decode_forward hasm hids (fun _ _ => rfl) (by simp)
    (show program = (before ++ test) ++ .jumpIfNot otherwise :: ((consequent ++ [.jump done]) ++
      .label otherwise :: (alternative ++ .label done :: after)) by simp [hp])
  obtain ⟨out, hout, houtAt⟩ := decode_forward hasm hids (fun _ _ => rfl) (by simp)
    (show program = (before ++ test ++ [.jumpIfNot otherwise] ++ consequent) ++ .jump done ::
      ((.label otherwise :: alternative) ++ .label done :: after) by simp [hp])
  refine ⟨past, out, hpast, hout, ?_, ?_⟩
  · have hjump : ∀ l : List Instruction, length (l ++ [.jump done]) = length l + 2 :=
      fun l => length_append_singleton l _
    rw [hpastAt, ← hjump]
    simp
  · rw [houtAt]
    simp

/-- The instructions lay out the terms: wherever the program has them, the finished code has a
block of the terms, for as many operands as there are at least by the static count. -/
def Lays (program : List Instruction) (c : Closure) (terms : List Term)
    (own : List Instruction) : Prop :=
  ∀ ⦃before after : List Instruction⦄ ⦃depth : Nat⦄, program = before ++ (own ++ after) →
    (depth : Int) ≤ drift before →
    Block c depth (length before) terms (length (before ++ own))

namespace Lays

variable {rest : List Term} {own : List Instruction}

theorem constant (hasm : assemble program = .ok c.code) {i : UInt16} {v : Value}
    (hv : c.constants[i.toNat]? = some v) (h : Lays program c rest own) :
    Lays program c (.constant v :: rest) (.const i :: own) := by
  intro before after depth hp hdepth
  have hd := decode_of_settled hasm hp (by simp) fun _ => rfl
  have hrest := @h (before ++ [.const i]) after (depth + 1) (by simp [hp])
    (by simp [Instruction.opcode, Opcode.effect]; omega)
  simp only [length_append_singleton, List.append_assoc, List.singleton_append] at hrest
  exact .constant hd hv (lt_maxStack hasm hp hdepth) hrest

/-- A constant that the next instruction works on, and what follows the two. -/
theorem behind_constant (hasm : assemble program = .ok c.code) {i : UInt16} {j : Instruction}
    (hsettled : ∀ labels, settled labels j = .ok j) (hlabel : ∀ id, j ≠ .label id)
    (hsize : j.size = 1) (heffect : j.opcode.effect = 0) (h : Lays program c rest own)
    {before after : List Instruction} {depth : Nat}
    (hp : program = before ++ (.const i :: j :: own ++ after))
    (hdepth : (depth : Int) ≤ drift before) :
    c.code.decode (length before) = .ok (.const i) ∧ depth < c.code.maxStack ∧
      c.code.decode (length before + 2) = .ok j ∧ Block c (depth + 1) (length before + 3) rest
        (length (before ++ .const i :: j :: own)) := by
  have hj : c.code.decode (length (before ++ [.const i])) = .ok j :=
    decode_of_settled hasm (by simp [hp]; rfl) hlabel hsettled
  have hrest := @h (before ++ [.const i] ++ [j]) after (depth + 1) (by simp [hp])
    (by simp [heffect]; simp [Instruction.opcode, Opcode.effect]; omega)
  rw [length_append_singleton _ j, hsize] at hrest
  rw [length_append_singleton] at hj hrest
  have hconst : (Instruction.const i).size = 2 := rfl
  refine ⟨decode_of_settled hasm hp (by simp) fun _ => rfl, lt_maxStack hasm hp hdepth, hj, ?_⟩
  simpa [hconst] using hrest

theorem assignment (hasm : assemble program = .ok c.code) {i : UInt16} {way : Assignment}
    {s : Symbol} {t : Term} {a : List Instruction} (hs : c.constants[i.toNat]? = some (.symbol s))
    (ha : Lays program c [t] a) (hgain : 1 ≤ drift a) (h : Lays program c rest own) :
    Lays program c (.assignment way s t :: rest) (.const i :: (a ++ way.instruction :: own)) := by
  intro before after depth hp hdepth
  have hd := decode_of_settled hasm hp (by simp) fun _ => rfl
  have hvalue := @ha (before ++ [.const i]) (way.instruction :: (own ++ after)) (depth + 1)
    (by simp [hp]) (by simp [Instruction.opcode, Opcode.effect]; omega)
  have hway : c.code.decode (length (before ++ [.const i] ++ a)) = .ok way.instruction :=
    decode_of_settled hasm (by simp [hp]; rfl) (by cases way <;> simp [Assignment.instruction])
      (by cases way <;> exact fun _ => rfl)
  have hsize : way.instruction.size = 1 := by cases way <;> rfl
  have hconst : (Instruction.const i).opcode.effect = 1 := rfl
  have heffect : way.instruction.opcode.effect = 0 := by cases way <;> rfl
  have hrest := @h (before ++ [.const i] ++ a ++ [way.instruction]) after (depth + 1)
    (by simp [hp]) (by simp [hconst, heffect]; omega)
  rw [length_append_singleton _ way.instruction, hsize] at hrest
  rw [length_append_singleton] at hvalue
  have := Block.assignment hd hs (lt_maxStack hasm hp hdepth) hvalue hway hrest
  simpa using this

theorem conditional (hasm : assemble program = .ok c.code) (hids : (labelIds program).Nodup)
    {test consequent alternative : Term} {otherwise done : UInt16} {a b d : List Instruction}
    (ha : Lays program c [test] a) (hb : Lays program c [consequent] b)
    (hd : Lays program c [alternative] d) (ga : 1 ≤ drift a) (gb : 1 ≤ drift b)
    (gd : 1 ≤ drift d) (h : Lays program c rest own) :
    Lays program c (.conditional test consequent alternative :: rest)
      (a ++ .jumpIfNot otherwise :: (b ++ .jump done :: .label otherwise ::
        (d ++ .label done :: own))) := by
  intro before after depth hp hdepth
  obtain ⟨past, out, hpast, hout, hpastAt, houtAt⟩ := decode_conditional hasm hids
    (show program = before ++ (a ++ .jumpIfNot otherwise :: (b ++ .jump done ::
      .label otherwise :: (d ++ .label done :: (own ++ after)))) by simp [hp])
  have htest := @ha before (.jumpIfNot otherwise :: (b ++ .jump done :: .label otherwise ::
    (d ++ .label done :: own)) ++ after) depth (by simp [hp]) hdepth
  have hthen := @hb (before ++ a ++ [.jumpIfNot otherwise]) (.jump done :: .label otherwise ::
    (d ++ .label done :: own) ++ after) depth (by simp [hp])
    (by simp [Instruction.opcode, Opcode.effect]; omega)
  have helse := @hd (before ++ a ++ [.jumpIfNot otherwise] ++ b ++ [.jump done,
    .label otherwise]) (.label done :: own ++ after) depth (by simp [hp])
    (by simp [Instruction.opcode, Opcode.effect]; omega)
  have hrest := @h (before ++ a ++ [.jumpIfNot otherwise] ++ b ++ [.jump done,
    .label otherwise] ++ d ++ [.label done]) after (depth + 1) (by simp [hp])
    (by simp [Instruction.opcode, Opcode.effect]; omega)
  -- labels take no words, so each part starts where a jump leads or where the last part ended
  have hlabel : ∀ l : List Instruction, length (l ++ [.label done]) = length l :=
    fun l => length_append_singleton l _
  have hjumps : ∀ l : List Instruction,
      length (l ++ [.jump done, .label otherwise]) = length l + 2 :=
    fun l => by simp [length_append, Instruction.size, Instruction.width, Instruction.opcode,
      Opcode.operands]
  rw [length_append_singleton] at hthen
  rw [hjumps, ← houtAt] at helse
  rw [hlabel, ← houtAt] at hrest
  have := Block.conditional htest hpast hthen hout hpastAt helse hrest
  simpa using this

theorem call (hasm : assemble program = .ok c.code) {n : UInt16} {callee : Term}
    {args : List Term} {a : List Instruction} (ha : Lays program c (callee :: args) a)
    (ga : (args.length : Int) + 1 ≤ drift a) (hn : n.toNat = args.length)
    (h : Lays program c rest own) :
    Lays program c (.call callee args :: rest) (a ++ .call n :: own) := by
  intro before after depth hp hdepth
  have hitems := @ha before (.call n :: own ++ after) depth (by simp [hp]) hdepth
  have hcall : c.code.decode (length (before ++ a)) = .ok (.call n) :=
    decode_of_settled hasm (by simp [hp]; rfl) (by simp) fun _ => rfl
  have hrest := @h (before ++ a ++ [.call n]) after (depth + 1) (by simp [hp])
    (by simp [Instruction.opcode, Opcode.effect]; omega)
  rw [length_append_singleton] at hrest
  have := Block.call hitems hcall hn hrest
  simpa using this

end Lays

/-- An assembled program for terms is a block of the finished code. -/
theorem Emits.block (hasm : assemble program = .ok c.code) (hids : (labelIds program).Nodup)
    {terms : List Term} {own : List Instruction} (h : Emits c.constants terms own) :
    Lays program c terms own := by
  -- the induction is on the emitted code; one lemma for each kind of term lays it out
  induction h with
  | nil =>
    intro before after depth _ _
    rw [List.append_nil]
    exact .nil
  | constant hv _ ih => exact ih.constant hasm hv
  | lookup hs _ ih =>
    intro before after depth hp hdepth
    obtain ⟨hd, hmax, hload, hrest⟩ :=
      ih.behind_constant hasm (fun _ => rfl) (by simp) rfl rfl hp hdepth
    exact .lookup hd hs hmax hload hrest
  | function hs _ ih =>
    intro before after depth hp hdepth
    obtain ⟨hd, hmax, hclosure, hrest⟩ :=
      ih.behind_constant hasm (fun _ => rfl) (by simp) rfl rfl hp hdepth
    exact .function hd hs hmax hclosure hrest
  | assignment hs ha _ iha ih => exact .assignment hasm hs iha ha.one_le_drift ih
  | conditional ha hb hd _ iha ihb ihd ih =>
    exact .conditional hasm hids iha ihb ihd ha.one_le_drift hb.one_le_drift hd.one_le_drift ih
  | call ha hn _ iha ih => exact iha.call hasm (by simpa using ha.length_le_drift) hn ih

/-- The code of a function has the structure of its body, from offset one to its end. -/
theorem EmitsBody.body (hasm : assemble program = .ok c.code) (hids : (labelIds program).Nodup)
    {body : List Term} {own : List Instruction} (h : EmitsBody c.constants body own)
    {before : List Instruction} (hp : program = before ++ own) (hdrift : 0 ≤ drift before) :
    Body c (length before) body := by
  induction h generalizing before with
  | @last t a ha =>
    have hblock := ha.block hasm hids hp hdrift
    have hret : c.code.decode (length (before ++ a)) = .ok .ret :=
      decode_of_settled hasm (by simp [hp]; rfl) (by simp) fun _ => rfl
    refine .last hblock hret ?_
    rw [size_assemble hasm, hp, ← List.append_assoc, length_append_singleton]
    rfl
  | @cons t rest a b ha _ ih =>
    have ga := ha.one_le_drift
    have hblock := ha.block hasm hids hp hdrift
    have hpop : c.code.decode (length (before ++ a)) = .ok .pop :=
      decode_of_settled hasm (by simp [hp]; rfl) (by simp) fun _ => rfl
    have hrest := @ih (before ++ a ++ [.pop]) (by simp [hp])
      (by simp [Instruction.opcode, Opcode.effect]; omega)
    rw [length_append_singleton] at hrest
    exact .cons hblock hpop hrest

end Assembled

/-- The code of a closure that implements a body is that body, from offset one on. -/
theorem ClosureOf.Implements.body {c : Closure} {body : List Term} (h : c.Implements body) :
    Body c 1 body := by
  obtain ⟨program, hasm, hbody, hids⟩ := h.code
  exact @EmitsBody.body c program hasm hids body program hbody [] rfl le_rfl

end StackLisp
