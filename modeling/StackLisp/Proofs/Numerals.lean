import Mathlib
import StackLisp.Decimal.Literal
import StackLisp.Value.Printer

/-!
# Texts of numbers

Numbers are compared by what they unpack to: a sign with a mantissa and an exponent, a zero, an
infinity, or what is not a number. That packing and unpacking undo each other, and which numbers are
equal, is found in the library as a whole and in none of its modules.

- `Decimal.numeric_render`: the characters in the text of a finite number;
- `Decimal.render_of_beq_zero`: the text of both zeros;
- `Decimal.isNaN_of_read?`: no literal denotes what is not a number.
-/

namespace StackLisp

namespace Decimal

open Float.Model Float.Model.UnpackedFloat

/-- A finite number has digits: its exponent field is not the one of the special numbers. -/
theorem decode_of_isFinite {n : Float} (h : n.isFinite = true) :
    ∃ b, decode n.toBits = .finite b := by
  -- the quotient that is decoded is the exponent field, as a natural number
  by_cases hspecial : n.toBits.toNat / hiddenBit % 2048 = 2047
  · exfalso
    have hexponent : @unpackExponent Format.binary64 n.toModel.toBits.toBitVec = -1#11 := by
      apply BitVec.eq_of_toNat_eq
      rw [unpackExponent_def, BitVec.extractLsb'_toNat, Nat.shiftRight_eq_div_pow]
      exact hspecial
    have hunpack : n.toModel.unpack.isFinite = true := h
    simp only [Float.Model.unpack, UnpackedFloat.unpack, hexponent] at hunpack
    split at hunpack
    · split at hunpack <;> cases hunpack
    · contradiction
  · rw [decode, if_neg hspecial]
    split <;> exact ⟨_, rfl⟩

/-- The characters of the texts of numbers: digits, the minus sign and the point. -/
def IsNumeric (c : Char) : Prop :=
  c.isDigit = true ∨ c = '-' ∨ c = '.'

/-- A text of such characters with at least one digit. -/
structure Numeric (cs : List Char) : Prop where
  digit : ∃ c ∈ cs, c.isDigit = true
  numeric : ∀ c ∈ cs, IsNumeric c

theorem Numeric.append {cs ds : List Char} (h : Numeric cs) (hds : ∀ c ∈ ds, IsNumeric c) :
    Numeric (cs ++ ds) := by
  obtain ⟨⟨c, hc, hdigit⟩, hcs⟩ := h
  exact ⟨⟨c, List.mem_append_left ds hc, hdigit⟩, List.forall_mem_append.2 ⟨hcs, hds⟩⟩

theorem Numeric.prepend {cs ds : List Char} (h : Numeric ds) (hcs : ∀ c ∈ cs, IsNumeric c) :
    Numeric (cs ++ ds) := by
  obtain ⟨⟨c, hc, hdigit⟩, hds⟩ := h
  exact ⟨⟨c, List.mem_append_right cs hc, hdigit⟩, List.forall_mem_append.2 ⟨hcs, hds⟩⟩

theorem numeric_of_digits {cs : List Char} (hne : cs ≠ []) (h : ∀ c ∈ cs, c.isDigit = true) :
    Numeric cs := by
  obtain ⟨c, hc⟩ := List.exists_mem_of_ne_nil cs hne
  exact ⟨⟨c, hc, h c hc⟩, fun x hx => .inl (h x hx)⟩

theorem isNumeric_of_mem_zeros {count : Nat} {c : Char} (h : c ∈ (zeros count).toList) :
    IsNumeric c := by
  rw [zeros, String.pushn_eq_repeat_push] at h
  induction count with
  | zero => cases h
  | succ count ih =>
    rw [Nat.repeat, String.toList_push, List.mem_append, List.mem_singleton] at h
    rcases h with h | rfl
    · exact ih h
    · exact .inl rfl

theorem isDigit_of_mem_toString {n : Nat} {c : Char} (h : c ∈ (toString n).toList) :
    c.isDigit = true := by
  rw [Nat.toString_eq_ofList_toDigits, String.toList_ofList] at h
  exact Nat.isDigit_of_mem_toDigits (by decide) (by decide) h

theorem toList_toString_ne_nil (n : Nat) : (toString n).toList ≠ [] := by
  rw [Nat.toString_eq_ofList_toDigits, String.toList_ofList]
  exact Nat.toDigits_ne_nil

/-- A decimal is written with digits and at most a point. -/
theorem numeric_positional (d : Digits) : Numeric d.positional.toList := by
  have htext := numeric_of_digits (toList_toString_ne_nil d.digits) fun _ =>
    isDigit_of_mem_toString
  unfold Digits.positional
  dsimp only
  split
  · -- zeros stand behind the digits
    rw [String.toList_append]
    exact htext.append fun _ => isNumeric_of_mem_zeros
  split
  · -- the point stands among the digits, and at least one of them before it
    rename_i hplaces
    simp only [String.toList_append, String.toList_ofList, List.append_assoc]
    refine (numeric_of_digits ?_ fun c hc => ?_).append ?_
    · rw [ne_eq, List.take_eq_nil_iff, not_or]
      exact ⟨by omega, toList_toString_ne_nil d.digits⟩
    · exact isDigit_of_mem_toString (List.mem_of_mem_take hc)
    · refine List.forall_mem_append.2 ⟨by simp [IsNumeric], fun c hc => ?_⟩
      exact .inl (isDigit_of_mem_toString (List.mem_of_mem_drop hc))
  · -- all digits stand behind the point
    simp only [String.toList_append]
    refine htext.prepend (List.forall_mem_append.2 ⟨?_, fun _ => isNumeric_of_mem_zeros⟩)
    simp [IsNumeric]

/-- The text of a finite number holds digits, minus signs and points only, and at least one
digit. -/
theorem numeric_render {n : Float} (h : n.isFinite = true) :
    Numeric (Value.numberStyle.render n).toList := by
  obtain ⟨b, hb⟩ := decode_of_isFinite h
  rw [Style.render, hb]
  dsimp only
  split
  · change Numeric "0".toList
    exact numeric_of_digits (by simp) (by simp)
  split
  · rw [String.toList_append]
    exact (numeric_positional _).prepend (by simp [IsNumeric])
  · exact numeric_positional _

theorem eq_zero_of_beq {n : Float} (h : (n == 0) = true) : n = 0 ∨ n = -0 := by
  obtain ⟨-, -, rfl | ⟨rfl, -⟩ | ⟨rfl, -⟩⟩ := Float.beq_iff_ne_nan_and_eq.1 h
  · exact .inl rfl
  · exact .inl rfl
  · exact .inr rfl

/-- Both zeros are written the same way. -/
theorem render_of_beq_zero {n : Float} (h : (n == 0) = true) :
    Value.numberStyle.render n = "0" := by
  rcases eq_zero_of_beq h with rfl | rfl <;> decide +kernel

theorem zero_beq {n : Float} (h : (n == 0) = true) : ((0 : Float) == n) = true := by
  rcases eq_zero_of_beq h with rfl | rfl <;> decide +kernel

theorem read?_zero : read? "0".toList = some 0 := by decide +kernel

/-! ## What literals denote -/

theorem unpack_pack_ne {spec : Format} {x : UnpackedFloat} (h : x ≠ .notANumber) :
    unpack spec (UnpackedFloat.pack spec x) ≠ .notANumber := by
  intro hnan
  have hspecial : unpackExponent (UnpackedFloat.pack spec x) = -1#_ ∧
      unpackMantissa (UnpackedFloat.pack spec x) ≠ 0#_ := by
    unfold UnpackedFloat.unpack at hnan
    grind
  obtain ⟨hexponent, hmantissa⟩ := hspecial
  cases x with
  | notANumber => exact h rfl
  | infinity s => simp [UnpackedFloat.pack, packedInfinity] at hmantissa
  | zero s => simp [UnpackedFloat.pack, packedZero] at hmantissa
  | finite s m e hm =>
    -- too large a number becomes infinite, and any other one keeps a smaller exponent field
    unfold UnpackedFloat.pack at hexponent hmantissa
    simp only at hexponent hmantissa
    split at hexponent
    · next hlarge => simp [hlarge, packedInfinity] at hmantissa
    · next hlarge =>
      split at hexponent
      · rw [unpackExponent_packComponents] at hexponent
        have := congrArg BitVec.toNat hexponent
        rw [BitVec.neg_one_eq_allOnes, BitVec.toNat_allOnes, BitVec.toNat_ofNat,
          Nat.mod_eq_of_lt] at this
        · omega
        · omega
      · rw [unpackExponent_packComponents] at hexponent
        simp [Nat.pos_iff_ne_zero.1 spec.he] at hexponent

theorem roundWithAccuracy_ne (spec : Format) (s : Sign) (m : Nat) (e : Int) (a : Accuracy) :
    roundWithAccuracy spec s m e a ≠ .notANumber := by
  unfold roundWithAccuracy
  dsimp only
  split <;> simp

theorem ofScientific_ne (spec : Format) (m : Nat) (e : Int) :
    UnpackedFloat.ofScientific spec m e ≠ .notANumber := by
  unfold UnpackedFloat.ofScientific
  split_ifs
  · simp
  · simp
  · simp
  · exact roundWithAccuracy_ne _ _ _ _ _
  · exact roundWithAccuracy_ne _ _ _ _ _

theorem isNaN_eq_false_iff {x : Float} :
    x.isNaN = false ↔ x.toModel.unpack ≠ .notANumber := by
  rw [← Bool.not_eq_true]
  exact isNaN_iff.not

theorem isNaN_pack {x : UnpackedFloat} (h : x ≠ .notANumber) :
    (Float.ofModel (Float.Model.pack x)).isNaN = false :=
  isNaN_eq_false_iff.2 (@unpack_pack_ne Format.binary64 x h)

theorem isNaN_neg {x : Float} (h : x.isNaN = false) : (-x).isNaN = false := by
  refine isNaN_pack ?_
  have hx := isNaN_eq_false_iff.1 h
  cases hy : x.toModel.unpack with
  | notANumber => exact absurd hy hx
  | _ => simp [UnpackedFloat.neg]

section Scaling

variable {x y : Float} {s : Sign} {m : Nat} {e : Int} {hm : 0 < m}

theorem isNaN_mul (h : x.isNaN = false) (hy : y.toModel.unpack = .finite s m e hm) :
    (x * y).isNaN = false := by
  refine isNaN_pack ?_
  have hx := isNaN_eq_false_iff.1 h
  rw [hy]
  cases hz : x.toModel.unpack with
  | notANumber => exact absurd hz hx
  | finite => exact roundWithAccuracy_ne _ _ _ _ _
  | _ => simp [UnpackedFloat.mul]

theorem isNaN_div (h : x.isNaN = false) (hy : y.toModel.unpack = .finite s m e hm) :
    (x / y).isNaN = false := by
  refine isNaN_pack ?_
  have hx := isNaN_eq_false_iff.1 h
  rw [hy]
  cases hz : x.toModel.unpack with
  | notANumber => exact absurd hz hx
  | finite => exact roundWithAccuracy_ne _ _ _ _ _
  | _ => simp [UnpackedFloat.div]

end Scaling

theorem unpack_powerOfTen : ∀ p ∈ Float.exactlyRepresentablePowersOfTen,
    ∃ s m e hm, p.toModel.unpack = .finite s m e hm := by
  have hfinite : ∀ p ∈ Float.exactlyRepresentablePowersOfTen,
      (match p.toModel.unpack with
        | .finite .. => true
        | _ => false) = true := by decide +kernel
  intro p hp
  have hpower := hfinite p hp
  split at hpower
  · next s m e hm heq => exact ⟨s, m, e, hm, heq⟩
  · cases hpower

theorem isNaN_ofNat (n : Nat) : n.toUInt64.toFloat.isNaN = false := by
  refine isNaN_pack ?_
  change UnpackedFloat.normalize _ _ _ _ ≠ _
  unfold UnpackedFloat.normalize
  split
  · exact roundWithAccuracy_ne _ _ _ _ _
  · simp
  · exact roundWithAccuracy_ne _ _ _ _ _

theorem isNaN_ofScientific (m : Nat) (s : Bool) (e : Nat) :
    (Float.ofScientific m s e).isNaN = false := by
  unfold Float.ofScientific
  split
  · next h =>
    -- a small number is scaled by a power of ten that is known exactly
    have hsize : Float.exactlyRepresentablePowersOfTen.size = 23 := rfl
    have hlt : e < Float.exactlyRepresentablePowersOfTen.size := by omega
    obtain ⟨_, _, _, _, hpower⟩ := unpack_powerOfTen _ (Array.getElem_mem hlt)
    dsimp only
    split
    · exact isNaN_div (isNaN_ofNat m) hpower
    · exact isNaN_mul (isNaN_ofNat m) hpower
  · exact isNaN_pack (ofScientific_ne _ _ _)

theorem isNaN_toFloat (l : Literal) : l.toFloat.isNaN = false := by
  have hzero : (0 : Float).isNaN = false := isNaN_ofScientific 0 false 0
  have hinfinity : infinity.isNaN = false := by decide +kernel
  unfold Literal.toFloat
  extract_lets digits exponent top size
  -- the size is zero, infinite or a scaled whole number, and the sign does not matter
  have hsize : size.isNaN = false := by
    unfold size
    split_ifs
    · exact hzero
    · exact hinfinity
    · dsimp only
      split
      · exact isNaN_ofScientific _ _ _
      · exact isNaN_ofScientific _ _ _
  split
  · exact isNaN_neg hsize
  · exact hsize

/-- What a decimal literal denotes is a number. -/
theorem isNaN_of_read? {cs : List Char} {x : Float} (h : read? cs = some x) : x.isNaN = false := by
  obtain ⟨l, -, rfl⟩ := Option.map_eq_some_iff.1 h
  exact isNaN_toFloat l

end Decimal

end StackLisp
