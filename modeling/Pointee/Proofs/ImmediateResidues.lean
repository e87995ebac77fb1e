import Mathlib.Data.Int.ModEq
import Pointee.Immediate

/-!
# Immediates as residues

An immediate of width `w` is a residue modulo `2 ^ w`, and it stands for the number of its residue
class that lies in the range of its type. Read `Immediate.toInt_emod` first: it takes the signed
reading and the unsigned one of width one back to the same bits, and no proof after it tells the
widths apart.
-/

namespace Pointee

namespace Immediate

/-- The numbers of an integer type: those of the signed range, but zero and one at width one. -/
def InRange : IntWidth → Int → Prop
  | .w1, n => n = 0 ∨ n = 1
  | width, n => -2 ^ (width.bits - 1) ≤ n ∧ n < 2 ^ (width.bits - 1)

theorem toInt_eq (imm : Immediate) :
    imm.toInt = if imm.width = .w1 then (imm.bits.toNat : Int) else imm.bits.toInt := by
  obtain ⟨width, bits⟩ := imm
  cases width <;> rfl

theorem toInt_inRange (imm : Immediate) : InRange imm.width imm.toInt := by
  obtain ⟨width, bits⟩ := imm
  cases width with
  | w1 =>
      have hlt : bits.toNat < 2 := bits.isLt
      show (bits.toNat : Int) = 0 ∨ (bits.toNat : Int) = 1
      omega
  | w8 | w16 | w32 | w64 | w128 => exact ⟨BitVec.le_toInt bits, BitVec.toInt_lt⟩

/-- Both readings of the bits leave the same remainder. -/
theorem toInt_emod (imm : Immediate) :
    imm.toInt % 2 ^ imm.width.bits = (imm.bits.toNat : Int) := by
  have hnat : (imm.bits.toNat : Int) % 2 ^ imm.width.bits = imm.bits.toNat := by
    refine Int.emod_eq_of_lt (Int.natCast_nonneg _) ?_
    exact_mod_cast imm.bits.isLt
  rw [toInt_eq]
  split
  · exact hnat
  · have hsigned := Int.bmod_emod (x := imm.bits.toNat) (m := 2 ^ imm.width.bits)
    rw [← BitVec.toInt_eq_toNat_bmod] at hsigned
    push_cast at hsigned
    exact hsigned.trans hnat

theorem toNat_bits_ofInt (width : IntWidth) (v : Int) :
    ((ofInt width v).bits.toNat : Int) = v % 2 ^ width.bits := by
  have hpow : ((2 ^ width.bits : Nat) : Int) = 2 ^ width.bits := by norm_cast
  have hne : (2 ^ width.bits : Int) ≠ 0 := pow_ne_zero _ (by decide)
  show ((BitVec.ofInt width.bits v).toNat : Int) = _
  rw [BitVec.toNat_ofInt, hpow, Int.toNat_of_nonneg (Int.emod_nonneg v hne)]

theorem ofInt_eq_iff {width : IntWidth} {v v' : Int} :
    ofInt width v = ofInt width v' ↔ v ≡ v' [ZMOD 2 ^ width.bits] := by
  constructor
  · intro h
    rw [Int.ModEq, ← toNat_bits_ofInt, ← toNat_bits_ofInt, h]
  · intro h
    refine congrArg (Immediate.mk width) (BitVec.eq_of_toNat_eq ?_)
    have hbits : ((ofInt width v).bits.toNat : Int) = (ofInt width v').bits.toNat := by
      rw [toNat_bits_ofInt, toNat_bits_ofInt, h.eq]
    exact_mod_cast hbits

/-- The number that an immediate stands for gives it back. -/
theorem ofInt_toInt (imm : Immediate) : ofInt imm.width imm.toInt = imm := by
  obtain ⟨width, bits⟩ := imm
  refine congrArg (Immediate.mk width) (BitVec.eq_of_toNat_eq ?_)
  have hbits : ((ofInt width (toInt ⟨width, bits⟩)).bits.toNat : Int) = bits.toNat := by
    rw [toNat_bits_ofInt]
    exact toInt_emod ⟨width, bits⟩
  exact_mod_cast hbits

theorem toInt_ofInt_modEq (width : IntWidth) (v : Int) :
    (ofInt width v).toInt ≡ v [ZMOD 2 ^ width.bits] :=
  ofInt_eq_iff.1 (ofInt_toInt (ofInt width v))

theorem isZero_ofInt_iff (width : IntWidth) (v : Int) :
    (ofInt width v).isZero = true ↔ 2 ^ width.bits ∣ v := by
  have hzero : (ofInt width 0).toInt = 0 := by cases width <;> rfl
  rw [isZero, decide_eq_true_eq, ← Int.modEq_zero_iff_dvd]
  constructor
  · intro h
    have hmod := toInt_ofInt_modEq width v
    rw [h] at hmod
    exact hmod.symm
  · intro h
    rw [ofInt_eq_iff.2 h, hzero]

theorem toIndex?_eq_some_iff (imm : Immediate) (n : Nat) :
    imm.toIndex? = some n ↔ imm.toInt = n ∧ n < 2 ^ 64 := by
  have hsize : UInt64.size = 2 ^ 64 := rfl
  simp only [toIndex?, Option.ite_none_right_eq_some, Option.some.injEq, hsize]
  omega

/-- An immediate keeps the residue of a number: it reads back as the number of the same residue in
the range of its type, is zero exactly for the residue zero, and is the same for two numbers exactly
if their residues are. What it reads as gives it back, and serves as a position exactly if it is a
natural number below `2 ^ 64`. -/
theorem immediates_are_residues :
    (∀ (width : IntWidth) (v : Int), ∃ imm, ofType (.int width) v = .ok imm ∧
      imm.ty = .int width ∧ imm.toInt ≡ v [ZMOD 2 ^ width.bits] ∧ InRange width imm.toInt ∧
      (imm.isZero = true ↔ 2 ^ width.bits ∣ v)) ∧
    (∀ imm : Immediate, ofType imm.ty imm.toInt = .ok imm) ∧
    (∀ (imm : Immediate) (n : Nat), imm.toIndex? = some n ↔ imm.toInt = n ∧ n < 2 ^ 64) ∧
    ∀ (width : IntWidth) (v v' : Int),
      ofType (.int width) v = ofType (.int width) v' ↔ v ≡ v' [ZMOD 2 ^ width.bits] := by
  refine ⟨fun width v => ?_, fun imm => ?_, toIndex?_eq_some_iff, fun width v v' => ?_⟩
  · exact ⟨ofInt width v, rfl, rfl, toInt_ofInt_modEq width v, toInt_inRange (ofInt width v),
      isZero_ofInt_iff width v⟩
  · exact congrArg Except.ok imm.ofInt_toInt
  · rw [← ofInt_eq_iff]
    exact ⟨Except.ok.inj, congrArg Except.ok⟩

end Immediate

end Pointee
