/-
  EnetRs.Lib.Crc — reflected cyclic redundancy checks, bit by bit.

  The register is shifted right once per message bit; a one that falls out adds
  the polynomial.  The step is linear over xor, so several steps at once split
  into a part that depends on the low bits only, which a table can hold, and a
  plain shift of the rest.

  Main result:
    * `iterate_bitStep` — `k` steps on any register are `k` steps on its low `k`
      bits, and a shift.
-/
import Mathlib.Data.BitVec
import Mathlib.Logic.Function.Iterate

namespace Crc

variable {w : Nat} (poly : BitVec w)

/-- One shift of the register. -/
def bitStep (s : BitVec w) : BitVec w :=
  if s.getLsbD 0 then (s >>> 1) ^^^ poly else s >>> 1

/-- A byte of the message: it is added to the low end of the register, which is
then shifted eight times. -/
def byteStep (s : BitVec w) (b : BitVec 8) : BitVec w := (bitStep poly)^[8] (s ^^^ b.setWidth w)

/-- **The reflected CRC** with final complement. -/
def reflected (init : BitVec w) (data : List (BitVec 8)) : BitVec w :=
  ~~~ data.foldl (byteStep poly) init

/-- The low `k` bits of a register. -/
def lowMask (w k : Nat) : BitVec w := (BitVec.allOnes k).setWidth w

theorem getLsbD_lowMask (k i : Nat) :
    (lowMask w k).getLsbD i = (decide (i < w) && decide (i < k)) := by
  rw [lowMask, BitVec.getLsbD_setWidth, BitVec.getLsbD_allOnes]

theorem bitStep_xor (a b : BitVec w) :
    bitStep poly (a ^^^ b) = bitStep poly a ^^^ bitStep poly b := by
  unfold bitStep
  rw [BitVec.getLsbD_xor, BitVec.ushiftRight_xor_distrib]
  -- two polynomials cancel
  have hcancel : ∀ x y : BitVec w, x ^^^ y = (x ^^^ poly) ^^^ (y ^^^ poly) := by
    intro x y
    rw [BitVec.xor_comm y poly, BitVec.xor_assoc, ← BitVec.xor_assoc poly poly, BitVec.xor_self,
      BitVec.zero_xor]
  cases a.getLsbD 0 <;> cases b.getLsbD 0
  · rfl
  · exact BitVec.xor_assoc _ _ _
  · show (a >>> 1 ^^^ b >>> 1) ^^^ poly = (a >>> 1 ^^^ poly) ^^^ b >>> 1
    rw [BitVec.xor_assoc, BitVec.xor_assoc, BitVec.xor_comm poly]
  · exact hcancel _ _

theorem iterate_bitStep_xor (k : Nat) (a b : BitVec w) :
    (bitStep poly)^[k] (a ^^^ b) = (bitStep poly)^[k] a ^^^ (bitStep poly)^[k] b := by
  induction k with
  | zero => rfl
  | succ k ih =>
      rw [Function.iterate_succ_apply', Function.iterate_succ_apply',
        Function.iterate_succ_apply', ih, bitStep_xor]

/-- As long as only zeros fall out, the register is shifted and nothing else. -/
theorem iterate_bitStep_of_clear {k : Nat} {s : BitVec w}
    (hclear : ∀ i < k, s.getLsbD i = false) : (bitStep poly)^[k] s = s >>> k := by
  induction k with
  | zero => exact (BitVec.ushiftRight_zero s).symm
  | succ k ih =>
      have hout : (s >>> k).getLsbD 0 = false := by
        rw [BitVec.getLsbD_ushiftRight]
        exact hclear k (Nat.lt_succ_self k)
      rw [Function.iterate_succ_apply', ih fun i hi => hclear i (Nat.lt_succ_of_lt hi), bitStep,
        hout, BitVec.shiftRight_add]
      rfl

theorem low_xor_high (k : Nat) (s : BitVec w) :
    (s &&& lowMask w k) ^^^ (s &&& ~~~ lowMask w k) = s := by
  ext i hi
  rw [BitVec.getElem_xor, BitVec.getElem_and, BitVec.getElem_and, BitVec.getElem_not]
  cases s[i] <;> cases (lowMask w k)[i] <;> rfl

/-- **Several steps at once**: those of the low bits alone, and a shift of the
whole register. -/
theorem iterate_bitStep (k : Nat) (s : BitVec w) :
    (bitStep poly)^[k] s = (s >>> k) ^^^ (bitStep poly)^[k] (s &&& lowMask w k) := by
  have hclear : ∀ i < k, (s &&& ~~~ lowMask w k).getLsbD i = false := by
    intro i hi
    rw [BitVec.getLsbD_and, BitVec.getLsbD_not, getLsbD_lowMask]
    simp [hi]
  have hshift : (s &&& ~~~ lowMask w k) >>> k = s >>> k := by
    apply BitVec.eq_of_getLsbD_eq
    intro i hi
    rw [BitVec.getLsbD_ushiftRight, BitVec.getLsbD_ushiftRight, BitVec.getLsbD_and,
      BitVec.getLsbD_not, getLsbD_lowMask]
    by_cases hin : k + i < w
    · simp [hin]
    · simp [BitVec.getLsbD_of_ge s (k + i) (Nat.le_of_not_lt hin)]
  calc (bitStep poly)^[k] s
      = (bitStep poly)^[k] ((s &&& lowMask w k) ^^^ (s &&& ~~~ lowMask w k)) := by
        rw [low_xor_high]
    _ = (bitStep poly)^[k] (s &&& lowMask w k) ^^^ (s >>> k) := by
        rw [iterate_bitStep_xor, iterate_bitStep_of_clear poly hclear, hshift]
    _ = (s >>> k) ^^^ (bitStep poly)^[k] (s &&& lowMask w k) := BitVec.xor_comm _ _

end Crc
