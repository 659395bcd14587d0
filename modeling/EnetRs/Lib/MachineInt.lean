/-
  EnetRs.Lib.MachineInt — fixed-width unsigned integers as bit vectors.

  Wrapping `+`, `-`, `*`, the unsigned order and the bit operations are the
  ones of `BitVec`.  This file adds the saturating operations and the
  big-endian byte form, each with the lemma that reads it in `Nat`.
-/
import Mathlib.Data.BitVec
import Mathlib.Tactic.IntervalCases

namespace MachineInt

abbrev U8 := BitVec 8
abbrev U16 := BitVec 16
abbrev U32 := BitVec 32
abbrev U64 := BitVec 64

/-- A byte string. -/
abbrev Bytes := List U8

/-! ## §1. Saturating arithmetic, minimum and maximum. -/

/-- `a.saturating_add(b)`. -/
def satAdd {w : Nat} (a b : BitVec w) : BitVec w :=
  if a.toNat + b.toNat < 2 ^ w then a + b else BitVec.allOnes w

/-- `a.saturating_sub(b)`. -/
def satSub {w : Nat} (a b : BitVec w) : BitVec w :=
  if b ≤ a then a - b else 0

/-- `a.saturating_mul(b)`. -/
def satMul {w : Nat} (a b : BitVec w) : BitVec w :=
  if a.toNat * b.toNat < 2 ^ w then a * b else BitVec.allOnes w

/-- `a.max(b)`. -/
def umax {w : Nat} (a b : BitVec w) : BitVec w := if a < b then b else a

/-- `a.min(b)`. -/
def umin {w : Nat} (a b : BitVec w) : BitVec w := if a < b then a else b

/-- `x.clamp(lo, hi)` for `lo ≤ hi`. -/
def clamp {w : Nat} (x lo hi : BitVec w) : BitVec w :=
  if x < lo then lo else if hi < x then hi else x

/-- Rounded-up division, `a.div_ceil(b)`. -/
def divCeil (a b : Nat) : Nat := (a + b - 1) / b

theorem toNat_satMul_of_lt {w : Nat} {a b : BitVec w} (hlt : a.toNat * b.toNat < 2 ^ w) :
    (satMul a b).toNat = a.toNat * b.toNat := by
  rw [satMul, if_pos hlt, BitVec.toNat_mul, Nat.mod_eq_of_lt hlt]

theorem umin_le_right {w : Nat} (a b : BitVec w) : umin a b ≤ b := by
  unfold umin
  split <;> bv_omega

theorem satSub_le {w : Nat} (a b : BitVec w) : satSub a b ≤ a := by
  unfold satSub
  split
  · next hle =>
    rw [BitVec.le_def, BitVec.toNat_sub_of_le hle]
    exact Nat.sub_le _ _
  · simp [BitVec.le_def]

/-! ### Checked arithmetic: `none` where the exact result does not fit. -/

/-- `a.checked_add(b)`. -/
def checkedAdd {w : Nat} (a b : BitVec w) : Option (BitVec w) :=
  if a.toNat + b.toNat < 2 ^ w then some (a + b) else none

/-- `a.checked_sub(b)`. -/
def checkedSub {w : Nat} (a b : BitVec w) : Option (BitVec w) :=
  if b.toNat ≤ a.toNat then some (a - b) else none

/-- `a.checked_mul(b)`. -/
def checkedMul {w : Nat} (a b : BitVec w) : Option (BitVec w) :=
  if a.toNat * b.toNat < 2 ^ w then some (a * b) else none

section Checked

variable {w : Nat} {a b : BitVec w}

theorem checkedAdd_of_lt (h : a.toNat + b.toNat < 2 ^ w) : checkedAdd a b = some (a + b) := if_pos h

theorem checkedSub_of_le (h : b.toNat ≤ a.toNat) : checkedSub a b = some (a - b) := if_pos h

theorem checkedMul_of_lt (h : a.toNat * b.toNat < 2 ^ w) : checkedMul a b = some (a * b) := if_pos h

/-! Where the checked operation has a result, the saturating one has the same. -/

theorem checkedAdd_eq_satAdd (h : a.toNat + b.toNat < 2 ^ w) : checkedAdd a b = some (satAdd a b) := by
  rw [checkedAdd_of_lt h, satAdd, if_pos h]

theorem checkedSub_eq_satSub (h : b.toNat ≤ a.toNat) : checkedSub a b = some (satSub a b) := by
  rw [checkedSub_of_le h, satSub, if_pos (BitVec.le_def.mpr h)]

theorem checkedMul_eq_satMul (h : a.toNat * b.toNat < 2 ^ w) : checkedMul a b = some (satMul a b) := by
  rw [checkedMul_of_lt h, satMul, if_pos h]

end Checked

/-! ### Words by their halves. -/

/-- The low half of one word under the high half of another. -/
theorem toNat_or_high (lo : U16) (x : U32) :
    (lo.setWidth 32 ||| (x &&& 0xFFFF0000)).toNat = x.toNat / 65536 * 65536 + lo.toNat := by
  have hhigh : x &&& (0xFFFF0000 : U32) = (x >>> 16) <<< 16 := by
    apply BitVec.eq_of_getLsbD_eq
    intro i hi
    interval_cases i <;> simp
  have hlo : lo.toNat < 2 ^ 16 := lo.isLt
  have hx : x.toNat / 65536 * 65536 < 2 ^ 32 := by
    have := x.isLt
    omega
  rw [hhigh, BitVec.or_comm, BitVec.toNat_or, BitVec.toNat_shiftLeft, BitVec.toNat_ushiftRight,
    BitVec.toNat_setWidth, Nat.mod_eq_of_lt (by omega : lo.toNat < 2 ^ 32), Nat.shiftRight_eq_div_pow,
    Nat.shiftLeft_eq, Nat.mod_eq_of_lt hx]
  have hsum := Nat.shiftLeft_add_eq_or_of_lt hlo (x.toNat / 65536)
  rw [Nat.shiftLeft_eq] at hsum
  exact hsum.symm

/-- Bit 15 is clear in the one word and set in the other. -/
theorem and_bit15_lt_iff (x y : U32) :
    x &&& 0x8000 < y &&& 0x8000 ↔ x.toNat % 65536 < 32768 ∧ 32768 ≤ y.toNat % 65536 := by
  have hbit : ∀ z : U32, z &&& 0x8000 = if z.getLsbD 15 then 0x8000 else 0 := by
    intro z
    exact BitVec.and_twoPow z 15
  have hget : ∀ z : U32, z.getLsbD 15 = decide (32768 ≤ z.toNat % 65536) := by
    intro z
    rw [BitVec.getLsbD, Nat.testBit_eq_decide_div_mod_eq]
    congr 1
    apply propext
    omega
  rw [hbit, hbit, hget, hget]
  by_cases hx : 32768 ≤ x.toNat % 65536
  · by_cases hy : 32768 ≤ y.toNat % 65536 <;> simp [hx, hy]
  · by_cases hy : 32768 ≤ y.toNat % 65536 <;> simp [hx, hy, Nat.lt_of_not_le hx]

/-! ## §2. Big-endian bytes. -/

/-- `x.to_be_bytes()` of a 16-bit word. -/
def be16 (x : U16) : Bytes :=
  [x.extractLsb' 8 8, x.extractLsb' 0 8]

/-- `x.to_be_bytes()` of a 32-bit word. -/
def be32 (x : U32) : Bytes :=
  [x.extractLsb' 24 8, x.extractLsb' 16 8, x.extractLsb' 8 8, x.extractLsb' 0 8]

/-- The byte at index `i`, for readers that have checked the length. -/
def u8At (buf : Bytes) (i : Nat) : U8 := buf.getD i 0

/-- `u16::from_be_bytes([buf[i], buf[i+1]])`. -/
def u16At (buf : Bytes) (i : Nat) : U16 := u8At buf i ++ u8At buf (i + 1)

/-- `u32::from_be_bytes([buf[i], …, buf[i+3]])`. -/
def u32At (buf : Bytes) (i : Nat) : U32 :=
  u8At buf i ++ u8At buf (i + 1) ++ u8At buf (i + 2) ++ u8At buf (i + 3)

@[simp] theorem be16_length (x : U16) : (be16 x).length = 2 := rfl

@[simp] theorem be32_length (x : U32) : (be32 x).length = 4 := rfl

/-! A word read back from its own bytes. -/

@[simp] theorem be16_join (x : U16) : x.extractLsb' 8 8 ++ x.extractLsb' 0 8 = x := by
  rw [BitVec.extractLsb'_append_extractLsb'_eq_extractLsb' (show 8 = 0 + 8 from rfl)]
  simp

@[simp] theorem be32_join (x : U32) :
    x.extractLsb' 24 8 ++ x.extractLsb' 16 8 ++ x.extractLsb' 8 8 ++ x.extractLsb' 0 8 = x := by
  rw [BitVec.extractLsb'_append_extractLsb'_eq_extractLsb' (show 24 = 16 + 8 from rfl),
    BitVec.extractLsb'_append_extractLsb'_eq_extractLsb' (show 16 = 8 + 8 from rfl),
    BitVec.extractLsb'_append_extractLsb'_eq_extractLsb' (show 8 = 0 + 8 from rfl)]
  simp

/-! The bytes of a word that was read, added to the bytes before it. -/

theorem be16_append (a b : U8) : be16 (a ++ b) = [a, b] := by
  rw [be16, BitVec.extractLsb'_append_eq_left, BitVec.extractLsb'_append_eq_right]

theorem be32_append (a b c d : U8) : be32 (a ++ b ++ c ++ d) = [a, b, c, d] := by
  have ha : (a ++ b ++ c ++ d).extractLsb' 24 8 = a := by
    ext i hi
    simp
    grind
  have hb : (a ++ b ++ c ++ d).extractLsb' 16 8 = b := by
    ext i hi
    simp
    grind
  have hc : (a ++ b ++ c ++ d).extractLsb' 8 8 = c := by
    ext i hi
    simp
    grind
  rw [be32, ha, hb, hc, BitVec.extractLsb'_append_eq_right]

theorem take_append_byte {buf : Bytes} {i : Nat} (hi : i < buf.length) :
    buf.take i ++ [u8At buf i] = buf.take (i + 1) := by
  rw [List.take_add_one, u8At, List.getD_eq_getElem?_getD, List.getElem?_eq_getElem hi]
  rfl

theorem take_append_be16 {buf : Bytes} {i : Nat} (hi : i + 1 < buf.length) :
    buf.take i ++ be16 (u16At buf i) = buf.take (i + 2) := by
  rw [u16At, be16_append, ← take_append_byte hi, ← take_append_byte (Nat.lt_of_succ_lt hi),
    List.append_assoc]
  rfl

theorem take_append_be32 {buf : Bytes} {i : Nat} (hi : i + 3 < buf.length) :
    buf.take i ++ be32 (u32At buf i) = buf.take (i + 4) := by
  rw [u32At, be32_append, ← take_append_byte hi, ← take_append_byte (by omega),
    ← take_append_byte (by omega), ← take_append_byte (by omega)]
  simp

end MachineInt
