/-
  EnetRs.Lib.Serial — serial numbers: counting modulo a power of two.

  `block s n` is the list of the `n` numbers from `s` on, wrapping around at
  `2 ^ w`.  `ofNat_inj_near` says how far apart two counts may be for their
  numbers to tell them apart, and `toInt_ofInt_sub` how far for the signed
  difference of the numbers to be the difference of the counts.  `behind n s` is
  how many steps `s` is behind `n`; up to half a turn the signed difference
  orders numbers by it.
-/
import Mathlib.Data.BitVec
import Mathlib.Data.List.Nodup
import Mathlib.Data.Int.ModEq

namespace Serial

variable {w : Nat}

/-! ## §1. Blocks of consecutive numbers. -/

/-- The `n` numbers from `s` on. -/
def block (s : BitVec w) : Nat → List (BitVec w)
  | 0 => []
  | n + 1 => s :: block (s + 1) n

theorem add_one_add (s : BitVec w) (i : Nat) :
    s + 1 + BitVec.ofNat w i = s + BitVec.ofNat w (i + 1) := by
  rw [Nat.add_comm i 1, BitVec.ofNat_add, BitVec.add_assoc]
  rfl

theorem mem_block {s x : BitVec w} {n : Nat} :
    x ∈ block s n ↔ ∃ i < n, x = s + BitVec.ofNat w i := by
  induction n generalizing s with
  | zero => simp [block]
  | succ n ih =>
      rw [block, List.mem_cons, ih]
      constructor
      · rintro (rfl | ⟨i, hi, rfl⟩)
        · exact ⟨0, Nat.succ_pos n, by simp⟩
        · exact ⟨i + 1, Nat.succ_lt_succ hi, add_one_add s i⟩
      · rintro ⟨i, hi, rfl⟩
        cases i with
        | zero => simp
        | succ i => exact .inr ⟨i, Nat.lt_of_succ_lt_succ hi, (add_one_add s i).symm⟩

/-- A block no longer than one turn repeats nothing. -/
theorem nodup_block (s : BitVec w) {n : Nat} (hn : n ≤ 2 ^ w) : (block s n).Nodup := by
  induction n generalizing s with
  | zero => exact List.nodup_nil
  | succ n ih =>
      refine List.nodup_cons.mpr ⟨fun hmem => ?_, ih _ (Nat.le_of_succ_le hn)⟩
      obtain ⟨i, hi, heq⟩ := mem_block.mp hmem
      rw [add_one_add] at heq
      have hzero := congrArg BitVec.toNat (left_eq_add.mp heq)
      rw [BitVec.toNat_ofNat, Nat.mod_eq_of_lt (by omega)] at hzero
      exact Nat.succ_ne_zero i hzero

/-! ## §2. Counts and their numbers. -/

/-- Counts less than one turn apart are equal if their numbers are. -/
theorem ofNat_inj_near {x y : Nat} (hxy : x < y + 2 ^ w) (hyx : y < x + 2 ^ w) :
    BitVec.ofNat w x = BitVec.ofNat w y ↔ x = y := by
  refine ⟨fun heq => ?_, fun heq => heq ▸ rfl⟩
  have hmod : x ≡ y [MOD 2 ^ w] := by
    have hnat := congrArg BitVec.toNat heq
    rwa [BitVec.toNat_ofNat, BitVec.toNat_ofNat] at hnat
  refine hmod.eq_of_abs_lt (abs_lt.mpr ⟨?_, ?_⟩) <;> omega

/-- The signed difference of two numbers is that of their counts, if these are
less than half a turn apart. -/
theorem toInt_ofInt_sub {x y : Int} (hlo : -(((2 ^ w : Nat) : Int) / 2) ≤ x - y)
    (hhi : x - y < (((2 ^ w : Nat) : Int) + 1) / 2) :
    (BitVec.ofInt w x - BitVec.ofInt w y).toInt = x - y := by
  rw [BitVec.toInt_sub, BitVec.toInt_ofInt, BitVec.toInt_ofInt, Int.bmod_sub_bmod, Int.sub_bmod_bmod]
  exact Int.bmod_eq_of_le hlo hhi

/-! ## §3. Behind a counter. -/

/-- How far the number `s` is behind the counter `n`. -/
def behind (n s : BitVec w) : Nat := (n - s).toNat

/-- The counter moves on. -/
theorem behind_add {n s : BitVec w} {k : Nat} (hk : behind n s + k < 2 ^ w) :
    behind (n + BitVec.ofNat w k) s = behind n s + k := by
  unfold behind at *
  rw [add_sub_right_comm, BitVec.toNat_add, BitVec.toNat_ofNat, Nat.add_mod_mod, Nat.mod_eq_of_lt hk]

/-- The numbers just handed out. -/
theorem behind_block {n : BitVec w} {k i : Nat} (hi : i < k) (hk : k ≤ 2 ^ w) :
    behind (n + BitVec.ofNat w k) (n + 1 + BitVec.ofNat w i) = k - 1 - i := by
  have hsplit : BitVec.ofNat w k = BitVec.ofNat w (k - 1 - i) + BitVec.ofNat w (i + 1) := by
    rw [← BitVec.ofNat_add]
    congr 1
    omega
  unfold behind
  rw [add_one_add, add_sub_add_left_eq_sub, hsplit, add_sub_cancel_right, BitVec.toNat_ofNat,
    Nat.mod_eq_of_lt (by omega)]

/-- The numbers to be handed out next are a turn behind, but for a few steps. -/
theorem behind_next {n : BitVec w} {i : Nat} (hi : i < 2 ^ w) :
    behind n (n + 1 + BitVec.ofNat w i) = 2 ^ w - 1 - i := by
  unfold behind
  rw [add_one_add, sub_add_cancel_left, BitVec.toNat_neg, BitVec.toNat_ofNat]
  rcases Nat.lt_or_ge (i + 1) (2 ^ w) with hlt | hge
  · rw [Nat.mod_eq_of_lt hlt, Nat.mod_eq_of_lt (by omega)]
    omega
  · obtain hturn : i + 1 = 2 ^ w := by omega
    rw [hturn, Nat.mod_self, Nat.sub_zero, Nat.mod_self]
    omega

/-- **Up to half a turn**, the signed difference tells which of two numbers is
further behind. -/
theorem toInt_sub_pos_iff {n a b : BitVec w} (ha : 2 * behind n a < 2 ^ w)
    (hb : 2 * behind n b < 2 ^ w) : 0 < (b - a).toInt ↔ behind n b < behind n a := by
  have hsub : b - a = BitVec.ofInt w (behind n a : Int) - BitVec.ofInt w (behind n b : Int) := by
    rw [BitVec.ofInt_natCast, BitVec.ofInt_natCast]
    unfold behind
    rw [BitVec.ofNat_toNat, BitVec.ofNat_toNat, BitVec.setWidth_eq, BitVec.setWidth_eq]
    exact (sub_sub_sub_cancel_left a b n).symm
  rw [hsub, toInt_ofInt_sub (by omega) (by omega)]
  omega

end Serial
