/-
  EnetRs.Protocol.Crc — what the checksum computes, and that it tells two seeds
  apart.

  The table-driven CRC-32 processes a byte by one fixed step on its 32-bit
  state.  The top byte of a table entry tells which entry it is, so the step
  can be undone from the top; four bytes of input, starting from one
  state, therefore lead to as many states as there are inputs.

  Main results:
    * `crc32_bitwise` — the table-driven checksum is the one computed bit by bit.
    * `crc32_burst_inj` — two buffers that differ within four consecutive bytes
      only have different checksums.
-/
import EnetRs.Lib.Crc
import EnetRs.Protocol.Wire
import Mathlib.Tactic.IntervalCases

namespace EnetRs

open MachineInt

/-! ## §1. One byte. -/

/-- The CRC step of a byte. -/
def crcStep (s : U32) (b : U8) : U32 :=
  (s >>> 8) ^^^ crc32Table.getD ((s ^^^ b.setWidth 32) &&& 0xFF).toNat 0

theorem crc32_eq (data : Bytes) : crc32 data = ~~~ data.foldl crcStep 0xFFFFFFFF := rfl

/-- The table entry a state selects. -/
def crcEntry (x : U32) : U32 := crc32Table.getD (x &&& 0xFF).toNat 0

/-- One iteration of the table's inner loop, undone. -/
def crc32TableUnstep (x : U32) : U32 :=
  if x.msb then ((x ^^^ 0xEDB88320) <<< 1) ||| 1 else x <<< 1

/-- The index of a table entry, from its top byte alone. -/
def crcIndex (top : U32) : Nat := ((crc32TableUnstep^[8] (top <<< 24)) &&& 0xFF).toNat

theorem crcIndex_table : (crc32Table.map fun e : U32 => crcIndex (e >>> 24)) = List.range 256 := by
  decide +kernel

theorem and_byte_lt (x : U32) : (x &&& 0xFF).toNat < 256 := by
  rw [BitVec.toNat_and]
  exact Nat.lt_of_le_of_lt Nat.and_le_right (by decide)

/-- The top byte of a table entry tells which entry it is. -/
theorem crcIndex_entry (x : U32) : crcIndex (crcEntry x >>> 24) = (x &&& 0xFF).toNat := by
  have hlt := and_byte_lt x
  have hget := congrArg (fun l : List Nat => l[(x &&& 0xFF).toNat]?) crcIndex_table
  simp only [List.getElem?_map, List.getElem?_range hlt] at hget
  obtain ⟨e, he, hindex⟩ := Option.map_eq_some_iff.mp hget
  rw [crcEntry, List.getD_eq_getElem?_getD, he]
  exact hindex

/-- The high bits of the state a byte is mixed into are not touched. -/
theorem xor_byte_shift (s : U32) (b : U8) {n : Nat} (hn : 8 ≤ n) :
    (s ^^^ b.setWidth 32) >>> n = s >>> n := by
  ext i hi
  have hb : b.getLsbD (n + i) = false := BitVec.getLsbD_of_ge b _ (by omega)
  simp [BitVec.getElem_ushiftRight, BitVec.getLsbD_xor, BitVec.getLsbD_setWidth, hb]

/-- **Undoing a step from the top.**  If two results agree from bit `n` on, the
states had the same low byte after mixing, and agreed from bit `n + 8` on. -/
theorem crcStep_agree {s t : U32} {a b : U8} {n : Nat} (hn : n ≤ 24)
    (h : crcStep s a >>> n = crcStep t b >>> n) :
    (s ^^^ a.setWidth 32) &&& 0xFF = (t ^^^ b.setWidth 32) &&& 0xFF ∧ s >>> (n + 8) = t >>> (n + 8) := by
  have htop : ∀ (x : U32) (c : U8), crcStep x c >>> 24 = crcEntry (x ^^^ c.setWidth 32) >>> 24 := by
    intro x c
    have hzero : (x >>> 8) >>> 24 = 0 := by
      rw [← BitVec.shiftRight_add]
      exact BitVec.ushiftRight_eq_zero (by decide)
    rw [crcStep, BitVec.ushiftRight_xor_distrib, hzero]
    exact BitVec.zero_xor
  have hlow : (s ^^^ a.setWidth 32) &&& 0xFF = (t ^^^ b.setWidth 32) &&& 0xFF := by
    have hmore := congrArg (fun x : U32 => x >>> (24 - n)) h
    simp only [← BitVec.shiftRight_add, Nat.add_sub_cancel' hn, htop] at hmore
    apply BitVec.eq_of_toNat_eq
    rw [← crcIndex_entry, ← crcIndex_entry, hmore]
  refine ⟨hlow, ?_⟩
  simp only [crcStep, BitVec.ushiftRight_xor_distrib, hlow] at h
  have hcancel := (BitVec.xor_left_inj _).mp h
  rwa [← BitVec.shiftRight_add, ← BitVec.shiftRight_add, Nat.add_comm 8 n] at hcancel

/-- The byte mixed into a known state is known from the low byte. -/
theorem byte_of_low {s : U32} {a b : U8}
    (h : (s ^^^ a.setWidth 32) &&& 0xFF = (s ^^^ b.setWidth 32) &&& 0xFF) : a = b := by
  apply BitVec.eq_of_getLsbD_eq
  intro i hi
  have hbit := congrArg (fun x : U32 => x.getLsbD i) h
  have hmask : (0xFF : U32).getLsbD i = true := by
    interval_cases i <;> rfl
  simp only [BitVec.getLsbD_and, BitVec.getLsbD_xor, BitVec.getLsbD_setWidth, hmask,
    Bool.and_true, Bool.xor_right_inj, show i < 32 by omega, decide_true, Bool.true_and] at hbit
  exact hbit

/-- A step of one byte loses nothing of the state. -/
theorem crcStep_inj {s t : U32} {b : U8} (h : crcStep s b = crcStep t b) : s = t := by
  obtain ⟨hlow, hhigh⟩ := crcStep_agree (Nat.zero_le 24) (congrArg (fun x : U32 => x >>> 0) h)
  apply BitVec.eq_of_getLsbD_eq
  intro i hi
  by_cases hi8 : i < 8
  · have hbit := congrArg (fun x : U32 => x.getLsbD i) hlow
    have hmask : (0xFF : U32).getLsbD i = true := by
      interval_cases i <;> rfl
    simp only [BitVec.getLsbD_and, BitVec.getLsbD_xor, hmask, Bool.and_true,
      Bool.xor_left_inj] at hbit
    exact hbit
  · have hbit := congrArg (fun x : U32 => x.getLsbD (i - 8)) hhigh
    simp only [BitVec.getLsbD_ushiftRight, show 0 + 8 + (i - 8) = i by omega] at hbit
    exact hbit

/-! ## §2. Words and buffers. -/

/-- Up to four bytes are known from the bits they lead to. -/
theorem foldl_crcStep_inj (s : U32) (k : Nat) (hk : k ≤ 4) :
    ∀ xs ys : Bytes, xs.length = k → ys.length = k →
      xs.foldl crcStep s >>> (32 - 8 * k) = ys.foldl crcStep s >>> (32 - 8 * k) → xs = ys := by
  induction k with
  | zero =>
      intro xs ys hx hy _
      rw [List.length_eq_zero_iff.mp hx, List.length_eq_zero_iff.mp hy]
  | succ k ih =>
      intro xs ys hx hy hagree
      -- the last byte is undone first
      obtain ⟨xs, a, rfl⟩ := (List.eq_nil_or_concat xs).resolve_left (by rintro rfl; cases hx)
      obtain ⟨ys, b, rfl⟩ := (List.eq_nil_or_concat ys).resolve_left (by rintro rfl; cases hy)
      rw [List.concat_eq_append, List.concat_eq_append, List.foldl_concat, List.foldl_concat] at hagree
      obtain ⟨hlow, hhigh⟩ := crcStep_agree (by omega) hagree
      rw [show 32 - 8 * (k + 1) + 8 = 32 - 8 * k by omega] at hhigh
      obtain rfl := ih (by omega) xs ys (by simpa using hx) (by simpa using hy) hhigh
      rw [byte_of_low hlow]

/-- Equal states before a buffer, from equal states after it. -/
theorem foldl_crcStep_state_inj {s t : U32} (data : Bytes)
    (h : data.foldl crcStep s = data.foldl crcStep t) : s = t := by
  induction data generalizing s t with
  | nil => exact h
  | cons b data ih => exact crcStep_inj (ih h)

/-- **A burst decides**: two buffers that differ within four consecutive bytes
only have different checksums. -/
theorem crc32_burst_inj {pre suf xs ys : Bytes} (hlen : xs.length = ys.length)
    (hfour : xs.length ≤ 4) : crc32 (pre ++ xs ++ suf) = crc32 (pre ++ ys ++ suf) ↔ xs = ys := by
  refine ⟨fun h => ?_, fun h => by rw [h]⟩
  rw [crc32_eq, crc32_eq, BitVec.not_inj, List.foldl_append, List.foldl_append, List.foldl_append,
    List.foldl_append] at h
  exact foldl_crcStep_inj (pre.foldl crcStep 0xFFFFFFFF) xs.length hfour xs ys rfl hlen.symm
    (by rw [foldl_crcStep_state_inj suf h])

/-- The same for the four bytes of a 32-bit word. -/
theorem crc32_word_inj {pre suf : Bytes} {x y : U32} :
    crc32 (pre ++ be32 x ++ suf) = crc32 (pre ++ be32 y ++ suf) ↔ x = y := by
  rw [crc32_burst_inj ((be32_length x).trans (be32_length y).symm) (Nat.le_of_eq (be32_length x))]
  refine ⟨fun h => ?_, fun h => by rw [h]⟩
  have hread := congrArg (fun bs => u32At bs 0) h
  exact (be32_join x).symm.trans (hread.trans (be32_join y))

/-! ## §3. The same bit by bit. -/

/-- The polynomial of CRC-32, reflected. -/
def crc32Poly : U32 := 0xEDB88320

/-- CRC-32 computed bit by bit: the register starts with all bits set and is
complemented at the end. -/
def crc32Bitwise (data : Bytes) : U32 := Crc.reflected crc32Poly 0xFFFFFFFF data

theorem crc32TableStep_eq : crc32TableStep = Crc.bitStep crc32Poly := by
  funext s
  have hlow : (s &&& 1 != 0) = s.getLsbD 0 := by
    have hbit : s &&& 1 = (BitVec.ofBool (s.getLsbD 0)).setWidth 32 :=
      BitVec.and_one_eq_setWidth_ofBool_getLsbD
    rw [hbit]
    cases s.getLsbD 0 <;> rfl
  rw [crc32TableStep, hlow]
  rfl

/-- The table holds eight shifts of each byte. -/
theorem crcEntry_eq (x : U32) : crcEntry x = (Crc.bitStep crc32Poly)^[8] (x &&& 0xFF) := by
  have hentry : crc32Table[(x &&& 0xFF).toNat]? = some (crc32TableStep^[8] (x &&& 0xFF)) := by
    rw [crc32Table, List.getElem?_map, List.getElem?_range (and_byte_lt x), Option.map_some,
      BitVec.ofNat_toNat, BitVec.setWidth_eq]
  rw [crcEntry, List.getD_eq_getElem?_getD, hentry, crc32TableStep_eq]
  rfl

/-- **One lookup is eight shifts**, from every register value. -/
theorem crcStep_eq (s : U32) (b : U8) : crcStep s b = Crc.byteStep crc32Poly s b := by
  have hmask : Crc.lowMask 32 8 = 0xFF := rfl
  calc crcStep s b
      = (s >>> 8) ^^^ crcEntry (s ^^^ b.setWidth 32) := rfl
    _ = ((s ^^^ b.setWidth 32) >>> 8)
          ^^^ (Crc.bitStep crc32Poly)^[8] ((s ^^^ b.setWidth 32) &&& 0xFF) := by
        rw [xor_byte_shift s b (Nat.le_refl 8), crcEntry_eq]
    _ = Crc.byteStep crc32Poly s b := by
        rw [← hmask]
        exact (Crc.iterate_bitStep crc32Poly 8 (s ^^^ b.setWidth 32)).symm

/-- The register after a whole message. -/
theorem foldl_crcStep_eq (data : Bytes) (s : U32) :
    data.foldl crcStep s = data.foldl (Crc.byteStep crc32Poly) s := by
  induction data generalizing s with
  | nil => rfl
  | cons b data ih => rw [List.foldl_cons, List.foldl_cons, crcStep_eq, ih]

/-- **The checksum of every byte string** is the reflected CRC-32 computed bit
by bit. -/
theorem crc32_bitwise (data : Bytes) : crc32 data = crc32Bitwise data := by
  rw [crc32_eq, foldl_crcStep_eq]
  rfl

/-- The check value of CRC-32, for the digits 1 to 9. -/
example : crc32Bitwise [0x31, 0x32, 0x33, 0x34, 0x35, 0x36, 0x37, 0x38, 0x39] = 0xCBF43926 := by
  decide +kernel

end EnetRs
