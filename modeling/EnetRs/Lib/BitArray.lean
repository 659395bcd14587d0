/-
  EnetRs.Lib.BitArray — a set of natural numbers kept as an array of words.

  Bit `i` lives in word `i / w` at position `i % w`.  `testBit` and `setBit`
  are the two masked accesses; `testBit_setBit` says that they behave like
  membership and insertion.
-/
import Mathlib.Data.BitVec

namespace BitArray

variable {w : Nat}

/-- `words[i / w] & (1 << (i % w)) != 0` (false past the last word). -/
def testBit (words : List (BitVec w)) (i : Nat) : Bool :=
  (words.getD (i / w) 0 &&& (1#w <<< (i % w))) != 0#w

/-- `words[i / w] |= 1 << (i % w)`. -/
def setBit (words : List (BitVec w)) (i : Nat) : List (BitVec w) :=
  words.set (i / w) (words.getD (i / w) 0 ||| (1#w <<< (i % w)))

/-- `words[i / w] &= !(1 << (i % w))`. -/
def clearBit (words : List (BitVec w)) (i : Nat) : List (BitVec w) :=
  words.set (i / w) (words.getD (i / w) 0 &&& ~~~ (1#w <<< (i % w)))

@[simp] theorem setBit_length (words : List (BitVec w)) (i : Nat) :
    (setBit words i).length = words.length := by
  simp [setBit]

@[simp] theorem clearBit_length (words : List (BitVec w)) (i : Nat) :
    (clearBit words i).length = words.length := by
  simp [clearBit]

/-- Masking with a single bit reads that bit. -/
theorem and_one_shiftLeft_ne_zero (x : BitVec w) (b : Nat) (hb : b < w) :
    ((x &&& (1#w <<< b)) != 0#w) = x.getLsbD b := by
  have hbit : ∀ j, (x &&& (1#w <<< b)).getLsbD j = (decide (j = b) && x.getLsbD b) := by
    intro j
    simp only [BitVec.getLsbD_and, BitVec.getLsbD_shiftLeft, BitVec.getLsbD_one]
    by_cases hj : j = b
    · subst hj
      simp [hb]
      omega
    · have : ¬ (j - b = 0 ∧ b ≤ j) := by omega
      simp [hj]
      intro _ _ h1 h2
      omega
  cases hx : x.getLsbD b with
  | true =>
      have hne : (x &&& (1#w <<< b)) ≠ 0#w := by
        intro h
        have := hbit b
        rw [h] at this
        simp [hx] at this
      simpa using hne
  | false =>
      have : (x &&& (1#w <<< b)) = 0#w := by
        apply BitVec.eq_of_getLsbD_eq
        intro j _
        simp [hbit j, hx]
      simp [this]

/-- A bit read is a bit of the word it lives in. -/
theorem testBit_eq (words : List (BitVec w)) (i : Nat) (hw : 0 < w) :
    testBit words i = (words.getD (i / w) 0).getLsbD (i % w) :=
  and_one_shiftLeft_ne_zero _ _ (Nat.mod_lt _ hw)

/-- No bit of an all-zero array is set. -/
theorem testBit_replicate_zero (n i : Nat) :
    testBit (List.replicate n (0#w)) i = false := by
  simp [testBit, List.getD, List.getElem?_replicate]
  split <;> simp

/-- The mask of bit `i`, read at a bit `j` of the same word. -/
theorem getLsbD_mask {i j : Nat} (hw : 0 < w) (hword : i / w = j / w) :
    (1#w <<< (i % w)).getLsbD (j % w) = decide (j = i) := by
  have hmj := Nat.mod_lt j hw
  by_cases hij : j = i
  · subst hij
    simp [hmj]
  · have hne : i % w ≠ j % w := by
      intro h
      apply hij
      rw [← Nat.div_add_mod j w, ← Nat.div_add_mod i w, hword, h]
    simp [hij]
    intro _ _ _ hsub
    omega

/-- **Insertion**: after `setBit i`, bit `j` is set iff it was or `j = i`. -/
theorem testBit_setBit (words : List (BitVec w)) (i j : Nat) (hw : 0 < w)
    (hi : i / w < words.length) :
    testBit (setBit words i) j = (decide (j = i) || testBit words j) := by
  rw [testBit_eq _ _ hw, testBit_eq _ _ hw]
  by_cases hword : i / w = j / w
  · have hget : (setBit words i).getD (j / w) 0
        = words.getD (j / w) 0 ||| (1#w <<< (i % w)) := by
      simp [setBit, List.getD, ← hword, hi]
    rw [hget, BitVec.getLsbD_or, getLsbD_mask hw hword, Bool.or_comm]
  · have hij : j ≠ i := by
      intro h
      exact hword (by rw [h])
    have hget : (setBit words i).getD (j / w) 0 = words.getD (j / w) 0 := by
      simp [setBit, List.getD, hword]
    rw [hget]
    simp [hij]

/-- **Removal**: after `clearBit i`, bit `j` is set iff it was and `j ≠ i`. -/
theorem testBit_clearBit (words : List (BitVec w)) (i j : Nat) (hw : 0 < w)
    (hi : i / w < words.length) :
    testBit (clearBit words i) j = (!decide (j = i) && testBit words j) := by
  rw [testBit_eq _ _ hw, testBit_eq _ _ hw]
  have hmj := Nat.mod_lt j hw
  by_cases hword : i / w = j / w
  · have hget : (clearBit words i).getD (j / w) 0
        = words.getD (j / w) 0 &&& ~~~ (1#w <<< (i % w)) := by
      simp [clearBit, List.getD, ← hword, hi]
    rw [hget, BitVec.getLsbD_and, BitVec.getLsbD_not, getLsbD_mask hw hword, Bool.and_comm]
    simp [hmj]
  · have hij : j ≠ i := by
      intro h
      exact hword (by rw [h])
    have hget : (clearBit words i).getD (j / w) 0 = words.getD (j / w) 0 := by
      simp [clearBit, List.getD, hword]
    rw [hget]
    simp [hij]

/-- Several bits cleared, one after the other. -/
theorem testBit_foldl_clearBit {α : Type} (f : α → Nat) (ks : List α) (words : List (BitVec w))
    (hw : 0 < w) (hks : ∀ k ∈ ks, f k / w < words.length) :
    (ks.foldl (fun acc k => clearBit acc (f k)) words).length = words.length
      ∧ ∀ j, testBit (ks.foldl (fun acc k => clearBit acc (f k)) words) j
        = (decide (∀ k ∈ ks, j ≠ f k) && testBit words j) := by
  induction ks generalizing words with
  | nil => simp
  | cons k ks ih =>
      obtain ⟨hk, hrest⟩ := List.forall_mem_cons.mp hks
      obtain ⟨hlen, hbits⟩ := ih (clearBit words (f k)) (by simpa using hrest)
      rw [List.foldl_cons]
      refine ⟨hlen.trans (clearBit_length words (f k)), fun j => ?_⟩
      rw [hbits, testBit_clearBit words _ _ hw hk]
      by_cases hj : j = f k
      · simp [hj]
      · simp [hj]

end BitArray
