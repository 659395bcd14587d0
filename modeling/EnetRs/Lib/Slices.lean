/-
  EnetRs.Lib.Slices — a list cut into pieces of one size, and put together again.

  `piece k m i` is the `i`-th piece of size `k` (the last one may be shorter).
  `overwrite b off d` writes `d` over `b` from position `off` on.  A list that
  has been overwritten with every piece of `m` is `m`, in whatever order the
  pieces came.

  Main results:
    * `getElem?_overwrite` — a write, position by position.
    * `piece_overwrite` — writing one piece: that piece is in place, the others
      are as they were.
    * `eq_of_pieces` — all pieces in place.
-/
import Mathlib.Data.List.Basic

namespace Slices

variable {α : Type}

/-- The `i`-th piece of size `k`. -/
def piece (k : Nat) (m : List α) (i : Nat) : List α := (m.drop (i * k)).take k

/-- `b` with `d` written over it from `off` on. -/
def overwrite (b : List α) (off : Nat) (d : List α) : List α :=
  b.take off ++ d ++ b.drop (off + d.length)

section Overwrite

variable {b d : List α} {off : Nat}

theorem length_overwrite (hle : off + d.length ≤ b.length) :
    (overwrite b off d).length = b.length := by
  simp only [overwrite, List.length_append, List.length_take, List.length_drop]
  omega

theorem getElem?_overwrite (hle : off + d.length ≤ b.length) (x : Nat) :
    (overwrite b off d)[x]? = if off ≤ x ∧ x < off + d.length then d[x - off]? else b[x]? := by
  have htake : (b.take off).length = off := by
    rw [List.length_take]
    omega
  simp only [overwrite, List.getElem?_append, List.length_append, htake, List.getElem?_take,
    List.getElem?_drop]
  by_cases hlo : x < off
  · have hlo' : ¬ (off ≤ x ∧ x < off + d.length) := by omega
    have hhi : x < off + d.length := by omega
    rw [if_pos hhi, if_pos hlo, if_pos hlo, if_neg hlo']
  · by_cases hhi : x < off + d.length
    · rw [if_pos hhi, if_neg hlo, if_pos ⟨Nat.le_of_not_lt hlo, hhi⟩]
    · rw [if_neg hhi, if_neg fun h => hhi h.2]
      congr 1
      omega

end Overwrite

variable {k : Nat} {m b : List α} {i j : Nat}

theorem getElem?_piece (x : Nat) :
    (piece k m i)[x]? = if x < k then m[i * k + x]? else none := by
  rw [piece, List.getElem?_take, List.getElem?_drop]

theorem length_piece : (piece k m i).length = min k (m.length - i * k) := by
  rw [piece, List.length_take, List.length_drop]

theorem piece_le : (piece k m i).length ≤ k := by
  rw [length_piece]
  exact Nat.min_le_left _ _

/-- A piece that exists lies inside the list. -/
theorem piece_bound (hi : i * k ≤ m.length) : i * k + (piece k m i).length ≤ m.length := by
  rw [length_piece]
  omega

theorem take_range' (a n k : Nat) : (List.range' a n).take k = List.range' a (min k n) := by
  refine List.ext_getElem (by simp) fun i _ _ => ?_
  rw [List.getElem_take, List.getElem_range', List.getElem_range']

/-- The pieces of the positions are ranges. -/
theorem piece_range (k n i : Nat) :
    piece k (List.range n) i = List.range' (i * k) (min k (n - i * k)) := by
  rw [piece, List.range_eq_range', List.drop_range', take_range', Nat.zero_add, Nat.mul_one]

/-- The first pieces, put together. -/
theorem flatMap_piece (k : Nat) (m : List α) (n : Nat) :
    (List.range n).flatMap (piece k m) = m.take (n * k) := by
  induction n with
  | zero => simp
  | succ n ih =>
      rw [List.range_succ, List.flatMap_append, ih, Nat.succ_mul, List.take_add]
      simp [piece]

/-- **Writing one piece.** -/
theorem piece_overwrite (hi : i * k ≤ m.length) (hlen : b.length = m.length) :
    piece k (overwrite b (i * k) (piece k m i)) j = if j = i then piece k m i else piece k b j := by
  have hle : i * k + (piece k m i).length ≤ b.length := by
    rw [hlen]
    exact piece_bound hi
  refine List.ext_getElem? fun x => ?_
  rw [getElem?_piece, getElem?_overwrite hle]
  by_cases hx : x < k
  · rw [if_pos hx]
    by_cases hji : j = i
    · subst hji
      rw [if_pos rfl, length_piece]
      by_cases hin : x < m.length - j * k
      · rw [if_pos ⟨Nat.le_add_right _ _, by omega⟩, Nat.add_sub_cancel_left]
      · -- past the end of the list there is nothing in either
        rw [if_neg (by omega), List.getElem?_eq_none (by omega),
          List.getElem?_eq_none (by rw [length_piece]; omega)]
    · have hout : ¬ (i * k ≤ j * k + x ∧ j * k + x < i * k + (piece k m i).length) := by
        rintro ⟨hlo, hhi⟩
        have hk := piece_le (k := k) (m := m) (i := i)
        rcases Nat.lt_or_gt_of_ne hji with hlt | hgt
        · have hstep : (j + 1) * k ≤ i * k := Nat.mul_le_mul_right k hlt
          rw [Nat.succ_mul] at hstep
          omega
        · have hstep : (i + 1) * k ≤ j * k := Nat.mul_le_mul_right k hgt
          rw [Nat.succ_mul] at hstep
          omega
      rw [if_neg hout, if_neg hji, getElem?_piece, if_pos hx]
  · rw [if_neg hx]
    split
    · rw [getElem?_piece, if_neg hx]
    · rw [getElem?_piece, if_neg hx]

/-- **All pieces in place.** -/
theorem eq_of_pieces (hk : 0 < k) (hlen : b.length = m.length)
    (hall : ∀ i, i * k < m.length → piece k b i = piece k m i) : b = m := by
  refine List.ext_getElem? fun x => ?_
  by_cases hx : x < m.length
  · have hdiv : x / k * k ≤ x := Nat.div_mul_le_self x k
    have hpiece := congrArg (fun l => l[x % k]?) (hall (x / k) (by omega))
    simp only [getElem?_piece, Nat.mod_lt x hk, if_true] at hpiece
    have hsum : x / k * k + x % k = x := by
      rw [Nat.mul_comm]
      exact Nat.div_add_mod x k
    rwa [hsum] at hpiece
  · rw [List.getElem?_eq_none (by omega), List.getElem?_eq_none (by omega)]

end Slices
