/-
  EnetRs.Lib.Panic — operations that can panic.

  In a language with checked accesses an index out of range, an empty
  `unwrap` or a subtraction below zero ends the program.  Here that outcome is
  `none`, and every operation has the lemma that says when it does not happen
  and what it then computes.

  Main results:
    * `index_of_lt`, `store_of_lt`, `sliceFrom_of_le`, `sliceTo_of_le`,
      `slice_of_le`, `copyInto_middle`, `sub_of_le`, `divisor_of_ne` — in range.
    * `index_guarded` — an index behind its length check.
    * `ite_eq_some`, `foldlM_of_step`, `mapM_of_forall` — a conditional and loops
      in which nothing fails.
-/
import Mathlib.Data.List.Basic

namespace Panic

variable {α β : Type}

/-- `xs[i]`. -/
def index (xs : List α) (i : Nat) : Option α := xs[i]?

/-- `xs[i] = x`. -/
def store (xs : List α) (i : Nat) (x : α) : Option (List α) :=
  if i < xs.length then some (xs.set i x) else none

/-- `&xs[n..]`. -/
def sliceFrom (xs : List α) (n : Nat) : Option (List α) :=
  if n ≤ xs.length then some (xs.drop n) else none

/-- `&xs[..n]`. -/
def sliceTo (xs : List α) (n : Nat) : Option (List α) :=
  if n ≤ xs.length then some (xs.take n) else none

/-- `xs[a..b].copy_from_slice(data)`: the range must exist, and be as long as
`data`. -/
def copyInto (xs : List α) (a b : Nat) (data : List α) : Option (List α) :=
  if a ≤ b ∧ b ≤ xs.length ∧ data.length = b - a then some (xs.take a ++ data ++ xs.drop b)
  else none

/-- `&xs[a..b]`. -/
def slice (xs : List α) (a b : Nat) : Option (List α) :=
  if a ≤ b ∧ b ≤ xs.length then some ((xs.drop a).take (b - a)) else none

/-- `a - b` for unsigned numbers. -/
def sub (a b : Nat) : Option Nat := if b ≤ a then some (a - b) else none

/-- The number a division divides by. -/
def divisor [Zero α] [DecidableEq α] (d : α) : Option α := if d = 0 then none else some d

section InRange

variable {xs data : List α} {i n a b : Nat}

theorem index_of_lt (hlt : i < xs.length) (d : α) : index xs i = some (xs.getD i d) := by
  rw [index, List.getD_eq_getElem?_getD, List.getElem?_eq_getElem hlt]
  rfl

theorem store_of_lt (hlt : i < xs.length) (x : α) : store xs i x = some (xs.set i x) := if_pos hlt

theorem sliceFrom_of_le (hle : n ≤ xs.length) : sliceFrom xs n = some (xs.drop n) := if_pos hle

theorem sliceTo_of_le (hle : n ≤ xs.length) : sliceTo xs n = some (xs.take n) := if_pos hle

theorem copyInto_of_le (hab : b = a + data.length) (hb : b ≤ xs.length) :
    copyInto xs a b data = some (xs.take a ++ data ++ xs.drop b) :=
  if_pos ⟨by omega, hb, by omega⟩

/-- A copy over the part of a buffer that lies between two others. -/
theorem copyInto_middle {front old back : List α} {n : Nat} (hold : old.length = n)
    (hdata : data.length = n) :
    copyInto (front ++ old ++ back) front.length (front.length + n) data
      = some (front ++ data ++ back) := by
  rw [copyInto_of_le (by rw [hdata]) (by simp only [List.length_append]; omega),
    List.append_assoc front old, List.take_left, List.drop_append, ← hold]
  simp

theorem slice_of_le (hab : a ≤ b) (hb : b ≤ xs.length) :
    slice xs a b = some ((xs.drop a).take (b - a)) :=
  if_pos ⟨hab, hb⟩

theorem sub_of_le (hle : b ≤ a) : sub a b = some (a - b) := if_pos hle

theorem divisor_of_ne [Zero α] [DecidableEq α] {d : α} (hd : d ≠ 0) : divisor d = some d :=
  if_neg hd

theorem store_of_getElem? {x : α} (hx : xs[i]? = some x) (y : α) :
    store xs i y = some (xs.set i y) :=
  store_of_lt (List.getElem?_eq_some_iff.mp hx).1 y

/-- An index that has been compared with the length first. -/
theorem index_guarded (xs : List α) (i : Nat) (a : Option β) (f : α → Option β) :
    (if xs.length ≤ i then a else (index xs i).bind f)
      = match xs[i]? with
        | none => a
        | some x => f x := by
  by_cases hle : xs.length ≤ i
  · rw [if_pos hle, List.getElem?_eq_none hle]
  · rw [if_neg hle, index, List.getElem?_eq_getElem (Nat.lt_of_not_le hle)]
    rfl

end InRange

/-- A conditional neither of whose branches fails. -/
theorem ite_eq_some {c : Prop} [Decidable c] {a b : Option β} {x y : β} (ha : c → a = some x)
    (hb : ¬ c → b = some y) : (if c then a else b) = some (if c then x else y) := by
  split
  · next hc => exact ha hc
  · next hc => exact hb hc

/-- **A loop none of whose turns fails**, as long as `I` holds. -/
theorem foldlM_of_step {I : β → Prop} {g : β → α → Option β} {f : β → α → β}
    (hstep : ∀ b x, I b → g b x = some (f b x) ∧ I (f b x)) :
    ∀ (xs : List α) (b : β), I b → xs.foldlM g b = some (xs.foldl f b) := by
  intro xs
  induction xs with
  | nil => exact fun _ _ => rfl
  | cons x xs ih =>
      intro b hb
      obtain ⟨hg, hi⟩ := hstep b x hb
      rw [List.foldlM_cons, hg]
      exact ih (f b x) hi

/-- A map none of whose calls fails. -/
theorem mapM_of_forall {g : α → Option β} {f : α → β} :
    ∀ xs : List α, (∀ x ∈ xs, g x = some (f x)) → xs.mapM g = some (xs.map f) := by
  intro xs
  induction xs with
  | nil => exact fun _ => rfl
  | cons x xs ih =>
      intro hall
      have hxs := ih fun y hy => hall y (List.mem_cons_of_mem x hy)
      rw [List.mapM_cons, hall x List.mem_cons_self, hxs]
      rfl

end Panic
