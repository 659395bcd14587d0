/-
  EnetRs.Lib.Packing — packing a list greedily under a weight limit.

  `greedy` cuts a list into consecutive pieces, each as long as fits under
  `cap`.  `Cuts P l` says the same thing without the loop: `l` is a sequence of
  maximal pieces, all of which satisfy `P`.

  Main results:
    * `greedy_flatten` — nothing is lost or reordered.
    * `weight_le_of_mem_greedy`, `isChain_greedy` — no piece is too heavy, and
      none could have taken one element more.
    * `forall_greedy_iff_cuts` — what holds of all pieces is read off the list.
-/
import Mathlib.Algebra.Order.BigOperators.Group.List
import Mathlib.Algebra.Ring.Nat
import Mathlib.Data.List.Chain

namespace Packing

variable {α : Type} (w : α → Nat) (cap : Nat)

/-- The weight of a piece. -/
def weight (xs : List α) : Nat := (xs.map w).sum

/-- The pieces of `xs`, with `batch` already in the first one. -/
def greedy : List α → List α → List (List α)
  | [], batch => if batch = [] then [] else [batch]
  | x :: xs, batch =>
      if cap < weight w batch + w x ∧ batch ≠ [] then batch :: greedy xs [x]
      else greedy xs (batch ++ [x])

/-- A list cut into maximal pieces that fit under `cap` and satisfy `P`. -/
inductive Cuts (P : List α → Prop) : List α → Prop where
  | nil : Cuts P []
  | piece {xs ys : List α} (hne : xs ≠ []) (hfit : weight w xs ≤ cap)
      (hmax : ∀ y ∈ ys.head?, cap < weight w xs + w y) (hP : P xs) (hys : Cuts P ys) :
      Cuts P (xs ++ ys)

variable {w cap}

theorem weight_append (xs ys : List α) : weight w (xs ++ ys) = weight w xs + weight w ys := by
  simp [weight]

theorem weight_singleton (x : α) : weight w [x] = w x := by simp [weight]

theorem weight_one (xs : List α) : weight (fun _ => 1) xs = xs.length := by
  rw [weight, List.map_const', List.sum_replicate_nat, Nat.mul_one]

theorem greedy_flatten (xs batch : List α) : (greedy w cap xs batch).flatten = batch ++ xs := by
  induction xs generalizing batch with
  | nil =>
      unfold greedy
      split
      · next hnil => simp [hnil]
      · simp
  | cons x xs ih =>
      unfold greedy
      split
      · simp [ih]
      · simp [ih]

theorem ne_nil_of_mem_greedy {xs batch piece : List α} (hmem : piece ∈ greedy w cap xs batch) :
    piece ≠ [] := by
  induction xs generalizing batch with
  | nil =>
      unfold greedy at hmem
      split at hmem
      · cases hmem
      · next hne =>
        cases List.mem_singleton.mp hmem
        exact hne
  | cons x xs ih =>
      unfold greedy at hmem
      split at hmem
      · next hover =>
        rcases List.mem_cons.mp hmem with rfl | hmem
        · exact hover.2
        · exact ih hmem
      · exact ih hmem

/-- A piece of two or more elements fits. -/
theorem weight_le_of_mem_greedy {xs batch piece : List α}
    (hbatch : 2 ≤ batch.length → weight w batch ≤ cap) (hmem : piece ∈ greedy w cap xs batch)
    (htwo : 2 ≤ piece.length) : weight w piece ≤ cap := by
  induction xs generalizing batch with
  | nil =>
      unfold greedy at hmem
      split at hmem
      · cases hmem
      · cases List.mem_singleton.mp hmem
        exact hbatch htwo
  | cons x xs ih =>
      unfold greedy at hmem
      split at hmem
      · rcases List.mem_cons.mp hmem with rfl | hmem
        · exact hbatch htwo
        · refine ih (fun hlen => ?_) hmem
          -- a new piece has one element
          exact absurd hlen (by simp)
      · next hover =>
        refine ih (fun hlen => ?_) hmem
        have hne : batch ≠ [] := by
          rintro rfl
          exact absurd hlen (by simp)
        rw [weight_append, weight_singleton]
        exact Nat.le_of_not_lt fun hlt => hover ⟨hlt, hne⟩

/-- The first piece begins as the batch does. -/
theorem head?_of_mem_head?_greedy {xs batch piece : List α} (hne : batch ≠ [])
    (hmem : piece ∈ (greedy w cap xs batch).head?) : piece.head? = batch.head? := by
  induction xs generalizing batch with
  | nil =>
      rw [greedy, if_neg hne] at hmem
      cases Option.mem_some.mp hmem
      rfl
  | cons x xs ih =>
      unfold greedy at hmem
      split at hmem
      · cases Option.mem_some.mp hmem
        rfl
      · rw [ih (by simp) hmem, List.head?_append_of_ne_nil _ hne]

/-- **No piece could have taken the first element of the next one.** -/
theorem isChain_greedy (xs batch : List α) :
    (greedy w cap xs batch).IsChain fun g g' => ∀ y ∈ g'.head?, cap < weight w g + w y := by
  induction xs generalizing batch with
  | nil =>
      unfold greedy
      split
      · exact List.isChain_nil
      · exact List.isChain_singleton _
  | cons x xs ih =>
      unfold greedy
      split
      · next hover =>
        refine List.isChain_cons.mpr ⟨fun g' hg' y hy => ?_, ih [x]⟩
        rw [head?_of_mem_head?_greedy (List.cons_ne_nil x []) hg'] at hy
        cases Option.mem_some.mp hy
        exact hover.1
      · exact ih (batch ++ [x])

/-- A maximal piece is split off. -/
theorem greedy_append {xs ys batch : List α} (hne : batch ++ xs ≠ [])
    (hfit : weight w (batch ++ xs) ≤ cap)
    (hmax : ∀ y ∈ ys.head?, cap < weight w (batch ++ xs) + w y) :
    greedy w cap (xs ++ ys) batch = (batch ++ xs) :: greedy w cap ys [] := by
  induction xs generalizing batch with
  | nil =>
      rw [List.append_nil] at hne hfit hmax ⊢
      cases ys with
      | nil => simp [greedy, hne]
      | cons y ys =>
          have hover : cap < weight w batch + w y := hmax y (by simp)
          simp [greedy, hover, hne]
  | cons x xs ih =>
      have hx : weight w batch + w x ≤ cap := by
        rw [weight_append, show x :: xs = [x] ++ xs from rfl, weight_append, weight_singleton] at hfit
        omega
      have hcons : batch ++ x :: xs = batch ++ [x] ++ xs := by simp
      rw [List.cons_append, greedy, if_neg (by omega), hcons]
      rw [hcons] at hne hfit hmax
      exact ih hne hfit hmax

theorem cuts_of_greedy {P : List α → Prop} (xs batch : List α) (hsmall : ∀ x ∈ xs, w x ≤ cap)
    (hbatch : weight w batch ≤ cap) (hP : ∀ b ∈ greedy w cap xs batch, P b) :
    Cuts w cap P (batch ++ xs) := by
  induction xs generalizing batch with
  | nil =>
      by_cases hnil : batch = []
      · subst hnil
        exact .nil
      · refine .piece hnil hbatch (by simp) (hP batch ?_) .nil
        simp [greedy, hnil]
  | cons x xs ih =>
      have hx : w x ≤ cap := hsmall x List.mem_cons_self
      have hxs := fun y hy => hsmall y (List.mem_cons_of_mem x hy)
      by_cases hover : cap < weight w batch + w x ∧ batch ≠ []
      · rw [greedy, if_pos hover] at hP
        refine .piece hover.2 hbatch (by simpa using hover.1) (hP batch List.mem_cons_self) ?_
        exact ih [x] hxs (by rwa [weight_singleton]) fun b hb => hP b (List.mem_cons_of_mem _ hb)
      · rw [greedy, if_neg hover] at hP
        have hfit : weight w (batch ++ [x]) ≤ cap := by
          rw [weight_append, weight_singleton]
          by_cases hnil : batch = []
          · simpa [hnil, weight] using hx
          · have hle : ¬ cap < weight w batch + w x := fun hlt => hover ⟨hlt, hnil⟩
            omega
        simpa using ih (batch ++ [x]) hxs hfit hP

/-- Pieces of an image are images of pieces. -/
theorem greedy_map {β : Type} (f : β → α) (xs batch : List β) :
    greedy w cap (xs.map f) (batch.map f) = (greedy (w ∘ f) cap xs batch).map (List.map f) := by
  have hweight : ∀ l : List β, weight w (l.map f) = weight (w ∘ f) l := fun l => by
    simp [weight]
  induction xs generalizing batch with
  | nil =>
      simp only [greedy, List.map_nil, List.map_eq_nil_iff]
      split <;> rfl
  | cons x xs ih =>
      have hnext := ih (batch ++ [x])
      rw [List.map_append] at hnext
      simp only [greedy, List.map_cons, hweight, ne_eq, List.map_eq_nil_iff, Function.comp_apply]
      split
      · rw [List.map_cons, ← ih [x]]
        rfl
      · exact hnext

/-- Pieces cut short add up to the list only if none was longer than the cut. -/
theorem flatMap_take_eq_flatten_iff {pieces : List (List α)} {n : Nat} :
    pieces.flatMap (List.take n) = pieces.flatten ↔ ∀ b ∈ pieces, b.length ≤ n := by
  have hshort : ∀ l : List (List α), (l.flatMap (List.take n)).length ≤ l.flatten.length := by
    intro l
    induction l with
    | nil => simp
    | cons b l ih =>
        simp only [List.flatMap_cons, List.flatten_cons, List.length_append, List.length_take]
        omega
  induction pieces with
  | nil => simp
  | cons b pieces ih =>
      rw [List.forall_mem_cons, List.flatMap_cons, List.flatten_cons]
      constructor
      · intro heq
        have hlen := congrArg List.length heq
        have hrest := hshort pieces
        simp only [List.length_append, List.length_take] at hlen
        have hb : b.length ≤ n := by omega
        rw [List.take_of_length_le hb] at heq
        exact ⟨hb, ih.mp (List.append_cancel_left heq)⟩
      · rintro ⟨hb, hall⟩
        rw [List.take_of_length_le hb, ih.mpr hall]

/-- **What holds of every piece**, read off the list. -/
theorem forall_greedy_iff_cuts {P : List α → Prop} {xs : List α} (hsmall : ∀ x ∈ xs, w x ≤ cap) :
    (∀ b ∈ greedy w cap xs [], P b) ↔ Cuts w cap P xs := by
  constructor
  · intro hP
    simpa using cuts_of_greedy xs [] hsmall (Nat.zero_le _) hP
  · intro hc
    induction hc with
    | nil => simp [greedy]
    | piece hne hfit hmax hP _ ih =>
        rw [greedy_append (by simpa using hne) (by simpa using hfit) (by simpa using hmax)]
        intro b hb
        rcases List.mem_cons.mp hb with rfl | hrest
        · simpa using hP
        · exact ih (fun x hx => hsmall x (List.mem_append_right _ hx)) b hrest

end Packing
