/-
  EnetRs.Lib.Mpsc — a bounded FIFO channel, seen from its sending side.

  A channel is created once and keeps an identity, so that a receiver handed
  to another party can be told apart from the receiver of a later channel.
  `trySend` never waits: it fails exactly when the queue is full or the
  receiver has been dropped.
-/
import Mathlib.Data.List.Basic

/-- A bounded channel: identity, capacity, queued items (oldest first), and
whether the receiving half has been dropped. -/
structure Mpsc (α : Type) where
  id : Nat
  capacity : Nat
  queue : List α
  closed : Bool

namespace Mpsc

variable {α : Type}

/-- A fresh, empty, open channel. -/
def new (id capacity : Nat) : Mpsc α :=
  { id := id, capacity := capacity, queue := [], closed := false }

/-- Whether `trySend` would succeed. -/
def hasRoom (c : Mpsc α) : Bool :=
  !c.closed && decide (c.queue.length < c.capacity)

/-- `tx.try_send(a)`. -/
def trySend (c : Mpsc α) (a : α) : Mpsc α :=
  if c.hasRoom then { c with queue := c.queue ++ [a] } else c

/-- `rx.recv()` when an item is queued. -/
def recv (c : Mpsc α) : Mpsc α := { c with queue := c.queue.tail }

/-- The receiving half is dropped. -/
def close (c : Mpsc α) : Mpsc α := { c with closed := true }

@[simp] theorem new_id (id capacity : Nat) : (new id capacity : Mpsc α).id = id := rfl

@[simp] theorem trySend_id (c : Mpsc α) (a : α) : (c.trySend a).id = c.id := by
  unfold trySend; split <;> rfl

@[simp] theorem recv_id (c : Mpsc α) : c.recv.id = c.id := rfl

@[simp] theorem close_id (c : Mpsc α) : c.close.id = c.id := rfl

/-! Several items, one after the other. -/

section Batch

variable {β : Type} (f : β → α)

/-- With room for all of them, all of them are queued. -/
theorem foldl_trySend_of_room (items : List β) (c : Mpsc α) (hopen : c.closed = false)
    (hroom : c.queue.length + items.length ≤ c.capacity) :
    items.foldl (fun c b => c.trySend (f b)) c = { c with queue := c.queue ++ items.map f } := by
  induction items generalizing c with
  | nil => simp
  | cons b items ih =>
      rw [List.length_cons] at hroom
      have hlt : c.queue.length < c.capacity := by omega
      have hsend : c.trySend (f b) = { c with queue := c.queue ++ [f b] } := by
        simp [trySend, hasRoom, hopen, hlt]
      have hrest : (c.queue ++ [f b]).length + items.length ≤ c.capacity := by
        rw [List.length_append, List.length_singleton]
        omega
      rw [List.foldl_cons, hsend, ih { c with queue := c.queue ++ [f b] } hopen hrest,
        List.map_cons, List.append_assoc, List.singleton_append]

/-- In any case some of them are, in their order. -/
theorem foldl_trySend_kept (items : List β) (c : Mpsc α) :
    ∃ kept : List β, kept.Sublist items
      ∧ (items.foldl (fun c b => c.trySend (f b)) c).queue = c.queue ++ kept.map f := by
  induction items generalizing c with
  | nil => exact ⟨[], .slnil, (List.append_nil _).symm⟩
  | cons b items ih =>
      obtain ⟨kept, hsub, heq⟩ := ih (c.trySend (f b))
      rw [List.foldl_cons, heq]
      unfold trySend
      split
      · refine ⟨b :: kept, hsub.cons_cons b, ?_⟩
        rw [List.append_assoc, List.map_cons, List.singleton_append]
      · exact ⟨kept, hsub.cons b, rfl⟩

/-- Items that a selection does not look at do not change what it selects, be
they queued or not. -/
theorem foldl_trySend_filterMap {γ : Type} (g : α → Option γ) (items : List β) (c : Mpsc α)
    (hskip : ∀ b ∈ items, g (f b) = none) :
    (items.foldl (fun c b => c.trySend (f b)) c).queue.filterMap g = c.queue.filterMap g := by
  induction items generalizing c with
  | nil => rfl
  | cons b items ih =>
      rw [List.foldl_cons, ih _ fun b' hb' => hskip b' (List.mem_cons_of_mem _ hb')]
      unfold trySend
      split
      · simp [hskip b List.mem_cons_self]
      · rfl

end Batch

end Mpsc
