/-
  EnetRs.Reassembly.Single — a reliable stream of messages in one piece.

  The messages `d 1`, `d 2`, … are sent without end under their numbers modulo
  2^16, and arrive in any order, some more than once, some never.  `Intake` is
  the receiving channel with what it has handed out so far and, for the
  statements only, which arrivals it took and whether it ever had to turn one
  away because its queue was full.

  Main results:
    * `Intake.Sound.arrive` — one arrival within half the number space of the
      expected message.
    * `receives_in_order` — after any such arrivals a prefix of the stream has
      been handed out, and the queue holds exactly what was taken beyond it.
-/
import EnetRs.Reassembly.Handover
import EnetRs.Reassembly.Queue

namespace EnetRs

open MachineInt

/-! ## §1. The receiving channel and what it has handed out. -/

structure Intake where
  chan : Channel
  /-- The lists `receive_reliable` returned, one after the other. -/
  out : List Bytes
  /-- The messages that were delivered at once or put into the queue. -/
  accepted : Finset Nat
  /-- A message ahead of the expected one met a full queue. -/
  turnedAway : Bool

namespace Intake

/-- A channel just opened. -/
def fresh : Intake := ⟨.new, [], ∅, false⟩

/-- The message expected next. -/
def expected (s : Intake) : Nat := s.out.length + 1

/-- The message `i` of the stream `d` arrives. -/
def arrive (d : Nat → Bytes) (s : Intake) (i : Nat) : Intake :=
  let seq := BitVec.ofNat 16 i
  let (chan, ready) := s.chan.receiveReliable seq (d i)
  { chan := chan
    out := s.out ++ ready
    accepted := if s.chan.expects seq || s.chan.hasRoomFor seq then insert i s.accepted
      else s.accepted
    turnedAway := s.turnedAway || (seqLt (s.chan.incomingReliableSeq + 1) seq
      && decide (maxIncomingReliableQueue ≤ s.chan.incomingReliableQueue.size)) }

def arriveAll (d : Nat → Bytes) (s : Intake) (l : List Nat) : Intake := l.foldl (arrive d) s

/-- Every arrival is a message of the stream and within half the number space
of the one expected when it comes. -/
def AllNear (d : Nat → Bytes) : Intake → List Nat → Prop
  | _, [] => True
  | s, i :: l => (1 ≤ i ∧ Near s.expected i) ∧ AllNear d (s.arrive d i) l

instance decidableAllNear (d : Nat → Bytes) : ∀ (s : Intake) (l : List Nat),
    Decidable (AllNear d s l)
  | _, [] => .isTrue trivial
  | s, i :: l => @instDecidableAnd _ _ _ (decidableAllNear d (s.arrive d i) l)

/-! ## §2. What one arrival does. -/

/-- After the arrivals in the list a prefix of the stream is out and the channel
holds the messages `Q`: those accepted beyond it. -/
structure Sound (d : Nat → Bytes) (s : Intake) (arrived : List Nat) (Q : Finset Nat) : Prop where
  out : s.out = (List.range' 1 s.out.length).map d
  queue : QueueIs id d s.chan s.out.length Q
  stuck : ∀ i ∈ Q, i ≠ s.expected
  held : ∀ i, i ∈ Q ↔ i ∈ s.accepted ∧ s.out.length < i
  size : s.chan.incomingReliableQueue.size ≤ maxIncomingReliableQueue
  taken : ∀ i ∈ s.accepted, i ∈ arrived
  handed : ∀ i, 1 ≤ i → i ≤ s.out.length → i ∈ arrived
  kept : s.turnedAway = false → ∀ i ∈ arrived, i ≤ s.out.length ∨ i ∈ Q

theorem sound_fresh (d : Nat → Bytes) : Sound d fresh [] ∅ where
  out := rfl
  queue := by
    refine ⟨rfl, fun key payload => ?_, nofun, nofun⟩
    show (∅ : Std.ExtTreeMap U16 Bytes)[key]? = some payload ↔ _
    simp
  stuck := nofun
  held := fun i => ⟨nofun, fun hi => absurd hi.1 (Finset.notMem_empty i)⟩
  size := Nat.zero_le _
  taken := nofun
  handed := fun i hpos hle => absurd hle (by show ¬ i ≤ 0; omega)
  kept := fun _ => nofun

/-- Where the start numbers are the messages themselves, messages in turn are
consecutive. -/
theorem inTurn_id : ∀ {l : List Nat} {T : Nat}, InTurn id T l → l = List.range' (T + 1) l.length
  | [], _, _ => rfl
  | i :: l, T, ⟨hi, hl⟩ => by
      rw [List.length_cons, List.range'_succ, ← inTurn_id hl]
      exact congrArg (· :: l) hi

variable {d : Nat → Bytes} {s : Intake} {arrived : List Nat} {Q : Finset Nat} {i : Nat}

/-- The number of the expected message, as the channel computes it. -/
theorem Sound.next (hs : Sound d s arrived Q) :
    s.chan.incomingReliableSeq + 1 = BitVec.ofNat 16 s.expected := by
  rw [hs.queue.incoming, expected, BitVec.ofNat_add]
  rfl

/-- The expected message: it is handed out, with all that follow without a gap. -/
theorem Sound.arrive_expected (hs : Sound d s arrived Q) (hi : i = s.expected) :
    ∃ Q', Sound d (s.arrive d i) (arrived ++ [i]) Q' := by
  have hnear : Near s.expected i := ⟨by omega, by omega⟩
  have hex : s.chan.expects (BitVec.ofNat 16 i) = true :=
    (hs.queue.expects_eq hnear).trans (decide_eq_true hi)
  have hlen := (s.chan.receiveReliable_length (BitVec.ofNat 16 i) (d i)).2
  have hserved : Served id d s.chan s.out.length Q i 1
      (s.chan.receiveReliable (BitVec.ofNat 16 i) (d i)) :=
    hs.queue.receive hs.stuck hnear (fun j _ heq => heq)
  have hexp : s.expected = s.out.length + 1 := rfl
  unfold arrive
  simp only [hex, Bool.true_or, if_true]
  generalize s.chan.receiveReliable (BitVec.ofNat 16 i) (d i) = r at hserved hlen
  cases hserved with
  | held ahead => exact absurd (show s.out.length + 1 < i from ahead) (by omega)
  | dropped behind =>
      exact absurd (show i ≤ s.out.length ∨ s.out.length + 1 < i ∧ _ from behind) (by omega)
  | @now l chan' starts drained =>
      have hrange := inTurn_id drained.inTurn
      have hkeys := drained.inTurn.le
      simp only [id_eq] at hkeys
      have hout : (s.out ++ (i :: l).map d).length = s.out.length + 1 + l.length := by
        rw [List.length_append, List.length_map, List.length_cons]
        omega
      refine ⟨Q \ l.toFinset, ?_, ?_, ?_, fun j => ?_, ?_, fun j hj => ?_, fun j hpos hle => ?_,
        fun hroom j hj => ?_⟩
      · -- the messages handed out before, then `i`, then those in turn
        show s.out ++ (i :: l).map d = (List.range' 1 (s.out ++ (i :: l).map d).length).map d
        have hcons : List.range' (1 + s.out.length) (1 + l.length) = i :: l := by
          rw [Nat.add_comm 1 l.length, List.range'_succ]
          conv => rhs; rw [hrange]
          rw [hi, hexp, Nat.add_comm 1]
        rw [hout, Nat.add_assoc, ← List.range'_append_1, List.map_append, hcons, ← hs.out]
      · show QueueIs id d chan' (s.out ++ (i :: l).map d).length _
        rw [hout]
        exact drained.queue
      · show ∀ j ∈ Q \ l.toFinset, j ≠ (s.out ++ (i :: l).map d).length + 1
        rw [hout]
        exact drained.stuck
      · show j ∈ Q \ l.toFinset
          ↔ j ∈ insert i s.accepted ∧ (s.out ++ (i :: l).map d).length < j
        rw [hout]
        constructor
        · intro hj
          have hahead : s.out.length + 1 + l.length < j := (drained.queue.ahead j hj).1
          have hold := (hs.held j).mp (Finset.mem_sdiff.mp hj).1
          exact ⟨Finset.mem_insert_of_mem hold.1, hahead⟩
        · intro ⟨hj, hlt⟩
          have hacc : j ∈ s.accepted := (Finset.mem_insert.mp hj).resolve_left (by omega)
          refine Finset.mem_sdiff.mpr ⟨(hs.held j).mpr ⟨hacc, by omega⟩, fun hl => ?_⟩
          have hle := (hkeys j (List.mem_toFinset.mp hl)).2
          omega
      · -- `i` did not wait, so the queue has not grown
        have hsize := hs.size
        simp only [List.map_cons, List.length_cons] at hlen ⊢
        omega
      · rcases Finset.mem_insert.mp hj with rfl | hj
        · exact List.mem_append_right _ List.mem_cons_self
        · exact List.mem_append_left _ (hs.taken j hj)
      · rw [hout] at hle
        by_cases hold : j ≤ s.out.length
        · exact List.mem_append_left _ (hs.handed j hpos hold)
        · by_cases heq : j = i
          · exact List.mem_append_right _ (List.mem_singleton.mpr heq)
          · -- one of those that were waiting
            have hl : j ∈ l := by
              rw [hrange, List.mem_range'_1]
              omega
            have hacc := ((hs.held j).mp (drained.mem j hl)).1
            exact List.mem_append_left _ (hs.taken j hacc)
      · show j ≤ (s.out ++ (i :: l).map d).length ∨ j ∈ Q \ l.toFinset
        rw [hout]
        rcases List.mem_append.mp hj with hj | hj
        · rcases hs.kept (Bool.or_eq_false_iff.mp hroom).1 j hj with hle | hQ
          · left
            omega
          · by_cases hl : j ∈ l
            · have hle := (hkeys j hl).2
              left
              omega
            · exact .inr (Finset.mem_sdiff.mpr ⟨hQ, fun hin => hl (List.mem_toFinset.mp hin)⟩)
        · have heq := List.mem_singleton.mp hj
          left
          omega

/-- A message ahead of the expected one for which there is room: it waits. -/
theorem Sound.arrive_held (hs : Sound d s arrived Q) (hnear : Near s.expected i)
    (hahead : s.expected < i)
    (hcap : s.chan.incomingReliableQueue.size < maxIncomingReliableQueue) :
    Sound d (s.arrive d i) (arrived ++ [i]) (insert i Q) := by
  have hexp : s.expected = s.out.length + 1 := rfl
  have hex : s.chan.expects (BitVec.ofNat 16 i) = false :=
    (hs.queue.expects_eq hnear).trans (decide_eq_false (by show ¬ i = s.out.length + 1; omega))
  have hroom : s.chan.hasRoomFor (BitVec.ofNat 16 i) = true := by
    refine (hs.queue.hasRoomFor_eq hnear).trans ?_
    rw [decide_eq_true hcap, Bool.and_true]
    exact decide_eq_true hahead
  have hsize := Std.ExtTreeMap.size_insert_le (t := s.chan.incomingReliableQueue)
    (k := BitVec.ofNat 16 i) (v := d i)
  unfold arrive
  simp only [Channel.receiveReliable_of_room hex hroom, hex, hroom, Bool.or_true, if_true,
    List.append_nil]
  refine ⟨hs.out, hs.queue.insert hahead hnear (fun j _ heq => heq), fun j hj => ?_, fun j => ?_,
    hsize.trans hcap, fun j hj => ?_, fun j hpos hle => ?_, fun hkept j hj => ?_⟩
  · rcases Finset.mem_insert.mp hj with rfl | hj
    · exact Nat.ne_of_gt hahead
    · exact hs.stuck j hj
  · simp only [Finset.mem_insert, hs.held j]
    constructor
    · intro hj
      refine ⟨hj.imp_right And.left, ?_⟩
      rcases hj with rfl | hj
      · omega
      · exact hj.2
    · intro ⟨hj, hlt⟩
      exact hj.imp_right (fun hacc => ⟨hacc, hlt⟩)
  · rcases Finset.mem_insert.mp hj with rfl | hj
    · exact List.mem_append_right _ List.mem_cons_self
    · exact List.mem_append_left _ (hs.taken j hj)
  · exact List.mem_append_left _ (hs.handed j hpos hle)
  · rcases List.mem_append.mp hj with hj | hj
    · exact (hs.kept (Bool.or_eq_false_iff.mp hkept).1 j hj).imp_right Finset.mem_insert_of_mem
    · exact .inr (List.mem_singleton.mp hj ▸ Finset.mem_insert_self i Q)

/-- Any other message: it is dropped, and unless the queue was full it was handed
out before. -/
theorem Sound.arrive_dropped (hs : Sound d s arrived Q) (hnear : Near s.expected i)
    (hother : i ≤ s.out.length
      ∨ s.expected < i ∧ maxIncomingReliableQueue ≤ s.chan.incomingReliableQueue.size) :
    Sound d (s.arrive d i) (arrived ++ [i]) Q := by
  have hexp : s.expected = s.out.length + 1 := rfl
  have hex : s.chan.expects (BitVec.ofNat 16 i) = false :=
    (hs.queue.expects_eq hnear).trans (decide_eq_false (by show ¬ i = s.out.length + 1; omega))
  have hroom : s.chan.hasRoomFor (BitVec.ofNat 16 i) = false := by
    refine (hs.queue.hasRoomFor_eq hnear).trans ?_
    rw [Bool.and_eq_false_iff, decide_eq_false_iff_not, decide_eq_false_iff_not]
    show ¬ s.expected < i ∨ _
    omega
  unfold arrive
  simp only [Channel.receiveReliable_of_drop hex hroom, hs.next, hnear.seqLt, hex, hroom,
    Bool.or_false, Bool.false_eq_true, if_false, List.append_nil]
  refine ⟨hs.out, hs.queue, hs.stuck, hs.held, hs.size,
    fun j hj => List.mem_append_left _ (hs.taken j hj),
    fun j hpos hle => List.mem_append_left _ (hs.handed j hpos hle), fun hkept j hj => ?_⟩
  obtain ⟨hkept, hnot⟩ := Bool.or_eq_false_iff.mp hkept
  rw [Bool.and_eq_false_iff, decide_eq_false_iff_not, decide_eq_false_iff_not] at hnot
  rcases List.mem_append.mp hj with hj | hj
  · exact hs.kept hkept j hj
  · have heq := List.mem_singleton.mp hj
    left
    show j ≤ s.out.length
    omega

/-- **One arrival.** -/
theorem Sound.arrive (hs : Sound d s arrived Q) (hnear : Near s.expected i) :
    ∃ Q', Sound d (s.arrive d i) (arrived ++ [i]) Q' := by
  have hexp : s.expected = s.out.length + 1 := rfl
  by_cases hi : i = s.expected
  · exact hs.arrive_expected hi
  · by_cases hheld : s.expected < i
        ∧ s.chan.incomingReliableQueue.size < maxIncomingReliableQueue
    · exact ⟨_, hs.arrive_held hnear hheld.1 hheld.2⟩
    · exact ⟨_, hs.arrive_dropped hnear (by omega)⟩

/-- **Any number of arrivals.** -/
theorem Sound.arriveAll : ∀ (l : List Nat) {s : Intake} {arrived : List Nat} {Q : Finset Nat},
    Sound d s arrived Q → AllNear d s l → ∃ Q', Sound d (s.arriveAll d l) (arrived ++ l) Q' := by
  intro l
  induction l with
  | nil =>
      intro s arrived Q hs _
      rw [List.append_nil]
      exact ⟨Q, hs⟩
  | cons i l ih =>
      intro s arrived Q hs hl
      obtain ⟨⟨-, hnear⟩, hl⟩ := hl
      obtain ⟨Q', hs'⟩ := hs.arrive hnear
      obtain ⟨Q'', hs''⟩ := ih hs' hl
      rw [List.append_assoc] at hs''
      exact ⟨Q'', hs''⟩

end Intake

/-! ## §3. The stream. -/

/-- **The channel is an in-order stream.**  Whatever arrives in whatever order,
what has been handed out is a prefix `d 1`, …, `d k`; the queue holds the messages
accepted beyond `k + 1`, each under a number of its own, never the expected one and
never more than 4096; and unless the queue was full when a message ahead of the
expected one came, the prefix is the longest one that has arrived. -/
theorem receives_in_order (d : Nat → Bytes) (arrivals : List Nat)
    (hnear : Intake.fresh.AllNear d arrivals) :
    let s := Intake.fresh.arriveAll d arrivals
    let k := s.out.length
    s.out = (List.range' 1 k).map d
      ∧ (∀ (key : U16) (payload : Bytes), s.chan.incomingReliableQueue[key]? = some payload ↔
        ∃ i ∈ s.accepted, k + 1 < i ∧ key = BitVec.ofNat 16 i ∧ payload = d i)
      ∧ (∀ i ∈ s.accepted, ∀ j ∈ s.accepted, k < i → k < j →
        BitVec.ofNat 16 i = BitVec.ofNat 16 j → i = j)
      ∧ s.chan.incomingReliableQueue[BitVec.ofNat 16 (k + 1)]? = none
      ∧ s.chan.incomingReliableQueue.size ≤ 4096
      ∧ (s.turnedAway = false →
        IsGreatest {m | ∀ i, 1 ≤ i → i ≤ m → i ∈ arrivals} k) := by
  intro s k
  obtain ⟨Q, hs⟩ := (Intake.sound_fresh d).arriveAll arrivals hnear
  refine ⟨hs.out, fun key payload => ?_, fun i hi j hj hki hkj heq => ?_, ?_, hs.size,
    fun hroom => ⟨hs.handed, fun m hm => ?_⟩⟩
  · rw [hs.queue.queue]
    constructor
    · intro ⟨i, hi, hrest⟩
      obtain ⟨hacc, hlt⟩ := (hs.held i).mp hi
      have hlt : k < i := hlt
      have hne : i ≠ k + 1 := hs.stuck i hi
      exact ⟨i, hacc, by omega, hrest⟩
    · intro ⟨i, hacc, hlt, hrest⟩
      have hlt : k < i := by omega
      exact ⟨i, (hs.held i).mpr ⟨hacc, hlt⟩, hrest⟩
  · -- both lie in the half of the number space after `k`
    have hi' : k < i ∧ i ≤ k + 32768 := hs.queue.ahead i ((hs.held i).mpr ⟨hi, hki⟩)
    have hj' : k < j ∧ j ≤ k + 32768 := hs.queue.ahead j ((hs.held j).mpr ⟨hj, hkj⟩)
    have hij : Near i j := ⟨by omega, by omega⟩
    exact hij.ofNat_inj.mp heq
  · show s.chan.incomingReliableQueue[BitVec.ofNat 16 s.expected]? = none
    rw [← hs.next]
    exact hs.queue.next_eq_none.mpr hs.stuck
  · -- a longer prefix would contain the expected message, which is not queued
    by_contra hlt
    have hexp := hm (k + 1) (by omega) (by omega)
    rcases hs.kept hroom (k + 1) hexp with hle | hQ
    · exact absurd (show k + 1 ≤ k from hle) (by omega)
    · exact hs.stuck (k + 1) hQ rfl

/-- Five arrivals, out of order and with a duplicate: the fourth message is
missing. -/
theorem receives_in_order_shuffled :
    (Intake.fresh.arriveAll (fun i => [BitVec.ofNat 8 i]) [2, 1, 2, 5, 3]).out = [[1], [2], [3]]
      ∧ (Intake.fresh.arriveAll (fun i => [BitVec.ofNat 8 i]) [2, 1, 2, 5, 3]).turnedAway = false
      ∧ IsGreatest {m | ∀ i, 1 ≤ i → i ≤ m → i ∈ [2, 1, 2, 5, 3]} 3 := by
  have hnear : Intake.fresh.AllNear (fun i => [BitVec.ofNat 8 i]) [2, 1, 2, 5, 3] := by
    decide +kernel
  have hlen : (Intake.fresh.arriveAll (fun i => [BitVec.ofNat 8 i]) [2, 1, 2, 5, 3]).out.length
      = 3 := by
    decide +kernel
  have hroom : (Intake.fresh.arriveAll (fun i => [BitVec.ofNat 8 i]) [2, 1, 2, 5, 3]).turnedAway
      = false := by
    decide +kernel
  obtain ⟨hout, -, -, -, -, hgreatest⟩ := receives_in_order _ _ hnear
  rw [hlen] at hout hgreatest
  exact ⟨hout, hroom, hgreatest hroom⟩

end EnetRs
