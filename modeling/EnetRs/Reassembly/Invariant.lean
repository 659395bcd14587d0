/-
  EnetRs.Reassembly.Invariant — what holds of the receiver between two commands.

  `Traffic.Ordered` ties the receiver's channel to the messages sent: its
  counters are the true numbers, its queue holds messages that have arrived in
  full, its buffers belong to one message each, and its deliveries are messages
  in an order that no unreliable message breaks.

  Main results:
    * `Traffic.Ordered.next` — one command, given its effect on the counters.
    * `Traffic.Ordered.quiet`, `now`, `hold` — the three ways a command can end.
-/
import EnetRs.Reassembly.Reception

namespace EnetRs

open MachineInt

namespace Traffic

variable {tr : Traffic} {r : Reception} {x : Piece} {c c' : Channel} {l d : List Nat}
  {Q Q' : Finset Nat} {t : U32}

/-! ## §1. The messages held back. -/

section Held

variable {T : Nat} (hq : QueueIs tr.start tr.data c T Q) (hstuck : ∀ i ∈ Q, tr.start i ≠ T + 1)
  (hheld : ∀ i ∈ Q, tr.reliable i = true)

include hheld in
theorem start_inj_of_held (hrel : tr.reliable x.msg = true) :
    ∀ j ∈ Q, tr.start j = tr.start x.msg → j = x.msg :=
  fun j hj heq => start_inj (hheld j hj) hrel heq

include hq hstuck hheld in
/-- A message that starts at the expected number is over before any that is held
back begins. -/
theorem gap (hrel : tr.reliable x.msg = true) (hstart : tr.start x.msg = T + 1) :
    ∀ j ∈ Q, T + tr.pieces x.msg < tr.start j := by
  intro j hj
  have hahead := hq.ahead j hj
  have hne := hstuck j hj
  have hle := start_add_pieces_le_of_lt hrel (hheld j hj) (by omega)
  omega

include hq hstuck hheld in
/-- What `receive_reliable` does with a message put together from its fragments. -/
theorem released {c₀ : Channel} (ht : Trimmed c c₀) (hv : tr.Valid x)
    (hrel : tr.reliable x.msg = true) (hcut : tr.whole x.msg = false)
    (hnear : Near (T + 1) (tr.start x.msg)) :
    Served tr.start tr.data c₀ T Q x.msg (tr.pieces x.msg)
      (PeerEntry.releaseAssembled c₀
        (fragmentOf (tr.key x.msg) tr.sender.fp (tr.data x.msg) x.part) true (tr.data x.msg)) :=
  (ht.queueIs hq).release hstuck hnear (start_inj_of_held hheld hrel) rfl
    (((sized x.msg).count _).trans (pieces_of_cut hv.1 hcut).symm) (tr.pieces_pos hv.1)
    (gap hq hstuck hheld hrel)

end Held

/-! ## §2. The invariant. -/

/-- **What holds between the commands.**  `l` are the messages delivered so far,
`Q` those held back. -/
structure Ordered (tr : Traffic) (r : Reception) (c : Channel) (l : List Nat) (Q : Finset Nat) :
    Prop where
  channel : r.entry.channels[tr.ch.toNat]? = some c
  queue : QueueIs tr.start tr.data c r.reliable Q
  stuck : ∀ i ∈ Q, tr.start i ≠ r.reliable + 1
  held : ∀ i ∈ Q, tr.reliable i = true
  counter : c.incomingUnreliableSeq = BitVec.ofNat 16 r.unreliable
  buffers : tr.BuffersOwned r c
  delivered : r.entry.deliveredOn tr.ch = l.map tr.packet
  arrived : ∀ i, i ∈ l ∨ i ∈ Q → tr.Complete r.past i
  lt : ∀ i ∈ l, i < tr.msgs.length
  reliable_le : ∀ i ∈ l, tr.reliable i = true → tr.start i ≤ r.reliable
  unreliable_le : ∀ i ∈ l, tr.reliable i = false → tr.start i ≤ r.unreliable
  order : l.Pairwise fun i j => tr.reliable j = false → i < j

namespace Ordered

theorem begins {p : PeerEntry} (hp : tr.Fresh p) : tr.Ordered (begins p) Channel.new [] ∅ :=
  { channel := hp.channel
    queue :=
      { incoming := rfl
        queue := fun key d => by simp [Channel.new]
        ahead := by simp
        inj := by simp }
    stuck := by simp
    held := by simp
    counter := rfl
    buffers := fun key b hb => by simp [Channel.new] at hb
    delivered := hp.delivered
    arrived := by simp
    lt := by simp
    reliable_le := by simp
    unreliable_le := by simp
    order := .nil }

/-- The reliable counter after a command. -/
theorem reliable_arrive {T' : Nat} (hi : tr.Ordered r c l Q)
    (hc' : (tr.onPiece t r.entry x).channels[tr.ch.toNat]? = some c')
    (hin : c'.incomingReliableSeq = BitVec.ofNat 16 T')
    (hT : r.reliable ≤ T' ∧ T' < r.reliable + 65536) : (tr.arrive r (t, x)).reliable = T' := by
  simp only [Traffic.arrive, chan_of_getElem? hi.channel, chan_of_getElem? hc']
  exact counter_eq hi.queue.incoming hin hT.1 hT.2

/-- What is left to show of a command whose effect on the counters is known. -/
theorem next {T' V' : Nat} (hi : tr.Ordered r c l Q) (hown : tr.JoinsOwn r x)
    (hc' : (tr.onPiece t r.entry x).channels[tr.ch.toNat]? = some c')
    (hq : QueueIs tr.start tr.data c' T' Q') (hstuck : ∀ i ∈ Q', tr.start i ≠ T' + 1)
    (hheld : ∀ i ∈ Q', tr.reliable i = true)
    (hT : r.reliable ≤ T' ∧ T' < r.reliable + 65536)
    (hu : c'.incomingUnreliableSeq = BitVec.ofNat 16 V')
    (hV : r.unreliable ≤ V' ∧ V' < r.unreliable + 65536)
    (hbuf : tr.BuffersAfter r x c c')
    (hdel : (tr.onPiece t r.entry x).deliveredOn tr.ch
      = r.entry.deliveredOn tr.ch ++ d.map tr.packet)
    (harr : ∀ i, i ∈ d ∨ i ∈ Q' → i ∈ Q ∨ tr.Complete (r.past ++ [x]) i)
    (hd : ∀ i ∈ d, i < tr.msgs.length ∧ tr.start i ≤ if tr.reliable i then T' else V')
    (hord : (l ++ d).Pairwise fun i j => tr.reliable j = false → i < j) :
    tr.Ordered (tr.arrive r (t, x)) c' (l ++ d) Q' := by
  have hrel := hi.reliable_arrive hc' hq.incoming hT
  have hunr : (tr.arrive r (t, x)).unreliable = V' := by
    simp only [Traffic.arrive, chan_of_getElem? hi.channel, chan_of_getElem? hc']
    exact counter_eq hi.counter hu hV.1 hV.2
  have hmem : ∀ i ∈ l ++ d, i < tr.msgs.length ∧ tr.start i ≤ if tr.reliable i then T' else V' := by
    intro i hid
    rcases List.mem_append.mp hid with hil | hid
    · refine ⟨hi.lt i hil, ?_⟩
      cases hreli : tr.reliable i with
      | true => exact (hi.reliable_le i hil hreli).trans hT.1
      | false => exact (hi.unreliable_le i hil hreli).trans hV.1
    · exact hd i hid
  refine
    { channel := hc'
      queue := hrel.symm ▸ hq
      stuck := hrel.symm ▸ hstuck
      held := hheld
      counter := hunr.symm ▸ hu
      buffers := hi.buffers.arrive hi.channel hown (hrel.symm ▸ hT.1) hbuf
      delivered := by
        rw [List.map_append, ← hi.delivered]
        exact hdel
      arrived := fun i hid => ?_
      lt := fun i hil => (hmem i hil).1
      reliable_le := fun i hil hreli => ?_
      unreliable_le := fun i hil hreli => ?_
      order := hord }
  · have hmono : ∀ i, i ∈ l ∨ i ∈ Q → tr.Complete (r.past ++ [x]) i :=
      fun i hid => (hi.arrived i hid).mono (List.subset_append_left ..)
    rw [List.mem_append, or_assoc] at hid
    rcases hid with hil | hid
    · exact hmono i (.inl hil)
    · exact (harr i hid).elim (fun hiQ => hmono i (.inr hiQ)) id
  · have hle := (hmem i hil).2
    rw [hreli, if_pos rfl] at hle
    rwa [hrel]
  · have hle := (hmem i hil).2
    rw [hreli] at hle
    rwa [hunr]

/-! ## §3. Reliable commands. -/

/-- Nothing is delivered and the streams stay where they are. -/
theorem quiet (hi : tr.Ordered r c l Q) (hown : tr.JoinsOwn r x)
    (hc' : (tr.onPiece t r.entry x).channels[tr.ch.toNat]? = some c')
    (hq : QueueIs tr.start tr.data c' r.reliable Q)
    (hu : c'.incomingUnreliableSeq = c.incomingUnreliableSeq)
    (hbuf : tr.BuffersAfter r x c c')
    (hh : (tr.onPiece t r.entry x).history = r.entry.history) :
    tr.Ordered (tr.arrive r (t, x)) c' l Q := by
  have hnext := hi.next (d := []) hown hc' hq hi.stuck hi.held ⟨Nat.le_refl _, by omega⟩
    (hu.trans hi.counter) ⟨Nat.le_refl _, by omega⟩ hbuf
    (by rw [PeerEntry.deliveredOn_congr hh, List.map_nil, List.append_nil])
    (fun i hid => .inl (hid.resolve_left List.not_mem_nil)) (by simp)
    (by rw [List.append_nil]; exact hi.order)
  rwa [List.append_nil] at hnext

/-- A reliable message is handed out, with those that were waiting for it. -/
theorem now {c₀ : Channel} {n : Nat} {l₁ : List Nat} (hi : tr.Ordered r c l Q)
    (hrel : tr.reliable x.msg = true) (hown : tr.JoinsOwn r x) (ht : Trimmed c c₀)
    (hpos : 0 < n) (hn : n ≤ 32768) (starts : tr.start x.msg = r.reliable + 1)
    (drained : QueueDrained tr.start tr.data c₀ (r.reliable + n) Q l₁ c')
    (harr : tr.Complete (r.past ++ [x]) x.msg)
    (hc' : (tr.onPiece t r.entry x).channels[tr.ch.toNat]? = some c')
    (hh : (tr.onPiece t r.entry x).history
      = r.entry.history ++ PeerEntry.deliveries tr.ch .reliable ((x.msg :: l₁).map tr.data)) :
    tr.Ordered (tr.arrive r (t, x)) c' (l ++ x.msg :: l₁) (Q \ l₁.toFinset) := by
  have hdel := PeerEntry.deliveredOn_deliveries hh (by decide)
  have hrel₁ : ∀ i ∈ x.msg :: l₁, tr.reliable i = true := by
    intro i hil
    rcases List.mem_cons.mp hil with rfl | hil
    · exact hrel
    · exact hi.held i (drained.mem i hil)
  have hle := drained.le (fun i hiQ => (hi.queue.ahead i hiQ).2) (by omega)
  refine hi.next (d := x.msg :: l₁) hown hc' drained.queue drained.stuck
    (fun i hiQ => hi.held i (Finset.mem_sdiff.mp hiQ).1) ⟨by omega, by omega⟩
    ((drained.frame.2.trans ht.counter).trans hi.counter) ⟨Nat.le_refl _, by omega⟩
    (fun key b hb => .inl (ht.buffers key b (drained.frame.1 ▸ hb))) ?_ ?_ ?_ ?_
  · -- the payloads are those of the messages, in the reliable mode
    rw [hdel]
    congr 1
    rw [List.map_map]
    refine List.map_congr_left fun i hil => ?_
    simp only [Function.comp_apply, packet, hrel₁ i hil, if_true]
  · rintro i (hid | hiQ)
    · rcases List.mem_cons.mp hid with rfl | hid
      · exact .inr harr
      · exact .inl (drained.mem i hid)
    · exact .inl (Finset.mem_sdiff.mp hiQ).1
  · intro i hil
    rw [hrel₁ i hil, if_pos rfl]
    refine ⟨lt_of_reliable (hrel₁ i hil), ?_⟩
    rcases List.mem_cons.mp hil with rfl | hil
    · omega
    · exact (drained.inTurn.le i hil).2
  · -- only unreliable messages are bound to the order
    have hnone : ∀ i ∈ x.msg :: l₁, ¬ tr.reliable i = false := by
      intro i hil
      simp [hrel₁ i hil]
    refine List.pairwise_append.mpr ⟨hi.order, ?_, ?_⟩
    · exact List.Pairwise.imp_of_mem (R := fun _ _ => True)
        (fun _ hj _ hrelj => absurd hrelj (hnone _ hj)) (List.pairwise_of_forall fun _ _ => trivial)
    · exact fun i _ j hj hrelj => absurd hrelj (hnone j hj)

/-- A reliable message that comes early is held back. -/
theorem hold {c₀ : Channel} (hi : tr.Ordered r c l Q) (hrel : tr.reliable x.msg = true)
    (hown : tr.JoinsOwn r x) (ht : Trimmed c c₀) (ahead : r.reliable + 1 < tr.start x.msg)
    (queue : QueueIs tr.start tr.data c' r.reliable (insert x.msg Q)) (frame : SameReassembly c₀ c')
    (harr : tr.Complete (r.past ++ [x]) x.msg)
    (hc' : (tr.onPiece t r.entry x).channels[tr.ch.toNat]? = some c')
    (hh : (tr.onPiece t r.entry x).history = r.entry.history) :
    tr.Ordered (tr.arrive r (t, x)) c' l (insert x.msg Q) := by
  have hnext := hi.next (d := []) hown hc' queue (fun i hiQ => ?_) (fun i hiQ => ?_)
    ⟨Nat.le_refl _, by omega⟩ ((frame.2.trans ht.counter).trans hi.counter) ⟨Nat.le_refl _, by omega⟩
    (fun key b hb => .inl (ht.buffers key b (frame.1 ▸ hb)))
    (by rw [PeerEntry.deliveredOn_congr hh, List.map_nil, List.append_nil]) (fun i hid => ?_)
    (by simp) (by rw [List.append_nil]; exact hi.order)
  · rwa [List.append_nil] at hnext
  · rcases Finset.mem_insert.mp hiQ with rfl | hiQ
    · omega
    · exact hi.stuck i hiQ
  · rcases Finset.mem_insert.mp hiQ with rfl | hiQ
    · exact hrel
    · exact hi.held i hiQ
  · rcases Finset.mem_insert.mp (hid.resolve_left List.not_mem_nil) with rfl | hiQ
    · exact .inr harr
    · exact .inl hiQ

/-- A message put together from its fragments reaches `receive_reliable`. -/
theorem release {c₀ : Channel} (hi : tr.Ordered r c l Q) (ht : Trimmed c c₀) (hv : tr.Valid x)
    (hrel : tr.reliable x.msg = true) (hcut : tr.whole x.msg = false)
    (hnear : Near (r.reliable + 1) (tr.start x.msg)) :
    Served tr.start tr.data c₀ r.reliable Q x.msg (tr.pieces x.msg)
      (PeerEntry.releaseAssembled c₀
        (fragmentOf (tr.key x.msg) tr.sender.fp (tr.data x.msg) x.part) true (tr.data x.msg)) :=
  released hi.queue hi.stuck hi.held ht hv hrel hcut hnear

/-- All the fragments of a message that is expected arrived in time. -/
theorem pieces_le {S : Finset Nat} (hcol : tr.Collected r c x.msg S) (hv : tr.Valid x)
    (hcut : tr.whole x.msg = false) (hrel : tr.reliable x.msg = true)
    (hnear : Near (r.reliable + 1) (tr.start x.msg + x.part))
    (hall : insert x.part S = Finset.range (tr.pieces x.msg))
    (hstart : tr.start x.msg = r.reliable + 1) : tr.pieces x.msg ≤ 32768 := by
  have htwo := two_le_pieces hv.1 hcut
  have hlast : tr.pieces x.msg - 1 ∈ insert x.part S := by
    rw [hall, Finset.mem_range]
    omega
  rcases Finset.mem_insert.mp hlast with heq | hmem
  · have hle := hnear.le
    omega
  · have hle := hcol.range hrel _ hmem
    omega

end Ordered

end Traffic

end EnetRs
