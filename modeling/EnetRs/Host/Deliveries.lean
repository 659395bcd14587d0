/-
  EnetRs.Host.Deliveries — what an operation hands to the application.

  Four operations call `deliver`: the arrivals of a reliable, an unreliable and
  an unsequenced message, and of a fragment.  `apply_hands` says for every
  operation which packets it can hand over and what that does to the queue.

  Main results:
    * `PeerOp.apply_hands` — the packets handed over and the queue afterwards.
    * `PeerOp.apply_unsequenced`, `apply_unsequencedWindow` — only unsequenced
      arrivals move the duplicate window and hand over unsequenced packets.
-/
import EnetRs.Host.Channels

namespace EnetRs

open MachineInt

/-! ## §1. Deliveries in the history. -/

/-- The packet of a `deliver` event. -/
def PeerEvent.asDeliver : PeerEvent → Option Packet
  | .deliver pkt => some pkt
  | _ => none

namespace PeerEntry

variable {p q r : PeerEntry}

/-- Everything that was handed to `deliver`, in order. -/
def delivered (p : PeerEntry) : List Packet := p.history.filterMap PeerEvent.asDeliver

/-- The packets `pkts` were handed to `deliver`, one after the other, between
`p` and `q`. -/
structure Handed (p q : PeerEntry) (pkts : List Packet) : Prop where
  delivered : q.delivered = p.delivered ++ pkts
  toUser : q.toUser = pkts.foldl (fun tx pkt => tx.trySend (.ok pkt)) p.toUser

theorem Handed.nothing {es : List PeerEvent} (hh : q.history = p.history ++ es)
    (hes : es.filterMap PeerEvent.asDeliver = []) (hto : q.toUser = p.toUser) : Handed p q [] := by
  refine ⟨?_, hto⟩
  rw [PeerEntry.delivered, hh, List.filterMap_append, hes]
  rfl

theorem Handed.same (hh : q.history = p.history) (hto : q.toUser = p.toUser) : Handed p q [] := by
  have happend : q.history = p.history ++ [] := by rw [hh, List.append_nil]
  exact .nothing happend rfl hto

theorem Handed.none_trans (h₁ : Handed p q []) (h₂ : Handed q r []) : Handed p r [] := by
  refine ⟨?_, h₂.toUser.trans h₁.toUser⟩
  rw [h₂.delivered, h₁.delivered, List.append_nil]

theorem deliverAll_handed (p : PeerEntry) (ch : U8) (mode : SendMode) (ready : List Bytes) :
    Handed p (p.deliverAll ch mode ready) (ready.map (⟨·, ch, mode⟩)) := by
  rw [deliverAll_eq]
  constructor
  · have hnew : (ready.map fun data => PeerEvent.deliver ⟨data, ch, mode⟩).filterMap
        PeerEvent.asDeliver = ready.map (⟨·, ch, mode⟩) := by
      rw [List.filterMap_map]
      exact congrFun (List.filterMap_eq_map (f := fun data => (⟨data, ch, mode⟩ : Packet))) ready
    rw [delivered, List.filterMap_append, hnew]
    rfl
  · show ready.foldl _ p.toUser = _
    rw [List.foldl_map]

/-! ## §2. The four arrivals. -/

/-- A batch of messages of one channel, handed over after changes that touch
neither the log nor the queue. -/
theorem deliverAll_handed_of (hh : q.history = p.history) (hto : q.toUser = p.toUser) (ch : U8)
    (mode : SendMode) (ready : List Bytes) :
    Handed p (q.deliverAll ch mode ready) (ready.map (⟨·, ch, mode⟩)) := by
  have hand := deliverAll_handed q ch mode ready
  refine ⟨?_, ?_⟩
  · rw [hand.delivered, delivered, delivered, hh]
  · rw [hand.toUser, hto]

theorem onSendReliable_handed (p : PeerEntry) (ch : U8) (seq : U16) (data : Bytes) (nowMs : U32) :
    ∃ ready : List Bytes, Handed p (p.onSendReliable ch seq data nowMs)
        (ready.map (⟨·, ch, .reliable⟩))
      ∧ (ready ≠ [] → ∃ c, p.channels[ch.toNat]? = some c
        ∧ ready = (c.receiveReliable seq data).2) := by
  unfold onSendReliable
  simp only
  split
  · exact ⟨[], .same rfl rfl, fun hne => absurd rfl hne⟩
  · next c hc =>
    refine ⟨_, deliverAll_handed_of ?_ ?_ _ _ _, fun _ => ⟨c, hc, rfl⟩⟩ <;> rfl

theorem onSendUnreliable_handed (p : PeerEntry) (ch : U8) (rseq useq : U16) (data : Bytes)
    (nowMs : U32) :
    ∃ ready : List Bytes, Handed p (p.onSendUnreliable ch rseq useq data nowMs)
      (ready.map (⟨·, ch, .unreliable⟩)) := by
  unfold onSendUnreliable
  simp only
  split
  · exact ⟨[], .same rfl rfl⟩
  · split
    · exact ⟨[], .same rfl rfl⟩
    · refine ⟨_, deliverAll_handed_of ?_ ?_ _ _ _⟩ <;> rfl

theorem onFragment_handed (p : PeerEntry) (ch : U8) (sf : SendFragmentCmd) (reliable : Bool)
    (nowMs : U32) :
    ∃ ready : List Bytes, Handed p (p.onFragment ch sf reliable nowMs)
        (ready.map (⟨·, ch, if reliable then .reliable else .unreliable⟩))
      ∧ (ready ≠ [] → ∃ c, p.channels[ch.toNat]? = some c
        ∧ ready = (fragmentStep c sf reliable).2) := by
  unfold onFragment
  split
  · exact ⟨[], .same rfl rfl, fun hne => absurd rfl hne⟩
  · simp only
    split
    · exact ⟨[], .same rfl rfl, fun hne => absurd rfl hne⟩
    · next c hc =>
      refine ⟨_, deliverAll_handed_of ?_ ?_ _ _ _, fun hne => ?_⟩
      · rw [storeFragment_eq]
      · rw [storeFragment_eq]
      · cases hok : fragmentRefused { p with lastReceiveTime := nowMs } c sf with
        | true =>
            simp only [storeFragment, hok, if_true, ne_eq, not_true_eq_false] at hne
        | false => exact ⟨c, hc, storeFragment_ready _ ch c sf reliable hok⟩

theorem onSendUnsequenced_handed (p : PeerEntry) (group : U16) (data : Bytes) (nowMs : U32) :
    Handed p (p.onSendUnsequenced group data nowMs)
      (if (p.unsequencedWindow.checkAndSet group).2 then [⟨data, 0, .unsequenced⟩] else []) := by
  unfold onSendUnsequenced
  simp only
  split
  · refine ⟨?_, rfl⟩
    simp [delivered, deliver, PeerEvent.asDeliver]
  · exact .same rfl rfl

end PeerEntry

/-! ## §3. Every operation. -/

namespace PeerOp

/-- The packets an operation can hand to `deliver`. -/
def Hands (pkt : Packet) : PeerOp → Prop
  | recvReliable ch _ _ | recvFragment ch _ true => pkt.mode = .reliable ∧ pkt.channel = ch
  | recvUnreliable ch _ _ _ | recvFragment ch _ false => pkt.mode = .unreliable ∧ pkt.channel = ch
  | recvUnsequenced _ data => pkt = ⟨data, 0, .unsequenced⟩
  | _ => False

/-- The operations that touch the queue to the application without `deliver`. -/
def TouchesQueue : PeerOp → Prop
  | notify _ | appRecv | appDrop => True
  | _ => False

theorem log_handed {p : PeerEntry} {e : PeerEvent} (he : e.asDeliver = none) :
    p.Handed (p.log e) [] :=
  .nothing rfl (List.filterMap_cons_none he) rfl

theorem makeReliable_handed (p : PeerEntry) (ch cmdType flags : U8) (nowMs : U32) (body : Bytes) :
    p.Handed (p.makeReliable ch cmdType flags nowMs body).1 [] := by
  have htake : (p.takeSeq ch).1.history = p.history := by
    unfold PeerEntry.takeSeq PeerEntry.nextReliableSeq
    split
    · rfl
    · split <;> rfl
  have hhist : (p.makeReliable ch cmdType flags nowMs body).1.history = p.history ++ [_] :=
    congrArg (· ++ [_]) htake
  exact .nothing hhist rfl
    ((PeerEntry.makeReliable_numbered ch cmdType flags nowMs body).get (·.toUser))

theorem numberFragments_handed (p : PeerEntry) (pkt : Packet) (fp : Nat) (nowMs : U32) :
    p.Handed (p.numberFragments pkt fp nowMs).1 [] := by
  have hnext : ∀ q : PeerEntry, q.Handed (q.nextReliableSeq pkt.channel).1 [] := by
    intro q
    unfold PeerEntry.nextReliableSeq
    split <;> exact .same rfl rfl
  have htrack : ∀ (q : PeerEntry) seq cmd,
      q.Handed (q.track pkt.channel seq cmdSendFragment cmd nowMs) [] :=
    fun q seq cmd => .nothing rfl rfl rfl
  have hloop := PeerEntry.fragmentLoop_rel (R := fun p q => p.Handed q []) (fun _ => .same rfl rfl)
    .none_trans hnext htrack (p.nextReliableSeq pkt.channel).2 fp pkt.data (fragCount fp pkt.data) 0
    (p.nextReliableSeq pkt.channel).1
  exact (hnext p).none_trans (hloop.none_trans (log_handed rfl))

/-- **What an operation hands over.** -/
theorem apply_hands (nowMs : U32) (p : PeerEntry) (o : PeerOp) :
    ∃ pkts : List Packet, (∀ pkt ∈ pkts, o.Hands pkt)
      ∧ (o.apply nowMs p).delivered = p.delivered ++ pkts
      ∧ (¬ o.TouchesQueue →
        (o.apply nowMs p).toUser = pkts.foldl (fun tx pkt => tx.trySend (.ok pkt)) p.toUser) := by
  have hof : ∀ {q : PeerEntry} {pkts : List Packet}, p.Handed q pkts → (∀ pkt ∈ pkts, o.Hands pkt) →
      o.apply nowMs p = q → ∃ pkts : List Packet, (∀ pkt ∈ pkts, o.Hands pkt)
        ∧ (o.apply nowMs p).delivered = p.delivered ++ pkts ∧ (¬ o.TouchesQueue →
          (o.apply nowMs p).toUser = pkts.foldl (fun tx pkt => tx.trySend (.ok pkt)) p.toUser) := by
    intro q pkts hand hall heq
    rw [heq]
    exact ⟨pkts, hall, hand.delivered, fun _ => hand.toUser⟩
  have hnone : p.Handed (o.apply nowMs p) [] → ∃ pkts : List Packet, (∀ pkt ∈ pkts, o.Hands pkt)
        ∧ (o.apply nowMs p).delivered = p.delivered ++ pkts ∧ (¬ o.TouchesQueue →
          (o.apply nowMs p).toUser = pkts.foldl (fun tx pkt => tx.trySend (.ok pkt)) p.toUser) :=
    fun hand => hof hand (by simp) rfl
  cases o with
  | recvReliable ch seq data =>
      obtain ⟨ready, hand, -⟩ := p.onSendReliable_handed ch seq data nowMs
      exact hof hand (by simp [Hands]) rfl
  | recvUnreliable ch rseq useq data =>
      obtain ⟨ready, hand⟩ := p.onSendUnreliable_handed ch rseq useq data nowMs
      exact hof hand (by simp [Hands]) rfl
  | recvFragment ch sf reliable =>
      obtain ⟨ready, hand, -⟩ := p.onFragment_handed ch sf reliable nowMs
      exact hof hand (by cases reliable <;> simp [Hands]) rfl
  | recvUnsequenced group data =>
      refine hof (p.onSendUnsequenced_handed group data nowMs) (fun pkt hpkt => ?_) rfl
      split at hpkt
      · exact List.mem_singleton.mp hpkt
      · cases hpkt
  | notify | appRecv | appDrop =>
      refine ⟨[], by simp, ?_, fun hno => absurd trivial hno⟩
      exact (List.append_nil _).symm
  | ack ch a =>
      refine hnone (.nothing (PeerEntry.applyAck_eq p ch a nowMs).2 rfl ?_)
      exact (PeerEntry.applyAck_acked ch a nowMs).get (·.toUser)
  | connectionCmd cmdType body => exact hnone (makeReliable_handed p _ _ _ _ _)
  | numberWhole pkt =>
      exact hnone ((makeReliable_handed p _ _ _ _ _).none_trans
        (log_handed rfl))
  | numberFragments pkt fp => exact hnone (numberFragments_handed p pkt fp nowMs)
  | submit pkt => exact hnone (log_handed rfl)
  | take ch seq => exact hnone (log_handed rfl)
  | queue pkt =>
      refine hnone ?_
      simp only [apply, PeerEntry.queuePending]
      split <;> exact .same rfl rfl
  | recvBandwidthLimit bl =>
      refine hnone ?_
      simp only [apply, PeerEntry.onBandwidthLimit]
      split <;> exact .same rfl rfl
  | _ => exact hnone (.same rfl rfl)

end PeerOp

/-! ## §4. Unsequenced packets. -/

/-- The unsequenced packets handed to the application, in order. -/
def PeerEntry.unsequenced (p : PeerEntry) : List Packet :=
  p.delivered.filter (·.mode = .unsequenced)

namespace PeerOp

theorem apply_unsequencedWindow (nowMs : U32) (p : PeerEntry) {o : PeerOp}
    (ho : ∀ group data, o ≠ .recvUnsequenced group data) :
    (o.apply nowMs p).unsequencedWindow = p.unsequencedWindow := by
  refine (o.get_apply (·.unsequencedWindow) nowMs p).trans ?_
  cases o with
  | recvUnsequenced group data => exact absurd rfl (ho group data)
  | _ => rfl

/-- An operation other than the arrival of an unsequenced packet hands none over. -/
theorem apply_unsequenced (nowMs : U32) (p : PeerEntry) {o : PeerOp}
    (ho : ∀ group data, o ≠ .recvUnsequenced group data) :
    (o.apply nowMs p).unsequenced = p.unsequenced := by
  obtain ⟨pkts, hall, hdel, -⟩ := apply_hands nowMs p o
  have hnone : pkts.filter (·.mode = .unsequenced) = [] := by
    refine List.filter_eq_nil_iff.mpr fun pkt hpkt hmode => ?_
    have hand := hall pkt hpkt
    have hmode : pkt.mode = .unsequenced := of_decide_eq_true hmode
    cases o with
    | recvUnsequenced group data => exact ho group data rfl
    | recvReliable ch seq data => cases hmode.symm.trans hand.1
    | recvUnreliable ch rseq useq data => cases hmode.symm.trans hand.1
    | recvFragment ch sf reliable => cases reliable <;> cases hmode.symm.trans hand.1
    | _ => exact hand.elim
  rw [PeerEntry.unsequenced, hdel, List.filter_append, hnone, List.append_nil]
  rfl

end PeerOp

end EnetRs
