/-
  EnetRs.Host.Frames — which fields of an entry an operation leaves alone.

  Three frames cover the operations that compute: what arrives changes only
  the receiving side, numbering changes only the sending side, an ACK changes
  only the estimates and the outstanding commands.  A frame is an equation
  `q = { p with … }`, so each untouched field follows by `congrArg`.

  Main results:
    * `PeerOp.apply_frame` — the frame of every operation.
-/
import EnetRs.Host.Label

namespace EnetRs

open MachineInt

namespace PeerEntry

variable {p q r : PeerEntry}

/-! ## §1. The receiving side. -/

/-- `p` with the receiving side of `q`. -/
def withReceived (p q : PeerEntry) : PeerEntry :=
  { p with
    lastReceiveTime := q.lastReceiveTime
    channels := q.channels
    unsequencedWindow := q.unsequencedWindow
    fragmentBytesInFlight := q.fragmentBytesInFlight
    toUser := q.toUser
    history := q.history }

/-- `q` is `p` after something arrived. -/
def Received (p q : PeerEntry) : Prop := q = p.withReceived q

theorem Received.get {α : Type} (hf : Received p q) (f : PeerEntry → α) :
    f q = f (p.withReceived q) := congrArg f hf

theorem Received.trans (h₁ : Received p q) (h₂ : Received q r) : Received p r := by
  unfold Received at *
  rw [h₂, h₁]
  rfl

/-- Delivering a batch fills the queue to the application and the log, nothing else. -/
theorem deliverAll_eq (p : PeerEntry) (ch : U8) (mode : SendMode) (ready : List Bytes) :
    p.deliverAll ch mode ready =
      { p with
        toUser := ready.foldl (fun tx data => tx.trySend (.ok ⟨data, ch, mode⟩)) p.toUser
        history := p.history ++ ready.map fun data => .deliver ⟨data, ch, mode⟩ } := by
  unfold deliverAll
  induction ready generalizing p with
  | nil => simp
  | cons d ready ih =>
      rw [List.foldl_cons, ih]
      simp [deliver]

theorem foldl_trySend_id (ch : U8) (mode : SendMode) (ready : List Bytes) (tx : Mpsc PeerMsg) :
    (ready.foldl (fun tx data => tx.trySend (.ok ⟨data, ch, mode⟩)) tx).id = tx.id := by
  induction ready generalizing tx with
  | nil => rfl
  | cons d ready ih =>
      rw [List.foldl_cons, ih]
      exact Mpsc.trySend_id _ _

theorem deliverAll_received (ch : U8) (mode : SendMode) (ready : List Bytes) :
    Received p (p.deliverAll ch mode ready) := by
  rw [deliverAll_eq]
  rfl

@[simp] theorem deliverAll_conn (ch : U8) (mode : SendMode) (ready : List Bytes) :
    (p.deliverAll ch mode ready).conn = p.conn := by
  rw [deliverAll_eq]
  exact foldl_trySend_id ch mode ready p.toUser

theorem onSendReliable_received (ch : U8) (seq : U16) (data : Bytes) (nowMs : U32) :
    Received p (p.onSendReliable ch seq data nowMs)
      ∧ (p.onSendReliable ch seq data nowMs).conn = p.conn := by
  unfold onSendReliable
  simp only
  split
  · exact ⟨rfl, rfl⟩
  · refine ⟨Received.trans ?_ (deliverAll_received _ _ _), deliverAll_conn _ _ _⟩
    rfl

theorem onSendUnreliable_received (ch : U8) (rseq useq : U16) (data : Bytes) (nowMs : U32) :
    Received p (p.onSendUnreliable ch rseq useq data nowMs)
      ∧ (p.onSendUnreliable ch rseq useq data nowMs).conn = p.conn := by
  unfold onSendUnreliable
  simp only
  split
  · exact ⟨rfl, rfl⟩
  · split
    · exact ⟨rfl, rfl⟩
    · refine ⟨Received.trans ?_ (deliverAll_received _ _ _), deliverAll_conn _ _ _⟩
      rfl

theorem onSendUnsequenced_received (group : U16) (data : Bytes) (nowMs : U32) :
    Received p (p.onSendUnsequenced group data nowMs)
      ∧ (p.onSendUnsequenced group data nowMs).conn = p.conn := by
  unfold onSendUnsequenced
  simp only
  split
  · exact ⟨rfl, Mpsc.trySend_id _ _⟩
  · exact ⟨rfl, rfl⟩

/-- The fields `storeFragment` changes. -/
theorem storeFragment_eq (p : PeerEntry) (ch : U8) (c : Channel) (sf : SendFragmentCmd)
    (reliable : Bool) :
    (p.storeFragment ch c sf reliable).1 =
      { p with
        fragmentBytesInFlight := (p.storeFragment ch c sf reliable).1.fragmentBytesInFlight
        channels := (p.storeFragment ch c sf reliable).1.channels } := by
  unfold storeFragment
  split
  · rfl
  · simp only
    split <;> rfl

theorem onFragment_received (ch : U8) (sf : SendFragmentCmd) (reliable : Bool) (nowMs : U32) :
    Received p (p.onFragment ch sf reliable nowMs)
      ∧ (p.onFragment ch sf reliable nowMs).conn = p.conn := by
  unfold onFragment
  split
  · exact ⟨rfl, rfl⟩
  · simp only
    split
    · exact ⟨rfl, rfl⟩
    · next c hc =>
      have hstore := storeFragment_eq { p with lastReceiveTime := nowMs } ch c sf reliable
      refine ⟨Received.trans (q := { p with lastReceiveTime := nowMs }) rfl
        (Received.trans ?_ (deliverAll_received _ _ _)), ?_⟩
      · unfold Received
        rw [hstore]
        rfl
      · rw [deliverAll_conn]
        rw [hstore]
        rfl

/-! ## §2. The sending side. -/

/-- `p` with the numbering state of `q`. -/
def withNumbered (p q : PeerEntry) : PeerEntry :=
  { p with
    channels := q.channels
    outgoingReliable := q.outgoingReliable
    outgoingReliableSeq := q.outgoingReliableSeq
    history := q.history }

/-- `q` is `p` after reliable commands were created. -/
def Numbered (p q : PeerEntry) : Prop := q = p.withNumbered q

theorem Numbered.get {α : Type} (hf : Numbered p q) (f : PeerEntry → α) :
    f q = f (p.withNumbered q) := congrArg f hf

theorem Numbered.trans (h₁ : Numbered p q) (h₂ : Numbered q r) : Numbered p r := by
  unfold Numbered at *
  rw [h₂, h₁]
  rfl

theorem nextReliableSeq_numbered (ch : U8) : Numbered p (p.nextReliableSeq ch).1 := by
  unfold nextReliableSeq
  split <;> rfl

theorem takeSeq_numbered (ch : U8) : Numbered p (p.takeSeq ch).1 := by
  unfold takeSeq
  split
  · rfl
  · exact nextReliableSeq_numbered ch

theorem track_numbered (ch : U8) (seq : U16) (cmdType : U8) (cmd : Bytes) (nowMs : U32) :
    Numbered p (p.track ch seq cmdType cmd nowMs) := rfl

theorem makeReliable_numbered (ch cmdType flags : U8) (nowMs : U32) (body : Bytes) :
    Numbered p (p.makeReliable ch cmdType flags nowMs body).1 :=
  (takeSeq_numbered ch).trans (track_numbered _ _ _ _ _)

/-- **Induction over the fragmentation loop**: a relation that taking a number
and storing a fragment establish holds across the loop. -/
theorem fragmentLoop_rel_of {R : PeerEntry → PeerEntry → Prop} {ch : U8} {nowMs : U32}
    {startSeq : U16} {fp : Nat} {data : Bytes}
    (hrefl : ∀ p, R p p) (htrans : ∀ {p q r}, R p q → R q r → R p r)
    (hnext : ∀ p, R p (p.nextReliableSeq ch).1)
    (htrack : ∀ p seq i, R p (p.track ch seq cmdSendFragment (encodeCommand cmdSendFragment
      commandFlagAcknowledge ch seq (fragmentBody (fragmentOf startSeq fp data i))) nowMs)) :
    ∀ (n i : Nat) (p : PeerEntry), R p (fragmentLoop ch startSeq fp data nowMs n i p).1 := by
  intro n
  induction n with
  | zero =>
      intro i p
      exact hrefl p
  | succ n ih =>
      intro i p
      unfold fragmentLoop
      by_cases hi : i = 0
      · simp only [hi, if_true]
        exact htrans (htrack _ _ _) (ih _ _)
      · simp only [hi, if_false]
        exact htrans (hnext p) (htrans (htrack _ _ _) (ih _ _))

/-- The same for a relation that storing any command establishes. -/
theorem fragmentLoop_rel {R : PeerEntry → PeerEntry → Prop} {ch : U8} {nowMs : U32}
    (hrefl : ∀ p, R p p) (htrans : ∀ {p q r}, R p q → R q r → R p r)
    (hnext : ∀ p, R p (p.nextReliableSeq ch).1)
    (htrack : ∀ p seq cmd, R p (p.track ch seq cmdSendFragment cmd nowMs)) (startSeq : U16)
    (fp : Nat) (data : Bytes) (n i : Nat) (p : PeerEntry) :
    R p (fragmentLoop ch startSeq fp data nowMs n i p).1 :=
  fragmentLoop_rel_of hrefl htrans hnext (fun p seq _ => htrack p seq _) n i p

theorem fragmentLoop_numbered (ch : U8) (startSeq : U16) (fp : Nat) (data : Bytes) (nowMs : U32)
    (n i : Nat) (p : PeerEntry) : Numbered p (fragmentLoop ch startSeq fp data nowMs n i p).1 :=
  fragmentLoop_rel (R := Numbered) (fun _ => rfl) Numbered.trans (fun _ => nextReliableSeq_numbered ch)
    (fun _ _ _ => track_numbered _ _ _ _ _) _ _ _ _ _ _

theorem numberWhole_numbered (pkt : Packet) (nowMs : U32) :
    Numbered p (p.numberWhole pkt nowMs).1 :=
  (makeReliable_numbered _ _ _ _ _).trans rfl

theorem numberFragments_numbered (pkt : Packet) (fp : Nat) (nowMs : U32) :
    Numbered p (p.numberFragments pkt fp nowMs).1 :=
  (nextReliableSeq_numbered _).trans ((fragmentLoop_numbered _ _ _ _ _ _ _ _).trans rfl)

/-! ## §3. ACK. -/

/-- `p` with the estimates and outstanding commands of `q`. -/
def withAcked (p q : PeerEntry) : PeerEntry :=
  { p with
    lastReceiveTime := q.lastReceiveTime
    rtt := q.rtt
    rttVar := q.rttVar
    rttInitialized := q.rttInitialized
    packetThrottle := q.packetThrottle
    packetThrottleEpoch := q.packetThrottleEpoch
    rttAtThrottleEpoch := q.rttAtThrottleEpoch
    outgoingReliable := q.outgoingReliable
    history := q.history }

/-- `q` is `p` after an ACK was processed. -/
def Acked (p q : PeerEntry) : Prop := q = p.withAcked q

theorem Acked.get {α : Type} (hf : Acked p q) (f : PeerEntry → α) :
    f q = f (p.withAcked q) := congrArg f hf

theorem Acked.trans (h₁ : Acked p q) (h₂ : Acked q r) : Acked p r := by
  unfold Acked at *
  rw [h₂, h₁]
  rfl

theorem sampleRtt_acked (t : U16) (nowMs : U32) : Acked p (p.sampleRtt t nowMs) := by
  unfold sampleRtt updateRtt
  simp only
  repeat' split
  all_goals rfl

theorem adjustThrottle_acked (nowMs : U32) : Acked p (p.adjustThrottle nowMs) := by
  unfold adjustThrottle
  simp only
  repeat' split
  all_goals rfl

theorem sampleRtt_keeps (t : U16) (nowMs : U32) :
    (p.sampleRtt t nowMs).outgoingReliable = p.outgoingReliable
      ∧ (p.sampleRtt t nowMs).history = p.history := by
  unfold sampleRtt updateRtt
  simp only
  repeat' split
  all_goals exact ⟨rfl, rfl⟩

theorem adjustThrottle_keeps (nowMs : U32) :
    (p.adjustThrottle nowMs).outgoingReliable = p.outgoingReliable
      ∧ (p.adjustThrottle nowMs).history = p.history := by
  unfold adjustThrottle
  simp only
  repeat' split
  all_goals exact ⟨rfl, rfl⟩

/-- What an ACK removes, and the record of it. -/
theorem applyAck_eq (p : PeerEntry) (ch : U8) (a : AcknowledgeCmd) (nowMs : U32) :
    (p.applyAck ch a nowMs).outgoingReliable
        = p.outgoingReliable.erase (ch, a.receivedReliableSeq)
      ∧ (p.applyAck ch a nowMs).history = p.history ++ [.ack ch a.receivedReliableSeq] := by
  have h₁ := sampleRtt_keeps (p := { p with lastReceiveTime := nowMs }) a.receivedSentTime nowMs
  have h₂ := adjustThrottle_keeps
    (p := ({ p with lastReceiveTime := nowMs } : PeerEntry).sampleRtt a.receivedSentTime nowMs) nowMs
  simp only [applyAck]
  rw [h₂.1, h₁.1, h₂.2, h₁.2]
  exact ⟨rfl, rfl⟩

theorem applyAck_acked (ch : U8) (a : AcknowledgeCmd) (nowMs : U32) :
    Acked p (p.applyAck ch a nowMs) :=
  Acked.trans (q := { p with lastReceiveTime := nowMs }) rfl
    ((sampleRtt_acked _ nowMs).trans ((adjustThrottle_acked nowMs).trans rfl))

end PeerEntry

/-! ## §4. Any operation. -/

namespace PeerOp

/-- `p` with the fields of `q` that the operation may change. -/
def withChanged (p q : PeerEntry) : PeerOp → PeerEntry
  | recvReliable _ _ _ | recvUnreliable _ _ _ _ =>
      p.withReceived { q with
        unsequencedWindow := p.unsequencedWindow
        fragmentBytesInFlight := p.fragmentBytesInFlight }
  | recvFragment _ _ _ => p.withReceived { q with unsequencedWindow := p.unsequencedWindow }
  | recvUnsequenced _ _ =>
      p.withReceived { q with
        channels := p.channels
        fragmentBytesInFlight := p.fragmentBytesInFlight }
  | connectionCmd _ _ | numberWhole _ | numberFragments _ _ => p.withNumbered q
  | ack _ _ => p.withAcked q
  | recvBandwidthLimit _ => { p with windowSize := q.windowSize }
  | queue _ => { p with pendingSend := q.pendingSend }
  | _ => q

/-- **No operation changes more.**  The operations left out in `withChanged` are
record updates, whose untouched fields can be read off. -/
theorem apply_frame (nowMs : U32) (p : PeerEntry) (o : PeerOp) :
    o.apply nowMs p = o.withChanged p (o.apply nowMs p) := by
  cases o with
  | recvReliable ch seq data =>
      simp only [apply, PeerEntry.onSendReliable]
      split
      · rfl
      · rw [PeerEntry.deliverAll_eq]
        rfl
  | recvUnreliable ch rseq useq data =>
      simp only [apply, PeerEntry.onSendUnreliable]
      split
      · rfl
      · split
        · rfl
        · rw [PeerEntry.deliverAll_eq]
          rfl
  | recvFragment ch sf reliable =>
      simp only [apply, PeerEntry.onFragment]
      split
      · rfl
      · split
        · rfl
        · rw [PeerEntry.deliverAll_eq, PeerEntry.storeFragment_eq]
          rfl
  | recvUnsequenced group data =>
      simp only [apply, PeerEntry.onSendUnsequenced]
      split <;> rfl
  | connectionCmd cmdType body => exact PeerEntry.makeReliable_numbered _ _ _ _ _
  | numberWhole pkt => exact PeerEntry.numberWhole_numbered pkt nowMs
  | numberFragments pkt fp => exact PeerEntry.numberFragments_numbered pkt fp nowMs
  | ack ch a => exact PeerEntry.applyAck_acked ch a nowMs
  | recvBandwidthLimit bl =>
      simp only [apply, PeerEntry.onBandwidthLimit]
      split <;> rfl
  | queue pkt =>
      simp only [apply, PeerEntry.queuePending]
      split <;> rfl
  | _ => rfl

/-- A field after the operation, as the frame has it. -/
theorem get_apply {α : Type} (f : PeerEntry → α) (nowMs : U32) (p : PeerEntry) (o : PeerOp) :
    f (o.apply nowMs p) = f (o.withChanged p (o.apply nowMs p)) :=
  congrArg f (o.apply_frame nowMs p)

end PeerOp

end EnetRs
