/-
  EnetRs.Host.Label — what the task can do, one change at a time.

  Every function of the task is a sequence of small changes: an operation on
  one entry (with what it sends to the outside), an entry removed, an entry
  installed.  `PeerOp` and `Label` list them, `Guard` says in which
  circumstances the code makes each, and `Exec nowMs C h h'` says that `h'`
  comes from `h` by such changes, each of them enabled and each of them
  meeting the condition `C`.

  Main results:
    * `Label.peer_apply_op`, `peer_apply_remove`, `peer_apply_install` — what
      a change does to the slots.
    * `Exec.invariant` — an invariant is proved once per label.
    * `Exec.entries` — an invariant of single entries, once per operation.
-/
import EnetRs.Host.Run
import EnetRs.Host.Slots

namespace EnetRs

open MachineInt

/-! ## §1. Operations on one entry. -/

inductive PeerOp where
  /-- `emit_by_key` with a non-empty batch. -/
  | emit (cmds : List Bytes)
  /-- `to_user.try_send(Err(data))`. -/
  | notify (data : Option U32)
  /-- The handshake ACK arrived and the accept queue took the connection. -/
  | accept (rx : Receiver)
  /-- The handshake ACK arrived for an entry whose receiver is gone. -/
  | establish
  | verify (hostMtu : U32) (vc : VerifyConnectCmd) (hdr : CommandHeader)
  | recvPing
  | recvReliable (ch : U8) (seq : U16) (data : Bytes)
  | recvUnreliable (ch : U8) (reliableSeq unreliableSeq : U16) (data : Bytes)
  | recvFragment (ch : U8) (sf : SendFragmentCmd) (reliable : Bool)
  | recvUnsequenced (group : U16) (data : Bytes)
  | recvBandwidthLimit (bl : BandwidthLimitCmd)
  | recvThrottleConfigure (tc : ThrottleConfigureCmd)
  | ack (ch : U8) (a : AcknowledgeCmd)
  | deferDisconnect (data : U32)
  /-- The state turns to Disconnecting, at the user's request or, `deferred`,
  once nothing is outstanding any more. -/
  | beginDisconnect (deferred : Bool)
  /-- `make_reliable` on channel 0xFF. -/
  | connectionCmd (cmdType : U8) (body : Bytes)
  | submit (pkt : Packet)
  | take (ch : U8) (seq : U16)
  | queue (pkt : Packet)
  | numberWhole (pkt : Packet)
  | numberFragments (pkt : Packet) (fp : Nat)
  | nextUnreliable (ch : U8) (c : Channel)
  | nextUnsequenced (ch : U8) (c : Channel)
  /-- The retransmission loop of `service_one` over the outstanding commands. -/
  | retransmit
  /-- `pending_send.drain(..)`. -/
  | clearPending
  | setWindow (w : U32)
  | appRecv
  | appDrop

namespace PeerOp

/-- The entry after the operation. -/
def apply (nowMs : U32) (p : PeerEntry) : PeerOp → PeerEntry
  | emit _ => { p with lastSendTime := nowMs }
  | notify data => { p with toUser := p.toUser.trySend (.error data) }
  | accept _ | establish => { p with state := .connected, toUserRx := none }
  | verify hostMtu vc hdr => HostTask.verifiedEntry hostMtu p vc hdr nowMs
  | recvPing => p.onPing nowMs
  | recvReliable ch seq data => p.onSendReliable ch seq data nowMs
  | recvUnreliable ch rseq useq data => p.onSendUnreliable ch rseq useq data nowMs
  | recvFragment ch sf reliable => p.onFragment ch sf reliable nowMs
  | recvUnsequenced group data => p.onSendUnsequenced group data nowMs
  | recvBandwidthLimit bl => p.onBandwidthLimit bl
  | recvThrottleConfigure tc => p.onThrottleConfigure tc
  | ack ch a => p.applyAck ch a nowMs
  | deferDisconnect data => { p with state := .disconnectLater data }
  | beginDisconnect _ => { p with state := .disconnecting }
  | connectionCmd cmdType body => (p.makeReliable channelIdConnection cmdType 0 nowMs body).1
  | submit pkt => p.log (.submit pkt)
  | take ch seq => p.log (.take ch seq)
  | queue pkt => p.queuePending pkt
  | numberWhole pkt => (p.numberWhole pkt nowMs).1
  | numberFragments pkt fp => (p.numberFragments pkt fp nowMs).1
  | nextUnreliable ch c => { p with channels := p.channels.set ch.toNat c.nextUnreliableSeq }
  | nextUnsequenced ch c => { p with channels := p.channels.set ch.toNat c.nextUnsequencedGroup }
  | retransmit =>
      { p with
        outgoingReliable :=
          (retransmitLoop nowMs p.outgoingReliable.toList p.outgoingReliable).2.1 }
  | clearPending => { p with pendingSend := [] }
  | setWindow w => { p with windowSize := w }
  | appRecv => { p with toUser := p.toUser.recv }
  | appDrop => { p with toUser := p.toUser.close }

/-- What the operation on the entry `p` of slot `k` lets out of the task. -/
def events (useChecksum : Bool) (k : PeerKey) (p : PeerEntry) (nowMs : U32) : PeerOp → List Event
  | emit cmds => [.sent p.addr cmds (HostTask.makeDatagram useChecksum p cmds nowMs)]
  | notify data => [.disconnected p.conn data p.toUser.hasRoom]
  | accept rx => [.accepted k rx p.addr p.connectId]
  | verify _ _ _ =>
      match p.toUserRx, p.connectReply with
      | some rx, some reply => [.connected reply k rx]
      | _, _ => []
  | _ => []

/-- The accept queue after the operation. -/
def acceptTx (k : PeerKey) (tx : Mpsc (PeerKey × Receiver)) : PeerOp → Mpsc (PeerKey × Receiver)
  | accept rx => tx.trySend (k, rx)
  | _ => tx

/-- A reliable packet past the first two checks of `send_packet`: the peer is
Connected and has the packet's channel, `c`. -/
def Sendable (p : PeerEntry) (pkt : Packet) (c : Channel) : Prop :=
  p.state = .connected ∧ pkt.mode = .reliable ∧ p.channels[pkt.channel.toNat]? = some c

/-- When the code performs the operation on an entry `p`. -/
def Guard (h : HostTask) (p : PeerEntry) : PeerOp → Prop
  | emit cmds => cmds ≠ []
  | accept rx => h.acceptTx.hasRoom = true ∧ p.state = .acknowledgingConnect ∧ p.toUserRx = some rx
  | establish => p.state = .acknowledgingConnect ∧ p.toUserRx = none
  | verify hostMtu vc _ =>
      hostMtu = h.hostMtu ∧ p.state = .connecting ∧ vc.connectId = p.connectId
  | deferDisconnect _ =>
      (p.state = .connecting ∨ p.state = .connected) ∧ p.outgoingReliable.isEmpty = false
  | beginDisconnect false =>
      (p.state = .connecting ∨ p.state = .connected) ∧ p.outgoingReliable.isEmpty = true
  | beginDisconnect true =>
      (∃ data, p.state = .disconnectLater data) ∧ p.outgoingReliable.isEmpty = true
  | connectionCmd cmdType body =>
      body.length ≤ 8
        ∧ ((cmdType = cmdPing ∧ p.state = .connected ∧ p.outgoingReliable.isEmpty = true)
          ∨ (cmdType = cmdDisconnect ∧ p.state = .disconnecting ∧ p.outgoingReliable.isEmpty = true)
          ∨ (cmdType = cmdBandwidthLimit ∧ p.state = .connected))
  | submit pkt => p.acceptsReliable pkt = true
  | queue pkt => ∃ c, Sendable p pkt c ∧ p.windowOpen pkt.channel c = false
  | numberWhole pkt =>
      ∃ c, Sendable p pkt c ∧ p.windowOpen pkt.channel c = true
        ∧ pkt.data.length ≤ maxReliablePayload p.mtu.toNat h.useChecksum
  | numberFragments pkt fp =>
      ∃ c, Sendable p pkt c ∧ p.windowOpen pkt.channel c = true
        ∧ maxReliablePayload p.mtu.toNat h.useChecksum < pkt.data.length
        ∧ fp = fragPayload p.mtu.toNat h.useChecksum
  | nextUnreliable ch c | nextUnsequenced ch c =>
      p.state = .connected ∧ p.channels[ch.toNat]? = some c
  | setWindow w => p.state = .connected ∧ windowSizeMin ≤ w ∧ w ≤ windowSizeMax
  | _ => True

end PeerOp

/-! ## §2. Changes of the whole task. -/

inductive Label where
  | op (k : PeerKey) (o : PeerOp)
  | remove (k : PeerKey)
  | install (slot : PeerKey) (entry : PeerEntry)
  /-- `send_raw_disconnect`. -/
  | raw (connect : ConnectCmd) (addr : SocketAddr)
  /-- `bandwidth_throttle` starts a new interval. -/
  | epoch
  | appAccept
  | appClose

/-- A new entry: built by `begin_connect` for some user request, or by
`on_connect` after the source address was evicted. -/
def IsNewEntry (h : HostTask) (slot : PeerKey) (nowMs : U32) (entry : PeerEntry) : Prop :=
  (∃ addr channelCount userData reply connectId,
      entry = (h.clientHandshake slot addr channelCount userData nowMs reply connectId).1)
    ∨ ∃ connect hdr src, entry = (h.serverHandshake slot connect hdr src nowMs).1

theorem HostTask.peer_install {h : HostTask} {k : PeerKey} (hs : h.allocSlot = some k)
    (entry : PeerEntry) (j : PeerKey) :
    (h.install k entry).peer j = if j = k then some entry else h.peer j := by
  have hlt := HostTask.allocSlot_lt hs
  by_cases hjk : j = k
  · subst hjk
    rw [if_pos rfl]
    simp [HostTask.install, HostTask.peer, hlt]
  · rw [if_neg hjk]
    simp [HostTask.install, HostTask.peer, List.getElem?_set_ne (Ne.symm hjk)]

namespace Label

/-- The task after the change. -/
def apply (nowMs : U32) (h : HostTask) : Label → HostTask
  | op k o =>
      match h.peer k with
      | some p =>
          { h.setPeer k (o.apply nowMs p) with
            trace := h.trace ++ o.events h.useChecksum k p nowMs
            acceptTx := o.acceptTx k h.acceptTx }
      | none => h
  | remove k => h.removePeer k
  | install slot entry => h.install slot entry
  | raw connect addr => h.sendRawDisconnect connect addr nowMs
  | epoch => { h with bandwidthThrottleEpoch := nowMs }
  | appAccept => { h with acceptTx := h.acceptTx.recv }
  | appClose => { h with acceptTx := h.acceptTx.close }

/-- When the code makes the change in state `h`. -/
def Guard (nowMs : U32) (h : HostTask) : Label → Prop
  | op k o => ∃ p, h.peer k = some p ∧ o.Guard h p
  | remove k => ∃ p, h.peer k = some p
  | install slot entry => h.allocSlot = some slot ∧ IsNewEntry h slot nowMs entry
  | raw _ _ => h.allocSlot = none
  | epoch => bandwidthThrottleIntervalMs ≤ nowMs - h.bandwidthThrottleEpoch
  | appAccept | appClose => True

/-! How a change reads back. -/

section ReadBack

variable {nowMs : U32} {h : HostTask} {k : PeerKey} {p : PeerEntry}

theorem apply_op (hp : h.peer k = some p) (o : PeerOp) :
    (op k o).apply nowMs h =
      { h.setPeer k (o.apply nowMs p) with
        trace := h.trace ++ o.events h.useChecksum k p nowMs
        acceptTx := o.acceptTx k h.acceptTx } := by
  simp only [apply, hp]

theorem peer_apply_op (hp : h.peer k = some p) (o : PeerOp) (j : PeerKey) :
    ((op k o).apply nowMs h).peer j = if j = k then some (o.apply nowMs p) else h.peer j := by
  rw [apply_op hp]
  exact HostTask.peer_setPeer hp j

theorem peer_apply_remove (j : PeerKey) :
    ((remove k).apply nowMs h).peer j = if j = k then none else h.peer j :=
  HostTask.peer_removePeer h k j

theorem peer_apply_install {entry : PeerEntry} (hs : h.allocSlot = some k) (j : PeerKey) :
    ((install k entry).apply nowMs h).peer j = if j = k then some entry else h.peer j :=
  HostTask.peer_install hs entry j

theorem addrMap_apply_op (k : PeerKey) (o : PeerOp) :
    ((op k o).apply nowMs h).addrMap = h.addrMap := by
  simp only [apply]; split <;> rfl

theorem trace_apply_op (hp : h.peer k = some p) (o : PeerOp) :
    ((op k o).apply nowMs h).trace = h.trace ++ o.events h.useChecksum k p nowMs := by
  rw [apply_op hp]

theorem nextConn_apply_op (k : PeerKey) (o : PeerOp) :
    ((op k o).apply nowMs h).nextConn = h.nextConn := by
  simp only [apply]; split <;> rfl

/-- No change adds or drops a slot. -/
theorem length_apply (l : Label) : (l.apply nowMs h).peers.length = h.peers.length := by
  cases l with
  | op k o =>
      simp only [apply]
      split
      · exact HostTask.setPeer_length
      · rfl
  | remove k => exact HostTask.removePeer_length
  | install slot entry => exact List.length_set
  | _ => rfl

/-- No change turns checksums on or off. -/
theorem useChecksum_apply (l : Label) : (l.apply nowMs h).useChecksum = h.useChecksum := by
  cases l with
  | op k o =>
      simp only [apply]
      split <;> rfl
  | _ => rfl

end ReadBack

/-- What one change does to a property that all entries have in their slots. -/
theorem entries_at {I : PeerKey → PeerEntry → Prop} {nowMs : U32} {h : HostTask} {l : Label}
    (hg : l.Guard nowMs h)
    (hnew : ∀ slot entry, l = .install slot entry → IsNewEntry h slot nowMs entry → I slot entry)
    (hop : ∀ k p o, l = .op k o → h.peer k = some p → I k p → o.Guard h p →
      I k (o.apply nowMs p))
    (hi : ∀ k p, h.peer k = some p → I k p) : ∀ k p, (l.apply nowMs h).peer k = some p → I k p := by
  intro j q hq
  cases l with
  | op k o =>
      obtain ⟨p, hp, hg⟩ := hg
      rw [peer_apply_op hp] at hq
      split at hq
      · next hjk =>
        cases hq
        rw [hjk]
        exact hop k p o rfl hp (hi k p hp) hg
      · exact hi j q hq
  | remove k =>
      rw [peer_apply_remove] at hq
      split at hq
      · cases hq
      · exact hi j q hq
  | install slot entry =>
      rw [peer_apply_install hg.1] at hq
      split at hq
      · next hj =>
        cases hq
        rw [hj]
        exact hnew slot _ rfl hg.2
      · exact hi j q hq
  | raw connect addr => exact hi j q hq
  | epoch => exact hi j q hq
  | appAccept => exact hi j q hq
  | appClose => exact hi j q hq

/-- The same for a property of the entry alone. -/
theorem entries {I : PeerEntry → Prop} {nowMs : U32} {h : HostTask} {l : Label}
    (hg : l.Guard nowMs h)
    (hnew : ∀ slot entry, l = .install slot entry → IsNewEntry h slot nowMs entry → I entry)
    (hop : ∀ k p o, l = .op k o → h.peer k = some p → I p → o.Guard h p → I (o.apply nowMs p))
    (hi : ∀ k p, h.peer k = some p → I p) : ∀ k p, (l.apply nowMs h).peer k = some p → I p :=
  entries_at hg hnew hop hi

end Label

/-! ## §3. Sequences of changes. -/

/-- A condition on the changes made. -/
abbrev Cond := HostTask → Label → Prop

inductive Exec (nowMs : U32) (C : Cond) (h : HostTask) : HostTask → Prop where
  | refl : Exec nowMs C h h
  | step {h₁ : HostTask} (l : Label) :
      Exec nowMs C h h₁ → l.Guard nowMs h₁ → C h₁ l → Exec nowMs C h (l.apply nowMs h₁)

namespace Exec

variable {nowMs : U32} {C : Cond} {h h₁ h₂ : HostTask}

theorem single (l : Label) (hg : l.Guard nowMs h) (hc : C h l) : Exec nowMs C h (l.apply nowMs h) :=
  .step l .refl hg hc

theorem trans (e₁ : Exec nowMs C h h₁) (e₂ : Exec nowMs C h₁ h₂) : Exec nowMs C h h₂ := by
  induction e₂ with
  | refl => exact e₁
  | step l _ hg hc ih => exact .step l ih hg hc

theorem mono {D : Cond} (hCD : ∀ h l, C h l → D h l) (e : Exec nowMs C h h₁) :
    Exec nowMs D h h₁ := by
  induction e with
  | refl => exact .refl
  | step l _ hg hc ih => exact .step l ih hg (hCD _ l hc)

/-- **The invariant rule for changes.** -/
theorem invariant (Inv : HostTask → Prop)
    (hstep : ∀ h l, Inv h → l.Guard nowMs h → C h l → Inv (l.apply nowMs h))
    (e : Exec nowMs C h h₁) (hi : Inv h) : Inv h₁ := by
  induction e with
  | refl => exact hi
  | step l _ hg hc ih => exact hstep _ l ih hg hc

/-- **The invariant rule for entries.**  A property of single entries that new
entries have and every operation keeps. -/
theorem entries {I : PeerEntry → Prop}
    (hnew : ∀ h slot entry, IsNewEntry h slot nowMs entry → I entry)
    (hop : ∀ h k p o, h.peer k = some p → I p → o.Guard h p → C h (.op k o) →
      I (o.apply nowMs p))
    (e : Exec nowMs C h h₁) (hi : ∀ k p, h.peer k = some p → I p) :
    ∀ k p, h₁.peer k = some p → I p := by
  refine invariant (fun h => ∀ k p, h.peer k = some p → I p) (fun h l hi hg hc => ?_) e hi
  refine Label.entries hg (fun slot entry _ => hnew h slot entry) ?_ hi
  rintro k p o rfl hp hI hgo
  exact hop h k p o hp hI hgo hc

/-- An operation that lets nothing out of the task. -/
theorem op {k : PeerKey} {p : PeerEntry} (o : PeerOp) (hp : h.peer k = some p) (hg : o.Guard h p)
    (hc : C h (.op k o)) (hev : o.events h.useChecksum k p nowMs = [])
    (htx : o.acceptTx k h.acceptTx = h.acceptTx) :
    Exec nowMs C h (h.setPeer k (o.apply nowMs p)) := by
  have e : Exec nowMs C h _ := single (Label.op k o) ⟨p, hp, hg⟩ hc
  rw [Label.apply_op hp, hev, htx, List.append_nil] at e
  exact e

end Exec

end EnetRs
