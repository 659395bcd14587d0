/-
  EnetRs.Host.Service — the periodic tick: retransmission, timeout, ping,
  deferred disconnect, pending drain, bandwidth throttling (`src/task.rs`).
-/
import EnetRs.Host.Send

namespace EnetRs

open MachineInt

/-! ## §1. Retransmission. -/

namespace OutstandingReliable

/-- The command's current timeout has not run out yet. -/
def waiting (r : OutstandingReliable) (nowMs : U32) : Bool :=
  decide (nowMs - r.sentTime < r.rttTimeout)

/-- The hard deadlines, measured from the first transmission. -/
def expired (r : OutstandingReliable) (nowMs : U32) : Bool :=
  let elapsed := nowMs - r.originalSentTime
  let shift := umin (satSub r.sendAttempts 1) 31
  let attemptsOver := decide (timeoutLimit ≤ (1 : U32) <<< shift.toNat)
  decide (timeoutMaximumMs ≤ elapsed) || (attemptsOver && decide (timeoutMinimumMs ≤ elapsed))

/-- One more transmission. -/
def retransmit (r : OutstandingReliable) (nowMs : U32) : OutstandingReliable :=
  { r with
    sendAttempts := r.sendAttempts + 1
    rttTimeout := satMul r.rttTimeout 2
    sentTime := nowMs
    transmissions := r.transmissions ++ [nowMs] }

end OutstandingReliable

/-- The loop over `outgoing_reliable.values_mut()`: whether it broke off on a
timeout, the map as it left it, and the commands to retransmit. -/
def retransmitLoop (nowMs : U32) :
    List ((U8 × U16) × OutstandingReliable) → OutgoingReliable →
      Bool × OutgoingReliable × List Bytes
  | [], m => (false, m, [])
  | (key, r) :: rest, m =>
      if r.waiting nowMs then retransmitLoop nowMs rest m
      else if r.expired nowMs then (true, m, [])
      else
        let (timedOut, m', cmds) := retransmitLoop nowMs rest (m.insert key (r.retransmit nowMs))
        (timedOut, m', r.packetBytes :: cmds)

namespace PeerEntry

/-- `ping_needed`. -/
def pingNeeded (p : PeerEntry) (nowMs : U32) : Bool :=
  decide (p.state = .connected) && p.outgoingReliable.isEmpty
    && decide (defaultPingIntervalMs ≤ nowMs - p.lastSendTime)

/-- `disconnect_later`: the deferred disconnect fires once nothing is outstanding. -/
def disconnectLaterData (p : PeerEntry) : Option U32 :=
  match p.state with
  | .disconnectLater data => if p.outgoingReliable.isEmpty then some data else none
  | _ => none

end PeerEntry

/-! ## §2. One peer. -/

namespace HostTask

/-- The deferred disconnect of `service_one`. -/
def fireDisconnect (h : HostTask) (key : PeerKey) (data : U32) (nowMs : U32) : HostTask :=
  (h.updatePeer key fun p => { p with state := .disconnecting }).sendConnectionCmd key
    cmdDisconnect (be32 data) nowMs

/-- The drain of `pending_send` at the end of `service_one`. -/
def drainPending (h : HostTask) (key : PeerKey) (nowMs : U32) : Option HostTask :=
  match h.peer key with
  | none => some h
  | some p => sendAll key nowMs (h.setPeer key { p with pendingSend := [] }) p.pendingSend

/-- What `service_one` sends before the drain, given what its first pass over
the entry decided. -/
def serviceSends (h : HostTask) (key : PeerKey) (retransmits : List Bytes) (pingNeeded : Bool)
    (disconnectLater : Option U32) (nowMs : U32) : HostTask :=
  let h := if retransmits.isEmpty then h else h.flushBatch key retransmits nowMs
  let h := if pingNeeded then h.sendConnectionCmd key cmdPing [] nowMs else h
  match disconnectLater with
  | some data => h.fireDisconnect key data nowMs
  | none => h

/-- `HostTask::service_one` up to the drain, and whether it goes on: a peer
that timed out is reported and removed instead. -/
def serviceChecks (h : HostTask) (key : PeerKey) (p : PeerEntry) (nowMs : U32) : HostTask × Bool :=
  let (timedOut, outgoing, retransmits) :=
    retransmitLoop nowMs p.outgoingReliable.toList p.outgoingReliable
  let p := { p with outgoingReliable := outgoing }
  let h := h.setPeer key p
  if timedOut then ((h.notifyDisconnect key none).removePeer key, false)
  else
    (h.serviceSends key retransmits (p.pingNeeded nowMs) p.disconnectLaterData nowMs, true)

/-- `HostTask::service_one`. -/
def serviceOne (h : HostTask) (key : PeerKey) (nowMs : U32) : Option HostTask :=
  match h.peer key with
  | none => some h
  | some p =>
      let (h', goesOn) := h.serviceChecks key p nowMs
      if goesOn then h'.drainPending key nowMs else some h'

/-! ## §3. All peers. -/

/-- The slots that hold an entry satisfying `f`. -/
def keysWhere (h : HostTask) (f : PeerEntry → Bool) : List PeerKey :=
  (List.range h.peers.length).filter fun k => (h.peer k).any f

/-- `service_one` on each key in turn. -/
def serviceEach (nowMs : U32) : HostTask → List PeerKey → Option HostTask
  | h, [] => some h
  | h, key :: keys => (h.serviceOne key nowMs).bind fun h' => serviceEach nowMs h' keys

/-- The adjustment `bandwidth_throttle` makes once its interval has passed. -/
def throttlePeers (h : HostTask) (connectedKeys : List PeerKey) (nowMs : U32) : HostTask :=
  let peerCount : U32 := BitVec.ofNat 32 connectedKeys.length
  let h :=
    if 0 < h.outgoingBandwidth then
      let perPeer := clamp (h.outgoingBandwidth / peerCount) windowSizeMin windowSizeMax
      connectedKeys.foldl (fun h key => h.updatePeer key fun p => { p with windowSize := perPeer }) h
    else h
  let ib := h.incomingBandwidth
  let ob := if 0 < h.outgoingBandwidth then h.outgoingBandwidth / peerCount else 0
  if ib = 0 ∧ ob = 0 then h
  else
    connectedKeys.foldl
      (fun h key => h.sendConnectionCmd key cmdBandwidthLimit (be32 ib ++ be32 ob) nowMs) h

/-- `HostTask::bandwidth_throttle`. -/
def bandwidthThrottle (h : HostTask) (nowMs : U32) : HostTask :=
  if nowMs - h.bandwidthThrottleEpoch < bandwidthThrottleIntervalMs then h
  else
    let h := { h with bandwidthThrottleEpoch := nowMs }
    if h.incomingBandwidth = 0 ∧ h.outgoingBandwidth = 0 then h
    else
      let connectedKeys := h.keysWhere fun p => decide (p.state = .connected)
      if BitVec.ofNat 32 connectedKeys.length = 0 then h
      else h.throttlePeers connectedKeys nowMs

/-- `HostTask::service_all`. -/
def serviceAll (h : HostTask) (nowMs : U32) : Option HostTask :=
  (serviceEach nowMs h (h.keysWhere fun _ => true)).map fun h' => h'.bandwidthThrottle nowMs

end HostTask

end EnetRs
