/-
  EnetRs.Host.State — the host task's state and its datagram emission
  (`src/task.rs`).

  The source's `socket` is the `trace` of what was sent; the trace also keeps
  the other calls that leave the task (accept queue, connect replies,
  disconnect events).  `nextConn` numbers the delivery channels that
  `mpsc::channel` creates.
-/
import EnetRs.Peer

namespace EnetRs

open MachineInt

/-- What the task has done to the outside world. -/
inductive Event where
  /-- `socket.send_to(datagram, dest)`, with the commands it carries. -/
  | sent (dest : SocketAddr) (cmds : List Bytes) (datagram : Bytes)
  /-- `to_user.try_send(Err(data))` on the delivery channel `conn`. -/
  | disconnected (conn : Receiver) (data : Option U32) (placed : Bool)
  /-- `accept_tx.try_send((key, rx))` succeeded for this connection. -/
  | accepted (key : PeerKey) (conn : Receiver) (addr : SocketAddr) (connectId : U32)
  /-- A pending `Host::connect` was answered with `(key, rx)`. -/
  | connected (reply : ConnectReplySender) (key : PeerKey) (conn : Receiver)
  deriving DecidableEq, Repr

structure HostTask where
  peers : List (Option PeerEntry)
  addrMap : SocketAddr → Option PeerKey
  acceptTx : Mpsc (PeerKey × Receiver)
  hostMtu : U32
  incomingBandwidth : U32
  outgoingBandwidth : U32
  useChecksum : Bool
  bandwidthThrottleEpoch : U32
  nextConn : Nat
  trace : List Event

namespace HostTask

/-- `HostTask::new`, with the accept channel's capacity. -/
def new (acceptCapacity maxPeers : Nat) (useChecksum : Bool)
    (incomingBandwidth outgoingBandwidth : U32) : HostTask :=
  { peers := List.replicate maxPeers none
    addrMap := fun _ => none
    acceptTx := Mpsc.new 0 acceptCapacity
    hostMtu := mtuDefault
    incomingBandwidth := incomingBandwidth
    outgoingBandwidth := outgoingBandwidth
    useChecksum := useChecksum
    bandwidthThrottleEpoch := 0
    nextConn := 1
    trace := [] }

/-! ## §1. Slots. -/

/-- `HostTask::alloc_slot`. -/
def allocSlot (h : HostTask) : Option PeerKey := h.peers.findIdx? (·.isNone)

/-- `HostTask::peer`. -/
def peer (h : HostTask) (key : PeerKey) : Option PeerEntry := (h.peers[key]?).join

/-- Write an entry into a slot. -/
def setPeer (h : HostTask) (key : PeerKey) (p : PeerEntry) : HostTask :=
  { h with peers := h.peers.set key (some p) }

/-- `if let Some(p) = self.peer_mut(key) { … }`. -/
def updatePeer (h : HostTask) (key : PeerKey) (f : PeerEntry → PeerEntry) : HostTask :=
  match h.peer key with
  | some p => h.setPeer key (f p)
  | none => h

def note (h : HostTask) (e : Event) : HostTask := { h with trace := h.trace ++ [e] }

/-- `HostTask::remove_peer`. -/
def removePeer (h : HostTask) (key : PeerKey) : HostTask :=
  let addrMap := match h.peer key with
    | some p => Function.update h.addrMap p.addr none
    | none => h.addrMap
  { h with addrMap := addrMap, peers := h.peers.set key none }

/-- `to_user.try_send(Err(data))` on the entry in a slot, if there is one. -/
def notifyDisconnect (h : HostTask) (key : PeerKey) (data : Option U32) : HostTask :=
  match h.peer key with
  | some p =>
      (h.setPeer key { p with toUser := p.toUser.trySend (.error data) }).note
        (.disconnected p.conn data p.toUser.hasRoom)
  | none => h

/-! ## §2. Datagrams. -/

/-- Size of the datagram header: peer id, sent time, and the checksum if used. -/
def hdrOverhead (useChecksum : Bool) : Nat := 4 + if useChecksum then 4 else 0

/-- `HostTask::make_datagram`. -/
def makeDatagram (useChecksum : Bool) (p : PeerEntry) (cmds : List Bytes) (nowMs : U32) : Bytes :=
  let peerIdRaw : U16 := headerFlagSentTime
    ||| ((p.outgoingSessionId.setWidth 16 &&& 0x3) <<< headerSessionShift)
    ||| (p.outgoingPeerId &&& 0x0FFF)
  let hdr := be16 peerIdRaw ++ be16 (nowMs.setWidth 16)
  if useChecksum then
    let ck := crc32 (hdr ++ be32 p.connectId ++ cmds.flatten)
    hdr ++ be32 ck ++ cmds.flatten
  else hdr ++ cmds.flatten

/-- `HostTask::emit_by_key`.  A failed `send_to` is only logged by the source. -/
def emitByKey (h : HostTask) (key : PeerKey) (cmds : List Bytes) (nowMs : U32) : HostTask :=
  if cmds.isEmpty then h
  else
    match h.peer key with
    | none => h
    | some p =>
        (h.setPeer key { p with lastSendTime := nowMs }).note
          (.sent p.addr cmds (makeDatagram h.useChecksum p cmds nowMs))

/-- The loop of `HostTask::flush_batch`: `batch` and its size `sz` so far. -/
def flushLoop (key : PeerKey) (nowMs : U32) (mtu hdr : Nat) :
    HostTask → List Bytes → List Bytes → Nat → HostTask
  | h, [], batch, _ => h.emitByKey key batch nowMs
  | h, cmd :: cmds, batch, sz =>
      if mtu < sz + cmd.length ∧ batch ≠ [] then
        flushLoop key nowMs mtu hdr (h.emitByKey key batch nowMs) cmds [cmd] (hdr + cmd.length)
      else flushLoop key nowMs mtu hdr h cmds (batch ++ [cmd]) (sz + cmd.length)

/-- `HostTask::flush_batch`. -/
def flushBatch (h : HostTask) (key : PeerKey) (cmds : List Bytes) (nowMs : U32) : HostTask :=
  match h.peer key with
  | none => h
  | some p =>
      flushLoop key nowMs p.mtu.toNat (hdrOverhead h.useChecksum) h cmds []
        (hdrOverhead h.useChecksum)

/-- `HostTask::ack`. -/
def ack (channelId : U8) (seq sentTime : U16) : Bytes :=
  encodeCommand cmdAcknowledge 0 channelId 0 (be16 seq ++ be16 sentTime)

/-- `make_reliable` on the connection channel followed by `emit_by_key`: how
PING, DISCONNECT and BANDWIDTH_LIMIT leave the task. -/
def sendConnectionCmd (h : HostTask) (key : PeerKey) (cmdType : U8) (body : Bytes)
    (nowMs : U32) : HostTask :=
  match h.peer key with
  | none => h
  | some p =>
      let (p', cmd) := p.makeReliable channelIdConnection cmdType 0 nowMs body
      (h.setPeer key p').emitByKey key [cmd] nowMs

end HostTask

end EnetRs
