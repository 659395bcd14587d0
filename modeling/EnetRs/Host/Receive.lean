/-
  EnetRs.Host.Receive — from a raw datagram to the handlers (`src/task.rs`).

  `on_datagram` in two halves: `acceptDatagram` resolves the peer, checks
  session and checksum and parses; `onCommands` is the command loop.  The
  ACK of a command is decided from its header alone, before the command is
  looked at.
-/
import EnetRs.Host.Handshake

namespace EnetRs

open MachineInt

/-! ## §1. Handlers that touch one entry. -/

/-- What a reliable data command brings: a message, or a fragment of one. -/
inductive ReliableData where
  | whole (data : Bytes)
  | fragment (sf : SendFragmentCmd)
  deriving DecidableEq, Repr

namespace PeerEntry

/-- Whether the entry takes the payload of the command numbered `(ch, seq)`:
none of the places that drop it applies. -/
def takes (p : PeerEntry) (ch : U8) (seq : U16) (d : ReliableData) : Bool :=
  match p.channels[ch.toNat]?, d with
  | none, _ => false
  | some c, .whole _ => c.expects seq || c.hasRoomFor seq
  | some c, .fragment sf =>
      !fragmentMalformed sf && !p.fragmentRefused c sf
        && (fragmentBufferFor c sf).accepts sf.fragmentNumber sf.fragmentOffset.toNat sf.data
        && (!completes c sf || c.expects sf.startSeq || c.hasRoomFor sf.startSeq)

/-- CMD_PING. -/
def onPing (p : PeerEntry) (nowMs : U32) : PeerEntry := { p with lastReceiveTime := nowMs }

/-- CMD_SEND_RELIABLE. -/
def onSendReliable (p : PeerEntry) (ch : U8) (seq : U16) (data : Bytes) (nowMs : U32) :
    PeerEntry :=
  let p := { p with lastReceiveTime := nowMs }
  match p.channels[ch.toNat]? with
  | none => p
  | some c =>
      let (c', ready) := c.receiveReliable seq data
      { p with channels := p.channels.set ch.toNat c' }.deliverAll ch .reliable ready

/-- CMD_SEND_UNRELIABLE: dropped if it belongs to an older reliable epoch. -/
def onSendUnreliable (p : PeerEntry) (ch : U8) (reliableSeqInCmd unreliableSeq : U16)
    (data : Bytes) (nowMs : U32) : PeerEntry :=
  let p := { p with lastReceiveTime := nowMs }
  match p.channels[ch.toNat]? with
  | none => p
  | some c =>
      if seqLt reliableSeqInCmd c.incomingReliableSeq then p
      else
        let (c', accepted) := c.receiveUnreliable unreliableSeq data
        { p with channels := p.channels.set ch.toNat c' }.deliverAll ch .unreliable
          accepted.toList

/-- CMD_SEND_UNSEQUENCED.  `Packet::unsequenced` puts channel 0. -/
def onSendUnsequenced (p : PeerEntry) (group : U16) (data : Bytes) (nowMs : U32) : PeerEntry :=
  let p := { p with lastReceiveTime := nowMs }
  let (win, accepted) := p.unsequencedWindow.checkAndSet group
  let p := { p with unsequencedWindow := win }
  if accepted then p.deliver { data := data, channel := 0, mode := .unsequenced } else p

/-- CMD_BANDWIDTH_LIMIT. -/
def onBandwidthLimit (p : PeerEntry) (bl : BandwidthLimitCmd) : PeerEntry :=
  if bl.incomingBandwidth ≠ 0 ∨ bl.outgoingBandwidth ≠ 0 then
    let throttle :=
      if bl.incomingBandwidth = 0 then windowSizeMax
      else HostTask.bandwidthWindow bl.incomingBandwidth
    { p with windowSize := clamp throttle windowSizeMin windowSizeMax }
  else p

/-- CMD_THROTTLE_CONFIGURE. -/
def onThrottleConfigure (p : PeerEntry) (tc : ThrottleConfigureCmd) : PeerEntry :=
  { p with
    throttleInterval := if 0 < tc.throttleInterval then tc.throttleInterval else p.throttleInterval
    throttleAcceleration := umin tc.throttleAcceleration packetThrottleScale
    throttleDeceleration := umin tc.throttleDeceleration packetThrottleScale }

end PeerEntry

/-! ## §2. Command dispatch. -/

namespace HostTask

/-- `HostTask::on_fragment`. -/
def onFragment (h : HostTask) (key : PeerKey) (ch : U8) (sf : SendFragmentCmd) (reliable : Bool)
    (nowMs : U32) : HostTask :=
  h.updatePeer key fun p => p.onFragment ch sf reliable nowMs

/-- Ghost: record that the payload of `(ch, seq)` was taken, if the entry as it
was before the command, in `h₀`, takes it. -/
def noteTake (h h₀ : HostTask) (key : PeerKey) (ch : U8) (seq : U16) (d : ReliableData) :
    HostTask :=
  if (h₀.peer key).any fun p => p.takes ch seq d then
    h.updatePeer key fun p => p.log (.take ch seq)
  else h

/-- CMD_DISCONNECT for a resolved peer: ignored during the handshake,
otherwise acknowledged at once, reported to the application, and removed. -/
def onDisconnect (h : HostTask) (key : PeerKey) (hdr : CommandHeader) (sentTime : Option U16)
    (data : U32) (nowMs : U32) : HostTask :=
  if (h.peer key).map (·.state) = some .acknowledgingConnect then h
  else
    let h := match hdr.hasAckFlag, sentTime with
      | true, some st => h.emitByKey key [ack hdr.channelId hdr.reliableSeq st] nowMs
      | _, _ => h
    (h.notifyDisconnect key (some data)).removePeer key

/-- The ACK that `on_command` pushes before it looks at the command. -/
def ackFor (key : Option PeerKey) (sentTime : Option U16) (hdr : CommandHeader) : List Bytes :=
  if hdr.hasAckFlag
      ∧ ¬ (hdr.commandType = cmdConnect ∨ hdr.commandType = cmdDisconnect
        ∨ hdr.commandType = cmdAcknowledge) then
    match key, sentTime with
    | some _, some st => [ack hdr.channelId hdr.reliableSeq st]
    | _, _ => []
  else []

/-- The `match cmd_type` of `on_command`. -/
def dispatch (h : HostTask) (key : Option PeerKey) (sentTime : Option U16) (cmd : Command)
    (src : SocketAddr) (nowMs : U32) : HostTask :=
  let ty := cmd.header.commandType
  let ch := cmd.header.channelId
  let seq := cmd.header.reliableSeq
  if ty = cmdConnect then
    match cmd.body with
    | .connect c => h.onConnect c cmd.header sentTime src nowMs
    | _ => h
  else if ty = cmdVerifyConnect then
    match key, cmd.body with
    | some k, .verifyConnect vc => h.onVerifyConnect k vc cmd.header nowMs
    | _, _ => h
  else if ty = cmdAcknowledge then
    match key, cmd.body with
    | some k, .acknowledge a => h.onAck k ch a nowMs
    | _, _ => h
  else if ty = cmdDisconnect then
    match key, cmd.body with
    | some k, .disconnect data => h.onDisconnect k cmd.header sentTime data nowMs
    | _, _ => h
  else if ty = cmdPing then
    match key with
    | some k => h.updatePeer k fun p => p.onPing nowMs
    | none => h
  else if ty = cmdSendReliable then
    match key, cmd.body with
    | some k, .sendReliable data =>
        (h.updatePeer k fun p => p.onSendReliable ch seq data nowMs).noteTake h k ch seq
          (.whole data)
    | _, _ => h
  else if ty = cmdSendUnreliable then
    match key, cmd.body with
    | some k, .sendUnreliable useq data =>
        h.updatePeer k fun p => p.onSendUnreliable ch seq useq data nowMs
    | _, _ => h
  else if ty = cmdSendFragment then
    match key, cmd.body with
    | some k, .sendFragment sf =>
        (h.onFragment k ch sf true nowMs).noteTake h k ch seq (.fragment sf)
    | _, _ => h
  else if ty = cmdSendUnreliableFragment then
    match key, cmd.body with
    | some k, .sendUnreliableFragment sf => h.onFragment k ch sf false nowMs
    | _, _ => h
  else if ty = cmdSendUnsequenced then
    match key, cmd.body with
    | some k, .sendUnsequenced group data =>
        h.updatePeer k fun p => p.onSendUnsequenced group data nowMs
    | _, _ => h
  else if ty = cmdBandwidthLimit then
    match key, cmd.body with
    | some k, .bandwidthLimit bl => h.updatePeer k fun p => p.onBandwidthLimit bl
    | _, _ => h
  else if ty = cmdThrottleConfigure then
    match key, cmd.body with
    | some k, .throttleConfigure tc => h.updatePeer k fun p => p.onThrottleConfigure tc
    | _, _ => h
  else h

/-- `HostTask::on_command`: the ACK, then the command. -/
def onCommand (h : HostTask) (key : Option PeerKey) (sentTime : Option U16) (cmd : Command)
    (src : SocketAddr) (nowMs : U32) (pendingAcks : List Bytes) : HostTask × List Bytes :=
  (h.dispatch key sentTime cmd src nowMs, pendingAcks ++ ackFor key sentTime cmd.header)

/-- The command loop of `on_datagram`. -/
def onCommands (key : Option PeerKey) (sentTime : Option U16) (src : SocketAddr) (nowMs : U32) :
    HostTask → List Command → List Bytes → HostTask × List Bytes
  | h, [], acks => (h, acks)
  | h, cmd :: cmds, acks =>
      let (h', acks') := h.onCommand key sentTime cmd src nowMs acks
      onCommands key sentTime src nowMs h' cmds acks'

/-! ## §3. Datagrams. -/

/-- What survives the checks of `on_datagram`. -/
structure Accepted where
  key : Option PeerKey
  sentTime : Option U16
  cmds : List Command

/-- Which slot a header names: 0xFFF means "look the source address up". -/
def resolveKey (h : HostTask) (hdr : ProtocolHeader) (src : SocketAddr) : Option PeerKey :=
  if hdr.peerId = headerPeerIdMax then h.addrMap src
  else if hdr.peerId.toNat < h.peers.length then some hdr.peerId.toNat
  else none

/-- The session check; a datagram whose first command is CONNECT skips it. -/
def sessionOk (h : HostTask) (hdr : ProtocolHeader) (key : Option PeerKey) (slice : Bytes) :
    Bool :=
  if (slice.head?).map (· &&& 0x0F) = some cmdConnect then true
  else
    match key.bind h.peer with
    | some p => !(p.incomingSessionId != 0xFF && hdr.sessionId != p.incomingSessionId)
    | none => true

/-- The checksum check: the command region, or `none` if the datagram fails. -/
def checkedPayload (h : HostTask) (raw slice : Bytes) (key : Option PeerKey) : Option Bytes :=
  if h.useChecksum then
    if slice.length < 4 then none
    else
      let stored := u32At slice 0
      let connectId := ((key.bind h.peer).map (·.connectId)).getD 0
      let hdrLen := raw.length - slice.length
      let scratch := raw.take hdrLen ++ be32 connectId ++ slice.drop 4
      if crc32 scratch ≠ stored then none else some (slice.drop 4)
  else some slice

/-- Everything `on_datagram` does before its command loop. -/
def acceptDatagram (h : HostTask) (raw : Bytes) (src : SocketAddr) : Option Accepted :=
  match ProtocolHeader.parse raw with
  | none => none
  | some (hdr, slice) =>
      if hdr.isCompressed then none
      else
        let key := h.resolveKey hdr src
        if !h.sessionOk hdr key slice then none
        else
          match h.checkedPayload raw slice key with
          | none => none
          | some payload =>
              some { key := key, sentTime := hdr.sentTime, cmds := parseCommands payload }

/-- The batch of ACKs at the end of `on_datagram`. -/
def flushAcks (h : HostTask) (key : Option PeerKey) (src : SocketAddr) (acks : List Bytes)
    (nowMs : U32) : HostTask :=
  if acks.isEmpty then h
  else
    match key.or (h.addrMap src) with
    | some k => h.flushBatch k acks nowMs
    | none => h

/-- `HostTask::on_datagram`. -/
def onDatagram (h : HostTask) (raw : Bytes) (src : SocketAddr) (nowMs : U32) : HostTask :=
  match h.acceptDatagram raw src with
  | none => h
  | some a =>
      let (h', acks) := onCommands a.key a.sentTime src nowMs h a.cmds []
      h'.flushAcks a.key src acks nowMs

end HostTask

end EnetRs
