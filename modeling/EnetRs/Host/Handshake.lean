/-
  EnetRs.Host.Handshake — CONNECT, VERIFY_CONNECT and the ACK that completes
  the three-way handshake (`src/task.rs`).
-/
import EnetRs.Host.State

namespace EnetRs

open MachineInt

/-- The fields every new `PeerEntry` starts with; the two constructors in the
source differ in what they override. -/
def PeerEntry.fresh (addr : SocketAddr) (connectId : U32) (conn : Receiver) (mtu : U32)
    (channelCount : U8) (nowMs : U32) : PeerEntry :=
  { addr := addr
    state := .connecting
    outgoingPeerId := peerIdUnassigned
    connectId := connectId
    incomingSessionId := 0xFF
    outgoingSessionId := 0xFF
    mtu := mtu
    windowSize := windowSizeMax
    packetThrottle := defaultPacketThrottle
    throttleInterval := throttleIntervalMs
    throttleAcceleration := throttleAccelerationDefault
    throttleDeceleration := throttleDecelerationDefault
    rtt := defaultRttMs
    rttVar := defaultRttMs / 2
    rttInitialized := false
    lastSendTime := nowMs
    lastReceiveTime := nowMs
    channels := List.replicate channelCount.toNat Channel.new
    unsequencedWindow := UnsequencedWindow.new
    outgoingReliable := ∅
    pendingSend := []
    fragmentBytesInFlight := 0
    packetThrottleEpoch := 0
    rttAtThrottleEpoch := defaultRttMs
    toUser := Mpsc.new conn 256
    toUserRx := some conn
    connectReply := none
    incomingReliableSeq := 0
    outgoingReliableSeq := 0
    connectSeq := 0
    history := [] }

namespace HostTask

/-! ## §1. Client side: CONNECT. -/

/-- The body of the CONNECT command. -/
def connectBody (h : HostTask) (slot : PeerKey) (channelCount : U8) (connectId userData : U32) :
    Bytes :=
  be16 (BitVec.ofNat 16 slot) ++ [0xFF] ++ [0xFF] ++ be32 h.hostMtu ++ be32 windowSizeMax
    ++ be32 (channelCount.setWidth 32) ++ be32 h.incomingBandwidth ++ be32 h.outgoingBandwidth
    ++ be32 throttleIntervalMs ++ be32 throttleAccelerationDefault
    ++ be32 throttleDecelerationDefault ++ be32 connectId ++ be32 userData

/-- The entry and the CONNECT command `begin_connect` makes for a slot.
`connectId` is the value the random generator returned. -/
def clientHandshake (h : HostTask) (slot : PeerKey) (addr : SocketAddr) (channelCount : U8)
    (userData : U32) (nowMs : U32) (reply : ConnectReplySender) (connectId : U32) :
    PeerEntry × Bytes :=
  let ch := umax channelCount 1
  let entry : PeerEntry :=
    { PeerEntry.fresh addr connectId h.nextConn h.hostMtu ch nowMs with connectReply := some reply }
  let (entry, cmd) := entry.makeReliable channelIdConnection cmdConnect 0 nowMs
    (h.connectBody slot ch connectId userData)
  ({ entry with connectSeq := entry.outgoingReliableSeq }, cmd)

/-- `addr_map.insert(addr, key); peers[slot] = Some(entry)`, the entry's
delivery channel being the one numbered `nextConn`. -/
def install (h : HostTask) (slot : PeerKey) (entry : PeerEntry) : HostTask :=
  { h with
    addrMap := Function.update h.addrMap entry.addr (some slot)
    peers := h.peers.set slot (some entry)
    nextConn := h.nextConn + 1 }

/-- `HostTask::begin_connect`. -/
def beginConnect (h : HostTask) (addr : SocketAddr) (channelCount : U8) (userData : U32)
    (nowMs : U32) (reply : ConnectReplySender) (connectId : U32) :
    HostTask × Option (PeerKey × Bytes) :=
  match h.allocSlot with
  | none => (h, none)
  | some slot =>
      let (entry, cmd) := h.clientHandshake slot addr channelCount userData nowMs reply connectId
      (h.install slot entry, some (slot, cmd))

/-! ## §2. Server side: CONNECT arrives. -/

/-- `(bandwidth / WINDOW_SIZE_MAX) * WINDOW_SIZE_MIN`, at least `WINDOW_SIZE_MIN`. -/
def bandwidthWindow (bandwidth : U32) : U32 :=
  umax ((bandwidth / windowSizeMax) * windowSizeMin) windowSizeMin

/-- The window `on_connect` settles on. -/
def negotiateWindow (h : HostTask) (connect : ConnectCmd) : U32 :=
  let serverIn := h.incomingBandwidth
  let clientIn := connect.incomingBandwidth
  let serverOut := h.outgoingBandwidth
  let serverWindow := if serverIn = 0 then windowSizeMax else bandwidthWindow serverIn
  let peerWindow :=
    if serverOut = 0 ∧ clientIn = 0 then windowSizeMax
    else if serverOut = 0 ∨ clientIn = 0 then bandwidthWindow (umax serverOut clientIn)
    else bandwidthWindow (umin serverOut clientIn)
  clamp (umin (umin serverWindow peerWindow) connect.windowSize) windowSizeMin windowSizeMax

/-- The session id `on_connect` assigns: `first` for a fresh request. -/
def negotiateSession (requested first : U8) : U8 :=
  if requested = 0xFF then first else (requested + 1) &&& 0x3

/-- The channel count `on_connect` settles on. -/
def negotiateChannels (connect : ConnectCmd) : U8 :=
  (clamp connect.channelCount 1 maxChannels).setWidth 8

/-- The entry `on_connect` builds, before VERIFY_CONNECT is created. -/
def serverEntry (h : HostTask) (connect : ConnectCmd) (hdr : CommandHeader) (src : SocketAddr)
    (nowMs : U32) : PeerEntry :=
  { PeerEntry.fresh src connect.connectId h.nextConn
      (umin (clamp connect.mtu mtuMin mtuMax) h.hostMtu) (negotiateChannels connect) nowMs with
    state := .acknowledgingConnect
    outgoingPeerId := connect.outgoingPeerId
    incomingSessionId := negotiateSession connect.incomingSessionId 1
    outgoingSessionId := negotiateSession connect.outgoingSessionId 2
    windowSize := h.negotiateWindow connect
    throttleInterval := connect.throttleInterval
    throttleAcceleration := connect.throttleAcceleration
    throttleDeceleration := connect.throttleDeceleration
    incomingReliableSeq := hdr.reliableSeq }

/-- The body of the VERIFY_CONNECT command. -/
def verifyBody (h : HostTask) (slot : PeerKey) (entry : PeerEntry) (channelCount : U8) : Bytes :=
  be16 (BitVec.ofNat 16 slot) ++ [entry.outgoingSessionId] ++ [entry.incomingSessionId]
    ++ be32 entry.mtu ++ be32 entry.windowSize ++ be32 (channelCount.setWidth 32)
    ++ be32 h.incomingBandwidth ++ be32 h.outgoingBandwidth ++ be32 entry.throttleInterval
    ++ be32 entry.throttleAcceleration ++ be32 entry.throttleDeceleration ++ be32 entry.connectId

/-- `HostTask::send_raw_disconnect`. -/
def sendRawDisconnect (h : HostTask) (connect : ConnectCmd) (addr : SocketAddr) (nowMs : U32) :
    HostTask :=
  let peerIdRaw := headerFlagSentTime ||| (connect.outgoingPeerId &&& 0x0FFF)
  let cmd := encodeCommand cmdDisconnect 0 channelIdConnection 0 (be32 0)
  h.note (.sent addr [cmd] (be16 peerIdRaw ++ be16 (nowMs.setWidth 16) ++ cmd))

/-- The eviction at the top of `on_connect`: whatever entry the address has. -/
def evictAddr (h : HostTask) (src : SocketAddr) : HostTask :=
  match h.addrMap src with
  | some oldKey => (h.notifyDisconnect oldKey none).removePeer oldKey
  | none => h

/-- The entry and the VERIFY_CONNECT command `on_connect` makes for a slot. -/
def serverHandshake (h : HostTask) (slot : PeerKey) (connect : ConnectCmd) (hdr : CommandHeader)
    (src : SocketAddr) (nowMs : U32) : PeerEntry × Bytes :=
  let entry := h.serverEntry connect hdr src nowMs
  let (entry, verify) := entry.makeReliable channelIdConnection cmdVerifyConnect 0 nowMs
    (h.verifyBody slot entry (negotiateChannels connect))
  ({ entry with connectSeq := entry.outgoingReliableSeq }, verify)

/-- `HostTask::on_connect`. -/
def onConnect (h : HostTask) (connect : ConnectCmd) (hdr : CommandHeader)
    (sentTime : Option U16) (src : SocketAddr) (nowMs : U32) : HostTask :=
  let h := h.evictAddr src
  match h.allocSlot with
  | none => h.sendRawDisconnect connect src nowMs
  | some slot =>
      let (entry, verify) := h.serverHandshake slot connect hdr src nowMs
      -- the ACK of CONNECT is bundled, if the datagram had a send time
      let ackOpt := sentTime.map fun st => ack channelIdConnection hdr.reliableSeq st
      (h.install slot entry).emitByKey slot (ackOpt.toList ++ [verify]) nowMs

/-! ## §3. Client side: VERIFY_CONNECT arrives. -/

/-- The entry `on_verify_connect` leaves: parameters clamped, CONNECT no
longer outstanding, receiver and reply handle taken. -/
def verifiedEntry (hostMtu : U32) (p : PeerEntry) (vc : VerifyConnectCmd) (hdr : CommandHeader)
    (nowMs : U32) : PeerEntry :=
  { p with
    outgoingPeerId := vc.outgoingPeerId
    incomingSessionId := vc.incomingSessionId
    outgoingSessionId := vc.outgoingSessionId
    mtu := umin (clamp vc.mtu mtuMin mtuMax) hostMtu
    windowSize := clamp vc.windowSize windowSizeMin windowSizeMax
    throttleInterval := vc.throttleInterval
    throttleAcceleration := vc.throttleAcceleration
    throttleDeceleration := vc.throttleDeceleration
    state := .connected
    lastReceiveTime := nowMs
    incomingReliableSeq := hdr.reliableSeq
    toUserRx := none
    connectReply := none
    outgoingReliable := p.outgoingReliable.erase (channelIdConnection, p.connectSeq) }

/-- `HostTask::on_verify_connect`. -/
def onVerifyConnect (h : HostTask) (key : PeerKey) (vc : VerifyConnectCmd) (hdr : CommandHeader)
    (nowMs : U32) : HostTask :=
  match h.peer key with
  | none => h
  | some p =>
      if p.state ≠ .connecting ∨ vc.connectId ≠ p.connectId then h
      else
        let h := h.setPeer key (verifiedEntry h.hostMtu p vc hdr nowMs)
        match p.toUserRx, p.connectReply with
        | some rx, some reply => h.note (.connected reply key rx)
        | _, _ => h

/-! ## §4. ACK. -/

end HostTask

namespace PeerEntry

/-- The RTT sample of `on_ack`: the 16-bit echo extended by the current time. -/
def sampleRtt (p : PeerEntry) (receivedSentTime : U16) (nowMs : U32) : PeerEntry :=
  let t32 := receivedSentTime.setWidth 32 ||| (nowMs &&& 0xFFFF0000)
  let t32 := if (nowMs &&& 0x8000) < (t32 &&& 0x8000) then t32 - 0x10000 else t32
  if t32 ≤ nowMs then p.updateRtt (umax (nowMs - t32) 1) else p

/-- The adaptive throttle of `on_ack`, once per throttle interval. -/
def adjustThrottle (p : PeerEntry) (nowMs : U32) : PeerEntry :=
  if p.packetThrottleEpoch = 0 ∨ p.throttleInterval ≤ nowMs - p.packetThrottleEpoch then
    let prevRtt := p.rttAtThrottleEpoch
    let p := { p with packetThrottleEpoch := nowMs, rttAtThrottleEpoch := p.rtt }
    if 0 < prevRtt ∧ p.rttInitialized then
      if p.rtt < prevRtt then
        { p with
          packetThrottle := umin (p.packetThrottle + p.throttleAcceleration) packetThrottleScale }
      else if satAdd prevRtt (2 * p.rttVar) < p.rtt then
        { p with packetThrottle := satSub p.packetThrottle p.throttleDeceleration }
      else p
    else p
  else p

/-- The part of `on_ack` that touches the entry only. -/
def applyAck (p : PeerEntry) (channelId : U8) (ack : AcknowledgeCmd) (nowMs : U32) : PeerEntry :=
  let p := { p with lastReceiveTime := nowMs }
  let p := (p.sampleRtt ack.receivedSentTime nowMs).adjustThrottle nowMs
  { p with
    outgoingReliable := p.outgoingReliable.erase (channelId, ack.receivedReliableSeq)
    history := p.history ++ [.ack channelId ack.receivedReliableSeq] }

end PeerEntry

namespace HostTask

/-- `HostTask::on_ack`. -/
def onAck (h : HostTask) (key : PeerKey) (channelId : U8) (ack : AcknowledgeCmd) (nowMs : U32) :
    HostTask :=
  match h.peer key with
  | none => h
  | some p =>
      let p := p.applyAck channelId ack nowMs
      if p.state = .acknowledgingConnect ∧ channelId = channelIdConnection
          ∧ ack.receivedReliableSeq = p.connectSeq then
        -- the three-way handshake is complete: expose the peer to the application
        let h := h.setPeer key { p with state := .connected, toUserRx := none }
        match p.toUserRx with
        | none => h
        | some rx =>
            if h.acceptTx.hasRoom then
              { h with
                acceptTx := h.acceptTx.trySend (key, rx)
                trace := h.trace ++ [.accepted key rx p.addr p.connectId] }
            else h.removePeer key
      else if p.state = .disconnecting ∧ p.outgoingReliable.isEmpty then
        (h.setPeer key p).removePeer key
      else h.setPeer key p

end HostTask

end EnetRs
