/-
  EnetRs.Peer — the state kept for one peer (`src/task.rs`, `src/lib.rs`).

  `PeerEntry` with its RTT estimator, plus the functions that touch a single
  entry: `make_reliable`, the reliable send window, `deliver`, `on_fragment`.

  Two fields are not in the source.  `toUser` is the tokio channel itself (its
  queue, seen from the sender), where the source holds a `Sender`; `history`
  is a ghost log of what has happened to this entry, read by no function.
-/
import EnetRs.Channel
import EnetRs.Lib.Mpsc

namespace EnetRs

open MachineInt
open Std (ExtTreeMap)

/-! ## §1. Packets and addresses. -/

inductive SendMode where
  | reliable
  | unreliable
  | unsequenced
  deriving DecidableEq, Repr

structure Packet where
  data : Bytes
  channel : U8
  mode : SendMode
  deriving DecidableEq, Repr

/-- `std::net::SocketAddr`. -/
inductive SocketAddr where
  | v4 (ip : BitVec 32) (port : U16)
  | v6 (ip : BitVec 128) (port : U16) (flowinfo scopeId : U32)
  deriving DecidableEq, Repr

/-- `PeerKey(usize)`: a bare slot number. -/
abbrev PeerKey := Nat

/-- The receiving half of a delivery channel, by the channel's identity. -/
abbrev Receiver := Nat

/-- The oneshot sender a `Host::connect` call waits on, by its identity. -/
abbrev ConnectReplySender := Nat

/-- `PeerMsg = Result<Packet, Option<u32>>`. -/
abbrev PeerMsg := Except (Option U32) Packet

/-! ## §2. The entry. -/

/-- `PeerState`. -/
inductive PeerState where
  | connecting
  | acknowledgingConnect
  | connected
  | disconnectLater (data : U32)
  | disconnecting
  deriving DecidableEq, Repr

structure OutstandingReliable where
  reliableSeq : U16
  channelId : U8
  originalSentTime : U32
  sentTime : U32
  rttTimeout : U32
  sendAttempts : U32
  packetBytes : Bytes
  /-- Ghost: `rtt_timeout` as it was at the first transmission. -/
  initialTimeout : U32
  /-- Ghost: when the command was transmitted, the first time first; each time is that
  of a datagram (`HostTask.transmissions_emitted`). -/
  transmissions : List U32
  deriving DecidableEq, Repr

/-- The lexicographic order of `BTreeMap<(u8, u16), _>` keys. -/
instance : Ord (U8 × U16) := lexOrd

instance : Std.TransOrd (U8 × U16) := inferInstanceAs (@Std.TransOrd (U8 × U16) lexOrd)

abbrev OutgoingReliable := ExtTreeMap (U8 × U16) OutstandingReliable

/-- Ghost events of one entry. -/
inductive PeerEvent where
  /-- A `ToTask::Send` brought a reliable packet that `send_packet` accepts. -/
  | submit (pkt : Packet)
  /-- A packet was given reliable numbers `seq, …, seq + count - 1`. -/
  | number (pkt : Packet) (ch : U8) (seq : U16) (count : Nat)
  /-- A command was inserted into `outgoing_reliable`; `fresh` when its key
  was not there yet. -/
  | create (cmdType ch : U8) (seq : U16) (fresh : Bool)
  /-- An ACK naming `(ch, seq)` was processed. -/
  | ack (ch : U8) (seq : U16)
  /-- A packet was handed to `deliver`. -/
  | deliver (pkt : Packet)
  /-- The payload of the reliable command numbered `(ch, seq)` was taken:
  delivered, queued, or written into a reassembly. -/
  | take (ch : U8) (seq : U16)
  deriving DecidableEq, Repr

structure PeerEntry where
  addr : SocketAddr
  state : PeerState
  outgoingPeerId : U16
  connectId : U32
  incomingSessionId : U8
  outgoingSessionId : U8
  mtu : U32
  windowSize : U32
  packetThrottle : U32
  throttleInterval : U32
  throttleAcceleration : U32
  throttleDeceleration : U32
  rtt : U32
  rttVar : U32
  rttInitialized : Bool
  lastSendTime : U32
  lastReceiveTime : U32
  channels : List Channel
  unsequencedWindow : UnsequencedWindow
  outgoingReliable : OutgoingReliable
  pendingSend : List Packet
  fragmentBytesInFlight : Nat
  packetThrottleEpoch : U32
  rttAtThrottleEpoch : U32
  toUser : Mpsc PeerMsg
  toUserRx : Option Receiver
  connectReply : Option ConnectReplySender
  incomingReliableSeq : U16
  outgoingReliableSeq : U16
  connectSeq : U16
  history : List PeerEvent

/-- `MAX_FRAGMENT_BUFFERS_PER_CHANNEL`. -/
def maxFragmentBuffersPerChannel : Nat := 64

/-- `MAX_FRAGMENT_BYTES_PER_PEER` (16 MiB). -/
def maxFragmentBytesPerPeer : Nat := 16 * 1024 * 1024

/-- `MAX_PENDING_SEND`. -/
def maxPendingSend : Nat := 1024

namespace PeerEntry

/-- The identity of the connection: that of its delivery channel. -/
def conn (p : PeerEntry) : Nat := p.toUser.id

def log (p : PeerEntry) (e : PeerEvent) : PeerEntry := { p with history := p.history ++ [e] }

/-- `PeerEntry::update_rtt`. -/
def updateRtt (p : PeerEntry) (sample : U32) : PeerEntry :=
  if !p.rttInitialized then
    { p with
      rtt := sample
      rttVar := BitVec.ofNat 32 (divCeil sample.toNat 2)
      rttInitialized := true }
  else
    let rttVar := satSub p.rttVar (p.rttVar / 4)
    if p.rtt ≤ sample then
      let diff := sample - p.rtt
      { p with rttVar := rttVar + diff / 4, rtt := p.rtt + diff / 8 }
    else
      let diff := p.rtt - sample
      { p with rttVar := rttVar + diff / 4, rtt := satSub p.rtt (diff / 8) }

/-- `PeerEntry::initial_rtt_timeout`. -/
def initialRttTimeout (p : PeerEntry) : U32 :=
  umax (satAdd p.rtt (satMul p.rttVar 4)) 200

/-- `PeerEntry::next_connect_seq`: the entry after the bump; the new
`outgoingReliableSeq` is the number handed out. -/
def nextConnectSeq (p : PeerEntry) : PeerEntry :=
  { p with outgoingReliableSeq := p.outgoingReliableSeq + 1 }

/-! ## §3. Reliable commands. -/

/-- `channels[ch].next_reliable_seq()`.  The source indexes the vector; every
call site has compared `ch` with its length first, so the `none` arm (an index
panic) is never taken. -/
def nextReliableSeq (p : PeerEntry) (ch : U8) : PeerEntry × U16 :=
  match p.channels[ch.toNat]? with
  | some c =>
      ({ p with channels := p.channels.set ch.toNat c.nextReliableSeq },
        c.nextReliableSeq.outgoingReliableSeq)
  | none => (p, 0)

/-- The number `make_reliable` takes: from the connection on channel 0xFF,
from the channel otherwise. -/
def takeSeq (p : PeerEntry) (channelId : U8) : PeerEntry × U16 :=
  if channelId = channelIdConnection then
    (p.nextConnectSeq, p.nextConnectSeq.outgoingReliableSeq)
  else p.nextReliableSeq channelId

/-- Insert a command just sent into `outgoing_reliable`. -/
def track (p : PeerEntry) (channelId : U8) (seq : U16) (cmdType : U8) (cmd : Bytes)
    (nowMs : U32) : PeerEntry :=
  { p with
    outgoingReliable := p.outgoingReliable.insert (channelId, seq)
      { reliableSeq := seq
        channelId := channelId
        originalSentTime := nowMs
        sentTime := nowMs
        rttTimeout := p.initialRttTimeout
        sendAttempts := 1
        packetBytes := cmd
        initialTimeout := p.initialRttTimeout
        transmissions := [nowMs] }
    history := p.history ++
      [.create cmdType channelId seq (!p.outgoingReliable.contains (channelId, seq))] }

/-- `HostTask::make_reliable`. -/
def makeReliable (p : PeerEntry) (channelId cmdType extraFlags : U8) (nowMs : U32)
    (body : Bytes) : PeerEntry × Bytes :=
  let (p', seq) := p.takeSeq channelId
  let cmd := encodeCommand cmdType (commandFlagAcknowledge ||| extraFlags) channelId seq body
  (p'.track channelId seq cmdType cmd nowMs, cmd)

/-- The outstanding numbers of a channel, in map order. -/
def outstandingSeqs (p : PeerEntry) (ch : U8) : List U16 :=
  ((p.outgoingReliable.toList.map (·.2)).filter (·.channelId == ch)).map (·.reliableSeq)

/-- `reduce(|a, b| if seq_lt(a, b) { a } else { b })`. -/
def oldestSeq : List U16 → Option U16
  | [] => none
  | s :: rest => some (rest.foldl (fun a b => if seqLt a b then a else b) s)

/-- `effective_window`: the throttled window, capped at half the sequence space. -/
def effectiveWindow (p : PeerEntry) : Nat :=
  min (p.packetThrottle.toNat * p.windowSize.toNat / packetThrottleScale.toNat)
    (freeReliableWindows.toNat * reliableWindowSize.toNat)

/-- `window_open` of `send_packet`, for the channel `c` with index `ch`. -/
def windowOpen (p : PeerEntry) (ch : U8) (c : Channel) : Bool :=
  let nextSeq := c.outgoingReliableSeq + 1
  match oldestSeq (p.outstandingSeqs ch) with
  | none => true
  | some oldest => decide ((nextSeq - oldest).toNat < p.effectiveWindow)

/-! ## §4. Delivery and reassembly. -/

/-- `HostTask::deliver` on this entry. -/
def deliver (p : PeerEntry) (pkt : Packet) : PeerEntry :=
  { p with
    toUser := p.toUser.trySend (.ok pkt)
    history := p.history ++ [.deliver pkt] }

/-- Deliver a batch in order. -/
def deliverAll (p : PeerEntry) (ch : U8) (mode : SendMode) (ready : List Bytes) : PeerEntry :=
  ready.foldl (fun p data => p.deliver { data := data, channel := ch, mode := mode }) p

/-- The checks `on_fragment` makes before it looks at any state. -/
def fragmentMalformed (sf : SendFragmentCmd) : Bool :=
  sf.fragmentCount == 0 || decide (maxFragmentCount < sf.fragmentCount)
    || decide (65536 < sf.fragmentCount.toNat)
    || decide (sf.fragmentCount ≤ sf.fragmentNumber)
    || decide (maxPacketSize < sf.totalLength.toNat)
    || decide (sf.totalLength.toNat < sf.fragmentOffset.toNat + sf.data.length)

/-- The DoS guards of `on_fragment`: a new reassembly that would exceed the
per-channel count or the per-peer byte budget. -/
def fragmentRefused (p : PeerEntry) (c : Channel) (sf : SendFragmentCmd) : Bool :=
  !c.fragmentBuffers.contains sf.startSeq
    && (decide (maxFragmentBuffersPerChannel ≤ c.fragmentBuffers.size)
      || decide (maxFragmentBytesPerPeer < p.fragmentBytesInFlight + sf.totalLength.toNat))

/-- What `on_fragment` does with an assembled message: the channel afterwards
and the messages to deliver. -/
def releaseAssembled (c : Channel) (sf : SendFragmentCmd) (reliable : Bool)
    (assembled : Bytes) : Channel × List Bytes :=
  if reliable then
    let (c', ready) := c.receiveReliable sf.startSeq assembled
    if !ready.isEmpty && decide (1 < sf.fragmentCount) then
      -- the sender used `frag_count` numbers: skip the rest, then drain again
      let (c'', more) := Channel.drain
        { c' with
          incomingReliableSeq := c'.incomingReliableSeq + (sf.fragmentCount - 1).setWidth 16 }
      (c'', ready ++ more)
    else (c', ready)
  else
    match c.receiveUnreliable sf.startSeq assembled with
    | (c', some data) => (c', [data])
    | (c', none) => (c', [])

/-- The buffer `on_fragment` writes into: the one under `start_seq`, or a new one. -/
def fragmentBufferFor (c : Channel) (sf : SendFragmentCmd) : FragmentBuffer :=
  (c.fragmentBuffers[sf.startSeq]?).getD
    (FragmentBuffer.new sf.totalLength.toNat sf.fragmentCount)

/-- Whether the fragment completes the reassembly it belongs to. -/
def completes (c : Channel) (sf : SendFragmentCmd) : Bool :=
  ((fragmentBufferFor c sf).receive sf.fragmentNumber sf.fragmentOffset.toNat sf.data).2

/-- The body of `HostTask::on_fragment` once the malformed fragments are out:
the entry with channel `c` (index `ch`) updated, and the messages ready. -/
def storeFragment (p : PeerEntry) (ch : U8) (c : Channel) (sf : SendFragmentCmd)
    (reliable : Bool) : PeerEntry × List Bytes :=
  if fragmentRefused p c sf then (p, [])
  else
    let charged :=
      if c.fragmentBuffers.contains sf.startSeq then p.fragmentBytesInFlight
      else p.fragmentBytesInFlight + sf.totalLength.toNat
    let (buf, done) :=
      (fragmentBufferFor c sf).receive sf.fragmentNumber sf.fragmentOffset.toNat sf.data
    if done then
      let (c', ready) := releaseAssembled
        { c with fragmentBuffers := c.fragmentBuffers.erase sf.startSeq } sf reliable buf.finish
      ({ p with
          -- released by the length this fragment announces
          fragmentBytesInFlight := charged - sf.totalLength.toNat
          channels := p.channels.set ch.toNat c' }, ready)
    else
      ({ p with
          fragmentBytesInFlight := charged
          channels := p.channels.set ch.toNat
            { c with fragmentBuffers := c.fragmentBuffers.insert sf.startSeq buf } }, [])

/-- `HostTask::on_fragment` on this entry. -/
def onFragment (p : PeerEntry) (ch : U8) (sf : SendFragmentCmd) (reliable : Bool)
    (nowMs : U32) : PeerEntry :=
  if fragmentMalformed sf then p
  else
    let p := { p with lastReceiveTime := nowMs }
    match p.channels[ch.toNat]? with
    | none => p
    | some c =>
        let (p', ready) := p.storeFragment ch c sf reliable
        p'.deliverAll ch (if reliable then .reliable else .unreliable) ready

end PeerEntry

end EnetRs
