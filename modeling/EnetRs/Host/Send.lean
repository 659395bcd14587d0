/-
  EnetRs.Host.Send — `send_packet` and `send_disconnect` (`src/task.rs`).

  A packet can crash the task in one place: the unreliable branch indexes the
  channel vector without having compared the channel with its length.  That
  outcome is `none`; every other function of the task is total.
-/
import EnetRs.Host.State

namespace EnetRs

open MachineInt

/-! ## §1. Payload limits and fragments. -/

/-- `max_payload` of the reliable branch. -/
def maxReliablePayload (mtu : Nat) (useChecksum : Bool) : Nat :=
  mtu - HostTask.hdrOverhead useChecksum - 4 - 2

/-- `max_payload` of the unreliable branch. -/
def maxUnreliablePayload (mtu : Nat) (useChecksum : Bool) : Nat :=
  mtu - HostTask.hdrOverhead useChecksum - 4 - 4

/-- `frag_payload`. -/
def fragPayload (mtu : Nat) (useChecksum : Bool) : Nat :=
  mtu - HostTask.hdrOverhead useChecksum - 4 - 20

/-- `frag_count`. -/
def fragCount (fp : Nat) (data : Bytes) : Nat := divCeil data.length fp

/-- Fragment `i` of a message: the slice `[i·fp, min ((i+1)·fp) total)`. -/
def fragmentOf (startSeq : U16) (fp : Nat) (data : Bytes) (i : Nat) : SendFragmentCmd :=
  { startSeq := startSeq
    fragmentCount := BitVec.ofNat 32 (fragCount fp data)
    fragmentNumber := BitVec.ofNat 32 i
    totalLength := BitVec.ofNat 32 data.length
    fragmentOffset := BitVec.ofNat 32 (i * fp)
    data := (data.drop (i * fp)).take fp }

/-- The body bytes of a fragment command. -/
def fragmentBody (sf : SendFragmentCmd) : Bytes :=
  be16 sf.startSeq ++ be16 (BitVec.ofNat 16 sf.data.length) ++ be32 sf.fragmentCount
    ++ be32 sf.fragmentNumber ++ be32 sf.totalLength ++ be32 sf.fragmentOffset ++ sf.data

namespace PeerEntry

/-- The reliable fragmentation loop: `n` fragments are left, `i` is the next.
The first one uses the number `start_seq` already taken. -/
def fragmentLoop (ch : U8) (startSeq : U16) (fp : Nat) (data : Bytes) (nowMs : U32) :
    Nat → Nat → PeerEntry → PeerEntry × List Bytes
  | 0, _, p => (p, [])
  | n + 1, i, p =>
      let (p, seq) := if i = 0 then (p, startSeq) else p.nextReliableSeq ch
      let cmd := encodeCommand cmdSendFragment commandFlagAcknowledge ch seq
        (fragmentBody (fragmentOf startSeq fp data i))
      let (p', cmds) := fragmentLoop ch startSeq fp data nowMs n (i + 1)
        (p.track ch seq cmdSendFragment cmd nowMs)
      (p', cmd :: cmds)

/-- Number a packet that is sent in one piece. -/
def numberWhole (p : PeerEntry) (pkt : Packet) (nowMs : U32) : PeerEntry × Bytes :=
  let (p', cmd) := p.makeReliable pkt.channel cmdSendReliable 0 nowMs
    (be16 (BitVec.ofNat 16 pkt.data.length) ++ pkt.data)
  (p'.log (.number pkt pkt.channel (p.nextReliableSeq pkt.channel).2 1), cmd)

/-- Number a packet that is sent in fragments. -/
def numberFragments (p : PeerEntry) (pkt : Packet) (fp : Nat) (nowMs : U32) :
    PeerEntry × List Bytes :=
  let (p, startSeq) := p.nextReliableSeq pkt.channel
  let (p', cmds) := fragmentLoop pkt.channel startSeq fp pkt.data nowMs (fragCount fp pkt.data) 0 p
  (p'.log (.number pkt pkt.channel startSeq (fragCount fp pkt.data)), cmds)

/-- Queue a packet because the reliable window is closed. -/
def queuePending (p : PeerEntry) (pkt : Packet) : PeerEntry :=
  if p.pendingSend.length < maxPendingSend then { p with pendingSend := p.pendingSend ++ [pkt] }
  else p

/-- Whether `send_packet` keeps a reliable packet: sent at once or queued. -/
def acceptsReliable (p : PeerEntry) (pkt : Packet) : Bool :=
  decide (p.state = .connected) && decide (pkt.mode = .reliable) &&
    match p.channels[pkt.channel.toNat]? with
    | none => false
    | some c => p.windowOpen pkt.channel c || decide (p.pendingSend.length < maxPendingSend)

end PeerEntry

namespace HostTask

/-! ## §2. The three modes. -/

/-- The `SendMode::Reliable` branch. -/
def sendReliable (h : HostTask) (key : PeerKey) (p : PeerEntry) (pkt : Packet) (nowMs : U32) :
    HostTask :=
  match p.channels[pkt.channel.toNat]? with
  | none => h
  | some c =>
      if !p.windowOpen pkt.channel c then h.setPeer key (p.queuePending pkt)
      else if pkt.data.length ≤ maxReliablePayload p.mtu.toNat h.useChecksum then
        let (p', cmd) := p.numberWhole pkt nowMs
        (h.setPeer key p').emitByKey key [cmd] nowMs
      else
        let (p', cmds) := p.numberFragments pkt (fragPayload p.mtu.toNat h.useChecksum) nowMs
        (h.setPeer key p').flushBatch key cmds nowMs

/-- The `SendMode::Unreliable` branch; `none` is the index panic. -/
def sendUnreliable (h : HostTask) (key : PeerKey) (p : PeerEntry) (pkt : Packet) (nowMs : U32) :
    Option HostTask :=
  match p.channels[pkt.channel.toNat]? with
  | none => none
  | some c =>
      let c' := c.nextUnreliableSeq
      let h := h.setPeer key { p with channels := p.channels.set pkt.channel.toNat c' }
      if pkt.data.length ≤ maxUnreliablePayload p.mtu.toNat h.useChecksum then
        let cmd := encodeCommand cmdSendUnreliable 0 pkt.channel c'.outgoingReliableSeq
          (be16 c'.outgoingUnreliableSeq ++ be16 (BitVec.ofNat 16 pkt.data.length) ++ pkt.data)
        some (h.emitByKey key [cmd] nowMs)
      else
        let fp := fragPayload p.mtu.toNat h.useChecksum
        let cmds := (List.range (fragCount fp pkt.data)).map fun i =>
          encodeCommand cmdSendUnreliableFragment 0 pkt.channel c'.outgoingReliableSeq
            (fragmentBody (fragmentOf c'.outgoingUnreliableSeq fp pkt.data i))
        some (h.flushBatch key cmds nowMs)

/-- The `SendMode::Unsequenced` branch; an unknown channel sends group 0. -/
def sendUnsequenced (h : HostTask) (key : PeerKey) (p : PeerEntry) (pkt : Packet) (nowMs : U32) :
    HostTask :=
  let (p', group) := match p.channels[pkt.channel.toNat]? with
    | some c =>
        ({ p with channels := p.channels.set pkt.channel.toNat c.nextUnsequencedGroup },
          c.nextUnsequencedGroup.outgoingUnsequencedGroup)
    | none => (p, 0)
  let cmd := encodeCommand cmdSendUnsequenced commandFlagUnsequenced pkt.channel 0
    (be16 group ++ be16 (BitVec.ofNat 16 pkt.data.length) ++ pkt.data)
  (h.setPeer key p').emitByKey key [cmd] nowMs

/-- `HostTask::send_packet`. -/
def sendPacket (h : HostTask) (key : PeerKey) (pkt : Packet) (nowMs : U32) : Option HostTask :=
  match h.peer key with
  | none => some h
  | some p =>
      if p.state ≠ .connected then some h
      else
        match pkt.mode with
        | .reliable => some (h.sendReliable key p pkt nowMs)
        | .unreliable => h.sendUnreliable key p pkt nowMs
        | .unsequenced => some (h.sendUnsequenced key p pkt nowMs)

/-- Send a list of packets, one after the other. -/
def sendAll (key : PeerKey) (nowMs : U32) : HostTask → List Packet → Option HostTask
  | h, [] => some h
  | h, pkt :: pkts => (h.sendPacket key pkt nowMs).bind fun h' => sendAll key nowMs h' pkts

/-! ## §3. Disconnect. -/

/-- `HostTask::send_disconnect`. -/
def sendDisconnect (h : HostTask) (key : PeerKey) (data : U32) (nowMs : U32) : HostTask :=
  match h.peer key with
  | none => h
  | some p =>
      match p.state with
      | .disconnecting | .disconnectLater _ | .acknowledgingConnect => h
      | .connecting | .connected =>
          if !p.outgoingReliable.isEmpty then
            h.setPeer key { p with state := .disconnectLater data }
          else
            (h.setPeer key { p with state := .disconnecting }).sendConnectionCmd key
              cmdDisconnect (be32 data) nowMs

end HostTask

end EnetRs
