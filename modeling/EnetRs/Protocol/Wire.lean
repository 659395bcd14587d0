/-
  EnetRs.Protocol.Wire — the wire format (`src/protocol.rs`).

  Constants, the datagram header, the twelve commands with their parser,
  serialiser and size, `parse_commands`, the table-driven CRC-32 and the
  wrap-around comparison `seq_lt`.

  Rust's `&mut &[u8]` cursor is explicit: a parser returns what it read
  together with the unread rest of the buffer.
-/
import EnetRs.Lib.MachineInt

namespace EnetRs

open MachineInt

/-! ## §1. Constants. -/

def headerFlagSentTime : U16 := 0x8000
def headerFlagCompressed : U16 := 0x4000
def headerSessionMask : U16 := 0x3000
def headerSessionShift : Nat := 12
def headerPeerIdMax : U16 := 0x0FFF
def peerIdUnassigned : U16 := 0xFFFF

def commandFlagAcknowledge : U8 := 0x80
def commandFlagUnsequenced : U8 := 0x40
def commandMask : U8 := 0x0F

def cmdAcknowledge : U8 := 1
def cmdConnect : U8 := 2
def cmdVerifyConnect : U8 := 3
def cmdDisconnect : U8 := 4
def cmdPing : U8 := 5
def cmdSendReliable : U8 := 6
def cmdSendUnreliable : U8 := 7
def cmdSendFragment : U8 := 8
def cmdSendUnsequenced : U8 := 9
def cmdBandwidthLimit : U8 := 10
def cmdThrottleConfigure : U8 := 11
def cmdSendUnreliableFragment : U8 := 12

def channelIdConnection : U8 := 0xFF

def mtuMin : U32 := 576
def mtuMax : U32 := 4096
def mtuDefault : U32 := 1392
def windowSizeMin : U32 := 4096
def windowSizeMax : U32 := 65536
def maxChannels : U32 := 255
def maxCommandsPerPacket : Nat := 32
def maxFragmentCount : U32 := 1048576
def maxPacketSize : Nat := 32 * 1024 * 1024
def reliableWindowSize : U16 := 4096
def freeReliableWindows : U16 := 8

def defaultPingIntervalMs : U32 := 500
def defaultRttMs : U32 := 500
def timeoutMinimumMs : U32 := 5000
def timeoutMaximumMs : U32 := 30000
def timeoutLimit : U32 := 32
def defaultPacketThrottle : U32 := 32
def packetThrottleScale : U32 := 32
def throttleIntervalMs : U32 := 5000
def throttleAccelerationDefault : U32 := 2
def throttleDecelerationDefault : U32 := 2
def bandwidthThrottleIntervalMs : U32 := 1000

/-! ## §2. The datagram header. -/

/-- `ProtocolHeader`: flags(2) | session(2) | peer id(12), and the send time
when the flag announces one. -/
structure ProtocolHeader where
  peerIdRaw : U16
  sentTime : Option U16
  deriving DecidableEq, Repr

namespace ProtocolHeader

def peerId (hdr : ProtocolHeader) : U16 := hdr.peerIdRaw &&& headerPeerIdMax

def sessionId (hdr : ProtocolHeader) : U8 :=
  ((hdr.peerIdRaw &&& headerSessionMask) >>> headerSessionShift).setWidth 8

def isCompressed (hdr : ProtocolHeader) : Bool :=
  hdr.peerIdRaw &&& headerFlagCompressed != 0

/-- `ProtocolHeader::parse`. -/
def parse (buf : Bytes) : Option (ProtocolHeader × Bytes) :=
  if buf.length < 2 then none
  else
    let peerIdRaw := u16At buf 0
    let rest := buf.drop 2
    if peerIdRaw &&& headerFlagSentTime != 0 then
      if rest.length < 2 then none
      else some (⟨peerIdRaw, some (u16At rest 0)⟩, rest.drop 2)
    else some (⟨peerIdRaw, none⟩, rest)

/-- `ProtocolHeader::has_sent_time`. -/
def hasSentTime (hdr : ProtocolHeader) : Bool := hdr.peerIdRaw &&& headerFlagSentTime != 0

/-- `ProtocolHeader::write`. -/
def write (hdr : ProtocolHeader) : Bytes :=
  be16 hdr.peerIdRaw ++ match hdr.sentTime with
    | some t => be16 t
    | none => []

end ProtocolHeader

/-! ## §3. Commands. -/

structure CommandHeader where
  command : U8
  channelId : U8
  reliableSeq : U16
  deriving DecidableEq, Repr

namespace CommandHeader

def commandType (hdr : CommandHeader) : U8 := hdr.command &&& commandMask

def hasAckFlag (hdr : CommandHeader) : Bool :=
  hdr.command &&& commandFlagAcknowledge != 0

/-- `CommandHeader::parse`. -/
def parse (buf : Bytes) : Option (CommandHeader × Bytes) :=
  if buf.length < 4 then none
  else some (⟨u8At buf 0, u8At buf 1, u16At buf 2⟩, buf.drop 4)

end CommandHeader

structure AcknowledgeCmd where
  receivedReliableSeq : U16
  receivedSentTime : U16
  deriving DecidableEq, Repr

structure ConnectCmd where
  outgoingPeerId : U16
  incomingSessionId : U8
  outgoingSessionId : U8
  mtu : U32
  windowSize : U32
  channelCount : U32
  incomingBandwidth : U32
  outgoingBandwidth : U32
  throttleInterval : U32
  throttleAcceleration : U32
  throttleDeceleration : U32
  connectId : U32
  data : U32
  deriving DecidableEq, Repr

structure VerifyConnectCmd where
  outgoingPeerId : U16
  incomingSessionId : U8
  outgoingSessionId : U8
  mtu : U32
  windowSize : U32
  channelCount : U32
  incomingBandwidth : U32
  outgoingBandwidth : U32
  throttleInterval : U32
  throttleAcceleration : U32
  throttleDeceleration : U32
  connectId : U32
  deriving DecidableEq, Repr

structure SendFragmentCmd where
  startSeq : U16
  fragmentCount : U32
  fragmentNumber : U32
  totalLength : U32
  fragmentOffset : U32
  data : Bytes
  deriving DecidableEq, Repr

structure BandwidthLimitCmd where
  incomingBandwidth : U32
  outgoingBandwidth : U32
  deriving DecidableEq, Repr

structure ThrottleConfigureCmd where
  throttleInterval : U32
  throttleAcceleration : U32
  throttleDeceleration : U32
  deriving DecidableEq, Repr

inductive CommandBody where
  | acknowledge (c : AcknowledgeCmd)
  | connect (c : ConnectCmd)
  | verifyConnect (c : VerifyConnectCmd)
  | disconnect (data : U32)
  | ping
  | sendReliable (data : Bytes)
  | sendUnreliable (unreliableSeq : U16) (data : Bytes)
  | sendFragment (c : SendFragmentCmd)
  | sendUnsequenced (unsequencedGroup : U16) (data : Bytes)
  | bandwidthLimit (c : BandwidthLimitCmd)
  | throttleConfigure (c : ThrottleConfigureCmd)
  | sendUnreliableFragment (c : SendFragmentCmd)
  deriving DecidableEq, Repr

structure Command where
  header : CommandHeader
  body : CommandBody
  deriving DecidableEq, Repr

namespace Command

/-- The twelve fields CONNECT and VERIFY_CONNECT share (40 bytes). -/
def parseVerifyConnect (buf : Bytes) : VerifyConnectCmd :=
  { outgoingPeerId := u16At buf 0
    incomingSessionId := u8At buf 2
    outgoingSessionId := u8At buf 3
    mtu := u32At buf 4
    windowSize := u32At buf 8
    channelCount := u32At buf 12
    incomingBandwidth := u32At buf 16
    outgoingBandwidth := u32At buf 20
    throttleInterval := u32At buf 24
    throttleAcceleration := u32At buf 28
    throttleDeceleration := u32At buf 32
    connectId := u32At buf 36 }

def parseConnect (buf : Bytes) : ConnectCmd :=
  { outgoingPeerId := u16At buf 0
    incomingSessionId := u8At buf 2
    outgoingSessionId := u8At buf 3
    mtu := u32At buf 4
    windowSize := u32At buf 8
    channelCount := u32At buf 12
    incomingBandwidth := u32At buf 16
    outgoingBandwidth := u32At buf 20
    throttleInterval := u32At buf 24
    throttleAcceleration := u32At buf 28
    throttleDeceleration := u32At buf 32
    connectId := u32At buf 36
    data := u32At buf 40 }

/-- A `u16` length and that many bytes of payload, after `skip` fixed bytes. -/
def parsePayload (buf : Bytes) (skip dataLength : Nat) : Option (Bytes × Bytes) :=
  let rest := buf.drop skip
  if rest.length < dataLength then none
  else some (rest.take dataLength, rest.drop dataLength)

/-- The body of a command whose header named type `ty`. -/
def parseBody (ty : U8) (buf : Bytes) : Option (CommandBody × Bytes) :=
  if ty = cmdAcknowledge then
    if buf.length < 4 then none
    else some (.acknowledge ⟨u16At buf 0, u16At buf 2⟩, buf.drop 4)
  else if ty = cmdConnect then
    if buf.length < 44 then none
    else some (.connect (parseConnect buf), buf.drop 44)
  else if ty = cmdVerifyConnect then
    if buf.length < 40 then none
    else some (.verifyConnect (parseVerifyConnect buf), buf.drop 40)
  else if ty = cmdDisconnect then
    if buf.length < 4 then none
    else some (.disconnect (u32At buf 0), buf.drop 4)
  else if ty = cmdPing then some (.ping, buf)
  else if ty = cmdSendReliable then
    if buf.length < 2 then none
    else (parsePayload buf 2 (u16At buf 0).toNat).map
      fun (data, rest) => (.sendReliable data, rest)
  else if ty = cmdSendUnreliable then
    if buf.length < 4 then none
    else (parsePayload buf 4 (u16At buf 2).toNat).map
      fun (data, rest) => (.sendUnreliable (u16At buf 0) data, rest)
  else if ty = cmdSendFragment ∨ ty = cmdSendUnreliableFragment then
    if buf.length < 20 then none
    else (parsePayload buf 20 (u16At buf 2).toNat).map fun (data, rest) =>
      let frag : SendFragmentCmd :=
        { startSeq := u16At buf 0
          fragmentCount := u32At buf 4
          fragmentNumber := u32At buf 8
          totalLength := u32At buf 12
          fragmentOffset := u32At buf 16
          data := data }
      (if ty = cmdSendFragment then .sendFragment frag else .sendUnreliableFragment frag, rest)
  else if ty = cmdSendUnsequenced then
    if buf.length < 4 then none
    else (parsePayload buf 4 (u16At buf 2).toNat).map
      fun (data, rest) => (.sendUnsequenced (u16At buf 0) data, rest)
  else if ty = cmdBandwidthLimit then
    if buf.length < 8 then none
    else some (.bandwidthLimit ⟨u32At buf 0, u32At buf 4⟩, buf.drop 8)
  else if ty = cmdThrottleConfigure then
    if buf.length < 12 then none
    else some (.throttleConfigure ⟨u32At buf 0, u32At buf 4, u32At buf 8⟩, buf.drop 12)
  else none

/-- `Command::parse`. -/
def parse (buf : Bytes) : Option (Command × Bytes) := do
  let (hdr, rest) ← CommandHeader.parse buf
  let (body, rest') ← parseBody hdr.commandType rest
  return (⟨hdr, body⟩, rest')

/-- The body bytes `Command::write` puts after the header. -/
def writeBody : CommandBody → Bytes
  | .acknowledge c => be16 c.receivedReliableSeq ++ be16 c.receivedSentTime
  | .connect c =>
      be16 c.outgoingPeerId ++ [c.incomingSessionId] ++ [c.outgoingSessionId] ++ be32 c.mtu
        ++ be32 c.windowSize ++ be32 c.channelCount ++ be32 c.incomingBandwidth
        ++ be32 c.outgoingBandwidth ++ be32 c.throttleInterval ++ be32 c.throttleAcceleration
        ++ be32 c.throttleDeceleration ++ be32 c.connectId ++ be32 c.data
  | .verifyConnect c =>
      be16 c.outgoingPeerId ++ [c.incomingSessionId] ++ [c.outgoingSessionId] ++ be32 c.mtu
        ++ be32 c.windowSize ++ be32 c.channelCount ++ be32 c.incomingBandwidth
        ++ be32 c.outgoingBandwidth ++ be32 c.throttleInterval ++ be32 c.throttleAcceleration
        ++ be32 c.throttleDeceleration ++ be32 c.connectId
  | .disconnect data => be32 data
  | .ping => []
  | .sendReliable data => be16 (BitVec.ofNat 16 data.length) ++ data
  | .sendUnreliable unreliableSeq data =>
      be16 unreliableSeq ++ be16 (BitVec.ofNat 16 data.length) ++ data
  | .sendFragment c | .sendUnreliableFragment c =>
      be16 c.startSeq ++ be16 (BitVec.ofNat 16 c.data.length) ++ be32 c.fragmentCount
        ++ be32 c.fragmentNumber ++ be32 c.totalLength ++ be32 c.fragmentOffset ++ c.data
  | .sendUnsequenced group data =>
      be16 group ++ be16 (BitVec.ofNat 16 data.length) ++ data
  | .bandwidthLimit c => be32 c.incomingBandwidth ++ be32 c.outgoingBandwidth
  | .throttleConfigure c =>
      be32 c.throttleInterval ++ be32 c.throttleAcceleration ++ be32 c.throttleDeceleration

/-- `Command::write`. -/
def write (cmd : Command) : Bytes :=
  [cmd.header.command, cmd.header.channelId] ++ be16 cmd.header.reliableSeq ++ writeBody cmd.body

/-- `Command::byte_size`. -/
def byteSize (cmd : Command) : Nat :=
  4 + match cmd.body with
    | .acknowledge _ | .disconnect _ => 4
    | .connect _ => 44
    | .verifyConnect _ => 40
    | .ping => 0
    | .sendReliable data => 2 + data.length
    | .sendUnreliable _ data | .sendUnsequenced _ data => 4 + data.length
    | .sendFragment c | .sendUnreliableFragment c => 20 + c.data.length
    | .bandwidthLimit _ => 8
    | .throttleConfigure _ => 12

/-! The fields of the two handshake commands are read back as they were written. -/

theorem parseConnect_write (c : ConnectCmd) (rest : Bytes) :
    parseConnect (writeBody (.connect c) ++ rest) = c := by
  simp [parseConnect, writeBody, be16, be32, u16At, u32At, u8At]

theorem parseVerifyConnect_write (c : VerifyConnectCmd) (rest : Bytes) :
    parseVerifyConnect (writeBody (.verifyConnect c) ++ rest) = c := by
  simp [parseVerifyConnect, writeBody, be16, be32, u16At, u32At, u8At]

end Command

/-- `parse_commands`, with the number of commands still allowed. -/
def parseCommandsUpTo : Nat → Bytes → List Command
  | 0, _ => []
  | _ + 1, [] => []
  | n + 1, b :: buf =>
      match Command.parse (b :: buf) with
      | some (cmd, rest) => cmd :: parseCommandsUpTo n rest
      | none => []

/-- `parse_commands`: the loop stops at the end of the buffer, at the first
malformed command, or after `MAX_COMMANDS_PER_PACKET` commands. -/
def parseCommands (buf : Bytes) : List Command :=
  parseCommandsUpTo maxCommandsPerPacket buf

/-! ## §4. CRC-32. -/

/-- One iteration of the inner loop that fills `CRC32_TABLE`. -/
def crc32TableStep (crc : U32) : U32 :=
  if crc &&& 1 != 0 then (crc >>> 1) ^^^ 0xEDB88320 else crc >>> 1

/-- `CRC32_TABLE`. -/
def crc32Table : List U32 :=
  (List.range 256).map fun i => crc32TableStep^[8] (BitVec.ofNat 32 i)

/-- `crc32`. -/
def crc32 (data : Bytes) : U32 :=
  ~~~ data.foldl (fun crc b =>
    (crc >>> 8) ^^^ crc32Table.getD ((crc ^^^ b.setWidth 32) &&& 0xFF).toNat 0) 0xFFFFFFFF

/-! ## §5. Sequence numbers. -/

/-- `seq_lt`: `a` comes before `b` in wrapped 16-bit sequence space. -/
def seqLt (a b : U16) : Bool := decide (0 < (b - a).toInt)

/-- `encode_command` (`src/channel.rs`): a command without the datagram header. -/
def encodeCommand (cmdType flags channelId : U8) (reliableSeq : U16) (body : Bytes) : Bytes :=
  [cmdType ||| flags, channelId] ++ be16 reliableSeq ++ body

end EnetRs
