/-
  EnetRs.Protocol.Checked — the parsers with every access checked.

  The readers of `src/protocol.rs` once more, with each index and slice of the
  source as an operation that can fail: `none` is a panic.  A parser that
  rejects its input returns `some none`.

  Main results:
    * `parseBody_eq`, `Command.parse_eq`, `parseCommands_eq` — whatever the
      bytes are, the parsers do not panic and compute what `Protocol.Wire` says.
    * `crc32_eq` — the table is never left.
-/
import EnetRs.Lib.Panic
import EnetRs.Protocol.Wire

namespace EnetRs.Checked

open MachineInt Panic

/-! ## §1. Words. -/

/-- `u16::from_be_bytes([buf[i], buf[i + 1]])`. -/
def readU16 (buf : Bytes) (i : Nat) : Option U16 := do
  let a ← index buf i
  let b ← index buf (i + 1)
  return a ++ b

/-- `u32::from_be_bytes([buf[i], …, buf[i + 3]])`. -/
def readU32 (buf : Bytes) (i : Nat) : Option U32 := do
  let a ← index buf i
  let b ← index buf (i + 1)
  let c ← index buf (i + 2)
  let d ← index buf (i + 3)
  return a ++ b ++ c ++ d

section Words

variable {buf : Bytes} {i : Nat}

theorem index_u8 (hlt : i < buf.length) : index buf i = some (u8At buf i) := index_of_lt hlt 0

theorem readU16_eq (hlt : i + 1 < buf.length) : readU16 buf i = some (u16At buf i) := by
  have h₀ : i < buf.length := by omega
  simp only [readU16, index_u8 hlt, index_u8 h₀]
  rfl

theorem readU32_eq (hlt : i + 3 < buf.length) : readU32 buf i = some (u32At buf i) := by
  have h₀ : i < buf.length := by omega
  have h₁ : i + 1 < buf.length := by omega
  have h₂ : i + 2 < buf.length := by omega
  simp only [readU32, index_u8 hlt, index_u8 h₀, index_u8 h₁, index_u8 h₂]
  rfl

end Words

/-! ## §2. Headers. -/

/-- `ProtocolHeader::parse`. -/
def ProtocolHeader.parse (buf : Bytes) : Option (Option (ProtocolHeader × Bytes)) :=
  if buf.length < 2 then some none
  else do
    let peerIdRaw ← readU16 buf 0
    let rest ← sliceFrom buf 2
    if peerIdRaw &&& headerFlagSentTime != 0 then
      if rest.length < 2 then return none
      else
        let t ← readU16 rest 0
        let rest ← sliceFrom rest 2
        return some (⟨peerIdRaw, some t⟩, rest)
    else return some (⟨peerIdRaw, none⟩, rest)

/-- `CommandHeader::parse`. -/
def CommandHeader.parse (buf : Bytes) : Option (Option (CommandHeader × Bytes)) :=
  if buf.length < 4 then some none
  else do
    let command ← index buf 0
    let channelId ← index buf 1
    let reliableSeq ← readU16 buf 2
    let rest ← sliceFrom buf 4
    return some (⟨command, channelId, reliableSeq⟩, rest)

theorem ProtocolHeader.parse_eq (buf : Bytes) :
    ProtocolHeader.parse buf = some (EnetRs.ProtocolHeader.parse buf) := by
  refine ite_eq_some (fun _ => rfl) fun hlen => ?_
  simp (disch := omega) only [readU16_eq, sliceFrom_of_le, Option.bind_eq_bind, Option.bind_some]
  exact ite_eq_some (fun _ => ite_eq_some (fun _ => rfl) fun _ => rfl) fun _ => rfl

theorem CommandHeader.parse_eq (buf : Bytes) :
    CommandHeader.parse buf = some (EnetRs.CommandHeader.parse buf) := by
  refine ite_eq_some (fun _ => rfl) fun hlen => ?_
  simp (disch := omega) only [index_u8, readU16_eq, sliceFrom_of_le, Option.bind_eq_bind,
    Option.bind_some]
  rfl

/-! ## §3. Commands. -/

/-- `*buf = &buf[skip..]`, then the payload: `&buf[..data_length]`, and what
follows it. -/
def parsePayload (buf : Bytes) (skip dataLength : Nat) : Option (Option (Bytes × Bytes)) := do
  let rest ← sliceFrom buf skip
  if rest.length < dataLength then return none
  else
    let data ← sliceTo rest dataLength
    let rest ← sliceFrom rest dataLength
    return some (data, rest)

/-- The body of `Command::parse` for a header that named type `ty`. -/
def parseBody (ty : U8) (buf : Bytes) : Option (Option (CommandBody × Bytes)) :=
  if ty = cmdAcknowledge then
    if buf.length < 4 then some none
    else do
      let receivedReliableSeq ← readU16 buf 0
      let receivedSentTime ← readU16 buf 2
      let rest ← sliceFrom buf 4
      return some (.acknowledge ⟨receivedReliableSeq, receivedSentTime⟩, rest)
  else if ty = cmdConnect then
    if buf.length < 44 then some none
    else do
      let outgoingPeerId ← readU16 buf 0
      let incomingSessionId ← index buf 2
      let outgoingSessionId ← index buf 3
      let mtu ← readU32 buf 4
      let windowSize ← readU32 buf 8
      let channelCount ← readU32 buf 12
      let incomingBandwidth ← readU32 buf 16
      let outgoingBandwidth ← readU32 buf 20
      let throttleInterval ← readU32 buf 24
      let throttleAcceleration ← readU32 buf 28
      let throttleDeceleration ← readU32 buf 32
      let connectId ← readU32 buf 36
      let data ← readU32 buf 40
      let rest ← sliceFrom buf 44
      return some (.connect
        { outgoingPeerId, incomingSessionId, outgoingSessionId, mtu, windowSize, channelCount,
          incomingBandwidth, outgoingBandwidth, throttleInterval, throttleAcceleration,
          throttleDeceleration, connectId, data }, rest)
  else if ty = cmdVerifyConnect then
    if buf.length < 40 then some none
    else do
      let outgoingPeerId ← readU16 buf 0
      let incomingSessionId ← index buf 2
      let outgoingSessionId ← index buf 3
      let mtu ← readU32 buf 4
      let windowSize ← readU32 buf 8
      let channelCount ← readU32 buf 12
      let incomingBandwidth ← readU32 buf 16
      let outgoingBandwidth ← readU32 buf 20
      let throttleInterval ← readU32 buf 24
      let throttleAcceleration ← readU32 buf 28
      let throttleDeceleration ← readU32 buf 32
      let connectId ← readU32 buf 36
      let rest ← sliceFrom buf 40
      return some (.verifyConnect
        { outgoingPeerId, incomingSessionId, outgoingSessionId, mtu, windowSize, channelCount,
          incomingBandwidth, outgoingBandwidth, throttleInterval, throttleAcceleration,
          throttleDeceleration, connectId }, rest)
  else if ty = cmdDisconnect then
    if buf.length < 4 then some none
    else do
      let data ← readU32 buf 0
      let rest ← sliceFrom buf 4
      return some (.disconnect data, rest)
  else if ty = cmdPing then some (some (.ping, buf))
  else if ty = cmdSendReliable then
    if buf.length < 2 then some none
    else do
      let dataLength ← readU16 buf 0
      let parsed ← parsePayload buf 2 dataLength.toNat
      return parsed.map fun (data, rest) => (.sendReliable data, rest)
  else if ty = cmdSendUnreliable then
    if buf.length < 4 then some none
    else do
      let unreliableSeq ← readU16 buf 0
      let dataLength ← readU16 buf 2
      let parsed ← parsePayload buf 4 dataLength.toNat
      return parsed.map fun (data, rest) => (.sendUnreliable unreliableSeq data, rest)
  else if ty = cmdSendFragment ∨ ty = cmdSendUnreliableFragment then
    if buf.length < 20 then some none
    else do
      let startSeq ← readU16 buf 0
      let dataLength ← readU16 buf 2
      let fragmentCount ← readU32 buf 4
      let fragmentNumber ← readU32 buf 8
      let totalLength ← readU32 buf 12
      let fragmentOffset ← readU32 buf 16
      let parsed ← parsePayload buf 20 dataLength.toNat
      return parsed.map fun (data, rest) =>
        let frag : SendFragmentCmd :=
          { startSeq, fragmentCount, fragmentNumber, totalLength, fragmentOffset, data }
        (if ty = cmdSendFragment then .sendFragment frag else .sendUnreliableFragment frag, rest)
  else if ty = cmdSendUnsequenced then
    if buf.length < 4 then some none
    else do
      let unsequencedGroup ← readU16 buf 0
      let dataLength ← readU16 buf 2
      let parsed ← parsePayload buf 4 dataLength.toNat
      return parsed.map fun (data, rest) => (.sendUnsequenced unsequencedGroup data, rest)
  else if ty = cmdBandwidthLimit then
    if buf.length < 8 then some none
    else do
      let incomingBandwidth ← readU32 buf 0
      let outgoingBandwidth ← readU32 buf 4
      let rest ← sliceFrom buf 8
      return some (.bandwidthLimit ⟨incomingBandwidth, outgoingBandwidth⟩, rest)
  else if ty = cmdThrottleConfigure then
    if buf.length < 12 then some none
    else do
      let throttleInterval ← readU32 buf 0
      let throttleAcceleration ← readU32 buf 4
      let throttleDeceleration ← readU32 buf 8
      let rest ← sliceFrom buf 12
      return some (.throttleConfigure
        ⟨throttleInterval, throttleAcceleration, throttleDeceleration⟩, rest)
  else some none

/-- `Command::parse`. -/
def Command.parse (buf : Bytes) : Option (Option (Command × Bytes)) := do
  match ← CommandHeader.parse buf with
  | none => return none
  | some (hdr, rest) =>
      match ← parseBody hdr.commandType rest with
      | none => return none
      | some (body, rest') => return some (⟨hdr, body⟩, rest')

/-- `parse_commands`, with the number of commands still allowed. -/
def parseCommandsUpTo : Nat → Bytes → Option (List Command)
  | 0, _ => some []
  | _ + 1, [] => some []
  | n + 1, b :: buf => do
      match ← Command.parse (b :: buf) with
      | some (cmd, rest) =>
          let cmds ← parseCommandsUpTo n rest
          return cmd :: cmds
      | none => return []

/-- `parse_commands`. -/
def parseCommands (buf : Bytes) : Option (List Command) :=
  parseCommandsUpTo maxCommandsPerPacket buf

theorem parsePayload_eq {buf : Bytes} {skip : Nat} (hskip : skip ≤ buf.length) (dataLength : Nat) :
    parsePayload buf skip dataLength = some (EnetRs.Command.parsePayload buf skip dataLength) := by
  simp only [parsePayload, sliceFrom_of_le hskip, Option.bind_eq_bind, Option.bind_some]
  refine ite_eq_some (fun _ => rfl) fun hlen => ?_
  simp (disch := omega) only [sliceTo_of_le, sliceFrom_of_le, Option.bind_some]
  rfl

/-- **The body of a command**: every read is behind its length check. -/
theorem parseBody_eq (ty : U8) (buf : Bytes) :
    parseBody ty buf = some (EnetRs.Command.parseBody ty buf) := by
  refine ite_eq_some (fun _ => ite_eq_some (fun _ => rfl) fun hlen => ?ack) fun _ =>
    ite_eq_some (fun _ => ite_eq_some (fun _ => rfl) fun hlen => ?connect) fun _ =>
    ite_eq_some (fun _ => ite_eq_some (fun _ => rfl) fun hlen => ?verify) fun _ =>
    ite_eq_some (fun _ => ite_eq_some (fun _ => rfl) fun hlen => ?disconnect) fun _ =>
    ite_eq_some (fun _ => rfl) fun _ =>
    ite_eq_some (fun _ => ite_eq_some (fun _ => rfl) fun hlen => ?reliable) fun _ =>
    ite_eq_some (fun _ => ite_eq_some (fun _ => rfl) fun hlen => ?unreliable) fun _ =>
    ite_eq_some (fun _ => ite_eq_some (fun _ => rfl) fun hlen => ?fragment) fun _ =>
    ite_eq_some (fun _ => ite_eq_some (fun _ => rfl) fun hlen => ?unsequenced) fun _ =>
    ite_eq_some (fun _ => ite_eq_some (fun _ => rfl) fun hlen => ?bandwidth) fun _ =>
    ite_eq_some (fun _ => ite_eq_some (fun _ => rfl) fun hlen => ?throttle) fun _ => rfl
  all_goals
    simp (disch := omega) only [index_u8, readU16_eq, readU32_eq, sliceFrom_of_le, parsePayload_eq,
      Option.bind_eq_bind, Option.bind_some]
    rfl

theorem Command.parse_eq (buf : Bytes) : Command.parse buf = some (EnetRs.Command.parse buf) := by
  unfold Command.parse EnetRs.Command.parse
  rw [CommandHeader.parse_eq]
  cases EnetRs.CommandHeader.parse buf with
  | none => rfl
  | some parsed =>
      obtain ⟨hdr, rest⟩ := parsed
      simp only [Option.bind_eq_bind, Option.bind_some, parseBody_eq]
      cases EnetRs.Command.parseBody hdr.commandType rest <;> rfl

theorem parseCommandsUpTo_eq (n : Nat) :
    ∀ buf : Bytes, parseCommandsUpTo n buf = some (EnetRs.parseCommandsUpTo n buf) := by
  induction n with
  | zero => exact fun _ => rfl
  | succ n ih =>
      intro buf
      cases buf with
      | nil => rfl
      | cons b buf =>
          rw [parseCommandsUpTo, EnetRs.parseCommandsUpTo, Command.parse_eq]
          cases EnetRs.Command.parse (b :: buf) with
          | none => rfl
          | some parsed =>
              simp only [Option.bind_eq_bind, Option.bind_some, ih]
              rfl

theorem parseCommands_eq (buf : Bytes) : parseCommands buf = some (EnetRs.parseCommands buf) :=
  parseCommandsUpTo_eq maxCommandsPerPacket buf

/-! ## §4. CRC-32. -/

/-- `crc32`: the table is indexed with the low byte. -/
def crc32 (data : Bytes) : Option U32 := do
  let crc ← data.foldlM (fun (crc : U32) b => do
    let entry ← index crc32Table ((crc ^^^ b.setWidth 32) &&& 0xFF).toNat
    return (crc >>> 8) ^^^ entry) 0xFFFFFFFF
  return ~~~ crc

theorem crc32_eq (data : Bytes) : crc32 data = some (EnetRs.crc32 data) := by
  have hstep : ∀ (crc : U32) (b : U8), True →
      (do
        let entry ← index crc32Table ((crc ^^^ b.setWidth 32) &&& 0xFF).toNat
        return (crc >>> 8) ^^^ entry)
        = some ((crc >>> 8) ^^^ crc32Table.getD ((crc ^^^ b.setWidth 32) &&& 0xFF).toNat 0)
        ∧ True := by
    intro crc b _
    have hlt : ((crc ^^^ b.setWidth 32) &&& 0xFF).toNat < crc32Table.length := by
      rw [crc32Table, List.length_map, List.length_range, BitVec.toNat_and]
      exact Nat.lt_of_le_of_lt Nat.and_le_right (by decide)
    rw [index_of_lt hlt 0]
    exact ⟨rfl, trivial⟩
  rw [crc32, foldlM_of_step (I := fun _ => True) hstep data _ trivial]
  rfl

end EnetRs.Checked
