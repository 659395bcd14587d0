/-
  EnetRs.Protocol.RoundTrip — what is written is what is read.

  A command is well formed when its header names the type of its body and its
  payload's length fits the 16-bit length field.  Written commands parse back
  one after the other; `parse_commands` returns as many of them as its cap
  lets it.

  Main results:
    * `Command.parse_write` — one command, with anything after it.
    * `Command.parse_eq_some` — the way back: a command that was read has the
      bytes that were consumed.
    * `parseCommands_write` — a list of commands: the first 32 come back.
    * `codec_bijection` — all of it.
-/
import EnetRs.Protocol.Wire

namespace EnetRs

open MachineInt

/-! ## §1. Well-formed headers and commands. -/

/-- A header that announces the send time it has comes back from its bytes. -/
theorem ProtocolHeader.parse_write {hdr : ProtocolHeader}
    (hflag : hdr.hasSentTime = hdr.sentTime.isSome) (rest : Bytes) :
    ProtocolHeader.parse (hdr.write ++ rest) = some (hdr, rest) := by
  obtain ⟨raw, sentTime⟩ := hdr
  unfold hasSentTime at hflag
  cases sentTime with
  | none =>
      have hclear : raw &&& headerFlagSentTime = 0#16 := by simpa using hflag
      simp [ProtocolHeader.parse, ProtocolHeader.write, be16, u16At, u8At, hclear]
  | some t =>
      have hset : raw &&& headerFlagSentTime ≠ 0#16 := by simpa using hflag
      simp [ProtocolHeader.parse, ProtocolHeader.write, be16, u16At, u8At, hset]

/-- The header that was read, and what is left, are the bytes it was read from. -/
theorem ProtocolHeader.write_of_parse {buf rest : Bytes} {hdr : ProtocolHeader}
    (hparse : ProtocolHeader.parse buf = some (hdr, rest)) : buf = hdr.write ++ rest := by
  unfold ProtocolHeader.parse at hparse
  split at hparse
  · cases hparse
  · next hlong =>
    have hid : be16 (u16At buf 0) = buf.take 2 := @take_append_be16 buf 0 (by omega)
    simp only at hparse
    split at hparse
    · split at hparse
      · cases hparse
      · next hmore =>
        cases hparse
        have htime : be16 (u16At (buf.drop 2) 0) = (buf.drop 2).take 2 :=
          @take_append_be16 (buf.drop 2) 0 (by omega)
        simp only [ProtocolHeader.write, hid, htime, List.append_assoc, List.take_append_drop]
    · cases hparse
      simp only [ProtocolHeader.write, hid, List.append_nil, List.take_append_drop]

namespace CommandBody

/-- The type a header has to name for this body. -/
def commandType : CommandBody → U8
  | .acknowledge _ => cmdAcknowledge
  | .connect _ => cmdConnect
  | .verifyConnect _ => cmdVerifyConnect
  | .disconnect _ => cmdDisconnect
  | .ping => cmdPing
  | .sendReliable _ => cmdSendReliable
  | .sendUnreliable _ _ => cmdSendUnreliable
  | .sendFragment _ => cmdSendFragment
  | .sendUnsequenced _ _ => cmdSendUnsequenced
  | .bandwidthLimit _ => cmdBandwidthLimit
  | .throttleConfigure _ => cmdThrottleConfigure
  | .sendUnreliableFragment _ => cmdSendUnreliableFragment

/-- The variable-length part of a body. -/
def payload : CommandBody → Bytes
  | .sendReliable data | .sendUnreliable _ data | .sendUnsequenced _ data => data
  | .sendFragment c | .sendUnreliableFragment c => c.data
  | _ => []

end CommandBody

namespace Command

/-- The header names the body's type, and the payload fits its length field. -/
def WellFormed (cmd : Command) : Prop :=
  cmd.header.commandType = cmd.body.commandType ∧ cmd.body.payload.length < 65536

instance (cmd : Command) : Decidable cmd.WellFormed :=
  inferInstanceAs (Decidable (_ ∧ _))

theorem write_length (cmd : Command) : cmd.write.length = cmd.byteSize := by
  obtain ⟨hdr, body⟩ := cmd
  cases body <;> simp [write, writeBody, byteSize] <;> omega

/-! ## §2. One command. -/

/-- The payload of a body comes back, with what follows it. -/
theorem parsePayload_append (data : Bytes) (hdata : data.length < 65536) (rest fields : Bytes) :
    parsePayload (fields ++ data ++ rest) fields.length (BitVec.ofNat 16 data.length).toNat
      = some (data, rest) := by
  have hlen : (BitVec.ofNat 16 data.length).toNat = data.length := by
    rw [BitVec.toNat_ofNat, Nat.mod_eq_of_lt hdata]
  simp [parsePayload, hlen]

/-- The fields of a fragment, read back. -/
theorem fragment_read (c : SendFragmentCmd) (hlen : c.data.length < 65536) (rest : Bytes) :
    u16At (writeBody (.sendFragment c) ++ rest) 2 = BitVec.ofNat 16 c.data.length
      ∧ parsePayload (writeBody (.sendFragment c) ++ rest) 20
          (BitVec.ofNat 16 c.data.length).toNat = some (c.data, rest)
      ∧ (let buf := writeBody (.sendFragment c) ++ rest
        SendFragmentCmd.mk (u16At buf 0) (u32At buf 4) (u32At buf 8) (u32At buf 12) (u32At buf 16)
          c.data) = c := by
  refine ⟨be16_join _, ?_, ?_⟩
  · exact parsePayload_append c.data hlen rest (be16 c.startSeq ++ be16 (BitVec.ofNat 16 c.data.length)
      ++ be32 c.fragmentCount ++ be32 c.fragmentNumber ++ be32 c.totalLength
      ++ be32 c.fragmentOffset)
  · simp [writeBody, be16, be32, u16At, u32At, u8At]

/-- The body of a written command comes back, with what follows it. -/
theorem parseBody_writeBody (b : CommandBody) (hlen : b.payload.length < 65536) (rest : Bytes) :
    parseBody b.commandType (writeBody b ++ rest) = some (b, rest) := by
  cases b with
  | acknowledge c =>
      simp [parseBody, CommandBody.commandType, writeBody, be16, u16At, u8At]
  | connect c =>
      have hsize : (writeBody (.connect c)).length = 44 := by simp [writeBody]
      have hshort : ¬ (writeBody (.connect c) ++ rest).length < 44 := by simp [hsize]
      simp only [parseBody, CommandBody.commandType, if_true, if_neg hshort, List.drop_left' hsize,
        parseConnect_write, if_neg (show ¬ cmdConnect = cmdAcknowledge by decide)]
  | verifyConnect c =>
      have hsize : (writeBody (.verifyConnect c)).length = 40 := by simp [writeBody]
      have hshort : ¬ (writeBody (.verifyConnect c) ++ rest).length < 40 := by simp [hsize]
      simp only [parseBody, CommandBody.commandType, if_true, if_neg hshort, List.drop_left' hsize,
        parseVerifyConnect_write, if_neg (show ¬ cmdVerifyConnect = cmdAcknowledge by decide),
        if_neg (show ¬ cmdVerifyConnect = cmdConnect by decide)]
  | disconnect data =>
      simp [parseBody, CommandBody.commandType, writeBody, be32, u32At, u8At, cmdDisconnect,
        cmdAcknowledge, cmdConnect, cmdVerifyConnect]
  | ping =>
      simp [parseBody, CommandBody.commandType, writeBody, cmdPing, cmdAcknowledge, cmdConnect,
        cmdVerifyConnect, cmdDisconnect]
  | sendReliable data =>
      have hread : u16At (writeBody (.sendReliable data) ++ rest) 0
          = BitVec.ofNat 16 data.length := be16_join _
      have hpay : parsePayload (writeBody (.sendReliable data) ++ rest) 2 _ = some (data, rest) :=
        parsePayload_append data hlen rest (be16 (BitVec.ofNat 16 data.length))
      show (parsePayload _ 2 (u16At _ 0).toNat).map _ = _
      rw [hread, hpay]
      rfl
  | sendUnreliable seq data =>
      have hread : u16At (writeBody (.sendUnreliable seq data) ++ rest) 2
          = BitVec.ofNat 16 data.length := be16_join _
      have hseq : u16At (writeBody (.sendUnreliable seq data) ++ rest) 0 = seq := be16_join _
      have hpay : parsePayload (writeBody (.sendUnreliable seq data) ++ rest) 4 _
          = some (data, rest) :=
        parsePayload_append data hlen rest (be16 seq ++ be16 (BitVec.ofNat 16 data.length))
      show (parsePayload _ 4 (u16At _ 2).toNat).map _ = _
      rw [hread, hpay, hseq]
      rfl
  | sendUnsequenced group data =>
      have hread : u16At (writeBody (.sendUnsequenced group data) ++ rest) 2
          = BitVec.ofNat 16 data.length := be16_join _
      have hgroup : u16At (writeBody (.sendUnsequenced group data) ++ rest) 0 = group :=
        be16_join _
      have hpay : parsePayload (writeBody (.sendUnsequenced group data) ++ rest) 4 _
          = some (data, rest) :=
        parsePayload_append data hlen rest (be16 group ++ be16 (BitVec.ofNat 16 data.length))
      show (parsePayload _ 4 (u16At _ 2).toNat).map _ = _
      rw [hread, hpay, hgroup]
      rfl
  | sendFragment c =>
      obtain ⟨hread, hpay, hfields⟩ := fragment_read c hlen rest
      show (parsePayload _ 20 (u16At _ 2).toNat).map _ = _
      rw [hread, hpay]
      exact congrArg (fun c => some (CommandBody.sendFragment c, rest)) hfields
  | sendUnreliableFragment c =>
      obtain ⟨hread, hpay, hfields⟩ := fragment_read c hlen rest
      have hsame : writeBody (.sendUnreliableFragment c) = writeBody (.sendFragment c) := rfl
      rw [hsame]
      show (parsePayload _ 20 (u16At _ 2).toNat).map _ = _
      rw [hread, hpay]
      exact congrArg (fun c => some (CommandBody.sendUnreliableFragment c, rest)) hfields
  | bandwidthLimit c =>
      have hin : u32At (writeBody (.bandwidthLimit c) ++ rest) 0 = c.incomingBandwidth :=
        be32_join _
      have hout : u32At (writeBody (.bandwidthLimit c) ++ rest) 4 = c.outgoingBandwidth :=
        be32_join _
      show some (CommandBody.bandwidthLimit ⟨u32At _ 0, u32At _ 4⟩, _) = _
      rw [hin, hout]
      rfl
  | throttleConfigure c =>
      have hint : u32At (writeBody (.throttleConfigure c) ++ rest) 0 = c.throttleInterval :=
        be32_join _
      have hacc : u32At (writeBody (.throttleConfigure c) ++ rest) 4 = c.throttleAcceleration :=
        be32_join _
      have hdec : u32At (writeBody (.throttleConfigure c) ++ rest) 8 = c.throttleDeceleration :=
        be32_join _
      show some (CommandBody.throttleConfigure ⟨u32At _ 0, u32At _ 4, u32At _ 8⟩, _) = _
      rw [hint, hacc, hdec]
      rfl

/-- **One command.**  A well-formed command comes back, with what follows it. -/
theorem parse_write {cmd : Command} (hw : cmd.WellFormed) (rest : Bytes) :
    Command.parse (cmd.write ++ rest) = some (cmd, rest) := by
  obtain ⟨hdr, body⟩ := cmd
  have hhdr : CommandHeader.parse (Command.write ⟨hdr, body⟩ ++ rest)
      = some (hdr, writeBody body ++ rest) := by
    simp [CommandHeader.parse, Command.write, be16, u16At, u8At]
  have hbody : parseBody hdr.commandType (writeBody body ++ rest) = some (body, rest) := by
    rw [show hdr.commandType = body.commandType from hw.1]
    exact parseBody_writeBody body hw.2 rest
  simp [Command.parse, hhdr, hbody]

theorem write_ne_nil (cmd : Command) : cmd.write ≠ [] := by
  simp [Command.write]

end Command

/-! ## §3. The way back. -/

namespace Command

/-- A payload that was cut out of the buffer, written back behind its fields. -/
theorem parsePayload_eq_some {buf data rest : Bytes} {skip n : Nat}
    (hp : parsePayload buf skip n = some (data, rest)) :
    buf.take skip ++ data ++ rest = buf ∧ data.length = n := by
  unfold parsePayload at hp
  simp only at hp
  split at hp
  · cases hp
  · next hle =>
    cases hp
    rw [List.append_assoc, List.take_append_drop, List.take_append_drop, List.length_take]
    exact ⟨rfl, Nat.min_eq_left (Nat.le_of_not_lt hle)⟩

/-- The length field of a payload that was read says how long it is. -/
theorem be16_payload_length {data : Bytes} {n : U16} (hlen : data.length = n.toNat) :
    be16 (BitVec.ofNat 16 data.length) = be16 n := by
  rw [hlen, BitVec.ofNat_toNat, BitVec.setWidth_eq]

theorem writeBody_parseVerifyConnect {buf : Bytes} (hlen : 40 ≤ buf.length) :
    writeBody (.verifyConnect (parseVerifyConnect buf)) = buf.take 40 := by
  have hfirst : be16 (u16At buf 0) = buf.take 2 := take_append_be16 (i := 0) (by omega)
  simp only [writeBody, parseVerifyConnect, hfirst]
  rw [take_append_byte (by omega), take_append_byte (by omega)]
  iterate 9 rw [take_append_be32 (by omega)]

theorem writeBody_parseConnect {buf : Bytes} (hlen : 44 ≤ buf.length) :
    writeBody (.connect (parseConnect buf)) = buf.take 44 := by
  have hfirst : be16 (u16At buf 0) = buf.take 2 := take_append_be16 (i := 0) (by omega)
  simp only [writeBody, parseConnect, hfirst]
  rw [take_append_byte (by omega), take_append_byte (by omega)]
  iterate 10 rw [take_append_be32 (by omega)]

/-- The body and the rest that a reader of type `ty` returned are what was in the
buffer: written out again they give its bytes. -/
def ReadsBack (ty : U8) (buf : Bytes) (body : CommandBody) (rest : Bytes) : Prop :=
  writeBody body ++ rest = buf ∧ ty = body.commandType ∧ body.payload.length < 65536

/-- A body of `n` bytes. -/
theorem ReadsBack.fixed {buf : Bytes} {body : CommandBody} (n : Nat)
    (hw : writeBody body = buf.take n) (hpay : body.payload = []) :
    ReadsBack body.commandType buf body (buf.drop n) :=
  ⟨by rw [hw, List.take_append_drop], rfl, by rw [hpay]; decide⟩

/-- A body with a payload behind `n` bytes of fields, one of which is its length. -/
theorem ReadsBack.variable {ty : U8} {buf rest : Bytes} {body : CommandBody}
    (b : Bytes → CommandBody) (n : Nat) (len : U16)
    (hp : (parsePayload buf n len.toNat).map (fun (data, rest) => (b data, rest))
      = some (body, rest))
    (hw : ∀ data : Bytes, be16 (BitVec.ofNat 16 data.length) = be16 len →
      writeBody (b data) = buf.take n ++ data)
    (hpay : ∀ data, (b data).payload = data) (hty : ∀ data, ty = (b data).commandType) :
    ReadsBack ty buf body rest := by
  obtain ⟨⟨data, rest'⟩, hpl, heq⟩ := Option.map_eq_some_iff.mp hp
  cases heq
  obtain ⟨hbuf, hlen⟩ := parsePayload_eq_some hpl
  refine ⟨?_, hty data, ?_⟩
  · rw [hw data (be16_payload_length hlen), hbuf]
  · rw [hpay, hlen]
    exact len.isLt

/-- The bytes of a fragment's fields. -/
theorem writeBody_fragment {buf data : Bytes} (hlen : 20 ≤ buf.length)
    (hdata : be16 (BitVec.ofNat 16 data.length) = be16 (u16At buf 2)) :
    writeBody (.sendFragment ⟨u16At buf 0, u32At buf 4, u32At buf 8, u32At buf 12, u32At buf 16,
      data⟩) = buf.take 20 ++ data := by
  have hfirst : be16 (u16At buf 0) = buf.take 2 := take_append_be16 (i := 0) (by omega)
  simp only [writeBody, hdata, hfirst]
  rw [take_append_be16 (by omega)]
  iterate 4 rw [take_append_be32 (by omega)]

/-- **One body**: what was read is what was there. -/
theorem parseBody_eq_some {ty : U8} {buf rest : Bytes} {body : CommandBody}
    (hp : parseBody ty buf = some (body, rest)) : ReadsBack ty buf body rest := by
  have hfirst : 2 ≤ buf.length → be16 (u16At buf 0) = buf.take 2 :=
    fun hlen => take_append_be16 (i := 0) (by omega)
  have hword : 4 ≤ buf.length → be32 (u32At buf 0) = buf.take 4 :=
    fun hlen => take_append_be32 (i := 0) (by omega)
  unfold parseBody at hp
  by_cases hty : ty = cmdAcknowledge
  · rw [if_pos hty] at hp
    split at hp
    · cases hp
    · cases hp
      rw [hty]
      refine .fixed 4 ?_ rfl
      simp only [writeBody]
      rw [hfirst (by omega), take_append_be16 (by omega)]
  rw [if_neg hty] at hp
  by_cases hty : ty = cmdConnect
  · rw [if_pos hty] at hp
    split at hp
    · cases hp
    · cases hp
      rw [hty]
      exact .fixed 44 (writeBody_parseConnect (by omega)) rfl
  rw [if_neg hty] at hp
  by_cases hty : ty = cmdVerifyConnect
  · rw [if_pos hty] at hp
    split at hp
    · cases hp
    · cases hp
      rw [hty]
      exact .fixed 40 (writeBody_parseVerifyConnect (by omega)) rfl
  rw [if_neg hty] at hp
  by_cases hty : ty = cmdDisconnect
  · rw [if_pos hty] at hp
    split at hp
    · cases hp
    · cases hp
      rw [hty]
      exact .fixed 4 (hword (by omega)) rfl
  rw [if_neg hty] at hp
  by_cases hty : ty = cmdPing
  · rw [if_pos hty] at hp
    cases hp
    rw [hty]
    exact .fixed 0 rfl rfl
  rw [if_neg hty] at hp
  by_cases hty : ty = cmdSendReliable
  · rw [if_pos hty] at hp
    split at hp
    · cases hp
    · refine .variable .sendReliable 2 _ hp (fun data hdata => ?_) (fun _ => rfl) fun _ => hty
      simp only [writeBody, hdata]
      rw [hfirst (by omega)]
  rw [if_neg hty] at hp
  by_cases hty : ty = cmdSendUnreliable
  · rw [if_pos hty] at hp
    split at hp
    · cases hp
    · refine .variable (.sendUnreliable (u16At buf 0)) 4 _ hp (fun data hdata => ?_)
        (fun _ => rfl) fun _ => hty
      simp only [writeBody, hdata]
      rw [hfirst (by omega), take_append_be16 (by omega)]
  rw [if_neg hty] at hp
  by_cases hty : ty = cmdSendFragment ∨ ty = cmdSendUnreliableFragment
  · rw [if_pos hty] at hp
    split at hp
    · cases hp
    · next hlen =>
      by_cases hreliable : ty = cmdSendFragment
      · simp only [if_pos hreliable] at hp
        exact .variable (fun data => .sendFragment ⟨u16At buf 0, u32At buf 4, u32At buf 8,
          u32At buf 12, u32At buf 16, data⟩) 20 _ hp
          (fun data hdata => writeBody_fragment (by omega) hdata) (fun _ => rfl) fun _ => hreliable
      · simp only [if_neg hreliable] at hp
        exact .variable (fun data => .sendUnreliableFragment ⟨u16At buf 0, u32At buf 4, u32At buf 8,
          u32At buf 12, u32At buf 16, data⟩) 20 _ hp
          (fun data hdata => writeBody_fragment (by omega) hdata) (fun _ => rfl)
          fun _ => hty.resolve_left hreliable
  rw [if_neg hty] at hp
  by_cases hty : ty = cmdSendUnsequenced
  · rw [if_pos hty] at hp
    split at hp
    · cases hp
    · refine .variable (.sendUnsequenced (u16At buf 0)) 4 _ hp (fun data hdata => ?_)
        (fun _ => rfl) fun _ => hty
      simp only [writeBody, hdata]
      rw [hfirst (by omega), take_append_be16 (by omega)]
  rw [if_neg hty] at hp
  by_cases hty : ty = cmdBandwidthLimit
  · rw [if_pos hty] at hp
    split at hp
    · cases hp
    · cases hp
      rw [hty]
      refine .fixed 8 ?_ rfl
      simp only [writeBody]
      rw [hword (by omega), take_append_be32 (by omega)]
  rw [if_neg hty] at hp
  by_cases hty : ty = cmdThrottleConfigure
  · rw [if_pos hty] at hp
    split at hp
    · cases hp
    · cases hp
      rw [hty]
      refine .fixed 12 ?_ rfl
      simp only [writeBody]
      rw [hword (by omega), take_append_be32 (by omega), take_append_be32 (by omega)]
  rw [if_neg hty] at hp
  cases hp

/-- **One command, read**: it is well formed, and written out it is the bytes
that were consumed. -/
theorem parse_eq_some {buf rest : Bytes} {cmd : Command}
    (hp : Command.parse buf = some (cmd, rest)) : cmd.write ++ rest = buf ∧ cmd.WellFormed := by
  obtain ⟨⟨hdr, body⟩, hhdr, hp⟩ := Option.bind_eq_some_iff.mp hp
  obtain ⟨⟨b, rest'⟩, hbody, hp⟩ := Option.bind_eq_some_iff.mp hp
  cases hp
  obtain ⟨hwrite, hty, hpay⟩ := parseBody_eq_some hbody
  refine ⟨?_, hty, hpay⟩
  unfold CommandHeader.parse at hhdr
  split at hhdr
  · cases hhdr
  · cases hhdr
    have hbytes : buf.take 0 ++ [u8At buf 0] = buf.take 1 := take_append_byte (by omega)
    have hhead : [u8At buf 0, u8At buf 1] ++ be16 (u16At buf 2) = buf.take 4 := by
      rw [← take_append_be16 (by omega), ← take_append_byte (by omega), ← hbytes]
      simp
    rw [Command.write, List.append_assoc, hwrite, hhead, List.take_append_drop]

/-- The low bits of the first byte tell the type. -/
theorem commandType_of_parse {buf rest : Bytes} {cmd : Command}
    (hp : Command.parse buf = some (cmd, rest)) :
    buf.head?.map (· &&& 0x0F) = some cmd.header.commandType := by
  rw [← (parse_eq_some hp).1]
  rfl

end Command

/-! ## §4. Many commands. -/

/-- The first command of a buffer. -/
theorem head?_parseCommands (buf : Bytes) :
    (parseCommands buf).head? = (Command.parse buf).map (·.1) := by
  cases buf with
  | nil => rfl
  | cons b buf =>
      show (parseCommandsUpTo (31 + 1) (b :: buf)).head? = _
      rw [parseCommandsUpTo]
      cases Command.parse (b :: buf) with
      | none => rfl
      | some parsed => rfl

/-- The first `n` of the written commands come back. -/
theorem parseCommandsUpTo_write (n : Nat) {cmds : List Command}
    (hw : ∀ cmd ∈ cmds, cmd.WellFormed) :
    parseCommandsUpTo n (cmds.map Command.write).flatten = cmds.take n := by
  induction n generalizing cmds with
  | zero => simp [parseCommandsUpTo]
  | succ n ih =>
      cases cmds with
      | nil => simp [parseCommandsUpTo]
      | cons cmd cmds =>
          have hparse := Command.parse_write (hw cmd List.mem_cons_self)
            (cmds.map Command.write).flatten
          have hrest := ih fun c hc => hw c (List.mem_cons_of_mem _ hc)
          obtain ⟨b, bs, hb⟩ := List.exists_cons_of_ne_nil cmd.write_ne_nil
          simp only [List.map_cons, List.flatten_cons, hb, List.cons_append] at hparse ⊢
          simp only [parseCommandsUpTo, hparse, hrest, List.take_succ_cons]

/-- Written commands come back in front of what follows them. -/
theorem parseCommandsUpTo_append (n : Nat) {cmds : List Command}
    (hw : ∀ cmd ∈ cmds, cmd.WellFormed) (rest : Bytes) :
    parseCommandsUpTo (cmds.length + n) ((cmds.map Command.write).flatten ++ rest)
      = cmds ++ parseCommandsUpTo n rest := by
  induction cmds with
  | nil => simp
  | cons cmd cmds ih =>
      have hparse := Command.parse_write (hw cmd List.mem_cons_self)
        ((cmds.map Command.write).flatten ++ rest)
      have hrest := ih fun c hc => hw c (List.mem_cons_of_mem _ hc)
      have hfuel : (cmd :: cmds).length + n = cmds.length + n + 1 := by
        rw [List.length_cons]
        omega
      obtain ⟨b, bs, hb⟩ := List.exists_cons_of_ne_nil cmd.write_ne_nil
      simp only [List.map_cons, List.flatten_cons, hb, List.cons_append, List.append_assoc]
        at hparse ⊢
      rw [hfuel]
      simp only [parseCommandsUpTo, hparse, hrest]

theorem parseCommandsUpTo_length_le (n : Nat) (buf : Bytes) :
    (parseCommandsUpTo n buf).length ≤ n := by
  induction n generalizing buf with
  | zero => simp [parseCommandsUpTo]
  | succ n ih =>
      cases buf with
      | nil => simp [parseCommandsUpTo]
      | cons b buf =>
          simp only [parseCommandsUpTo]
          split
          · exact Nat.succ_le_succ (ih _)
          · exact Nat.zero_le _

/-- Every command that is read is well formed. -/
theorem parseCommandsUpTo_wellFormed (n : Nat) (buf : Bytes) :
    ∀ cmd ∈ parseCommandsUpTo n buf, cmd.WellFormed := by
  induction n generalizing buf with
  | zero => exact nofun
  | succ n ih =>
      cases buf with
      | nil => exact nofun
      | cons b buf =>
          simp only [parseCommandsUpTo]
          split
          · next cmd rest hp =>
            exact List.forall_mem_cons.mpr ⟨(Command.parse_eq_some hp).2, ih rest⟩
          · exact nofun

/-- **A list of commands**: the first 32 of them come back. -/
theorem parseCommands_write {cmds : List Command} (hw : ∀ cmd ∈ cmds, cmd.WellFormed) :
    parseCommands (cmds.map Command.write).flatten = cmds.take maxCommandsPerPacket :=
  parseCommandsUpTo_write _ hw

/-- **The codec is a bijection on its image, both ways and in streams.**  A
well-formed command comes back from its bytes, whatever follows, and `byte_size`
counts them; a command that was read is well formed and its bytes are the ones
that were consumed; up to 32 commands come back in front of any tail; no byte
string gives more than 32. -/
theorem codec_bijection :
    (∀ (cmd : Command) (rest : Bytes), cmd.WellFormed →
        Command.parse (cmd.write ++ rest) = some (cmd, rest) ∧ cmd.byteSize = cmd.write.length)
      ∧ (∀ (buf rest : Bytes) (cmd : Command), Command.parse buf = some (cmd, rest) →
        cmd.write ++ rest = buf ∧ cmd.WellFormed)
      ∧ (∀ (cmds : List Command) (rest : Bytes), cmds.length ≤ 32 →
        (∀ cmd ∈ cmds, cmd.WellFormed) →
        cmds <+: parseCommands ((cmds.map Command.write).flatten ++ rest))
      ∧ ∀ buf : Bytes, (parseCommands buf).length ≤ 32 := by
  refine ⟨fun cmd rest hw => ⟨Command.parse_write hw rest, cmd.write_length.symm⟩,
    fun buf rest cmd hp => Command.parse_eq_some hp, fun cmds rest hlen hw => ?_,
    parseCommandsUpTo_length_le maxCommandsPerPacket⟩
  have hcap : maxCommandsPerPacket = cmds.length + (32 - cmds.length) :=
    (Nat.add_sub_cancel' hlen).symm
  rw [parseCommands, hcap, parseCommandsUpTo_append _ hw]
  exact List.prefix_append _ _

end EnetRs
