/-
  EnetRs.Exchange.Datagram — from `make_datagram` to the receiver's parser.

  The first half follows one datagram: what `make_datagram` packs into the
  header word and behind it is what `on_datagram` reads.  The second half
  follows a list of commands through `flush_batch`, which cuts it by bytes
  only, into the receiver's `parse_commands`, which stops after 32 commands:
  `flushed_not_parsed` is a list of small commands of which the receiver
  misses one.

  Main results:
    * `datagram_roundtrip` — a datagram of at most 32 commands is read back.
    * `flushBatch_partitions` — `flush_batch` cuts its list into maximal groups.
    * `flushed_parsed_iff` — a flushed list is read back exactly when no
      datagram that the byte limit allows takes more than 32 commands.
-/
import EnetRs.Host.Run
import EnetRs.Host.Slots
import EnetRs.Protocol.RoundTrip
import EnetRs.Lib.Packing
import Mathlib.Tactic.IntervalCases

namespace EnetRs

open MachineInt

/-! ## §1. The header. -/

namespace PeerEntry

/-- The header `make_datagram` writes for this entry. -/
def datagramHeader (p : PeerEntry) (nowMs : U32) : ProtocolHeader :=
  { peerIdRaw := headerFlagSentTime
      ||| ((p.outgoingSessionId.setWidth 16 &&& 0x3) <<< headerSessionShift)
      ||| (p.outgoingPeerId &&& 0x0FFF)
    sentTime := some (nowMs.setWidth 16) }

variable (p : PeerEntry) (nowMs : U32)

/-! The four parts of the header word do not overlap. -/

theorem datagramHeader_sentTime :
    (p.datagramHeader nowMs).peerIdRaw &&& headerFlagSentTime = headerFlagSentTime := by
  ext i hi
  simp only [datagramHeader, headerFlagSentTime, headerSessionShift]
  interval_cases i <;> simp

theorem datagramHeader_isCompressed : (p.datagramHeader nowMs).isCompressed = false := by
  have hclear : (p.datagramHeader nowMs).peerIdRaw &&& headerFlagCompressed = 0 := by
    ext i hi
    simp only [datagramHeader, headerFlagSentTime, headerSessionShift, headerFlagCompressed]
    interval_cases i <;> simp
  simp [ProtocolHeader.isCompressed, hclear]

theorem datagramHeader_peerId : (p.datagramHeader nowMs).peerId = p.outgoingPeerId &&& 0x0FFF := by
  ext i hi
  simp only [ProtocolHeader.peerId, datagramHeader, headerFlagSentTime, headerSessionShift,
    headerPeerIdMax]
  interval_cases i <;> simp

theorem datagramHeader_sessionId : (p.datagramHeader nowMs).sessionId = p.outgoingSessionId &&& 0x3 := by
  ext i hi
  simp only [ProtocolHeader.sessionId, datagramHeader, headerFlagSentTime, headerSessionShift,
    headerSessionMask]
  interval_cases i <;> simp

theorem datagramHeader_peerId_toNat :
    (p.datagramHeader nowMs).peerId.toNat = p.outgoingPeerId.toNat % 2 ^ 12 := by
  rw [datagramHeader_peerId, BitVec.toNat_and]
  exact Nat.and_two_pow_sub_one_eq_mod p.outgoingPeerId.toNat 12

theorem datagramHeader_sessionId_toNat :
    (p.datagramHeader nowMs).sessionId.toNat = p.outgoingSessionId.toNat % 4 := by
  rw [datagramHeader_sessionId, BitVec.toNat_and]
  exact Nat.and_two_pow_sub_one_eq_mod p.outgoingSessionId.toNat 2

end PeerEntry

/-! ## §2. One datagram, built and read. -/

namespace PeerEntry

/-- The header bytes of a datagram. -/
def headerBytes (p : PeerEntry) (nowMs : U32) : Bytes :=
  be16 (p.datagramHeader nowMs).peerIdRaw ++ be16 (nowMs.setWidth 16)

/-- The checksum field, if the host uses one. -/
def checksumBytes (p : PeerEntry) (useChecksum : Bool) (cmds : List Bytes) (nowMs : U32) : Bytes :=
  if useChecksum then be32 (crc32 (p.headerBytes nowMs ++ be32 p.connectId ++ cmds.flatten)) else []

end PeerEntry

namespace HostTask

variable {h : HostTask} {p : PeerEntry} {useChecksum : Bool} {cmds : List Bytes} {nowMs : U32}

theorem makeDatagram_eq (useChecksum : Bool) (p : PeerEntry) (cmds : List Bytes) (nowMs : U32) :
    makeDatagram useChecksum p cmds nowMs
      = p.headerBytes nowMs ++ (p.checksumBytes useChecksum cmds nowMs ++ cmds.flatten) := by
  cases useChecksum
  · rfl
  · simp [makeDatagram, PeerEntry.headerBytes, PeerEntry.checksumBytes, PeerEntry.datagramHeader]

/-- The receiver reads the header that was written. -/
theorem parse_makeDatagram :
    ProtocolHeader.parse (makeDatagram useChecksum p cmds nowMs)
      = some (p.datagramHeader nowMs, p.checksumBytes useChecksum cmds nowMs ++ cmds.flatten) := by
  have hflag : ((p.datagramHeader nowMs).peerIdRaw &&& headerFlagSentTime != 0) = true := by
    rw [PeerEntry.datagramHeader_sentTime]
    rfl
  rw [makeDatagram_eq]
  generalize p.checksumBytes useChecksum cmds nowMs ++ cmds.flatten = rest
  simp only [ProtocolHeader.parse, PeerEntry.headerBytes, be16, List.cons_append, List.nil_append,
    u16At, u8At, List.getD_cons_zero, List.getD_cons_succ, be16_join, List.drop_succ_cons,
    List.drop_zero, hflag, if_true, List.length_cons]
  rw [if_neg (by omega), if_neg (by omega)]
  rfl

/-- The command region of a datagram. -/
theorem drop_makeDatagram :
    (makeDatagram useChecksum p cmds nowMs).drop (hdrOverhead useChecksum) = cmds.flatten := by
  rw [makeDatagram_eq, ← List.append_assoc]
  exact List.drop_left' (by cases useChecksum <;> rfl)

theorem makeDatagram_length (useChecksum : Bool) (p : PeerEntry) (cmds : List Bytes) (nowMs : U32) :
    (makeDatagram useChecksum p cmds nowMs).length
      = hdrOverhead useChecksum + cmds.flatten.length := by
  rw [makeDatagram_eq, ← List.append_assoc, List.length_append]
  congr 1
  cases useChecksum <;> rfl

/-- The seed the receiver computes the checksum with. -/
def seedOf (h : HostTask) (key : Option PeerKey) : U32 :=
  ((key.bind h.peer).map (·.connectId)).getD 0

/-- What the checksum test of `on_datagram` compares, for a datagram of this
crate. -/
theorem checkedPayload_makeDatagram (key : Option PeerKey) (hck : h.useChecksum = useChecksum) :
    h.checkedPayload (makeDatagram useChecksum p cmds nowMs)
        (p.checksumBytes useChecksum cmds nowMs ++ cmds.flatten) key
      = if useChecksum = true
          ∧ crc32 (p.headerBytes nowMs ++ be32 (h.seedOf key) ++ cmds.flatten)
            ≠ crc32 (p.headerBytes nowMs ++ be32 p.connectId ++ cmds.flatten) then none
        else some cmds.flatten := by
  rw [makeDatagram_eq]
  cases useChecksum with
  | false => simp [checkedPayload, hck, PeerEntry.checksumBytes]
  | true =>
      generalize hc : crc32 (p.headerBytes nowMs ++ be32 p.connectId ++ cmds.flatten) = ck
      have hbytes : p.checksumBytes true cmds nowMs = be32 ck := by
        rw [PeerEntry.checksumBytes, if_pos rfl, hc]
      have hstored : u32At (be32 ck ++ cmds.flatten) 0 = ck := be32_join ck
      have hlong : ¬ (be32 ck ++ cmds.flatten).length < 4 := by
        rw [List.length_append, be32_length]
        omega
      have hdrop : (be32 ck ++ cmds.flatten).drop 4 = cmds.flatten := List.drop_left' (be32_length ck)
      have hhead : (p.headerBytes nowMs ++ (be32 ck ++ cmds.flatten)).take
          ((p.headerBytes nowMs ++ (be32 ck ++ cmds.flatten)).length
            - (be32 ck ++ cmds.flatten).length) = p.headerBytes nowMs := by
        rw [List.length_append, Nat.add_sub_cancel]
        exact List.take_left
      rw [hbytes]
      simp only [checkedPayload, hck, if_true, if_neg hlong, hstored, hdrop, hhead, true_and]
      rfl

/-- The commands of an accepted datagram are parsed from some bytes of it. -/
theorem acceptDatagram_cmds {raw : Bytes} {src : SocketAddr} {a : Accepted}
    (ha : h.acceptDatagram raw src = some a) : ∃ payload, a.cmds = parseCommands payload := by
  unfold acceptDatagram at ha
  split at ha
  · cases ha
  · split at ha
    · cases ha
    · simp only at ha
      split at ha
      · cases ha
      · split at ha
        · cases ha
        · next payload _ =>
          cases ha
          exact ⟨payload, rfl⟩

/-- Whatever makes a host with the same checksum setting accept a datagram, it
parses what was put in. -/
theorem acceptDatagram_makeDatagram {src : SocketAddr} {a : Accepted}
    (ha : h.acceptDatagram (makeDatagram h.useChecksum p cmds nowMs) src = some a) :
    a.cmds = parseCommands cmds.flatten := by
  simp only [acceptDatagram, parse_makeDatagram, p.datagramHeader_isCompressed nowMs,
    Bool.false_eq_true, if_false, checkedPayload_makeDatagram _ rfl] at ha
  split at ha
  · cases ha
  · split at ha
    · cases ha
    · next hck =>
      split at hck
      · cases hck
      · cases hck
        cases ha
        rfl

/-- The session check, for a datagram of this crate at the entry `q`. -/
theorem sessionOk_of_session {q : PeerEntry} {hdr : ProtocolHeader} {key : Option PeerKey}
    (hq : key.bind h.peer = some q)
    (hs : q.incomingSessionId = 0xFF ∨ hdr.sessionId = q.incomingSessionId) (slice : Bytes) :
    h.sessionOk hdr key slice = true := by
  unfold sessionOk
  split
  · rfl
  · rcases hs with hs | hs <;> simp [hq, hs]

/-- **Datagram round trip.**  Of a datagram that `make_datagram` builds from at
most 32 well-formed commands, `on_datagram` reads back the header fields and
exactly these commands, at a host with the same checksum setting where the
header leads to an entry with the same connect id and a session id that is
unset or the sender's. -/
theorem datagram_roundtrip (h : HostTask) (p q : PeerEntry) (nowMs : U32) (cmds : List Command)
    (src : SocketAddr) (k : PeerKey) (hw : ∀ cmd ∈ cmds, cmd.WellFormed)
    (hlen : cmds.length ≤ maxCommandsPerPacket)
    (hk : h.resolveKey (p.datagramHeader nowMs) src = some k) (hq : h.peer k = some q)
    (hid : q.connectId = p.connectId)
    (hs : q.incomingSessionId = 0xFF
      ∨ q.incomingSessionId.toNat = p.outgoingSessionId.toNat % 4) :
    ∃ hdr slice t,
      ProtocolHeader.parse (makeDatagram h.useChecksum p (cmds.map Command.write) nowMs)
          = some (hdr, slice)
        ∧ hdr.isCompressed = false
        ∧ hdr.peerId.toNat = p.outgoingPeerId.toNat % 2 ^ 12
        ∧ hdr.sessionId.toNat = p.outgoingSessionId.toNat % 4
        ∧ hdr.sentTime = some t ∧ t.toNat = nowMs.toNat % 2 ^ 16
        ∧ h.acceptDatagram (makeDatagram h.useChecksum p (cmds.map Command.write) nowMs) src
          = some { key := some k, sentTime := some t, cmds := cmds } := by
  refine ⟨p.datagramHeader nowMs, _, nowMs.setWidth 16, parse_makeDatagram,
    p.datagramHeader_isCompressed nowMs, p.datagramHeader_peerId_toNat nowMs,
    p.datagramHeader_sessionId_toNat nowMs, rfl, BitVec.toNat_setWidth .., ?_⟩
  -- the three tests of `on_datagram`: session, seed of the checksum, commands
  have hsession : q.incomingSessionId = 0xFF
      ∨ (p.datagramHeader nowMs).sessionId = q.incomingSessionId :=
    hs.imp_right fun heq =>
      BitVec.eq_of_toNat_eq ((p.datagramHeader_sessionId_toNat nowMs).trans heq.symm)
  have hseed : h.seedOf (some k) = p.connectId := by simp [seedOf, hq, hid]
  have hcmds : parseCommands (cmds.map Command.write).flatten = cmds := by
    rw [parseCommands_write hw, List.take_of_length_le hlen]
  have hbind : (some k).bind h.peer = some q := hq
  simp only [acceptDatagram, parse_makeDatagram, p.datagramHeader_isCompressed nowMs, hk,
    sessionOk_of_session hbind hsession, checkedPayload_makeDatagram (some k) rfl, hseed]
  simp [hcmds, PeerEntry.datagramHeader]

/-- A client's entry for a connection to slot 0, and the server's. -/
def clientSide : PeerEntry :=
  { PeerEntry.fresh bob 77 1 mtuDefault 2 0 with
    state := .connected, outgoingPeerId := 0, outgoingSessionId := 1, incomingSessionId := 2 }

def serverSide : PeerEntry :=
  { PeerEntry.fresh alice 77 1 mtuDefault 2 0 with
    state := .connected, outgoingPeerId := 0, outgoingSessionId := 2, incomingSessionId := 1 }

/-- A server with checksums and two peers. -/
def twoPeers : HostTask :=
  ((bind 2 true 0 0).setPeer 0 serverSide).setPeer 1
    { serverSide with addr := bob, connectId := 78 }

/-- A message, a fragment, an ACK and a PING. -/
def mixedCommands : List Command :=
  [⟨⟨cmdSendReliable ||| commandFlagAcknowledge, 0, 3⟩, .sendReliable [1, 2, 3]⟩,
   ⟨⟨cmdSendFragment ||| commandFlagAcknowledge, 1, 4⟩, .sendFragment ⟨4, 2, 0, 4, 0, [5, 6]⟩⟩,
   ⟨⟨cmdAcknowledge, 0, 2⟩, .acknowledge ⟨2, 70⟩⟩,
   ⟨⟨cmdPing ||| commandFlagAcknowledge, channelIdConnection, 5⟩, .ping⟩]

/-- Four commands for the first of two peers, with checksum and a send time that
does not fit in 16 bits. -/
theorem datagram_roundtrip_mixed :
    ∃ hdr slice t,
      ProtocolHeader.parse (makeDatagram true clientSide (mixedCommands.map Command.write) 70000)
          = some (hdr, slice)
        ∧ hdr.isCompressed = false ∧ hdr.peerId.toNat = 0 ∧ hdr.sessionId.toNat = 1
        ∧ hdr.sentTime = some t ∧ t.toNat = 70000 % 2 ^ 16
        ∧ twoPeers.acceptDatagram
            (makeDatagram true clientSide (mixedCommands.map Command.write) 70000) alice
          = some { key := some 0, sentTime := some t, cmds := mixedCommands } :=
  datagram_roundtrip twoPeers clientSide serverSide 70000 mixedCommands alice 0 (by decide)
    (by decide) (by decide +kernel) rfl rfl (.inr (by decide))

end HostTask

/-! ## §3. What `flush_batch` sends. -/

namespace HostTask

variable {h : HostTask} {key : PeerKey} {p : PeerEntry}

/-- One datagram per piece of the list, for any weights that cut where the loop
cuts. -/
theorem flushLoop_trace (nowMs : U32) {mtu hdr cap : Nat} {w : Bytes → Nat}
    (hcut : ∀ (batch : List Bytes) (cmd : Bytes), batch ≠ [] →
      (mtu < hdr + Packing.weight List.length batch + cmd.length
        ↔ cap < Packing.weight w batch + w cmd)) (cmds : List Bytes) :
    ∀ (h : HostTask) (p : PeerEntry) (batch : List Bytes), h.peer key = some p →
      (flushLoop key nowMs mtu hdr h cmds batch (hdr + Packing.weight List.length batch)).trace
        = h.trace ++ (Packing.greedy w cap cmds batch).map fun b =>
          .sent p.addr b (makeDatagram h.useChecksum p b nowMs) := by
  -- the pending batch is what both loops carry along
  induction cmds with
  | nil =>
      intro h p batch hp
      unfold flushLoop Packing.greedy
      split
      · next hnil => simp [hnil, emitByKey_nil]
      · next hne => simp [emitByKey_of_some hp hne]
  | cons cmd cmds ih =>
      intro h p batch hp
      unfold flushLoop Packing.greedy
      simp only [and_congr_left_iff.mpr (hcut batch cmd)]
      split
      · next hover =>
        -- the batch is full: it is emitted, and the next one starts with `cmd`
        have hemit := emitByKey_of_some hp hover.2 nowMs
        have hpeer : (h.emitByKey key batch nowMs).peer key
            = some { p with lastSendTime := nowMs } := by
          rw [peer_emitByKey h key hover.2, if_pos rfl, hp]
          rfl
        have hrest := ih _ _ [cmd] hpeer
        rw [Packing.weight_singleton, emitByKey_useChecksum] at hrest
        rw [hrest, hemit, List.map_cons, note_trace, setPeer_trace, List.append_assoc]
        rfl
      -- the command still fits
      · have hrest := ih h p (batch ++ [cmd]) hp
        rw [Packing.weight_append, Packing.weight_singleton, ← Nat.add_assoc] at hrest
        exact hrest

/-- The groups `flush_batch` makes of a list of commands.  Where not even the
header fits, every command is a group of its own. -/
def groups (useChecksum : Bool) (p : PeerEntry) (cmds : List Bytes) : List (List Bytes) :=
  if hdrOverhead useChecksum ≤ p.mtu.toNat then
    Packing.greedy List.length (p.mtu.toNat - hdrOverhead useChecksum) cmds []
  else Packing.greedy (fun _ => 1) 1 cmds []

theorem flushBatch_groups (hp : h.peer key = some p) (cmds : List Bytes) (nowMs : U32) :
    (h.flushBatch key cmds nowMs).trace
      = h.trace ++ (groups h.useChecksum p cmds).map fun g =>
        .sent p.addr g (makeDatagram h.useChecksum p g nowMs) := by
  simp only [flushBatch, hp]
  unfold groups
  split
  · refine flushLoop_trace nowMs (fun batch cmd _ => ?_) cmds h p [] hp
    omega
  · next hover =>
    refine flushLoop_trace nowMs (fun batch cmd hne => ?_) cmds h p [] hp
    have hpos := List.length_pos_iff.mpr hne
    rw [Packing.weight_one]
    omega

theorem groups_flatten (useChecksum : Bool) (p : PeerEntry) (cmds : List Bytes) :
    (groups useChecksum p cmds).flatten = cmds := by
  unfold groups
  split <;> exact Packing.greedy_flatten cmds []

theorem weight_length (g : List Bytes) : Packing.weight List.length g = g.flatten.length :=
  List.length_flatten.symm

/-- **`flush_batch` partitions its input**: the groups it sends are non-empty
and make up the list in order; a group of several commands is within the mtu,
and none could have taken the first command of the next one. -/
theorem flushBatch_partitions (h : HostTask) (key : PeerKey) (p : PeerEntry) (cmds : List Bytes)
    (nowMs : U32) (hp : h.peer key = some p) :
    ∃ gs : List (List Bytes),
      (h.flushBatch key cmds nowMs).trace
          = h.trace ++ gs.map (fun g => .sent p.addr g (makeDatagram h.useChecksum p g nowMs))
        ∧ (∀ g ∈ gs, g ≠ []) ∧ gs.flatten = cmds
        ∧ (∀ g ∈ gs, 2 ≤ g.length →
          (makeDatagram h.useChecksum p g nowMs).length ≤ p.mtu.toNat)
        ∧ gs.IsChain fun g g' => ∀ cmd ∈ g'.head?,
          p.mtu.toNat < (makeDatagram h.useChecksum p (g ++ [cmd]) nowMs).length := by
  refine ⟨_, flushBatch_groups hp cmds nowMs, ?_, groups_flatten _ _ _, ?_, ?_⟩
  · intro g hg
    unfold groups at hg
    split at hg <;> exact Packing.ne_nil_of_mem_greedy hg
  · intro g hg htwo
    rw [makeDatagram_length]
    unfold groups at hg
    split at hg
    · have hfit := Packing.weight_le_of_mem_greedy (by simp) hg htwo
      rw [weight_length] at hfit
      omega
    · -- no group has two commands
      have hfit := Packing.weight_le_of_mem_greedy (by simp) hg htwo
      rw [Packing.weight_one] at hfit
      omega
  · unfold groups
    split
    · refine (Packing.isChain_greedy cmds []).imp fun g g' hmax cmd hcmd => ?_
      have hover := hmax cmd hcmd
      rw [weight_length] at hover
      rw [makeDatagram_length, List.flatten_append, List.length_append, List.flatten_singleton]
      omega
    · -- the header alone is too long
      refine (Packing.isChain_greedy cmds []).imp fun g g' _ cmd _ => ?_
      rw [makeDatagram_length]
      omega

/-- Three commands for the default mtu: the second and the third go together. -/
theorem flushBatch_partitions_three :
    ∃ gs : List (List Bytes),
      (((bind 1 true 0 0).setPeer 0 serverSide).flushBatch 0
          [List.replicate 1380 0, List.replicate 8 1, [2]] 5).trace
          = gs.map (fun g => .sent alice g (makeDatagram true serverSide g 5))
        ∧ (∀ g ∈ gs, g ≠ [])
        ∧ gs.flatten = [List.replicate 1380 0, List.replicate 8 1, [2]]
        ∧ (∀ g ∈ gs, 2 ≤ g.length → (makeDatagram true serverSide g 5).length ≤ 1392)
        ∧ gs.IsChain fun g g' => ∀ cmd ∈ g'.head?,
          1392 < (makeDatagram true serverSide (g ++ [cmd]) 5).length :=
  flushBatch_partitions ((bind 1 true 0 0).setPeer 0 serverSide) 0 serverSide
    [List.replicate 1380 0, List.replicate 8 1, [2]] 5 rfl

end HostTask

/-! ## §4. A list of commands, flushed and parsed. -/

namespace HostTask

variable {h : HostTask} {key : PeerKey} {p : PeerEntry}

/-- The command regions of the datagrams among some events. -/
def sentPayloads (useChecksum : Bool) (es : List Event) : List Bytes :=
  es.filterMap fun
    | .sent _ _ datagram => some (datagram.drop (hdrOverhead useChecksum))
    | _ => none

theorem sentPayloads_cons (useChecksum : Bool) (dest : SocketAddr) (bs : List Bytes)
    (datagram : Bytes) (es : List Event) :
    sentPayloads useChecksum (.sent dest bs datagram :: es)
      = datagram.drop (hdrOverhead useChecksum) :: sentPayloads useChecksum es := rfl

/-- What a receiver parses of the pieces: up to 32 commands of each. -/
theorem parse_pieces {pieces : List (List Command)}
    (hw : ∀ piece ∈ pieces, ∀ cmd ∈ piece, cmd.WellFormed) (useChecksum : Bool) (p : PeerEntry)
    (nowMs : U32) :
    (sentPayloads useChecksum (pieces.map fun piece =>
        .sent p.addr (piece.map Command.write)
          (makeDatagram useChecksum p (piece.map Command.write) nowMs))).flatMap parseCommands
      = pieces.flatMap (List.take maxCommandsPerPacket) := by
  induction pieces with
  | nil => rfl
  | cons piece pieces ih =>
      have hrest := ih fun q hq => hw q (List.mem_cons_of_mem _ hq)
      rw [List.map_cons, sentPayloads_cons, List.flatMap_cons, hrest, drop_makeDatagram,
        parseCommands_write (hw piece List.mem_cons_self), List.flatMap_cons]

/-- The pieces `flush_batch` cuts a list of commands into. -/
def pieces (h : HostTask) (p : PeerEntry) (cmds : List Command) : List (List Command) :=
  Packing.greedy Command.byteSize (p.mtu.toNat - hdrOverhead h.useChecksum) cmds []

theorem flushBatch_trace (hp : h.peer key = some p) {cmds : List Command} (nowMs : U32)
    (hfit : ∀ cmd ∈ cmds, hdrOverhead h.useChecksum + cmd.byteSize ≤ p.mtu.toNat) :
    (h.flushBatch key (cmds.map Command.write) nowMs).trace
      = h.trace ++ (h.pieces p cmds).map fun piece =>
        .sent p.addr (piece.map Command.write)
          (makeDatagram h.useChecksum p (piece.map Command.write) nowMs) := by
  have hsize : List.length ∘ Command.write = Command.byteSize := funext Command.write_length
  have hpieces : groups h.useChecksum p (cmds.map Command.write)
      = (h.pieces p cmds).map (List.map Command.write) := by
    cases cmds with
    | nil => simp [groups, pieces, Packing.greedy]
    | cons cmd cmds =>
        have hle : hdrOverhead h.useChecksum ≤ p.mtu.toNat :=
          (Nat.le_add_right _ _).trans (hfit cmd List.mem_cons_self)
        rw [groups, if_pos hle, pieces, ← hsize]
        exact Packing.greedy_map Command.write (cmd :: cmds) []
  rw [flushBatch_groups hp, hpieces, List.map_map]
  rfl

/-- **Nothing flushed is invisible to the receiver**, exactly when the cut by
bytes alone leaves no piece of more than 32 commands. -/
theorem flushed_parsed_iff (h : HostTask) (key : PeerKey) (p : PeerEntry) (cmds : List Command)
    (nowMs : U32) (hp : h.peer key = some p) (hw : ∀ cmd ∈ cmds, cmd.WellFormed)
    (hfit : ∀ cmd ∈ cmds, hdrOverhead h.useChecksum + cmd.byteSize ≤ p.mtu.toNat) :
    (∃ es, (h.flushBatch key (cmds.map Command.write) nowMs).trace = h.trace ++ es
        ∧ (sentPayloads h.useChecksum es).flatMap parseCommands = cmds
        ∧ ∀ dest bs datagram, .sent dest bs datagram ∈ es → bs.length ≤ maxCommandsPerPacket)
      ↔ Packing.Cuts Command.byteSize (p.mtu.toNat - hdrOverhead h.useChecksum)
          (fun piece => piece.length ≤ maxCommandsPerPacket) cmds := by
  have hflat : (h.pieces p cmds).flatten = cmds := Packing.greedy_flatten cmds []
  have hpieces : ∀ piece ∈ h.pieces p cmds, ∀ cmd ∈ piece, cmd.WellFormed := by
    intro piece hpiece cmd hcmd
    exact hw cmd (by rw [← hflat]; exact List.mem_flatten_of_mem hpiece hcmd)
  have hsmall : ∀ cmd ∈ cmds, cmd.byteSize ≤ p.mtu.toNat - hdrOverhead h.useChecksum := by
    intro cmd hcmd
    have := hfit cmd hcmd
    omega
  -- both sides speak of the pieces that the greedy packing makes
  rw [← Packing.forall_greedy_iff_cuts hsmall, flushBatch_trace hp nowMs hfit]
  change _ ↔ ∀ piece ∈ h.pieces p cmds, piece.length ≤ maxCommandsPerPacket
  constructor
  -- the parser keeps the first 32 commands of each piece
  · rintro ⟨es, hes, hparse, -⟩
    rw [← List.append_cancel_left hes, parse_pieces hpieces] at hparse
    exact Packing.flatMap_take_eq_flatten_iff.mp (hparse.trans hflat.symm)
  · intro hshort
    refine ⟨_, rfl, ?_, ?_⟩
    · rw [parse_pieces hpieces, Packing.flatMap_take_eq_flatten_iff.mpr hshort, hflat]
    · intro dest bs datagram hmem
      obtain ⟨piece, hpiece, heq⟩ := List.mem_map.mp hmem
      cases heq
      rw [List.length_map]
      exact hshort piece hpiece

/-- `n` reliable messages of one byte each, as they wait for retransmission. -/
def byteMessages (n : Nat) : List Command :=
  (List.range n).map fun i =>
    ⟨⟨cmdSendReliable ||| commandFlagAcknowledge, 0, BitVec.ofNat 16 (i + 1)⟩, .sendReliable [0]⟩

/-- `mixedCommands` and a message that has a datagram of its own. -/
def mixedBatch : List Command :=
  mixedCommands
    ++ [⟨⟨cmdSendReliable ||| commandFlagAcknowledge, 0, 6⟩, .sendReliable (List.replicate 1380 0)⟩]

/-- A batch that leaves in two datagrams is read back; of 33 small messages one is
not, and they cannot be cut. -/
theorem flushed_parsed_iff_batches :
    (∃ es, (((bind 1 false 0 0).setPeer 0 serverSide).flushBatch 0
          (mixedBatch.map Command.write) 5).trace = [] ++ es
        ∧ (sentPayloads false es).flatMap parseCommands = mixedBatch
        ∧ ∀ dest bs datagram, .sent dest bs datagram ∈ es → bs.length ≤ maxCommandsPerPacket)
      ∧ ¬ Packing.Cuts Command.byteSize (serverSide.mtu.toNat - hdrOverhead false)
          (fun piece => piece.length ≤ maxCommandsPerPacket) (byteMessages 33) := by
  constructor
  · refine (flushed_parsed_iff ((bind 1 false 0 0).setPeer 0 serverSide) 0 serverSide mixedBatch 5
      rfl (by decide +kernel) (by decide +kernel)).mpr ?_
    refine .piece (by decide) (by decide +kernel) (by decide +kernel) (by decide) ?_
    rw [← List.append_nil [_]]
    exact .piece (List.cons_ne_nil _ _) (by decide +kernel)
      (fun _ hy => (Option.not_mem_none _ hy).elim) (by decide) .nil
  · intro hcuts
    obtain ⟨es, hes, hparse, -⟩ := (flushed_parsed_iff ((bind 1 false 0 0).setPeer 0 serverSide) 0
      serverSide (byteMessages 33) 5 rfl (by decide) (by decide)).mpr hcuts
    have hlost : (sentPayloads false (((bind 1 false 0 0).setPeer 0 serverSide).flushBatch 0
        ((byteMessages 33).map Command.write) 5).trace).flatMap parseCommands ≠ byteMessages 33 := by
      decide +kernel
    rw [hes] at hlost
    exact hlost hparse

/-- **33 small messages leave in one datagram, and the receiver parses 32.** -/
theorem flushed_not_parsed :
    (∀ cmd ∈ byteMessages 33,
        cmd.WellFormed ∧ hdrOverhead false + cmd.byteSize ≤ serverSide.mtu.toNat)
      ∧ ((bind 1 false 0 0).setPeer 0 serverSide).peer 0 = some serverSide
      ∧ (sentPayloads false (((bind 1 false 0 0).setPeer 0 serverSide).flushBatch 0
          ((byteMessages 33).map Command.write) 5).trace).map parseCommands = [byteMessages 32] :=
  ⟨by decide, rfl, by decide +kernel⟩

end HostTask

end EnetRs
