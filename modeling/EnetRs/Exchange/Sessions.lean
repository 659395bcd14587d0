/-
  EnetRs.Exchange.Sessions — datagrams of an earlier connection.

  When a client reconnects, `on_connect` evicts its old entry and builds a new
  one, in the same slot if that is the first free one.  The session id is meant
  to tell the datagrams of the two connections apart; but a CONNECT that asks
  for no particular session (0xFF) is given incoming id 1 every time.

  Main results:
    * `sessionOk_eq_false_iff` — when the session check drops a datagram.
    * `stale_dropped_iff` — a datagram of the earlier connection is dropped
      only if its header leads to somebody else's slot; in a slot below 4095 it
      never is.
    * `only_connect_escapes_iff` — which datagrams under a wrong session id the
      check lets through; with checksums the peek reads the wrong byte.
-/
import EnetRs.Exchange.Checksum
import EnetRs.Exchange.Routing

namespace EnetRs

open MachineInt

namespace HostTask

variable {h hB h₁A h₁B : HostTask} {src : SocketAddr} {k : PeerKey}

/-! ## §1. The session check. -/

theorem sessionOk_eq_false_iff {hdr : ProtocolHeader} {key : Option PeerKey} {slice : Bytes} :
    h.sessionOk hdr key slice = false ↔ (slice.head?).map (· &&& 0x0F) ≠ some cmdConnect
      ∧ ∃ q, key.bind h.peer = some q ∧ q.incomingSessionId ≠ 0xFF
        ∧ hdr.sessionId ≠ q.incomingSessionId := by
  unfold sessionOk
  split
  · next hconnect => exact iff_of_false nofun fun hdrop => hdrop.1 hconnect
  · next hconnect =>
    rw [and_iff_right hconnect]
    cases key.bind h.peer with
    | none => simp
    | some q => simp

theorem onDatagram_of_sessionOk_false {raw slice : Bytes} {hdr : ProtocolHeader}
    (hparse : ProtocolHeader.parse raw = some (hdr, slice))
    (hdrop : h.sessionOk hdr (h.resolveKey hdr src) slice = false) (nowMs : U32) :
    h.onDatagram raw src nowMs = h := by
  have hnone : h.acceptDatagram raw src = none := by
    simp [acceptDatagram, hparse, hdrop]
  simp [onDatagram, hnone]

/-! ## §2. Two connections of one client in one slot. -/

/-- The slot that the low bits of `k` lead to. -/
def headerSlot (h : HostTask) (k : PeerKey) (src : SocketAddr) : Option PeerKey :=
  if k % 4096 = 4095 then h.addrMap src else some (k % 4096)

/-- The datagram's header leads to an entry of another session. -/
def LeadsElsewhere (h : HostTask) (k : PeerKey) (src : SocketAddr) (slice : Bytes) : Prop :=
  (slice.head?).map (· &&& 0x0F) ≠ some cmdConnect
    ∧ ∃ j q, h.headerSlot k src = some j ∧ h.peer j = some q ∧ q.incomingSessionId ≠ 0xFF
      ∧ q.incomingSessionId ≠ 1

theorem resolveKey_eq_headerSlot {p : PeerEntry} (hk : k < h.peers.length)
    (hid : p.outgoingPeerId = BitVec.ofNat 16 k) (nowMs : U32) :
    h.resolveKey (p.datagramHeader nowMs) src = h.headerSlot k src := by
  unfold headerSlot
  split
  · next hlast =>
    unfold resolveKey
    rw [if_pos ((peerId_datagramHeader_eq_max hid nowMs).mpr hlast)]
  · next hlast => exact resolveKey_low hk hid hlast nowMs

/-- The session check on a datagram under session id 1. -/
theorem dropped_iff_leadsElsewhere {p q : PeerEntry} (hq : h.peer k = some q)
    (hid : p.outgoingPeerId = BitVec.ofNat 16 k) (hsession : p.outgoingSessionId = 1)
    (slice : Bytes) (nowMs : U32) :
    h.sessionOk (p.datagramHeader nowMs) (h.resolveKey (p.datagramHeader nowMs) src) slice = false
      ↔ h.LeadsElsewhere k src slice := by
  have hone : (p.datagramHeader nowMs).sessionId = 1 := sessionId_datagramHeader 0xFF hsession nowMs
  rw [sessionOk_eq_false_iff, resolveKey_eq_headerSlot (lt_of_peer_eq_some hq) hid, hone,
    LeadsElsewhere]
  refine and_congr_right fun _ => ?_
  simp only [Option.bind_eq_some_iff]
  constructor
  · rintro ⟨q, ⟨j, hj, hq⟩, hff, hne⟩
    exact ⟨j, q, hj, hq, hff, hne.symm⟩
  · rintro ⟨j, q, hj, hq, hff, hne⟩
    exact ⟨q, ⟨j, hj, hq⟩, hff, hne.symm⟩

/-- **Successive connections are not told apart.**  A client was given slot `k` once,
for connection A, and later again, for connection B; both CONNECTs asked for session
0xFF.  A datagram built for A, with the ids of A's VERIFY_CONNECT, arrives while B is
in the slot.  The session check drops it, and leaves B's entry alone, exactly if its
header leads to an entry of another session; in a slot below 4095 it is let through
in every case.  Nothing else about A matters: the state in which its CONNECT arrived,
`h₁A`, is arbitrary. -/
theorem stale_dropped_iff {tA tB : U32} {cA cB : ConnectCmd} {hdrA hdrB : CommandHeader}
    (hffA : cA.incomingSessionId = 0xFF) {vhdr : CommandHeader} {v : VerifyConnectCmd}
    (hverify : Command.parse (h₁A.serverHandshake k cA hdrA src tA).2
      = some (⟨vhdr, .verifyConnect v⟩, []))
    (hr : hB.Reachable) {rawB : Bytes} (hopenB : hB.Opens rawB src tB h₁B cB hdrB k)
    (hffB : cB.incomingSessionId = 0xFF) {is : List Timed}
    (hrun : (hB.onDatagram rawB src tB).run is = some h) {q : PeerEntry} (hq : h.peer k = some q)
    (hconn : q.conn = h₁B.nextConn) {p : PeerEntry} (hid : p.outgoingPeerId = v.outgoingPeerId)
    (hsession : p.outgoingSessionId = v.outgoingSessionId) (useChecksum : Bool) (cmds : List Bytes)
    (nowMs : U32) :
    ∃ phdr slice, ProtocolHeader.parse (makeDatagram useChecksum p cmds nowMs) = some (phdr, slice)
      ∧ ((h.sessionOk phdr (h.resolveKey phdr src) slice = false
          ∧ (h.onDatagram (makeDatagram useChecksum p cmds nowMs) src nowMs).peer k = some q)
        ↔ h.LeadsElsewhere k src slice)
      ∧ (k < 4095 → h.sessionOk phdr (h.resolveKey phdr src) slice = true) := by
  -- the session id of A, which the client was told, and that of B
  rw [parse_serverHandshake] at hverify
  cases hverify
  have hsessionA : p.outgoingSessionId = 1 := by
    rw [hsession]
    show negotiateSession cA.incomingSessionId 1 = 1
    rw [hffA]
    rfl
  have hserved := (((hopenB.tracks hr.owned).run ServedAt.op hrun).2 k q hq hconn).2
  have hsessionB : q.incomingSessionId = 1 := by
    rw [hserved.session, hffB]
    rfl
  have hiff : ∀ slice, _ ↔ h.LeadsElsewhere k src slice := fun slice =>
    dropped_iff_leadsElsewhere hq hid hsessionA slice nowMs
  refine ⟨_, _, parse_makeDatagram, ⟨fun hdrop => (hiff _).mp hdrop.1, fun hlead => ?_⟩, ?_⟩
  · refine ⟨(hiff _).mpr hlead, ?_⟩
    rw [onDatagram_of_sessionOk_false parse_makeDatagram ((hiff _).mpr hlead), hq]
  · intro hk
    -- the header leads to B, whose session id is A's
    rw [← Bool.not_eq_false, hiff]
    rintro ⟨-, j, r, hj, hr, -, hne⟩
    have hlow : k % 4096 = k := Nat.mod_eq_of_lt (Nat.lt_succ_of_lt hk)
    rw [headerSlot, hlow, if_neg (Nat.ne_of_lt hk)] at hj
    cases hj
    cases hq.symm.trans hr
    exact hne hsessionB

/-- Alice connects, then Bob, then Alice again; slot 0 holds her second connection, and
a datagram of the first one with four commands passes the check. -/
theorem stale_dropped_iff_alice :
    ∃ h phdr slice, (bind 4 false 0 0).run
        (aliceConnects 10 ++ bobConnects 1 30 ++ aliceConnects 50) = some h
      ∧ ((h.peer 0).map (·.state), (h.peer 1).map (·.state)) = (some .connected, some .connected)
      ∧ ProtocolHeader.parse (makeDatagram false clientSide (mixedCommands.map Command.write) 70)
        = some (phdr, slice)
      ∧ h.sessionOk phdr (h.resolveKey phdr alice) slice = true ∧ ¬ h.LeadsElsewhere 0 alice slice := by
  have hrun : ((bind 4 false 0 0).run (aliceConnects 10 ++ bobConnects 1 30)).any (fun hB =>
      !hB.useChecksum && decide ((hB.evictAddr alice).allocSlot = some 0)
        && ((hB.onDatagram (connectDatagram 77 2 1392) alice 50).run
          [(60, .datagram (peerDatagram 0 9 [ack channelIdConnection 1 10]) alice)]).any fun h =>
            decide (((h.peer 0).map (·.state), (h.peer 1).map (·.state))
              = (some PeerState.connected, some PeerState.connected))
            && (h.peer 0).any fun q => decide (q.conn = (hB.evictAddr alice).nextConn)) = true := by
    decide +kernel
  obtain ⟨hB, hhB, hrest⟩ := (Option.any_eq_true _ _).mp hrun
  simp only [Bool.and_eq_true, Bool.not_eq_true', Option.any_eq_true, decide_eq_true_eq] at hrest
  obtain ⟨⟨hck, hslot⟩, h, hh, hstates, q, hq, hconn⟩ := hrest
  have hid : clientSide.outgoingPeerId = BitVec.ofNat 16 0 := rfl
  -- connection A: the CONNECT that Alice sends to the new host
  have hverify := parse_serverHandshake (bind 4 false 0 0) 0 firstConnect
    (handshakeHeader cmdConnect) alice 10
  obtain ⟨phdr, slice, hparse, hiff, hok⟩ := stale_dropped_iff rfl hverify ⟨_, _, _, _, _, _, hhB⟩
    (opens_connect hck hslot 50) rfl hh hq hconn hid rfl false (mixedCommands.map Command.write) 70
  have hpass := hok (by decide)
  refine ⟨h, phdr, slice, ?_, hstates, hparse, hpass, fun hlead => ?_⟩
  · exact Transition.run_append.mpr ⟨hB, hhB, Transition.run_cons_eq_some.mpr ⟨_, rfl, hh⟩⟩
  · rw [(hiff.mpr hlead).1] at hpass
    cases hpass

/-- **A late DISCONNECT of the first connection closes the second**: Alice is
connected again, and the old datagram removes her entry. -/
theorem stale_disconnect_removes :
    ∃ h q phdr slice, (bind 4 false 0 0).run (aliceConnects 10 ++ aliceConnects 30) = some h
      ∧ h.peer 0 = some q ∧ q.state = .connected ∧ q.addr = alice
      ∧ let stale := makeDatagram false clientSide
          [encodeCommand cmdDisconnect commandFlagAcknowledge channelIdConnection 2 (be32 0)] 25
        ProtocolHeader.parse stale = some (phdr, slice)
          ∧ h.sessionOk phdr (h.resolveKey phdr alice) slice = true
          ∧ (h.onDatagram stale alice 50).peer 0 = none := by
  have hrun : ((bind 4 false 0 0).run (aliceConnects 10 ++ aliceConnects 30)).any (fun h =>
      (h.peer 0).any (fun q => decide (q.state = .connected ∧ q.addr = alice))
        && (h.sessionOk (clientSide.datagramHeader 25)
            (h.resolveKey (clientSide.datagramHeader 25) alice)
            (encodeCommand cmdDisconnect commandFlagAcknowledge channelIdConnection 2 (be32 0)))
        && ((h.onDatagram (makeDatagram false clientSide [encodeCommand cmdDisconnect
            commandFlagAcknowledge channelIdConnection 2 (be32 0)] 25) alice 50).peer 0).isNone)
      = true := by decide +kernel
  obtain ⟨h, hh, hrest⟩ := (Option.any_eq_true _ _).mp hrun
  simp only [Bool.and_eq_true, Option.any_eq_true, decide_eq_true_eq,
    Option.isNone_iff_eq_none] at hrest
  obtain ⟨⟨⟨q, hq, hst, hqa⟩, hok⟩, hgone⟩ := hrest
  exact ⟨h, q, _, _, hh, hq, hst, hqa, parse_makeDatagram, hok, hgone⟩

/-! ## §3. What escapes the check. -/

/-- Of the datagrams under a wrong session id, `on_datagram` processes those whose
first command is CONNECT only, and the session check rejects none of these. -/
structure OnlyConnectEscapes (h : HostTask) (raw : Bytes) (src : SocketAddr) : Prop where
  processed : ∀ a cmd, h.acceptDatagram raw src = some a → a.cmds.head? = some cmd →
    cmd.header.commandType = cmdConnect
  letThrough : ∀ hdr slice payload cmd, ProtocolHeader.parse raw = some (hdr, slice) →
    hdr.isCompressed = false → h.checkedPayload raw slice (h.resolveKey hdr src) = some payload →
    (parseCommands payload).head? = some cmd → cmd.header.commandType = cmdConnect →
    h.sessionOk hdr (h.resolveKey hdr src) slice = true

/-- With checksums: if the datagram is valid and has a first command, the first
byte of its checksum looks like CONNECT exactly if that command is one. -/
def PeekAgrees (h : HostTask) (raw : Bytes) (src : SocketAddr) (hdr : ProtocolHeader)
    (slice : Bytes) : Prop :=
  h.useChecksum = true → hdr.isCompressed = false → h.passesChecksum raw src = true →
    ∀ cmd rest, Command.parse (slice.drop 4) = some (cmd, rest) →
      (slice.head?.map (· &&& 0x0F) = some cmdConnect ↔ cmd.header.commandType = cmdConnect)

/-- What is left of a valid datagram, and its first command. -/
theorem checkedPayload_eq_some {raw slice payload : Bytes} {key : Option PeerKey}
    (hpay : h.checkedPayload raw slice key = some payload) :
    payload = if h.useChecksum then slice.drop 4 else slice := by
  unfold checkedPayload at hpay
  split at hpay
  · next hck =>
    rw [if_pos hck]
    split at hpay
    · cases hpay
    · simp only at hpay
      split at hpay
      · cases hpay
      · exact (Option.some.inj hpay).symm
  · next hck =>
    rw [if_neg hck]
    exact (Option.some.inj hpay).symm

theorem acceptDatagram_eq_some_iff {raw slice : Bytes} {hdr : ProtocolHeader} {a : Accepted}
    (hparse : ProtocolHeader.parse raw = some (hdr, slice)) :
    h.acceptDatagram raw src = some a ↔ hdr.isCompressed = false
      ∧ h.sessionOk hdr (h.resolveKey hdr src) slice = true
      ∧ ∃ payload, h.checkedPayload raw slice (h.resolveKey hdr src) = some payload
        ∧ a = ⟨h.resolveKey hdr src, hdr.sentTime, parseCommands payload⟩ := by
  simp only [acceptDatagram, hparse]
  cases hdr.isCompressed with
  | true => simp
  | false =>
      cases h.sessionOk hdr (h.resolveKey hdr src) slice with
      | false => simp
      | true =>
          cases h.checkedPayload raw slice (h.resolveKey hdr src) with
          | none => simp
          | some payload => simp [eq_comm]

/-- **What escapes the session check.**  A datagram leads to an entry whose
session id is set and not the header's.  Only CONNECT escapes, and every CONNECT
does, exactly if the byte that is peeked at, with checksums the first one of the
checksum, tells the type of the first command. -/
theorem only_connect_escapes_iff (h : HostTask) (raw : Bytes) (src : SocketAddr)
    {hdr : ProtocolHeader} {slice : Bytes} {q : PeerEntry}
    (hparse : ProtocolHeader.parse raw = some (hdr, slice))
    (hq : (h.resolveKey hdr src).bind h.peer = some q) (hset : q.incomingSessionId ≠ 0xFF)
    (hwrong : hdr.sessionId ≠ q.incomingSessionId) :
    h.OnlyConnectEscapes raw src ↔ h.PeekAgrees raw src hdr slice := by
  -- what the check says about this datagram
  have hok : h.sessionOk hdr (h.resolveKey hdr src) slice = true
      ↔ slice.head?.map (· &&& 0x0F) = some cmdConnect := by
    rw [← Bool.not_eq_false, sessionOk_eq_false_iff, not_and_or, not_not]
    refine or_iff_left fun hnot => hnot ⟨q, hq, hset, hwrong⟩
  constructor
  · intro honly hck hcomp hpass cmd rest hcmd
    obtain ⟨payload, hpay⟩ : ∃ payload,
        h.checkedPayload raw slice (h.resolveKey hdr src) = some payload := by
      rw [passesChecksum, hparse] at hpass
      exact Option.isSome_iff_exists.mp hpass
    have hregion := checkedPayload_eq_some hpay
    rw [if_pos hck] at hregion
    have hhead : (parseCommands payload).head? = some cmd := by
      rw [hregion, head?_parseCommands, hcmd]
      rfl
    refine ⟨fun hpeek => ?_, fun hconnect => ?_⟩
    · exact honly.processed _ cmd
        ((acceptDatagram_eq_some_iff hparse).mpr ⟨hcomp, hok.mpr hpeek, payload, hpay, rfl⟩) hhead
    · exact hok.mp (honly.letThrough hdr slice payload cmd hparse hcomp hpay hhead hconnect)
  · intro hagree
    -- the peek is right for every payload the checksum lets through
    have hpeek : ∀ payload cmd, hdr.isCompressed = false →
        h.checkedPayload raw slice (h.resolveKey hdr src) = some payload →
        (parseCommands payload).head? = some cmd →
        (slice.head?.map (· &&& 0x0F) = some cmdConnect ↔ cmd.header.commandType = cmdConnect) := by
      intro payload cmd hcomp hpay hhead
      rw [head?_parseCommands, Option.map_eq_some_iff] at hhead
      obtain ⟨⟨_, rest⟩, hcmd, rfl⟩ := hhead
      have hregion := checkedPayload_eq_some hpay
      by_cases hck : h.useChecksum = true
      · rw [if_pos hck] at hregion
        rw [hregion] at hcmd
        have hpass : h.passesChecksum raw src = true := by
          rw [passesChecksum, hparse]
          exact Option.isSome_iff_exists.mpr ⟨payload, hpay⟩
        exact hagree hck hcomp hpass _ rest hcmd
      · rw [if_neg hck] at hregion
        rw [hregion] at hcmd
        rw [Command.commandType_of_parse hcmd, Option.some_inj]
    refine ⟨fun a cmd ha hhead => ?_, fun hdr' slice' payload cmd hparse' hcomp hpay hhead hconnect => ?_⟩
    · obtain ⟨hcomp, hsession, payload, hpay, rfl⟩ := (acceptDatagram_eq_some_iff hparse).mp ha
      exact (hpeek payload cmd hcomp hpay hhead).mp (hok.mp hsession)
    · rw [hparse] at hparse'
      cases hparse'
      exact hok.mpr ((hpeek payload cmd hcomp hpay hhead).mpr hconnect)

/-- A datagram of alice with a checksum. -/
def sealedDatagram (peerId : U16) (session : U8) (nowMs : U32) (cmds : List Bytes) : Bytes :=
  makeDatagram true { PeerEntry.fresh alice 0 0 1392 2 0 with
    outgoingPeerId := peerId, outgoingSessionId := session } cmds nowMs

/-- Alice connects, with checksums and connect id 0. -/
def aliceConnectsSealed : List Timed :=
  [(0, .datagram (sealedDatagram headerPeerIdMax 0 0 [connectCommand 0 2 1392 2]) alice),
   (10, .datagram (sealedDatagram 0 1 9 [ack channelIdConnection 1 0]) alice)]

/-- Her DISCONNECT, under session id 2. -/
def wrongDisconnect (nowMs : U32) : Bytes :=
  sealedDatagram 0 2 nowMs
    [encodeCommand cmdDisconnect commandFlagAcknowledge channelIdConnection 2 (be32 0)]

theorem only_connect_escapes_iff_unsealed :
    ∃ h : HostTask, h.Reachable ∧ h.useChecksum = false
      ∧ h.OnlyConnectEscapes (clientDatagram 0 2 9 [connectCommand 77 2 1392 2]) alice := by
  have hrun : ((bind 4 false 0 0).run (aliceConnects 0)).any (fun h =>
      !h.useChecksum && decide (h.resolveKey ⟨0xA000, some 9⟩ alice = some 0)
        && (h.peer 0).any fun q => decide (q.incomingSessionId = 1)) = true := by decide +kernel
  obtain ⟨h, hh, hrest⟩ := (Option.any_eq_true _ _).mp hrun
  simp only [Bool.and_eq_true, Bool.not_eq_true', Option.any_eq_true, decide_eq_true_eq] at hrest
  obtain ⟨⟨hck, hkey⟩, q, hq, hsession⟩ := hrest
  have hparse : ProtocolHeader.parse (clientDatagram 0 2 9 [connectCommand 77 2 1392 2])
      = some (⟨0xA000, some 9⟩, connectCommand 77 2 1392 2) := by decide +kernel
  refine ⟨h, ⟨_, _, _, _, _, _, hh⟩, hck, ?_⟩
  refine (only_connect_escapes_iff h _ alice hparse (by rw [hkey]; exact hq) (by rw [hsession]; decide)
    (by rw [hsession]; decide)).mpr fun hck' => ?_
  rw [hck] at hck'
  cases hck'

/-- **The peek at the wrong byte.**  Alice is connected, with checksums.  A
DISCONNECT under a wrong session id whose checksum happens to begin with a byte
ending in 2 removes her entry; and her CONNECT for a new connection, whose
checksum does not, is dropped by the session check. -/
theorem session_check_peeks_at_checksum :
    ∃ (h : HostTask) (q : PeerEntry), (bind 4 true 0 0).run aliceConnectsSealed = some h
      ∧ h.peer 0 = some q ∧ q.state = .connected ∧ q.incomingSessionId = 1
      ∧ (h.onDatagram (wrongDisconnect 8) alice 20).peer 0 = none
      ∧ ¬ h.OnlyConnectEscapes (wrongDisconnect 8) alice
      ∧ (∃ hdr slice, ProtocolHeader.parse
            (sealedDatagram headerPeerIdMax 0 1 [connectCommand 0 2 1392 2]) = some (hdr, slice)
          ∧ h.checkedPayload (sealedDatagram headerPeerIdMax 0 1 [connectCommand 0 2 1392 2]) slice
            (h.resolveKey hdr alice) = some (connectCommand 0 2 1392 2)
          ∧ h.sessionOk hdr (h.resolveKey hdr alice) slice = false) := by
  have hrun : ((bind 4 true 0 0).run aliceConnectsSealed).any (fun h =>
      (h.peer 0).any (fun q => decide (q.state = .connected ∧ q.incomingSessionId = 1))
        && ((h.onDatagram (wrongDisconnect 8) alice 20).peer 0).isNone
        && ((h.acceptDatagram (wrongDisconnect 8) alice).any fun a =>
          a.cmds.head?.any fun cmd => decide (cmd.header.commandType ≠ cmdConnect))
        && ((ProtocolHeader.parse
          (sealedDatagram headerPeerIdMax 0 1 [connectCommand 0 2 1392 2])).any fun parsed =>
            decide (h.checkedPayload (sealedDatagram headerPeerIdMax 0 1 [connectCommand 0 2 1392 2])
              parsed.2 (h.resolveKey parsed.1 alice) = some (connectCommand 0 2 1392 2))
            && !h.sessionOk parsed.1 (h.resolveKey parsed.1 alice) parsed.2)) = true := by
    decide +kernel
  obtain ⟨h, hh, hrest⟩ := (Option.any_eq_true _ _).mp hrun
  simp only [Bool.and_eq_true, Option.any_eq_true, decide_eq_true_eq, Bool.not_eq_true',
    Option.isNone_iff_eq_none] at hrest
  obtain ⟨⟨⟨⟨q, hq, hst, hsession⟩, hgone⟩, a, ha, cmd, hcmd, hty⟩, parsed, hparse, hpay, hdrop⟩ := hrest
  refine ⟨h, q, hh, hq, hst, hsession, hgone, fun honly => ?_, parsed.1, parsed.2, hparse, hpay, hdrop⟩
  exact hty (honly.processed a cmd ha hcmd)

end HostTask

end EnetRs
