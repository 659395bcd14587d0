/-
  EnetRs.Exchange.Routing — which slot a connected client's datagrams reach.

  `on_connect` tells the client its slot number in VERIFY_CONNECT, and the
  client writes it into the header of every datagram.  The header has twelve
  bits for it, of which the pattern 0xFFF means "look the address up".  A slot
  number of 4096 or more is therefore cut down to another slot's number, unless
  its low bits are 0xFFF, in which case the address map saves it.

  Main results:
    * `Opens.tracks` — what the server remembers of a connection it accepted.
    * `routed_iff` — the datagrams reach their slot exactly when its number is
      below 4096 or ends in 0xFFF.
-/
import EnetRs.Exchange.Datagram
import EnetRs.Exchange.Handshake
import EnetRs.Safety.AddressMap

namespace EnetRs

open MachineInt

/-! ## §1. A connection from the server's side. -/

/-- Only VERIFY_CONNECT assigns a session id. -/
theorem PeerOp.incomingSessionId_of_ne_verify {nowMs : U32} {p : PeerEntry} {o : PeerOp}
    (ho : ∀ hostMtu vc hdr, o ≠ .verify hostMtu vc hdr) :
    (o.apply nowMs p).incomingSessionId = p.incomingSessionId := by
  refine (o.get_apply (·.incomingSessionId) nowMs p).trans ?_
  cases o with
  | verify hostMtu vc hdr => exact absurd rfl (ho hostMtu vc hdr)
  | _ => rfl

theorem PeerOp.incomingSessionId_apply {h : HostTask} {nowMs : U32} {p : PeerEntry} {o : PeerOp}
    (hg : o.Guard h p) (hst : p.state ≠ .connecting) :
    (o.apply nowMs p).incomingSessionId = p.incomingSessionId := by
  refine incomingSessionId_of_ne_verify fun hostMtu vc hdr ho => ?_
  rw [ho] at hg
  exact hst hg.2.1

/-- No operation takes an entry back to Connecting. -/
theorem PeerOp.state_ne_connecting {nowMs : U32} {p : PeerEntry} {o : PeerOp}
    (hst : p.state ≠ .connecting) : (o.apply nowMs p).state ≠ .connecting := by
  by_cases hlife : o.Lifecycle
  · cases o with
    | accept rx => exact nofun
    | establish => exact nofun
    | verify hostMtu vc hdr => exact nofun
    | deferDisconnect data => exact nofun
    | beginDisconnect deferred => exact nofun
    | _ => exact hlife.elim
  · rw [(PeerOp.samePhase nowMs p hlife).state]
    exact hst

/-- An entry that a server made for `src`, with the session id it assigned. -/
structure ServedAt (src : SocketAddr) (session : U8) (p : PeerEntry) : Prop where
  addr : p.addr = src
  session : p.incomingSessionId = session
  state : p.state ≠ .connecting

theorem ServedAt.op {src : SocketAddr} {session : U8} (nowMs : U32) (h : HostTask) (p : PeerEntry)
    (o : PeerOp) (hp : ServedAt src session p) (hg : o.Guard h p) :
    ServedAt src session (o.apply nowMs p) :=
  { addr := (PeerOp.sameConnection nowMs p o).addr.trans hp.addr
    session := (PeerOp.incomingSessionId_apply hg hp.state).trans hp.session
    state := PeerOp.state_ne_connecting hp.state }

namespace HostTask

variable {h h' h₁ : HostTask} {src : SocketAddr} {conn : Nat} {k : PeerKey} {session : U8}

/-- A CONNECT in the datagram `raw`, with body `c` and header `hdr`, gets slot
`k`; `h₁` is the state in which the slot is handed out. -/
structure Opens (h : HostTask) (raw : Bytes) (src : SocketAddr) (nowMs : U32) (h₁ : HostTask)
    (c : ConnectCmd) (hdr : CommandHeader) (k : PeerKey) : Prop where
  accepted : ∃ a before after, h.acceptDatagram raw src = some a
    ∧ a.cmds = before ++ ⟨hdr, .connect c⟩ :: after
    ∧ h₁ = (onCommands a.key a.sentTime src nowMs h before []).1.evictAddr src
  type : hdr.commandType = cmdConnect
  slot : h₁.allocSlot = some k

/-- **What the server remembers of a connection**: from the end of the datagram
on, the entry with this connection number is in the slot, for this address, and
under the session id that `on_connect` assigned. -/
theorem Opens.tracks {raw : Bytes} {nowMs : U32} {c : ConnectCmd} {hdr : CommandHeader}
    (hopen : h.Opens raw src nowMs h₁ c hdr k) (ho : Owned h) :
    (h.onDatagram raw src nowMs).Tracks h₁.nextConn k
      (ServedAt src (negotiateSession c.incomingSessionId 1)) := by
  obtain ⟨⟨a, before, after, ha, hcmds, hstate⟩, htype, hslot⟩ := hopen
  have hbefore := onCommands_exec_true a.key a.sentTime src nowMs before h []
  generalize hr : onCommands a.key a.sentTime src nowMs h before [] = r at hstate hbefore
  have ho₁ : Owned h₁ := by
    have hevict : Exec nowMs (fun _ _ => True) r.1 (r.1.evictAddr src) :=
      evictAddr_exec src (fun _ _ _ _ => trivial) fun _ _ _ => trivial
    rw [hstate]
    exact (ho.exec hbefore).exec hevict
  -- the entry is new in the state that `on_connect` leaves
  have hnew : (h₁.install k (h₁.serverHandshake k c hdr src nowMs).1).Tracks h₁.nextConn k
      (ServedAt src (negotiateSession c.incomingSessionId 1)) := by
    refine ⟨Nat.lt_succ_self _, fun j q hq hconn => ?_⟩
    rw [peer_install hslot] at hq
    split at hq
    · next hj =>
      cases hq
      exact ⟨hj, rfl, rfl, nofun⟩
    · exact absurd hconn (Nat.ne_of_lt (ho₁.lt j q hq))
  have hafter : (r.1.onConnect c hdr a.sentTime src nowMs).Tracks h₁.nextConn k
      (ServedAt src (negotiateSession c.incomingSessionId 1)) := by
    simp only [onConnect, ← hstate, hslot]
    exact hnew.exec ServedAt.op (emitByKey_exec (C := fun _ _ => True) _ fun _ _ _ => trivial)
  have hdispatch : r.1.dispatch a.key a.sentTime ⟨hdr, .connect c⟩ src nowMs
      = r.1.onConnect c hdr a.sentTime src nowMs := by
    simp [dispatch, htype]
  -- the rest of the datagram
  unfold onDatagram
  simp only [ha, hcmds, onCommands_append, hr]
  refine Tracks.exec ServedAt.op ?_ (flushAcks_exec a.key src _)
  refine Tracks.exec ServedAt.op ?_ (onCommands_exec_true a.key a.sentTime src nowMs after _ _)
  rw [hdispatch]
  exact hafter

/-! ## §2. Twelve bits for the slot. -/

/-- The header keeps the low bits of the slot number. -/
theorem peerId_datagramHeader {p : PeerEntry} (hid : p.outgoingPeerId = BitVec.ofNat 16 k)
    (nowMs : U32) : (p.datagramHeader nowMs).peerId.toNat = k % 4096 := by
  rw [PeerEntry.datagramHeader_peerId_toNat, hid, BitVec.toNat_ofNat]
  exact Nat.mod_mod_of_dvd k (by decide)

theorem peerId_datagramHeader_eq_max {p : PeerEntry}
    (hid : p.outgoingPeerId = BitVec.ofNat 16 k) (nowMs : U32) :
    (p.datagramHeader nowMs).peerId = headerPeerIdMax ↔ k % 4096 = 4095 := by
  rw [← BitVec.toNat_inj, peerId_datagramHeader hid]
  rfl

/-- Low bits other than 0xFFF name a slot. -/
theorem resolveKey_low {p : PeerEntry} (hk : k < h.peers.length)
    (hid : p.outgoingPeerId = BitVec.ofNat 16 k) (hlow : k % 4096 ≠ 4095) (nowMs : U32) :
    h.resolveKey (p.datagramHeader nowMs) src = some (k % 4096) := by
  have hlt : k % 4096 < h.peers.length := Nat.lt_of_le_of_lt (Nat.mod_le k 4096) hk
  unfold resolveKey
  rw [if_neg (mt (peerId_datagramHeader_eq_max hid nowMs).mp hlow), peerId_datagramHeader hid,
    if_pos hlt]

/-- **Where the header leads**, for a client that was told slot `k`. -/
theorem resolveKey_eq_some_iff {p : PeerEntry} (hk : k < h.peers.length)
    (hmap : h.addrMap src = some k) (hid : p.outgoingPeerId = BitVec.ofNat 16 k) (nowMs : U32) :
    h.resolveKey (p.datagramHeader nowMs) src = some k ↔ k < 4096 ∨ k % 4096 = 4095 := by
  by_cases hlast : k % 4096 = 4095
  · have hmax := (peerId_datagramHeader_eq_max hid nowMs).mpr hlast
    unfold resolveKey
    rw [if_pos hmax, hmap]
    exact ⟨fun _ => .inr hlast, fun _ => rfl⟩
  · -- the low bits name a slot, and it is a lower one if any bit was lost
    have hiff : k % 4096 = k ↔ k < 4096 := Nat.mod_eq_iff_lt (by decide)
    rw [resolveKey_low hk hid hlast, Option.some_inj, hiff]
    exact (or_iff_left hlast).symm

theorem negotiateSession_lt (requested : U8) : (negotiateSession requested 1).toNat < 4 := by
  unfold negotiateSession
  split
  · decide
  · rw [BitVec.toNat_and]
    exact Nat.lt_of_le_of_lt Nat.and_le_right (by decide)

/-- The header carries the session id back. -/
theorem sessionId_datagramHeader {p : PeerEntry} (requested : U8)
    (hid : p.outgoingSessionId = negotiateSession requested 1) (nowMs : U32) :
    (p.datagramHeader nowMs).sessionId = negotiateSession requested 1 := by
  rw [← BitVec.toNat_inj, PeerEntry.datagramHeader_sessionId_toNat, hid]
  exact Nat.mod_eq_of_lt (negotiateSession_lt requested)

/-! ## §3. A new client. -/

/-- The CONNECT a client opens with. -/
def firstConnect : ConnectCmd :=
  { outgoingPeerId := 0, incomingSessionId := 0xFF, outgoingSessionId := 0xFF, mtu := 1392
    windowSize := windowSizeMax, channelCount := 2, incomingBandwidth := 0, outgoingBandwidth := 0
    throttleInterval := throttleIntervalMs, throttleAcceleration := throttleAccelerationDefault
    throttleDeceleration := throttleDecelerationDefault, connectId := 77, data := 0 }

/-- The datagram passes all checks, whether or not the address is known. -/
theorem acceptDatagram_connect (hck : h.useChecksum = false) (src : SocketAddr) :
    h.acceptDatagram (connectDatagram 77 2 1392) src
      = some ⟨h.addrMap src, some 7, [⟨handshakeHeader cmdConnect, .connect firstConnect⟩]⟩ := by
  have hparse : ProtocolHeader.parse (connectDatagram 77 2 1392)
      = some (⟨headerFlagSentTime ||| headerPeerIdMax, some 7⟩,
          connectCommand 77 2 1392 throttleDecelerationDefault) := by decide
  simp only [acceptDatagram, hparse, checkedPayload, hck]
  rfl

/-- A client gets the first slot that is free after the eviction. -/
theorem opens_connect (hck : h.useChecksum = false)
    (hslot : (h.evictAddr src).allocSlot = some k) (nowMs : U32) :
    h.Opens (connectDatagram 77 2 1392) src nowMs (h.evictAddr src) firstConnect
      (handshakeHeader cmdConnect) k :=
  ⟨⟨_, [], [], acceptDatagram_connect hck src, rfl, rfl⟩, by decide, hslot⟩

/-- An address that is not known has nothing to evict. -/
theorem evictAddr_of_none (hsrc : h.addrMap src = none) : h.evictAddr src = h := by
  simp [evictAddr, hsrc]

theorem onDatagram_connect (hck : h.useChecksum = false) (hsrc : h.addrMap src = none)
    (hslot : h.allocSlot = some k) (nowMs : U32) :
    h.onDatagram (connectDatagram 77 2 1392) src nowMs
      = (h.install k (h.serverHandshake k firstConnect (handshakeHeader cmdConnect) src nowMs).1
        ).emitByKey k [ack channelIdConnection 1 7, (h.serverHandshake k firstConnect
          (handshakeHeader cmdConnect) src nowMs).2] nowMs := by
  have htype : (handshakeHeader cmdConnect).commandType = cmdConnect := by decide
  simp only [onDatagram, acceptDatagram_connect hck src, onCommands, onCommand, dispatch, htype,
    if_true, onConnect, evictAddr_of_none hsrc, hslot]
  rfl

/-! ## §4. Routing after the handshake. -/

/-- What the client is told about slot `k`, and what the server keeps. -/
theorem routed_of_served {p q : PeerEntry} {requested : U8} (hm : Mapped h) (hq : h.peer k = some q)
    (hserved : ServedAt src (negotiateSession requested 1) q)
    (hid : p.outgoingPeerId = BitVec.ofNat 16 k)
    (hsession : p.outgoingSessionId = negotiateSession requested 1) (slice : Bytes) (nowMs : U32) :
    (h.resolveKey (p.datagramHeader nowMs) src = some k
        ∧ h.sessionOk (p.datagramHeader nowMs) (some k) slice = true)
      ↔ k < 4096 ∨ k % 4096 = 4095 := by
  have hmap : h.addrMap src = some k := hserved.addr ▸ hm.mapped k q hq
  have hbind : (some k).bind h.peer = some q := hq
  have hok : h.sessionOk (p.datagramHeader nowMs) (some k) slice = true := by
    refine sessionOk_of_session hbind (.inr ?_) slice
    rw [sessionId_datagramHeader requested hsession, hserved.session]
  rw [and_iff_left hok]
  exact resolveKey_eq_some_iff (lt_of_peer_eq_some hq) hmap hid nowMs

/-- **Routing after the handshake.**  On a server with any number of slots,
`on_connect` gives a client slot `k` and later, with the connection still there,
a datagram arrives from the client's address that `make_datagram` built with the
peer id and the session id of VERIFY_CONNECT.  It is resolved to slot `k`, and
passes the session check, exactly when `k` fits in twelve bits or ends in twelve
ones. -/
theorem routed_iff (maxPeers : Nat) (useChecksum : Bool) (ib ob : U32) {is₁ is₂ : List Timed}
    (hserver : ∀ i ∈ is₁ ++ is₂, i.2.IsServer) {h₀ : HostTask}
    (hrun₁ : (bind maxPeers useChecksum ib ob).run is₁ = some h₀) {raw : Bytes} {t : U32}
    {c : ConnectCmd} {hdr : CommandHeader} (hopen : h₀.Opens raw src t h₁ c hdr k)
    (hrun₂ : (h₀.onDatagram raw src t).run is₂ = some h) {q : PeerEntry} (hq : h.peer k = some q)
    (hconn : q.conn = h₁.nextConn) {vhdr : CommandHeader} {v : VerifyConnectCmd}
    (hverify : Command.parse (h₁.serverHandshake k c hdr src t).2
      = some (⟨vhdr, .verifyConnect v⟩, []))
    {p : PeerEntry} (hid : p.outgoingPeerId = v.outgoingPeerId)
    (hsession : p.outgoingSessionId = v.outgoingSessionId) (cmds : List Bytes) (nowMs : U32) :
    ∃ phdr slice, ProtocolHeader.parse (makeDatagram useChecksum p cmds nowMs) = some (phdr, slice)
      ∧ ((h.resolveKey phdr src = some k ∧ h.sessionOk phdr (some k) slice = true)
        ↔ k < 4096 ∨ k % 4096 = 4095) := by
  have hopened : Mapped h₀ := mapped_of_run 64 maxPeers useChecksum ib ob is₁
    (.inl fun i hi => hserver i (List.mem_append_left _ hi)) hrun₁
  have hm : Mapped h := by
    refine mapped_of_run 64 maxPeers useChecksum ib ob (is₁ ++ (t, .datagram raw src) :: is₂)
      (.inl fun i hi => ?_) (Transition.run_append.mpr ⟨h₀, hrun₁, ?_⟩)
    · rcases List.mem_append.mp hi with hi | hi
      · exact hserver i (List.mem_append_left _ hi)
      · rcases List.mem_cons.mp hi with rfl | hi
        · trivial
        · exact hserver i (List.mem_append_right _ hi)
    · exact Transition.run_cons_eq_some.mpr ⟨_, rfl, hrun₂⟩
  obtain ⟨-, hserved⟩ := ((hopen.tracks hopened.owned).run ServedAt.op hrun₂).2 k q hq hconn
  -- what VERIFY_CONNECT says
  rw [parse_serverHandshake] at hverify
  cases hverify
  exact ⟨_, _, parse_makeDatagram, routed_of_served hm hq hserved hid hsession _ nowMs⟩

/-- Alice's side of a connection to slot 1. -/
def secondSide : PeerEntry := { clientSide with outgoingPeerId := 1 }

/-- Bob is in slot 0 and Alice in slot 1, both handshakes complete; four commands of
Alice's reach her slot. -/
theorem routed_iff_alice :
    ∃ h phdr slice, (bind 4 false 0 0).run (bobConnects 0 10
        ++ [(30, .datagram (connectDatagram 77 2 1392) alice),
          (40, .datagram (peerDatagram 1 9 [ack channelIdConnection 1 10]) alice)]) = some h
      ∧ ((h.peer 0).map (·.state), (h.peer 1).map (·.state)) = (some .connected, some .connected)
      ∧ ProtocolHeader.parse (makeDatagram false secondSide (mixedCommands.map Command.write) 50)
        = some (phdr, slice)
      ∧ h.resolveKey phdr alice = some 1 ∧ h.sessionOk phdr (some 1) slice = true := by
  have hrun : ((bind 4 false 0 0).run (bobConnects 0 10)).any (fun h₀ => !h₀.useChecksum
      && decide ((h₀.evictAddr alice).allocSlot = some 1)
      && ((h₀.onDatagram (connectDatagram 77 2 1392) alice 30).run
        [(40, .datagram (peerDatagram 1 9 [ack channelIdConnection 1 10]) alice)]).any fun h =>
          decide (((h.peer 0).map (·.state), (h.peer 1).map (·.state))
            = (some PeerState.connected, some PeerState.connected))
          && (h.peer 1).any fun q => decide (q.conn = (h₀.evictAddr alice).nextConn)) = true := by
    decide +kernel
  obtain ⟨h₀, hh₀, hrest⟩ := (Option.any_eq_true _ _).mp hrun
  simp only [Bool.and_eq_true, Bool.not_eq_true', Option.any_eq_true, decide_eq_true_eq] at hrest
  obtain ⟨⟨hck, hslot⟩, h, hh, hstates, q, hq, hconn⟩ := hrest
  have hid : secondSide.outgoingPeerId = BitVec.ofNat 16 1 := rfl
  obtain ⟨phdr, slice, hparse, hiff⟩ := routed_iff 4 false 0 0 (by simp [bobConnects, Input.IsServer])
    hh₀ (opens_connect hck hslot 30) hh hq hconn (parse_serverHandshake _ _ _ _ _ _) hid rfl
    (mixedCommands.map Command.write) 50
  refine ⟨h, phdr, slice, ?_, hstates, hparse, hiff.mpr (.inl (by decide))⟩
  exact Transition.run_append.mpr ⟨h₀, hh₀, Transition.run_cons_eq_some.mpr ⟨_, rfl, hh⟩⟩

/-! ## §5. A server with more than 4096 slots. -/

/-- One address for each client. -/
def clientAddr (i : Nat) : SocketAddr := .v4 (BitVec.ofNat 32 i) 6000

/-- The first `n` of 4097 slots are taken: slot 0 by Alice, who is connected,
the others by clients with the addresses `clientAddr 1, …, clientAddr (n - 1)`. -/
structure Filled (n : Nat) (h : HostTask) : Prop where
  length : h.peers.length = 4097
  checksum : h.useChecksum = false
  full : ∀ j < n, h.peer j ≠ none
  free : ∀ j, n ≤ j → h.peer j = none
  addrs : ∀ j q, h.peer j = some q → q.addr = alice ∨ ∃ i < n, q.addr = clientAddr i
  first : ∃ q, h.peer 0 = some q ∧ q.state = .connected ∧ ServedAt alice 1 q

theorem clientAddr_inj {i j : Nat} (hi : i < 2 ^ 32) (hj : j < 2 ^ 32)
    (heq : clientAddr i = clientAddr j) : i = j := by
  have hv := congrArg BitVec.toNat (SocketAddr.v4.inj heq).1
  rw [BitVec.toNat_ofNat, BitVec.toNat_ofNat, Nat.mod_eq_of_lt hi, Nat.mod_eq_of_lt hj] at hv
  exact hv

namespace Filled

variable {n : Nat}

/-- The next client's address is new. -/
theorem addrMap_eq_none (hf : Filled n h) (ho : Owned h) (hn : n ≤ 4096) :
    h.addrMap (clientAddr n) = none := by
  cases hk : h.addrMap (clientAddr n) with
  | none => rfl
  | some j =>
      obtain ⟨q, hq, hqa⟩ := ho.addr _ j hk
      rcases hf.addrs j q hq with ha | ⟨i, hi, ha⟩
      · exact absurd (hqa.symm.trans ha) (by simp [clientAddr, alice])
      · have hin := clientAddr_inj (by omega) (by omega) (hqa.symm.trans ha)
        omega

/-- The next client gets slot `n`. -/
theorem allocSlot_eq (hf : Filled n h) (hn : n ≤ 4096) : h.allocSlot = some n := by
  have hlen := hf.length
  have hlt : n < h.peers.length := by omega
  refine List.findIdx?_eq_some_iff_getElem.mpr ⟨hlt, ?_, fun j hj => ?_⟩
  · have hfree := hf.free n (Nat.le_refl n)
    simp only [peer, List.getElem?_eq_getElem hlt, Option.join_some] at hfree
    simp [hfree]
  · have hfull := hf.full j hj
    simp only [peer, List.getElem?_eq_getElem (Nat.lt_trans hj hlt), Option.join_some] at hfull
    simpa using hfull

/-- **One more client.** -/
theorem next (hf : Filled n h) (ho : Owned h) (hpos : 0 < n) (hn : n ≤ 4096) (nowMs : U32) :
    Filled (n + 1) (h.onDatagram (connectDatagram 77 2 1392) (clientAddr n) nowMs) := by
  have hslot := hf.allocSlot_eq hn
  rw [onDatagram_connect hf.checksum (hf.addrMap_eq_none ho hn) hslot]
  generalize hentry : (h.serverHandshake n firstConnect (handshakeHeader cmdConnect) (clientAddr n)
    nowMs) = e
  have haddr : e.1.addr = clientAddr n := by
    rw [← hentry]
    rfl
  have hat : (h.install n e.1).peer n = some e.1 := (peer_install hslot _ n).trans (if_pos rfl)
  rw [emitByKey_of_some hat (by simp)]
  have hpeer : ∀ j, ((h.install n e.1).setPeer n { e.1 with lastSendTime := nowMs }).peer j
      = if j = n then some { e.1 with lastSendTime := nowMs } else h.peer j := by
    intro j
    rw [peer_setPeer hat, peer_install hslot]
    split <;> rfl
  refine ⟨?_, hf.checksum, ?_, ?_, ?_, ?_⟩
  · simp [install, hf.length]
  · intro j hj
    rw [note_peer, hpeer]
    split
    · exact Option.some_ne_none _
    · next hjn => exact hf.full j (Nat.lt_of_le_of_ne (Nat.le_of_lt_succ hj) hjn)
  · intro j hj
    rw [note_peer, hpeer, if_neg (Nat.ne_of_gt hj)]
    exact hf.free j (Nat.le_of_succ_le hj)
  · intro j q hq
    rw [note_peer, hpeer] at hq
    split at hq
    · cases hq
      exact .inr ⟨n, Nat.lt_succ_self n, haddr⟩
    · rcases hf.addrs j q hq with ha | ⟨i, hi, ha⟩
      · exact .inl ha
      · exact .inr ⟨i, Nat.lt_succ_of_lt hi, ha⟩
  · obtain ⟨q, hq, hrest⟩ := hf.first
    refine ⟨q, ?_, hrest⟩
    rw [note_peer, hpeer, if_neg (Nat.ne_of_lt hpos), hq]

/-- Alice alone, connected. -/
theorem one : ∃ h, (bind 4097 false 0 0).run (aliceConnects 10) = some h ∧ Filled 1 h := by
  have hrun : ((bind 4097 false 0 0).run (aliceConnects 10)).any (fun h =>
      decide (h.peers.length = 4097) && !h.useChecksum && (h.peers.drop 1).all (·.isNone)
        && (h.peer 0).any (fun q => decide (q.state = .connected ∧ q.addr = alice
          ∧ q.incomingSessionId = 1))) = true := by decide +kernel
  obtain ⟨h, hh, hrest⟩ := (Option.any_eq_true _ _).mp hrun
  simp only [Bool.and_eq_true, Bool.not_eq_true', Option.any_eq_true, decide_eq_true_eq,
    List.all_eq_true, Option.isNone_iff_eq_none] at hrest
  obtain ⟨⟨⟨hlen, hck⟩, hdrop⟩, q, hq, hst, hqa, hqs⟩ := hrest
  have hfree : ∀ j, 1 ≤ j → h.peer j = none := by
    intro j hj
    cases hjq : h.peers[j]? with
    | none => simp [peer, hjq]
    | some o =>
        have hmem : o ∈ h.peers.drop 1 := by
          refine List.mem_of_getElem? (i := j - 1) ?_
          rw [List.getElem?_drop, Nat.add_sub_cancel' hj]
          exact hjq
        simp [peer, hjq, hdrop o hmem]
  refine ⟨h, hh, hlen, hck, ?_, hfree, ?_, q, hq, hst, hqa, hqs, by rw [hst]; decide⟩
  · intro j hj
    rw [Nat.lt_one_iff.mp hj, hq]
    exact Option.some_ne_none q
  · intro j r hr
    cases j with
    | zero =>
        cases hq.symm.trans hr
        exact .inl hqa
    | succ j =>
        rw [hfree (j + 1) (Nat.succ_le_succ (Nat.zero_le j))] at hr
        cases hr

/-- **A full table is reached**, by one CONNECT after the other. -/
theorem exists_run (n : Nat) (hpos : 1 ≤ n) (hn : n ≤ 4096) :
    ∃ is h, (∀ i ∈ is, i.2.IsServer) ∧ (bind 4097 false 0 0).run is = some h ∧ Filled n h := by
  induction n, hpos using Nat.le_induction with
  | base =>
      obtain ⟨h, hh, hf⟩ := one
      exact ⟨_, h, by simp [aliceConnects, Input.IsServer], hh, hf⟩
  | succ n hpos ih =>
      obtain ⟨is, h, hserver, hrun, hf⟩ := ih (by omega)
      have ho : Owned h := Reachable.owned ⟨_, _, _, _, _, is, hrun⟩
      refine ⟨is ++ [(0, .datagram (connectDatagram 77 2 1392) (clientAddr n))], _, ?_,
        Transition.run_append.mpr ⟨h, hrun, rfl⟩, hf.next ho hpos (by omega) 0⟩
      intro i hi
      rcases List.mem_append.mp hi with hi | hi
      · exact hserver i hi
      · obtain rfl := List.mem_singleton.mp hi
        trivial

end Filled

/-- **Slot 4096 is taken for slot 0**: of the server's 4097 slots the last is
given out; the client's datagrams then pass for those of Alice, who is connected
in slot 0. -/
theorem slot_misrouted :
    ∃ is h₀ phdr slice q v vhdr, (∀ i ∈ is, i.2.IsServer) ∧ (bind 4097 false 0 0).run is = some h₀
      ∧ h₀.Opens (connectDatagram 77 2 1392) (clientAddr 4096) 0 h₀ firstConnect
          (handshakeHeader cmdConnect) 4096
      ∧ Command.parse (h₀.serverHandshake 4096 firstConnect (handshakeHeader cmdConnect)
          (clientAddr 4096) 0).2 = some (⟨vhdr, .verifyConnect v⟩, [])
      ∧ let h := h₀.onDatagram (connectDatagram 77 2 1392) (clientAddr 4096) 0
        let p := { clientSide with
          outgoingPeerId := v.outgoingPeerId, outgoingSessionId := v.outgoingSessionId }
        ProtocolHeader.parse (makeDatagram false p [] 0) = some (phdr, slice)
          ∧ h.resolveKey phdr (clientAddr 4096) = some 0 ∧ h.sessionOk phdr (some 0) slice = true
          ∧ h.peer 0 = some q ∧ q.state = .connected ∧ q.addr = alice := by
  obtain ⟨is, h₀, hserver, hrun, hf⟩ := Filled.exists_run 4096 (by decide) (by decide)
  have ho : Owned h₀ := Reachable.owned ⟨_, _, _, _, _, is, hrun⟩
  have hslot := hf.allocSlot_eq (Nat.le_refl _)
  have hevict := evictAddr_of_none (hf.addrMap_eq_none ho (Nat.le_refl _))
  have hopen := opens_connect hf.checksum (hevict.symm ▸ hslot) 0
  rw [hevict] at hopen
  have hf' := hf.next ho (by decide) (Nat.le_refl _) 0
  obtain ⟨q, hq, hst, hserved⟩ := hf'.first
  refine ⟨is, h₀, _, _, q, _, _, hserver, hrun, hopen, parse_serverHandshake _ _ _ _ _ _,
    parse_makeDatagram, ?_, ?_, hq, hst, hserved.addr⟩
  · -- of 4096 the low twelve bits are zero
    have hlen : 4096 < (h₀.onDatagram (connectDatagram 77 2 1392) (clientAddr 4096)
        0).peers.length := by
      rw [hf'.length]
      decide
    exact resolveKey_low hlen rfl (by decide) 0
  · have hbind : (some 0).bind (h₀.onDatagram (connectDatagram 77 2 1392) (clientAddr 4096)
        0).peer = some q := hq
    refine sessionOk_of_session hbind (.inr ?_) _
    rw [sessionId_datagramHeader 0xFF rfl, hserved.session]
    rfl

end HostTask

end EnetRs
