/-
  EnetRs.Exchange.Handshake — the two ends agree after the handshake.

  A client host and a server host, each in any reachable state, exchange the
  CONNECT that `begin_connect` writes and the VERIFY_CONNECT that `on_connect`
  answers with, through the byte encoders and the parsers.

  Main results:
    * `parse_clientHandshake`, `parse_serverHandshake` — what is written is read.
    * `handshake_agrees` — the entries of the two ends carry the same parameters,
      and each addresses the other's slot and session.
-/
import EnetRs.Host.Bounds
import EnetRs.Protocol.RoundTrip

namespace EnetRs

open MachineInt

namespace HostTask

/-! ## §1. The two commands. -/

/-- The CONNECT of `begin_connect`. -/
def connectRequest (h : HostTask) (slot : PeerKey) (channelCount : U8) (connectId userData : U32) :
    ConnectCmd :=
  { outgoingPeerId := BitVec.ofNat 16 slot
    incomingSessionId := 0xFF
    outgoingSessionId := 0xFF
    mtu := h.hostMtu
    windowSize := windowSizeMax
    channelCount := channelCount.setWidth 32
    incomingBandwidth := h.incomingBandwidth
    outgoingBandwidth := h.outgoingBandwidth
    throttleInterval := throttleIntervalMs
    throttleAcceleration := throttleAccelerationDefault
    throttleDeceleration := throttleDecelerationDefault
    connectId := connectId
    data := userData }

/-- The VERIFY_CONNECT of `on_connect`: the session ids are crossed. -/
def verifyReply (h : HostTask) (slot : PeerKey) (entry : PeerEntry) (channelCount : U8) :
    VerifyConnectCmd :=
  { outgoingPeerId := BitVec.ofNat 16 slot
    incomingSessionId := entry.outgoingSessionId
    outgoingSessionId := entry.incomingSessionId
    mtu := entry.mtu
    windowSize := entry.windowSize
    channelCount := channelCount.setWidth 32
    incomingBandwidth := h.incomingBandwidth
    outgoingBandwidth := h.outgoingBandwidth
    throttleInterval := entry.throttleInterval
    throttleAcceleration := entry.throttleAcceleration
    throttleDeceleration := entry.throttleDeceleration
    connectId := entry.connectId }

/-- The header of the first reliable command on the connection channel. -/
def handshakeHeader (cmdType : U8) : CommandHeader :=
  ⟨cmdType ||| commandFlagAcknowledge, channelIdConnection, 1⟩

/-- **CONNECT is read as it was written.** -/
theorem parse_clientHandshake (h : HostTask) (slot : PeerKey) (addr : SocketAddr) (channelCount : U8)
    (userData nowMs : U32) (reply : ConnectReplySender) (connectId : U32) :
    Command.parse (h.clientHandshake slot addr channelCount userData nowMs reply connectId).2
      = some (⟨handshakeHeader cmdConnect,
          .connect (h.connectRequest slot (umax channelCount 1) connectId userData)⟩, []) := by
  have hw : Command.WellFormed ⟨handshakeHeader cmdConnect,
      .connect (h.connectRequest slot (umax channelCount 1) connectId userData)⟩ :=
    ⟨(by decide : (handshakeHeader cmdConnect).commandType = cmdConnect), Nat.zero_lt_succ _⟩
  have hparse := Command.parse_write hw []
  rw [List.append_nil] at hparse
  exact hparse

/-- **VERIFY_CONNECT is read as it was written.** -/
theorem parse_serverHandshake (h : HostTask) (slot : PeerKey) (c : ConnectCmd) (hdr : CommandHeader)
    (src : SocketAddr) (nowMs : U32) :
    Command.parse (h.serverHandshake slot c hdr src nowMs).2
      = some (⟨handshakeHeader cmdVerifyConnect,
          .verifyConnect (h.verifyReply slot (h.serverEntry c hdr src nowMs)
            (negotiateChannels c))⟩, []) := by
  have hw : Command.WellFormed ⟨handshakeHeader cmdVerifyConnect,
      .verifyConnect (h.verifyReply slot (h.serverEntry c hdr src nowMs) (negotiateChannels c))⟩ :=
    ⟨(by decide : (handshakeHeader cmdVerifyConnect).commandType = cmdVerifyConnect), Nat.zero_lt_succ _⟩
  have hparse := Command.parse_write hw []
  rw [List.append_nil] at hparse
  exact hparse

/-! ## §2. A free slot. -/

/-- The eviction does not take a free slot away. -/
theorem allocSlot_evictAddr {h : HostTask} (hfree : h.allocSlot ≠ none) (src : SocketAddr) :
    (h.evictAddr src).allocSlot ≠ none := by
  obtain ⟨k, hk⟩ := Option.ne_none_iff_exists'.mp hfree
  have hk' : k < (h.evictAddr src).peers.length ∧ (h.evictAddr src).peer k = none := by
    unfold evictAddr
    split
    · next old _ =>
      refine ⟨by simpa using allocSlot_lt hk, ?_⟩
      rw [peer_removePeer, peer_notifyDisconnect]
      by_cases hold : k = old
      · rw [if_pos hold]
      · rw [if_neg hold, if_neg hold, peer_allocSlot hk]
    · exact ⟨allocSlot_lt hk, peer_allocSlot hk⟩
  exact allocSlot_ne_none hk'.1 hk'.2

/-! ## §3. Agreement. -/

/-- The entries of the two ends, the client's in its slot `kc` and the server's
in its slot `ks`, describe one connection. -/
structure Agree (kc ks : PeerKey) (client server : PeerEntry) : Prop where
  mtu : client.mtu = server.mtu
  windowSize : client.windowSize = server.windowSize
  channels : client.channels.length = server.channels.length
  connectId : client.connectId = server.connectId
  throttleInterval : client.throttleInterval = server.throttleInterval
  throttleAcceleration : client.throttleAcceleration = server.throttleAcceleration
  throttleDeceleration : client.throttleDeceleration = server.throttleDeceleration
  toClient : client.incomingSessionId = server.outgoingSessionId
  toServer : client.outgoingSessionId = server.incomingSessionId
  serverSlot : client.outgoingPeerId = BitVec.ofNat 16 ks
  clientSlot : server.outgoingPeerId = BitVec.ofNat 16 kc

/-- A value that was clamped is not changed by clamping it again. -/
theorem clamp_clamp (x : U32) :
    clamp (clamp x windowSizeMin windowSizeMax) windowSizeMin windowSizeMax
      = clamp x windowSizeMin windowSizeMax := by
  unfold clamp windowSizeMin windowSizeMax
  repeat' split
  all_goals first | rfl | bv_omega

/-- The channel count survives the clamp of `on_connect`. -/
theorem negotiateChannels_connectRequest (h : HostTask) (slot : PeerKey) (channelCount : U8)
    (connectId userData : U32) :
    negotiateChannels (h.connectRequest slot (umax channelCount 1) connectId userData)
      = umax channelCount 1 := by
  unfold negotiateChannels connectRequest clamp maxChannels umax
  repeat' split
  all_goals bv_omega

/-- **The entries agree**, in the form in which the two handlers compute them. -/
theorem agree_of_handshake {client server : HostTask} (hc : client.hostMtu = mtuDefault)
    (hs : server.hostMtu = mtuDefault) (kc ks : PeerKey) (addr src : SocketAddr) (channelCount : U8)
    (userData connectId t₁ t₂ t₃ : U32) (reply : ConnectReplySender) :
    let c := client.connectRequest kc (umax channelCount 1) connectId userData
    let hdr := handshakeHeader cmdConnect
    let entry := server.serverEntry c hdr src t₂
    let v := server.verifyReply ks entry (negotiateChannels c)
    Agree kc ks
      (verifiedEntry client.hostMtu
        (client.clientHandshake kc addr channelCount userData t₁ reply connectId).1 v
        (handshakeHeader cmdVerifyConnect) t₃)
      (server.serverHandshake ks c hdr src t₂).1 := by
  intro c hdr entry v
  refine ⟨?_, clamp_clamp _, ?_, rfl, rfl, rfl, rfl, rfl, rfl, rfl, rfl⟩
  · show umin (clamp (umin (clamp client.hostMtu mtuMin mtuMax) server.hostMtu) mtuMin mtuMax)
        client.hostMtu = umin (clamp client.hostMtu mtuMin mtuMax) server.hostMtu
    rw [hc, hs]
    decide
  · show (List.replicate (umax channelCount 1).toNat Channel.new).length
        = (List.replicate (negotiateChannels c).toNat Channel.new).length
    rw [negotiateChannels_connectRequest]

/-- CONNECT is the only command the client has outstanding. -/
theorem outgoingReliable_verifiedEntry (h : HostTask) (hostMtu : U32) (kc : PeerKey) (addr : SocketAddr)
    (channelCount : U8) (userData connectId t₁ t₃ : U32) (reply : ConnectReplySender)
    (v : VerifyConnectCmd) (hdr : CommandHeader) :
    (verifiedEntry hostMtu
      (h.clientHandshake kc addr channelCount userData t₁ reply connectId).1 v hdr
      t₃).outgoingReliable.isEmpty = true := by
  rfl

theorem evictAddr_hostMtu (h : HostTask) (src : SocketAddr) :
    (h.evictAddr src).hostMtu = h.hostMtu := by
  unfold evictAddr
  split <;> simp

/-- `on_verify_connect` on a Connecting entry with this connect id. -/
theorem peer_onVerifyConnect {h : HostTask} {k : PeerKey} {p : PeerEntry} {v : VerifyConnectCmd}
    {hdr : CommandHeader} {nowMs : U32} (hp : h.peer k = some p) (hst : p.state = .connecting)
    (hid : v.connectId = p.connectId) :
    (h.onVerifyConnect k v hdr nowMs).peer k = some (verifiedEntry h.hostMtu p v hdr nowMs) := by
  have hset : (h.setPeer k (verifiedEntry h.hostMtu p v hdr nowMs)).peer k
      = some (verifiedEntry h.hostMtu p v hdr nowMs) :=
    peer_setPeer_self (lt_of_peer_eq_some hp)
  simp only [onVerifyConnect, hp, hst, hid, ne_eq, not_true_eq_false, or_self, if_false]
  split
  · exact hset
  · exact hset

/-- **The handshake agrees.**  A client begins to connect; the server, with a
free slot, handles the CONNECT it parses and emits VERIFY_CONNECT to the source
address; the client handles the VERIFY_CONNECT it parses.  The client is then
Connected, nothing of it is outstanding, and the two entries agree. -/
theorem handshake_agrees {client server client' : HostTask} (hc : client.Reachable)
    (hs : server.Reachable) (addr src : SocketAddr) (channelCount : U8)
    (userData connectId t₁ t₂ t₃ : U32) (reply : ConnectReplySender) (sentTime : Option U16)
    {kc : PeerKey} {connectBytes : Bytes}
    (hbegin : client.beginConnect addr channelCount userData t₁ reply connectId
      = (client', some (kc, connectBytes)))
    (hfree : server.allocSlot ≠ none) :
    ∃ hdr c, Command.parse connectBytes = some (⟨hdr, .connect c⟩, [])
      ∧ hdr.commandType = cmdConnect
      ∧ ∃ ks acks verifyBytes datagram vhdr v,
        (server.evictAddr src).allocSlot = some ks
        ∧ (server.onConnect c hdr sentTime src t₂).trace
            = (server.evictAddr src).trace ++ [.sent src (acks ++ [verifyBytes]) datagram]
        ∧ Command.parse verifyBytes = some (⟨vhdr, .verifyConnect v⟩, [])
        ∧ vhdr.commandType = cmdVerifyConnect
        ∧ ∃ p q, (client'.onVerifyConnect kc v vhdr t₃).peer kc = some p
          ∧ (server.onConnect c hdr sentTime src t₂).peer ks = some q
          ∧ p.state = .connected ∧ p.outgoingReliable.isEmpty ∧ Agree kc ks p q := by
  -- what the client wrote
  obtain ⟨hslot, rfl, rfl⟩ : client.allocSlot = some kc
      ∧ client.install kc (client.clientHandshake kc addr channelCount userData t₁ reply
          connectId).1 = client'
      ∧ (client.clientHandshake kc addr channelCount userData t₁ reply connectId).2
        = connectBytes := by
    unfold beginConnect at hbegin
    split at hbegin
    · cases hbegin
    · next hslot =>
      cases hbegin
      exact ⟨hslot, rfl, rfl⟩
  refine ⟨_, _, parse_clientHandshake _ _ _ _ _ _ _ _, by decide, ?_⟩
  -- what the server answers
  obtain ⟨ks, hks⟩ := Option.ne_none_iff_exists'.mp (allocSlot_evictAddr hfree src)
  generalize hcdef : client.connectRequest kc (umax channelCount 1) connectId userData = c
  have hentry : ((server.evictAddr src).install ks
      ((server.evictAddr src).serverHandshake ks c (handshakeHeader cmdConnect) src t₂).1).peer ks
      = some ((server.evictAddr src).serverHandshake ks c (handshakeHeader cmdConnect) src t₂).1 :=
    (peer_install hks _ ks).trans (if_pos rfl)
  have hserver : server.onConnect c (handshakeHeader cmdConnect) sentTime src t₂
      = ((server.evictAddr src).install ks
          ((server.evictAddr src).serverHandshake ks c (handshakeHeader cmdConnect) src t₂).1
        ).emitByKey ks ((sentTime.map fun st => ack channelIdConnection 1 st).toList
          ++ [((server.evictAddr src).serverHandshake ks c (handshakeHeader cmdConnect) src t₂).2])
          t₂ := by
    simp only [onConnect, hks]
    rfl
  rw [hserver, emitByKey_of_some hentry (by simp)]
  refine ⟨ks, _, _, _, _, _, hks, rfl, parse_serverHandshake _ _ _ _ _ _, by decide, ?_⟩
  -- what the client makes of it
  have hclient : (client.install kc (client.clientHandshake kc addr channelCount userData t₁ reply
      connectId).1).peer kc
      = some (client.clientHandshake kc addr channelCount userData t₁ reply connectId).1 :=
    (peer_install hslot _ kc).trans (if_pos rfl)
  subst hcdef
  refine ⟨_, _, peer_onVerifyConnect hclient rfl rfl,
    peer_setPeer_self (lt_of_peer_eq_some hentry), rfl,
    outgoingReliable_verifiedEntry client _ kc addr channelCount userData connectId t₁ t₃ reply _ _,
    ?_⟩
  have hserverMtu : (server.evictAddr src).hostMtu = mtuDefault := by
    rw [evictAddr_hostMtu, hs.inRange.1]
  have hagree := agree_of_handshake hc.inRange.1 hserverMtu kc ks addr src channelCount userData
    connectId t₁ t₂ t₃ reply
  exact ⟨hagree.mtu, hagree.windowSize, hagree.channels, hagree.connectId, hagree.throttleInterval,
    hagree.throttleAcceleration, hagree.throttleDeceleration, hagree.toClient, hagree.toServer,
    hagree.serverSlot, hagree.clientSlot⟩

/-- A client that asks for no channels and a server with little bandwidth. -/
theorem handshake_agrees_small :
    ∃ client' connectBytes p q,
      (HostTask.new 1 1 false 0 0).beginConnect bob 0 7 10 9 77 = (client', some (0, connectBytes))
        ∧ p.state = .connected ∧ Agree 0 0 p q
        ∧ ∃ hdr c, Command.parse connectBytes = some (⟨hdr, .connect c⟩, [])
          ∧ ((bind 4 true 50000 0).onConnect c hdr none alice 20).peer 0 = some q := by
  have hc : (HostTask.new 1 1 false 0 0).Reachable := ⟨1, 1, false, 0, 0, [], rfl⟩
  have hs : (bind 4 true 50000 0).Reachable := ⟨_, _, _, _, _, [], rfl⟩
  have hbegin : (HostTask.new 1 1 false 0 0).beginConnect bob 0 7 10 9 77 = (_, some (0, _)) := rfl
  obtain ⟨hdr, c, hparse, -, ks, _, _, _, _, v, hks, -, -, -, p, q, -, hq, hst, -, hagree⟩ :=
    handshake_agrees hc hs bob alice 0 7 77 10 20 30 9 none hbegin (by decide)
  obtain rfl : ks = 0 := (Option.some.inj hks).symm
  exact ⟨_, _, p, q, hbegin, hst, hagree, hdr, c, hparse, hq⟩

end HostTask

end EnetRs
