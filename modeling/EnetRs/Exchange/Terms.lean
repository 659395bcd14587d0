/-
  EnetRs.Exchange.Terms — the terms of a connection.

  CONNECT and VERIFY_CONNECT settle the terms: the connect id, the MTU, the number
  of channels, the throttle parameters, the slot and the session ids with which the
  two ends address each other.  Afterwards only THROTTLE_CONFIGURE changes any of
  them, and no host of this crate sends it.

  Main results:
    * `PeerOp.terms_apply` — what an operation leaves of the terms.
    * `HostTask.serverHandshake_terms`, `HostTask.verifiedEntry_terms` — what the two
      halves of the handshake settle.
-/
import EnetRs.Exchange.Handshake
import EnetRs.Host.Channels
import EnetRs.Host.Ownership
import EnetRs.Safety.Limits

namespace EnetRs

open MachineInt

structure Terms where
  connectId : U32
  mtu : U32
  channelCount : Nat
  throttle : ThrottleConfigureCmd
  outgoingPeerId : U16
  incomingSessionId : U8
  outgoingSessionId : U8
  deriving DecidableEq, Repr

/-- The terms in an entry. -/
def PeerEntry.terms (p : PeerEntry) : Terms where
  connectId := p.connectId
  mtu := p.mtu
  channelCount := p.channels.length
  throttle := p.throttle
  outgoingPeerId := p.outgoingPeerId
  incomingSessionId := p.incomingSessionId
  outgoingSessionId := p.outgoingSessionId

/-- The operations that bring terms. -/
def PeerOp.BringsTerms : PeerOp → Prop
  | .verify _ _ _ | .recvThrottleConfigure _ => True
  | _ => False

/-- **Every other operation keeps the terms.** -/
theorem PeerOp.terms_apply {h : HostTask} {p : PeerEntry} {o : PeerOp} (nowMs : U32)
    (hg : o.Guard h p) (hlen : p.channels.length ≤ 255) (ho : ¬ o.BringsTerms) :
    (o.apply nowMs p).terms = p.terms := by
  have hch := PeerOp.channels_length nowMs hg hlen
  have hrest : (o.apply nowMs p).connectId = p.connectId ∧ (o.apply nowMs p).mtu = p.mtu
      ∧ (o.apply nowMs p).throttle = p.throttle
      ∧ (o.apply nowMs p).outgoingPeerId = p.outgoingPeerId
      ∧ (o.apply nowMs p).incomingSessionId = p.incomingSessionId
      ∧ (o.apply nowMs p).outgoingSessionId = p.outgoingSessionId := by
    rw [o.get_apply (·.connectId), o.get_apply (·.mtu), o.get_apply PeerEntry.throttle,
      o.get_apply (·.outgoingPeerId), o.get_apply (·.incomingSessionId),
      o.get_apply (·.outgoingSessionId)]
    cases o with
    | verify hostMtu vc hdr => exact absurd trivial ho
    | recvThrottleConfigure tc => exact absurd trivial ho
    | _ => exact ⟨rfl, rfl, rfl, rfl, rfl, rfl⟩
  obtain ⟨hid, hmtu, hthr, hpeer, hin, hout⟩ := hrest
  simp only [PeerEntry.terms, hch, hid, hmtu, hthr, hpeer, hin, hout]

namespace HostTask

/-! ## The handshake. -/

/-- The throttle parameters a client asks for. -/
def defaultThrottle : ThrottleConfigureCmd :=
  ⟨throttleIntervalMs, throttleAccelerationDefault, throttleDecelerationDefault⟩

/-- The terms on which the server settles. -/
def serverTerms (kc : PeerKey) (channelCount : U8) (connectId : U32) : Terms where
  connectId := connectId
  mtu := mtuDefault
  channelCount := (umax channelCount 1).toNat
  throttle := defaultThrottle
  outgoingPeerId := BitVec.ofNat 16 kc
  incomingSessionId := 1
  outgoingSessionId := 2

/-- The same terms, seen from the client: the server's slot, and the session ids
crossed. -/
def clientTerms (ks : PeerKey) (channelCount : U8) (connectId : U32) : Terms :=
  { serverTerms ks channelCount connectId with incomingSessionId := 2, outgoingSessionId := 1 }

/-- The terms of a client that waits for VERIFY_CONNECT. -/
def askedTerms (channelCount : U8) (connectId : U32) : Terms :=
  { serverTerms 0 channelCount connectId with
    outgoingPeerId := peerIdUnassigned, incomingSessionId := 0xFF, outgoingSessionId := 0xFF }

theorem clientHandshake_terms {client : HostTask} (hc : client.hostMtu = mtuDefault) (kc : PeerKey)
    (addr : SocketAddr) (channelCount : U8) (userData nowMs : U32) (reply : ConnectReplySender)
    (connectId : U32) :
    (client.clientHandshake kc addr channelCount userData nowMs reply connectId).1.terms
      = askedTerms channelCount connectId := by
  have hlen : (client.clientHandshake kc addr channelCount userData nowMs reply
      connectId).1.channels.length = (umax channelCount 1).toNat := List.length_replicate
  show Terms.mk connectId client.hostMtu _ _ _ _ _ = _
  rw [hlen, hc]
  rfl

/-- **What `on_connect` settles.** -/
theorem serverHandshake_terms (client : HostTask) {server : HostTask}
    (hc : client.hostMtu = mtuDefault) (hs : server.hostMtu = mtuDefault) (kc ks : PeerKey)
    (channelCount : U8) (connectId userData : U32) (hdr : CommandHeader) (src : SocketAddr)
    (nowMs : U32) :
    (server.serverHandshake ks
        (client.connectRequest kc (umax channelCount 1) connectId userData) hdr src nowMs).1.terms
      = serverTerms kc channelCount connectId := by
  have hlen : (server.serverHandshake ks
      (client.connectRequest kc (umax channelCount 1) connectId userData) hdr src
      nowMs).1.channels.length = (umax channelCount 1).toNat := by
    have hcount := negotiateChannels_connectRequest client kc channelCount connectId userData
    exact List.length_replicate.trans (congrArg BitVec.toNat hcount)
  have hmtu : umin (clamp client.hostMtu mtuMin mtuMax) server.hostMtu = mtuDefault := by
    rw [hc, hs]
    decide
  show Terms.mk connectId (umin (clamp client.hostMtu mtuMin mtuMax) server.hostMtu) _ _ _ _ _ = _
  rw [hlen, hmtu]
  rfl

/-- The VERIFY_CONNECT with these terms. -/
def VerifyTerms (ks : PeerKey) (connectId : U32) (v : VerifyConnectCmd) : Prop :=
  v.connectId = connectId ∧ v.mtu = mtuDefault ∧ v.outgoingPeerId = BitVec.ofNat 16 ks
    ∧ v.incomingSessionId = 2 ∧ v.outgoingSessionId = 1
    ∧ (⟨v.throttleInterval, v.throttleAcceleration, v.throttleDeceleration⟩ : ThrottleConfigureCmd)
      = defaultThrottle

theorem verifyReply_terms {server : HostTask} {entry : PeerEntry} {kc : PeerKey} {channelCount : U8}
    {connectId : U32} (he : entry.terms = serverTerms kc channelCount connectId) (ks : PeerKey)
    (n : U8) : VerifyTerms ks connectId (server.verifyReply ks entry n) := by
  have hid : entry.connectId = connectId := congrArg Terms.connectId he
  have hmtu : entry.mtu = mtuDefault := congrArg Terms.mtu he
  have hin : entry.incomingSessionId = 1 := congrArg Terms.incomingSessionId he
  have hout : entry.outgoingSessionId = 2 := congrArg Terms.outgoingSessionId he
  have hthr : entry.throttle = defaultThrottle := congrArg Terms.throttle he
  exact ⟨hid, hmtu, rfl, hout, hin, hthr⟩

/-- **What `on_verify_connect` settles.** -/
theorem verifiedEntry_terms {p : PeerEntry} {v : VerifyConnectCmd} {ks : PeerKey}
    {channelCount : U8} {connectId : U32} (hp : p.terms = askedTerms channelCount connectId)
    (hv : VerifyTerms ks connectId v) (hdr : CommandHeader) (nowMs : U32) :
    (verifiedEntry mtuDefault p v hdr nowMs).terms = clientTerms ks channelCount connectId := by
  obtain ⟨-, hmtu, hpeer, hin, hout, hthr⟩ := hv
  have hid : p.connectId = connectId := congrArg Terms.connectId hp
  have hlen : p.channels.length = (umax channelCount 1).toNat := congrArg Terms.channelCount hp
  have hclamp : umin (clamp v.mtu mtuMin mtuMax) mtuDefault = mtuDefault := by
    rw [hmtu]
    decide
  show Terms.mk p.connectId (umin (clamp v.mtu mtuMin mtuMax) mtuDefault) p.channels.length
    ⟨v.throttleInterval, v.throttleAcceleration, v.throttleDeceleration⟩ v.outgoingPeerId
    v.incomingSessionId v.outgoingSessionId = _
  rw [hid, hclamp, hlen, hthr, hpeer, hin, hout]
  rfl

end HostTask

end EnetRs
