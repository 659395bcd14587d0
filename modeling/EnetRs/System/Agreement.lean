/-
  EnetRs.System.Agreement — the two ends agree on the connection.

  CONNECTs may be lost, repeated and answered several times, the server may drop its
  entry and make a new one for a late CONNECT, and VERIFY_CONNECTs of different
  entries may cross.  Still, once the client has been told, every entry that the
  server has for it is on the same terms, and the datagrams of each end lead to the
  entry of the other.

  Main results:
    * `Config.terms_agree` — the terms.
    * `Config.datagrams_accepted` — both directions of the traffic.
-/
import EnetRs.System.Link

namespace EnetRs

open MachineInt

namespace HostTask

/-- Without checksums, the slot and the session id decide. -/
theorem acceptDatagram_of_session {h : HostTask} {p q : PeerEntry} {k : PeerKey} {src : SocketAddr}
    {nowMs : U32} (hck : h.useChecksum = false)
    (hkey : h.resolveKey (p.datagramHeader nowMs) src = some k) (hq : h.peer k = some q)
    (hs : q.incomingSessionId = 0xFF ∨ (p.datagramHeader nowMs).sessionId = q.incomingSessionId)
    (cmds : List Bytes) :
    h.acceptDatagram (makeDatagram false p cmds nowMs) src
      = some ⟨some k, (p.datagramHeader nowMs).sentTime, parseCommands cmds.flatten⟩ := by
  have hbind : (some k).bind h.peer = some q := hq
  have hok := sessionOk_of_session hbind hs
    (p.checksumBytes false cmds nowMs ++ cmds.flatten)
  simp only [acceptDatagram, parse_makeDatagram, p.datagramHeader_isCompressed nowMs, hkey, hok,
    checkedPayload_makeDatagram _ hck]
  rfl

/-- A header that names slot 0. -/
theorem resolveKey_zero {h : HostTask} {p : PeerEntry} (hlen : 0 < h.peers.length)
    (hid : p.outgoingPeerId = 0) (nowMs : U32) (src : SocketAddr) :
    h.resolveKey (p.datagramHeader nowMs) src = some 0 := by
  have hzero : (p.datagramHeader nowMs).peerId.toNat = 0 := by
    rw [PeerEntry.datagramHeader_peerId_toNat, hid]
    rfl
  have hne : (p.datagramHeader nowMs).peerId ≠ headerPeerIdMax := by
    intro heq
    rw [heq] at hzero
    cases hzero
  unfold resolveKey
  rw [if_neg hne, hzero, if_pos hlen]

end HostTask

namespace Config

/-- **The two ends agree.**  Once the application has the receiver of its
connection, every entry of the server is in slot 0, the slot that the client was
told, and on the terms that the client settled for. -/
theorem terms_agree (cfg : Config) (moves : List Move) (hp : ∀ m ∈ moves, Modest m)
    (s : Client × Server) (hrun : cfg.run moves = some s) (htold : s.1.last.toUserRx = none)
    (k : PeerKey) (q : PeerEntry) (hq : s.2.task.peer k = some q) :
    s.1.last.outgoingPeerId = BitVec.ofNat 16 k ∧ q.outgoingPeerId = 0
      ∧ s.1.last.connectId = q.connectId ∧ s.1.last.mtu = q.mtu
      ∧ s.1.last.channels.length = q.channels.length
      ∧ s.1.last.throttle = q.throttle
      ∧ s.1.last.outgoingSessionId = q.incomingSessionId
      ∧ s.1.last.incomingSessionId = q.outgoingSessionId := by
  have hm := met hp hrun
  have hc := hm.entry.settled htold
  obtain ⟨rfl, -, -, hs⟩ := hm.serves.entry k q hq
  -- the client's terms are the server's, with the slots and the session ids crossed
  have hfield : ∀ {α : Type} (f : Terms → α), f (HostTask.clientTerms 0 cfg.channelCount
      cfg.connectId) = f (HostTask.serverTerms 0 cfg.channelCount cfg.connectId) →
      f s.1.last.terms = f q.terms := by
    intro α f heq
    rw [hc, hs, heq]
  exact ⟨congrArg Terms.outgoingPeerId hc, congrArg Terms.outgoingPeerId hs,
    hfield Terms.connectId rfl, hfield Terms.mtu rfl, hfield Terms.channelCount rfl,
    hfield Terms.throttle rfl,
    (congrArg Terms.outgoingSessionId hc).trans (congrArg Terms.incomingSessionId hs).symm,
    (congrArg Terms.incomingSessionId hc).trans (congrArg Terms.outgoingSessionId hs).symm⟩

/-- Alice has connected to Bob. -/
theorem terms_agree_aliceToBob :
    ∃ s q, aliceToBob.run twoPackets = some s ∧ s.2.task.peer 0 = some q
      ∧ s.1.last.connectId = q.connectId ∧ s.1.last.mtu = q.mtu
      ∧ s.1.last.outgoingSessionId = q.incomingSessionId := by
  have hrun : (aliceToBob.run twoPackets).any (fun s =>
      (s.2.task.peer 0).isSome && decide (s.1.last.toUserRx = none)) = true := by decide +kernel
  obtain ⟨s, hs, hrest⟩ := (Option.any_eq_true _ _).mp hrun
  simp only [Bool.and_eq_true, Option.isSome_iff_exists, decide_eq_true_eq] at hrest
  obtain ⟨⟨q, hq⟩, htold⟩ := hrest
  obtain ⟨-, -, hid, hmtu, -, -, hsession, -⟩ := terms_agree aliceToBob twoPackets
    (by simp [twoPackets, Modest, Packet.Fits, maxPacketSize]) s hs htold 0 q hq
  exact ⟨s, q, hs, hq, hid, hmtu, hsession⟩

/-- **Both directions of the traffic.**  While both entries exist, what the server
sends leads to the client's entry, and once the client has been told, what it sends
leads to the server's.  The datagram passes every check, and up to 32 well-formed
commands (more are not read from one datagram) come out as they went in. -/
theorem datagrams_accepted (cfg : Config) (moves : List Move) (hp : ∀ m ∈ moves, Modest m)
    (s : Client × Server) (hrun : cfg.run moves = some s) (p : PeerEntry)
    (hpeer : s.1.task.peer 0 = some p) (k : PeerKey) (q : PeerEntry)
    (hq : s.2.task.peer k = some q) (cmds : List Command) (hwf : ∀ cmd ∈ cmds, cmd.WellFormed)
    (hlen : cmds.length ≤ maxCommandsPerPacket) (t : U32) :
    (∃ a, s.1.task.acceptDatagram (HostTask.makeDatagram false q (cmds.map Command.write) t)
          cfg.serverAddr = some a
        ∧ a.key = some 0 ∧ a.cmds = cmds)
      ∧ (p.toUserRx = none →
        ∃ a, s.2.task.acceptDatagram (HostTask.makeDatagram false p (cmds.map Command.write) t)
            cfg.clientAddr = some a
          ∧ a.key = some k ∧ a.cmds = cmds) := by
  have hread : parseCommands (cmds.map Command.write).flatten = cmds := by
    rw [parseCommands_write hwf, List.take_of_length_le hlen]
  have hm := met hp hrun
  have hentry := hm.asks.entry 0 p hpeer
  obtain ⟨rfl, -, -, hs⟩ := hm.serves.entry k q hq
  have hqid : q.outgoingPeerId = 0 := congrArg Terms.outgoingPeerId hs
  have hqout : q.outgoingSessionId = 2 := congrArg Terms.outgoingSessionId hs
  have hqin : q.incomingSessionId = 1 := congrArg Terms.incomingSessionId hs
  constructor
  · have hsession : p.incomingSessionId = 0xFF
        ∨ (q.datagramHeader t).sessionId = p.incomingSessionId := by
      by_cases hrx : p.toUserRx = none
      · right
        have hpin : p.incomingSessionId = 2 :=
          congrArg Terms.incomingSessionId (hentry.settled hrx)
        rw [← BitVec.toNat_inj, PeerEntry.datagramHeader_sessionId_toNat, hqout, hpin]
        rfl
      · exact .inl (congrArg Terms.incomingSessionId (hentry.asked hrx))
    exact ⟨_, HostTask.acceptDatagram_of_session hm.unchecked.1 (HostTask.resolveKey_zero
      (HostTask.lt_of_peer_eq_some hpeer) hqid t _) hpeer hsession _, rfl, hread⟩
  · intro hrx
    have hpid : p.outgoingPeerId = 0 := congrArg Terms.outgoingPeerId (hentry.settled hrx)
    have hpout : p.outgoingSessionId = 1 := congrArg Terms.outgoingSessionId (hentry.settled hrx)
    have hsession : (p.datagramHeader t).sessionId = q.incomingSessionId := by
      rw [← BitVec.toNat_inj, PeerEntry.datagramHeader_sessionId_toNat, hpout, hqin]
      rfl
    exact ⟨_, HostTask.acceptDatagram_of_session hm.unchecked.2 (HostTask.resolveKey_zero
      (HostTask.lt_of_peer_eq_some hq) hpid t _) hq (.inr hsession) _, rfl, hread⟩

/-- Four commands reach Alice's entry at Bob's, and Bob's at Alice's. -/
theorem datagrams_accepted_aliceToBob :
    ∃ s p q a b, aliceToBob.run twoPackets = some s ∧ s.1.task.peer 0 = some p
      ∧ s.2.task.peer 0 = some q
      ∧ s.1.task.acceptDatagram (HostTask.makeDatagram false q
          (HostTask.mixedCommands.map Command.write) 80) aliceToBob.serverAddr = some a
      ∧ a.key = some 0 ∧ a.cmds = HostTask.mixedCommands
      ∧ s.2.task.acceptDatagram (HostTask.makeDatagram false p
          (HostTask.mixedCommands.map Command.write) 80) aliceToBob.clientAddr = some b
      ∧ b.key = some 0 ∧ b.cmds = HostTask.mixedCommands := by
  have hrun : (aliceToBob.run twoPackets).any (fun s => (s.2.task.peer 0).isSome
      && (s.1.task.peer 0).any (fun p => decide (p.toUserRx = none))) = true := by decide +kernel
  obtain ⟨s, hs, hrest⟩ := (Option.any_eq_true _ _).mp hrun
  simp only [Bool.and_eq_true, Option.isSome_iff_exists, Option.any_eq_true,
    decide_eq_true_eq] at hrest
  obtain ⟨⟨q, hq⟩, p, hpeer, htold⟩ := hrest
  obtain ⟨⟨a, ha, hakey, hacmds⟩, hback⟩ := datagrams_accepted aliceToBob twoPackets
    (by simp [twoPackets, Modest, Packet.Fits, maxPacketSize]) s hs p hpeer 0 q hq
    HostTask.mixedCommands (by decide) (by decide) 80
  obtain ⟨b, hb, hbkey, hbcmds⟩ := hback htold
  exact ⟨s, p, q, a, b, hs, hpeer, hq, ha, hakey, hacmds, hb, hbkey, hbcmds⟩

end Config

end EnetRs
