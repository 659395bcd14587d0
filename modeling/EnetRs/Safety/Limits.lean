/-
  EnetRs.Safety.Limits — what the remote side can make of an entry's limits.

  MTU, window and packet throttle are clamped wherever they are written, so
  they stay in range whatever arrives, and the limits `send_packet` derives
  from them are usable.  The three throttle parameters are clamped by
  THROTTLE_CONFIGURE only: CONNECT and VERIFY_CONNECT store them as received.

  Main results:
    * `negotiated_limits` — every entry of every reachable state.
    * `throttle_sanitised` — the throttle parameters, in a run in which the
      handshakes bring usable ones.
-/
import EnetRs.Host.Bounds

namespace EnetRs

open MachineInt

/-! ## §1. What is clamped. -/

/-- An entry within the limits of a host. -/
structure Limited (hostMtu : U32) (p : PeerEntry) : Prop extends InRange p where
  mtu_le : p.mtu ≤ hostMtu
  throttle : p.packetThrottle ≤ packetThrottleScale

namespace PeerEntry

/-- The throttle an ACK leaves is the old one, or at most the scale, or a reduced one. -/
theorem adjustThrottle_le {p : PeerEntry} (nowMs : U32)
    (hp : p.packetThrottle ≤ packetThrottleScale) :
    (p.adjustThrottle nowMs).packetThrottle ≤ packetThrottleScale := by
  unfold adjustThrottle
  simp only
  repeat' split
  · exact umin_le_right _ _
  · exact BitVec.le_trans (satSub_le _ _) hp
  all_goals exact hp

theorem sampleRtt_limits (p : PeerEntry) (t : U16) (nowMs : U32) :
    (p.sampleRtt t nowMs).limits = p.limits := by
  unfold sampleRtt updateRtt
  simp only
  repeat' split
  all_goals rfl

/-- The entry as it is when `on_ack` adjusts the throttle. -/
def sampled (p : PeerEntry) (a : AcknowledgeCmd) (nowMs : U32) : PeerEntry :=
  ({ p with lastReceiveTime := nowMs } : PeerEntry).sampleRtt a.receivedSentTime nowMs

theorem sampled_limits (p : PeerEntry) (a : AcknowledgeCmd) (nowMs : U32) :
    (p.sampled a nowMs).limits = p.limits :=
  sampleRtt_limits { p with lastReceiveTime := nowMs } a.receivedSentTime nowMs

theorem sampled_packetThrottle (p : PeerEntry) (a : AcknowledgeCmd) (nowMs : U32) :
    (p.sampled a nowMs).packetThrottle = p.packetThrottle :=
  congrArg (·.2.2.1) (p.sampled_limits a nowMs)

theorem applyAck_packetThrottle (p : PeerEntry) (ch : U8) (a : AcknowledgeCmd) (nowMs : U32) :
    (p.applyAck ch a nowMs).packetThrottle
      = ((p.sampled a nowMs).adjustThrottle nowMs).packetThrottle := rfl

end PeerEntry

theorem PeerOp.apply_limited {h : HostTask} {nowMs : U32} {p : PeerEntry} {o : PeerOp}
    (hmtu : h.hostMtu = mtuDefault) (hp : Limited h.hostMtu p) (hg : o.Guard h p) :
    Limited h.hostMtu (o.apply nowMs p) := by
  refine ⟨PeerOp.apply_inRange hmtu hp.toInRange hg, ?_, ?_⟩
  · by_cases hsets : o.SetsLimits
    · cases o with
      | verify hostMtu vc hdr =>
          show umin (clamp vc.mtu mtuMin mtuMax) hostMtu ≤ h.hostMtu
          rw [hg.1]
          exact umin_le_right _ _
      | recvBandwidthLimit bl =>
          simp only [apply, PeerEntry.onBandwidthLimit]
          split <;> exact hp.mtu_le
      | ack ch a =>
          have hsame : ((PeerOp.ack ch a).apply nowMs p).mtu = p.mtu :=
            (PeerEntry.applyAck_acked (p := p) ch a nowMs).get (·.mtu)
          rw [hsame]
          exact hp.mtu_le
      | setWindow w => exact hp.mtu_le
      | recvThrottleConfigure tc => exact hp.mtu_le
      | _ => exact hsets.elim
    · have hsame : (o.apply nowMs p).mtu = p.mtu := congrArg (·.1) (apply_limits nowMs p hsets)
      rw [hsame]
      exact hp.mtu_le
  · by_cases hsets : o.SetsLimits
    · cases o with
      | ack ch a =>
          refine PeerEntry.adjustThrottle_le nowMs ?_
          rw [← PeerEntry.sampled, PeerEntry.sampled_packetThrottle]
          exact hp.throttle
      | recvBandwidthLimit bl =>
          simp only [apply, PeerEntry.onBandwidthLimit]
          split <;> exact hp.throttle
      | verify hostMtu vc hdr => exact hp.throttle
      | setWindow w => exact hp.throttle
      | recvThrottleConfigure tc => exact hp.throttle
      | _ => exact hsets.elim
    · have hsame : (o.apply nowMs p).packetThrottle = p.packetThrottle :=
        congrArg (·.2.2.1) (apply_limits nowMs p hsets)
      rw [hsame]
      exact hp.throttle

theorem IsNewEntry.limited {h : HostTask} {slot : PeerKey} {nowMs : U32} {entry : PeerEntry}
    (hmtu : h.hostMtu = mtuDefault) (hn : IsNewEntry h slot nowMs entry) :
    Limited h.hostMtu entry := by
  refine ⟨hn.inRange hmtu, ?_, ?_⟩
  · rcases hn with ⟨addr, channelCount, userData, reply, connectId, rfl⟩ | ⟨c, hdr, src, rfl⟩
    · exact BitVec.le_refl _
    · exact umin_le_right _ _
  · rcases hn with ⟨addr, channelCount, userData, reply, connectId, rfl⟩ | ⟨c, hdr, src, rfl⟩ <;>
      exact BitVec.le_refl _

/-- The host's MTU is the default, and every entry is within the host's limits. -/
def HostTask.AllLimited (h : HostTask) : Prop :=
  h.hostMtu = mtuDefault ∧ ∀ k p, h.peer k = some p → Limited h.hostMtu p

theorem HostTask.AllLimited.label {nowMs : U32} {h : HostTask} {l : Label} (hi : h.AllLimited)
    (hg : l.Guard nowMs h) : (l.apply nowMs h).AllLimited := by
  obtain ⟨hmtu, hall⟩ := hi
  unfold AllLimited
  rw [Label.apply_hostMtu]
  refine ⟨hmtu, Label.entries hg (fun _ _ _ hn => hn.limited hmtu) ?_ hall⟩
  exact fun _ _ _ _ _ hp hgo => PeerOp.apply_limited hmtu hp hgo

theorem HostTask.Reachable.limited {h : HostTask} (hr : h.Reachable) : h.AllLimited :=
  hr.invariant AllLimited (fun _ _ _ _ _ => ⟨rfl, by simp⟩) fun _ _ _ hi hg => hi.label hg

/-! ## §2. What follows for sending. -/

/-- The limits `send_packet` derives from an entry: no subtraction is cut off
at zero, no division is by zero, every length fits its 16-bit field, and the
window is at most half the sequence space. -/
structure SendLimits (p : PeerEntry) (useChecksum : Bool) : Prop where
  overhead : HostTask.hdrOverhead useChecksum + 4 + 20 < p.mtu.toNat
  reliable : 0 < maxReliablePayload p.mtu.toNat useChecksum
  unreliable : 0 < maxUnreliablePayload p.mtu.toNat useChecksum
  fragment : 544 ≤ fragPayload p.mtu.toNat useChecksum
  reliable_length : ∀ data : Bytes, data.length ≤ maxReliablePayload p.mtu.toNat useChecksum →
    (BitVec.ofNat 16 data.length).toNat = data.length
  unreliable_length : ∀ data : Bytes,
    data.length ≤ maxUnreliablePayload p.mtu.toNat useChecksum →
    (BitVec.ofNat 16 data.length).toNat = data.length
  fragment_length : ∀ (startSeq : U16) (data : Bytes) (i : Nat),
    let part := (fragmentOf startSeq (fragPayload p.mtu.toNat useChecksum) data i).data
    (BitVec.ofNat 16 part.length).toNat = part.length
  window : p.effectiveWindow ≤ 32768

theorem InRange.sendLimits {p : PeerEntry} (hp : InRange p) (hle : p.mtu ≤ mtuDefault)
    (useChecksum : Bool) : SendLimits p useChecksum := by
  have hge : 576 ≤ p.mtu.toNat := hp.mtu
  have hmax : p.mtu.toNat ≤ 1392 := hle
  have hover : HostTask.hdrOverhead useChecksum ≤ 8 := by
    unfold HostTask.hdrOverhead
    split <;> omega
  have hfits : ∀ n, n ≤ 1392 → (BitVec.ofNat 16 n).toNat = n := by
    intro n hn
    rw [BitVec.toNat_ofNat]
    exact Nat.mod_eq_of_lt (by omega)
  constructor
  · omega
  · unfold maxReliablePayload
    omega
  · unfold maxUnreliablePayload
    omega
  · unfold fragPayload
    omega
  · intro data hdata
    refine hfits _ ?_
    unfold maxReliablePayload at hdata
    omega
  · intro data hdata
    refine hfits _ ?_
    unfold maxUnreliablePayload at hdata
    omega
  · intro startSeq data i
    refine hfits _ ?_
    have hcut : (fragmentOf startSeq (fragPayload p.mtu.toNat useChecksum) data i).data.length
        ≤ fragPayload p.mtu.toNat useChecksum := by
      simp only [fragmentOf, List.length_take]
      exact Nat.min_le_left _ _
    unfold fragPayload at hcut ⊢
    omega
  · exact Nat.min_le_right _ _

/-- The window computations of `on_connect` and BANDWIDTH_LIMIT stay below 2^32. -/
theorem bandwidthWindow_toNat (bandwidth : U32) :
    ((bandwidth / windowSizeMax) * windowSizeMin).toNat
      = bandwidth.toNat / windowSizeMax.toNat * windowSizeMin.toNat := by
  have hlt : bandwidth.toNat < 2 ^ 32 := bandwidth.isLt
  have hmax : windowSizeMax.toNat = 65536 := rfl
  have hmin : windowSizeMin.toNat = 4096 := rfl
  rw [BitVec.toNat_mul, BitVec.toNat_udiv, hmax, hmin]
  exact Nat.mod_eq_of_lt (by omega)

/-- **Negotiated limits.**  In every reachable state every entry is within its
limits, and what `send_packet`, `on_connect`, BANDWIDTH_LIMIT and
`bandwidth_throttle` compute from them is computed exactly. -/
theorem negotiated_limits {h : HostTask} (hr : h.Reachable) :
    (∀ k p, h.peer k = some p →
      (mtuMin ≤ p.mtu ∧ p.mtu ≤ h.hostMtu)
        ∧ (windowSizeMin ≤ p.windowSize ∧ p.windowSize ≤ windowSizeMax)
        ∧ p.packetThrottle ≤ packetThrottleScale
        ∧ (1 ≤ p.channels.length ∧ p.channels.length ≤ 255)
        ∧ SendLimits p h.useChecksum)
      ∧ (∀ bandwidth : U32, ((bandwidth / windowSizeMax) * windowSizeMin).toNat
          = bandwidth.toNat / windowSizeMax.toNat * windowSizeMin.toNat)
      ∧ ∀ f : PeerEntry → Bool,
        (h.outgoingBandwidth / BitVec.ofNat 32 (h.keysWhere f).length).toNat
          = h.outgoingBandwidth.toNat / ((h.keysWhere f).length % 2 ^ 32) := by
  refine ⟨fun k p hp => ?_, bandwidthWindow_toNat, fun f => ?_⟩
  · have hl := hr.limited.2 k p hp
    have hle := hl.mtu_le
    rw [hr.inRange.1] at hle
    exact ⟨⟨hl.mtu, hl.mtu_le⟩, hl.window, hl.throttle, hl.channels,
      hl.toInRange.sendLimits hle h.useChecksum⟩
  · rw [BitVec.toNat_udiv, BitVec.toNat_ofNat]

/-- A CONNECT that asks for as much, or as little, as its fields can say. -/
def hostileConnect : Bytes :=
  clientDatagram headerPeerIdMax 0 7 [Command.write ⟨⟨0x82, channelIdConnection, 1⟩, .connect
    { outgoingPeerId := 0, incomingSessionId := 0xFF, outgoingSessionId := 0xFF
      mtu := 0xFFFFFFFF, windowSize := 0, channelCount := 0
      incomingBandwidth := 0xFFFFFFFF, outgoingBandwidth := 0
      throttleInterval := 0, throttleAcceleration := 0xFFFFFFFF, throttleDeceleration := 0xFFFFFFFF
      connectId := 77, data := 0 }⟩]

/-- The entry such a CONNECT gets is within the limits. -/
theorem negotiated_limits_hostile :
    ∃ h p, (HostTask.bind 4 false 0xFFFFFFFF 7).run [(0, .datagram hostileConnect HostTask.alice)]
        = some h ∧ h.peer 0 = some p ∧ p.mtu ≤ h.hostMtu ∧ 1 ≤ p.channels.length
      ∧ SendLimits p h.useChecksum := by
  have hrun : ((HostTask.bind 4 false 0xFFFFFFFF 7).run
      [(0, .datagram hostileConnect HostTask.alice)]).any (fun h => (h.peer 0).isSome) = true := by
    decide +kernel
  obtain ⟨h, hh, hsome⟩ := (Option.any_eq_true _ _).mp hrun
  obtain ⟨p, hp⟩ := Option.isSome_iff_exists.mp hsome
  have hl := (negotiated_limits ⟨64, 4, false, 0xFFFFFFFF, 7, _, hh⟩).1 0 p hp
  exact ⟨h, p, hh, hp, hl.1.2, hl.2.2.2.1.1, hl.2.2.2.2⟩

/-! ## §3. The throttle parameters. -/

/-- Throttle parameters that `on_ack` can work with. -/
def ThrottleConfigureCmd.Usable (t : ThrottleConfigureCmd) : Prop :=
  0 < t.throttleInterval ∧ t.throttleAcceleration ≤ packetThrottleScale
    ∧ t.throttleDeceleration ≤ packetThrottleScale

instance (t : ThrottleConfigureCmd) : Decidable t.Usable := inferInstanceAs (Decidable (_ ∧ _))

/-- The throttle parameters of an entry. -/
def PeerEntry.throttle (p : PeerEntry) : ThrottleConfigureCmd :=
  ⟨p.throttleInterval, p.throttleAcceleration, p.throttleDeceleration⟩

/-- The throttle parameters that a handshake command proposes. -/
def CommandBody.proposedThrottle : CommandBody → Option ThrottleConfigureCmd
  | .connect c => some ⟨c.throttleInterval, c.throttleAcceleration, c.throttleDeceleration⟩
  | .verifyConnect c => some ⟨c.throttleInterval, c.throttleAcceleration, c.throttleDeceleration⟩
  | _ => none

namespace HostTask

/-- Whether the task acts on a handshake command: a CONNECT gets a slot, a
VERIFY_CONNECT answers the CONNECT of the entry it reaches. -/
def actsOn (h : HostTask) (key : Option PeerKey) (src : SocketAddr) (cmd : Command) : Bool :=
  match cmd.body with
  | .connect _ =>
      decide (cmd.header.commandType = cmdConnect) && ((h.evictAddr src).allocSlot).isSome
  | .verifyConnect vc =>
      decide (cmd.header.commandType = cmdVerifyConnect) && (key.bind h.peer).any fun p =>
        decide (p.state = .connecting) && decide (vc.connectId = p.connectId)
  | _ => false

/-- A handshake command that the task acts on proposes usable parameters. -/
def ProposesUsable (h : HostTask) (key : Option PeerKey) (src : SocketAddr) (cmd : Command) : Prop :=
  h.actsOn key src cmd = true → ∀ t ∈ cmd.body.proposedThrottle, t.Usable

instance (h : HostTask) (key : Option PeerKey) (src : SocketAddr) (cmd : Command) :
    Decidable (h.ProposesUsable key src cmd) := inferInstanceAs (Decidable (_ → _))

/-- What the condition says of a change: whatever brings new throttle
parameters brings usable ones. -/
def UsableChange : Cond
  | h, .install slot entry => h.allocSlot = some slot → entry.throttle.Usable
  | h, .op k (.verify _ vc _) => ∀ p, h.peer k = some p → p.state = .connecting →
      vc.connectId = p.connectId →
      ThrottleConfigureCmd.Usable ⟨vc.throttleInterval, vc.throttleAcceleration,
        vc.throttleDeceleration⟩
  | _, _ => True

theorem usableChange_of_makes {nowMs : U32} {h h' : HostTask} {key : Option PeerKey}
    {src : SocketAddr} {cmd : Command} {l : Label} (hP : h.ProposesUsable key src cmd)
    (hl : cmd.Makes h key src nowMs h' l) : UsableChange h' l := by
  cases l with
  | install slot entry =>
      obtain ⟨c, ⟨hty, hb⟩, rfl, rfl⟩ := hl
      intro hslot
      have hacts : h.actsOn key src cmd = true := by
        simp [actsOn, hb, hty, hslot]
      exact hP hacts _ (by rw [hb]; rfl)
  | op k o =>
      cases o with
      | verify hostMtu vc hdr =>
          obtain ⟨rfl, rfl, hty, hb, -⟩ := hl
          intro p hp hst hid
          have hacts : h'.actsOn (some k) src cmd = true := by
            simp [actsOn, hb, hty, hp, hst, hid]
          exact hP hacts _ (by rw [hb]; rfl)
      | _ => trivial
  | _ => trivial

end HostTask

/-- THROTTLE_CONFIGURE clamps; nothing else but a VERIFY_CONNECT writes. -/
theorem PeerOp.apply_usable {h : HostTask} {nowMs : U32} {k : PeerKey} {p : PeerEntry} {o : PeerOp}
    (hpeer : h.peer k = some p) (hp : p.throttle.Usable) (hg : o.Guard h p)
    (hc : HostTask.UsableChange h (.op k o)) : (o.apply nowMs p).throttle.Usable := by
  by_cases hsets : o.SetsLimits
  · cases o with
    | verify hostMtu vc hdr => exact hc p hpeer hg.2.1 hg.2.2
    | recvThrottleConfigure tc =>
        refine ⟨?_, umin_le_right _ _, umin_le_right _ _⟩
        show 0 < if 0 < tc.throttleInterval then tc.throttleInterval else p.throttleInterval
        split
        · assumption
        · exact hp.1
    | recvBandwidthLimit bl =>
        simp only [apply, PeerEntry.onBandwidthLimit]
        split <;> exact hp
    | setWindow w => exact hp
    | ack ch a =>
        have hsame : ((PeerOp.ack ch a).apply nowMs p).throttle = p.throttle :=
          (PeerEntry.applyAck_acked (p := p) ch a nowMs).get (·.throttle)
        rw [hsame]
        exact hp
    | _ => exact hsets.elim
  · have hsame : (o.apply nowMs p).throttle = p.throttle :=
      congrArg (fun l => ThrottleConfigureCmd.mk l.2.2.2.1 l.2.2.2.2.1 l.2.2.2.2.2)
        (apply_limits nowMs p hsets)
    rw [hsame]
    exact hp

/-- With usable parameters the throttle's addition stays in range. -/
theorem PeerEntry.throttle_add {p : PeerEntry} (hle : p.packetThrottle ≤ packetThrottleScale)
    (hp : p.throttle.Usable) :
    (p.packetThrottle + p.throttleAcceleration).toNat
      = p.packetThrottle.toNat + p.throttleAcceleration.toNat := by
  have h₁ : p.packetThrottle.toNat ≤ 32 := hle
  have h₂ : p.throttleAcceleration.toNat ≤ 32 := hp.2.1
  rw [BitVec.toNat_add]
  exact Nat.mod_eq_of_lt (by omega)

/-- With usable parameters a falling round-trip time does not lower the throttle. -/
theorem PeerEntry.le_adjustThrottle {p : PeerEntry} (nowMs : U32)
    (hle : p.packetThrottle ≤ packetThrottleScale) (hp : p.throttle.Usable)
    (hrtt : p.rtt < p.rttAtThrottleEpoch) :
    p.packetThrottle ≤ (p.adjustThrottle nowMs).packetThrottle := by
  unfold adjustThrottle
  simp only
  rw [if_pos hrtt]
  split
  · split
    · have hadd := p.throttle_add hle hp
      have hscale : packetThrottleScale.toNat = 32 := rfl
      unfold umin
      split
      · rw [BitVec.le_def, hadd]
        exact Nat.le_add_right _ _
      · exact hle
    · exact BitVec.le_refl _
  · exact BitVec.le_refl _

namespace HostTask

/-- **Throttle parameters.**  In a run in which every CONNECT and VERIFY_CONNECT
that the task acts on proposes usable throttle parameters, every entry has
usable ones: the addition of `on_ack` does not overflow, and its acceleration
branch does not lower the throttle. -/
theorem throttle_sanitised (acceptCapacity maxPeers : Nat) (useChecksum : Bool)
    (incomingBandwidth outgoingBandwidth : U32) (is : List Timed) (h : HostTask)
    (hrun : (HostTask.new acceptCapacity maxPeers useChecksum incomingBandwidth
      outgoingBandwidth).run is = some h)
    (hm : Transition.Meets timedStep (StepMeets ProposesUsable fun _ _ _ => True)
      (HostTask.new acceptCapacity maxPeers useChecksum incomingBandwidth outgoingBandwidth) is)
    (k : PeerKey) (p : PeerEntry) (hp : h.peer k = some p) :
    (0 < p.throttleInterval ∧ p.throttleAcceleration ≤ packetThrottleScale
        ∧ p.throttleDeceleration ≤ packetThrottleScale)
      ∧ (p.packetThrottle + p.throttleAcceleration).toNat
          = p.packetThrottle.toNat + p.throttleAcceleration.toNat
      ∧ ∀ (ch : U8) (a : AcknowledgeCmd) (nowMs : U32),
          (p.sampled a nowMs).rtt < (p.sampled a nowMs).rttAtThrottleEpoch →
          p.packetThrottle ≤ (p.applyAck ch a nowMs).packetThrottle := by
  have hle : p.packetThrottle ≤ packetThrottleScale :=
    ((Reachable.limited ⟨_, _, _, _, _, is, hrun⟩).2 k p hp).throttle
  have husable : p.throttle.Usable := by
    refine run_entries (I := fun p => p.throttle.Usable) (C := UsableChange) ?_ ?_ ?_ ?_ ?_ ?_ ?_
      hrun hm k p hp
    · exact fun _ _ _ _ _ _ _ => usableChange_of_makes
    · -- no packet and no tick brings throttle parameters
      intro h key pkt h' l _ hl
      cases l with
      | op k o =>
          cases o with
          | verify => exact hl.2.2.elim
          | _ => trivial
      | install => exact hl.elim
      | _ => trivial
    · intro h l hl
      cases l with
      | op k o =>
          cases o with
          | verify => exact hl.elim
          | _ => trivial
      | install => exact hl.elim
      | _ => trivial
    · intro h k o hl
      cases o with
      | verify => exact hl.elim
      | _ => trivial
    · intro _ _ _ _ _ _ _ _ _
      show ThrottleConfigureCmd.Usable ⟨throttleIntervalMs, throttleAccelerationDefault,
        throttleDecelerationDefault⟩
      decide
    · exact fun _ _ _ _ hg hc => hc hg.1
    · exact fun _ _ _ _ _ hpeer _ hI hg hc => PeerOp.apply_usable hpeer hI hg hc
  refine ⟨husable, p.throttle_add hle husable, fun ch a nowMs hrtt => ?_⟩
  have hlimits := p.sampled_limits a nowMs
  have hsame : (p.sampled a nowMs).packetThrottle = p.packetThrottle := p.sampled_packetThrottle a nowMs
  have hthrottle : (p.sampled a nowMs).throttle = p.throttle :=
    congrArg (fun l => ThrottleConfigureCmd.mk l.2.2.2.1 l.2.2.2.2.1 l.2.2.2.2.2) hlimits
  rw [PeerEntry.applyAck_packetThrottle, ← hsame]
  exact PeerEntry.le_adjustThrottle nowMs (by rwa [hsame]) (by rwa [hthrottle]) hrtt

/-- A host that accepts a client with the default parameters. -/
theorem throttle_sanitised_alice :
    ∃ h p, (HostTask.new 64 4 false 0 0).run (aliceConnects 10) = some h ∧ h.peer 0 = some p
      ∧ 0 < p.throttleInterval ∧ p.throttleAcceleration ≤ packetThrottleScale := by
  have hmeets : Transition.Meets timedStep (StepMeets ProposesUsable fun _ _ _ => True)
      (HostTask.new 64 4 false 0 0) (aliceConnects 10) := by decide +kernel
  have hrun : ((HostTask.new 64 4 false 0 0).run (aliceConnects 10)).any
      (fun h => (h.peer 0).isSome) = true := by decide +kernel
  obtain ⟨h, hh, hsome⟩ := (Option.any_eq_true _ _).mp hrun
  obtain ⟨p, hp⟩ := Option.isSome_iff_exists.mp hsome
  have hs := (throttle_sanitised 64 4 false 0 0 _ h hh hmeets 0 p hp).1
  exact ⟨h, p, hh, hp, hs.1, hs.2.1⟩

/-- **A CONNECT brings any throttle parameters.**  The interval it asks for is
zero.  The ACK that completes its handshake takes the acceleration branch, adds
0xFFFFFFFF, and so lowers the throttle from 32 to 31. -/
theorem throttle_lowered_by_acceleration :
    ∃ h h' p p', (bind 4 false 0 0).run [(0, .datagram hostileConnect alice)] = some h
      ∧ h.peer 0 = some p ∧ p.throttleInterval = 0 ∧ p.throttleAcceleration = 0xFFFFFFFF
      ∧ p.packetThrottle = 32
      ∧ h.step 10 (.datagram (peerDatagram 0 9 [ack channelIdConnection 1 0]) alice) = some h'
      ∧ h'.peer 0 = some p' ∧ p'.rtt < p.rttAtThrottleEpoch ∧ p'.packetThrottle = 31 := by
  have hrun : ((bind 4 false 0 0).run [(0, .datagram hostileConnect alice)]).any (fun h =>
      (h.peer 0).any fun p => decide (p.throttleInterval = 0)
        && decide (p.throttleAcceleration = 0xFFFFFFFF) && decide (p.packetThrottle = 32)
        && (h.step 10 (.datagram (peerDatagram 0 9 [ack channelIdConnection 1 0]) alice)).any
          fun h' => (h'.peer 0).any fun p' => decide (p'.rtt < p.rttAtThrottleEpoch)
            && decide (p'.packetThrottle = 31)) = true := by decide +kernel
  obtain ⟨h, hh, hrest⟩ := (Option.any_eq_true _ _).mp hrun
  simp only [Bool.and_eq_true, Option.any_eq_true, decide_eq_true_eq] at hrest
  obtain ⟨p, hp, ⟨⟨hint, hacc⟩, hthr⟩, h', hh', p', hp', hrtt, hlow⟩ := hrest
  exact ⟨h, h', p, p', hh, hp, hint, hacc, hthr, hh', hp', hrtt, hlow⟩

end HostTask

end EnetRs
