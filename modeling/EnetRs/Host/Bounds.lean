/-
  EnetRs.Host.Bounds — negotiated parameters stay in range.

  In every reachable state an entry's MTU is at least 576, its window is
  between 4096 and 65536, and it has at most 255 channels, so that index 0xFF
  is free for the connection itself.
-/
import EnetRs.Host.Channels
import EnetRs.Host.Steps

namespace EnetRs

open MachineInt

/-! ## §1. MTU and window. -/

/-- The negotiated parameters of an entry are in range. -/
structure InRange (p : PeerEntry) : Prop where
  mtu : mtuMin ≤ p.mtu
  window : windowSizeMin ≤ p.windowSize ∧ p.windowSize ≤ windowSizeMax
  channels : 1 ≤ p.channels.length ∧ p.channels.length ≤ 255

theorem negotiated_mtu (mtu : U32) : mtuMin ≤ umin (clamp mtu mtuMin mtuMax) mtuDefault := by
  unfold umin clamp mtuMin mtuMax mtuDefault
  repeat' split
  all_goals bv_omega

theorem negotiated_channels (c : ConnectCmd) : 1 ≤ (HostTask.negotiateChannels c).toNat := by
  unfold HostTask.negotiateChannels clamp maxChannels
  repeat' split
  all_goals bv_omega

theorem fragPayload_pos {mtu : U32} (hm : mtuMin ≤ mtu) (useChecksum : Bool) :
    0 < fragPayload mtu.toNat useChecksum := by
  have hge : 576 ≤ mtu.toNat := hm
  have hhdr := HostTask.hdrOverhead_le useChecksum
  unfold fragPayload
  omega

theorem fragCount_pos {fp : Nat} (hfp : 0 < fp) {data : Bytes} (hd : 0 < data.length) :
    0 < fragCount fp data :=
  Nat.div_pos (by omega) hfp

/-- What the two sides negotiate, and the throttle that depends on it. -/
def PeerEntry.limits (p : PeerEntry) : U32 × U32 × U32 × U32 × U32 × U32 :=
  (p.mtu, p.windowSize, p.packetThrottle, p.throttleInterval, p.throttleAcceleration,
    p.throttleDeceleration)

namespace PeerOp

/-- The operations that write a limit. -/
def SetsLimits : PeerOp → Prop
  | verify _ _ _ | setWindow _ | recvBandwidthLimit _ | recvThrottleConfigure _ | ack _ _ => True
  | _ => False

theorem apply_limits (nowMs : U32) (p : PeerEntry) {o : PeerOp} (ho : ¬ o.SetsLimits) :
    (o.apply nowMs p).limits = p.limits := by
  refine (o.get_apply (·.limits) nowMs p).trans ?_
  cases o with
  | verify | setWindow | recvBandwidthLimit | recvThrottleConfigure | ack =>
      exact (ho trivial).elim
  | _ => rfl

/-- Mtu and window change only where they are clamped. -/
theorem apply_inRange {h : HostTask} {nowMs : U32} {p : PeerEntry} {o : PeerOp}
    (hmtu : h.hostMtu = mtuDefault) (hp : InRange p) (hg : o.Guard h p) :
    InRange (o.apply nowMs p) := by
  have hlen := channels_length nowMs hg hp.channels.2
  have hch : 1 ≤ (o.apply nowMs p).channels.length ∧ (o.apply nowMs p).channels.length ≤ 255 := by
    rw [hlen]
    exact hp.channels
  have hkeep : (o.apply nowMs p).mtu = p.mtu → (o.apply nowMs p).windowSize = p.windowSize →
      InRange (o.apply nowMs p) := by
    intro h₁ h₂
    exact ⟨by rw [h₁]; exact hp.mtu, by rw [h₂]; exact hp.window, hch⟩
  by_cases hsets : o.SetsLimits
  · cases o with
    | verify hostMtu vc hdr =>
        refine ⟨?_, HostTask.clamp_bounds _, hch⟩
        show mtuMin ≤ umin (clamp vc.mtu mtuMin mtuMax) hostMtu
        rw [hg.1, hmtu]
        exact negotiated_mtu vc.mtu
    | setWindow w => exact ⟨hp.mtu, hg.2, hch⟩
    | recvBandwidthLimit bl =>
        refine ⟨?_, ?_, hch⟩ <;> simp only [apply, PeerEntry.onBandwidthLimit] <;> split
        · exact hp.mtu
        · exact hp.mtu
        · exact HostTask.clamp_bounds _
        · exact hp.window
    | recvThrottleConfigure tc => exact hkeep rfl rfl
    | ack ch a =>
        have hf := PeerEntry.applyAck_acked (p := p) ch a nowMs
        exact hkeep (hf.get (·.mtu)) (hf.get (·.windowSize))
    | _ => exact hsets.elim
  · have hlimits := apply_limits nowMs p hsets
    exact hkeep (congrArg (·.1) hlimits) (congrArg (·.2.1) hlimits)

end PeerOp

theorem IsNewEntry.inRange {h : HostTask} {slot : PeerKey} {nowMs : U32} {entry : PeerEntry}
    (hmtu : h.hostMtu = mtuDefault) (hn : IsNewEntry h slot nowMs entry) : InRange entry := by
  rcases hn with ⟨addr, channelCount, userData, reply, connectId, rfl⟩ | ⟨c, hdr, src, rfl⟩
  · have hwin : windowSizeMin ≤ windowSizeMax ∧ windowSizeMax ≤ windowSizeMax := by decide
    refine ⟨?_, hwin, ?_⟩
    · show mtuMin ≤ h.hostMtu
      rw [hmtu]
      decide
    · show 1 ≤ (List.replicate (umax channelCount 1).toNat Channel.new).length ∧
        (List.replicate (umax channelCount 1).toNat Channel.new).length ≤ 255
      rw [List.length_replicate]
      unfold umax
      split <;> bv_omega
  · refine ⟨?_, HostTask.clamp_bounds _, ?_⟩
    · show mtuMin ≤ umin (clamp c.mtu mtuMin mtuMax) h.hostMtu
      rw [hmtu]
      exact negotiated_mtu c.mtu
    · show 1 ≤ (List.replicate (HostTask.negotiateChannels c).toNat Channel.new).length ∧
        (List.replicate (HostTask.negotiateChannels c).toNat Channel.new).length ≤ 255
      rw [List.length_replicate]
      exact ⟨negotiated_channels c, by bv_omega⟩

/-! ## §2. Reachable states. -/

theorem Label.apply_hostMtu (nowMs : U32) (h : HostTask) (l : Label) :
    (l.apply nowMs h).hostMtu = h.hostMtu := by
  cases l with
  | op k o =>
      simp only [apply]
      split <;> rfl
  | _ => rfl

/-- The host's MTU is the default, and every entry is in range. -/
def HostTask.AllInRange (h : HostTask) : Prop :=
  h.hostMtu = mtuDefault ∧ ∀ k p, h.peer k = some p → InRange p

theorem Label.apply_inRange {nowMs : U32} {h : HostTask} {l : Label} (hi : h.AllInRange)
    (hg : l.Guard nowMs h) : (l.apply nowMs h).AllInRange := by
  refine ⟨by rw [Label.apply_hostMtu, hi.1], ?_⟩
  exact Label.entries hg (fun _ _ _ hn => hn.inRange hi.1)
    (fun _ _ _ _ _ hp hgo => PeerOp.apply_inRange hi.1 hp hgo) hi.2

theorem Exec.inRange {nowMs : U32} {C : Cond} {h h' : HostTask} (e : Exec nowMs C h h')
    (hi : h.AllInRange) : h'.AllInRange :=
  e.invariant HostTask.AllInRange (fun _ _ hi hg _ => Label.apply_inRange hi hg) hi

theorem HostTask.inRange_new (acceptCapacity maxPeers : Nat) (useChecksum : Bool)
    (incomingBandwidth outgoingBandwidth : U32) :
    (HostTask.new acceptCapacity maxPeers useChecksum incomingBandwidth
      outgoingBandwidth).AllInRange :=
  ⟨rfl, by simp⟩

/-- **Every entry of a reachable state is in range.** -/
theorem HostTask.Reachable.inRange {h : HostTask} (hr : h.Reachable) : h.AllInRange :=
  hr.invariant HostTask.AllInRange inRange_new fun _ _ _ => Label.apply_inRange

/-- **The invariant rule for the entries of a run** whose commands meet `P` and
whose packets meet `Q`.  `C` is what the two conditions say of the changes. -/
theorem HostTask.run_entries {I : PeerEntry → Prop} {C : Cond}
    {P : HostTask → Option PeerKey → SocketAddr → Command → Prop}
    {Q : HostTask → PeerKey → Packet → Prop}
    (hP : ∀ nowMs h key src cmd h' l, P h key src cmd → cmd.Makes h key src nowMs h' l → C h' l)
    (hQ : ∀ h key pkt h' l, Q h key pkt → SendMakes h key pkt h' l → C h' l)
    (hO : ∀ h l, l.Other → C h l)
    (hH : ∀ h k o, o.Handles → C h (.op k o))
    (hI : ∀ nowMs h slot addr channelCount data reply connectId, C h (.install slot
      (h.clientHandshake slot addr channelCount data nowMs reply connectId).1))
    (hnew : ∀ nowMs h slot entry, (Label.install slot entry).Guard nowMs h →
      C h (.install slot entry) → I entry)
    (hop : ∀ nowMs h k p o, h.peer k = some p → InRange p → I p → o.Guard h p →
      C h (.op k o) → I (o.apply nowMs p))
    {acceptCapacity maxPeers : Nat} {useChecksum : Bool}
    {incomingBandwidth outgoingBandwidth : U32} {is : List Timed} {h : HostTask}
    (hrun : (HostTask.new acceptCapacity maxPeers useChecksum incomingBandwidth
      outgoingBandwidth).run is = some h)
    (hm : Transition.Meets timedStep (StepMeets P Q)
      (HostTask.new acceptCapacity maxPeers useChecksum incomingBandwidth outgoingBandwidth) is) :
    ∀ k p, h.peer k = some p → I p := by
  let Inv : HostTask → Prop := fun h => h.AllInRange ∧ ∀ k p, h.peer k = some p → I p
  suffices hinv : Inv h from hinv.2
  refine Transition.run_invariant_of_meets (I := Inv) (fun h i h' hi hmeet hs => ?_) is _ h
    ⟨inRange_new _ _ _ _ _, by simp⟩ hm hrun
  have e : Exec i.1 C h h' :=
    step_exec i.2 hmeet (hP i.1) hQ hO hH (fun _ _ _ _ _ _ _ => hI _ _ _ _ _ _ _ _) hs
  refine e.invariant Inv (fun h l hi hg hc => ⟨Label.apply_inRange hi.1 hg, ?_⟩) hi
  refine Label.entries hg ?_ ?_ hi.2
  · rintro slot entry rfl -
    exact hnew i.1 h slot entry hg hc
  · rintro k p o rfl hp hI hgo
    exact hop i.1 h k p o hp (hi.1.2 k p hp) hI hgo hc

end EnetRs
