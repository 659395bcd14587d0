/-
  EnetRs.Sending.Budget — what `bandwidth_throttle` does to the windows.

  The adjustment gives every Connected peer the same window, the host's budget
  divided by their number; but a window is never below 4096, so with many peers
  on a small budget the sum exceeds what was to be divided.

  Main results:
    * `peer_throttlePeers` — the entries after the adjustment.
    * `budget_kept_iff` — the adjustment keeps the budget exactly if it has 4096
      for every Connected peer.
-/
import EnetRs.Host.Bounds

namespace EnetRs

open MachineInt

namespace HostTask

variable {h : HostTask} {nowMs : U32}

/-! ## §1. A change made in several slots. -/

/-- A change of single slots, made in slots that are all different. -/
theorem peer_foldl {g : HostTask → PeerKey → HostTask} {f : PeerEntry → PeerEntry}
    (hg : ∀ h k j, (g h k).peer j = if j = k then (h.peer k).map f else h.peer j)
    {keys : List PeerKey} (hnodup : keys.Nodup) (h : HostTask) (j : PeerKey) :
    (keys.foldl g h).peer j = if j ∈ keys then (h.peer j).map f else h.peer j := by
  induction keys generalizing h with
  | nil => rfl
  | cons k keys ih =>
      rw [List.foldl_cons, ih hnodup.of_cons, hg]
      by_cases hjk : j = k
      · subst hjk
        rw [if_neg (List.nodup_cons.mp hnodup).1, if_pos rfl, if_pos List.mem_cons_self]
      · simp only [List.mem_cons, hjk, false_or, if_false]

/-- The entry that `sendConnectionCmd` leaves. -/
def withConnectionCmd (cmdType : U8) (body : Bytes) (nowMs : U32) (p : PeerEntry) : PeerEntry :=
  { (p.makeReliable channelIdConnection cmdType 0 nowMs body).1 with lastSendTime := nowMs }

theorem peer_sendConnectionCmd (h : HostTask) (k : PeerKey) (cmdType : U8) (body : Bytes)
    (nowMs : U32) (j : PeerKey) :
    (h.sendConnectionCmd k cmdType body nowMs).peer j
      = if j = k then (h.peer k).map (withConnectionCmd cmdType body nowMs) else h.peer j := by
  unfold sendConnectionCmd
  cases hp : h.peer k with
  | none =>
      by_cases hjk : j = k
      · subst hjk
        rw [if_pos rfl]
        exact hp
      · rw [if_neg hjk]
  | some p =>
      simp only
      rw [peer_emitByKey _ _ (List.cons_ne_nil _ _), peer_setPeer_self (lt_of_peer_eq_some hp)]
      split
      · rfl
      · next hjk => exact peer_setPeer_ne hjk

/-! ## §2. The adjustment. -/

/-- The slots of the Connected peers. -/
def connectedKeys (h : HostTask) : List PeerKey := h.keysWhere fun p => decide (p.state = .connected)

theorem mem_connectedKeys {k : PeerKey} :
    k ∈ h.connectedKeys ↔ ∃ p, h.peer k = some p ∧ p.state = .connected := by
  simp only [connectedKeys, keysWhere, List.mem_filter, List.mem_range, Option.any_eq_true,
    decide_eq_true_eq]
  refine ⟨fun hk => hk.2, fun hk => ⟨?_, hk⟩⟩
  obtain ⟨p, hp, -⟩ := hk
  exact lt_of_peer_eq_some hp

theorem nodup_connectedKeys (h : HostTask) : h.connectedKeys.Nodup :=
  List.nodup_range.filter _

/-- How many peers the budget is divided by, as the source counts them. -/
def peerCount (h : HostTask) : U32 := BitVec.ofNat 32 h.connectedKeys.length

/-- The window each of them gets. -/
def perPeer (h : HostTask) : U32 :=
  clamp (h.outgoingBandwidth / h.peerCount) windowSizeMin windowSizeMax

/-- The two values that are advertised are not both zero. -/
def Advertises (h : HostTask) : Prop :=
  ¬ (h.incomingBandwidth = 0 ∧ h.outgoingBandwidth / h.peerCount = 0)

instance (h : HostTask) : Decidable h.Advertises := inferInstanceAs (Decidable (¬ _))

/-- The body of the BANDWIDTH_LIMIT commands. -/
def limitBody (h : HostTask) : Bytes :=
  be32 h.incomingBandwidth ++ be32 (h.outgoingBandwidth / h.peerCount)

/-- What the adjustment makes of the entry of a Connected peer. -/
def throttled (h : HostTask) (nowMs : U32) (p : PeerEntry) : PeerEntry :=
  if h.Advertises then
    withConnectionCmd cmdBandwidthLimit h.limitBody nowMs { p with windowSize := h.perPeer }
  else { p with windowSize := h.perPeer }

/-- The windows are set first. -/
def withWindows (h : HostTask) : HostTask :=
  h.connectedKeys.foldl
    (fun g key => g.updatePeer key fun p => { p with windowSize := h.perPeer }) h

theorem withWindows_bandwidth (h : HostTask) :
    h.withWindows.incomingBandwidth = h.incomingBandwidth
      ∧ h.withWindows.outgoingBandwidth = h.outgoingBandwidth := by
  refine List.foldlRecOn (motive := fun g : HostTask => g.incomingBandwidth = h.incomingBandwidth
    ∧ g.outgoingBandwidth = h.outgoingBandwidth) h.connectedKeys _ ⟨rfl, rfl⟩ ?_
  intro g hg key _
  unfold updatePeer
  split
  · exact hg
  · exact hg

theorem throttlePeers_eq (hob : 0 < h.outgoingBandwidth) (nowMs : U32) :
    h.throttlePeers h.connectedKeys nowMs
      = if h.Advertises then h.connectedKeys.foldl
          (fun g key => g.sendConnectionCmd key cmdBandwidthLimit h.limitBody nowMs) h.withWindows
        else h.withWindows := by
  obtain ⟨hib, hsame⟩ := h.withWindows_bandwidth
  have hobw : 0 < h.withWindows.outgoingBandwidth := by rw [hsame]; exact hob
  unfold throttlePeers
  simp only [if_pos hob]
  change (if h.withWindows.incomingBandwidth = 0 ∧ (if 0 < h.withWindows.outgoingBandwidth
      then h.withWindows.outgoingBandwidth / h.peerCount else 0) = 0 then h.withWindows
    else h.connectedKeys.foldl (fun g key => g.sendConnectionCmd key cmdBandwidthLimit
      (be32 h.withWindows.incomingBandwidth ++ be32 (if 0 < h.withWindows.outgoingBandwidth
        then h.withWindows.outgoingBandwidth / h.peerCount else 0)) nowMs) h.withWindows) = _
  rw [if_pos hobw, hib, hsame]
  by_cases hadv : h.Advertises
  · rw [if_pos hadv, if_neg hadv]
    rfl
  · rw [if_neg hadv, if_pos (not_not.mp hadv)]

/-- **The entries after the adjustment.** -/
theorem peer_throttlePeers (hob : 0 < h.outgoingBandwidth) (nowMs : U32) (j : PeerKey) :
    (h.throttlePeers h.connectedKeys nowMs).peer j
      = if j ∈ h.connectedKeys then (h.peer j).map (h.throttled nowMs) else h.peer j := by
  have hwindows : h.withWindows.peer j = if j ∈ h.connectedKeys then
      (h.peer j).map fun p => { p with windowSize := h.perPeer } else h.peer j :=
    peer_foldl (fun g k j => peer_updatePeer g k _ j) h.nodup_connectedKeys h j
  rw [throttlePeers_eq hob]
  unfold throttled
  by_cases hadv : h.Advertises
  · simp only [if_pos hadv]
    rw [peer_foldl (fun g k j => peer_sendConnectionCmd g k _ _ nowMs j) h.nodup_connectedKeys, hwindows]
    split
    · rw [Option.map_map]
      rfl
    · rfl
  · simp only [if_neg hadv]
    exact hwindows

theorem length_throttlePeers (hob : 0 < h.outgoingBandwidth) (nowMs : U32) :
    (h.throttlePeers h.connectedKeys nowMs).peers.length = h.peers.length := by
  have hwindows : h.withWindows.peers.length = h.peers.length := by
    refine List.foldlRecOn (motive := fun g : HostTask => g.peers.length = h.peers.length)
      h.connectedKeys _ rfl ?_
    intro g hg key _
    rw [updatePeer_length, hg]
  rw [throttlePeers_eq hob]
  split
  · refine List.foldlRecOn (motive := fun g : HostTask => g.peers.length = h.peers.length)
      h.connectedKeys _ hwindows ?_
    intro g hg key _
    unfold sendConnectionCmd
    split
    · exact hg
    · simp only [emitByKey_length, setPeer_length, hg]
  · exact hwindows

theorem throttled_state (h : HostTask) (nowMs : U32) (p : PeerEntry) :
    (h.throttled nowMs p).state = p.state ∧ (h.throttled nowMs p).windowSize = h.perPeer := by
  unfold throttled
  split
  · have hf := PeerEntry.makeReliable_numbered (p := { p with windowSize := h.perPeer })
      channelIdConnection cmdBandwidthLimit 0 nowMs h.limitBody
    exact ⟨hf.get (·.state), hf.get (·.windowSize)⟩
  · exact ⟨rfl, rfl⟩

/-- Who is Connected does not change. -/
theorem connectedKeys_throttlePeers (hob : 0 < h.outgoingBandwidth) (nowMs : U32) :
    (h.throttlePeers h.connectedKeys nowMs).connectedKeys = h.connectedKeys := by
  have hsame : ∀ k, ((h.throttlePeers h.connectedKeys nowMs).peer k).any
      (fun p => decide (p.state = .connected)) = (h.peer k).any fun p => decide (p.state = .connected) := by
    intro k
    rw [peer_throttlePeers hob]
    split
    · cases h.peer k with
      | none => rfl
      | some p => simp only [Option.map_some, Option.any_some, throttled_state]
    · rfl
  have hlen := length_throttlePeers hob nowMs
  generalize h.throttlePeers h.connectedKeys nowMs = h' at hsame hlen ⊢
  simp only [connectedKeys, keysWhere, hlen]
  exact List.filter_congr fun k _ => hsame k

/-- The sum of the windows of the Connected peers. -/
def windowTotal (h : HostTask) : Nat :=
  (h.connectedKeys.map fun k => ((h.peer k).map (·.windowSize.toNat)).getD 0).sum

theorem windowTotal_throttlePeers (hob : 0 < h.outgoingBandwidth) (nowMs : U32) :
    (h.throttlePeers h.connectedKeys nowMs).windowTotal
      = h.connectedKeys.length * h.perPeer.toNat := by
  unfold windowTotal
  rw [connectedKeys_throttlePeers hob, List.map_congr_left (g := fun _ => h.perPeer.toNat)]
  · simp
  · intro k hk
    obtain ⟨p, hp, -⟩ := mem_connectedKeys.mp hk
    rw [peer_throttlePeers hob, if_pos hk, hp, Option.map_some, Option.map_some, Option.getD_some,
      (h.throttled_state nowMs p).2]

/-! ## §3. The budget. -/

/-- The windows fit the budget exactly if it has the smallest window for each. -/
theorem windows_fit_iff (hn : h.peerCount ≠ 0) :
    h.connectedKeys.length * h.perPeer.toNat ≤ h.outgoingBandwidth.toNat
      ↔ windowSizeMin.toNat * h.connectedKeys.length ≤ h.outgoingBandwidth.toNat := by
  obtain ⟨hmin, hmax⟩ := clamp_bounds (h.outgoingBandwidth / h.peerCount)
  have hge : 4096 ≤ h.perPeer.toNat := hmin
  constructor
  · intro hfit
    calc windowSizeMin.toNat * h.connectedKeys.length
        ≤ h.perPeer.toNat * h.connectedKeys.length := Nat.mul_le_mul_right _ hge
      _ = h.connectedKeys.length * h.perPeer.toNat := Nat.mul_comm _ _
      _ ≤ h.outgoingBandwidth.toNat := hfit
  · intro hroom
    have hroom' : 4096 * h.connectedKeys.length ≤ h.outgoingBandwidth.toNat := hroom
    -- the count fits its 32 bits, or the budget would not reach
    have hcount : h.peerCount.toNat = h.connectedKeys.length := by
      have := h.outgoingBandwidth.isLt
      rw [peerCount, BitVec.toNat_ofNat, Nat.mod_eq_of_lt (by omega)]
    have hpos : 0 < h.connectedKeys.length := by
      rw [← hcount]
      exact Nat.pos_of_ne_zero fun hzero => hn (BitVec.eq_of_toNat_eq hzero)
    have hshare : (h.outgoingBandwidth / h.peerCount).toNat
        = h.outgoingBandwidth.toNat / h.connectedKeys.length := by
      rw [BitVec.toNat_udiv, hcount]
    have hclamp : h.perPeer.toNat ≤ (h.outgoingBandwidth / h.peerCount).toNat := by
      have henough : 4096 ≤ (h.outgoingBandwidth / h.peerCount).toNat := by
        rw [hshare, Nat.le_div_iff_mul_le hpos]
        exact hroom'
      unfold perPeer clamp
      split
      · exact henough
      · split
        · next hbig => exact Nat.le_of_lt hbig
        · exact Nat.le_refl _
    calc h.connectedKeys.length * h.perPeer.toNat
        ≤ h.connectedKeys.length * (h.outgoingBandwidth.toNat / h.connectedKeys.length) := by
          rw [← hshare]
          exact Nat.mul_le_mul_left _ hclamp
      _ ≤ h.outgoingBandwidth.toNat := Nat.mul_div_le _ _

/-- The BANDWIDTH_LIMIT command for an entry. -/
def limitCommand (h : HostTask) (p : PeerEntry) : Bytes :=
  encodeCommand cmdBandwidthLimit commandFlagAcknowledge channelIdConnection
    (p.outgoingReliableSeq + 1) h.limitBody

/-- `q` is `p` with one more command, numbered next and outstanding. -/
def OneMore (cmdType : U8) (cmd : Bytes) (p q : PeerEntry) : Prop :=
  q.outgoingReliableSeq = p.outgoingReliableSeq + 1
    ∧ (∃ fresh, q.history
      = p.history ++ [.create cmdType channelIdConnection (p.outgoingReliableSeq + 1) fresh])
    ∧ ∃ r : OutstandingReliable, r.packetBytes = cmd ∧ q.outgoingReliable
      = p.outgoingReliable.insert (channelIdConnection, p.outgoingReliableSeq + 1) r

theorem oneMore_throttled (hadv : h.Advertises) (nowMs : U32) (p : PeerEntry) :
    OneMore cmdBandwidthLimit (h.limitCommand p) p (h.throttled nowMs p) := by
  rw [throttled, if_pos hadv]
  exact ⟨rfl, ⟨_, rfl⟩, _, rfl, rfl⟩

/-- The datagram with the announcement for slot `k`. -/
def limitEvent (h : HostTask) (nowMs : U32) (g : HostTask) (k : PeerKey) : Option Event :=
  (g.peer k).map fun p => .sent p.addr [h.limitCommand p] (makeDatagram g.useChecksum
    (p.makeReliable channelIdConnection cmdBandwidthLimit 0 nowMs h.limitBody).1
    [h.limitCommand p] nowMs)

/-- The announcements leave in slot order, one to each peer. -/
theorem trace_sendLimits (h : HostTask) (nowMs : U32) {keys : List PeerKey} (hnodup : keys.Nodup)
    (g : HostTask) :
    (keys.foldl (fun g key => g.sendConnectionCmd key cmdBandwidthLimit h.limitBody nowMs) g).trace
      = g.trace ++ keys.filterMap (h.limitEvent nowMs g) := by
  induction keys generalizing g with
  | nil => exact (List.append_nil _).symm
  | cons k keys ih =>
      obtain ⟨hk, hrest⟩ := List.nodup_cons.mp hnodup
      rw [List.foldl_cons, ih hrest]
      -- what is still to be sent does not depend on the slot just served
      have hlater : keys.filterMap
          (h.limitEvent nowMs (g.sendConnectionCmd k cmdBandwidthLimit h.limitBody nowMs))
            = keys.filterMap (h.limitEvent nowMs g) := by
        refine List.filterMap_congr fun j hj => ?_
        have hjk : j ≠ k := fun hjk => hk (hjk ▸ hj)
        have hck : (g.sendConnectionCmd k cmdBandwidthLimit h.limitBody nowMs).useChecksum
            = g.useChecksum := by
          unfold sendConnectionCmd
          split
          · rfl
          · exact emitByKey_useChecksum _ _ _ _
        simp only [limitEvent, peer_sendConnectionCmd, if_neg hjk, hck]
      rw [hlater]
      cases hp : g.peer k with
      | none =>
          have hnone : h.limitEvent nowMs g k = none := by rw [limitEvent, hp]; rfl
          rw [List.filterMap_cons_none hnone]
          simp only [sendConnectionCmd, hp]
      | some p =>
          have hsome : h.limitEvent nowMs g k = some (.sent p.addr [h.limitCommand p]
              (makeDatagram g.useChecksum (p.makeReliable channelIdConnection cmdBandwidthLimit 0 nowMs
                h.limitBody).1 [h.limitCommand p] nowMs)) := by rw [limitEvent, hp]; rfl
          rw [List.filterMap_cons_some hsome]
          simp only [sendConnectionCmd, hp]
          rw [emitByKey_of_some (peer_setPeer_self (lt_of_peer_eq_some hp)) (List.cons_ne_nil _ _),
            note_trace, List.append_assoc]
          rfl

theorem trace_throttlePeers (hob : 0 < h.outgoingBandwidth) (hadv : h.Advertises) (nowMs : U32) :
    (h.throttlePeers h.connectedKeys nowMs).trace
      = h.trace ++ h.connectedKeys.filterMap (h.limitEvent nowMs h) := by
  have hwindows : h.withWindows.trace = h.trace ∧ h.withWindows.useChecksum = h.useChecksum := by
    refine List.foldlRecOn (motive := fun g : HostTask => g.trace = h.trace
      ∧ g.useChecksum = h.useChecksum) h.connectedKeys _ ⟨rfl, rfl⟩ ?_
    intro g hg key _
    rw [updatePeer_trace, updatePeer_useChecksum]
    exact hg
  rw [throttlePeers_eq hob, if_pos hadv, trace_sendLimits h nowMs h.nodup_connectedKeys, hwindows.1]
  congr 1
  refine List.filterMap_congr fun k hk => ?_
  -- the window is not in the datagram
  have hpeer : h.withWindows.peer k = (h.peer k).map fun p => { p with windowSize := h.perPeer } := by
    have hfold := peer_foldl (fun g k j => peer_updatePeer g k
      (fun p => { p with windowSize := h.perPeer }) j) h.nodup_connectedKeys h k
    rw [if_pos hk] at hfold
    exact hfold
  simp only [limitEvent, hpeer, hwindows.2, Option.map_map]
  rfl

/-- What `bandwidth_throttle` is for: the windows of the Connected peers share the
budget, the other peers are left alone, and every Connected peer is told. -/
structure DividesBudget (h : HostTask) (nowMs : U32) (h' : HostTask) : Prop where
  total : h'.windowTotal ≤ h.outgoingBandwidth.toNat
  others : ∀ k p, h.peer k = some p → p.state ≠ .connected → h'.peer k = some p
  announced : h.Advertises →
    (∀ k p, h.peer k = some p → p.state = .connected →
      ∃ q, h'.peer k = some q ∧ OneMore cmdBandwidthLimit (h.limitCommand p) p q)
    ∧ h'.trace = h.trace ++ h.connectedKeys.filterMap (h.limitEvent nowMs h)

/-- **The budget.**  Whenever `bandwidth_throttle` runs its adjustment on a host
with an outgoing limit, it does what it is for exactly if the limit has room for
the smallest window, 4096, times the number of Connected peers. -/
theorem budget_kept_iff (h : HostTask) (nowMs : U32) (hob : 0 < h.outgoingBandwidth)
    (hn : h.peerCount ≠ 0)
    (hdue : bandwidthThrottleIntervalMs ≤ nowMs - h.bandwidthThrottleEpoch) :
    h.DividesBudget nowMs (h.bandwidthThrottle nowMs)
      ↔ windowSizeMin.toNat * h.connectedKeys.length ≤ h.outgoingBandwidth.toNat := by
  -- the epoch is written first and read by nothing that follows
  let g : HostTask := { h with bandwidthThrottleEpoch := nowMs }
  have hg : h.bandwidthThrottle nowMs = g.throttlePeers g.connectedKeys nowMs := by
    have hnot : ¬ nowMs - h.bandwidthThrottleEpoch < bandwidthThrottleIntervalMs := by bv_omega
    have hsome : ¬ (h.incomingBandwidth = 0 ∧ h.outgoingBandwidth = 0) := by
      rintro ⟨-, hzero⟩
      rw [hzero] at hob
      exact absurd hob (by decide)
    have hcount : ¬ BitVec.ofNat 32 g.connectedKeys.length = 0 := hn
    simp only [bandwidthThrottle]
    rw [if_neg hnot, if_neg hsome]
    exact if_neg hcount
  have hobg : 0 < g.outgoingBandwidth := hob
  have htotal := windowTotal_throttlePeers hobg nowMs
  rw [hg]
  constructor
  · intro hbudget
    exact (windows_fit_iff (h := g) hn).mp (htotal ▸ hbudget.total)
  · intro hroom
    refine ⟨?_, ?_, ?_⟩
    · rw [htotal]
      exact (windows_fit_iff (h := g) hn).mpr hroom
    · intro k p hp hst
      have hout : k ∉ g.connectedKeys := by
        intro hk
        obtain ⟨q, hq, hqst⟩ := mem_connectedKeys.mp hk
        rw [show h.peer k = some q from hq] at hp
        cases hp
        exact hst hqst
      rw [peer_throttlePeers hobg, if_neg hout]
      exact hp
    · intro hadv
      have hadvg : g.Advertises := hadv
      refine ⟨?_, trace_throttlePeers hobg hadvg nowMs⟩
      intro k p hp hst
      have hin : k ∈ g.connectedKeys := mem_connectedKeys.mpr ⟨p, hp, hst⟩
      refine ⟨g.throttled nowMs p, ?_, oneMore_throttled hadvg nowMs p⟩
      rw [peer_throttlePeers hobg, if_pos hin, show g.peer k = some p from hp]
      rfl

/-- Two Connected peers on a limit of 50000, and one whose handshake is not over. -/
theorem budget_kept_iff_twoPeers :
    ∃ h : HostTask, h.Reachable ∧ h.connectedKeys = [0, 1]
      ∧ (h.peer 2).map (·.state) = some .acknowledgingConnect
      ∧ h.DividesBudget 1000 (h.bandwidthThrottle 1000) := by
  have hrun : ((bind 4 false 0 50000).run (aliceConnects 0 ++ bobConnects 1 20
      ++ [(40, .datagram (connectDatagram 79 2 1392) (.v4 0x0A000003 6000))])).any (fun h =>
      decide (0 < h.outgoingBandwidth) && decide (h.peerCount ≠ 0)
        && decide (bandwidthThrottleIntervalMs ≤ 1000 - h.bandwidthThrottleEpoch)
        && decide (windowSizeMin.toNat * h.connectedKeys.length ≤ h.outgoingBandwidth.toNat)
        && decide (h.connectedKeys = [0, 1])
        && decide ((h.peer 2).map (·.state) = some .acknowledgingConnect)) = true := by
    decide +kernel
  obtain ⟨h, hh, hrest⟩ := (Option.any_eq_true _ _).mp hrun
  simp only [Bool.and_eq_true, decide_eq_true_eq] at hrest
  obtain ⟨⟨⟨⟨⟨hob, hn⟩, hdue⟩, hroom⟩, hkeys⟩, hopening⟩ := hrest
  exact ⟨h, ⟨_, _, _, _, _, _, hh⟩, hkeys, hopening, (budget_kept_iff h 1000 hob hn hdue).mpr hroom⟩

/-- **The budget exceeded.**  A host limited to 1000 with one Connected peer: the
adjustment gives that peer a window of 4096. -/
theorem budget_exceeded :
    ∃ h : HostTask, h.Reachable ∧ h.outgoingBandwidth = 1000 ∧ h.connectedKeys = [0]
      ∧ (h.bandwidthThrottle 1000).windowTotal = 4096
      ∧ ¬ h.DividesBudget 1000 (h.bandwidthThrottle 1000) := by
  have hrun : ((bind 4 false 0 1000).run (aliceConnects 0)).any (fun h =>
      decide (h.outgoingBandwidth = 1000) && decide (h.connectedKeys = [0])
        && decide ((h.bandwidthThrottle 1000).windowTotal = 4096)) = true := by decide +kernel
  obtain ⟨h, hh, hrest⟩ := (Option.any_eq_true _ _).mp hrun
  simp only [Bool.and_eq_true, decide_eq_true_eq] at hrest
  obtain ⟨⟨hob, hkeys⟩, htotal⟩ := hrest
  refine ⟨h, ⟨_, _, _, _, _, _, hh⟩, hob, hkeys, htotal, fun hbudget => ?_⟩
  have hle := hbudget.total
  rw [htotal, hob] at hle
  exact absurd hle (by decide)

end HostTask

end EnetRs
