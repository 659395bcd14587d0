/-
  EnetRs.Safety.Panics — no remote input crashes the task.

  `send_packet` and the tick with every access checked, on top of what
  `Host.Checked` says about datagrams, and the invariants of reachable states
  that the accesses rely on: an MTU of at least 576, 32 words in every
  unsequenced window, and nothing but reliable packets for existing channels
  among those that wait.

  Main results:
    * `sendPacket_eq` — the one access of `send_packet` that can fail is the one
      `Host.Send` already has.
    * `serviceAll_eq`, `serviceAll_total` — a tick.
    * `HostTask.no_remote_panic` — both, in every reachable state.
-/
import EnetRs.Host.Checked
import EnetRs.Sending.Pending

namespace EnetRs.Checked.HostTask

open MachineInt Panic
open EnetRs.HostTask (hdrOverhead)

/-! ## §1. Payloads and fragments. -/

/-- `mtu as usize - hdr_overhead - cmd_hdr - fields`. -/
def payloadLimit (mtu : U32) (useChecksum : Bool) (fields : Nat) : Option Nat := do
  let afterHeader ← sub mtu.toNat (hdrOverhead useChecksum)
  let afterCommand ← sub afterHeader 4
  sub afterCommand fields

/-- `total.div_ceil(frag_payload)`. -/
def fragCount (fp : Nat) (data : Bytes) : Option Nat := do
  let fp ← divisor fp
  return divCeil data.length fp

/-- Fragment `i` of a message, its piece cut by `data.slice(offset..end)`. -/
def fragmentOf (startSeq : U16) (fp : Nat) (data : Bytes) (i : Nat) : Option SendFragmentCmd := do
  let offset := i * fp
  let piece ← slice data offset (min (offset + fp) data.length)
  return { EnetRs.fragmentOf startSeq fp data i with data := piece }

variable {h : HostTask} {key : PeerKey} {p : PeerEntry} {nowMs : U32}

/-- An MTU in range leaves room for every header. -/
theorem payloadLimit_eq {mtu : U32} (hm : mtuMin ≤ mtu) (useChecksum : Bool) {fields : Nat}
    (hfields : fields ≤ 20) :
    payloadLimit mtu useChecksum fields
      = some (mtu.toNat - hdrOverhead useChecksum - 4 - fields) := by
  have hge : 576 ≤ mtu.toNat := hm
  have hhdr := EnetRs.HostTask.hdrOverhead_le useChecksum
  simp (disch := omega) only [payloadLimit, sub_of_le, Option.bind_eq_bind, Option.bind_some]

theorem fragCount_eq {fp : Nat} (hfp : 0 < fp) (data : Bytes) :
    fragCount fp data = some (EnetRs.fragCount fp data) := by
  rw [fragCount, divisor_of_ne (Nat.ne_of_gt hfp)]
  rfl

/-- A fragment that exists starts inside the message. -/
theorem offset_le {fp : Nat} (hfp : 0 < fp) {data : Bytes} {i : Nat}
    (hi : i < EnetRs.fragCount fp data) : i * fp ≤ data.length := by
  have hle : i + 1 ≤ (data.length + fp - 1) / fp := hi
  have hmul : (i + 1) * fp ≤ data.length + fp - 1 := (Nat.le_div_iff_mul_le hfp).mp hle
  rw [Nat.add_mul, Nat.one_mul] at hmul
  omega

theorem fragmentOf_eq {fp : Nat} (hfp : 0 < fp) {data : Bytes} {i : Nat}
    (hi : i < EnetRs.fragCount fp data) (startSeq : U16) :
    fragmentOf startSeq fp data i = some (EnetRs.fragmentOf startSeq fp data i) := by
  have hoff := offset_le hfp hi
  have hpiece : (data.drop (i * fp)).take (min (i * fp + fp) data.length - i * fp)
      = (data.drop (i * fp)).take fp := by
    rw [List.take_eq_take_iff, List.length_drop]
    omega
  have hend : i * fp ≤ min (i * fp + fp) data.length := by omega
  simp only [fragmentOf, slice_of_le hend (Nat.min_le_right _ _), hpiece, Option.bind_eq_bind,
    Option.bind_some]
  rfl

/-! ## §2. `send_packet`. -/

/-- The number of fragment `i`: the first one has been taken before the loop. -/
def fragmentSeq (h : HostTask) (key : PeerKey) (ch : U8) (startSeq : U16) (i : Nat) :
    Option (HostTask × U16) :=
  if i = 0 then some (h, startSeq)
  else do
    let p ← h.peer key
    let (p', seq) ← PeerEntry.nextReliableSeq p ch
    return (h.setPeer key p', seq)

/-- The reliable fragmentation loop.  The source looks the entry up, and unwraps
it, once for the number and once to store the command. -/
def fragmentLoop (key : PeerKey) (ch : U8) (startSeq : U16) (fp : Nat) (data : Bytes)
    (nowMs : U32) : Nat → Nat → HostTask → Option (HostTask × List Bytes)
  | 0, _, h => some (h, [])
  | n + 1, i, h => do
      let sf ← fragmentOf startSeq fp data i
      let (h', seq) ← fragmentSeq h key ch startSeq i
      let p ← h'.peer key
      let cmd := encodeCommand cmdSendFragment commandFlagAcknowledge ch seq (fragmentBody sf)
      let (h'', cmds) ← fragmentLoop key ch startSeq fp data nowMs n (i + 1)
        (h'.setPeer key (p.track ch seq cmdSendFragment cmd nowMs))
      return (h'', cmd :: cmds)

/-- A packet that is sent in one piece. -/
def sendWhole (h : HostTask) (key : PeerKey) (pkt : Packet) (nowMs : U32) : Option HostTask := do
  let p ← h.peer key
  let (p', cmd) ← PeerEntry.makeReliable p pkt.channel cmdSendReliable 0 nowMs
    (be16 (BitVec.ofNat 16 pkt.data.length) ++ pkt.data)
  let p' := p'.log (.number pkt pkt.channel (p.nextReliableSeq pkt.channel).2 1)
  emitByKey (h.setPeer key p') key [cmd] nowMs

/-- A packet that is sent in fragments. -/
def sendFragments (h : HostTask) (key : PeerKey) (pkt : Packet) (fp : Nat) (nowMs : U32) :
    Option HostTask := do
  let n ← fragCount fp pkt.data
  let p ← h.peer key
  let (p', startSeq) ← PeerEntry.nextReliableSeq p pkt.channel
  let (h', cmds) ← fragmentLoop key pkt.channel startSeq fp pkt.data nowMs n 0 (h.setPeer key p')
  let h' := h'.updatePeer key fun p => p.log (.number pkt pkt.channel startSeq n)
  flushBatch h' key cmds nowMs

/-- The `SendMode::Reliable` branch. -/
def sendReliable (h : HostTask) (key : PeerKey) (p : PeerEntry) (pkt : Packet) (nowMs : U32) :
    Option HostTask :=
  if p.channels.length ≤ pkt.channel.toNat then some h
  else do
    let c ← index p.channels pkt.channel.toNat
    if !p.windowOpen pkt.channel c then return h.setPeer key (p.queuePending pkt)
    else
      let maxPayload ← payloadLimit p.mtu h.useChecksum 2
      if pkt.data.length ≤ maxPayload then sendWhole h key pkt nowMs
      else
        let fp ← payloadLimit p.mtu h.useChecksum 20
        sendFragments h key pkt fp nowMs

/-- `next_unreliable_seq` on the channel, which has not been compared with the
length of the vector. -/
def nextUnreliableSeq (h : HostTask) (key : PeerKey) (ch : U8) : Option (HostTask × Channel) := do
  let p ← h.peer key
  let c ← index p.channels ch.toNat
  let channels ← store p.channels ch.toNat c.nextUnreliableSeq
  return (h.setPeer key { p with channels := channels }, c.nextUnreliableSeq)

/-- The `SendMode::Unreliable` branch. -/
def sendUnreliable (h : HostTask) (key : PeerKey) (p : PeerEntry) (pkt : Packet) (nowMs : U32) :
    Option HostTask := do
  let maxPayload ← payloadLimit p.mtu h.useChecksum 4
  if pkt.data.length ≤ maxPayload then
    let (h', c) ← nextUnreliableSeq h key pkt.channel
    let cmd := encodeCommand cmdSendUnreliable 0 pkt.channel c.outgoingReliableSeq
      (be16 c.outgoingUnreliableSeq ++ be16 (BitVec.ofNat 16 pkt.data.length) ++ pkt.data)
    emitByKey h' key [cmd] nowMs
  else
    let fp ← payloadLimit p.mtu h.useChecksum 20
    let n ← fragCount fp pkt.data
    let (h', c) ← nextUnreliableSeq h key pkt.channel
    let cmds ← (List.range n).mapM fun i => do
      let sf ← fragmentOf c.outgoingUnreliableSeq fp pkt.data i
      return encodeCommand cmdSendUnreliableFragment 0 pkt.channel c.outgoingReliableSeq
        (fragmentBody sf)
    flushBatch h' key cmds nowMs

/-- The `SendMode::Unsequenced` branch: the channel is looked up with `get_mut`. -/
def sendUnsequenced (h : HostTask) (key : PeerKey) (pkt : Packet) (nowMs : U32) :
    Option HostTask := do
  let p ← h.peer key
  let (p', group) := match p.channels[pkt.channel.toNat]? with
    | some c =>
        ({ p with channels := p.channels.set pkt.channel.toNat c.nextUnsequencedGroup },
          c.nextUnsequencedGroup.outgoingUnsequencedGroup)
    | none => (p, 0)
  let cmd := encodeCommand cmdSendUnsequenced commandFlagUnsequenced pkt.channel 0
    (be16 group ++ be16 (BitVec.ofNat 16 pkt.data.length) ++ pkt.data)
  emitByKey (h.setPeer key p') key [cmd] nowMs

/-- `HostTask::send_packet`. -/
def sendPacket (h : HostTask) (key : PeerKey) (pkt : Packet) (nowMs : U32) : Option HostTask :=
  match h.peer key with
  | none => some h
  | some p =>
      if p.state ≠ .connected then some h
      else
        match pkt.mode with
        | .reliable => sendReliable h key p pkt nowMs
        | .unreliable => sendUnreliable h key p pkt nowMs
        | .unsequenced => sendUnsequenced h key pkt nowMs

section Fragments

variable {ch : U8} {fp : Nat} {data : Bytes}

theorem fragmentSeq_eq (hk : key < h.peers.length) (hlt : ch.toNat < p.channels.length)
    (startSeq : U16) (i : Nat) :
    fragmentSeq (h.setPeer key p) key ch startSeq i
      = some (if i = 0 then (h.setPeer key p, startSeq)
          else (h.setPeer key (p.nextReliableSeq ch).1, (p.nextReliableSeq ch).2)) := by
  refine ite_eq_some (fun _ => rfl) fun _ => ?_
  simp only [EnetRs.HostTask.peer_setPeer_self hk, PeerEntry.nextReliableSeq_eq hlt,
    Option.bind_eq_bind, Option.bind_some, EnetRs.HostTask.setPeer_setPeer]
  rfl

/-- **The fragmentation loop.**  The entry stays in its slot, with its channels,
and every piece lies inside the message. -/
theorem fragmentLoop_eq (hk : key < h.peers.length) (hfp : 0 < fp) (startSeq : U16) :
    ∀ (n i : Nat) (p : PeerEntry), ch.toNat < p.channels.length →
      i + n ≤ EnetRs.fragCount fp data →
      fragmentLoop key ch startSeq fp data nowMs n i (h.setPeer key p)
        = some (h.setPeer key
            (EnetRs.PeerEntry.fragmentLoop ch startSeq fp data nowMs n i p).1,
          (EnetRs.PeerEntry.fragmentLoop ch startSeq fp data nowMs n i p).2) := by
  intro n
  induction n with
  | zero => exact fun _ _ _ _ => rfl
  | succ n ih =>
      intro i p hlt hle
      have hi : i < EnetRs.fragCount fp data := by omega
      have hnext : ch.toNat < (p.nextReliableSeq ch).1.channels.length := by
        rw [EnetRs.PeerEntry.nextReliableSeq_channels, List.length_modify]
        exact hlt
      have htrack : ∀ (q : PeerEntry) (seq : U16) (cmd : Bytes), ch.toNat < q.channels.length →
          ch.toNat < (q.track ch seq cmdSendFragment cmd nowMs).channels.length :=
        fun _ _ _ hq => hq
      simp only [fragmentLoop, EnetRs.PeerEntry.fragmentLoop, fragmentOf_eq hfp hi,
        fragmentSeq_eq hk hlt, Option.bind_eq_bind, Option.bind_some]
      by_cases hzero : i = 0
      · simp only [hzero, if_true, EnetRs.HostTask.peer_setPeer_self hk, Option.bind_some,
          EnetRs.HostTask.setPeer_setPeer]
        rw [ih (0 + 1) _ (htrack p _ _ hlt) (by omega)]
        rfl
      · simp only [hzero, if_false, EnetRs.HostTask.peer_setPeer_self hk, Option.bind_some,
          EnetRs.HostTask.setPeer_setPeer]
        rw [ih (i + 1) _ (htrack _ _ _ hnext) (by omega)]
        rfl

end Fragments

section Send

variable {pkt : Packet}

theorem sendWhole_eq (hp : h.peer key = some p) (hlt : pkt.channel.toNat < p.channels.length)
    (nowMs : U32) :
    sendWhole h key pkt nowMs = some ((h.setPeer key (p.numberWhole pkt nowMs).1).emitByKey key
      [(p.numberWhole pkt nowMs).2] nowMs) := by
  simp only [sendWhole, hp, PeerEntry.makeReliable_eq (fun _ => hlt), emitByKey_eq,
    Option.bind_eq_bind, Option.bind_some]
  rfl

theorem sendFragments_eq (hp : h.peer key = some p) (hlt : pkt.channel.toNat < p.channels.length)
    {fp : Nat} (hfp : 0 < fp) (nowMs : U32) :
    sendFragments h key pkt fp nowMs
      = some ((h.setPeer key (p.numberFragments pkt fp nowMs).1).flushBatch key
          (p.numberFragments pkt fp nowMs).2 nowMs) := by
  have hk := EnetRs.HostTask.lt_of_peer_eq_some hp
  have hnext : pkt.channel.toNat < (p.nextReliableSeq pkt.channel).1.channels.length := by
    rw [EnetRs.PeerEntry.nextReliableSeq_channels, List.length_modify]
    exact hlt
  simp only [sendFragments, fragCount_eq hfp, hp, PeerEntry.nextReliableSeq_eq hlt,
    fragmentLoop_eq hk hfp _ _ 0 _ hnext (Nat.le_of_eq (Nat.zero_add _)), flushBatch_eq,
    EnetRs.HostTask.updatePeer_of_some (EnetRs.HostTask.peer_setPeer_self hk),
    EnetRs.HostTask.setPeer_setPeer, Option.bind_eq_bind, Option.bind_some]
  rfl

theorem sendReliable_eq (hp : h.peer key = some p) (hr : InRange p) (pkt : Packet) (nowMs : U32) :
    sendReliable h key p pkt nowMs = some (h.sendReliable key p pkt nowMs) := by
  refine (index_guarded _ _ _ _).trans ?_
  simp only [EnetRs.HostTask.sendReliable]
  cases hc : p.channels[pkt.channel.toNat]? with
  | none => rfl
  | some c =>
      have hlt : pkt.channel.toNat < p.channels.length := (List.getElem?_eq_some_iff.mp hc).1
      refine ite_eq_some (fun _ => rfl) fun _ => ?_
      rw [payloadLimit_eq hr.mtu h.useChecksum (by decide), Option.bind_eq_bind, Option.bind_some]
      refine ite_eq_some (fun _ => sendWhole_eq hp hlt nowMs) fun _ => ?_
      rw [payloadLimit_eq hr.mtu h.useChecksum (Nat.le_refl 20)]
      exact sendFragments_eq hp hlt (fragPayload_pos hr.mtu h.useChecksum) nowMs

theorem nextUnreliableSeq_eq (hp : h.peer key = some p) (ch : U8) :
    nextUnreliableSeq h key ch = (p.channels[ch.toNat]?).map fun c =>
      (h.setPeer key { p with channels := p.channels.set ch.toNat c.nextUnreliableSeq },
        c.nextUnreliableSeq) := by
  simp only [nextUnreliableSeq, hp, index, Option.bind_eq_bind, Option.bind_some]
  cases hc : p.channels[ch.toNat]? with
  | none => rfl
  | some c =>
      rw [Option.bind_some, store_of_getElem? hc]
      rfl

/-- The index of the unreliable branch is the one access that can fail. -/
theorem sendUnreliable_eq (hp : h.peer key = some p) (hr : InRange p) (pkt : Packet)
    (nowMs : U32) : sendUnreliable h key p pkt nowMs = h.sendUnreliable key p pkt nowMs := by
  have hfp := fragPayload_pos hr.mtu h.useChecksum
  simp only [sendUnreliable, payloadLimit_eq hr.mtu h.useChecksum (show 4 ≤ 20 by decide),
    payloadLimit_eq hr.mtu h.useChecksum (Nat.le_refl 20), nextUnreliableSeq_eq hp,
    Option.bind_eq_bind, Option.bind_some, EnetRs.HostTask.sendUnreliable]
  have hcount : fragCount (p.mtu.toNat - hdrOverhead h.useChecksum - 4 - 20) pkt.data
      = some (EnetRs.fragCount (fragPayload p.mtu.toNat h.useChecksum) pkt.data) :=
    fragCount_eq hfp pkt.data
  rw [hcount, Option.bind_some]
  cases p.channels[pkt.channel.toNat]? with
  | none => simp
  | some c =>
      simp only [Option.map_some, Option.bind_some]
      refine if_congr Iff.rfl (emitByKey_eq _ _ _ _) ?_
      have hmap := mapM_of_forall (g := fun i => (fragmentOf c.nextUnreliableSeq.outgoingUnreliableSeq
          (fragPayload p.mtu.toNat h.useChecksum) pkt.data i).bind fun sf =>
            pure (encodeCommand cmdSendUnreliableFragment 0 pkt.channel
              c.nextUnreliableSeq.outgoingReliableSeq (fragmentBody sf)))
        (List.range (EnetRs.fragCount (fragPayload p.mtu.toNat h.useChecksum) pkt.data))
        fun i hi => by
          rw [fragmentOf_eq hfp (List.mem_range.mp hi)]
          exact Option.bind_some _ _
      exact (congrArg (Option.bind · _) hmap).trans (flushBatch_eq _ _ _ _)

theorem sendPacket_eq (hi : h.AllInRange) (key : PeerKey) (pkt : Packet) (nowMs : U32) :
    sendPacket h key pkt nowMs = h.sendPacket key pkt nowMs := by
  unfold sendPacket EnetRs.HostTask.sendPacket
  cases hp : h.peer key with
  | none => rfl
  | some p =>
      have hr := hi.2 key p hp
      simp only
      split
      · rfl
      · cases pkt.mode with
        | reliable => exact sendReliable_eq hp hr pkt nowMs
        | unreliable => exact sendUnreliable_eq hp hr pkt nowMs
        | unsequenced =>
            simp only [sendUnsequenced, hp, emitByKey_eq, Option.bind_eq_bind, Option.bind_some]
            rfl

end Send

/-! ## §3. The tick. -/

/-- `send_packet` on each packet in turn. -/
def sendAll (key : PeerKey) (nowMs : U32) : HostTask → List Packet → Option HostTask
  | h, [] => some h
  | h, pkt :: pkts => (sendPacket h key pkt nowMs).bind fun h' => sendAll key nowMs h' pkts

/-- The drain of `pending_send` at the end of `service_one`. -/
def drainPending (h : HostTask) (key : PeerKey) (nowMs : U32) : Option HostTask :=
  match h.peer key with
  | none => some h
  | some p => sendAll key nowMs (h.setPeer key { p with pendingSend := [] }) p.pendingSend

/-- The ping of `service_one`, which unwraps the entry. -/
def sendPing (h : HostTask) (key : PeerKey) (nowMs : U32) : Option HostTask := do
  let p ← h.peer key
  let (p', ping) ← PeerEntry.makeReliable p channelIdConnection cmdPing 0 nowMs []
  emitByKey (h.setPeer key p') key [ping] nowMs

/-- What `service_one` sends before the drain. -/
def serviceSends (h : HostTask) (key : PeerKey) (retransmits : List Bytes) (pingNeeded : Bool)
    (disconnectLater : Option U32) (nowMs : U32) : Option HostTask := do
  let h ← (if retransmits.isEmpty then some h else flushBatch h key retransmits nowMs)
  let h ← (if pingNeeded then sendPing h key nowMs else some h)
  match disconnectLater with
  | some data =>
      sendConnectionCmd (h.updatePeer key fun p => { p with state := .disconnecting }) key
        cmdDisconnect (be32 data) nowMs
  | none => return h

/-- `service_one` up to the drain, and whether it goes on. -/
def serviceChecks (h : HostTask) (key : PeerKey) (p : PeerEntry) (nowMs : U32) :
    Option (HostTask × Bool) :=
  let (timedOut, outgoing, retransmits) :=
    retransmitLoop nowMs p.outgoingReliable.toList p.outgoingReliable
  let p := { p with outgoingReliable := outgoing }
  let h := h.setPeer key p
  if timedOut then some ((h.notifyDisconnect key none).removePeer key, false)
  else do
    let h' ← serviceSends h key retransmits (p.pingNeeded nowMs) p.disconnectLaterData nowMs
    return (h', true)

/-- `HostTask::service_one`. -/
def serviceOne (h : HostTask) (key : PeerKey) (nowMs : U32) : Option HostTask :=
  match h.peer key with
  | none => some h
  | some p => do
      let (h', goesOn) ← serviceChecks h key p nowMs
      if goesOn then drainPending h' key nowMs else return h'

/-- `service_one` on each key in turn. -/
def serviceEach (nowMs : U32) : HostTask → List PeerKey → Option HostTask
  | h, [] => some h
  | h, key :: keys => (serviceOne h key nowMs).bind fun h' => serviceEach nowMs h' keys

/-- `outgoing_bandwidth / peer_count`. -/
def share (bandwidth peerCount : U32) : Option U32 := do
  let count ← divisor peerCount
  return bandwidth / count

/-- The windows `bandwidth_throttle` distributes. -/
def setWindows (h : HostTask) (connectedKeys : List PeerKey) (peerCount : U32) :
    Option HostTask :=
  if 0 < h.outgoingBandwidth then do
    let each ← share h.outgoingBandwidth peerCount
    let perPeer := clamp each windowSizeMin windowSizeMax
    return connectedKeys.foldl
      (fun h key => h.updatePeer key fun p => { p with windowSize := perPeer }) h
  else some h

/-- The adjustment `bandwidth_throttle` makes once its interval has passed. -/
def throttlePeers (h : HostTask) (connectedKeys : List PeerKey) (nowMs : U32) :
    Option HostTask := do
  let peerCount : U32 := BitVec.ofNat 32 connectedKeys.length
  let h ← setWindows h connectedKeys peerCount
  let ib := h.incomingBandwidth
  let ob ← (if 0 < h.outgoingBandwidth then share h.outgoingBandwidth peerCount else some 0)
  if ib = 0 ∧ ob = 0 then return h
  else
    connectedKeys.foldlM
      (fun h key => sendConnectionCmd h key cmdBandwidthLimit (be32 ib ++ be32 ob) nowMs) h

/-- `HostTask::bandwidth_throttle`. -/
def bandwidthThrottle (h : HostTask) (nowMs : U32) : Option HostTask :=
  if nowMs - h.bandwidthThrottleEpoch < bandwidthThrottleIntervalMs then some h
  else
    let h := { h with bandwidthThrottleEpoch := nowMs }
    if h.incomingBandwidth = 0 ∧ h.outgoingBandwidth = 0 then some h
    else
      let connectedKeys := h.keysWhere fun p => decide (p.state = .connected)
      if BitVec.ofNat 32 connectedKeys.length = 0 then some h
      else throttlePeers h connectedKeys nowMs

/-- `HostTask::service_all`. -/
def serviceAll (h : HostTask) (nowMs : U32) : Option HostTask := do
  let h' ← serviceEach nowMs h (h.keysWhere fun _ => true)
  bandwidthThrottle h' nowMs

section Tick

theorem sendAll_eq (pkts : List Packet) :
    ∀ h : HostTask, h.AllInRange →
      sendAll key nowMs h pkts = EnetRs.HostTask.sendAll key nowMs h pkts := by
  induction pkts with
  | nil => exact fun _ _ => rfl
  | cons pkt pkts ih =>
      intro h hi
      rw [sendAll, EnetRs.HostTask.sendAll, sendPacket_eq hi]
      refine Option.bind_congr fun h' hs => ih h' ?_
      exact (EnetRs.HostTask.sendPacket_exec pkt hs).inRange hi

theorem drainPending_eq (hi : h.AllInRange) (key : PeerKey) (nowMs : U32) :
    drainPending h key nowMs = h.drainPending key nowMs := by
  unfold drainPending EnetRs.HostTask.drainPending
  cases hp : h.peer key with
  | none => rfl
  | some p =>
      have e : Exec nowMs (fun _ _ => True) h (h.setPeer key { p with pendingSend := [] }) :=
        .op .clearPending hp trivial trivial rfl rfl
      exact sendAll_eq p.pendingSend _ (e.inRange hi)

/-- The entry that the ping unwraps is still in its slot after the
retransmissions. -/
theorem serviceSends_eq (hp : h.peer key = some p) (retransmits : List Bytes) (pingNeeded : Bool)
    (disconnectLater : Option U32) (nowMs : U32) :
    serviceSends h key retransmits pingNeeded disconnectLater nowMs
      = some (h.serviceSends key retransmits pingNeeded disconnectLater nowMs) := by
  obtain ⟨h₁, hh₁, hflush, q, hq⟩ : ∃ h₁, h₁ = (if retransmits.isEmpty then h
      else h.flushBatch key retransmits nowMs)
      ∧ (if retransmits.isEmpty then some h else flushBatch h key retransmits nowMs) = some h₁
      ∧ ∃ q, h₁.peer key = some q := by
    refine ⟨_, rfl, ite_eq_some (fun _ => rfl) fun _ => flushBatch_eq _ _ _ _, ?_⟩
    split
    · exact ⟨p, hp⟩
    · obtain ⟨t, ht⟩ := EnetRs.HostTask.peer_flushBatch hp retransmits nowMs
      exact ⟨_, ht⟩
  have hping : (if pingNeeded then sendPing h₁ key nowMs else some h₁)
      = some (if pingNeeded then h₁.sendConnectionCmd key cmdPing [] nowMs else h₁) := by
    refine ite_eq_some (fun _ => ?_) fun _ => rfl
    simp only [sendPing, EnetRs.HostTask.sendConnectionCmd, hq,
      PeerEntry.makeReliable_eq (p := q) (fun hne => absurd rfl hne), emitByKey_eq,
      Option.bind_eq_bind, Option.bind_some]
  simp only [serviceSends, hflush, hping, EnetRs.HostTask.serviceSends, ← hh₁, Option.bind_eq_bind,
    Option.bind_some]
  cases disconnectLater with
  | none => rfl
  | some data => exact sendConnectionCmd_eq _ _ _ _ _

theorem serviceChecks_eq (hp : h.peer key = some p) (nowMs : U32) :
    serviceChecks h key p nowMs = some (h.serviceChecks key p nowMs) := by
  have hp₁ := EnetRs.HostTask.peer_setPeer_self (q := { p with
    outgoingReliable := (retransmitLoop nowMs p.outgoingReliable.toList p.outgoingReliable).2.1 })
    (EnetRs.HostTask.lt_of_peer_eq_some hp)
  refine ite_eq_some (fun _ => rfl) fun _ => ?_
  rw [serviceSends_eq hp₁]
  rfl

theorem serviceOne_eq (hi : h.AllInRange) (key : PeerKey) (nowMs : U32) :
    serviceOne h key nowMs = h.serviceOne key nowMs := by
  unfold serviceOne EnetRs.HostTask.serviceOne
  cases hp : h.peer key with
  | none => rfl
  | some p =>
      have hi₁ : (h.serviceChecks key p nowMs).1.AllInRange :=
        (EnetRs.HostTask.serviceChecks_exec (C := fun _ _ => True) hp (fun _ _ _ _ _ => trivial)
          fun _ _ => ⟨trivial, trivial⟩).inRange hi
      simp only [serviceChecks_eq hp, drainPending_eq hi₁, Option.bind_eq_bind, Option.bind_some]
      rfl

theorem serviceEach_eq (keys : List PeerKey) :
    ∀ h : HostTask, h.AllInRange →
      serviceEach nowMs h keys = EnetRs.HostTask.serviceEach nowMs h keys := by
  induction keys with
  | nil => exact fun _ _ => rfl
  | cons key keys ih =>
      intro h hi
      rw [serviceEach, EnetRs.HostTask.serviceEach, serviceOne_eq hi]
      refine Option.bind_congr fun h' hs => ih h' ?_
      exact (EnetRs.HostTask.serviceOne_exec_true hs).inRange hi

/-- The number of peers is only divided by when it is not zero. -/
theorem throttlePeers_eq {keys : List PeerKey} (hcount : BitVec.ofNat 32 keys.length ≠ 0)
    (h : HostTask) (nowMs : U32) :
    throttlePeers h keys nowMs = some (h.throttlePeers keys nowMs) := by
  have hshare : ∀ bandwidth : U32, share bandwidth (BitVec.ofNat 32 keys.length)
      = some (bandwidth / BitVec.ofNat 32 keys.length) := by
    intro bandwidth
    rw [share, divisor_of_ne hcount]
    rfl
  have hloop : ∀ (body : Bytes) (h : HostTask),
      keys.foldlM (fun h key => sendConnectionCmd h key cmdBandwidthLimit body nowMs) h
        = some (keys.foldl (fun h key => h.sendConnectionCmd key cmdBandwidthLimit body nowMs) h) :=
    fun body h => foldlM_of_step (I := fun _ => True)
      (fun h key _ => ⟨sendConnectionCmd_eq h key _ body nowMs, trivial⟩) keys h trivial
  have hwindows : setWindows h keys (BitVec.ofNat 32 keys.length) = some (_ : HostTask) :=
    ite_eq_some (fun _ => by rw [hshare]; rfl) fun _ => rfl
  have hob : ∀ g : HostTask, (if 0 < g.outgoingBandwidth then
      share g.outgoingBandwidth (BitVec.ofNat 32 keys.length) else some 0) = some (_ : U32) :=
    fun g => ite_eq_some (fun _ => hshare g.outgoingBandwidth) fun _ => rfl
  rw [throttlePeers, hwindows, Option.bind_eq_bind, Option.bind_some, hob]
  exact ite_eq_some (fun _ => rfl) fun _ => hloop _ _

theorem bandwidthThrottle_eq (h : HostTask) (nowMs : U32) :
    bandwidthThrottle h nowMs = some (h.bandwidthThrottle nowMs) :=
  ite_eq_some (fun _ => rfl) fun _ => ite_eq_some (fun _ => rfl) fun _ =>
    ite_eq_some (fun _ => rfl) fun hcount => throttlePeers_eq hcount _ nowMs

theorem serviceAll_eq (hi : h.AllInRange) (nowMs : U32) :
    serviceAll h nowMs = h.serviceAll nowMs := by
  simp only [serviceAll, serviceEach_eq _ h hi, bandwidthThrottle_eq, EnetRs.HostTask.serviceAll,
    Option.map_eq_bind, Option.bind_eq_bind]
  rfl

end Tick

/-! ## §4. Reachable states. -/

theorem allWords_new (acceptCapacity maxPeers : Nat) (useChecksum : Bool)
    (incomingBandwidth outgoingBandwidth : U32) :
    AllWords (EnetRs.HostTask.new acceptCapacity maxPeers useChecksum incomingBandwidth
      outgoingBandwidth) := by
  intro k p hp
  rw [EnetRs.HostTask.peer_new] at hp
  cases hp

theorem allWords_of_reachable (hr : h.Reachable) : AllWords h :=
  hr.invariant AllWords allWords_new fun _ _ l hw hg => hw.exec (.single (C := fun _ _ => True) l hg trivial)

end EnetRs.Checked.HostTask

namespace EnetRs.HostTask

open MachineInt

variable {h : HostTask} {nowMs : U32}

/-- Reliable packets never reach the index of the unreliable branch. -/
theorem sendAll_total (key : PeerKey) (pkts : List Packet) :
    ∀ h : HostTask, (∀ w ∈ pkts, w.mode = .reliable) → ∃ h', sendAll key nowMs h pkts = some h' := by
  induction pkts with
  | nil => exact fun h _ => ⟨h, rfl⟩
  | cons pkt pkts ih =>
      intro h hall
      have hmode := hall pkt List.mem_cons_self
      obtain ⟨h₁, hs⟩ : ∃ h₁, h.sendPacket key pkt nowMs = some h₁ := by
        unfold sendPacket
        cases h.peer key with
        | none => exact ⟨h, rfl⟩
        | some p =>
            simp only [hmode]
            split
            · exact ⟨h, rfl⟩
            · exact ⟨_, rfl⟩
      rw [sendAll, hs]
      exact ih h₁ fun w hw => hall w (List.mem_cons_of_mem _ hw)

theorem serviceOne_total (hi : h.AllWaiting) (key : PeerKey) (nowMs : U32) :
    ∃ h', h.serviceOne key nowMs = some h' ∧ h'.AllWaiting := by
  have htotal : ∃ h', h.serviceOne key nowMs = some h' := by
    unfold serviceOne
    cases hp : h.peer key with
    | none => exact ⟨h, rfl⟩
    | some p =>
        have hi₁ : (h.serviceChecks key p nowMs).1.AllWaiting :=
          (serviceChecks_exec (C := fun _ _ => True) hp (fun _ _ _ _ _ => trivial)
            fun _ _ => ⟨trivial, trivial⟩).invariant AllWaiting (fun _ _ hi hg _ => hi.label hg) hi
        simp only
        split
        · unfold drainPending
          cases hq : (h.serviceChecks key p nowMs).1.peer key with
          | none => exact ⟨_, rfl⟩
          | some q => exact sendAll_total key q.pendingSend _ fun w hw => (hi₁.2 key q hq w hw).1
        · exact ⟨_, rfl⟩
  obtain ⟨h', hs⟩ := htotal
  exact ⟨h', hs, (serviceOne_exec_true hs).invariant AllWaiting
    (fun _ _ hi hg _ => hi.label hg) hi⟩

/-- **A tick never fails**: what it drains is reliable. -/
theorem serviceAll_total (hi : h.AllWaiting) (nowMs : U32) : ∃ h', h.serviceAll nowMs = some h' := by
  have heach : ∀ (keys : List PeerKey) (h : HostTask), h.AllWaiting →
      ∃ h', serviceEach nowMs h keys = some h' := by
    intro keys
    induction keys with
    | nil => exact fun h _ => ⟨h, rfl⟩
    | cons key keys ih =>
        intro h hi
        obtain ⟨h₁, hs, hi₁⟩ := serviceOne_total hi key nowMs
        rw [serviceEach, hs]
        exact ih h₁ hi₁
  obtain ⟨h₁, hs⟩ := heach (h.keysWhere fun _ => true) h hi
  exact ⟨h₁.bandwidthThrottle nowMs, by rw [serviceAll, hs]; rfl⟩

/-- **No remote input crashes the task.**  In every reachable state, whatever
bytes come from whatever address, `on_datagram` gets through with every index,
slice and copy in range, every `unwrap` on a value and every subtraction above
zero, and so does a tick. -/
theorem no_remote_panic (hr : h.Reachable) (raw : Bytes) (src : SocketAddr) (nowMs : U32) :
    Checked.HostTask.onDatagram h raw src nowMs = some (h.onDatagram raw src nowMs)
      ∧ ∃ h', Checked.HostTask.serviceAll h nowMs = some h' ∧ h.serviceAll nowMs = some h' := by
  have hw := hr.waiting
  obtain ⟨h', hs⟩ := serviceAll_total hw nowMs
  refine ⟨Checked.HostTask.onDatagram_eq (Checked.HostTask.allWords_of_reachable hr) raw src nowMs,
    h', ?_, hs⟩
  rw [Checked.HostTask.serviceAll_eq hw.1]
  exact hs

/-- A fragment for a channel that does not exist, whose number, offset and
lengths are as large as the fields hold. -/
def wildFragment : Bytes :=
  peerDatagram 0 9 [fragmentCommand 200 5
    { startSeq := 0xFFFF
      fragmentCount := 0xFFFFFFFF
      fragmentNumber := 0xFFFFFFFF
      totalLength := 0xFFFFFFFF
      fragmentOffset := 0xFFFFFFFF
      data := [1, 2, 3] }]

/-- The fragment for Alice's entry, from an address that is not hers. -/
theorem no_remote_panic_wild :
    ∃ h : HostTask, h.Reachable ∧ (h.peer 0).isSome = true
      ∧ Checked.HostTask.onDatagram h wildFragment bob 20 = some (h.onDatagram wildFragment bob 20)
      ∧ ∃ h', Checked.HostTask.serviceAll h 20 = some h' ∧ h.serviceAll 20 = some h' := by
  have hrun : ((bind 4 false 0 0).run (aliceConnects 0)).any (fun h => (h.peer 0).isSome)
      = true := by decide +kernel
  obtain ⟨h, hh, hsome⟩ := (Option.any_eq_true _ _).mp hrun
  have hr : h.Reachable := ⟨_, _, _, _, _, _, hh⟩
  exact ⟨h, hr, hsome, no_remote_panic hr wildFragment bob 20⟩

end EnetRs.HostTask
