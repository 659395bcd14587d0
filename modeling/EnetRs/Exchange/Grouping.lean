/-
  EnetRs.Exchange.Grouping — how commands are packed into datagrams.

  `on_datagram` resolves the peer, checks its session and flushes the ACKs once
  per datagram, while a command in the middle may complete a handshake, finish a
  disconnect or remove the peer.  What a list of commands leaves behind does not
  depend on how it is cut into datagrams: between two datagrams the receiver
  only stamps `last_send_time`, which no handler reads, and a peer that was
  removed is not found again.

  Main results:
    * `Alike.dispatch` — one command, in two states that differ in the stamp.
    * `Alike.receiveGroups` — a list of datagrams against one pass over all
      their commands.
    * `grouping_irrelevant` — two ways to cut a list leave the same state.
-/
import EnetRs.Host.Ownership
import EnetRs.Exchange.Sessions

namespace EnetRs

open MachineInt

/-! ## §1. What no handler reads. -/

namespace PeerEntry

/-- The entry with another `last_send_time`; `none` keeps the one it has. -/
def stamp (t : Option U32) (p : PeerEntry) : PeerEntry :=
  { p with lastSendTime := t.getD p.lastSendTime }

/-- An update of the entry that neither reads nor writes `last_send_time`. -/
def StampFree (f : PeerEntry → PeerEntry) : Prop := ∀ t p, f (p.stamp t) = (f p).stamp t

theorem onPing_stampFree (nowMs : U32) : StampFree fun p => p.onPing nowMs := fun _ _ => rfl

/-- Delivering a batch touches the queue to the application and the log, so the stamp can
be set before or after it. -/
theorem deliverAll_stamp (t : Option U32) (p : PeerEntry) (ch : U8) (mode : SendMode)
    (ready : List Bytes) :
    (p.stamp t).deliverAll ch mode ready = (p.deliverAll ch mode ready).stamp t := by
  rw [deliverAll_eq, deliverAll_eq]
  rfl

/-- A reliable message: the channel is looked up and replaced, and what became ready is
delivered; the stamp is never read. -/
theorem onSendReliable_stampFree (ch : U8) (seq : U16) (data : Bytes) (nowMs : U32) :
    StampFree fun p => p.onSendReliable ch seq data nowMs := by
  intro t p
  have hsame : (p.stamp t).channels = p.channels := rfl
  simp only [onSendReliable, hsame]
  cases p.channels[ch.toNat]? with
  | none => rfl
  | some c => exact deliverAll_stamp t { p with lastReceiveTime := nowMs, channels := _ } ch _ _

/-- An unreliable message, which may be dropped as stale. -/
theorem onSendUnreliable_stampFree (ch : U8) (rseq useq : U16) (data : Bytes) (nowMs : U32) :
    StampFree fun p => p.onSendUnreliable ch rseq useq data nowMs := by
  intro t p
  have hsame : (p.stamp t).channels = p.channels := rfl
  simp only [onSendUnreliable, hsame]
  cases p.channels[ch.toNat]? with
  | none => rfl
  | some c =>
      simp only
      split
      · rfl
      · exact deliverAll_stamp t { p with lastReceiveTime := nowMs, channels := _ } ch _ _

/-- An unsequenced packet, which the window accepts or drops. -/
theorem onSendUnsequenced_stampFree (group : U16) (data : Bytes) (nowMs : U32) :
    StampFree fun p => p.onSendUnsequenced group data nowMs := by
  intro t p
  have hsame : (p.stamp t).unsequencedWindow = p.unsequencedWindow := rfl
  simp only [onSendUnsequenced, hsame]
  rw [apply_ite (stamp t)]
  rfl

/-- Storing a fragment: the budget and the channel decide, the entry's stamp passes
through both results. -/
theorem storeFragment_stamp (t : Option U32) (p : PeerEntry) (ch : U8) (c : Channel)
    (sf : SendFragmentCmd) (reliable : Bool) :
    (p.stamp t).storeFragment ch c sf reliable
      = (p.storeFragment ch c sf reliable).map (stamp t) id := by
  have hsame : (p.stamp t).fragmentRefused c sf = p.fragmentRefused c sf := rfl
  simp only [storeFragment, hsame]
  rw [apply_ite (Prod.map (stamp t) id), apply_ite (Prod.map (stamp t) id)]
  rfl

/-- A fragment, reliable or not, from the checks to the delivery of a complete message. -/
theorem onFragment_stampFree (ch : U8) (sf : SendFragmentCmd) (reliable : Bool) (nowMs : U32) :
    StampFree fun p => p.onFragment ch sf reliable nowMs := by
  intro t p
  have hreceived : ({ p.stamp t with lastReceiveTime := nowMs } : PeerEntry)
      = ({ p with lastReceiveTime := nowMs } : PeerEntry).stamp t := rfl
  simp only [onFragment, hreceived]
  generalize ({ p with lastReceiveTime := nowMs } : PeerEntry) = q
  have hsame : (p.stamp t).channels = p.channels := rfl
  rw [apply_ite (stamp t), hsame]
  cases p.channels[ch.toNat]? with
  | none => rfl
  | some c =>
      simp only [storeFragment_stamp, ← deliverAll_stamp]
      rfl

theorem onBandwidthLimit_stampFree (bl : BandwidthLimitCmd) :
    StampFree fun p => p.onBandwidthLimit bl := by
  intro t p
  simp only [onBandwidthLimit]
  rw [apply_ite (stamp t)]
  rfl

theorem onThrottleConfigure_stampFree (tc : ThrottleConfigureCmd) :
    StampFree fun p => p.onThrottleConfigure tc := fun _ _ => rfl

/-- The estimate of the round-trip time reads and writes its own three fields. -/
theorem updateRtt_stampFree (sample : U32) : StampFree fun p => p.updateRtt sample := by
  intro t p
  simp only [updateRtt]
  rw [apply_ite (stamp t), apply_ite (stamp t)]
  rfl

theorem sampleRtt_stampFree (sentTime : U16) (nowMs : U32) :
    StampFree fun p => p.sampleRtt sentTime nowMs := by
  intro t p
  have hupdate : ∀ sample, (p.stamp t).updateRtt sample = (p.updateRtt sample).stamp t :=
    fun sample => updateRtt_stampFree sample t p
  simp only [sampleRtt, hupdate]
  rw [apply_ite (stamp t)]

/-- The throttle: four nested conditions, none of which reads the stamp. -/
theorem adjustThrottle_stampFree (nowMs : U32) : StampFree fun p => p.adjustThrottle nowMs := by
  intro t p
  simp only [adjustThrottle]
  rw [apply_ite (stamp t), apply_ite (stamp t), apply_ite (stamp t), apply_ite (stamp t)]
  rfl

/-- An ACK: the sample, the throttle and the removal of the command, in this order. -/
theorem applyAck_stampFree (ch : U8) (a : AcknowledgeCmd) (nowMs : U32) :
    StampFree fun p => p.applyAck ch a nowMs := by
  intro t p
  have hsample := sampleRtt_stampFree a.receivedSentTime nowMs t { p with lastReceiveTime := nowMs }
  have hadjust := adjustThrottle_stampFree nowMs t
    (({ p with lastReceiveTime := nowMs } : PeerEntry).sampleRtt a.receivedSentTime nowMs)
  simp only at hsample hadjust
  rw [← hsample] at hadjust
  have hreceived : ({ p.stamp t with lastReceiveTime := nowMs } : PeerEntry)
      = ({ p with lastReceiveTime := nowMs } : PeerEntry).stamp t := rfl
  simp only [applyAck, hreceived, hadjust]
  rfl

end PeerEntry

/-! ## §2. Two states that differ in the stamp. -/

/-- An event that an application sees; datagrams go to the network. -/
def Event.reports : Event → Bool
  | .sent .. => false
  | _ => true

namespace HostTask

/-- What the applications were told so far: connections accepted, answered and
ended. -/
def reported (trace : List Event) : List Event := trace.filter Event.reports

theorem reported_append (tr tr' : List Event) : reported (tr ++ tr') = reported tr ++ reported tr' :=
  List.filter_append tr tr'

variable {h h' : HostTask} {k : PeerKey} {p : PeerEntry} {t : Option U32} {nowMs : U32}

/-- The second of two writes to a slot wins, whatever trace is recorded in between. -/
theorem setPeer_retraced (h : HostTask) (k : PeerKey) (p q : PeerEntry) (tr : List Event) :
    ({ h.setPeer k p with trace := tr } : HostTask).setPeer k q = { h.setPeer k q with trace := tr } := by
  show ({ (h.setPeer k p).setPeer k q with trace := tr } : HostTask) = _
  rw [setPeer_setPeer]

/-- Removing an entry forgets what was changed in it; the address stays the one to
unmap. -/
theorem removePeer_retraced (hp : h.peer k = some p) {q : PeerEntry} (haddr : q.addr = p.addr)
    (tr : List Event) :
    ({ h.setPeer k q with trace := tr } : HostTask).removePeer k
      = { h.removePeer k with trace := tr } := by
  rw [← removePeer_setPeer hp haddr]
  rfl

/-- `h'` is `h` but for what was sent, and for `last_send_time` in slot `k`. -/
def Alike (k : PeerKey) (t : Option U32) (h h' : HostTask) : Prop :=
  ∃ tr, reported tr = reported h.trace
    ∧ h' = { h.updatePeer k (PeerEntry.stamp t) with trace := tr }

namespace Alike

/-- With an empty slot the two states differ in their datagrams only. -/
theorem of_none (hp : h.peer k = none) {tr : List Event} (htr : reported tr = reported h.trace) :
    Alike k t h { h with trace := tr } :=
  ⟨tr, htr, by rw [updatePeer_of_none hp]⟩

/-- With an entry in the slot they differ in its stamp, too. -/
theorem of_some (hp : h.peer k = some p) {tr : List Event} (htr : reported tr = reported h.trace) :
    Alike k t h { h.setPeer k (p.stamp t) with trace := tr } :=
  ⟨tr, htr, by rw [updatePeer_of_some hp]⟩

/-- A state is like itself: the stamp `none` keeps what is there. -/
theorem refl (k : PeerKey) (h : HostTask) : Alike k none h h := by
  cases hp : h.peer k with
  | none => exact of_none hp rfl
  | some p =>
      have hself : h.setPeer k (p.stamp none) = h := setPeer_self hp
      have ha := of_some (t := none) hp rfl
      rw [hself] at ha
      exact ha

/-- The entry of the other state is the same, stamped. -/
theorem peer (ha : Alike k t h h') (hp : h.peer k = some p) : h'.peer k = some (p.stamp t) := by
  obtain ⟨tr, htr, rfl⟩ := ha
  rw [updatePeer_of_some hp]
  exact peer_setPeer_self (lt_of_peer_eq_some hp)

theorem peer_none (ha : Alike k t h h') (hp : h.peer k = none) : h'.peer k = none := by
  obtain ⟨tr, htr, rfl⟩ := ha
  rw [updatePeer_of_none hp]
  exact hp

/-- Writing the same entry, stamped on the other side, keeps the two states alike. -/
theorem setPeer (ha : Alike k t h h') (hp : h.peer k = some p) (q : PeerEntry) :
    Alike k t (h.setPeer k q) (h'.setPeer k (q.stamp t)) := by
  obtain ⟨tr, htr, rfl⟩ := ha
  rw [updatePeer_of_some hp]
  have hset := of_some (t := t) (peer_setPeer_self (q := q) (lt_of_peer_eq_some hp)) htr
  rw [setPeer_setPeer] at hset
  rw [setPeer_retraced]
  exact hset

/-- **An update that does not look at the stamp** keeps the two states alike: this is the
case of most handlers. -/
theorem updatePeer (ha : Alike k t h h') {f : PeerEntry → PeerEntry}
    (hf : PeerEntry.StampFree f) : Alike k t (h.updatePeer k f) (h'.updatePeer k f) := by
  cases hp : h.peer k with
  | none => rwa [updatePeer_of_none hp, updatePeer_of_none (ha.peer_none hp)]
  | some p =>
      rw [updatePeer_of_some hp, updatePeer_of_some (ha.peer hp), hf t p]
      exact ha.setPeer hp (f p)

/-- The ghost record of a payload taken: whether it was taken is decided by the entry
before the command, and the decision does not read the stamp. -/
theorem noteTake {g g' : HostTask} (hg : Alike k t g g') (ha : Alike k t h h') (ch : U8)
    (seq : U16) (d : ReliableData) :
    Alike k t (g.noteTake h k ch seq d) (g'.noteTake h' k ch seq d) := by
  have htakes : (h'.peer k).any (fun p => p.takes ch seq d)
      = (h.peer k).any fun p => p.takes ch seq d := by
    cases hp : h.peer k with
    | none => rw [ha.peer_none hp]
    | some p => rw [ha.peer hp]; rfl
  unfold HostTask.noteTake
  rw [htakes]
  split
  · exact hg.updatePeer fun _ _ => rfl
  · exact hg

/-- A removal keeps them alike, and takes the difference in the slot with it. -/
theorem removePeer (ha : Alike k t h h') : Alike k t (h.removePeer k) (h'.removePeer k) := by
  have hgone : (h.removePeer k).peer k = none := by rw [peer_removePeer, if_pos rfl]
  cases hp : h.peer k with
  | none =>
      obtain ⟨tr, htr, rfl⟩ := ha
      rw [updatePeer_of_none hp]
      have hp' : ({ h with trace := tr } : HostTask).peer k = none := hp
      rw [removePeer_of_none hp, removePeer_of_none hp']
      exact of_none hp htr
  | some p =>
      obtain ⟨tr, htr, rfl⟩ := ha
      rw [updatePeer_of_some hp, removePeer_retraced hp (q := p.stamp t) rfl]
      exact of_none hgone htr

theorem trace (ha : Alike k t h h') : reported h'.trace = reported h.trace := by
  obtain ⟨tr, htr, rfl⟩ := ha
  exact htr

/-- The datagrams sent on either side do not matter, and both sides may get the
same accept queue. -/
theorem outside (ha : Alike k t h h') (tx : Mpsc (PeerKey × Receiver)) {tr tr' : List Event}
    (htr : reported tr' = reported tr) :
    Alike k t { h with acceptTx := tx, trace := tr } { h' with acceptTx := tx, trace := tr' } := by
  obtain ⟨tr₀, -, rfl⟩ := ha
  refine ⟨tr', htr, ?_⟩
  cases hp : h.peer k with
  | none =>
      have hp' : ({ h with acceptTx := tx, trace := tr } : HostTask).peer k = none := hp
      rw [updatePeer_of_none hp, updatePeer_of_none hp']
  | some p =>
      have hp' : ({ h with acceptTx := tx, trace := tr } : HostTask).peer k = some p := hp
      rw [updatePeer_of_some hp, updatePeer_of_some hp']
      rfl

theorem acceptTx (ha : Alike k t h h') : h'.acceptTx = h.acceptTx := by
  obtain ⟨tr, htr, rfl⟩ := ha
  exact updatePeer_acceptTx h k (PeerEntry.stamp t)

/-- More datagrams may be recorded on either side, as long as the applications were told
the same. -/
theorem retrace (ha : Alike k t h h') {tr tr' : List Event} (htr : reported tr' = reported tr) :
    Alike k t { h with trace := tr } { h' with trace := tr' } := by
  have hout := ha.outside h.acceptTx htr
  have hsame : ({ h' with acceptTx := h.acceptTx, trace := tr' } : HostTask)
      = { h' with trace := tr' } := by rw [← ha.acceptTx]
  rwa [hsame] at hout

theorem ite {c : Prop} [Decidable c] {a a' b b' : HostTask} (hpos : c → Alike k t a a')
    (hneg : ¬ c → Alike k t b b') : Alike k t (if c then a else b) (if c then a' else b') := by
  split
  · next hc => exact hpos hc
  · next hc => exact hneg hc

/-! The handlers that are more than an update of the entry. -/

/-- An ACK ends in one of four ways: the entry is established, accepted, removed or just
updated.  Which one depends on the entry and the accept queue, and both sides agree on
these. -/
theorem onAck (ha : Alike k t h h') (ch : U8) (a : AcknowledgeCmd) :
    Alike k t (h.onAck k ch a nowMs) (h'.onAck k ch a nowMs) := by
  cases hp : h.peer k with
  | none => simpa only [HostTask.onAck, hp, ha.peer_none hp] using ha
  | some p =>
      have hack : (p.stamp t).applyAck ch a nowMs = (p.applyAck ch a nowMs).stamp t :=
        PeerEntry.applyAck_stampFree ch a nowMs t p
      simp only [HostTask.onAck, hp, ha.peer hp, hack]
      generalize p.applyAck ch a nowMs = q
      have hq := ha.setPeer hp q
      refine ite (fun _ => ?_) fun _ => ite (fun _ => hq.removePeer) fun _ => hq
      have hconnected := ha.setPeer hp { q with state := .connected, toUserRx := none }
      have hrx : (q.stamp t).toUserRx = q.toUserRx := rfl
      rw [hrx]
      cases q.toUserRx with
      | none => exact hconnected
      | some rx =>
          have htx : (h'.setPeer k { q.stamp t with state := .connected, toUserRx := none }).acceptTx
              = (h.setPeer k { q with state := .connected, toUserRx := none }).acceptTx :=
            hconnected.acceptTx
          simp only [htx]
          refine ite (fun _ => hconnected.outside _ ?_) fun _ => hconnected.removePeer
          rw [reported_append, reported_append, setPeer_trace, setPeer_trace, ha.trace]
          rfl

/-- A DISCONNECT outside the handshake is reported and removes the peer. -/
theorem onDisconnect_eq (hp : h.peer k = some p) (hst : p.state ≠ .acknowledgingConnect)
    (hdr : CommandHeader) (sentTime : Option U16) (data nowMs : U32) :
    ∃ tr, reported tr = reported h.trace ++ [.disconnected p.conn (some data) p.toUser.hasRoom]
      ∧ h.onDisconnect k hdr sentTime data nowMs = { h.removePeer k with trace := tr } := by
  have hmap : ¬ (h.peer k).map (·.state) = some .acknowledgingConnect := by simp [hp, hst]
  -- whatever was emitted before: the notice, then the removal
  have hend : ∀ (g : HostTask) (s : Option U32) (tr : List Event), reported tr = reported h.trace →
      g = { h.setPeer k (p.stamp s) with trace := tr } → ∃ tr',
      reported tr' = reported h.trace ++ [.disconnected p.conn (some data) p.toUser.hasRoom]
        ∧ (g.notifyDisconnect k (some data)).removePeer k
          = { h.removePeer k with trace := tr' } := by
    intro g s tr htr hg
    have hq : g.peer k = some (p.stamp s) := by
      rw [hg]
      exact peer_setPeer_self (lt_of_peer_eq_some hp)
    simp only [notifyDisconnect, hq]
    rw [hg, setPeer_retraced]
    refine ⟨tr ++ [_], ?_, removePeer_retraced hp
      (q := { p.stamp s with toUser := p.toUser.trySend (.error (some data)) }) rfl _⟩
    rw [reported_append, htr]
    rfl
  simp only [HostTask.onDisconnect, if_neg hmap]
  split
  -- with an ACK, which stamps the entry that is about to be removed
  · next st _ =>
    have hne : [ack hdr.channelId hdr.reliableSeq st] ≠ [] := List.cons_ne_nil _ _
    rw [emitByKey_of_some hp hne]
    refine hend _ (some nowMs) (h.trace ++ [_]) ?_ rfl
    rw [reported_append]
    exact List.append_nil _
  · exact hend h none h.trace rfl (setPeer_self hp).symm

/-- A DISCONNECT for an empty slot is ignored. -/
theorem onDisconnect_of_none (hp : h.peer k = none) (hdr : CommandHeader) (sentTime : Option U16)
    (data nowMs : U32) : h.onDisconnect k hdr sentTime data nowMs = h := by
  have hreport : (h.notifyDisconnect k (some data)).removePeer k = h := by
    simp only [notifyDisconnect, hp, removePeer_of_none hp]
  simp only [HostTask.onDisconnect, hp, Option.map_none, reduceCtorEq, if_false]
  split
  · rw [emitByKey_of_none hp, hreport]
  · exact hreport

/-- A DISCONNECT emits its ACK before the removal, so the stamp of the removed entry does
not matter; what the application is told is the same on both sides. -/
theorem onDisconnect (ha : Alike k t h h') (hdr : CommandHeader) (sentTime : Option U16)
    (data : U32) :
    Alike k t (h.onDisconnect k hdr sentTime data nowMs)
      (h'.onDisconnect k hdr sentTime data nowMs) := by
  cases hp : h.peer k with
  | none => rwa [onDisconnect_of_none hp, onDisconnect_of_none (ha.peer_none hp)]
  | some p =>
      by_cases hst : p.state = .acknowledgingConnect
      · have hmap : (h.peer k).map (·.state) = some .acknowledgingConnect := by simp [hp, hst]
        have hmap' : (h'.peer k).map (·.state) = some .acknowledgingConnect := by
          rw [ha.peer hp]
          exact congrArg some hst
        unfold HostTask.onDisconnect
        rwa [if_pos hmap, if_pos hmap']
      · obtain ⟨tr, htr, heq⟩ := onDisconnect_eq hp hst hdr sentTime data nowMs
        obtain ⟨tr', htr', heq'⟩ := onDisconnect_eq (ha.peer hp) hst hdr sentTime data nowMs
        rw [heq, heq']
        refine ha.removePeer.retrace ?_
        rw [htr, htr', ha.trace]
        rfl

/-- **One command.**  Neither CONNECT nor VERIFY_CONNECT: its handler does the
same in both states. -/
theorem dispatch (ha : Alike k t h h') (sentTime : Option U16) (cmd : Command) (src : SocketAddr)
    (hc : cmd.header.commandType ≠ cmdConnect) (hv : cmd.header.commandType ≠ cmdVerifyConnect) :
    Alike k t (h.dispatch (some k) sentTime cmd src nowMs)
      (h'.dispatch (some k) sentTime cmd src nowMs) := by
  obtain ⟨f, hf, heq⟩ := dispatch_handled (some k) sentTime cmd src nowMs
  rw [heq, heq]
  -- no handler reads the send time, in which alone the two hosts differ
  cases hf with
  | ignored => exact ha
  | connect c hty => exact absurd hty hc
  | verifyConnect _ vc _ hty => exact absurd hty hv
  | ack _ a hk =>
      cases hk
      exact ha.onAck _ a
  | disconnect _ data hk =>
      cases hk
      exact ha.onDisconnect cmd.header sentTime data
  | ping _ hk =>
      cases hk
      exact ha.updatePeer (PeerEntry.onPing_stampFree nowMs)
  | reliable _ data hk =>
      cases hk
      exact (ha.updatePeer (PeerEntry.onSendReliable_stampFree _ _ data nowMs)).noteTake ha _ _ _
  | unreliable _ useq data hk =>
      cases hk
      exact ha.updatePeer (PeerEntry.onSendUnreliable_stampFree _ _ useq data nowMs)
  | fragment _ sf hk =>
      cases hk
      exact (ha.updatePeer (PeerEntry.onFragment_stampFree _ sf true nowMs)).noteTake ha _ _ _
  | unreliableFragment _ sf hk =>
      cases hk
      exact ha.updatePeer (PeerEntry.onFragment_stampFree _ sf false nowMs)
  | unsequenced _ group data hk =>
      cases hk
      exact ha.updatePeer (PeerEntry.onSendUnsequenced_stampFree group data nowMs)
  | bandwidthLimit _ bl hk =>
      cases hk
      exact ha.updatePeer (PeerEntry.onBandwidthLimit_stampFree bl)
  | throttleConfigure _ tc hk =>
      cases hk
      exact ha.updatePeer (PeerEntry.onThrottleConfigure_stampFree tc)

end Alike

/-! ## §3. The ACKs at the end of a datagram. -/

namespace Alike

/-- Only the last stamp shows. -/
theorem trans {h₁ : HostTask} {n : U32} (ha : Alike k t h h₁) (hb : Alike k (some n) h₁ h') :
    Alike k (some n) h h' := by
  cases hp : h.peer k with
  | none =>
      obtain ⟨tr, htr, rfl⟩ := hb
      rw [ha.trace] at htr
      rw [updatePeer_of_none (ha.peer_none hp)]
      obtain ⟨tr₁, -, rfl⟩ := ha
      rw [updatePeer_of_none hp]
      exact of_none hp htr
  | some p =>
      obtain ⟨tr, htr, rfl⟩ := hb
      rw [ha.trace] at htr
      rw [updatePeer_of_some (ha.peer hp)]
      obtain ⟨tr₁, -, rfl⟩ := ha
      rw [updatePeer_of_some hp, setPeer_retraced]
      exact of_some hp htr

/-- A batch that goes out is such a difference: it stamps the entry and records a
datagram. -/
theorem emitByKey (h : HostTask) (k : PeerKey) {cmds : List Bytes} (hc : cmds ≠ []) :
    Alike k (some nowMs) h (h.emitByKey k cmds nowMs) := by
  cases hp : h.peer k with
  | none =>
      rw [emitByKey_of_none hp]
      exact of_none hp rfl
  | some p =>
      rw [emitByKey_of_some hp hc]
      refine of_some hp ?_
      show reported (h.trace ++ _) = _
      rw [reported_append]
      exact List.append_nil _

/-- The loop of `flush_batch`, by induction on the commands to come: at least one batch
goes out, and all of them leave the same stamp. -/
theorem flushLoop (k : PeerKey) (nowMs : U32) (mtu hdr : Nat) (cmds : List Bytes) :
    ∀ (h : HostTask) (batch : List Bytes) (sz : Nat), batch ≠ [] ∨ cmds ≠ [] →
      Alike k (some nowMs) h (HostTask.flushLoop k nowMs mtu hdr h cmds batch sz) := by
  induction cmds with
  | nil =>
      intro h batch sz hne
      exact emitByKey h k (hne.resolve_right fun hnil => hnil rfl)
  | cons cmd cmds ih =>
      intro h batch sz _
      unfold HostTask.flushLoop
      split
      · next hcut =>
        exact (emitByKey h k hcut.2).trans (ih _ _ _ (.inl (List.cons_ne_nil _ _)))
      · exact ih h _ _ (.inl (by simp))

/-- A list that is not empty leaves the stamp `nowMs`, however it is cut. -/
theorem flushBatch (h : HostTask) (k : PeerKey) {cmds : List Bytes} (hc : cmds ≠ []) :
    Alike k (some nowMs) h (h.flushBatch k cmds nowMs) := by
  cases hp : h.peer k with
  | none =>
      simp only [HostTask.flushBatch, hp]
      exact of_none hp rfl
  | some p =>
      simp only [HostTask.flushBatch, hp]
      exact flushLoop k nowMs _ _ cmds h [] _ (.inr hc)

end Alike

/-- The stamp after a batch of ACKs. -/
def stampAfter (t : Option U32) (acks : List Bytes) (nowMs : U32) : Option U32 :=
  if acks.isEmpty then t else some nowMs

/-- Two batches of ACKs leave the stamp that one batch of both leaves. -/
theorem stampAfter_append (t : Option U32) (acks acks' : List Bytes) (nowMs : U32) :
    stampAfter (stampAfter t acks nowMs) acks' nowMs = stampAfter t (acks ++ acks') nowMs := by
  cases acks <;> cases acks' <;> rfl

/-- The ACKs at the end of a datagram add to the difference only a stamp, if there are
any. -/
theorem Alike.flushAcks (ha : Alike k t h h') (src : SocketAddr) (acks : List Bytes) :
    Alike k (stampAfter t acks nowMs) h (h'.flushAcks (some k) src acks nowMs) := by
  cases acks with
  | nil => exact ha
  | cons ack acks => exact ha.trans (Alike.flushBatch h' k (List.cons_ne_nil ack acks))

/-! ## §4. One datagram. -/

/-- A command that is not part of the handshake. -/
def Ordinary (cmd : Command) : Prop :=
  cmd.header.commandType ≠ cmdConnect ∧ cmd.header.commandType ≠ cmdVerifyConnect

/-- The ACKs that the commands of a datagram for a resolved peer are due. -/
def acksFor (k : PeerKey) (sentTime : Option U16) (cmds : List Command) : List Bytes :=
  cmds.flatMap fun cmd => ackFor (some k) sentTime cmd.header

/-- The ACKs that the loop collects depend on the headers of the commands and not on the
task. -/
theorem onCommands_acks (key : Option PeerKey) (sentTime : Option U16) (src : SocketAddr)
    (nowMs : U32) (cmds : List Command) (h : HostTask) (acks : List Bytes) :
    (onCommands key sentTime src nowMs h cmds acks).2
      = acks ++ cmds.flatMap fun cmd => ackFor key sentTime cmd.header := by
  induction cmds generalizing h acks with
  | nil => exact (List.append_nil acks).symm
  | cons cmd cmds ih =>
      show (onCommands key sentTime src nowMs _ cmds (acks ++ ackFor key sentTime cmd.header)).2 = _
      rw [ih, List.flatMap_cons, List.append_assoc]

/-- What the loop does to the task does not depend on the ACKs collected so far. -/
theorem onCommands_state (key : Option PeerKey) (sentTime : Option U16) (src : SocketAddr)
    (nowMs : U32) (cmds : List Command) (h : HostTask) (acks : List Bytes) :
    (onCommands key sentTime src nowMs h cmds acks).1
      = cmds.foldl (fun h cmd => h.dispatch key sentTime cmd src nowMs) h := by
  induction cmds generalizing h acks with
  | nil => rfl
  | cons cmd cmds ih => exact ih _ _

/-- One pass over ordinary commands keeps the two states alike, command by command. -/
theorem Alike.foldl_dispatch (ha : Alike k t h h') (sentTime : Option U16) (src : SocketAddr)
    {cmds : List Command} (hcmds : ∀ cmd ∈ cmds, Ordinary cmd) :
    Alike k t (cmds.foldl (fun h cmd => h.dispatch (some k) sentTime cmd src nowMs) h)
      (cmds.foldl (fun h cmd => h.dispatch (some k) sentTime cmd src nowMs) h') := by
  induction cmds generalizing h h' with
  | nil => exact ha
  | cons cmd cmds ih =>
      have hcmd := hcmds cmd List.mem_cons_self
      exact ih (ha.dispatch sentTime cmd src hcmd.1 hcmd.2)
        fun c hc => hcmds c (List.mem_cons_of_mem _ hc)

/-- An ordinary command for nobody is ignored: every handler needs a key. -/
theorem dispatch_nobody {cmd : Command} (hcmd : Ordinary cmd) (sentTime : Option U16)
    (src : SocketAddr) : h.dispatch none sentTime cmd src nowMs = h := by
  obtain ⟨f, hf, heq⟩ := dispatch_handled none sentTime cmd src nowMs
  rw [heq]
  cases hf with
  | ignored => rfl
  | connect c hty => exact absurd hty hcmd.1
  | _ => contradiction

/-- An ordinary command for an empty slot is ignored, too: every handler looks the entry
up first. -/
theorem dispatch_empty {cmd : Command} (hcmd : Ordinary cmd) (hp : h.peer k = none)
    (sentTime : Option U16) (src : SocketAddr) :
    h.dispatch (some k) sentTime cmd src nowMs = h := by
  -- the ghost record of a taken payload is not made either
  have htake : ∀ f ch seq d, (h.updatePeer k f).noteTake h k ch seq d = h := by
    intro f ch seq d
    rw [updatePeer_of_none hp]
    simp [noteTake, hp]
  obtain ⟨f, hf, heq⟩ := dispatch_handled (some k) sentTime cmd src nowMs
  rw [heq]
  cases hf with
  | ignored => rfl
  | connect c hty => exact absurd hty hcmd.1
  | verifyConnect _ vc _ hty => exact absurd hty hcmd.2
  | ack _ a hk =>
      cases hk
      simp only [onAck, hp]
  | disconnect _ data hk =>
      cases hk
      exact Alike.onDisconnect_of_none hp cmd.header sentTime data nowMs
  | reliable _ data hk =>
      cases hk
      exact htake _ _ _ _
  | fragment _ sf hk =>
      cases hk
      exact htake _ _ _ _
  | ping _ hk | unreliable _ _ _ hk | unreliableFragment _ _ hk | unsequenced _ _ _ hk
  | bandwidthLimit _ _ hk | throttleConfigure _ _ hk =>
      cases hk
      exact updatePeer_of_none hp

/-- Datagrams without checksum, with this header and from this address, are for
slot `k`: they resolve to it and pass its session check, or the peer has been
removed since. -/
structure LeadsTo (hdr : ProtocolHeader) (src : SocketAddr) (k : PeerKey) (h : HostTask) : Prop where
  key : h.resolveKey hdr src = some k ∨ h.peer k = none ∧ h.resolveKey hdr src = none
  session : ∀ p, h.peer k = some p → p.incomingSessionId = 0xFF
    ∨ hdr.sessionId = p.incomingSessionId
  addr : hdr.peerId = headerPeerIdMax → ∀ p, h.peer k = some p → p.addr = src
  off : h.useChecksum = false

/-- Which slot a header leads to depends on the address map and the number of slots. -/
theorem resolveKey_congr {hdr : ProtocolHeader} {src : SocketAddr}
    (hmap : h'.addrMap src = h.addrMap src) (hlen : h'.peers.length = h.peers.length) :
    h'.resolveKey hdr src = h.resolveKey hdr src := by
  unfold resolveKey
  rw [hmap, hlen]

namespace LeadsTo

variable {hdr : ProtocolHeader} {src : SocketAddr} {l : Label}

/-- An operation other than VERIFY_CONNECT changes neither the address nor the session of
an entry, so the header leads where it led before. -/
theorem op {j : PeerKey} {o : PeerOp} (hl : LeadsTo hdr src k h)
    (ho : ∀ hostMtu vc hdr, o ≠ .verify hostMtu vc hdr) (hp : h.peer j = some p) :
    LeadsTo hdr src k ((Label.op j o).apply nowMs h) := by
  have hkey : ((Label.op j o).apply nowMs h).resolveKey hdr src = h.resolveKey hdr src :=
    resolveKey_congr (by rw [Label.addrMap_apply_op]) (Label.length_apply _)
  -- whoever is in the slot afterwards was there before, with the same address and session
  have hback : ∀ q, ((Label.op j o).apply nowMs h).peer k = some q → ∃ q₀, h.peer k = some q₀
      ∧ q.addr = q₀.addr ∧ q.incomingSessionId = q₀.incomingSessionId := by
    intro q hq
    rw [Label.peer_apply_op hp] at hq
    split at hq
    · next hkj =>
      cases hq
      exact ⟨p, by rw [hkj, hp], (PeerOp.sameConnection nowMs p o).addr,
        PeerOp.incomingSessionId_of_ne_verify ho⟩
    · exact ⟨q, hq, rfl, rfl⟩
  constructor
  · rw [hkey]
    refine hl.key.imp_right fun hgone => ⟨?_, hgone.2⟩
    rw [Label.peer_apply_op hp, if_neg, hgone.1]
    intro hkj
    rw [hkj, hp] at hgone
    cases hgone.1
  · intro q hq
    obtain ⟨q₀, hq₀, -, hs⟩ := hback q hq
    rw [hs]
    exact hl.session q₀ hq₀
  · intro hmax q hq
    obtain ⟨q₀, hq₀, ha, -⟩ := hback q hq
    rw [ha]
    exact hl.addr hmax q₀ hq₀
  · rw [Label.useChecksum_apply, hl.off]

/-- The removal of the peer itself, or of the one the address points at: the header leads
to the empty slot or, looked up by address, nowhere. -/
theorem remove {j : PeerKey} (hl : LeadsTo hdr src k h) (hp : h.peer j = some p)
    (hj : some k = some j ∨ h.addrMap src = some j) :
    LeadsTo hdr src k ((Label.remove j).apply nowMs h) := by
  have hlen : ((Label.remove j).apply nowMs h).peers.length = h.peers.length := Label.length_apply _
  have hsub : ∀ q, ((Label.remove j).apply nowMs h).peer k = some q → h.peer k = some q := by
    intro q hq
    rw [Label.peer_apply_remove] at hq
    split at hq
    · cases hq
    · exact hq
  refine ⟨?_, fun q hq => hl.session q (hsub q hq), fun hmax q hq => hl.addr hmax q (hsub q hq),
    hl.off⟩
  by_cases hmax : hdr.peerId = headerPeerIdMax
  · have hres : ∀ g : HostTask, g.resolveKey hdr src = g.addrMap src := by
      intro g
      rw [resolveKey, if_pos hmax]
    rw [hres]
    rcases hl.key with hkey | ⟨hgone, hkey⟩
    · -- the address points at `k`, so `j` is `k`, and its address is `src`
      rw [hres] at hkey
      have hjk : j = k := by
        rcases hj with hj | hj
        · exact (Option.some.inj hj).symm
        · exact Option.some.inj (hj.symm.trans hkey)
      subst hjk
      refine .inr ⟨by rw [Label.peer_apply_remove, if_pos rfl], ?_⟩
      show (h.removePeer j).addrMap src = none
      rw [addrMap_removePeer hp, hl.addr hmax p hp, Function.update_self]
    · rw [hres] at hkey
      rcases hj with hj | hj
      · rw [← Option.some.inj hj, hgone] at hp
        cases hp
      · rw [hkey] at hj
        cases hj
  · have hres : ∀ g : HostTask, g.peers.length = h.peers.length →
        g.resolveKey hdr src = h.resolveKey hdr src := by
      intro g hg
      rw [resolveKey, resolveKey, if_neg hmax, if_neg hmax, hg]
    rw [hres _ hlen]
    refine hl.key.imp_right fun hgone => ⟨?_, hgone.2⟩
    rw [Label.peer_apply_remove]
    split
    · rfl
    · exact hgone.1

/-- What an ordinary command, or its ACK, does keeps the way the header leads; a CONNECT
or VERIFY_CONNECT would not. -/
theorem label (hl : LeadsTo hdr src k h) (hg : l.Guard nowMs h) {cmd : Command}
    (hcmd : Ordinary cmd) {h₀ : HostTask} (hmakes : cmd.Makes h₀ (some k) src nowMs h l) :
    LeadsTo hdr src k (l.apply nowMs h) := by
  cases l with
  | op j o =>
      obtain ⟨p, hp, -⟩ := hg
      refine hl.op ?_ hp
      rintro hostMtu vc hdr rfl
      exact hcmd.2 hmakes.2.2.1
  | remove j =>
      obtain ⟨p, hp⟩ := hg
      exact hl.remove hp hmakes
  | install slot entry =>
      obtain ⟨c, hconnects, -⟩ := hmakes
      exact absurd hconnects.1 hcmd.1
  | raw connect addr => exact ⟨hl.key, hl.session, hl.addr, hl.off⟩
  | epoch => exact hmakes.elim
  | appAccept => exact hmakes.elim
  | appClose => exact hmakes.elim

/-- After a pass over ordinary commands the next datagram leads to the same slot. -/
theorem foldl_dispatch (hl : LeadsTo hdr src k h) (sentTime : Option U16) {cmds : List Command}
    (hcmds : ∀ cmd ∈ cmds, Ordinary cmd) :
    LeadsTo hdr src k (cmds.foldl (fun h cmd => h.dispatch (some k) sentTime cmd src nowMs) h) := by
  induction cmds generalizing h with
  | nil => exact hl
  | cons cmd cmds ih =>
      refine ih ?_ fun c hc => hcmds c (List.mem_cons_of_mem _ hc)
      exact (dispatch_exec nowMs h (some k) sentTime cmd src).invariant (LeadsTo hdr src k)
        (fun _ _ hl hg hmakes => hl.label hg (hcmds cmd List.mem_cons_self) hmakes) hl

/-- The ACKs do not change the way either. -/
theorem flushAcks (hl : LeadsTo hdr src k h) (key : Option PeerKey) (acks : List Bytes) :
    LeadsTo hdr src k (h.flushAcks key src acks nowMs) := by
  refine (flushAcks_exec key src acks).invariant (LeadsTo hdr src k) ?_ hl
  rintro h l hl hg ⟨j, cmds, rfl⟩
  obtain ⟨p, hp, -⟩ := hg
  exact hl.op (by simp) hp

end LeadsTo

/-! ## §5. A list of commands, cut into datagrams. -/

/-- A datagram without checksum: a header and commands. -/
def groupDatagram (hdr : ProtocolHeader) (cmds : List Command) : Bytes :=
  hdr.write ++ (cmds.map Command.write).flatten

/-- The groups arrive as successive datagrams with the same header. -/
def receiveGroups (hdr : ProtocolHeader) (src : SocketAddr) (nowMs : U32) (h : HostTask)
    (groups : List (List Command)) : HostTask :=
  groups.foldl (fun h cmds => h.onDatagram (groupDatagram hdr cmds) src nowMs) h

/-- A header as a peer writes it, for a host that reads it: the send time is
announced, and nothing is compressed. -/
structure Readable (hdr : ProtocolHeader) : Prop where
  flag : hdr.hasSentTime = hdr.sentTime.isSome
  plain : hdr.isCompressed = false

/-- What a datagram may carry here. -/
structure Carried (cmds : List Command) : Prop where
  wellFormed : ∀ cmd ∈ cmds, cmd.WellFormed
  ordinary : ∀ cmd ∈ cmds, Ordinary cmd
  length : cmds.length ≤ maxCommandsPerPacket

section Groups

variable {hdr : ProtocolHeader} {src : SocketAddr} {cmds : List Command}

/-- A group of at most 32 well-formed commands is accepted as it is: the header is read,
the session check passes, and the parser gives back the list. -/
theorem acceptDatagram_group (hl : LeadsTo hdr src k h) (hr : Readable hdr) (hc : Carried cmds) :
    h.acceptDatagram (groupDatagram hdr cmds) src
      = some { key := h.resolveKey hdr src, sentTime := hdr.sentTime, cmds := cmds } := by
  have hparse := ProtocolHeader.parse_write hr.flag (cmds.map Command.write).flatten
  have hcmds : parseCommands (cmds.map Command.write).flatten = cmds := by
    rw [parseCommands_write hc.wellFormed, List.take_of_length_le hc.length]
  have hsession : ∀ slice, h.sessionOk hdr (h.resolveKey hdr src) slice = true := by
    intro slice
    unfold sessionOk
    split
    · rfl
    · rcases hl.key with hkey | ⟨-, hkey⟩
      · rw [hkey]
        cases hp : h.peer k with
        | none => simp [hp]
        | some p =>
            rcases hl.session p hp with hs | hs <;> simp [hp, hs]
      · rw [hkey]
        rfl
  simp [acceptDatagram, groupDatagram, hparse, hr.plain, hsession, checkedPayload, hl.off, hcmds]

/-- A datagram for a peer that is gone is ignored: its commands have no key, and nobody is
owed an ACK. -/
theorem onDatagram_gone (hl : LeadsTo hdr src k h) (hr : Readable hdr) (hc : Carried cmds)
    (hkey : h.resolveKey hdr src = none) :
    h.onDatagram (groupDatagram hdr cmds) src nowMs = h := by
  have hacc := acceptDatagram_group hl hr hc
  rw [hkey] at hacc
  have hidle : ∀ cmds : List Command, (∀ cmd ∈ cmds, Ordinary cmd) →
      cmds.foldl (fun h cmd => h.dispatch none hdr.sentTime cmd src nowMs) h = h := by
    intro cmds hcmds
    induction cmds with
    | nil => rfl
    | cons cmd cmds ih =>
        rw [List.foldl_cons, dispatch_nobody (hcmds cmd List.mem_cons_self)]
        exact ih fun c hc => hcmds c (List.mem_cons_of_mem _ hc)
  have hacks : cmds.flatMap (fun cmd => ackFor none hdr.sentTime cmd.header) = [] := by
    refine List.flatMap_eq_nil_iff.mpr fun cmd _ => ?_
    unfold ackFor
    split <;> rfl
  simp only [onDatagram, hacc, onCommands_state, onCommands_acks, List.nil_append, hidle cmds hc.ordinary,
    hacks]
  rfl

/-- A pass over ordinary commands for an empty slot does nothing. -/
theorem foldl_dispatch_empty (hp : h.peer k = none) (sentTime : Option U16)
    (hcmds : ∀ cmd ∈ cmds, Ordinary cmd) :
    cmds.foldl (fun h cmd => h.dispatch (some k) sentTime cmd src nowMs) h = h := by
  induction cmds with
  | nil => rfl
  | cons cmd cmds ih =>
      rw [List.foldl_cons, dispatch_empty (hcmds cmd List.mem_cons_self) hp]
      exact ih fun c hc => hcmds c (List.mem_cons_of_mem _ hc)

/-- **One datagram against one pass over its commands.**  The datagram's checks pass, or
the peer is gone and both do nothing; afterwards the header still leads to the slot. -/
theorem Alike.onDatagram (ha : Alike k t h h') (hl : LeadsTo hdr src k h') (hr : Readable hdr)
    (hc : Carried cmds) (nowMs : U32) :
    Alike k (stampAfter t (acksFor k hdr.sentTime cmds) nowMs)
        (cmds.foldl (fun h cmd => h.dispatch (some k) hdr.sentTime cmd src nowMs) h)
        (h'.onDatagram (groupDatagram hdr cmds) src nowMs)
      ∧ LeadsTo hdr src k (h'.onDatagram (groupDatagram hdr cmds) src nowMs) := by
  rcases hl.key with hkey | ⟨hgone, hkey⟩
  · have hacc := acceptDatagram_group hl hr hc
    rw [hkey] at hacc
    simp only [HostTask.onDatagram, hacc, onCommands_state, onCommands_acks, List.nil_append]
    exact ⟨(ha.foldl_dispatch hdr.sentTime src hc.ordinary).flushAcks src _,
      (hl.foldl_dispatch hdr.sentTime hc.ordinary).flushAcks _ _⟩
  · -- the peer is gone: neither pass does anything
    have hp : h.peer k = none := by
      cases hp : h.peer k with
      | none => rfl
      | some p =>
          rw [ha.peer hp] at hgone
          cases hgone
    rw [onDatagram_gone hl hr hc hkey, foldl_dispatch_empty hp hdr.sentTime hc.ordinary]
    obtain ⟨tr, htr, rfl⟩ := ha
    rw [updatePeer_of_none hp] at hl ⊢
    exact ⟨of_none hp htr, hl⟩

/-- **A list of datagrams against one pass over all their commands**, by induction on the
datagrams: the two states stay alike, and only the last stamp is to be remembered. -/
theorem Alike.receiveGroups (hr : Readable hdr) (nowMs : U32) (groups : List (List Command)) :
    ∀ (h h' : HostTask) (t : Option U32), Alike k t h h' → LeadsTo hdr src k h' →
      (∀ cmds ∈ groups, Carried cmds) →
      Alike k (stampAfter t (acksFor k hdr.sentTime groups.flatten) nowMs)
        (groups.flatten.foldl (fun h cmd => h.dispatch (some k) hdr.sentTime cmd src nowMs) h)
        (HostTask.receiveGroups hdr src nowMs h' groups) := by
  induction groups with
  | nil =>
      intro h h' t ha _ _
      exact ha
  | cons cmds groups ih =>
      intro h h' t ha hl hc
      obtain ⟨ha₁, hl₁⟩ := ha.onDatagram hl hr (hc cmds List.mem_cons_self) nowMs
      have hrest := ih _ _ _ ha₁ hl₁ fun g hg => hc g (List.mem_cons_of_mem _ hg)
      rw [stampAfter_append, acksFor, acksFor, ← List.flatMap_append, ← List.foldl_append] at hrest
      exact hrest

/-- Datagrams that are dropped one by one leave the task as it is. -/
theorem receiveGroups_dropped {groups : List (List Command)}
    (hdrop : ∀ cmds ∈ groups, h.onDatagram (groupDatagram hdr cmds) src nowMs = h) :
    receiveGroups hdr src nowMs h groups = h := by
  induction groups with
  | nil => rfl
  | cons cmds groups ih =>
      unfold receiveGroups at ih ⊢
      rw [List.foldl_cons, hdrop cmds List.mem_cons_self]
      exact ih fun g hg => hdrop g (List.mem_cons_of_mem _ hg)

/-- A datagram that claims to be compressed is dropped. -/
theorem onDatagram_compressed (hflag : hdr.hasSentTime = hdr.sentTime.isSome)
    (hcomp : hdr.isCompressed = true) : h.onDatagram (groupDatagram hdr cmds) src nowMs = h := by
  have hparse := ProtocolHeader.parse_write hflag (cmds.map Command.write).flatten
  have hnone : h.acceptDatagram (groupDatagram hdr cmds) src = none := by
    simp [acceptDatagram, groupDatagram, hparse, hcomp]
  simp only [onDatagram, hnone]

/-- A datagram of another session is dropped, unless it opens with a CONNECT. -/
theorem onDatagram_wrongSession (hflag : hdr.hasSentTime = hdr.sentTime.isSome)
    (hcmds : ∀ cmd ∈ cmds, Ordinary cmd) (hkey : h.resolveKey hdr src = some k)
    (hp : h.peer k = some p) (hff : p.incomingSessionId ≠ 0xFF)
    (hne : hdr.sessionId ≠ p.incomingSessionId) :
    h.onDatagram (groupDatagram hdr cmds) src nowMs = h := by
  refine onDatagram_of_sessionOk_false (ProtocolHeader.parse_write hflag _) ?_ nowMs
  rw [sessionOk_eq_false_iff]
  refine ⟨?_, p, by rw [hkey]; exact hp, hff, hne⟩
  cases cmds with
  | nil => simp
  | cons cmd cmds =>
      have hconnect := (hcmds cmd List.mem_cons_self).1
      simpa [Command.write, CommandHeader.commandType, commandMask] using hconnect

/-- Where the datagrams of one header lead: to a slot, or to an entry of another session,
whose check drops them all. -/
theorem exists_leadsTo (ho : Owned h) (hck : h.useChecksum = false) (hdr : ProtocolHeader)
    (src : SocketAddr) :
    (∃ k, LeadsTo hdr src k h) ∨ ∃ k p, h.resolveKey hdr src = some k ∧ h.peer k = some p
      ∧ p.incomingSessionId ≠ 0xFF ∧ hdr.sessionId ≠ p.incomingSessionId := by
  cases hkey : h.resolveKey hdr src with
  | none =>
      -- nobody: any slot that does not exist will do
      have hgone : h.peer h.peers.length = none := by simp [peer]
      refine .inl ⟨h.peers.length, .inr ⟨hgone, hkey⟩, ?_, ?_, hck⟩
      · intro p hp
        rw [hgone] at hp
        cases hp
      · intro _ p hp
        rw [hgone] at hp
        cases hp
  | some k =>
      by_cases hsession : ∀ p, h.peer k = some p →
          p.incomingSessionId = 0xFF ∨ hdr.sessionId = p.incomingSessionId
      · refine .inl ⟨k, .inl hkey, hsession, ?_, hck⟩
        intro hmax p hp
        rw [resolveKey, if_pos hmax] at hkey
        obtain ⟨q, hq, hqa⟩ := ho.addr src k hkey
        rw [← Option.some.inj (hq.symm.trans hp), hqa]
      · push Not at hsession
        obtain ⟨p, hp, hff, hne⟩ := hsession
        exact .inr ⟨k, p, rfl, hp, hff, hne⟩

end Groups

/-- The task as its applications see it: without the datagrams it sent. -/
def heard (h : HostTask) : HostTask := { h with trace := reported h.trace }

/-- **Packing into datagrams is irrelevant.**  In every reachable state, without
checksums, two ways of cutting a list of commands without handshake into
datagrams of at most 32 commands leave the same task, but for what it sent. -/
theorem grouping_irrelevant (hr : h.Reachable) (hck : h.useChecksum = false) (hdr : ProtocolHeader)
    (hflag : hdr.hasSentTime = hdr.sentTime.isSome) (src : SocketAddr) (nowMs : U32)
    (groups groups' : List (List Command)) (hsame : groups.flatten = groups'.flatten)
    (hcmds : ∀ cmd ∈ groups.flatten, cmd.WellFormed ∧ cmd.header.commandType ≠ cmdConnect
      ∧ cmd.header.commandType ≠ cmdVerifyConnect)
    (hlen : ∀ cmds ∈ groups, cmds.length ≤ 32) (hlen' : ∀ cmds ∈ groups', cmds.length ≤ 32) :
    (receiveGroups hdr src nowMs h groups).heard
      = (receiveGroups hdr src nowMs h groups').heard := by
  have hcarried : ∀ gs : List (List Command), gs.flatten = groups.flatten →
      (∀ cmds ∈ gs, cmds.length ≤ 32) → ∀ cmds ∈ gs, Carried cmds := by
    intro gs hgs hle cmds hmem
    have hall : ∀ cmd ∈ cmds, cmd ∈ groups.flatten := fun cmd hcmd => by
      rw [← hgs]
      exact List.mem_flatten_of_mem hmem hcmd
    exact ⟨fun cmd hcmd => (hcmds cmd (hall cmd hcmd)).1,
      fun cmd hcmd => (hcmds cmd (hall cmd hcmd)).2, hle cmds hmem⟩
  have hc := hcarried groups rfl hlen
  have hc' := hcarried groups' hsame.symm hlen'
  by_cases hcomp : hdr.isCompressed = true
  · rw [receiveGroups_dropped fun _ _ => onDatagram_compressed hflag hcomp,
      receiveGroups_dropped fun _ _ => onDatagram_compressed hflag hcomp]
  have hread : Readable hdr := ⟨hflag, Bool.eq_false_iff.mpr hcomp⟩
  rcases exists_leadsTo hr.owned hck hdr src with
    ⟨k, hl⟩ | ⟨k, p, hkey, hp, hff, hne⟩
  · -- both are one pass over all commands, up to the stamp the ACKs leave
    obtain ⟨tr, htr, heq⟩ := Alike.receiveGroups hread nowMs groups h h none (.refl k h) hl hc
    obtain ⟨tr', htr', heq'⟩ :=
      Alike.receiveGroups hread nowMs groups' h h none (.refl k h) hl hc'
    unfold heard
    rw [heq, heq', htr, htr', hsame]
  · rw [receiveGroups_dropped fun cmds hmem =>
        onDatagram_wrongSession hflag (hc cmds hmem).ordinary hkey hp hff hne,
      receiveGroups_dropped fun cmds hmem =>
        onDatagram_wrongSession hflag (hc' cmds hmem).ordinary hkey hp hff hne]

/-- A message, a DISCONNECT and a PING of Alice, as her second datagram or as
three: she is removed in the middle, and her end is reported once. -/
theorem grouping_irrelevant_alice :
    ∃ h, (bind 4 false 0 0).run (aliceConnects 10) = some h
      ∧ let hdr : ProtocolHeader := ⟨0x9000, some 30⟩
        let flags : U8 := commandFlagAcknowledge
        let msg : Command := ⟨⟨cmdSendReliable ||| flags, 0, 1⟩, .sendReliable [7]⟩
        let bye : Command := ⟨⟨cmdDisconnect ||| flags, 0xFF, 2⟩, .disconnect 5⟩
        let ping : Command := ⟨⟨cmdPing ||| flags, 0xFF, 3⟩, .ping⟩
        (receiveGroups hdr alice 40 h [[msg, bye, ping]]).heard
            = (receiveGroups hdr alice 40 h [[msg], [bye], [ping]]).heard
          ∧ (receiveGroups hdr alice 40 h [[msg, bye, ping]]).peer 0 = none
          ∧ reported (receiveGroups hdr alice 40 h [[msg, bye, ping]]).trace
            = reported h.trace ++ [.disconnected 1 (some 5) true] := by
  have hrun : ((bind 4 false 0 0).run (aliceConnects 10)).any (fun h => !h.useChecksum
      && (let g := receiveGroups ⟨0x9000, some 30⟩ alice 40 h
            [[⟨⟨cmdSendReliable ||| commandFlagAcknowledge, 0, 1⟩, .sendReliable [7]⟩,
              ⟨⟨cmdDisconnect ||| commandFlagAcknowledge, 0xFF, 2⟩, .disconnect 5⟩,
              ⟨⟨cmdPing ||| commandFlagAcknowledge, 0xFF, 3⟩, .ping⟩]]
          (g.peer 0).isNone
            && decide (reported g.trace = reported h.trace ++ [.disconnected 1 (some 5) true])))
      = true := by decide +kernel
  obtain ⟨h, hh, hrest⟩ := (Option.any_eq_true _ _).mp hrun
  simp only [Bool.and_eq_true, Option.isNone_iff_eq_none, decide_eq_true_eq,
    Bool.not_eq_true_eq_eq_false] at hrest
  obtain ⟨hck, hgone, htold⟩ := hrest
  refine ⟨h, hh, ?_, hgone, htold⟩
  exact grouping_irrelevant ⟨64, 4, false, 0, 0, _, hh⟩ hck _ (by decide) alice 40 _ _ rfl
    (by decide) (by decide) (by decide)

end HostTask

end EnetRs
