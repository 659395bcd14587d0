/-
  EnetRs.Sending.Disconnect — a graceful disconnect drains first.

  `send_disconnect` defers CMD_DISCONNECT while `outgoing_reliable` is not
  empty and never looks at `pending_send`.  A packet that waits there when the
  disconnect is requested is taken out by the next tick and dropped, because
  `send_packet` refuses to send unless the peer is Connected
  (`waiting_packet_dropped`).

  Main results:
    * `PeerOp.records_of_not_creating`, `PeerOp.records` — what an operation
      records, and which outstanding commands it removes: only the one an ACK
      names.
    * `disconnect_drains_first` — in every run in which a disconnect is
      requested only while nothing waits, CMD_DISCONNECT is created only after
      every accepted packet has been numbered and acknowledged.
-/
import EnetRs.Sending.Runs

namespace EnetRs

open MachineInt

/-! ## §1. Histories that are drained. -/

/-- Every number given to a packet satisfies `keys`, or was acknowledged after
the packet got it. -/
def Answered (keys : U8 × U16 → Prop) : List PeerEvent → Prop
  | [] => True
  | .number _ ch seq n :: rest =>
      (∀ s ∈ Serial.block seq n, keys (ch, s) ∨ .ack ch s ∈ rest) ∧ Answered keys rest
  | _ :: rest => Answered keys rest

section Answered

variable {keys keys' : U8 × U16 → Prop} {hist es : List PeerEvent}

theorem answered_of_no_numbers (hno : ∀ e ∈ es, e.asNumber = none) : Answered keys es := by
  induction es with
  | nil => trivial
  | cons e es ih =>
      have hrest := ih fun e' he' => hno e' (List.mem_cons_of_mem _ he')
      cases e with
      | number pkt ch seq n => cases hno _ List.mem_cons_self
      | _ => exact hrest

/-- Events that number nothing: a key that goes away needs its ACK among them. -/
theorem Answered.append (ha : Answered keys hist) (hno : ∀ e ∈ es, e.asNumber = none)
    (hk : ∀ k, keys k → keys' k ∨ .ack k.1 k.2 ∈ es) : Answered keys' (hist ++ es) := by
  induction hist with
  | nil => exact answered_of_no_numbers hno
  | cons e hist ih =>
      cases e with
      | number pkt ch seq n =>
          refine ⟨fun s hs => ?_, ih ha.2⟩
          rcases ha.1 s hs with hkey | hack
          · exact (hk _ hkey).imp_right (List.mem_append_right _)
          · exact .inr (List.mem_append_left _ hack)
      | _ => exact ih ha

theorem Answered.append_number (ha : Answered keys hist) {ch : U8} {seq : U16} {n : Nat}
    (hk : ∀ s ∈ Serial.block seq n, keys (ch, s)) (pkt : Packet) :
    Answered keys (hist ++ [.number pkt ch seq n]) := by
  induction hist with
  | nil => exact ⟨fun s hs => .inl (hk s hs), trivial⟩
  | cons e hist ih =>
      cases e with
      | number pkt' ch' seq' n' =>
          exact ⟨fun s hs => (ha.1 s hs).imp_right (List.mem_append_left _), ih ha.2⟩
      | _ => exact ih ha

end Answered

/-- Everything that was submitted has been numbered, and every number has been
acknowledged since. -/
structure Drained (hist : List PeerEvent) : Prop where
  numbered : ((hist.filterMap PeerEvent.asNumber).map (·.1)).Perm
    (hist.filterMap PeerEvent.asSubmit)
  acked : Answered (fun _ => False) hist

/-- Whenever CMD_DISCONNECT was created, the history up to then was drained. -/
def DisconnectsDrained (hist : List PeerEvent) : Prop :=
  ∀ pre ch seq fresh, pre ++ [.create cmdDisconnect ch seq fresh] <+: hist → Drained pre

namespace DisconnectsDrained

variable {hist es : List PeerEvent} {e : PeerEvent}

theorem append_one (hd : DisconnectsDrained hist)
    (he : ∀ ch seq fresh, e = .create cmdDisconnect ch seq fresh → Drained hist) :
    DisconnectsDrained (hist ++ [e]) := by
  intro pre ch seq fresh hpre
  rcases List.prefix_concat_iff.mp hpre with heq | hold
  · obtain ⟨rfl, hlast⟩ := List.append_inj' heq rfl
    exact he ch seq fresh (List.cons.inj hlast).1.symm
  · exact hd pre ch seq fresh hold

theorem append (hd : DisconnectsDrained hist)
    (hes : ∀ e ∈ es, ∀ ch seq fresh, e ≠ .create cmdDisconnect ch seq fresh) :
    DisconnectsDrained (hist ++ es) := by
  induction es generalizing hist with
  | nil => rwa [List.append_nil]
  | cons e es ih =>
      rw [List.append_cons]
      refine ih (hd.append_one fun ch seq fresh heq => ?_) fun e' he' =>
        hes e' (List.mem_cons_of_mem _ he')
      exact absurd heq (hes e List.mem_cons_self ch seq fresh)

end DisconnectsDrained

/-! ## §2. What an operation records. -/

/-- Retransmission removes no command. -/
theorem retransmitLoop_mem (nowMs : U32) {k : U8 × U16} :
    ∀ (es : List ((U8 × U16) × OutstandingReliable)) (m : OutgoingReliable), k ∈ m →
      k ∈ (retransmitLoop nowMs es m).2.1 := by
  intro es
  induction es with
  | nil => exact fun m hm => hm
  | cons e es ih =>
      intro m hm
      obtain ⟨k', r⟩ := e
      unfold retransmitLoop
      split
      · exact ih m hm
      · split
        · exact hm
        · exact ih _ (Std.ExtTreeMap.mem_insert.mpr (.inr hm))

/-- `q` is `p` after the events `es`: no packet was numbered, and an outstanding
command left only if its ACK is among them. -/
structure Records (es : List PeerEvent) (p q : PeerEntry) : Prop where
  history : q.history = p.history ++ es
  quiet : ∀ e ∈ es, e.asNumber = none
  keys : ∀ k ∈ p.outgoingReliable, k ∈ q.outgoingReliable ∨ .ack k.1 k.2 ∈ es

namespace Records

variable {p q : PeerEntry}

theorem of_same (hh : q.history = p.history) (ho : q.outgoingReliable = p.outgoingReliable) :
    Records [] p q :=
  ⟨by simp [hh], by simp, fun k hk => .inl (by rw [ho]; exact hk)⟩

theorem of_delivers {pkts : List Packet} (hh : q.history = p.history ++ pkts.map .deliver)
    (hf : p.Received q) : Records (pkts.map .deliver) p q := by
  refine ⟨hh, fun e he => ?_, fun k hk => .inl (by rw [hf.get (·.outgoingReliable)]; exact hk)⟩
  obtain ⟨pkt, -, rfl⟩ := List.mem_map.mp he
  rfl

end Records

/-- **What an operation that creates no command records.**  A command stops
being outstanding by an ACK only (VERIFY_CONNECT apart). -/
theorem PeerOp.records_of_not_creating {o : PeerOp} (ho : ¬ o.Creating)
    (hv : ∀ hostMtu vc hdr, o ≠ .verify hostMtu vc hdr) (nowMs : U32) (p : PeerEntry) :
    ∃ es, Records es p (o.apply nowMs p) ∧ ∀ ty ch seq fresh, .create ty ch seq fresh ∉ es := by
  have hdelivers : ∀ {q : PeerEntry},
      (∃ pkts : List Packet, q.history = p.history ++ pkts.map .deliver) → p.Received q →
      ∃ es, Records es p q ∧ ∀ ty ch seq fresh, .create ty ch seq fresh ∉ es := by
    rintro q ⟨pkts, hh⟩ hf
    exact ⟨pkts.map .deliver, .of_delivers hh hf, by simp⟩
  cases o with
  | connectionCmd | numberWhole | numberFragments => exact (ho trivial).elim
  | verify hostMtu vc hdr => exact absurd rfl (hv hostMtu vc hdr)
  | recvReliable ch seq data =>
      exact hdelivers (PeerEntry.onSendReliable_delivers ch seq data nowMs)
        (PeerEntry.onSendReliable_received ch seq data nowMs).1
  | recvUnreliable ch rseq useq data =>
      exact hdelivers (PeerEntry.onSendUnreliable_delivers ch rseq useq data nowMs)
        (PeerEntry.onSendUnreliable_received ch rseq useq data nowMs).1
  | recvFragment ch sf reliable =>
      exact hdelivers (PeerEntry.onFragment_delivers ch sf reliable nowMs)
        (PeerEntry.onFragment_received ch sf reliable nowMs).1
  | recvUnsequenced group data =>
      exact hdelivers (PeerEntry.onSendUnsequenced_delivers group data nowMs)
        (PeerEntry.onSendUnsequenced_received group data nowMs).1
  | ack ch a =>
      obtain ⟨hout, hh⟩ := PeerEntry.applyAck_eq p ch a nowMs
      refine ⟨_, ⟨hh, by simp [PeerEvent.asNumber], fun k hk => ?_⟩, by simp⟩
      by_cases heq : k = (ch, a.receivedReliableSeq)
      · subst heq
        exact .inr List.mem_cons_self
      · left
        show k ∈ (p.applyAck ch a nowMs).outgoingReliable
        rw [hout, Std.ExtTreeMap.mem_erase]
        exact ⟨fun hcmp => heq (Std.LawfulEqCmp.eq_of_compare hcmp).symm, hk⟩
  | take ch seq | submit pkt =>
      exact ⟨_, ⟨rfl, by simp [PeerEvent.asNumber], fun k hk => .inl hk⟩, by simp⟩
  | retransmit =>
      exact ⟨[], ⟨(List.append_nil _).symm, by simp,
        fun k hk => .inl (retransmitLoop_mem nowMs _ _ hk)⟩, by simp⟩
  | queue pkt =>
      refine ⟨[], ?_, by simp⟩
      simp only [apply, PeerEntry.queuePending]
      split <;> exact .of_same rfl rfl
  | recvBandwidthLimit bl =>
      refine ⟨[], ?_, by simp⟩
      simp only [apply, PeerEntry.onBandwidthLimit]
      split <;> exact .of_same rfl rfl
  | _ => exact ⟨[], .of_same rfl rfl, by simp⟩

/-- **What an operation outside `send_packet` records.**  CMD_DISCONNECT is
created by no other than its own operation. -/
theorem PeerOp.records {o : PeerOp} (nowMs : U32) (p : PeerEntry) (ho : ¬ o.Moves)
    (hv : ∀ hostMtu vc hdr, o ≠ .verify hostMtu vc hdr) :
    ∃ es, Records es p (o.apply nowMs p)
      ∧ ((∀ e ∈ es, ∀ ch seq fresh, e ≠ .create cmdDisconnect ch seq fresh)
        ∨ ∃ body e, o = .connectionCmd cmdDisconnect body ∧ es = [e]) := by
  by_cases hc : o.Creating
  · cases o with
    | connectionCmd cmdType body =>
        refine ⟨_, ⟨rfl, by simp [PeerEvent.asNumber], fun k hk => .inl ?_⟩, ?_⟩
        · exact Std.ExtTreeMap.mem_insert.mpr (.inr hk)
        · by_cases hty : cmdType = cmdDisconnect
          · subst hty
            exact .inr ⟨body, _, rfl, rfl⟩
          · exact .inl (by simp [hty])
    | numberWhole | numberFragments => exact absurd trivial ho
    | _ => exact hc.elim
  · obtain ⟨es, hrec, hno⟩ := PeerOp.records_of_not_creating hc hv nowMs p
    refine ⟨es, hrec, .inl fun e he ch seq fresh heq => ?_⟩
    exact hno cmdDisconnect ch seq fresh (heq ▸ he)

/-! ## §3. The invariant. -/

namespace PeerEntry

variable {p q : PeerEntry} {pkt : Packet} {pkts : List Packet} {c : Channel}

/-- A disconnect of this entry is or was requested. -/
def Leaving (p : PeerEntry) : Prop :=
  (∃ data, p.state = .disconnectLater data) ∨ p.state = .disconnecting

theorem not_leaving (hst : p.state = .connected) : ¬ p.Leaving := by
  simp [Leaving, hst]

/-- Between packets: no accepted packet is lost, every number in use is
outstanding or acknowledged, and nothing waits once the disconnect is
requested. -/
structure Settling (p : PeerEntry) : Prop where
  held : Held p
  kept : (p.numbered ++ p.pendingSend).Perm p.submitted
  leaving : p.Leaving → p.pendingSend = []
  answered : Answered (· ∈ p.outgoingReliable) p.history
  drained : DisconnectsDrained p.history

/-- During a drain, `pkts` still to go. -/
structure SettlingBack (p : PeerEntry) (pkts : List Packet) : Prop where
  held : HeldBack p pkts
  kept : (p.numbered ++ p.pendingSend ++ pkts).Perm p.submitted
  answered : Answered (· ∈ p.outgoingReliable) p.history
  drained : DisconnectsDrained p.history

/-- With nothing outstanding and nothing waiting, the history is drained. -/
theorem Settling.drained_of_empty (hp : Settling p) (hempty : p.outgoingReliable.isEmpty = true)
    (hpend : p.pendingSend = []) : Drained p.history := by
  have hnone : ∀ k, k ∉ p.outgoingReliable := by
    rw [Std.ExtTreeMap.isEmpty_iff.mp hempty]
    exact fun k => Std.ExtTreeMap.not_mem_empty
  refine ⟨?_, ?_⟩
  · have hkept := hp.kept
    rwa [hpend, List.append_nil] at hkept
  · have hacked : Answered (fun _ => False) (p.history ++ []) :=
      hp.answered.append (by simp) fun k hk => absurd hk (hnone k)
    rwa [List.append_nil] at hacked

theorem Settling.of_starts (hs : Starts p) : Settling p := by
  have hheld := Held.of_starts hs
  obtain ⟨hsub, hnum, hpend⟩ := hheld.early hs.state
  obtain ⟨ty, hh, hty⟩ := hs.history
  refine ⟨hheld, by rw [hsub, hnum, hpend]; exact .nil, fun _ => hpend, ?_, ?_⟩
  · rw [hh]
    exact answered_of_no_numbers (by simp [PeerEvent.asNumber])
  · have hempty : DisconnectsDrained [] := fun pre ch seq fresh hpre => by simp at hpre
    rw [hh, ← List.nil_append [_]]
    refine hempty.append ?_
    rcases hty with rfl | rfl <;> simp [cmdConnect, cmdVerifyConnect, cmdDisconnect]

/-- No packet was numbered before the connection was established. -/
theorem Held.no_numbers (hp : Held p) (hst : p.state = .connecting) :
    ∀ e ∈ p.history, e.asNumber = none := by
  have hnum := (hp.early (.inl hst)).2.1
  rw [numbered, List.map_eq_nil_iff, numberings, List.filterMap_eq_nil_iff] at hnum
  exact hnum

/-- Every operation outside `send_packet` and the drain; a disconnect request
finds nothing waiting. -/
theorem Settling.op {h : HostTask} {nowMs : U32} {o : PeerOp} (hp : Settling p) (hr : InRange p)
    (hg : o.Guard h p) (ho : ¬ o.Moves)
    (hreq : HostTask.Requested o → p.state = .connected → p.pendingSend = []) :
    Settling (o.apply nowMs p) := by
  have hsame := PeerOp.packets ho nowMs p
  have hheld : Held (o.apply nowMs p) := hp.held.op hr hg ho
  have hkept : ((o.apply nowMs p).numbered ++ (o.apply nowMs p).pendingSend).Perm
      (o.apply nowMs p).submitted := by
    rw [hsame.numbered, hsame.pending, hsame.submitted]
    exact hp.kept
  have hleaving : (o.apply nowMs p).Leaving → (o.apply nowMs p).pendingSend = [] := by
    intro hleave
    rw [hsame.pending]
    by_cases hsamest : (o.apply nowMs p).state = p.state
    · refine hp.leaving ?_
      rwa [Leaving, hsamest] at hleave
    · -- only a request, new or deferred, turns the state this way
      have hlife : o.Lifecycle := by
        by_contra hlife
        exact hsamest (PeerOp.samePhase nowMs p hlife).state
      have hidle : p.state = .connecting ∨ p.state = .connected → HostTask.Requested o →
          p.pendingSend = [] := by
        rintro (hst | hst) hr
        · exact (hp.held.early (.inl hst)).2.2
        · exact hreq hr hst
      cases o with
      | accept rx => exact absurd hleave (not_leaving rfl)
      | establish => exact absurd hleave (not_leaving rfl)
      | verify hostMtu vc hdr => exact absurd hleave (not_leaving rfl)
      | deferDisconnect data => exact hidle hg.1 trivial
      | beginDisconnect deferred =>
          cases deferred with
          | false => exact hidle hg.1 trivial
          | true => exact hp.leaving (.inl hg.1)
      | _ => exact hlife.elim
  by_cases hv : ∃ hostMtu vc hdr, o = .verify hostMtu vc hdr
  · obtain ⟨hostMtu, vc, hdr, rfl⟩ := hv
    exact ⟨hheld, hkept, hleaving, answered_of_no_numbers (hp.held.no_numbers hg.2.1), hp.drained⟩
  · obtain ⟨es, hrec, hdisc⟩ := PeerOp.records nowMs p ho fun m vc hdr heq => hv ⟨m, vc, hdr, heq⟩
    refine ⟨hheld, hkept, hleaving, ?_, ?_⟩
    · rw [hrec.history]
      exact hp.answered.append hrec.quiet hrec.keys
    · rw [hrec.history]
      rcases hdisc with hno | ⟨body, e, rfl, rfl⟩
      · exact hp.drained.append hno
      · -- CMD_DISCONNECT: the state is Disconnecting and nothing is outstanding
        refine hp.drained.append_one fun _ _ _ _ => ?_
        obtain ⟨hty, -⟩ | ⟨-, hst, hempty⟩ | ⟨hty, -⟩ := hg.2
        · cases hty
        · exact hp.drained_of_empty hempty (hp.leaving (.inr hst))
        · cases hty

/-- Numbering a packet: its numbers are outstanding afterwards. -/
theorem sendStep_settled (ck : Bool) (nowMs : U32) (hr : InRange p)
    (hsend : PeerOp.Sendable p pkt c)
    (hroom : p.windowOpen pkt.channel c = false → p.pendingSend.length < maxPendingSend)
    (ha : Answered (· ∈ p.outgoingReliable) p.history) (hd : DisconnectsDrained p.history) :
    Answered (· ∈ (p.sendStep ck c pkt nowMs).outgoingReliable) (p.sendStep ck c pkt nowMs).history
      ∧ DisconnectsDrained (p.sendStep ck c pkt nowMs).history := by
  cases hw : p.windowOpen pkt.channel c with
  | false =>
      rw [sendStep_closed hw, queuePending_of_room (hroom hw)]
      exact ⟨ha, hd⟩
  | true =>
      obtain ⟨n, hn⟩ := sendStep_open ck nowMs hr hsend hw
      obtain ⟨ty, r, hty, hcr, hout, hh⟩ := hn.creates
      obtain ⟨es, hes, hevents, -⟩ := hcr.history
      rw [hout, hh, hes]
      refine ⟨Answered.append_number ?_ (fun s hs => (hcr.keys _).mpr (.inr ⟨s, hs, rfl⟩)) pkt, ?_⟩
      · refine ha.append (fun e he => ?_) fun k hk => .inl ((hcr.keys k).mpr (.inl hk))
        obtain ⟨s, fresh, rfl⟩ := hevents e he
        rfl
      · refine (hd.append fun e he ch seq fresh heq => ?_).append_one nofun
        obtain ⟨s, fresh', rfl⟩ := hevents e he
        cases heq
        rcases hty with hty | hty <;> cases hty

theorem Settling.send {ck : Bool} {nowMs t : U32} (hp : Settling p) (hr : InRange p)
    (hsend : PeerOp.Sendable p pkt c) (hacc : p.acceptsReliable pkt = true) :
    Settling { (p.log (.submit pkt)).sendStep ck c pkt nowMs with lastSendTime := t } := by
  have hr' : InRange (p.log (.submit pkt)) := ⟨hr.mtu, hr.window, hr.channels⟩
  have hroom : (p.log (.submit pkt)).windowOpen pkt.channel c = false →
      (p.log (.submit pkt)).pendingSend.length < maxPendingSend :=
    fun hw => hasRoom_of_accepts hsend hacc hw
  have hj : Joins (p.log (.submit pkt)) pkt
      { (p.log (.submit pkt)).sendStep ck c pkt nowMs with lastSendTime := t } :=
    sendStep_joins hr' hsend hroom
  have hsubmit : Answered (· ∈ p.outgoingReliable) (p.history ++ [.submit pkt]) :=
    hp.answered.append (by simp [PeerEvent.asNumber]) fun k hk => .inl hk
  obtain ⟨ha, hd⟩ := sendStep_settled ck nowMs hr' hsend hroom hsubmit
    (hp.drained.append_one (by simp))
  refine ⟨hp.held.send hsend hj, ?_, ?_, ha, hd⟩
  · rw [hj.submitted, submitted_log_submit]
    refine hj.kept.trans ?_
    rw [numbered_log_submit]
    exact hp.kept.append_right _
  · exact fun hleave => absurd hleave (not_leaving (hj.state.trans hsend.1))

theorem Settling.clear (hp : Settling p) (hst : p.state ≠ .connected) :
    Settling { p with pendingSend := [] } := by
  have hpend : p.pendingSend = [] := by
    cases hs : p.state with
    | connecting => exact (hp.held.early (.inl hs)).2.2
    | acknowledgingConnect => exact (hp.held.early (.inr hs)).2.2
    | connected => exact absurd hs hst
    | disconnectLater data => exact hp.leaving (.inl ⟨data, hs⟩)
    | disconnecting => exact hp.leaving (.inr hs)
  refine ⟨hp.held.clear, ?_, fun _ => rfl, hp.answered, hp.drained⟩
  have hkept := hp.kept
  rwa [hpend] at hkept

theorem Settling.start (hp : Settling p) (hst : p.state = .connected) :
    SettlingBack { p with pendingSend := [] } p.pendingSend :=
  { held := hp.held.start hst
    kept := by
      show (p.numbered ++ [] ++ p.pendingSend).Perm p.submitted
      rw [List.append_nil]
      exact hp.kept
    answered := hp.answered
    drained := hp.drained }

theorem SettlingBack.next {ck : Bool} {nowMs t : U32} (hd : SettlingBack p (pkt :: pkts))
    (hr : InRange p) (hsend : PeerOp.Sendable p pkt c) :
    SettlingBack { p.sendStep ck c pkt nowMs with lastSendTime := t } pkts := by
  have hroom := hd.held.hasRoom
  have hj : Joins p pkt { p.sendStep ck c pkt nowMs with lastSendTime := t } :=
    sendStep_joins hr hsend fun _ => hroom
  obtain ⟨ha, hdr⟩ := sendStep_settled ck nowMs hr hsend (fun _ => hroom) hd.answered hd.drained
  refine ⟨hd.held.next hj, ?_, ha, hdr⟩
  rw [hj.submitted]
  refine (hj.kept.append_right pkts).trans ?_
  rw [List.append_assoc _ [pkt]]
  exact hd.kept

theorem SettlingBack.done (hd : SettlingBack p []) : Settling p :=
  { held := hd.held.done
    kept := by simpa using hd.kept
    leaving := fun hleave => absurd hleave (not_leaving hd.held.connected)
    answered := hd.answered
    drained := hd.drained }

/-- The rule for runs, for `Settling`. -/
theorem settling_rule : HostTask.PacketRule Settling SettlingBack (fun _ _ => True)
    (fun p => p.state = .connected → p.pendingSend = []) :=
  { new := fun hn => .of_starts hn.starts
    op := fun hr hp hg ho hreq => hp.op hr hg ho hreq
    send := fun _ _ hr hp hsend hacc _ => hp.send hr hsend hacc
    clear := Settling.clear
    start := Settling.start
    ready := fun hd => hd.held.ready
    next := fun _ _ hr hd hsend => hd.next hr hsend
    done := SettlingBack.done }

end PeerEntry

/-! ## §4. Graceful disconnect. -/

namespace HostTask

/-- **A graceful disconnect drains first.**  In every run in which, whenever a
disconnect is requested for a Connected peer, nothing of that peer waits in
`pending_send`: CMD_DISCONNECT is created only when every packet accepted
before has been numbered and every number acknowledged; no accepted packet is
lost; and once the disconnect is requested, none is left to number. -/
theorem disconnect_drains_first (acceptCapacity maxPeers : Nat) (useChecksum : Bool)
    (incomingBandwidth outgoingBandwidth : U32) (is : List Timed) (h : HostTask)
    (hrun : (HostTask.new acceptCapacity maxPeers useChecksum incomingBandwidth
      outgoingBandwidth).run is = some h)
    (hm : Transition.Meets timedStep
      (UserMeets (fun _ _ => True) fun p => p.state = .connected → p.pendingSend = [])
      (HostTask.new acceptCapacity maxPeers useChecksum incomingBandwidth outgoingBandwidth) is)
    (k : PeerKey) (p : PeerEntry) (hp : h.peer k = some p) :
    DisconnectsDrained p.history ∧ (p.numbered ++ p.pendingSend).Perm p.submitted
      ∧ (p.Leaving → p.numbered.Perm p.submitted) := by
  have hs := PeerEntry.settling_rule.run hm hrun k p hp
  refine ⟨hs.drained, hs.kept, fun hleave => ?_⟩
  have hkept := hs.kept
  rwa [hs.leaving hleave, List.append_nil] at hkept

/-- Two packets; the disconnect is requested when both are numbered. -/
def patientDisconnect : List Timed :=
  aliceThrottled ++
    [(65002, .send 0 (bytePacket 1)), (65003, .send 0 (bytePacket 2)),
     (65004, .datagram (peerDatagram 0 9 [ack 0 1 0]) alice), (65020, .tick),
     (65021, .disconnect 0 5), (65022, .datagram (peerDatagram 0 9 [ack 0 2 0]) alice),
     (65040, .tick)]

theorem disconnect_drains_first_patient : ∃ h p,
    (bind 4 false 0 0).run patientDisconnect = some h ∧ h.peer 0 = some p ∧
    p.state = .disconnecting ∧ .create cmdDisconnect channelIdConnection 2 true ∈ p.history ∧
    (DisconnectsDrained p.history ∧ (p.numbered ++ p.pendingSend).Perm p.submitted
      ∧ (p.Leaving → p.numbered.Perm p.submitted)) := by
  have hrun : ((bind 4 false 0 0).run patientDisconnect).any (fun h => (h.peer 0).any fun p =>
      decide (p.state = .disconnecting)
        && decide (PeerEvent.create cmdDisconnect channelIdConnection 2 true ∈ p.history))
      = true := by decide +kernel
  obtain ⟨h, hh, hrest⟩ := (Option.any_eq_true _ _).mp hrun
  simp only [Bool.and_eq_true, Option.any_eq_true, decide_eq_true_eq] at hrest
  obtain ⟨p, hp, hst, hcr⟩ := hrest
  exact ⟨h, p, hh, hp, hst, hcr, disconnect_drains_first 64 4 false 0 0 patientDisconnect h hh
    (by decide +kernel) 0 p hp⟩

/-- The disconnect is requested while the second packet waits. -/
def hastyDisconnect : List Timed :=
  aliceThrottled ++
    [(65002, .send 0 (bytePacket 1)), (65003, .send 0 (bytePacket 2)), (65004, .disconnect 0 5),
     (65005, .datagram (peerDatagram 0 9 [ack 0 1 0]) alice), (65020, .tick)]

/-- CMD_DISCONNECT goes out; the second packet was accepted, is not numbered,
and no longer waits. -/
theorem waiting_packet_dropped : ∃ h p, (bind 4 false 0 0).run hastyDisconnect = some h ∧
    h.peer 0 = some p ∧ p.state = .disconnecting ∧
    .create cmdDisconnect channelIdConnection 2 true ∈ p.history ∧
    p.submitted = [bytePacket 1, bytePacket 2] ∧ p.numbered = [bytePacket 1] ∧
    p.pendingSend = [] ∧ ¬ p.numbered.Perm p.submitted := by
  have hrun : ((bind 4 false 0 0).run hastyDisconnect).any (fun h => (h.peer 0).any fun p =>
      decide (p.state = .disconnecting)
        && decide (PeerEvent.create cmdDisconnect channelIdConnection 2 true ∈ p.history)
        && decide (p.submitted = [bytePacket 1, bytePacket 2])
        && decide (p.numbered = [bytePacket 1]) && decide (p.pendingSend = [])) = true := by
    decide +kernel
  obtain ⟨h, hh, hrest⟩ := (Option.any_eq_true _ _).mp hrun
  simp only [Bool.and_eq_true, Option.any_eq_true, decide_eq_true_eq] at hrest
  obtain ⟨p, hp, ⟨⟨⟨hst, hcr⟩, hsub⟩, hnum⟩, hpend⟩ := hrest
  refine ⟨h, p, hh, hp, hst, hcr, hsub, hnum, hpend, fun hperm => ?_⟩
  rw [hnum, hsub] at hperm
  exact absurd hperm.length_eq (by decide)

end HostTask

end EnetRs
