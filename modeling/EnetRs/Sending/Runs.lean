/-
  EnetRs.Sending.Runs — the invariant rule for runs, packet by packet.

  An invariant of the sending side may fail while `send_packet` or a drain is
  at work.  `PacketRule` lists what has to be shown of a property that holds
  in between, and `PacketRule.run` concludes that it holds after every run
  whose user messages meet the conditions `Q` (packets) and `D` (disconnects).
-/
import EnetRs.Sending.Numbering

namespace EnetRs

open MachineInt

/-! ## §1. A packet and the slots. -/

namespace HostTask

variable {nowMs : U32} {h h' : HostTask} {key : PeerKey} {p : PeerEntry} {pkt : Packet} {c : Channel}

/-- A packet touches its own slot only. -/
theorem sendPacket_peer_ne (hs : h.sendPacket key pkt nowMs = some h') {j : PeerKey} (hj : j ≠ key) :
    h'.peer j = h.peer j := by
  refine (sendPacket_exec pkt hs).invariant (fun h₁ => h₁.peer j = h.peer j)
    (fun h₁ l hi hg hl => ?_) rfl
  cases l with
  | op k o =>
      obtain rfl : k = key := by
        cases o <;> exact hl.1
      obtain ⟨q, hq, -⟩ := hg
      rw [Label.peer_apply_op hq, if_neg hj, hi]
  | _ => exact hl.elim

/-- A reliable packet past the first checks: the entry afterwards. -/
theorem sendPacket_reliable (hp : h.peer key = some p) (hsend : PeerOp.Sendable p pkt c)
    (hs : h.sendPacket key pkt nowMs = some h') :
    ∃ ck t, h'.peer key = some { p.sendStep ck c pkt nowMs with lastSendTime := t } := by
  obtain ⟨hst, hmode, hc⟩ := hsend
  have hlt := lt_of_peer_eq_some hp
  simp only [sendPacket, hp, hst, ne_eq, not_true_eq_false, if_false, hmode, sendReliable, hc,
    Option.some.injEq] at hs
  refine ⟨h.useChecksum, ?_⟩
  subst hs
  unfold PeerEntry.sendStep
  split
  · exact ⟨_, peer_setPeer_self hlt⟩
  · split
    · exact ⟨nowMs, by
        rw [peer_emitByKey _ _ (List.cons_ne_nil _ _), if_pos rfl, peer_setPeer_self hlt]; rfl⟩
    · exact peer_flushBatch (peer_setPeer_self hlt) _ _

/-- A reliable packet that is not accepted changes nothing. -/
theorem sendPacket_refused (hp : h.peer key = some p) (hmode : pkt.mode = .reliable)
    (hno : p.acceptsReliable pkt = false) : h.sendPacket key pkt nowMs = some h := by
  simp only [sendPacket, hp, hmode]
  split
  · rfl
  · next hst =>
    rw [ne_eq, not_not] at hst
    simp only [PeerEntry.acceptsReliable, hst, hmode, decide_true, Bool.true_and] at hno
    simp only [sendReliable]
    split
    · rfl
    · next c hc =>
      simp only [hc, Bool.or_eq_false_iff, decide_eq_false_iff_not] at hno
      simp only [hno.1, Bool.not_false, if_true, PeerEntry.queuePending_of_full hno.2,
        setPeer_self hp]

theorem noteSubmit_peer (hp : h.peer key = some p) (hacc : p.acceptsReliable pkt = true)
    (j : PeerKey) :
    (h.noteSubmit key pkt).peer j = if j = key then some (p.log (.submit pkt)) else h.peer j := by
  rw [noteSubmit, updatePeer_of_some hp, if_pos hacc, peer_setPeer hp]

theorem noteSubmit_refused (hp : h.peer key = some p) (hno : p.acceptsReliable pkt = false) :
    h.noteSubmit key pkt = h := by
  rw [noteSubmit, updatePeer_of_some hp, hno, if_neg Bool.false_ne_true, setPeer_self hp]

theorem acceptsReliable_sendable (hacc : p.acceptsReliable pkt = true) :
    ∃ c, PeerOp.Sendable p pkt c := by
  simp only [PeerEntry.acceptsReliable, Bool.and_eq_true, decide_eq_true_eq] at hacc
  obtain ⟨⟨hst, hmode⟩, hc⟩ := hacc
  split at hc
  · cases hc
  · next c hc' => exact ⟨c, hst, hmode, hc'⟩

/-! ## §2. The rule. -/

/-- What is known of the user's messages: `Q` of the entry a packet is for, `D`
of the entry a disconnect is for, both when the message is processed. -/
def UserMeets (Q : PeerEntry → Packet → Prop) (D : PeerEntry → Prop) (h : HostTask) :
    Timed → Prop
  | (_, .send key pkt) => ∀ p, h.peer key = some p → Q p pkt
  | (_, .disconnect key _) => ∀ p, h.peer key = some p → D p
  | _ => True

instance {Q : PeerEntry → Packet → Prop} {D : PeerEntry → Prop} [∀ p pkt, Decidable (Q p pkt)]
    [∀ p, Decidable (D p)] (h : HostTask) : (i : Timed) → Decidable (UserMeets Q D h i)
  | (_, .send key pkt) => inferInstanceAs (Decidable (∀ p, h.peer key = some p → Q p pkt))
  | (_, .disconnect key _) => inferInstanceAs (Decidable (∀ p, h.peer key = some p → D p))
  | (_, .datagram _ _) | (_, .connect _ _ _ _ _) | (_, .tick) | (_, .appRecv _)
  | (_, .appDrop _) | (_, .appAccept) | (_, .appClose) => isTrue trivial

/-- What has to be shown of a property `I` of entries that holds between
packets.  During a drain `J` holds of the entry and the packets still to go. -/
structure PacketRule (I : PeerEntry → Prop) (J : PeerEntry → List Packet → Prop)
    (Q : PeerEntry → Packet → Prop) (D : PeerEntry → Prop) : Prop where
  new : ∀ {nowMs : U32} {h : HostTask} {slot : PeerKey} {entry : PeerEntry},
    IsNewEntry h slot nowMs entry → I entry
  op : ∀ {nowMs : U32} {h : HostTask} {p : PeerEntry} {o : PeerOp}, InRange p → I p →
    o.Guard h p → ¬ o.Moves → (Requested o → D p) → I (o.apply nowMs p)
  send : ∀ {nowMs : U32} {p : PeerEntry} {pkt : Packet} {c : Channel} (ck : Bool) (t : U32),
    InRange p → I p → PeerOp.Sendable p pkt c → p.acceptsReliable pkt = true → Q p pkt →
    I { (p.log (.submit pkt)).sendStep ck c pkt nowMs with lastSendTime := t }
  clear : ∀ {p : PeerEntry}, I p → p.state ≠ .connected → I { p with pendingSend := [] }
  start : ∀ {p : PeerEntry}, I p → p.state = .connected →
    J { p with pendingSend := [] } p.pendingSend
  ready : ∀ {p : PeerEntry} {pkt : Packet} {pkts : List Packet}, J p (pkt :: pkts) →
    ∃ c, PeerOp.Sendable p pkt c
  next : ∀ {nowMs : U32} {p : PeerEntry} {pkt : Packet} {pkts : List Packet} {c : Channel}
    (ck : Bool) (t : U32), InRange p → J p (pkt :: pkts) → PeerOp.Sendable p pkt c →
    J { p.sendStep ck c pkt nowMs with lastSendTime := t } pkts
  done : ∀ {p : PeerEntry}, J p [] → I p

namespace PacketRule

variable {I : PeerEntry → Prop} {J : PeerEntry → List Packet → Prop}
  {Q : PeerEntry → Packet → Prop} {D : PeerEntry → Prop}

/-- The property of whole states. -/
def Holds (I : PeerEntry → Prop) (h : HostTask) : Prop :=
  h.AllInRange ∧ ∀ k p, h.peer k = some p → I p

theorem sendPacket_inRange (hs : h.sendPacket key pkt nowMs = some h') (hi : h.AllInRange) :
    h'.AllInRange :=
  (sendPacket_exec pkt hs).inRange hi

/-- The drain: by induction on the packets still to go. -/
theorem sendAll (rule : PacketRule I J Q D) :
    ∀ (pkts : List Packet) (h h' : HostTask) (p : PeerEntry), h.AllInRange →
      h.peer key = some p → (∀ j q, j ≠ key → h.peer j = some q → I q) → J p pkts →
      HostTask.sendAll key nowMs h pkts = some h' → Holds I h' := by
  intro pkts
  induction pkts with
  | nil =>
      intro h h' p hr hp hothers hJ hs
      cases hs
      refine ⟨hr, fun j q hq => ?_⟩
      by_cases hj : j = key
      · subst hj
        cases hp.symm.trans hq
        exact rule.done hJ
      · exact hothers j q hj hq
  | cons pkt pkts ih =>
      intro h h' p hr hp hothers hJ hs
      obtain ⟨h₁, hs₁, hs⟩ := Option.bind_eq_some_iff.mp hs
      obtain ⟨c, hsend⟩ := rule.ready hJ
      obtain ⟨ck, t, hp₁⟩ := sendPacket_reliable hp hsend hs₁
      refine ih h₁ h' _ (sendPacket_inRange hs₁ hr) hp₁ (fun j q hj hq => ?_)
        (rule.next ck t (hr.2 key p hp) hJ hsend) hs
      rw [sendPacket_peer_ne hs₁ hj] at hq
      exact hothers j q hj hq

/-- Outside Connected a drain drops its packets. -/
theorem sendAll_idle (hp : h.peer key = some p) (hst : p.state ≠ .connected) (nowMs : U32)
    (pkts : List Packet) : HostTask.sendAll key nowMs h pkts = some h := by
  induction pkts with
  | nil => rfl
  | cons pkt pkts ih => simp [HostTask.sendAll, sendPacket, hp, hst, ih]

theorem drainPending (rule : PacketRule I J Q D) (hi : Holds I h)
    (hs : h.drainPending key nowMs = some h') : Holds I h' := by
  unfold HostTask.drainPending at hs
  cases hp : h.peer key with
  | none =>
      simp only [hp] at hs
      cases hs
      exact hi
  | some p =>
      simp only [hp] at hs
      have hpeer := peer_setPeer (q := { p with pendingSend := [] }) hp
      have hcleared := (hpeer key).trans (if_pos rfl)
      have hothers : ∀ j q, j ≠ key →
          (h.setPeer key { p with pendingSend := [] }).peer j = some q → I q := by
        intro j q hj hq
        rw [hpeer, if_neg hj] at hq
        exact hi.2 j q hq
      have hrange : (h.setPeer key { p with pendingSend := [] }).AllInRange := by
        have hr := hi.1.2 key p hp
        refine ⟨hi.1.1, fun j q hq => ?_⟩
        rw [hpeer] at hq
        split at hq
        · cases hq
          exact ⟨hr.mtu, hr.window, hr.channels⟩
        · exact hi.1.2 j q hq
      by_cases hst : p.state = .connected
      · exact rule.sendAll _ _ _ _ hrange hcleared hothers (rule.start (hi.2 key p hp) hst) hs
      · rw [sendAll_idle hcleared hst] at hs
        cases hs
        refine ⟨hrange, fun j q hq => ?_⟩
        by_cases hj : j = key
        · subst hj
          cases hcleared.symm.trans hq
          exact rule.clear (hi.2 j p hp) hst
        · exact hothers j q hj hq

theorem submit (rule : PacketRule I J Q D) (hi : Holds I h)
    (hQ : ∀ p, h.peer key = some p → Q p pkt) (hmode : pkt.mode = .reliable)
    (hs : (h.noteSubmit key pkt).sendPacket key pkt nowMs = some h') : Holds I h' := by
  cases hp : h.peer key with
  | none =>
      rw [noteSubmit, updatePeer_of_none hp] at hs
      simp only [sendPacket, hp] at hs
      cases hs
      exact hi
  | some p =>
      cases hacc : p.acceptsReliable pkt with
      | false =>
          rw [noteSubmit_refused hp hacc, sendPacket_refused hp hmode hacc] at hs
          cases hs
          exact hi
      | true =>
          obtain ⟨c, hsend⟩ := acceptsReliable_sendable hacc
          have hr := hi.1.2 key p hp
          have e : Exec nowMs (fun _ _ => True) h (h.noteSubmit key pkt) :=
            noteSubmit_exec pkt trivial
          have hnoted : (h.noteSubmit key pkt).AllInRange := e.inRange hi.1
          obtain ⟨ck, t, hp'⟩ := sendPacket_reliable (p := p.log (.submit pkt))
            ((noteSubmit_peer hp hacc key).trans (if_pos rfl)) hsend hs
          refine ⟨sendPacket_inRange hs hnoted, fun j q hq => ?_⟩
          by_cases hj : j = key
          · subst hj
            cases hp'.symm.trans hq
            exact rule.send ck t hr (hi.2 j p hp) hsend hacc (hQ p hp)
          · rw [sendPacket_peer_ne hs hj, noteSubmit_peer hp hacc, if_neg hj] at hq
            exact hi.2 j q hq

/-- A change that moves no packet. -/
theorem label (rule : PacketRule I J Q D) {l : Label} (hi : Holds I h) (hg : l.Guard nowMs h)
    (hl : ∀ k o, l = .op k o → ¬ o.Moves ∧ (Requested o → ∀ p, h.peer k = some p → D p)) :
    Holds I (l.apply nowMs h) := by
  refine ⟨Label.apply_inRange hi.1 hg, Label.entries hg (fun _ _ _ hn => rule.new hn) ?_ hi.2⟩
  rintro k p o rfl hp hI hgo
  exact rule.op (hi.1.2 k p hp) hI hgo (hl k o rfl).1 fun hreq => (hl k o rfl).2 hreq p hp

/-- **The invariant rule for runs, packet by packet.** -/
theorem run (rule : PacketRule I J Q D) {acceptCapacity maxPeers : Nat} {useChecksum : Bool}
    {incomingBandwidth outgoingBandwidth : U32} {is : List Timed}
    (hm : Transition.Meets timedStep (UserMeets Q D)
      (HostTask.new acceptCapacity maxPeers useChecksum incomingBandwidth outgoingBandwidth) is)
    (hrun : (HostTask.new acceptCapacity maxPeers useChecksum incomingBandwidth
      outgoingBandwidth).run is = some h) : ∀ k p, h.peer k = some p → I p := by
  refine (Transition.run_invariant_of_meets (I := Holds I) (fun h i h' hi hmeet hs => ?_) is _ h
    ⟨inRange_new _ _ _ _ _, by simp⟩ hm hrun).2
  obtain ⟨nowMs, i⟩ := i
  refine step_invariant (I := Holds I) (Q := fun h key pkt => ∀ p, h.peer key = some p → Q p pkt)
    (D := fun h key => ∀ p, h.peer key = some p → D p) ?_ ?_
    (fun h h' key pkt hi hQ hmode hs => rule.submit hi hQ hmode hs)
    (fun h h' key hi hs => rule.drainPending hi hs) i ?_ ?_ hi hs
  · intro h l hi hg hq
    refine rule.label hi hg ?_
    rintro k o rfl
    exact ⟨hq.not_moves, fun hreq => absurd hreq hq.not_requested⟩
  · intro h key o hi hD hg ho
    refine rule.label hi hg ?_
    rintro k o' heq
    cases heq
    exact ⟨Requested.not_moves ho, fun _ => hD⟩
  · rintro key pkt rfl
    exact hmeet
  · rintro key data rfl
    exact hmeet

end PacketRule

end HostTask

end EnetRs
