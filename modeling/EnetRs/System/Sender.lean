/-
  EnetRs.System.Sender — the stream a host with one slot puts on the wire.

  The client's host has one slot, so what it says on a channel is one stream.  The
  stream grows while packets are numbered and stays as it was when the entry is
  removed.

  Main results:
    * `HostTask.step_splits` — a step of a host with one slot numbers nothing or
      removes nothing.
    * `HostTask.Streams.step` — one step extends the stream, and leaves it alone if
      the entry is gone afterwards.
-/
import EnetRs.Exchange.Outgoing
import EnetRs.System.Speech

namespace EnetRs

open MachineInt

/-- A command that is no part of the stream of the channel: one that asks for no
ACK, or a command on another channel.  Where the stream is `alone`, the first kind
are ACKs and unsequenced packets. -/
def Command.Aside (alone : Prop) (ch : U8) (cmd : Command) : Prop :=
  cmd.header.channelId = ch → cmd.header.hasAckFlag = false
    ∧ (alone → cmd.header.commandType = cmdAcknowledge
      ∨ cmd.header.commandType = cmdSendUnsequenced)

theorem Command.Aside.said {alone : Prop} {tr : Traffic} {cmd : Command}
    (hc : cmd.Aside alone tr.ch) : tr.Says alone cmd :=
  fun hch => .inl (hc hch)

namespace HostTask

variable {alone : Prop} {tr : Traffic} {v : Permit} {nowMs : U32} {h h' : HostTask}

/-! ## §1. One slot. -/

theorem peer_eq_zero (hone : h.peers.length = 1) {k : PeerKey} {p : PeerEntry}
    (hp : h.peer k = some p) : k = 0 :=
  Nat.lt_one_iff.mp (hone ▸ lt_of_peer_eq_some hp)

/-- The tick of a host with one slot. -/
theorem serviceAll_splits (hone : h.peers.length = 1) (hr : h.Ready)
    (hs : h.serviceAll nowMs = some h') :
    (∀ v : Permit, v.removes → Exec nowMs v.Allows h h')
      ∨ ∀ v : Permit, v.numbers → Exec nowMs v.Allows h h' := by
  obtain ⟨h₁, hs₁, rfl⟩ := Option.map_eq_some_iff.mp hs
  have hkeys : (h.keysWhere fun _ => true) = [] ∨ (h.keysWhere fun _ => true) = [0] := by
    rw [keysWhere, hone]
    simp only [List.range_one, List.filter_cons, List.filter_nil]
    split
    · exact .inr rfl
    · exact .inl rfl
  rcases hkeys with hkeys | hkeys
  · rw [hkeys] at hs₁
    cases hs₁
    exact .inl fun v _ => bandwidthThrottle_permitted
  · rw [hkeys] at hs₁
    obtain ⟨h₂, hs₂, hlast⟩ := Option.bind_eq_some_iff.mp hs₁
    cases hlast
    exact (serviceOne_splits hr hs₂).imp
      (fun e v hrem => (e v hrem).trans bandwidthThrottle_permitted)
      fun e v hnum => (e v hnum).trans bandwidthThrottle_permitted

/-- **A step numbers nothing or removes nothing.** -/
theorem step_splits (hone : h.peers.length = 1) (hr : h.Ready) {i : Input}
    (hs : h.step nowMs i = some h') :
    (∀ v : Permit, v.removes → v.Takes h nowMs i → Exec nowMs v.Allows h h')
      ∨ ∀ v : Permit, v.numbers → v.Takes h nowMs i → Exec nowMs v.Allows h h' := by
  cases i with
  | datagram raw src =>
      cases hs
      exact .inl fun v hrem hi => onDatagram_permitted hrem hr raw src hi
  | send key pkt =>
      refine .inr fun v hnum hi => ?_
      have e : Exec nowMs v.Allows h (h.noteSubmit key pkt) := noteSubmit_exec pkt False.elim
      exact e.trans (sendPacket_permitted hnum (hr.exec e) hi hs)
  | disconnect key data =>
      cases hs
      exact .inl fun v _ _ => sendDisconnect_permitted data
  | connect addr channelCount data reply connectId =>
      exact .inl fun v _ hi => connect_permitted addr channelCount data reply connectId hi hs
  | tick =>
      exact (serviceAll_splits hone hr hs).imp (fun e v hrem _ => e v hrem)
        fun e v hnum _ => e v hnum
  | appRecv key =>
      cases hs
      exact .inl fun v _ _ =>
        updatePeer_exec .appRecv False.elim (fun _ _ => trivial) (fun _ => rfl) rfl
  | appDrop key =>
      cases hs
      exact .inl fun v _ _ =>
        updatePeer_exec .appDrop False.elim (fun _ _ => trivial) (fun _ => rfl) rfl
  | appAccept =>
      cases hs
      exact .inl fun v _ _ => .single .appAccept trivial trivial
  | appClose =>
      cases hs
      exact .inl fun v _ _ => .single .appClose trivial trivial

/-- An entry stays while none may be removed. -/
theorem isSome_of_exec {k : PeerKey} (hrem : ¬ v.removes) (e : Exec nowMs v.Allows h h')
    (hk : (h.peer k).isSome) : (h'.peer k).isSome := by
  refine e.invariant (fun g => (g.peer k).isSome) (fun g l hi hg hl => ?_) hk
  cases l with
  | op j o =>
      obtain ⟨p, hp, -⟩ := hg
      rw [Label.peer_apply_op hp]
      split
      · rfl
      · exact hi
  | remove j => exact absurd hl hrem
  | install slot entry =>
      rw [Label.peer_apply_install hg.1]
      split
      · rfl
      · exact hi
  | raw connect addr => exact hi
  | epoch => exact hi
  | appAccept => exact hi
  | appClose => exact hi

/-! ## §2. The stream. -/

/-- **One stream**: the entry sends it, and what was said on its channel belongs to
it. -/
structure Streams (alone : Prop) (tr : Traffic) (h : HostTask) : Prop where
  single : h.peers.length = 1
  channel : tr.ch ≠ channelIdConnection
  ready : h.Ready
  utters : h.Utters (tr.Says alone)
  sentBy : ∀ k p, h.peer k = some p → tr.SentBy h.useChecksum p

namespace Streams

/-- What an operation of the entry leaves of the other entries: there are none. -/
theorem of_op {tr' : Traffic} {k : PeerKey} {p : PeerEntry} {o : PeerOp} (hs : h.Streams alone tr)
    (he : tr.Extends tr') (hp : h.peer k = some p) (hg : o.Guard h p)
    (hl : v.Allows h (.op k o)) (hun : ∀ cmd, v.untracked cmd → cmd.Aside alone tr.ch)
    (hsent : tr'.SentBy h.useChecksum (o.apply nowMs p))
    (hnum : (Label.op k o).Numbers (tr'.Says alone) h) :
    ((Label.op k o).apply nowMs h).Streams alone tr' := by
  have hguard : (Label.op k o).Guard nowMs h := ⟨p, hp, hg⟩
  have hch : tr'.ch ≠ channelIdConnection := by
    rw [he.ch]
    exact hs.channel
  refine ⟨(Label.length_apply _).trans hs.single, hch, hs.ready.label hguard hl, ?_, ?_⟩
  · refine hs.utters.label (fun cmd => he.said) hs.ready hguard hl (fun cmd hc => ?_) ?_
      (fun _ _ hl => Label.noConfusion hl) hnum
    · exact he.said (hun cmd hc).said
    · exact fun body _ seq => Traffic.says_of_channel hch.symm
  · intro j q hq
    rw [Label.useChecksum_apply]
    rw [Label.peer_apply_op hp] at hq
    split at hq
    · cases hq
      exact hsent
    · next hne =>
      exact absurd ((peer_eq_zero hs.single hq).trans (peer_eq_zero hs.single hp).symm) hne

/-- **One change.**  The stream grows only if packets may be numbered and there is
an entry. -/
theorem label {l : Label} (hs : h.Streams alone tr) (hg : l.Guard nowMs h) (hl : v.Allows h l)
    (hun : ∀ cmd, v.untracked cmd → cmd.Aside alone tr.ch) (hent : ∀ slot e, ¬ v.entry h slot e) :
    ∃ tr', tr.Extends tr' ∧ (l.apply nowMs h).Streams alone tr'
      ∧ (¬ v.numbers ∨ h.peer 0 = none → tr' = tr) := by
  have hother : (∀ k o, l ≠ .op k o) → l.Numbers (tr.Says alone) h → (l.apply nowMs h).Streams alone tr := by
    intro hop hnum
    refine ⟨(Label.length_apply _).trans hs.single, hs.channel, hs.ready.label hg hl, ?_, ?_⟩
    · refine hs.utters.label (fun _ hc => hc) hs.ready hg hl (fun cmd hc => (hun cmd hc).said)
        ?_ ?_ hnum
      · exact fun body _ seq => Traffic.says_of_channel hs.channel.symm
      · rintro slot entry rfl
        exact absurd hl (hent slot entry)
    · rw [Label.useChecksum_apply]
      refine Label.entries hg ?_ (fun k p o hl => absurd hl (hop k o)) hs.sentBy
      rintro slot entry rfl
      exact absurd hl (hent slot entry)
  cases l with
  | op k o =>
      obtain ⟨p, hp, hgo⟩ := hg
      have hrange : InRange p := (hs.ready.limited.2 k p hp).toInRange
      have hzero := peer_eq_zero hs.single hp
      by_cases ho : Traffic.SentBy.Numbering o
      · obtain ⟨tr', he, hsent, hnum⟩ := (hs.sentBy k p hp).op nowMs hp rfl hrange hgo (by
          rintro pkt (rfl | ⟨fp, rfl⟩)
          · exact hl.2
          · exact hl.2)
        refine ⟨tr', he, hs.of_op he hp hgo hl hun hsent hnum, ?_⟩
        rintro (hno | hnone)
        · cases o with
          | numberWhole pkt => exact absurd hl.1 hno
          | numberFragments pkt fp => exact absurd hl.1 hno
          | _ => exact ho.elim
        · rw [← hzero, hp] at hnone
          cases hnone
      · refine ⟨tr, .refl tr, hs.of_op (.refl tr) hp hgo hl hun
          ((hs.sentBy k p hp).quiet hrange hgo ho) ?_, fun _ => rfl⟩
        cases o with
        | numberWhole pkt => exact absurd trivial ho
        | numberFragments pkt fp => exact absurd trivial ho
        | _ => trivial
  | remove k => exact ⟨tr, .refl tr, hother (fun _ _ => Label.noConfusion) trivial, fun _ => rfl⟩
  | install slot entry => exact absurd hl (hent slot entry)
  | raw connect addr =>
      exact ⟨tr, .refl tr, hother (fun _ _ => Label.noConfusion) trivial, fun _ => rfl⟩
  | epoch => exact ⟨tr, .refl tr, hother (fun _ _ => Label.noConfusion) trivial, fun _ => rfl⟩
  | appAccept => exact ⟨tr, .refl tr, hother (fun _ _ => Label.noConfusion) trivial, fun _ => rfl⟩
  | appClose => exact ⟨tr, .refl tr, hother (fun _ _ => Label.noConfusion) trivial, fun _ => rfl⟩

section Exec

variable (hun : ∀ cmd, v.untracked cmd → cmd.Aside alone tr.ch) (hent : ∀ h slot e, ¬ v.entry h slot e)

include hun hent

theorem exec (hs : h.Streams alone tr) (e : Exec nowMs v.Allows h h') :
    ∃ tr', tr.Extends tr' ∧ h'.Streams alone tr' ∧ (¬ v.numbers → tr' = tr) := by
  refine e.invariant (fun g => ∃ tr', tr.Extends tr' ∧ g.Streams alone tr' ∧ (¬ v.numbers → tr' = tr))
    ?_ ⟨tr, .refl tr, hs, fun _ => rfl⟩
  rintro g l ⟨tr₁, he₁, hs₁, hsame₁⟩ hg hl
  obtain ⟨tr₂, he₂, hs₂, hsame₂⟩ := hs₁.label hg hl (by rw [he₁.ch]; exact hun) (hent g)
  exact ⟨tr₂, he₁.trans he₂, hs₂, fun hno => (hsame₂ (.inl hno)).trans (hsame₁ hno)⟩

/-- Without an entry nothing is numbered. -/
theorem exec_idle (hs : h.Streams alone tr) (hnone : h.peer 0 = none) (e : Exec nowMs v.Allows h h') :
    h'.Streams alone tr := by
  refine (e.invariant (fun g => g.Streams alone tr ∧ g.peer 0 = none) ?_ ⟨hs, hnone⟩).1
  rintro g l ⟨hs, hnone⟩ hg hl
  obtain ⟨tr', -, hs', hsame⟩ := hs.label hg hl hun (hent g)
  refine ⟨hsame (.inr hnone) ▸ hs', ?_⟩
  have hnew := Label.entries (I := fun _ => False) hg
    (fun slot entry heq _ => by subst heq; exact hent g slot entry hl) (fun _ _ _ _ _ hf _ => hf)
    fun k p hp => by
      rw [peer_eq_zero hs.single hp, hnone] at hp
      cases hp
  cases hq : (l.apply nowMs g).peer 0 with
  | none => rfl
  | some q => exact (hnew 0 q hq).elim

end Exec

/-- **One step.** -/
theorem step {heard untracked : Command → Prop} {i : Input} (hs : h.Streams alone tr)
    (hun : ∀ cmd, untracked cmd → cmd.Aside alone tr.ch)
    (hi : ∀ numbers removes, (Permit.talk heard untracked numbers removes).Takes h nowMs i)
    (hstep : h.step nowMs i = some h') :
    ∃ tr', tr.Extends tr' ∧ h'.Streams alone tr' ∧ (h'.peer 0 = none → tr' = tr) := by
  rcases step_splits hs.single hs.ready hstep with e | e
  · obtain ⟨tr', he, hs', hsame⟩ := hs.exec hun (fun _ _ _ h => h)
      (e (.talk heard untracked False True) trivial (hi _ _))
    exact ⟨tr', he, hs', fun _ => hsame id⟩
  · have e := e (.talk heard untracked True False) trivial (hi _ _)
    cases hp : h.peer 0 with
    | none =>
        have hidle := hs.exec_idle hun (fun _ _ _ h => h) hp e
        exact ⟨tr, .refl tr, hidle, fun _ => rfl⟩
    | some p =>
        obtain ⟨tr', he, hs', -⟩ := hs.exec hun (fun _ _ _ h => h) e
        refine ⟨tr', he, hs', fun hnone => ?_⟩
        have hkept := isSome_of_exec (k := 0) id e (by rw [hp]; rfl)
        rw [hnone] at hkept
        cases hkept

end Streams

end HostTask

end EnetRs
