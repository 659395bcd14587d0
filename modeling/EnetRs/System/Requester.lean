/-
  EnetRs.System.Requester — the client's host, as the one that asked.

  Its entry has the terms it asked for until VERIFY_CONNECT arrives, and the
  server's afterwards; the ACKs it has processed are answers of the server; and the
  only CONNECT it sends is the one of `begin_connect`.

  Main results:
    * `Config.ClientEntry.op` — one operation on the entry.
    * `HostTask.Asks.label` — one change of the host.
-/
import EnetRs.Exchange.Outgoing
import EnetRs.System.Speech

namespace EnetRs

open MachineInt

/-- **The client's entry.**  `A` holds of the numbers that the server acknowledges. -/
structure Config.ClientEntry (cfg : Config) (A : U8 → U16 → Prop) (p : PeerEntry) : Prop where
  asks : p.state ≠ .acknowledgingConnect
  waits : p.state = .connecting → p.toUserRx ≠ none
  told : p.state = .connected → p.toUserRx = none
  asked : p.toUserRx ≠ none → p.terms = HostTask.askedTerms cfg.channelCount cfg.connectId
  settled : p.toUserRx = none → p.terms = HostTask.clientTerms 0 cfg.channelCount cfg.connectId
  acked : ∀ ch seq, ch ≠ channelIdConnection → .ack ch seq ∈ p.history → A ch seq

namespace Config.ClientEntry

variable {cfg : Config} {A A' : U8 → U16 → Prop} {p : PeerEntry} {h : HostTask} {o : PeerOp}
  {nowMs : U32}

theorem mono (hA : ∀ ch seq, A ch seq → A' ch seq) (hp : cfg.ClientEntry A p) :
    cfg.ClientEntry A' p :=
  { hp with acked := fun ch seq hch hack => hA ch seq (hp.acked ch seq hch hack) }

/-- VERIFY_CONNECT. -/
theorem verify (nowMs : U32) {vc : VerifyConnectCmd} (hp : cfg.ClientEntry A p)
    (hst : p.state = .connecting) (hv : HostTask.VerifyTerms 0 cfg.connectId vc)
    (hdr : CommandHeader) :
    cfg.ClientEntry A (HostTask.verifiedEntry mtuDefault p vc hdr nowMs) where
  asks := PeerState.noConfusion
  waits hc := PeerState.noConfusion hc
  told _ := rfl
  asked hne := absurd rfl hne
  settled _ := HostTask.verifiedEntry_terms (hp.asked (hp.waits hst)) hv hdr nowMs
  acked := hp.acked

/-- **One operation.** -/
theorem op (hp : cfg.ClientEntry A p) (hr : InRange p) (hmtu : h.hostMtu = mtuDefault)
    (hg : o.Guard h p)
    (ho : o.Arrives → ∃ cmd, cfg.Answer A cmd ∧ cmd.Receives o) :
    cfg.ClientEntry A (o.apply nowMs p) := by
  have hacked : ∀ ch seq, ch ≠ channelIdConnection → .ack ch seq ∈ (o.apply nowMs p).history →
      A ch seq := by
    intro ch seq hch hack
    rcases PeerEntry.ack_of_apply hr hg hack with hold | ⟨a, rfl, rfl⟩
    · exact hp.acked ch seq hch hold
    · obtain ⟨cmd, hs, -, hb, rfl⟩ := ho trivial
      exact hs.ack a hb hch
  have hterms : ¬ o.BringsTerms → (o.apply nowMs p).terms = p.terms :=
    PeerOp.terms_apply nowMs hg hr.channels.2
  by_cases hlife : o.Lifecycle
  · cases o with
    | accept rx => exact absurd hg.2.1 hp.asks
    | establish => exact absurd hg.1 hp.asks
    | verify hostMtu vc hdr =>
        obtain ⟨rfl, hst, -⟩ := hg
        obtain ⟨cmd, hs, -, hb, -⟩ := ho trivial
        have hdone := hp.verify nowMs hst (hs.verify vc hb) hdr
        rw [← hmtu] at hdone
        exact hdone
    | deferDisconnect data =>
        exact ⟨PeerState.noConfusion, PeerState.noConfusion, PeerState.noConfusion, hp.asked,
          hp.settled, hacked⟩
    | beginDisconnect deferred =>
        exact ⟨PeerState.noConfusion, PeerState.noConfusion, PeerState.noConfusion, hp.asked,
          hp.settled, hacked⟩
    | _ => exact hlife.elim
  · have hsame := PeerOp.samePhase nowMs p hlife
    have hkeeps : ¬ o.BringsTerms := by
      intro hbrings
      cases o with
      | verify hostMtu vc hdr => exact hlife trivial
      | recvThrottleConfigure tc =>
          obtain ⟨cmd, hs, -, hb⟩ := ho trivial
          exact hs.throttle tc hb
      | _ => exact hbrings
    refine ⟨?_, ?_, ?_, ?_, ?_, hacked⟩
    · rw [hsame.state]
      exact hp.asks
    · rw [hsame.state, hsame.rx]
      exact hp.waits
    · rw [hsame.state, hsame.rx]
      exact hp.told
    · rw [hterms hkeeps, hsame.rx]
      exact hp.asked
    · rw [hterms hkeeps, hsame.rx]
      exact hp.settled

end Config.ClientEntry

namespace HostTask

/-- **The client's host.** -/
structure Asks (cfg : Config) (A : U8 → U16 → Prop) (h : HostTask) : Prop where
  ready : h.Ready
  entry : ∀ k p, h.peer k = some p → cfg.ClientEntry A p
  utters : h.Utters cfg.Question

namespace Asks

variable {cfg : Config} {A A' : U8 → U16 → Prop} {v : Permit} {nowMs : U32} {h h' : HostTask}

theorem mono (hA : ∀ ch seq, A ch seq → A' ch seq) (ha : h.Asks cfg A) : h.Asks cfg A' :=
  ⟨ha.ready, fun k p hp => (ha.entry k p hp).mono hA, ha.utters⟩

/-- What arrives at an entry was heard. -/
theorem arrives {k : PeerKey} {o : PeerOp} (hl : v.Allows h (.op k o))
    (hheard : ∀ cmd, v.heard cmd → cfg.Answer A cmd) (ho : o.Arrives) :
    ∃ cmd, cfg.Answer A cmd ∧ cmd.Receives o := by
  have hin : ∃ cmd, v.heard cmd ∧ cmd.Receives o := by
    cases o <;> first | exact ho.elim | exact hl ho
  obtain ⟨cmd, hcmd, hrec⟩ := hin
  exact ⟨cmd, hheard cmd hcmd, hrec⟩

/-- **One change.** -/
theorem label {l : Label} (ha : h.Asks cfg A) (hg : l.Guard nowMs h) (hl : v.Allows h l)
    (hheard : ∀ cmd, v.heard cmd → cfg.Answer A cmd)
    (hun : ∀ cmd, v.untracked cmd → cfg.Question cmd) (hent : ∀ h slot e, ¬ v.entry h slot e) :
    (l.apply nowMs h).Asks cfg A := by
  refine ⟨ha.ready.label hg hl, Label.entries hg ?_ ?_ ha.entry, ?_⟩
  · rintro slot entry rfl
    exact absurd hl (hent h slot entry)
  · rintro k p o rfl hp hentry hgo
    exact hentry.op (ha.ready.limited.2 k p hp).toInRange ha.ready.limited.1 hgo
      (arrives hl hheard)
  · refine ha.utters.speech ha.ready hg hl hun ?_
    rintro slot entry rfl
    exact absurd hl (hent h slot entry)

theorem exec (ha : h.Asks cfg A) (hheard : ∀ cmd, v.heard cmd → cfg.Answer A cmd)
    (hun : ∀ cmd, v.untracked cmd → cfg.Question cmd) (hent : ∀ h slot e, ¬ v.entry h slot e)
    (e : Exec nowMs v.Allows h h') : h'.Asks cfg A :=
  e.invariant _ (fun _ _ hi hg hl => hi.label hg hl hheard hun hent) ha

end Asks

end HostTask

end EnetRs
