/-
  EnetRs.System.Receiver — the server's host.

  It hears one client.  Each of its entries receives the client's stream; there is
  at most one entry, in slot 0, on the terms that the client asked for; and what it
  says are answers: VERIFY_CONNECTs with these terms, and ACKs of what it heard.

  Main results:
    * `HostTask.Receives.label` — one change, for the stream.
    * `HostTask.Serves.label` — one change, for the terms and the answers.
-/
import EnetRs.Exchange.Outgoing
import EnetRs.System.Speech

namespace EnetRs

open MachineInt

/-! ## §1. The stream. -/

/-- What arrives at an entry is a command of the stream. -/
theorem Permit.Allows.carries {v : Permit} {h : HostTask} {k : PeerKey} {o : PeerOp} {tr : Traffic}
    {alone : Prop} (hl : v.Allows h (.op k o)) (hheard : ∀ cmd, v.heard cmd → tr.Says alone cmd)
    (halone : alone) (hrel : tr.AllReliable) : tr.Carries o := by
  cases o with
  | recvReliable ch seq data =>
      obtain ⟨cmd, hcmd, ho⟩ := hl trivial
      exact (hheard cmd hcmd).carries halone hrel ho
  | recvUnreliable ch rseq useq data =>
      obtain ⟨cmd, hcmd, ho⟩ := hl trivial
      exact (hheard cmd hcmd).carries halone hrel ho
  | recvFragment ch sf reliable =>
      obtain ⟨cmd, hcmd, ho⟩ := hl trivial
      exact (hheard cmd hcmd).carries halone hrel ho
  | _ => trivial

/-- A new entry has received nothing. -/
theorem Starts.receiving {p : PeerEntry} (hs : Starts p) (tr : Traffic) : tr.Receiving p := by
  obtain ⟨n, hch⟩ := hs.channels
  obtain ⟨ty, hh, -⟩ := hs.history
  refine .of_starts (fun c hc => ?_) ?_
  · rw [hch] at hc
    exact List.eq_of_mem_replicate (List.mem_of_getElem? hc)
  · rw [PeerEntry.deliveredOn, hh]
    rfl

namespace HostTask

variable {tr : Traffic} {v : Permit} {nowMs : U32} {h h' : HostTask}

/-- **Each entry receives the stream**, however the stream goes on. -/
structure Receives (tr : Traffic) (h : HostTask) : Prop where
  ready : h.Ready
  receiving : ∀ tr', tr.Extends tr' → tr'.AllReliable → tr'.total < 32768 →
    ∀ k p, h.peer k = some p → tr'.Receiving p

namespace Receives

theorem new (tr : Traffic) (acceptCapacity maxPeers : Nat) (useChecksum : Bool) (ib ob : U32) :
    (HostTask.new acceptCapacity maxPeers useChecksum ib ob).Receives tr :=
  ⟨ready_new .., by simp⟩

/-- The stream goes on. -/
theorem extend {tr' : Traffic} (hr : h.Receives tr) (he : tr.Extends tr') : h.Receives tr' :=
  ⟨hr.ready, fun tr'' he' => hr.receiving tr'' (he.trans he')⟩

/-- **One change.** -/
theorem label {l : Label} {alone : Prop} (hr : h.Receives tr) (hg : l.Guard nowMs h)
    (hl : v.Allows h l) (hheard : ∀ cmd, v.heard cmd → tr.Says alone cmd) (halone : alone) :
    (l.apply nowMs h).Receives tr := by
  refine ⟨hr.ready.label hg hl, fun tr' he hrel hsmall => ?_⟩
  refine Label.entries hg (fun slot entry _ hn => hn.starts.receiving tr') ?_
    (hr.receiving tr' he hrel hsmall)
  rintro k p o rfl hp hrec hgo
  have hlen := (hr.ready.limited.2 k p hp).channels.2
  exact hrec.op hrel hsmall hgo hlen
    (hl.carries (fun cmd hcmd => he.said (hheard cmd hcmd)) halone hrel)

end Receives

/-! ## §2. The terms and the answers. -/

/-- **The server's host.**  `A` holds of the numbers it may acknowledge. -/
structure Serves (cfg : Config) (A : U8 → U16 → Prop) (h : HostTask) : Prop where
  ready : h.Ready
  mapped : Mapped h
  entry : ∀ k p, h.peer k = some p → k = 0 ∧ p.addr = cfg.clientAddr ∧ p.state ≠ .connecting
    ∧ p.terms = serverTerms 0 cfg.channelCount cfg.connectId
  utters : h.Utters (cfg.Answer A)

/-- The first slot is handed out when all are free. -/
theorem allocSlot_eq_zero {slot : PeerKey} (hs : h.allocSlot = some slot)
    (hfree : ∀ k, h.peer k = none) : slot = 0 := by
  have hfirst := hfree 0
  unfold allocSlot at hs
  unfold peer at hfirst
  cases hpeers : h.peers with
  | nil =>
      rw [hpeers] at hs
      cases hs
  | cons first rest =>
      rw [hpeers] at hs hfirst
      have hnone : first = none := hfirst
      rw [hnone] at hs
      exact (Option.some.inj hs).symm

namespace Serves

variable {cfg : Config} {A A' : U8 → U16 → Prop}

theorem new (cfg : Config) (A : U8 → U16 → Prop) (acceptCapacity maxPeers : Nat)
    (useChecksum : Bool) (ib ob : U32) :
    (HostTask.new acceptCapacity maxPeers useChecksum ib ob).Serves cfg A :=
  ⟨ready_new .., Mapped.new .., by simp, utters_new ..⟩

theorem mono (hA : ∀ ch seq, A ch seq → A' ch seq) (hs : h.Serves cfg A) : h.Serves cfg A' :=
  ⟨hs.ready, hs.mapped, hs.entry, hs.utters.mono fun _ => Command.Speech.mono hA⟩

/-- What the server may do: it hears one client, which asks for one connection. -/
structure Hears (cfg : Config) (A : U8 → U16 → Prop) (heard untracked : Command → Prop) :
    Prop where
  connect : ∀ cmd c, heard cmd → cmd.Connects c → c = cfg.request
  throttle : ∀ cmd c, heard cmd → cmd.body ≠ .throttleConfigure c
  untracked : ∀ cmd, untracked cmd → cfg.Answer A cmd

variable {heard untracked : Command → Prop}

/-- The entry that `on_connect` makes is the only one. -/
theorem install {slot : PeerKey} {entry : PeerEntry} (hs : h.Serves cfg A)
    (hv : Hears cfg A heard untracked) (hslot : h.allocSlot = some slot)
    (hl : (Permit.serve cfg.clientAddr heard untracked).entry h slot entry) :
    (∀ k, h.peer k = none) ∧ slot = 0 ∧ entry.addr = cfg.clientAddr ∧ entry.state ≠ .connecting
      ∧ entry.terms = serverTerms 0 cfg.channelCount cfg.connectId
      ∧ entry.Stores (cfg.Answer A) := by
  obtain ⟨hunmapped, cmd, c, t, hcmd, hc, rfl⟩ := hl
  obtain rfl := hv.connect cmd c hcmd hc
  have hfree : ∀ k, h.peer k = none := by
    intro k
    cases hp : h.peer k with
    | none => rfl
    | some p => exact absurd (hs.entry k p hp).2.1 (hs.mapped.addr_ne hunmapped hp)
  obtain rfl := allocSlot_eq_zero hslot hfree
  have hterms : (h.serverHandshake 0 cfg.request cmd.header cfg.clientAddr t).1.terms
      = serverTerms 0 cfg.channelCount cfg.connectId :=
    serverHandshake_terms Config.clientHost rfl hs.ready.limited.1 0 0 _ _ 0 _ _ t
  refine ⟨hfree, rfl, rfl, PeerState.noConfusion, hterms, ?_⟩
  refine serverHandshake_stores _ _ _ _ _ _ fun seq => Command.speech_verifyConnect ?_
  exact verifyReply_terms hterms 0 _

/-- **One change.** -/
theorem label {l : Label} (hs : h.Serves cfg A) (hv : Hears cfg A heard untracked)
    (hg : l.Guard nowMs h) (hl : (Permit.serve cfg.clientAddr heard untracked).Allows h l) :
    (l.apply nowMs h).Serves cfg A := by
  refine ⟨hs.ready.label hg hl, ?_, ?_, ?_⟩
  · cases l with
    | install slot entry =>
        obtain ⟨hfree, -⟩ := hs.install hv hg.1 hl
        refine hs.mapped.install hg fun j q hq => ?_
        rw [hfree j] at hq
        cases hq
    | op k o => exact hs.mapped.label hg fun _ _ => Label.noConfusion
    | remove k => exact hs.mapped.label hg fun _ _ => Label.noConfusion
    | raw c addr => exact hs.mapped.label hg fun _ _ => Label.noConfusion
    | epoch => exact hs.mapped.label hg fun _ _ => Label.noConfusion
    | appAccept => exact hs.mapped.label hg fun _ _ => Label.noConfusion
    | appClose => exact hs.mapped.label hg fun _ _ => Label.noConfusion
  · refine Label.entries_at hg ?_ ?_ hs.entry
    · rintro slot entry rfl -
      obtain ⟨-, hslot, haddr, hst, hterms, -⟩ := hs.install hv hg.1 hl
      exact ⟨hslot, haddr, hst, hterms⟩
    · rintro k p o rfl hp ⟨hk, haddr, hst, hterms⟩ hgo
      refine ⟨hk, (PeerOp.sameConnection nowMs p o).addr.trans haddr,
        PeerOp.state_ne_connecting hst, ?_⟩
      rw [← hterms]
      refine PeerOp.terms_apply nowMs hgo (hs.ready.limited.2 k p hp).channels.2 fun hbrings => ?_
      cases o with
      | verify hostMtu vc hdr => exact hst hgo.2.1
      | recvThrottleConfigure tc =>
          obtain ⟨cmd, hcmd, ho⟩ := hl trivial
          exact hv.throttle cmd tc hcmd ho.2
      | _ => exact hbrings
  · refine hs.utters.speech hs.ready hg hl hv.untracked ?_
    rintro slot entry rfl
    obtain ⟨-, -, -, -, -, hstores⟩ := hs.install hv hg.1 hl
    exact hstores

end Serves

end HostTask

end EnetRs
