/-
  EnetRs.System.Link — the invariant of the two hosts.

  Everything the server has heard was said by the client, and everything the client
  has heard was said by the server, so each host's invariant can rest on what the
  other one says.  `Met` joins the invariants of the handshake, `Linked` those of a
  stream.

  Main results:
    * `Config.Met.client`, `Config.Linked.server`, … — one step of either host.
    * `Config.met`, `Config.linked` — every run.
-/
import EnetRs.System.Receiver
import EnetRs.System.Requester
import EnetRs.System.Sender

namespace EnetRs

open MachineInt

namespace Config

variable {cfg : Config} {alone : Prop} {ch : U8} {tr : Traffic} {c : Client} {r : Server}
  {nowMs : U32}

/-! ## §1. What is heard. -/

/-- One of the commands asks for an ACK of this number. -/
def Acked (heard : List Command) (ch : U8) (seq : U16) : Prop :=
  ∃ cmd ∈ heard, cmd.header.hasAckFlag = true ∧ cmd.header.channelId = ch
    ∧ cmd.header.reliableSeq = seq

theorem Acked.mono {H H' : List Command} (hsub : H ⊆ H') (ch : U8) (seq : U16)
    (ha : Acked H ch seq) : Acked H' ch seq := by
  obtain ⟨cmd, hcmd, hrest⟩ := ha
  exact ⟨cmd, hsub hcmd, hrest⟩

/-- **The moves of the applications**: the packets are within the limits. -/
def Modest : Move → Prop
  | .left (_, .send _ pkt) | .right (_, .send _ pkt) => pkt.Fits
  | _ => True

/-- Moreover the client sends nothing unreliable on the channel. -/
def Polite (ch : U8) : Move → Prop
  | .left (_, .send _ pkt) => pkt.Fits ∧ (pkt.mode = .unreliable → pkt.channel ≠ ch)
  | .right (_, .send _ pkt) => pkt.Fits
  | _ => True

theorem Polite.modest {ch : U8} {m : Move} (hm : Polite ch m) : Modest m := by
  cases m with
  | left i =>
      obtain ⟨t, i⟩ := i
      cases i with
      | send k pkt => exact hm.1
      | _ => trivial
  | right i =>
      obtain ⟨t, i⟩ := i
      cases i with
      | send k pkt => exact hm
      | _ => trivial
  | toLeft t n => trivial
  | toRight t n => trivial

/-- What the client says apart from its stream. -/
def Remark (cfg : Config) (alone : Prop) (ch : U8) (cmd : Command) : Prop :=
  cmd.Aside alone ch ∧ cfg.Question cmd

/-- A local move but a packet is permitted to everyone. -/
theorem takes_of_local {v : Permit} {i : Input} {h : HostTask} (hl : i.isLocal = true)
    (hsend : ∀ k pkt, i = .send k pkt → pkt.Becomes v.untracked) : v.Takes h nowMs i := by
  cases i with
  | datagram raw src => cases hl
  | connect addr channelCount data reply connectId => cases hl
  | send key pkt => exact hsend key pkt rfl
  | _ => trivial

theorem becomes_question {pkt : Packet} (hf : pkt.Fits) :
    pkt.Becomes cfg.Question :=
  hf.becomes fun _ hplain _ _ _ _ => Command.speech_of_plain hplain

theorem becomes_answer {pkt : Packet} (hf : pkt.Fits) (A : U8 → U16 → Prop) :
    pkt.Becomes (cfg.Answer A) :=
  hf.becomes fun _ hplain _ _ _ _ => Command.speech_of_plain hplain

/-- A packet of the client is a remark: unreliable packets are none where the
stream is alone. -/
theorem becomes_remark {pkt : Packet} (hf : pkt.Fits)
    (hno : alone → pkt.mode = .unreliable → pkt.channel ≠ ch) :
    pkt.Becomes (cfg.Remark alone ch) := by
  refine hf.becomes fun cmd hplain hch hflag huns hrel =>
    ⟨fun hon => ⟨hflag, fun halone => ?_⟩, Command.speech_of_plain hplain⟩
  -- on the channel only unsequenced packets are not part of the stream
  have hmode : pkt.mode = .unsequenced := by
    cases hm : pkt.mode with
    | reliable => exact absurd hm hrel
    | unreliable => exact absurd (hch.symm.trans hon) (hno halone hm)
    | unsequenced => rfl
  exact .inr (huns hmode)

/-- What the server said keeps to the client's permit, if ACKs do. -/
theorem talk_hears {A : U8 → U16 → Prop} {untracked : Command → Prop} {h : HostTask}
    {cmds : List Bytes} {d : Bytes} {src : SocketAddr}
    (hack : ∀ ch seq st, untracked (.acknowledgement ch seq st))
    (hu : Utterance (cfg.Answer A) h.useChecksum cmds d) (numbers removes : Prop) :
    (Permit.talk (cfg.Answer A) untracked numbers removes).Takes h nowMs (.datagram d src) := by
  intro a ha cmd hcmd
  have hans := HostTask.heard_of_utterance hu ha cmd hcmd
  exact ⟨hans, fun _ st => hack _ _ st, fun c hc => (hans.connect c hc).elim⟩

theorem question_acknowledgement (ch : U8) (seq st : U16) :
    cfg.Question (.acknowledgement ch seq st) :=
  Command.speech_acknowledgement fun _ => trivial

theorem remark_acknowledgement (ch ch' : U8) (seq st : U16) :
    cfg.Remark alone ch (.acknowledgement ch' seq st) := by
  refine ⟨fun _ => ⟨?_, fun _ => .inl ?_⟩, question_acknowledgement ch' seq st⟩
  · exact (by decide : ((cmdAcknowledge ||| 0) &&& commandFlagAcknowledge != 0) = false)
  · exact (by decide : (cmdAcknowledge ||| 0) &&& commandMask = cmdAcknowledge)

/-- The server's permit when it hears `T` and has heard `H`. -/
abbrev answering (cfg : Config) (T : Command → Prop) (H : List Command) : Permit :=
  .serve cfg.clientAddr T (cfg.Answer (Acked H))

/-- What the client said keeps to the server's permit. -/
theorem answering_hears {T : Command → Prop} {h : HostTask} {d : Bytes} {H : List Command}
    (hT : ∀ cmd ∈ H, T cmd)
    (hsub : ∀ a, h.acceptDatagram d cfg.clientAddr = some a → a.cmds ⊆ H) :
    (cfg.answering T H).Takes h nowMs (.datagram d cfg.clientAddr) := by
  intro a ha cmd hcmd
  have hmem := hsub a ha hcmd
  refine ⟨hT cmd hmem, fun hflag st => ?_, fun c hc => ⟨fun st => ?_, ?_, fun h slot hfree => ?_⟩⟩
  · exact Command.speech_acknowledgement fun _ => ⟨cmd, hmem, hflag, rfl, rfl⟩
  · exact Command.speech_acknowledgement fun hne => absurd rfl hne
  · exact Command.speech_of_plain trivial
  · exact ⟨hfree, cmd, c, nowMs, hT cmd hmem, hc, rfl⟩

/-- What the server has heard after a datagram. -/
theorem heard_append (cfg : Config) {T : Command → Prop} {d : Bytes} {cmds : List Bytes}
    (hold : ∀ cmd ∈ r.heard, T cmd) (hu : Utterance T r.task.useChecksum cmds d) :
    ∀ cmd ∈ r.heard ++ ((r.task.acceptDatagram d cfg.clientAddr).map (·.cmds)).getD [], T cmd := by
  intro cmd hcmd
  rcases List.mem_append.mp hcmd with hcmd | hnew
  · exact hold cmd hcmd
  · cases ha : r.task.acceptDatagram d cfg.clientAddr with
    | none =>
        rw [ha] at hnew
        cases hnew
    | some a =>
        rw [ha] at hnew
        exact HostTask.heard_of_utterance hu ha cmd hnew

theorem cmds_subset_append {d : Bytes} (a : HostTask.Accepted)
    (ha : r.task.acceptDatagram d cfg.clientAddr = some a) :
    a.cmds ⊆ r.heard ++ ((r.task.acceptDatagram d cfg.clientAddr).map (·.cmds)).getD [] := by
  rw [ha]
  exact List.subset_append_right _ _

/-! ## §2. The invariant. -/

/-- **Who has asked and who has answered.** -/
structure Met (cfg : Config) (c : Client) (r : Server) : Prop where
  unchecked : c.task.useChecksum = false ∧ r.task.useChecksum = false
  asks : c.task.Asks cfg (Acked r.heard)
  seen : ∀ p, c.task.peer 0 = some p → p = c.last
  entry : cfg.ClientEntry (Acked r.heard) c.last
  serves : r.task.Serves cfg (Acked r.heard)
  question : ∀ cmd ∈ r.heard, cfg.Question cmd

/-- **One stream between the two ends.**  The server's entries receive it where it
is `alone` on its channel. -/
structure Linked (cfg : Config) (alone : Prop) (tr : Traffic) (c : Client) (r : Server) : Prop
    extends cfg.Met c r where
  streams : c.task.Streams alone tr
  sent : tr.SentBy false c.last
  receives : alone → r.task.Receives tr
  stream : ∀ cmd ∈ r.heard, tr.Says alone cmd

/-- A step does not turn checksums on or off. -/
theorem useChecksum_step {h h' : HostTask} {i : HostTask.Timed} (hs : h.timedStep i = some h') :
    h'.useChecksum = h.useChecksum :=
  (HostTask.step_exec_true hs).invariant (fun g => g.useChecksum = h.useChecksum)
    (fun _ l hck _ _ => (Label.useChecksum_apply l).trans hck) rfl

theorem follow_of_none {task : HostTask} (hp : task.peer 0 = none) :
    c.follow task = ⟨task, c.last⟩ := by
  rw [Client.follow, hp]
  rfl

theorem follow_of_some {task : HostTask} {p : PeerEntry} (hp : task.peer 0 = some p) :
    c.follow task = ⟨task, p⟩ := by
  rw [Client.follow, hp]
  rfl

namespace Met

/-- **The client moves.** -/
theorem client (heard untracked : Command → Prop) {i : HostTask.Timed} {task : HostTask}
    (hm : cfg.Met c r) (hheard : ∀ cmd, heard cmd → cfg.Answer (Acked r.heard) cmd)
    (hun : ∀ cmd, untracked cmd → cfg.Question cmd)
    (hi : (Permit.talk heard untracked True True).Takes c.task i.1 i.2)
    (hs : c.task.timedStep i = some task) : cfg.Met (c.follow task) r := by
  have hasks : task.Asks cfg (Acked r.heard) :=
    hm.asks.exec (v := .talk heard untracked True True) hheard hun (fun _ _ _ hf => hf)
      (HostTask.step_permitted trivial trivial hm.asks.ready hi hs)
  have hck : task.useChecksum = false := (useChecksum_step hs).trans hm.unchecked.1
  cases hp : task.peer 0 with
  | none =>
      rw [follow_of_none hp]
      refine ⟨⟨hck, hm.unchecked.2⟩, hasks, fun p hp' => ?_, hm.entry, hm.serves, hm.question⟩
      cases hp.symm.trans hp'
  | some p =>
      rw [follow_of_some hp]
      refine ⟨⟨hck, hm.unchecked.2⟩, hasks, fun q hq => ?_, hasks.entry 0 p hp, hm.serves,
        hm.question⟩
      cases hp.symm.trans hq
      rfl

/-- **The server moves.** -/
theorem server {T : Command → Prop} {i : HostTask.Timed} {task : HostTask} {H : List Command}
    (hm : cfg.Met c r) (hT : ∀ cmd, T cmd → cfg.Question cmd) (hsub : r.heard ⊆ H)
    (hH : ∀ cmd ∈ H, cfg.Question cmd) (hi : (cfg.answering T H).Takes r.task i.1 i.2)
    (hs : r.task.timedStep i = some task) : cfg.Met c ⟨task, H⟩ := by
  have hmore : ∀ ch seq, Acked r.heard ch seq → Acked H ch seq := Acked.mono hsub
  have hv : HostTask.Serves.Hears cfg (Acked H) T (cfg.Answer (Acked H)) :=
    ⟨fun cmd c hcmd hc => (hT cmd hcmd).connect c hc, fun cmd c hcmd => (hT cmd hcmd).throttle c,
      fun _ h => h⟩
  have e := HostTask.step_permitted trivial trivial hm.serves.ready hi hs
  refine ⟨⟨hm.unchecked.1, (useChecksum_step hs).trans hm.unchecked.2⟩, hm.asks.mono hmore, hm.seen,
    hm.entry.mono hmore, ?_, hH⟩
  exact e.invariant _ (fun _ _ hs hg hl => hs.label hv hg hl) (hm.serves.mono hmore)

end Met

namespace Linked

/-- **The client moves.** -/
theorem client (heard : Command → Prop) {i : HostTask.Timed} {task : HostTask}
    (hl : cfg.Linked alone tr c r) (hheard : ∀ cmd, heard cmd → cfg.Answer (Acked r.heard) cmd)
    (hi : ∀ numbers removes,
      (Permit.talk heard (cfg.Remark alone tr.ch) numbers removes).Takes c.task i.1 i.2)
    (hs : c.task.timedStep i = some task) :
    ∃ tr', tr.Extends tr' ∧ cfg.Linked alone tr' (c.follow task) r := by
  have hm := hl.toMet.client heard (cfg.Remark alone tr.ch) hheard (fun _ hu => hu.2) (hi True True) hs
  obtain ⟨tr', he, hst, hgone⟩ := hl.streams.step (fun _ hu => hu.1) hi hs
  cases hp : task.peer 0 with
  | none =>
      -- the entry is gone: nothing was numbered in the step
      rw [hgone hp] at hst
      rw [follow_of_none hp] at hm ⊢
      exact ⟨tr, .refl tr, hm, hst, hl.sent, hl.receives, hl.stream⟩
  | some p =>
      rw [follow_of_some hp] at hm ⊢
      have hsent := hst.sentBy 0 p hp
      rw [hm.unchecked.1] at hsent
      exact ⟨tr', he, hm, hst, hsent, fun halone => (hl.receives halone).extend he,
        fun cmd hcmd => he.said (hl.stream cmd hcmd)⟩

/-- What the server hears from a linked client. -/
abbrev Hears (cfg : Config) (alone : Prop) (tr : Traffic) (cmd : Command) : Prop :=
  tr.Says alone cmd ∧ cfg.Question cmd

/-- **The server moves.** -/
theorem server {i : HostTask.Timed} {task : HostTask} {H : List Command} (hl : cfg.Linked alone tr c r)
    (hsub : r.heard ⊆ H) (hH : ∀ cmd ∈ H, Hears cfg alone tr cmd)
    (hi : (cfg.answering (Hears cfg alone tr) H).Takes r.task i.1 i.2)
    (hs : r.task.timedStep i = some task) : cfg.Linked alone tr c ⟨task, H⟩ := by
  have hm := hl.toMet.server (fun _ h => h.2) hsub (fun cmd hcmd => (hH cmd hcmd).2) hi hs
  have e := HostTask.step_permitted trivial trivial hl.serves.ready hi hs
  refine ⟨hm, hl.streams, hl.sent, fun halone => ?_, fun cmd hcmd => (hH cmd hcmd).1⟩
  refine e.invariant _ (fun g l hr hg hl => ?_) (hl.receives halone)
  exact hr.label hg hl (fun cmd hcmd => hcmd.1) halone

end Linked

/-! ## §3. Every run. -/

/-- The client's host when the entry is in its slot. -/
theorem streams_install (cfg : Config) {ch : U8} (hch : ch ≠ channelIdConnection) (alone : Prop) :
    ∃ tr : Traffic, tr.ch = ch ∧ (clientHost.install 0 cfg.clientEntry).Streams alone tr
      ∧ (clientHost.install 0 cfg.clientEntry).Asks cfg (Acked []) := by
  let v : Permit := ⟨fun _ => False, fun _ => False, fun _ _ _ => True, False, False⟩
  have hnew : IsNewEntry clientHost 0 cfg.time cfg.clientEntry := .inl ⟨_, _, _, _, _, rfl⟩
  have hg : (Label.install 0 cfg.clientEntry).Guard cfg.time clientHost := ⟨rfl, hnew⟩
  have hl : v.Allows clientHost (.install 0 cfg.clientEntry) := trivial
  have hready : (clientHost.install 0 cfg.clientEntry).Ready := (HostTask.ready_new ..).label hg hl
  have hpeer : (clientHost.install 0 cfg.clientEntry).peer 0 = some cfg.clientEntry := rfl
  have honly : ∀ {I : PeerEntry → Prop}, I cfg.clientEntry →
      ∀ k p, (clientHost.install 0 cfg.clientEntry).peer k = some p → I p := by
    intro I hi k p hp
    obtain rfl := HostTask.peer_eq_zero (h := clientHost.install 0 cfg.clientEntry) rfl hp
    cases hpeer.symm.trans hp
    exact hi
  have hrange : InRange cfg.clientEntry := (hready.limited.2 0 _ hpeer).toInRange
  refine ⟨_, rfl, ⟨rfl, hch, hready, ?_, honly (Traffic.sentBy_empty hrange hnew.starts false ch)⟩,
    hready, honly ?_, ?_⟩
  · refine (HostTask.utters_new ..).label (fun _ h => h) (HostTask.ready_new ..) hg hl
      (fun _ => False.elim) (fun body _ seq => Traffic.says_of_channel hch.symm) ?_ trivial
    intro slot entry heq
    cases heq
    exact HostTask.clientHandshake_stores _ _ _ _ _ _ _ _ fun seq =>
      Traffic.says_of_channel hch.symm
  · have hterms : cfg.clientEntry.terms = HostTask.askedTerms cfg.channelCount cfg.connectId :=
      HostTask.clientHandshake_terms rfl ..
    obtain ⟨ty, hh, -⟩ := hnew.starts.history
    refine ⟨PeerState.noConfusion, fun _ => Option.some_ne_none _, PeerState.noConfusion,
      fun _ => hterms, fun hnone => absurd hnone (Option.some_ne_none _), fun ch seq _ hack => ?_⟩
    rw [hh] at hack
    cases List.mem_singleton.mp hack
  · refine (HostTask.utters_new ..).speech (HostTask.ready_new ..) hg hl (fun _ => False.elim) ?_
    intro slot entry heq
    cases heq
    exact HostTask.clientHandshake_stores _ _ _ _ _ _ _ _ fun seq => Command.speech_connect rfl

/-- The system starts linked. -/
theorem linked_start (cfg : Config) {ch : U8} (hch : ch ≠ channelIdConnection) (alone : Prop) :
    ∃ tr : Traffic, tr.ch = ch ∧ cfg.Linked alone tr cfg.start.1 cfg.start.2 := by
  obtain ⟨tr, rfl, hs, ha⟩ := streams_install cfg hch alone
  have e : Exec cfg.time (Permit.talk (fun _ => False) (fun _ => False) False False).Allows
      (clientHost.install 0 cfg.clientEntry) cfg.start.1.task := by
    rw [start_task]
    refine HostTask.emitByKey_permitted _ fun p hp b hb => .inl ?_
    cases hp
    rw [List.mem_singleton.mp hb]
    exact HostTask.clientHandshake_retains ..
  obtain ⟨tr', -, hst, hsame⟩ := hs.exec (fun _ => False.elim) (fun _ _ _ h => h) e
  rw [hsame id] at hst
  have hasks := ha.exec (fun _ => False.elim) (fun _ => False.elim) (fun _ _ _ h => h) e
  have hpeer : cfg.start.1.task.peer 0 = some cfg.start.1.last := rfl
  have hm : cfg.Met cfg.start.1 cfg.start.2 := by
    refine ⟨⟨rfl, rfl⟩, hasks, fun p hp => ?_, hasks.entry 0 _ hpeer, .new .., by simp [start]⟩
    cases hpeer.symm.trans hp
    rfl
  exact ⟨tr, rfl, hm, hst, hst.sentBy 0 _ hpeer, fun _ => .new .., by simp [start]⟩

variable {s : Client × Server} {moves : List Move}

/-- **Every run of the system.** -/
theorem met (hp : ∀ m ∈ moves, Modest m) (hrun : cfg.run moves = some s) : cfg.Met s.1 s.2 := by
  obtain ⟨tr, -, hstart⟩ := linked_start cfg (by decide : (0 : U8) ≠ channelIdConnection) False
  refine run_invariant (I := fun s => cfg.Met s.1 s.2) (D := Modest) hstart.toMet ?_ ?_ ?_ ?_
    hp hrun
  · intro c r i task hm hloc hp hs
    refine hm.client (fun _ => False) cfg.Question (fun _ => False.elim) (fun _ h => h)
      (takes_of_local hloc ?_) hs
    rintro k pkt hi
    obtain ⟨t, i⟩ := i
    subst hi
    exact becomes_question hp
  · intro c r i task hm hloc hp hs
    refine hm.server (fun _ h => h) (fun _ h => h) hm.question (takes_of_local hloc ?_) hs
    rintro k pkt hi
    obtain ⟨t, i⟩ := i
    subst hi
    exact becomes_answer hp _
  · intro c r t cmds d hm hsent
    have hu := hm.serves.utters.sent _ _ _ hsent
    rw [hm.unchecked.2, ← hm.unchecked.1] at hu
    exact hm.client (i := (t, .datagram d cfg.serverAddr)) _ cfg.Question (fun _ h => h)
      (fun _ h => h) (talk_hears question_acknowledgement hu _ _) rfl
  · intro c r t cmds d hm hsent
    have hu := hm.asks.utters.sent _ _ _ hsent
    rw [hm.unchecked.1, ← hm.unchecked.2] at hu
    have hH := heard_append cfg hm.question hu
    exact hm.server (i := (t, .datagram d cfg.clientAddr)) (fun _ h => h)
      (List.subset_append_left _ _) hH (answering_hears hH cmds_subset_append) rfl

/-- **Every run of the system**, with the stream of a channel. -/
theorem linked (alone : Prop) (hch : ch ≠ channelIdConnection)
    (hp : ∀ m ∈ moves, Modest m ∧ (alone → Polite ch m))
    (hrun : cfg.run moves = some s) :
    ∃ tr : Traffic, tr.ch = ch ∧ cfg.Linked alone tr s.1 s.2 := by
  refine run_invariant (I := fun s => ∃ tr : Traffic, tr.ch = ch ∧ cfg.Linked alone tr s.1 s.2)
    (D := fun m => Modest m ∧ (alone → Polite ch m)) (linked_start cfg hch alone) ?_ ?_ ?_ ?_ hp hrun
  · rintro c r i task ⟨tr, rfl, hl⟩ hloc hp hs
    obtain ⟨tr', he, hl'⟩ := hl.client (fun _ => False) (fun _ => False.elim)
      (fun _ _ => takes_of_local hloc fun k pkt hi => by
        obtain ⟨t, i⟩ := i
        subst hi
        exact becomes_remark hp.1 fun halone => (hp.2 halone).2) hs
    exact ⟨tr', he.ch, hl'⟩
  · rintro c r i task ⟨tr, rfl, hl⟩ hloc hp hs
    refine ⟨tr, rfl, hl.server (fun _ h => h) (fun cmd hcmd => ⟨hl.stream cmd hcmd,
      hl.question cmd hcmd⟩) (takes_of_local hloc fun k pkt hi => ?_) hs⟩
    obtain ⟨t, i⟩ := i
    subst hi
    exact becomes_answer hp.1 _
  · rintro c r t cmds d ⟨tr, rfl, hl⟩ hsent
    have hu := hl.serves.utters.sent _ _ _ hsent
    rw [hl.unchecked.2, ← hl.unchecked.1] at hu
    obtain ⟨tr', he, hl'⟩ := hl.client (i := (t, .datagram d cfg.serverAddr)) _ (fun _ h => h)
      (fun _ _ => talk_hears (remark_acknowledgement tr.ch) hu _ _) rfl
    exact ⟨tr', he.ch, hl'⟩
  · rintro c r t cmds d ⟨tr, rfl, hl⟩ hsent
    have hsays := hl.streams.utters.sent _ _ _ hsent
    have hasks := hl.asks.utters.sent _ _ _ hsent
    rw [hl.unchecked.1, ← hl.unchecked.2] at hsays hasks
    have hH : ∀ cmd ∈ _, Linked.Hears cfg alone tr cmd := fun cmd hcmd =>
      ⟨heard_append cfg hl.stream hsays cmd hcmd,
        heard_append cfg hl.question hasks cmd hcmd⟩
    exact ⟨tr, rfl, hl.server (i := (t, .datagram d cfg.clientAddr)) (List.subset_append_left _ _)
      hH (answering_hears hH cmds_subset_append) rfl⟩

end Config

end EnetRs
