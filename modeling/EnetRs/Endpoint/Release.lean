/-
  EnetRs.Endpoint.Release — dropping a `PeerSender` ends its connection.

  `Drop` sends `ToTask::Disconnect` for the slot number of the handle, and only if the
  message queue has room at that moment.  If it has, then by the time the task has
  emptied the queue the connection is gone or on its way out: the message cannot be
  ignored because the entry behind a handle is past its handshake, and an entry that is
  leaving never comes back.

  Main results:
    * `Given.label` — the entries behind handles.
    * `Endpoint.asked_leave` — every run.
-/
import EnetRs.Endpoint.Model
import EnetRs.Sending.Teardown

namespace EnetRs

open MachineInt

/-! ## §1. The entries behind handles. -/

/-- What waits in the accept queue is a handle, and the entry behind a handle is past
its handshake. -/
structure Given (h : HostTask) : Prop where
  owned : Owned h
  queued : ∀ x ∈ h.acceptTx.queue, IsHandle h x.1 x.2
  past : ∀ k c j p, IsHandle h k c → h.peer j = some p → p.conn = c →
    p.state ≠ .acknowledgingConnect

namespace Given

variable {h h' : HostTask} {nowMs : U32} {k : PeerKey} {p : PeerEntry} {l : Label}

theorem isHandle_of_trace {j : PeerKey} {c : Receiver} {es : List Event}
    (htrace : h'.trace = h.trace ++ es) (hc : IsHandle h j c) : IsHandle h' j c := by
  unfold IsHandle
  rw [htrace]
  rcases hc with ⟨addr, id, hm⟩ | ⟨reply, hm⟩
  · exact .inl ⟨addr, id, List.mem_append_left _ hm⟩
  · exact .inr ⟨reply, List.mem_append_left _ hm⟩

/-- A handle stays one. -/
theorem isHandle_label {j : PeerKey} {c : Receiver} (hg : l.Guard nowMs h)
    (hc : IsHandle h j c) : IsHandle (l.apply nowMs h) j c := by
  cases l with
  | op k o =>
      obtain ⟨p, hp, -⟩ := hg
      exact isHandle_of_trace (Label.trace_apply_op hp o) hc
  | raw connect addr => exact isHandle_of_trace rfl hc
  | _ => exact hc

/-- No operation takes an entry back into its handshake. -/
theorem state_ne_acknowledging {o : PeerOp} (hg : o.Guard h p)
    (hst : p.state ≠ .acknowledgingConnect) :
    (o.apply nowMs p).state ≠ .acknowledgingConnect := by
  rcases PeerOp.state_cases nowMs hg with hsame | ⟨-, hnew⟩ | ⟨data, hnew⟩ | hnew
  · rwa [hsame]
  · rw [hnew]
    exact PeerState.noConfusion
  · rw [hnew]
    exact PeerState.noConfusion
  · rw [hnew]
    exact PeerState.noConfusion

/-- Only an acceptance and a VERIFY_CONNECT make a handle. -/
theorem isHandle_of_op {o : PeerOp} (hp : h.peer k = some p) {j : PeerKey} {c : Receiver}
    (hc : IsHandle ((Label.op k o).apply nowMs h) j c) :
    IsHandle h j c ∨ (o.apply nowMs p).state = .connected := by
  unfold IsHandle at hc
  simp only [Label.trace_apply_op hp, List.mem_append] at hc
  cases o with
  | accept | verify => exact .inr rfl
  | _ =>
      left
      rcases hc with ⟨addr, id, hm | hm⟩ | ⟨reply, hm | hm⟩
      · exact .inl ⟨addr, id, hm⟩
      · simp [PeerOp.events] at hm
      · exact .inr ⟨reply, hm⟩
      · simp [PeerOp.events] at hm

theorem op {o : PeerOp} (hi : Given h) (hp : h.peer k = some p) (hg : o.Guard h p) :
    Given ((Label.op k o).apply nowMs h) := by
  have hold : ∀ {j c}, IsHandle h j c → IsHandle ((Label.op k o).apply nowMs h) j c :=
    isHandle_of_trace (Label.trace_apply_op hp o)
  refine ⟨hi.owned.op hp hg, fun x hx => ?_, fun j c i q hc hq hqc => ?_⟩
  · rw [Label.apply_op hp] at hx
    cases o with
    | accept rx =>
        -- the connection is queued and noted at the same time
        simp only [PeerOp.acceptTx, Mpsc.trySend, hg.1, if_true, List.mem_append,
          List.mem_singleton] at hx
        rcases hx with hx | rfl
        · exact hold (hi.queued x hx)
        · refine .inl ⟨p.addr, p.connectId, ?_⟩
          rw [Label.trace_apply_op hp]
          exact List.mem_append_right _ (List.mem_singleton.mpr rfl)
    | _ => exact hold (hi.queued x hx)
  · rw [Label.peer_apply_op hp] at hq
    split at hq
    · cases hq
      rw [(PeerOp.sameConnection nowMs p o).conn] at hqc
      rcases isHandle_of_op hp hc with hc | hst
      · exact state_ne_acknowledging hg (hi.past j c k p hc hp hqc)
      · rw [hst]
        exact PeerState.noConfusion
    · next hik =>
      rcases hi.owned.isHandle_op hp hg hc with hc | ⟨-, rfl⟩
      · exact hi.past j c i q hc hq hqc
      · exact absurd (hi.owned.inj i k q p hq hp hqc) hik

/-- **Every change.** -/
theorem label (hi : Given h) (hg : l.Guard nowMs h) : Given (l.apply nowMs h) := by
  cases l with
  | op k o =>
      obtain ⟨p, hp, hgo⟩ := hg
      exact hi.op hp hgo
  | remove k =>
      refine ⟨hi.owned.label hg, hi.queued, fun j c i q hc hq hqc => ?_⟩
      rw [Label.peer_apply_remove] at hq
      split at hq
      · cases hq
      · exact hi.past j c i q hc hq hqc
  | install slot entry =>
      refine ⟨hi.owned.label hg, hi.queued, fun j c i q hc hq hqc => ?_⟩
      rw [Label.peer_apply_install hg.1] at hq
      split at hq
      · -- nobody has a handle of the new connection yet
        cases hq
        have hlt := hi.owned.handle_lt j c hc
        have hnew := hg.2.conn.1
        omega
      · exact hi.past j c i q hc hq hqc
  | raw connect addr =>
      have hback : ∀ {j c}, IsHandle ((Label.raw connect addr).apply nowMs h) j c →
          IsHandle h j c := by
        intro j c hc
        simpa [IsHandle, Label.apply, HostTask.sendRawDisconnect] using hc
      exact ⟨hi.owned.label hg, fun x hx => isHandle_of_trace rfl (hi.queued x hx),
        fun j c i q hc hq hqc => hi.past j c i q (hback hc) hq hqc⟩
  | epoch => exact ⟨hi.owned.label hg, hi.queued, hi.past⟩
  | appAccept =>
      exact ⟨hi.owned.label hg, fun x hx => hi.queued x (List.mem_of_mem_tail hx), hi.past⟩
  | appClose => exact ⟨hi.owned.label hg, hi.queued, hi.past⟩

theorem new (cap maxPeers : Nat) (useChecksum : Bool) (incomingBandwidth outgoingBandwidth : U32) :
    Given (HostTask.new cap maxPeers useChecksum incomingBandwidth outgoingBandwidth) := by
  refine ⟨Owned.new .., fun x hx => ?_, fun k c j p _ hp => ?_⟩
  · cases hx
  · simp at hp

end Given

/-! ## §2. A disconnect is asked for. -/

namespace HostTask

variable {h h' : HostTask} {nowMs : U32} {k : PeerKey} {p q : PeerEntry} {c : Receiver}

/-- An entry that is leaving stays so. -/
theorem leaving_op {o : PeerOp} (hg : o.Guard h p) (hl : p.Leaving) :
    (o.apply nowMs p).Leaving := by
  rcases PeerOp.state_cases nowMs hg with hsame | ⟨hst, -⟩ | ⟨data, hnew⟩ | hnew
  · rwa [PeerEntry.Leaving, hsame]
  · rcases hl with ⟨data, hl⟩ | hl <;> rcases hst with hst | hst <;> cases hst.symm.trans hl
  · exact .inl ⟨data, hnew⟩
  · exact .inr hnew

/-- The message for the slot of a connection past its handshake. -/
theorem sendDisconnect_leaving (hp : h.peer k = some p) (hst : p.state ≠ .acknowledgingConnect)
    (data : U32) (hq : (h.sendDisconnect k data nowMs).peer k = some q) : q.Leaving := by
  by_cases hopen : p.state = .connecting ∨ p.state = .connected
  · rw [peer_sendDisconnect hp hopen, if_pos rfl] at hq
    split at hq
    · cases hq
      exact .inr rfl
    · cases hq
      exact .inl ⟨data, rfl⟩
  · rw [sendDisconnect_ignored fun p' hp' => Option.some.inj (hp.symm.trans hp') ▸ hopen] at hq
    cases hp.symm.trans hq
    cases hs : p.state with
    | connecting => exact absurd (.inl hs) hopen
    | connected => exact absurd (.inr hs) hopen
    | acknowledgingConnect => exact absurd hs hst
    | disconnectLater data => exact .inl ⟨data, hs⟩
    | disconnecting => exact .inr hs

/-- The connection is asked to leave by a message that is still to come for its slot,
or it is leaving. -/
def AskedToLeave (h : HostTask) (c : Receiver) (queue : List ToTask) : Prop :=
  c < h.nextConn ∧ ∀ k p, h.peer k = some p → p.conn = c →
    (∃ data, .disconnect k data ∈ queue) ∨ p.Leaving

theorem AskedToLeave.exec {C : Cond} {queue : List ToTask} (ha : h.AskedToLeave c queue)
    (e : Exec nowMs C h h') : h'.AskedToLeave c queue := by
  refine e.invariant (fun h => h.AskedToLeave c queue) (fun h l ha hg _ => ?_) ha
  refine ⟨Nat.lt_of_lt_of_le ha.1 (nextConn_le nowMs h l), Label.entries_at hg ?_ ?_ ha.2⟩
  · intro slot entry _ hnew hc
    exact absurd (hc.symm.trans hnew.conn.1) (Nat.ne_of_lt ha.1)
  · intro k p o _ _ hi hgo hc
    rw [(PeerOp.sameConnection nowMs p o).conn] at hc
    exact (hi hc).imp_right (leaving_op hgo)

/-- The task takes the next message. -/
theorem AskedToLeave.message {msg : ToTask} {queue : List ToTask} {connectId : U32}
    (hi : Given h) (hc : IsHandle h k c) (ha : h.AskedToLeave c (msg :: queue))
    (hs : h.step nowMs (msg.input connectId) = some h') : h'.AskedToLeave c queue := by
  have e := step_exec_true (i := (nowMs, msg.input connectId)) hs
  refine ⟨Nat.lt_of_lt_of_le ha.1 (nextConn_le_exec e), fun j q hq hqc => ?_⟩
  rcases (ha.exec e).2 j q hq hqc with ⟨data, hmem⟩ | hl
  · rcases List.mem_cons.mp hmem with rfl | hmem
    · -- the message is for this very slot, and the entry there is past its handshake
      right
      have hsend : h.sendDisconnect j data nowMs = h' := Option.some.inj hs
      subst hsend
      by_cases hopen : ∃ p, h.peer j = some p ∧ p.state ≠ .acknowledgingConnect
      · obtain ⟨p, hp, hst⟩ := hopen
        exact sendDisconnect_leaving hp hst data hq
      · have hack : ∀ p, h.peer j = some p → p.state = .acknowledgingConnect :=
          fun p hp => Classical.byContradiction fun hst => hopen ⟨p, hp, hst⟩
        rw [sendDisconnect_ignored] at hq
        · exact absurd (hack q hq) (hi.past k c j q hc hq hqc)
        · intro p hp hst
          rw [hack p hp] at hst
          rcases hst with hst | hst <;> cases hst
    · exact .inl ⟨data, hmem⟩
  · exact .inr hl

end HostTask

/-! ## §3. The promise of a handle. -/

/-- The senders belong to handles, and the connections that were asked to leave will. -/
structure Pledged (h : HostTask) (senders : List PeerSender) (asked : List Receiver)
    (queue : List ToTask) : Prop where
  given : Given h
  senders : ∀ s ∈ senders, IsHandle h s.key s.conn
  asked : ∀ c ∈ asked, (∃ k, IsHandle h k c) ∧ h.AskedToLeave c queue

namespace Pledged

variable {h h' : HostTask} {nowMs : U32} {senders : List PeerSender} {asked : List Receiver}
  {queue : List ToTask}

/-- Changes of the task, with the queue as it is. -/
theorem exec {C : Cond} (hi : Pledged h senders asked queue) (e : Exec nowMs C h h') :
    Pledged h' senders asked queue := by
  have hgiven : Given h' := e.invariant Given (fun _ _ hi hg _ => hi.label hg) hi.given
  have hhandle : ∀ {k c}, IsHandle h k c → IsHandle h' k c := fun {k c} hc =>
    e.invariant (IsHandle · k c) (fun _ _ hc hg _ => Given.isHandle_label hg hc) hc
  refine ⟨hgiven, fun s hs => hhandle (hi.senders s hs), fun c hc => ?_⟩
  obtain ⟨⟨k, hk⟩, hask⟩ := hi.asked c hc
  exact ⟨⟨k, hhandle hk⟩, hask.exec e⟩

/-- The task takes the next message. -/
theorem message {msg : ToTask} {connectId : U32}
    (hi : Pledged h senders asked (msg :: queue))
    (hs : h.step nowMs (msg.input connectId) = some h') : Pledged h' senders asked queue := by
  have hnext := hi.exec (HostTask.step_exec_true (i := (nowMs, msg.input connectId)) hs)
  refine ⟨hnext.given, hnext.senders, fun c hc => ?_⟩
  obtain ⟨⟨k, hk⟩, hask⟩ := hi.asked c hc
  exact ⟨(hnext.asked c hc).1, hask.message hi.given hk hs⟩

/-- A message is queued. -/
theorem post (hi : Pledged h senders asked queue) (msg : ToTask) :
    Pledged h senders asked (queue ++ [msg]) := by
  refine ⟨hi.given, hi.senders, fun c hc => ?_⟩
  obtain ⟨hk, hlt, hask⟩ := hi.asked c hc
  refine ⟨hk, hlt, fun k p hp hpc => (hask k p hp hpc).imp_left ?_⟩
  rintro ⟨data, hmem⟩
  exact ⟨data, List.mem_append_left _ hmem⟩

/-- A `ToTask::Disconnect` is queued: the slot number of a handle is the slot of its
connection, if that is still there. -/
theorem ask (hi : Pledged h senders asked queue) {s : PeerSender} (hs : s ∈ senders) (data : U32) :
    Pledged h senders (s.conn :: asked) (queue ++ [.disconnect s.key data]) := by
  have hpost := hi.post (.disconnect s.key data)
  refine ⟨hpost.given, hpost.senders, fun c hc => ?_⟩
  rcases List.mem_cons.mp hc with rfl | hc
  · have hk := hi.senders s hs
    refine ⟨⟨s.key, hk⟩, hi.given.owned.handle_lt _ _ hk, fun k p hp hpc => .inl ⟨data, ?_⟩⟩
    rw [hi.given.owned.handle s.key s.conn k p hk hp hpc]
    exact List.mem_append_right _ (List.mem_singleton.mpr rfl)
  · exact hpost.asked c hc

theorem trySend {messages : Mpsc ToTask} (hi : Pledged h senders asked messages.queue)
    (msg : ToTask) : Pledged h senders asked (messages.trySend msg).queue := by
  unfold Mpsc.trySend
  split
  · exact hi.post msg
  · exact hi

/-- The connection counts as asked only if the message found room. -/
theorem tryAsk {messages : Mpsc ToTask} (hi : Pledged h senders asked messages.queue)
    {s : PeerSender} (hs : s ∈ senders) (data : U32) :
    Pledged h senders (if messages.hasRoom then s.conn :: asked else asked)
      (messages.trySend (.disconnect s.key data)).queue := by
  unfold Mpsc.trySend
  split
  · exact hi.ask hs data
  · exact hi

/-- The application gets a handle. -/
theorem handOver (hi : Pledged h senders asked queue) {key : PeerKey} {rx : Receiver}
    (hrx : IsHandle h key rx) : Pledged h (senders ++ [⟨key, rx⟩]) asked queue := by
  refine ⟨hi.given, fun s hs => ?_, hi.asked⟩
  rcases List.mem_append.mp hs with hs | hs
  · exact hi.senders s hs
  · rw [List.mem_singleton.mp hs]
    exact hrx

theorem erase (hi : Pledged h senders asked queue) (s : PeerSender) :
    Pledged h (senders.erase s) asked queue :=
  ⟨hi.given, fun s' hs => hi.senders s' (List.mem_of_mem_erase hs), hi.asked⟩

end Pledged

namespace HostTask

/-- The reply to a `connect` call holds a handle. -/
theorem isHandle_of_answer {h : HostTask} {reply : ConnectReplySender} {key : PeerKey}
    {rx : Receiver} (hans : h.answer reply = some (key, rx)) : IsHandle h key rx := by
  obtain ⟨ev, hev, hsome⟩ := List.exists_of_findSome?_eq_some hans
  right
  split at hsome
  · next reply' key' conn =>
    split at hsome
    · cases hsome
      exact ⟨reply', hev⟩
    · cases hsome
  · cases hsome

end HostTask

/-! ## §4. The endpoint. -/

namespace Endpoint

open HostTask

variable {e e' : Endpoint} {nowMs : U32}

/-- The promise, for the handles and the queue of an endpoint whose task runs. -/
def Keeps (e : Endpoint) : Prop :=
  e.running = true → Pledged e.task e.senders e.asked e.messages.queue

theorem Keeps.starts (hs : Starts e) : e.Keeps := by
  cases hs with
  | bind => exact fun _ => ⟨.new .., by simp [bind], by simp [bind]⟩
  | connect => exact fun _ => ⟨.new .., by simp [connect], by simp [connect]⟩

/-- What leaves the handles and the queue alone. -/
theorem Keeps.task (hk : e.Keeps) {a : Action} (hd : e.Does nowMs a e')
    (hsame : e'.running = true →
      e'.senders = e.senders ∧ e'.asked = e.asked ∧ e'.messages = e.messages) : e'.Keeps := by
  intro hr
  obtain ⟨hsenders, hasked, hqueue⟩ := hsame hr
  rw [hsenders, hasked, hqueue]
  obtain ⟨hrun, htask | ⟨i, hi⟩⟩ := hd.task hr
  · rw [htask]
    exact hk hrun
  · exact (hk hrun).exec (step_exec_true (i := (nowMs, i)) hi)

theorem turn_handles {i : Input} (hr : (e.turn nowMs i).running = true) :
    (e.turn nowMs i).senders = e.senders ∧ (e.turn nowMs i).asked = e.asked
      ∧ (e.turn nowMs i).messages = e.messages := by
  unfold turn at hr ⊢
  cases hs : e.task.step nowMs i with
  | some h' => exact ⟨rfl, rfl, rfl⟩
  | none =>
      rw [hs] at hr
      cases hr

theorem recv_handles {c : Receiver} (hrecv : e.recv c = some e') :
    e'.senders = e.senders ∧ e'.asked = e.asked ∧ e'.messages = e.messages := by
  unfold recv at hrecv
  split at hrecv
  · obtain ⟨msg, -, rfl⟩ := Option.map_eq_some_iff.mp hrecv
    exact ⟨rfl, rfl, rfl⟩
  · obtain ⟨p, -, rfl⟩ := Option.map_eq_some_iff.mp hrecv
    split <;> exact ⟨rfl, rfl, rfl⟩

/-- The task takes the next message. -/
theorem Keeps.message (hk : e.Keeps) {connectId : U32} {msg : ToTask} (hrun : e.running = true)
    (hmsg : e.messages.queue.head? = some msg) :
    ({ e with messages := e.messages.recv }.turn nowMs (msg.input connectId)).Keeps := by
  intro hr
  obtain ⟨hsenders, hasked, hqueue⟩ := turn_handles hr
  obtain ⟨-, hs⟩ := turn_task hr
  obtain ⟨rest, hrest⟩ := List.head?_eq_some_iff.mp hmsg
  have htail : e.messages.recv.queue = rest := by rw [Mpsc.recv, hrest, List.tail_cons]
  have hi := hk hrun
  rw [hrest] at hi
  rw [hsenders, hasked, hqueue, htail]
  exact hi.message hs

/-- **One action.** -/
theorem Keeps.does (hk : e.Keeps) {a : Action} (hd : e.Does nowMs a e') : e'.Keeps := by
  have hsame := hk.task hd
  cases hd with
  | datagram | tick => exact hsame turn_handles
  | message connectId msg hrun hmsg => exact hk.message hrun hmsg
  | stop =>
      intro hr
      cases hr
  | accept key rx hqueued =>
      intro hr
      have hi := hk hr
      have hrx := hi.given.queued (key, rx) (List.mem_of_mem_head? hqueued)
      exact (hi.handOver hrx).exec (step_exec_true (i := (nowMs, .appAccept)) (h := e.task) rfl)
  | connected reply key rx hans =>
      intro hr
      exact ((hk hr).handOver (isHandle_of_answer hans)).exec
        (step_exec_true (i := (nowMs, .appClose)) (h := e.task) rfl)
  | timeout | dropReceiver | dropHost => exact hsame fun _ => ⟨rfl, rfl, rfl⟩
  | sendPacket s pkt => exact fun hr => (hk hr).trySend _
  | disconnect s data hs => exact fun hr => (hk hr).tryAsk hs data
  | dropSender s hs => exact fun hr => ((hk hr).tryAsk hs 0).erase s
  | recv c _ hrecv => exact hsame fun _ => recv_handles hrecv

/-- **Dropping a `PeerSender`, or calling `disconnect` on it, ends its connection.**  In
every run whose task has not ended: if the message of the handle was queued, then the
entry of the connection is gone, or it is leaving, or the message for its slot still
waits in the queue. -/
theorem asked_leave {e₀ e : Endpoint} (hstart : Starts e₀) (as : List (U32 × Action))
    (hrun : e₀.run as = some e) (hr : e.running = true) {c : Receiver} (hc : c ∈ e.asked)
    {k : PeerKey} {p : PeerEntry} (hk : e.task.slotOf c = some k) (hp : e.task.peer k = some p) :
    (∃ data, .disconnect k data ∈ e.messages.queue) ∨ p.Leaving := by
  have hi : e.Keeps := Transition.run_invariant (I := Keeps)
    (fun _ _ _ hk hstep => hk.does (does_of_step hstep)) as e₀ e (.starts hstart) hrun
  obtain ⟨-, -, hask⟩ := (hi hr).asked c hc
  obtain ⟨q, hq, hqc⟩ := (slotOf_eq_some_iff (hi hr).given.owned).mp hk
  cases hp.symm.trans hq
  exact hask k p hp hqc

/-- Alice connects and is accepted; the application drops its sender, and the task
takes the message. -/
def aliceIsDropped : List (U32 × Action) :=
  [(10, .datagram (connectDatagram 77 2 1392) alice),
   (20, .datagram (peerDatagram 0 9 [ack channelIdConnection 1 10]) alice), (30, .accept),
   (40, .dropSender ⟨0, 1⟩), (50, .message 0)]

theorem asked_leave_aliceIsDropped :
    ∃ e p, (Endpoint.bind 4 false 0 0).run aliceIsDropped = some e ∧ e.running = true
      ∧ e.asked = [1] ∧ e.messages.queue = [] ∧ e.task.peer 0 = some p ∧ p.Leaving := by
  have hrun : ((Endpoint.bind 4 false 0 0).run aliceIsDropped).any (fun e =>
      e.running && decide (e.asked = [1]) && decide (e.messages.queue = [])
        && decide (e.task.slotOf 1 = some 0) && (e.task.peer 0).isSome) = true := by
    decide +kernel
  obtain ⟨e, he, hfacts⟩ := (Option.any_eq_true _ _).mp hrun
  simp only [Bool.and_eq_true, decide_eq_true_eq] at hfacts
  obtain ⟨⟨⟨⟨hr, hasked⟩, hempty⟩, hk⟩, hsome⟩ := hfacts
  obtain ⟨p, hp⟩ := Option.isSome_iff_exists.mp hsome
  have hleave := asked_leave (.bind 4 false 0 0) aliceIsDropped he hr
    (hasked ▸ List.mem_singleton.mpr rfl) hk hp
  rw [hempty] at hleave
  refine ⟨e, p, he, hr, hasked, hempty, hp, hleave.resolve_left ?_⟩
  rintro ⟨data, hmem⟩
  cases hmem

end Endpoint

end EnetRs
