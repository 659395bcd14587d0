/-
  EnetRs.Safety.Establish — connection establishment on a server.

  `on_connect` evicts whatever entry the source address has, before it looks
  at the connect id.  A copy of a CONNECT that was already answered therefore
  tears down the connection it once opened, and a later ACK hands the same
  connection to the application a second time.  Establishment happens once in
  every run in which no CONNECT arrives again after its connection was
  accepted.
-/
import EnetRs.Exchange.Routing
import EnetRs.Safety.Address

namespace EnetRs

open MachineInt

/-! ## §1. What the application was given. -/

/-- The address and connect id of every connection handed to `accept_tx`. -/
def acceptedIds (trace : List Event) : List (SocketAddr × U32) :=
  trace.filterMap fun
    | .accepted _ _ addr connectId => some (addr, connectId)
    | _ => none

@[simp] theorem acceptedIds_append (t₁ t₂ : List Event) :
    acceptedIds (t₁ ++ t₂) = acceptedIds t₁ ++ acceptedIds t₂ := List.filterMap_append

/-- Only `accept` adds to the list. -/
theorem acceptedIds_events (ck : Bool) (k : PeerKey) (p : PeerEntry) (nowMs : U32) (o : PeerOp) :
    acceptedIds (o.events ck k p nowMs) = match o with
      | .accept _ => [(p.addr, p.connectId)]
      | _ => [] := by
  cases o with
  | verify hostMtu vc hdr =>
      simp only [PeerOp.events]
      split <;> rfl
  | _ => rfl

/-! ## §2. The invariant of server runs. -/

/-- What holds between the slots, the address map and the accepted list of a
host that only accepts connections. -/
structure ServerOk (h : HostTask) : Prop where
  owned : Owned h
  /-- An address has one entry at most: the one the map names. -/
  mapped : ∀ k p, h.peer k = some p → h.addrMap p.addr = some k
  /-- An entry is either in the handshake, with its receiver still here and not
  accepted yet, or past it, and accepted. -/
  phase : ∀ k p, h.peer k = some p →
    (p.state = .acknowledgingConnect ∧ p.toUserRx ≠ none
        ∧ (p.addr, p.connectId) ∉ acceptedIds h.trace)
      ∨ (p.state ≠ .acknowledgingConnect ∧ p.state ≠ .connecting
        ∧ (p.addr, p.connectId) ∈ acceptedIds h.trace)
  nodup : (acceptedIds h.trace).Nodup

namespace ServerOk

variable {h : HostTask} {nowMs : U32}

theorem new (acceptCapacity maxPeers : Nat) (useChecksum : Bool)
    (incomingBandwidth outgoingBandwidth : U32) :
    ServerOk (HostTask.new acceptCapacity maxPeers useChecksum incomingBandwidth
      outgoingBandwidth) := by
  exact
    { owned := Owned.new _ _ _ _ _
      mapped := by simp
      phase := by simp
      nodup := List.nodup_nil }

theorem toMapped (hok : ServerOk h) : Mapped h := ⟨hok.owned, hok.mapped⟩

/-- The phase of the entry after an operation, given the accepted list before
and after it. -/
theorem phase_op {k : PeerKey} {p : PeerEntry} {o : PeerOp} (hok : ServerOk h)
    (hp : h.peer k = some p) (hg : o.Guard h p) :
    let q := o.apply nowMs p
    let ids := acceptedIds ((Label.op k o).apply nowMs h).trace
    (q.state = .acknowledgingConnect ∧ q.toUserRx ≠ none ∧ (q.addr, q.connectId) ∉ ids)
      ∨ (q.state ≠ .acknowledgingConnect ∧ q.state ≠ .connecting
        ∧ (q.addr, q.connectId) ∈ ids) := by
  have hsame := PeerOp.sameConnection nowMs p o
  have hids : acceptedIds ((Label.op k o).apply nowMs h).trace
      = acceptedIds h.trace ++ acceptedIds (o.events h.useChecksum k p nowMs) := by
    rw [Label.trace_apply_op hp, acceptedIds_append]
  simp only [hids, hsame.addr, hsame.connectId]
  have hphase := hok.phase k p hp
  by_cases hlife : o.Lifecycle
  · cases o with
    | accept rx =>
        right
        rw [acceptedIds_events]
        exact ⟨by simp [PeerOp.apply], by simp [PeerOp.apply], by simp⟩
    | establish =>
        -- the receiver is still there during the handshake
        rcases hphase with hacking | hpast
        · exact absurd hg.2 hacking.2.1
        · exact absurd hg.1 hpast.1
    | verify hostMtu vc hdr =>
        rcases hphase with hacking | hpast
        · rw [hg.2.1] at hacking
          cases hacking.1
        · exact absurd hg.2.1 hpast.2.1
    | deferDisconnect data =>
        rcases hphase with hacking | hpast
        · have hst := hg.1
          rw [hacking.1] at hst
          simp at hst
        · right
          rw [acceptedIds_events, List.append_nil]
          exact ⟨by simp [PeerOp.apply], by simp [PeerOp.apply], hpast.2.2⟩
    | beginDisconnect deferred =>
        have hst : p.state ≠ .acknowledgingConnect := by
          cases deferred with
          | false => rcases hg.1 with hst | hst <;> simp [hst]
          | true =>
              obtain ⟨d, hst⟩ := hg.1
              simp [hst]
        rcases hphase with hacking | hpast
        · exact absurd hacking.1 hst
        · right
          rw [acceptedIds_events, List.append_nil]
          exact ⟨by simp [PeerOp.apply], by simp [PeerOp.apply], hpast.2.2⟩
    | _ => exact hlife.elim
  · have hkeep := PeerOp.samePhase nowMs p hlife
    have hnone : acceptedIds (o.events h.useChecksum k p nowMs) = [] := by
      rw [acceptedIds_events]
      cases o with
      | accept rx => exact absurd trivial hlife
      | _ => rfl
    rw [hkeep.state, hkeep.rx, hnone, List.append_nil]
    exact hphase

theorem op {k : PeerKey} {p : PeerEntry} {o : PeerOp} (hok : ServerOk h) (hp : h.peer k = some p)
    (hg : o.Guard h p) : ServerOk ((Label.op k o).apply nowMs h) := by
  have hids : acceptedIds ((Label.op k o).apply nowMs h).trace
      = acceptedIds h.trace ++ acceptedIds (o.events h.useChecksum k p nowMs) := by
    rw [Label.trace_apply_op hp, acceptedIds_append]
  -- what is accepted now, if anything, is this very entry, and it was in the handshake
  have hnew : ∀ x ∈ acceptedIds (o.events h.useChecksum k p nowMs),
      x = (p.addr, p.connectId) ∧ x ∉ acceptedIds h.trace := by
    intro x hx
    rw [acceptedIds_events] at hx
    cases o with
    | accept rx =>
        obtain rfl := List.mem_singleton.mp hx
        rcases hok.phase k p hp with hacking | hpast
        · exact ⟨rfl, hacking.2.2⟩
        · exact absurd hg.2.1 hpast.1
    | _ => cases hx
  refine ⟨hok.owned.op hp hg, (hok.toMapped.op hp hg).mapped, ?_, ?_⟩
  · intro j q hq
    rw [Label.peer_apply_op hp] at hq
    split at hq
    · cases hq
      exact hok.phase_op hp hg
    · next hjk =>
      rw [hids]
      refine (hok.phase j q hq).imp (fun hq' => ⟨hq'.1, hq'.2.1, ?_⟩) fun hq' =>
        ⟨hq'.1, hq'.2.1, List.mem_append_left _ hq'.2.2⟩
      rw [List.mem_append, not_or]
      refine ⟨hq'.2.2, fun hmem => hjk ?_⟩
      exact hok.toMapped.addr_inj hq hp (congrArg Prod.fst (hnew _ hmem).1)
  · rw [hids, List.nodup_append]
    refine ⟨hok.nodup, ?_, ?_⟩
    · rw [acceptedIds_events]
      cases o <;> simp
    · intro a ha b hb hab
      exact (hnew b hb).2 (hab ▸ ha)

theorem remove {k : PeerKey} {p : PeerEntry} (hok : ServerOk h) (hp : h.peer k = some p) :
    ServerOk ((Label.remove k).apply nowMs h) := by
  refine ⟨hok.owned.remove hp, (hok.toMapped.remove hp).mapped, fun j q hq => ?_, hok.nodup⟩
  rw [Label.peer_apply_remove] at hq
  split at hq
  · cases hq
  · exact hok.phase j q hq

/-- A new server entry, for an address that has none and for a connection that
was never accepted. -/
theorem install {slot : PeerKey} {c : ConnectCmd} {hdr : CommandHeader} {src : SocketAddr}
    (hok : ServerOk h) (hs : h.allocSlot = some slot) (hfree : h.addrMap src = none)
    (hfresh : (src, c.connectId) ∉ acceptedIds h.trace) :
    ServerOk ((Label.install slot (h.serverHandshake slot c hdr src nowMs).1).apply nowMs h) := by
  have hnew : IsNewEntry h slot nowMs (h.serverHandshake slot c hdr src nowMs).1 :=
    .inr ⟨c, hdr, src, rfl⟩
  have hmapped := hok.toMapped.install ⟨hs, hnew⟩ fun j q hq => hok.toMapped.addr_ne hfree hq
  refine ⟨hmapped.owned, hmapped.mapped, fun j q hq => ?_, hok.nodup⟩
  rw [Label.peer_apply_install hs] at hq
  split at hq
  · cases hq
    exact .inl ⟨rfl, by rw [hnew.conn.2]; simp, hfresh⟩
  · exact hok.phase j q hq

theorem raw {c : ConnectCmd} {addr : SocketAddr} (hok : ServerOk h)
    (hg : (Label.raw c addr).Guard nowMs h) : ServerOk ((Label.raw c addr).apply nowMs h) := by
  have hids : acceptedIds ((Label.raw c addr).apply nowMs h).trace = acceptedIds h.trace := by
    simp [Label.apply, HostTask.sendRawDisconnect, acceptedIds]
  exact
    { owned := hok.owned.label hg
      mapped := hok.mapped
      phase := fun k p hp => by rw [hids]; exact hok.phase k p hp
      nodup := by rw [hids]; exact hok.nodup }

end ServerOk

/-! ## §3. CONNECT arrives. -/

namespace HostTask

variable {h : HostTask}

/-- Connection `conn` has no entry any more, and event `e` has happened. -/
def Gone (conn : Nat) (e : Event) (h : HostTask) : Prop :=
  (∀ k, h.Absent k conn) ∧ e ∈ h.trace

/-- A connection that is gone stays gone. -/
theorem Gone.label {conn : Nat} {e : Event} {nowMs : U32} {l : Label} (hgone : Gone conn e h)
    (hg : l.Guard nowMs h) : Gone conn e (l.apply nowMs h) := by
  obtain ⟨habs, hmem⟩ := hgone
  refine ⟨fun k => (habs k).label hg, ?_⟩
  cases l with
  | op k o =>
      obtain ⟨p, hp, _⟩ := hg
      rw [Label.trace_apply_op hp]
      exact List.mem_append_left _ hmem
  | raw c addr => exact List.mem_append_left _ hmem
  | _ => exact hmem

/-- **`on_connect` always evicts**: whatever the connect id, the entry of the
source address is gone afterwards and its application was sent a disconnect event. -/
theorem onConnect_evicts {k : PeerKey} {p : PeerEntry} (ho : Owned h) (c : ConnectCmd)
    (hdr : CommandHeader) (sentTime : Option U16) (src : SocketAddr) (nowMs : U32)
    (hk : h.addrMap src = some k) (hp : h.peer k = some p) :
    Gone p.conn (.disconnected p.conn none p.toUser.hasRoom)
      (h.onConnect c hdr sentTime src nowMs) := by
  have hgone : Gone p.conn (.disconnected p.conn none p.toUser.hasRoom) (h.evictAddr src) := by
    refine ⟨evictAddr_absent ho hk hp, ?_⟩
    simp [evictAddr, hk, notifyDisconnect, hp]
  -- what follows the eviction cannot bring the old connection back
  exact (onConnect_exec_evicted h c hdr sentTime src nowMs).invariant (Gone p.conn _)
    (fun h₁ l hgone hg _ => hgone.label hg) hgone

theorem acceptedIds_evictAddr (h : HostTask) (src : SocketAddr) :
    acceptedIds (h.evictAddr src).trace = acceptedIds h.trace := by
  unfold evictAddr notifyDisconnect
  split
  · split <;> simp [acceptedIds]
  · rfl

end HostTask

namespace ServerOk

variable {h : HostTask} {nowMs : U32}

/-- **One command on a server.** -/
theorem dispatch {key : Option PeerKey} {sentTime : Option U16} {cmd : Command} {src : SocketAddr}
    (hok : ServerOk h)
    (hfresh : ∀ c, cmd.Connects c → (src, c.connectId) ∉ acceptedIds h.trace) :
    ServerOk (h.dispatch key sentTime cmd src nowMs) := by
  refine (HostTask.dispatch_exec nowMs h key sentTime cmd src).invariant ServerOk ?_ hok
  intro h₁ l hok₁ hg hl
  cases l with
  | op k o =>
      obtain ⟨p, hp, hg⟩ := hg
      exact hok₁.op hp hg
  | remove k =>
      obtain ⟨p, hp⟩ := hg
      exact hok₁.remove hp
  | install slot entry =>
      obtain ⟨c, hc, rfl, rfl⟩ := hl
      refine hok₁.install hg.1 (HostTask.addrMap_evictAddr hok.owned src) ?_
      rw [HostTask.acceptedIds_evictAddr]
      exact hfresh c hc
  | raw c addr => exact hok₁.raw hg
  | epoch => exact hl.elim
  | appAccept => exact hl.elim
  | appClose => exact hl.elim

end ServerOk

/-- The command is no CONNECT of a connection that was accepted before. -/
def ConnectFresh (h : HostTask) (_ : Option PeerKey) (src : SocketAddr) (cmd : Command) : Prop :=
  ∀ c, cmd.Connects c → (src, c.connectId) ∉ acceptedIds h.trace

instance (h : HostTask) (key : Option PeerKey) (src : SocketAddr) :
    (cmd : Command) → Decidable (ConnectFresh h key src cmd)
  | ⟨hdr, .connect c⟩ =>
      decidable_of_iff (hdr.commandType = cmdConnect → (src, c.connectId) ∉ acceptedIds h.trace)
        (by simp [ConnectFresh, Command.Connects])
  | ⟨_, .acknowledge _⟩ | ⟨_, .verifyConnect _⟩ | ⟨_, .disconnect _⟩ | ⟨_, .ping⟩
  | ⟨_, .sendReliable _⟩ | ⟨_, .sendUnreliable _ _⟩ | ⟨_, .sendFragment _⟩
  | ⟨_, .sendUnsequenced _ _⟩ | ⟨_, .bandwidthLimit _⟩ | ⟨_, .throttleConfigure _⟩
  | ⟨_, .sendUnreliableFragment _⟩ => isTrue (by simp [ConnectFresh, Command.Connects])

/-- No CONNECT of the input is a copy of an accepted one. -/
def ConnectsFresh (h : HostTask) (i : HostTask.Timed) : Prop :=
  HostTask.StepMeets ConnectFresh (fun _ _ _ => True) h i

instance (h : HostTask) (i : HostTask.Timed) : Decidable (ConnectsFresh h i) :=
  inferInstanceAs (Decidable (HostTask.StepMeets ConnectFresh (fun _ _ _ => True) h i))

/-- **One step of a server.** -/
theorem ServerOk.step {h h' : HostTask} {i : HostTask.Timed} (hok : ServerOk h)
    (hi : i.2.IsServer) (hfresh : ConnectsFresh h i) (hs : h.timedStep i = some h') :
    ServerOk h' := by
  obtain ⟨nowMs, i⟩ := i
  have hother : ∀ (h : HostTask) (l : Label), ServerOk h → l.Guard nowMs h →
      (∀ slot entry, l ≠ .install slot entry) → ServerOk (l.apply nowMs h) := by
    intro h l hok hg hl
    cases l with
    | op k o =>
        obtain ⟨p, hp, hg⟩ := hg
        exact hok.op hp hg
    | remove k =>
        obtain ⟨p, hp⟩ := hg
        exact hok.remove hp
    | install slot entry => exact absurd rfl (hl slot entry)
    | raw c addr => exact hok.raw hg
    | epoch => exact ⟨hok.owned.label hg, hok.mapped, hok.phase, hok.nodup⟩
    | appAccept => exact ⟨hok.owned.label hg, hok.mapped, hok.phase, hok.nodup⟩
    | appClose => exact ⟨hok.owned.label hg, hok.mapped, hok.phase, hok.nodup⟩
  refine HostTask.step_invariant_of_installs hother
    (fun h key sentTime cmd src hok hf => hok.dispatch hf) ?_ hfresh hok hs
  rintro addr channelCount data reply connectId rfl
  exact hi.elim

/-! ## §4. Establishment happens once. -/

/-- The disconnect events the application was sent. -/
def disconnectEvents (trace : List Event) : List Event :=
  trace.filter fun
    | .disconnected .. => true
    | _ => false

/-- A datagram that is one CONNECT, for a connection whose entry is Connected
already, leaves that entry as it is and sends no disconnect event. -/
def ConnectHarmless (h h' : HostTask) (i : HostTask.Timed) : Prop :=
  ∀ raw src a cmd c k p, i.2 = .datagram raw src → h.acceptDatagram raw src = some a →
    a.cmds = [cmd] → cmd.Connects c → h.peer k = some p → p.addr = src →
    p.connectId = c.connectId → p.state = .connected →
    h'.peer k = some p ∧ disconnectEvents h'.trace = disconnectEvents h.trace

namespace HostTask

/-- **Establishment is idempotent** in every server run in which no CONNECT
arrives again after its connection was accepted: at every point of the run each
connection has been accepted at most once, and the next step does no harm to a
connection that is established. -/
theorem establishes_once (acceptCapacity maxPeers : Nat) (useChecksum : Bool) (ib ob : U32)
    (is : List Timed) (hserver : ∀ i ∈ is, i.2.IsServer)
    (hfresh : Transition.Meets timedStep ConnectsFresh
      (HostTask.new acceptCapacity maxPeers useChecksum ib ob) is)
    (is₁ is₂ : List Timed) (his : is = is₁ ++ is₂) (h : HostTask)
    (hrun : (HostTask.new acceptCapacity maxPeers useChecksum ib ob).run is₁ = some h) :
    (acceptedIds h.trace).Nodup ∧
      ∀ i rest h', is₂ = i :: rest → h.timedStep i = some h' → ConnectHarmless h h' i := by
  subst his
  obtain ⟨hm₁, hm₂⟩ := hfresh.append
  have hok : ServerOk h := by
    have hboth := hm₁.and_forall (D := fun i => i.2.IsServer) fun i hi =>
      hserver i (List.mem_append_left _ hi)
    exact Transition.run_invariant_of_meets
      (fun s i s' hok hc hs => hok.step hc.1 hc.2 hs) is₁ _ h (ServerOk.new _ _ _ _ _) hboth hrun
  refine ⟨hok.nodup, ?_⟩
  rintro i rest h' rfl hs raw src a cmd c k p hi hacc hcmds hc hp rfl hid hst
  -- a Connected entry is an accepted one, so such a CONNECT is excluded
  obtain ⟨nowMs, i⟩ := i
  cases hi
  have hmeet : CommandsMeet _ _ _ _ _ h a.cmds := (hm₂ h hrun).1 a hacc
  rw [hcmds] at hmeet
  have hnot : (p.addr, c.connectId) ∉ acceptedIds h.trace := hmeet.1 c hc
  rcases hok.phase k p hp with hacking | hpast
  · rw [hst] at hacking
    cases hacking.1
  · exact absurd (hid ▸ hpast.2.2) hnot

/-- Alice's handshake, with her CONNECT delivered twice before the ACK. -/
theorem establishes_once_alice :
    ∃ h, (HostTask.new 64 4 false 0 0).run
        ((5, .datagram (connectDatagram 77 2 1392) alice) :: aliceConnects 10) = some h
      ∧ acceptedIds h.trace = [(alice, 77)] ∧ (acceptedIds h.trace).Nodup := by
  have hrun : ((HostTask.new 64 4 false 0 0).run
      ((5, .datagram (connectDatagram 77 2 1392) alice) :: aliceConnects 10)).any
      (fun h => decide (acceptedIds h.trace = [(alice, 77)])) = true := by decide +kernel
  obtain ⟨h, hh, hids⟩ := (Option.any_eq_true _ _).mp hrun
  have hfresh : Transition.Meets timedStep ConnectsFresh (HostTask.new 64 4 false 0 0)
      ((5, .datagram (connectDatagram 77 2 1392) alice) :: aliceConnects 10) := by decide +kernel
  refine ⟨h, hh, by simpa using hids, (establishes_once 64 4 false 0 0 _ ?_ hfresh _ []
    (by simp) h hh).1⟩
  simp [aliceConnects, Input.IsServer]

/-- **A copy of Alice's CONNECT undoes her connection**: the Connected entry in
slot 0 is replaced, and the next ACK hands the same connection over a second time. -/
theorem duplicate_connect_accepted_twice :
    ∃ h h' h'', (bind 4 false 0 0).run (aliceConnects 10) = some h
      ∧ h.timedStep (30, .datagram (connectDatagram 77 2 1392) alice) = some h'
      ∧ ¬ ConnectHarmless h h' (30, .datagram (connectDatagram 77 2 1392) alice)
      ∧ (bind 4 false 0 0).run (aliceConnects 10 ++ aliceConnects 30) = some h''
      ∧ ¬ (acceptedIds h''.trace).Nodup := by
  have hrun : ((bind 4 false 0 0).run (aliceConnects 10)).any (fun h =>
      (h.peer 0).any (fun p => decide (p.addr = alice ∧ p.connectId = 77 ∧ p.state = .connected))
        && ((h.onDatagram (connectDatagram 77 2 1392) alice 30).peer 0).any (fun p =>
          decide (p.state = .acknowledgingConnect))
        && !h.useChecksum) = true := by decide +kernel
  have htwice : ((bind 4 false 0 0).run (aliceConnects 10 ++ aliceConnects 30)).any (fun h =>
      decide (acceptedIds h.trace = [(alice, 77), (alice, 77)])) = true := by decide +kernel
  obtain ⟨h, hh, hrest⟩ := (Option.any_eq_true _ _).mp hrun
  obtain ⟨h'', hh'', hids⟩ := (Option.any_eq_true _ _).mp htwice
  simp only [Bool.and_eq_true, Option.any_eq_true, decide_eq_true_eq, Bool.not_eq_true']
    at hrest hids
  obtain ⟨⟨⟨p, hp, hpa, hpid, hpst⟩, q, hq, hqst⟩, hck⟩ := hrest
  refine ⟨h, _, h'', hh, rfl, fun hharm => ?_, hh'', by rw [hids]; decide⟩
  have htype : (handshakeHeader cmdConnect).commandType = cmdConnect := by decide
  have hkeep := (hharm _ alice _ _ firstConnect 0 p rfl (acceptDatagram_connect hck alice) rfl
    ⟨htype, rfl⟩ hp hpa hpid hpst).1
  cases hq.symm.trans hkeep
  rw [hpst] at hqst
  cases hqst

end HostTask

end EnetRs
