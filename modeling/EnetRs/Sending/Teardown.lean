/-
  EnetRs.Sending.Teardown — the disconnect state machine.

  `on_ack` finds out that a disconnect is complete by looking at an empty
  queue, so everything rests on what a Disconnecting entry still has
  outstanding.  `Phase` says it, state by state, together with the disconnect
  request that brought the entry there; it is kept by every change of the task,
  the ACKs and the disconnects taken as a whole.

  Main results:
    * `Teardown.step`, `Teardown.run` — the invariant, along a run.
    * `After.op` — an entry that is leaving stays so, and creates nothing but
      its CMD_DISCONNECT.
    * `HostTask.disconnect_state_machine` — the state machine as a whole.
-/
import EnetRs.Host.Outstanding
import EnetRs.Sending.Disconnect

namespace EnetRs

open MachineInt

/-! ## §1. The commands an operation creates. -/

/-- `q` comes from `p` and records more: the commands created meanwhile are of
the types in `T`. -/
def CreatesOnly (T : U8 → Prop) (p q : PeerEntry) : Prop :=
  ∃ es, q.history = p.history ++ es ∧ ∀ ty ch seq fresh, .create ty ch seq fresh ∈ es → T ty

namespace CreatesOnly

variable {T T' : U8 → Prop} {p q r : PeerEntry}

theorem of_same (hh : q.history = p.history) : CreatesOnly T p q :=
  ⟨[], by rw [hh, List.append_nil], by simp⟩

theorem of_event {e : PeerEvent} (hh : q.history = p.history ++ [e])
    (he : ∀ ty ch seq fresh, e = .create ty ch seq fresh → T ty) : CreatesOnly T p q :=
  ⟨[e], hh, fun ty ch seq fresh hm => he ty ch seq fresh (List.mem_singleton.mp hm).symm⟩

theorem of_delivers (hh : ∃ pkts : List Packet, q.history = p.history ++ pkts.map .deliver) :
    CreatesOnly T p q := by
  obtain ⟨pkts, hh⟩ := hh
  exact ⟨_, hh, by simp⟩

theorem trans (hpq : CreatesOnly T p q) (hqr : CreatesOnly T q r) : CreatesOnly T p r := by
  obtain ⟨es, hes, hT⟩ := hpq
  obtain ⟨fs, hfs, hT'⟩ := hqr
  refine ⟨es ++ fs, by rw [hfs, hes, List.append_assoc], fun ty ch seq fresh hm => ?_⟩
  exact (List.mem_append.mp hm).elim (hT ty ch seq fresh) (hT' ty ch seq fresh)

theorem mono (himp : ∀ ty, T ty → T' ty) (hpq : CreatesOnly T p q) : CreatesOnly T' p q := by
  obtain ⟨es, hes, hT⟩ := hpq
  exact ⟨es, hes, fun ty ch seq fresh hm => himp ty (hT ty ch seq fresh hm)⟩

theorem track (p : PeerEntry) (ch : U8) (seq : U16) {ty : U8} (cmd : Bytes) (nowMs : U32)
    (hty : T ty) : CreatesOnly T p (p.track ch seq ty cmd nowMs) := by
  refine of_event rfl fun _ _ _ _ heq => ?_
  cases heq
  exact hty

theorem fragmentLoop (hT : T cmdSendFragment) (ch : U8) (startSeq : U16) (fp : Nat) (data : Bytes)
    (nowMs : U32) (n i : Nat) (p : PeerEntry) :
    CreatesOnly T p (PeerEntry.fragmentLoop ch startSeq fp data nowMs n i p).1 :=
  PeerEntry.fragmentLoop_rel (R := CreatesOnly T) (fun _ => of_same rfl) trans
    (fun p => of_same (PeerEntry.nextReliableSeq_history p ch))
    (fun p seq cmd => track p ch seq cmd nowMs hT) startSeq fp data n i p

end CreatesOnly

/-- **The commands an operation creates**: data, for a Connected peer, or the
one it is there for. -/
theorem PeerOp.created {h : HostTask} {p : PeerEntry} {o : PeerOp} (nowMs : U32)
    (hg : o.Guard h p) :
    CreatesOnly (fun ty => (p.state = .connected ∧ ty ≠ cmdDisconnect)
      ∨ ∃ body, o = .connectionCmd ty body) p (o.apply nowMs p) := by
  cases o with
  | numberWhole pkt =>
      obtain ⟨c, hsend, -⟩ := hg
      have htake : (p.takeSeq pkt.channel).1.history = p.history :=
        PeerEntry.takeSeq_history p pkt.channel
      refine (CreatesOnly.of_same htake).trans (.trans (.track _ pkt.channel
        (p.takeSeq pkt.channel).2 (encodeCommand cmdSendReliable (commandFlagAcknowledge ||| 0)
          pkt.channel (p.takeSeq pkt.channel).2 (be16 (BitVec.ofNat 16 pkt.data.length) ++ pkt.data))
        nowMs (.inl ⟨hsend.1, (by decide : cmdSendReliable ≠ cmdDisconnect)⟩)) ?_)
      exact .of_event rfl (by simp)
  | numberFragments pkt fp =>
      obtain ⟨c, hsend, -⟩ := hg
      refine (CreatesOnly.of_same (PeerEntry.nextReliableSeq_history p pkt.channel)).trans
        (.trans (.fragmentLoop (.inl ⟨hsend.1, (by decide : cmdSendFragment ≠ cmdDisconnect)⟩)
          pkt.channel (p.nextReliableSeq pkt.channel).2 fp pkt.data nowMs (fragCount fp pkt.data) 0 _)
          ?_)
      exact .of_event rfl (by simp)
  | connectionCmd cmdType body =>
      refine .of_event rfl fun ty ch seq fresh heq => ?_
      cases heq
      exact .inr ⟨body, rfl⟩
  | recvReliable ch seq data => exact .of_delivers (PeerEntry.onSendReliable_delivers ch seq data nowMs)
  | recvUnreliable ch rseq useq data =>
      exact .of_delivers (PeerEntry.onSendUnreliable_delivers ch rseq useq data nowMs)
  | recvFragment ch sf reliable =>
      exact .of_delivers (PeerEntry.onFragment_delivers ch sf reliable nowMs)
  | recvUnsequenced group data =>
      exact .of_delivers (PeerEntry.onSendUnsequenced_delivers group data nowMs)
  | ack ch a => exact .of_event (PeerEntry.applyAck_eq p ch a nowMs).2 (by simp)
  | submit pkt => exact .of_event rfl (by simp)
  | take ch seq => exact .of_event rfl (by simp)
  | queue pkt =>
      refine .of_same ?_
      simp only [apply, PeerEntry.queuePending]
      split <;> rfl
  | recvBandwidthLimit bl =>
      refine .of_same ?_
      simp only [apply, PeerEntry.onBandwidthLimit]
      split <;> rfl
  | _ => exact .of_same rfl

/-! ## §2. Requests, and the phases of an entry. -/

/-- What the input adds to the disconnect requests the task has accepted: the
connection and the data, when the entry is in a state `send_disconnect` acts on. -/
def HostTask.acceptedRequest (h : HostTask) : Input → List (Nat × U32)
  | .disconnect key data =>
      match h.peer key with
      | some p => if p.state = .connecting ∨ p.state = .connected then [(p.conn, data)] else []
      | none => []
  | _ => []

/-- The disconnect requests accepted along a run, the first one first. -/
def HostTask.requests : HostTask → List HostTask.Timed → List (Nat × U32)
  | _, [] => []
  | h, i :: is =>
      h.acceptedRequest i.2 ++
        match h.timedStep i with
        | some h' => HostTask.requests h' is
        | none => []

/-- The data of the requests for one connection. -/
def requestsOf (reqs : List (Nat × U32)) (conn : Nat) : List U32 :=
  (reqs.filter fun x => x.1 == conn).map (·.2)

/-- The numbers under which CMD_DISCONNECT was created. -/
def disconnects (hist : List PeerEvent) : List (U8 × U16) :=
  hist.filterMap fun e =>
    match e with
    | .create ty ch seq _ => if ty = cmdDisconnect then some (ch, seq) else none
    | _ => none

/-- The CMD_DISCONNECT command that carries `data`, under the number `seq`. -/
def disconnectCommand (seq : U16) (data : U32) : Bytes :=
  encodeCommand cmdDisconnect commandFlagAcknowledge channelIdConnection seq (be32 data)

theorem CreatesOnly.disconnects_eq {p q : PeerEntry} (hc : CreatesOnly (· ≠ cmdDisconnect) p q) :
    disconnects q.history = disconnects p.history := by
  obtain ⟨es, hes, hT⟩ := hc
  have hnone : disconnects es = [] := by
    refine List.filterMap_eq_nil_iff.mpr fun e he => ?_
    cases e with
    | create ty ch seq fresh => exact if_neg (hT ty ch seq fresh he)
    | _ => rfl
  rw [hes]
  simp only [disconnects, List.filterMap_append] at hnone ⊢
  rw [hnone, List.append_nil]

/-- The operations that are no part of a disconnect. -/
def PeerOp.Stays : PeerOp → Prop
  | .deferDisconnect _ | .beginDisconnect _ => False
  | _ => True

theorem PeerOp.Stays.of_plain {o : PeerOp} {k : PeerKey} (hpl : (Label.op k o).Plain) :
    o.Stays := by
  cases o with
  | deferDisconnect | beginDisconnect => exact hpl
  | _ => trivial

/-- **The phases of an entry.**  `reqs` are the requests accepted so far: none
for this connection before it leaves, and exactly one afterwards.  Once the
entry is Disconnecting, CMD_DISCONNECT with the data of that request is the one
command outstanding. -/
inductive Phase (reqs : List (Nat × U32)) (p : PeerEntry) : Prop
  | before (state : p.state = .connecting ∨ p.state = .acknowledgingConnect ∨ p.state = .connected)
      (requests : requestsOf reqs p.conn = []) (created : disconnects p.history = [])
  | later (data : U32) (state : p.state = .disconnectLater data)
      (requests : requestsOf reqs p.conn = [data]) (created : disconnects p.history = [])
  | sent (data : U32) (seq : U16) (r : OutstandingReliable) (state : p.state = .disconnecting)
      (requests : requestsOf reqs p.conn = [data])
      (created : disconnects p.history = [(channelIdConnection, seq)])
      (outgoing : p.outgoingReliable = (∅ : OutgoingReliable).insert (channelIdConnection, seq) r)
      (bytes : r.packetBytes = disconnectCommand seq data)

theorem toList_singleton (key : U8 × U16) (r : OutstandingReliable) :
    ((∅ : OutgoingReliable).insert key r).toList = [(key, r)] := by
  have hlen : ((∅ : OutgoingReliable).insert key r).toList.length = 1 := by
    simp [Std.ExtTreeMap.length_toList, Std.ExtTreeMap.size_insert]
  obtain ⟨e, he⟩ := List.length_eq_one_iff.mp hlen
  have hmem : (key, r) ∈ ((∅ : OutgoingReliable).insert key r).toList :=
    Std.ExtTreeMap.mem_toList_iff_getElem?_eq_some.mpr Std.ExtTreeMap.getElem?_insert_self
  rw [he] at hmem ⊢
  rw [List.mem_singleton.mp hmem]

theorem erase_singleton (key key' : U8 × U16) (r : OutstandingReliable) :
    ((∅ : OutgoingReliable).insert key r).erase key'
      = if key' = key then ∅ else (∅ : OutgoingReliable).insert key r := by
  refine Std.ExtTreeMap.ext_getElem? fun k => ?_
  split
  · next heq =>
    subst heq
    simp
  · next hne =>
    rw [Std.ExtTreeMap.getElem?_erase]
    split
    · next hcmp =>
      rw [← Std.LawfulEqCmp.eq_of_compare hcmp, Std.ExtTreeMap.getElem?_insert,
        if_neg fun hcmp' => hne (Std.LawfulEqCmp.eq_of_compare hcmp').symm]
      simp
    · rfl

/-- The loop over one outstanding command sends it again, or not. -/
theorem retransmitLoop_singleton (nowMs : U32) (key : U8 × U16) (r : OutstandingReliable) :
    ∃ r', ((retransmitLoop nowMs ((∅ : OutgoingReliable).insert key r).toList
        ((∅ : OutgoingReliable).insert key r)).2.1 = (∅ : OutgoingReliable).insert key r')
      ∧ r'.packetBytes = r.packetBytes := by
  have hself : ((∅ : OutgoingReliable).insert key r)[key]? = some r :=
    Std.ExtTreeMap.getElem?_insert_self
  rcases retransmitLoop_toList nowMs ((∅ : OutgoingReliable).insert key r) key with
    ⟨hnone, -⟩ | ⟨r₀, r', hr₀, hr', hres, -⟩
  · cases hself.symm.trans hnone
  · cases hself.symm.trans hr₀
    refine ⟨r', Std.ExtTreeMap.ext_getElem? fun k => ?_, ?_⟩
    · by_cases hk : k = key
      · subst hk
        rw [hr', Std.ExtTreeMap.getElem?_insert_self]
      · have hempty : ∀ s : OutstandingReliable, ((∅ : OutgoingReliable).insert key s)[k]? = none := by
          intro s
          rw [Std.ExtTreeMap.getElem?_insert,
            if_neg fun hcmp => hk (Std.LawfulEqCmp.eq_of_compare hcmp).symm]
          exact Std.ExtTreeMap.getElem?_empty
        rcases retransmitLoop_toList nowMs ((∅ : OutgoingReliable).insert key r) k with
          ⟨-, hnone⟩ | ⟨s, s', hs, -⟩
        · rw [hnone, hempty]
        · cases (hempty r).symm.trans hs
    · rcases hres with rfl | ⟨-, -, rfl⟩ <;> rfl

namespace Phase

variable {reqs : List (Nat × U32)} {p q : PeerEntry}

variable {h : HostTask} {k : PeerKey} {o : PeerOp} {nowMs : U32}

/-- The other operations move the state to Connected or not at all. -/
theorem state_of_stays (nowMs : U32) (hg : o.Guard h p) (ho : o.Stays) :
    (o.apply nowMs p).state = p.state
      ∨ (p.state = .connecting ∨ p.state = .acknowledgingConnect)
        ∧ (o.apply nowMs p).state = .connected := by
  by_cases hlife : o.Lifecycle
  · cases o with
    | accept rx => exact .inr ⟨.inr hg.2.1, rfl⟩
    | establish => exact .inr ⟨.inr hg.1, rfl⟩
    | verify hostMtu vc hdr => exact .inr ⟨.inl hg.2.1, rfl⟩
    | deferDisconnect | beginDisconnect => exact ho.elim
    | _ => exact hlife.elim
  · exact .inl (PeerOp.samePhase nowMs p hlife).state

/-- CMD_DISCONNECT is not created while anything is outstanding. -/
theorem creates_no_disconnect (nowMs : U32) (hg : o.Guard h p)
    (hout : p.state = .disconnecting → p.outgoingReliable.isEmpty = false) :
    CreatesOnly (· ≠ cmdDisconnect) p (o.apply nowMs p) := by
  refine (PeerOp.created nowMs hg).mono ?_
  rintro ty (⟨-, hty⟩ | ⟨body, rfl⟩)
  · exact hty
  · rcases hg.2 with ⟨rfl, -⟩ | ⟨-, hst, hempty⟩ | ⟨rfl, -⟩
    · decide
    · rw [hout hst] at hempty
      cases hempty
    · decide

/-- **A plain change keeps the phase.** -/
theorem op (hp : Phase reqs p) (hg : o.Guard h p) (hpl : (Label.op k o).Plain) :
    Phase reqs (o.apply nowMs p) := by
  have hconn := (PeerOp.sameConnection nowMs p o).conn
  have hstate := state_of_stays nowMs hg (.of_plain hpl)
  cases hp with
  | before state requests created =>
      have hcr := creates_no_disconnect nowMs hg fun hst => by simp [hst] at state
      refine .before ?_ (hconn ▸ requests) (hcr.disconnects_eq.trans created)
      rcases hstate with hsame | ⟨-, hnow⟩
      · exact hsame ▸ state
      · exact .inr (.inr hnow)
  | later data state requests created =>
      have hcr := creates_no_disconnect nowMs hg fun hst => by simp [hst] at state
      have hsame : (o.apply nowMs p).state = p.state :=
        hstate.resolve_right fun hc => by simp [state] at hc
      exact .later data (hsame.trans state) (hconn ▸ requests) (hcr.disconnects_eq.trans created)
  | sent data seq r state requests created outgoing bytes =>
      have hempty : p.outgoingReliable.isEmpty = false := by simp [outgoing]
      have hcr := (creates_no_disconnect nowMs hg fun _ => hempty).disconnects_eq.trans created
      have hsame : (o.apply nowMs p).state = .disconnecting :=
        (hstate.resolve_right fun hc => by simp [state] at hc).trans state
      obtain ⟨r', hout, hbytes⟩ : ∃ r', (o.apply nowMs p).outgoingReliable
          = (∅ : OutgoingReliable).insert (channelIdConnection, seq) r'
          ∧ r'.packetBytes = r.packetBytes := by
        by_cases ho : o.TouchesOutgoing
        · cases o with
          | ack => exact hpl.elim
          | verify hostMtu vc hdr => simp [PeerOp.Guard, state] at hg
          | connectionCmd cmdType body => simp [PeerOp.Guard, state, hempty] at hg
          | numberWhole pkt | numberFragments pkt fp =>
              obtain ⟨c, hsend, -⟩ := hg
              cases state.symm.trans hsend.1
          | retransmit =>
              have hloop := retransmitLoop_singleton nowMs (channelIdConnection, seq) r
              rw [← outgoing] at hloop
              exact hloop
          | _ => exact ho.elim
        · exact ⟨r, (PeerOp.outgoingReliable_apply ho nowMs p).trans outgoing, rfl⟩
      exact .sent data seq r' hsame (hconn ▸ requests) hcr hout (hbytes.trans bytes)

/-- A new entry. -/
theorem new {slot : PeerKey} {entry : PeerEntry} (hreqs : ∀ x ∈ reqs, x.1 < h.nextConn)
    (hn : IsNewEntry h slot nowMs entry) : Phase reqs entry := by
  obtain ⟨ty, hhist, hty⟩ := hn.starts.history
  refine .before ?_ ?_ ?_
  · exact hn.starts.state.imp_right .inl
  · have hnone : reqs.filter (fun x => x.1 == entry.conn) = [] := by
      refine List.filter_eq_nil_iff.mpr fun x hx heq => ?_
      rw [hn.conn.1, beq_iff_eq] at heq
      exact absurd heq (Nat.ne_of_lt (hreqs x hx))
    rw [requestsOf, hnone, List.map_nil]
  · rw [hhist]
    rcases hty with rfl | rfl <;> rfl

/-- An ACK that leaves the entry in place. -/
theorem ack (hp : Phase reqs p) (ch : U8) (a : AcknowledgeCmd) (nowMs : U32)
    (hkept : p.state = .disconnecting →
      (p.applyAck ch a nowMs).outgoingReliable.isEmpty = false) :
    Phase reqs (p.applyAck ch a nowMs) := by
  have hf := PeerEntry.applyAck_acked (p := p) ch a nowMs
  have hst : (p.applyAck ch a nowMs).state = p.state := hf.get (·.state)
  have hconn : (p.applyAck ch a nowMs).conn = p.conn := hf.get (·.conn)
  obtain ⟨hout, hhist⟩ := PeerEntry.applyAck_eq p ch a nowMs
  have hcr : disconnects (p.applyAck ch a nowMs).history = disconnects p.history :=
    (CreatesOnly.of_event hhist (by simp)).disconnects_eq
  cases hp with
  | before state requests created =>
      exact .before (hst ▸ state) (hconn ▸ requests) (hcr.trans created)
  | later data state requests created =>
      exact .later data (hst.trans state) (hconn ▸ requests) (hcr.trans created)
  | sent data seq r state requests created outgoing bytes =>
      refine .sent data seq r (hst.trans state) (hconn ▸ requests) (hcr.trans created) ?_ bytes
      -- had it been the one acknowledged, nothing would be left
      have hempty := hkept state
      rw [hout, outgoing, erase_singleton] at hempty ⊢
      refine if_neg fun heq => ?_
      rw [if_pos heq] at hempty
      simp at hempty

theorem unrequested (hp : Phase reqs p)
    (hst : p.state = .connecting ∨ p.state = .acknowledgingConnect ∨ p.state = .connected) :
    requestsOf reqs p.conn = [] ∧ disconnects p.history = [] := by
  cases hp with
  | before _ requests created => exact ⟨requests, created⟩
  | later data state => simp [state] at hst
  | sent data seq r state => simp [state] at hst

/-- The entry with the state turned to Disconnecting and CMD_DISCONNECT sent. -/
def disconnected (p : PeerEntry) (data : U32) (nowMs : U32) : PeerEntry :=
  { (PeerEntry.makeReliable { p with state := .disconnecting } channelIdConnection cmdDisconnect 0
      nowMs (be32 data)).1 with lastSendTime := nowMs }

theorem sendNow {data : U32} (hreq : requestsOf reqs p.conn = [data]) (hcr : disconnects p.history = [])
    (hempty : p.outgoingReliable.isEmpty = true) (nowMs : U32) :
    Phase reqs (disconnected p data nowMs) := by
  have hout : p.outgoingReliable = ∅ := Std.ExtTreeMap.isEmpty_iff.mp hempty
  refine .sent data (p.outgoingReliableSeq + 1) _ rfl hreq ?_
    (congrArg (fun m : OutgoingReliable => m.insert (channelIdConnection, _) _) hout) rfl
  show disconnects (p.history ++ [_]) = _
  simp only [disconnects, List.filterMap_append] at hcr ⊢
  rw [hcr]
  rfl

end Phase

/-! ## §3. The invariant. -/

/-- The slots after CMD_DISCONNECT was sent at once. -/
theorem HostTask.peer_disconnectNow {h : HostTask} {k : PeerKey} {p : PeerEntry}
    (hp : h.peer k = some p) (data : U32) (nowMs : U32) (j : PeerKey) :
    ((h.setPeer k { p with state := .disconnecting }).sendConnectionCmd k cmdDisconnect (be32 data)
      nowMs).peer j = if j = k then some (Phase.disconnected p data nowMs) else h.peer j := by
  have hself := peer_setPeer_self (q := { p with state := .disconnecting }) (lt_of_peer_eq_some hp)
  simp only [sendConnectionCmd, hself, setPeer_setPeer]
  rw [peer_emitByKey _ _ (by simp), peer_setPeer_self (lt_of_peer_eq_some hp), peer_setPeer hp]
  split
  · rfl
  · rfl

/-- What a request does that is accepted. -/
theorem HostTask.peer_sendDisconnect {h : HostTask} {k : PeerKey} {p : PeerEntry}
    (hp : h.peer k = some p) (hst : p.state = .connecting ∨ p.state = .connected) (data : U32)
    (nowMs : U32) (j : PeerKey) :
    (h.sendDisconnect k data nowMs).peer j =
      if j = k then
        if p.outgoingReliable.isEmpty then some (Phase.disconnected p data nowMs)
        else some { p with state := .disconnectLater data }
      else h.peer j := by
  have heq : h.sendDisconnect k data nowMs
      = if !p.outgoingReliable.isEmpty then h.setPeer k { p with state := .disconnectLater data }
        else (h.setPeer k { p with state := .disconnecting }).sendConnectionCmd k cmdDisconnect
          (be32 data) nowMs := by
    simp only [sendDisconnect, hp]
    rcases hst with hst | hst <;> rw [hst]
  rw [heq]
  cases p.outgoingReliable.isEmpty with
  | false => exact peer_setPeer hp j
  | true => exact peer_disconnectNow hp data nowMs j

/-- A request that is not accepted does nothing. -/
theorem HostTask.sendDisconnect_ignored {h : HostTask} {k : PeerKey}
    (hno : ∀ p, h.peer k = some p → ¬ (p.state = .connecting ∨ p.state = .connected)) (data : U32)
    (nowMs : U32) : h.sendDisconnect k data nowMs = h := by
  unfold sendDisconnect
  split
  · rfl
  · next p hp =>
    split
    · rfl
    · rfl
    · rfl
    · next hst => exact absurd (.inl hst) (hno p hp)
    · next hst => exact absurd (.inr hst) (hno p hp)

/-- The slots after an ACK. -/
theorem HostTask.peer_onAck {h : HostTask} {k : PeerKey} {p : PeerEntry} (hp : h.peer k = some p)
    (ch : U8) (a : AcknowledgeCmd) (nowMs : U32) :
    ∃ x : Option PeerEntry,
      (∀ j, (h.onAck k ch a nowMs).peer j = if j = k then x else h.peer j)
        ∧ (x = none ∧ (p.state = .acknowledgingConnect
              ∨ p.state = .disconnecting
                ∧ (p.applyAck ch a nowMs).outgoingReliable.isEmpty = true)
          ∨ x = some (p.applyAck ch a nowMs)
            ∧ (p.state = .disconnecting →
              (p.applyAck ch a nowMs).outgoingReliable.isEmpty = false)
          ∨ x = some { p.applyAck ch a nowMs with state := .connected, toUserRx := none }
            ∧ p.state = .acknowledgingConnect) := by
  have hst : (p.applyAck ch a nowMs).state = p.state :=
    (PeerEntry.applyAck_acked (p := p) ch a nowMs).get (·.state)
  simp only [onAck, hp]
  rw [← hst]
  generalize p.applyAck ch a nowMs = q
  have hset : ∀ (r : PeerEntry) j, (h.setPeer k r).peer j = if j = k then some r else h.peer j :=
    fun r j => peer_setPeer hp j
  have hgone : ∀ (r : PeerEntry) j, ((h.setPeer k r).removePeer k).peer j
      = if j = k then none else h.peer j := by
    intro r j
    rw [peer_removePeer]
    split
    · rfl
    · next hjk => rw [hset, if_neg hjk]
  split
  · next hdone =>
    have hconn := hset { q with state := .connected, toUserRx := none }
    split
    · exact ⟨_, hconn, .inr (.inr ⟨rfl, hdone.1⟩)⟩
    · split
      · exact ⟨_, hconn, .inr (.inr ⟨rfl, hdone.1⟩)⟩
      · exact ⟨none, hgone _, .inl ⟨rfl, .inl hdone.1⟩⟩
  · split
    · next hlast => exact ⟨none, hgone q, .inl ⟨rfl, .inr hlast⟩⟩
    · next hmore =>
      refine ⟨_, hset q, .inr (.inl ⟨rfl, fun hdisc => ?_⟩)⟩
      exact Bool.eq_false_iff.mpr fun hempty => hmore ⟨hdisc, hempty⟩

/-- **The invariant.**  `reqs` are the disconnect requests accepted so far. -/
structure Teardown (reqs : List (Nat × U32)) (h : HostTask) : Prop where
  owned : Owned h
  requests : ∀ x ∈ reqs, x.1 < h.nextConn
  phase : ∀ k p, h.peer k = some p → Phase reqs p

namespace Teardown

open HostTask

variable {reqs : List (Nat × U32)} {h h' : HostTask} {k : PeerKey} {p : PeerEntry} {nowMs : U32}

theorem label {l : Label} (ht : Teardown reqs h) (hg : l.Guard nowMs h) (hpl : l.Plain) :
    Teardown reqs (l.apply nowMs h) :=
  { owned := ht.owned.label hg
    requests := fun x hx => Nat.lt_of_lt_of_le (ht.requests x hx) (nextConn_le nowMs h l)
    phase := by
      refine Label.entries_at (I := fun _ p => Phase reqs p) hg ?_ ?_ ht.phase
      · exact fun slot entry _ hn => .new ht.requests hn
      · rintro j q o rfl - hq hgo
        exact hq.op hgo hpl }

/-- What is left to show of a change that is taken as a whole. -/
theorem of_exec {C : Cond} {reqs' : List (Nat × U32)} (ht : Teardown reqs h)
    (e : Exec nowMs C h h') (hreqs : ∀ x ∈ reqs', x.1 < h.nextConn)
    (hphase : ∀ j q, h'.peer j = some q → Phase reqs' q) : Teardown reqs' h' :=
  { owned := ht.owned.exec e
    requests := fun x hx => Nat.lt_of_lt_of_le (hreqs x hx) (nextConn_le_exec e)
    phase := hphase }

theorem onAck (ht : Teardown reqs h) (k : PeerKey) (ch : U8) (a : AcknowledgeCmd) (nowMs : U32) :
    Teardown reqs (h.onAck k ch a nowMs) := by
  have e : Exec nowMs (fun _ _ => True) h (h.onAck k ch a nowMs) :=
    onAck_exec ch a trivial (fun _ _ => trivial) (fun _ => trivial) fun _ => trivial
  refine ht.of_exec e ht.requests fun j q hq => ?_
  cases hp : h.peer k with
  | none =>
      simp only [HostTask.onAck, hp] at hq
      exact ht.phase j q hq
  | some p =>
      have hph := ht.phase k p hp
      obtain ⟨x, hx, hcases⟩ := peer_onAck hp ch a nowMs
      rw [hx] at hq
      split at hq
      · rcases hcases with ⟨rfl, -⟩ | ⟨rfl, hkept⟩ | ⟨rfl, hst⟩
        · cases hq
        · cases hq
          exact hph.ack ch a nowMs hkept
        · cases hq
          have hnot : p.state ≠ .disconnecting := by simp [hst]
          have hst' : (p.applyAck ch a nowMs).state = .acknowledgingConnect :=
            ((PeerEntry.applyAck_acked (p := p) ch a nowMs).get (·.state)).trans hst
          obtain ⟨hreq, hcr⟩ :=
            (hph.ack ch a nowMs fun hdisc => absurd hdisc hnot).unrequested (.inr (.inl hst'))
          exact .before (.inr (.inr rfl)) hreq hcr
      · exact ht.phase j q hq

/-- The deferred disconnect fires. -/
theorem fireDisconnect {data : U32} (ht : Teardown reqs h) (hp : h.peer k = some p)
    (hst : p.state = .disconnectLater data) (hempty : p.outgoingReliable.isEmpty = true) :
    Teardown reqs (h.fireDisconnect k data nowMs) := by
  have e : Exec nowMs (fun _ _ => True) h (h.fireDisconnect k data nowMs) := by
    rw [HostTask.fireDisconnect, updatePeer_of_some hp]
    exact disconnectNow_exec hp data true ⟨⟨data, hst⟩, hempty⟩ trivial fun _ _ _ _ _ => trivial
  refine ht.of_exec e ht.requests fun j q hq => ?_
  rw [HostTask.fireDisconnect, updatePeer_of_some hp, peer_disconnectNow hp] at hq
  split at hq
  · cases hq
    cases ht.phase k p hp with
    | before state => simp [hst] at state
    | later data' state requests created =>
        cases hst.symm.trans state
        exact .sendNow requests created hempty nowMs
    | sent data seq r state => cases hst.symm.trans state
  · exact ht.phase j q hq

/-- A request for one connection is none for the others. -/
theorem requestsOf_append_ne {conn c : Nat} (hne : c ≠ conn) (data : U32) :
    requestsOf (reqs ++ [(c, data)]) conn = requestsOf reqs conn := by
  simp [requestsOf, List.filter_append, hne]

/-- A request that is accepted. -/
theorem request {data : U32} (ht : Teardown reqs h) (hp : h.peer k = some p)
    (hst : p.state = .connecting ∨ p.state = .connected) :
    Teardown (reqs ++ [(p.conn, data)]) (h.sendDisconnect k data nowMs) := by
  have e : Exec nowMs (fun _ _ => True) h (h.sendDisconnect k data nowMs) :=
    sendDisconnect_exec data (fun _ _ _ _ _ => trivial) trivial trivial
  refine ht.of_exec e ?_ fun j q hq => ?_
  · intro x hx
    rcases List.mem_append.mp hx with hx | hx
    · exact ht.requests x hx
    · rw [List.mem_singleton.mp hx]
      exact ht.owned.lt k p hp
  obtain ⟨hnone, hcr⟩ := (ht.phase k p hp).unrequested (hst.imp_right .inr)
  have hone : requestsOf (reqs ++ [(p.conn, data)]) p.conn = [data] := by
    simp only [requestsOf, List.filter_append, List.map_append] at hnone ⊢
    rw [hnone]
    simp
  have hother : ∀ j q, j ≠ k → h.peer j = some q → Phase (reqs ++ [(p.conn, data)]) q := by
    intro j q hjk hq
    have hne : p.conn ≠ q.conn := fun heq => hjk (ht.owned.inj k j p q hp hq heq).symm
    cases ht.phase j q hq with
    | before state requests created =>
        exact .before state ((requestsOf_append_ne hne data).trans requests) created
    | later data' state requests created =>
        exact .later data' state ((requestsOf_append_ne hne data).trans requests) created
    | sent data' seq r state requests created outgoing bytes =>
        exact .sent data' seq r state ((requestsOf_append_ne hne data).trans requests) created
          outgoing bytes
  rw [peer_sendDisconnect hp hst] at hq
  split at hq
  · split at hq
    · next hempty =>
      cases hq
      exact .sendNow hone hcr hempty nowMs
    · cases hq
      exact .later data rfl hone hcr
  · next hjk => exact hother j q hjk hq

/-- **One step.** -/
theorem step {i : Timed} (ht : Teardown reqs h) (hs : h.timedStep i = some h') :
    Teardown (reqs ++ h.acceptedRequest i.2) h' := by
  obtain ⟨t, i⟩ := i
  have hother : (∀ key data, i = .disconnect key data → h.sendDisconnect key data t = h) →
      h.acceptedRequest i = [] → Teardown (reqs ++ h.acceptedRequest i) h' := by
    intro hsame hnone
    rw [hnone, List.append_nil]
    change h.step t i = some h' at hs
    refine step_invariant_of_plain ?_ ?_ ?_ i ?_ ht hs
    · exact fun h l ht hg hpl => ht.label hg hpl
    · exact fun h k ch a ht => ht.onAck k ch a t
    · exact fun h k p data ht hp hst hempty => ht.fireDisconnect hp hst hempty
    · rintro key data hi
      rw [hsame key data hi]
      exact ht
  cases i with
  | disconnect key data =>
      by_cases hacc : ∃ p, h.peer key = some p ∧ (p.state = .connecting ∨ p.state = .connected)
      · obtain ⟨p, hp, hst⟩ := hacc
        cases hs
        have hreq : h.acceptedRequest (.disconnect key data) = [(p.conn, data)] := by
          simp [acceptedRequest, hp, hst]
        rw [hreq]
        exact ht.request hp hst
      · have hno : ∀ p, h.peer key = some p → ¬ (p.state = .connecting ∨ p.state = .connected) :=
          fun p hp hst => hacc ⟨p, hp, hst⟩
        refine hother ?_ ?_
        · rintro key' data' ⟨⟩
          exact sendDisconnect_ignored hno data t
        · simp only [acceptedRequest]
          split
          · next p hp => exact if_neg (hno p hp)
          · rfl
  | _ => exact hother (by simp) rfl

/-- **Along a run.** -/
theorem run : ∀ (is : List Timed) (reqs : List (Nat × U32)) (h h' : HostTask), Teardown reqs h →
    h.run is = some h' → Teardown (reqs ++ h.requests is) h' := by
  intro is
  induction is with
  | nil =>
      intro reqs h h' ht hrun
      cases hrun
      rw [HostTask.requests, List.append_nil]
      exact ht
  | cons i is ih =>
      intro reqs h h' ht hrun
      obtain ⟨h₁, hs, hrun⟩ := Transition.run_cons_eq_some.mp hrun
      have ht₁ := ih _ h₁ h' (ht.step hs) hrun
      rw [HostTask.requests, hs, ← List.append_assoc]
      exact ht₁

end Teardown

/-! ## §4. After the request. -/

/-- From `p` to `q` no command was created but CMD_DISCONNECT, and no channel
handed out a number of any kind. -/
structure NoMoreSent (p q : PeerEntry) : Prop where
  created : CreatesOnly (· = cmdDisconnect) p q
  counters : q.channels.map Channel.sendCounters = p.channels.map Channel.sendCounters

/-- `q` is `p`, which is leaving, some time later. -/
structure After (p q : PeerEntry) : Prop where
  state : q.state = p.state ∨ q.state = .disconnecting
  nothing : NoMoreSent p q

namespace After

variable {p q : PeerEntry} {h : HostTask} {o : PeerOp} {nowMs : U32}

theorem refl (p : PeerEntry) : After p p := ⟨.inl rfl, .of_same rfl, rfl⟩

theorem leaving (ha : After p q) (hp : p.Leaving) : q.Leaving := by
  rcases ha.state with hst | hst
  · simpa only [PeerEntry.Leaving, hst] using hp
  · exact .inr hst

/-- **The state never goes back, and nothing more is sent.** -/
theorem op (ha : After p q) (hp : p.Leaving) (hlen : p.channels.length ≤ 255) (hg : o.Guard h q) :
    After p (o.apply nowMs q) := by
  have hq := ha.leaving hp
  have hnot : q.state ≠ .connected ∧ q.state ≠ .connecting ∧ q.state ≠ .acknowledgingConnect := by
    rcases hq with ⟨data, hst⟩ | hst <;> simp [hst]
  have hlen' : q.channels.length ≤ 255 := by
    have heq := congrArg List.length ha.nothing.counters
    simp only [List.length_map] at heq
    omega
  refine ⟨?_, ha.nothing.created.trans ((PeerOp.created nowMs hg).mono ?_), ?_⟩
  · by_cases hlife : o.Lifecycle
    · cases o with
      | accept rx => exact absurd hg.2.1 hnot.2.2
      | establish => exact absurd hg.1 hnot.2.2
      | verify hostMtu vc hdr => exact absurd hg.2.1 hnot.2.1
      | deferDisconnect data => exact (hg.1.elim hnot.2.1 hnot.1).elim
      | beginDisconnect deferred => exact .inr rfl
      | _ => exact hlife.elim
    · rw [(PeerOp.samePhase nowMs q hlife).state]
      exact ha.state
  · rintro ty (⟨hst, -⟩ | ⟨body, rfl⟩)
    · exact absurd hst hnot.1
    · rcases hg.2 with ⟨-, hst, -⟩ | ⟨hty, -⟩ | ⟨-, hst⟩
      · exact absurd hst hnot.1
      · exact hty
      · exact absurd hst hnot.1
  · refine (PeerOp.map_channels _ nowMs (fun c => PeerOp.channelStep_sendCounters q c ?_) hg
      hlen').trans ha.nothing.counters
    intro htakes
    cases o with
    | numberWhole pkt | numberFragments pkt fp =>
        obtain ⟨c, hsend, -⟩ := hg
        exact hnot.1 hsend.1
    | nextUnreliable ch c | nextUnsequenced ch c => exact hnot.1 hg.1
    | _ => exact htakes

end After

namespace HostTask

variable {h h' : HostTask} {j k : PeerKey} {p q : PeerEntry} {nowMs : U32} {conn : Nat}

/-- An entry leaves at a user's request only. -/
theorem tracks_of_no_request {i : Timed} (hp : h.peer k = some p) (ho : Owned h)
    (hnot : ¬ p.Leaving) (hi : ∀ data, i.2 ≠ .disconnect k data) (hs : h.timedStep i = some h') :
    h'.Tracks p.conn k (¬ ·.Leaving) := by
  obtain ⟨t, i⟩ := i
  have ht : h.Tracks p.conn k (¬ ·.Leaving) := tracks_of_peer ho hp hnot
  change h.step t i = some h' at hs
  have hstays : ∀ (h₁ : HostTask) (l : Label), h₁.Tracks p.conn k (¬ ·.Leaving) → l.Guard t h₁ →
      (∀ j o, l = .op j o → o.Stays) → (l.apply t h₁).Tracks p.conn k (¬ ·.Leaving) := by
    intro h₁ l ht hg hl
    refine ht.label ?_ hg
    intro q o hop _ hq hgo hleave
    rcases Phase.state_of_stays t hgo (hl k o hop) with hsame | ⟨-, hconn⟩
    · rw [PeerEntry.Leaving, hsame] at hleave
      exact hq hleave
    · exact PeerEntry.not_leaving hconn hleave
  have hplain : ∀ (h₁ : HostTask) (l : Label), h₁.Tracks p.conn k (¬ ·.Leaving) → l.Guard t h₁ →
      l.Plain → (l.apply t h₁).Tracks p.conn k (¬ ·.Leaving) := by
    intro h₁ l ht hg hpl
    refine hstays h₁ l ht hg ?_
    rintro j o rfl
    exact .of_plain hpl
  refine step_invariant_of_plain hplain ?_ ?_ i ?_ ht hs
  · intro h₁ k' ch a ht
    have e : Exec t (fun _ l => ∀ j o, l = .op j o → o.Stays) h₁ (h₁.onAck k' ch a t) := by
      refine onAck_exec ch a ?_ ?_ ?_ ?_
      · rintro j o ⟨⟩
        trivial
      · rintro h₂ rx j o ⟨⟩
        trivial
      · rintro h₂ j o ⟨⟩
        trivial
      · rintro h₂ j o ⟨⟩
    exact e.invariant (fun h₁ => h₁.Tracks p.conn k (¬ ·.Leaving)) hstays ht
  · -- the deferred disconnect is another connection's
    intro h₁ k' p' data ht hp' hst hempty
    have e : Exec t (fun _ _ => True) h₁ (h₁.fireDisconnect k' data t) := by
      rw [HostTask.fireDisconnect, updatePeer_of_some hp']
      exact disconnectNow_exec hp' data true ⟨⟨data, hst⟩, hempty⟩ trivial fun _ _ _ _ _ => trivial
    refine ht.of_exec e fun j q hq hconn => ?_
    rw [HostTask.fireDisconnect, updatePeer_of_some hp', peer_disconnectNow hp'] at hq
    split at hq
    · cases hq
      exact absurd (.inl ⟨data, hst⟩) (ht.2 k' p' hp' hconn).2
    · exact ht.2 j q hq hconn
  · rintro key data rfl
    by_cases hacc : ∃ p', h.peer key = some p' ∧ (p'.state = .connecting ∨ p'.state = .connected)
    · obtain ⟨p', hp', hst⟩ := hacc
      have e : Exec t (fun _ _ => True) h (h.sendDisconnect key data t) :=
        sendDisconnect_exec data (fun _ _ _ _ _ => trivial) trivial trivial
      refine ht.of_exec e fun j q hq hconn => ?_
      rw [peer_sendDisconnect hp' hst] at hq
      split at hq
      · have hsame : q.conn = p'.conn := by
          split at hq <;> cases hq <;> rfl
        have hkey := (ht.2 key p' hp' (hsame ▸ hconn)).1
        exact absurd (congrArg (Input.disconnect · data) hkey) (hi data)
      · exact ht.2 j q hq hconn
    · rw [sendDisconnect_ignored fun p' hp' hst => hacc ⟨p', hp', hst⟩]
      exact ht

/-- **In a step after which the entry is leaving, nothing but CMD_DISCONNECT is
created**, whether it was leaving before or not. -/
theorem noMoreSent_step {i : Timed} (hr : h.Reachable) (hp : h.peer k = some p)
    (hs : h.timedStep i = some h') (hq : h'.peer j = some q) (hconn : q.conn = p.conn)
    (hleave : q.Leaving) : NoMoreSent p q := by
  by_cases hp' : p.Leaving
  · have ht := (tracks_of_peer hr.owned hp (After.refl p)).exec
      (fun t h q o ha hg => ha.op hp' (hr.inRange.2 k p hp).channels.2 hg) (step_exec_true hs)
    exact (ht.2 j q hq hconn).2.nothing
  · by_cases hi : ∃ data, i.2 = .disconnect k data
    · obtain ⟨t, i⟩ := i
      obtain ⟨data, rfl⟩ := hi
      cases hs
      by_cases hst : p.state = .connecting ∨ p.state = .connected
      · rw [peer_sendDisconnect hp hst] at hq
        split at hq
        · split at hq
          · cases hq
            refine ⟨.of_event rfl fun ty ch seq fresh heq => ?_, rfl⟩
            cases heq
            rfl
          · cases hq
            exact ⟨.of_same rfl, rfl⟩
        · next hjk => exact absurd (hr.owned.inj j k q p hq hp hconn) hjk
      · rw [sendDisconnect_ignored fun p' hp' => by cases hp.symm.trans hp'; exact hst] at hq
        obtain rfl := hr.owned.inj j k q p hq hp hconn
        cases hp.symm.trans hq
        exact absurd hleave hp'
    · have ht := tracks_of_no_request hp hr.owned hp' (fun data heq => hi ⟨data, heq⟩) hs
      exact absurd hleave (ht.2 j q hq hconn).2

/-! ## §5. The state machine. -/

/-- A Disconnecting peer is removed by one ACK only. -/
theorem onAck_removes_iff {seq : U16} {r : OutstandingReliable} (hp : h.peer k = some p)
    (hst : p.state = .disconnecting)
    (hout : p.outgoingReliable = (∅ : OutgoingReliable).insert (channelIdConnection, seq) r)
    (ch : U8) (a : AcknowledgeCmd) (nowMs : U32) :
    (h.onAck k ch a nowMs).peer k = none ↔ ch = channelIdConnection ∧ a.receivedReliableSeq = seq := by
  have hempty : (p.applyAck ch a nowMs).outgoingReliable.isEmpty = true
      ↔ ch = channelIdConnection ∧ a.receivedReliableSeq = seq := by
    rw [(PeerEntry.applyAck_eq p ch a nowMs).1, hout, erase_singleton, ← Prod.mk_inj]
    split
    · next heq => exact iff_of_true (by simp) heq
    · next hne => exact iff_of_false (by simp) hne
  rw [← hempty]
  obtain ⟨x, hx, hcases⟩ := peer_onAck hp ch a nowMs
  rw [hx, if_pos rfl]
  rcases hcases with ⟨rfl, hst' | ⟨-, hlast⟩⟩ | ⟨rfl, hmore⟩ | ⟨-, hst'⟩
  · cases hst.symm.trans hst'
  · exact iff_of_true rfl hlast
  · exact iff_of_false nofun (by rw [hmore hst]; exact Bool.false_ne_true)
  · cases hst.symm.trans hst'

/-- **The disconnect state machine.**  In every state reached, also between the
commands of a datagram: CMD_DISCONNECT was created at most once for an entry, and
a Disconnecting peer has it, with the data of the first accepted request, as its
only outstanding command, and is removed by exactly the ACK that names it.  A
step after which an entry is leaving creates nothing but CMD_DISCONNECT for it;
from then on its state does not go back and nothing is sent for it any more. -/
theorem disconnect_state_machine (acceptCapacity maxPeers : Nat) (useChecksum : Bool)
    (incomingBandwidth outgoingBandwidth : U32) (is : List Timed) (h : HostTask)
    (hrun : (HostTask.new acceptCapacity maxPeers useChecksum incomingBandwidth
      outgoingBandwidth).run is = some h) :
    (∀ key sentTime src t cmds k p,
      (onCommands key sentTime src t h cmds []).1.peer k = some p →
        (disconnects p.history).length ≤ 1
        ∧ (p.state = .disconnecting → ∃ data seq r,
          (requestsOf ((HostTask.new acceptCapacity maxPeers useChecksum incomingBandwidth
            outgoingBandwidth).requests is) p.conn).head? = some data
          ∧ p.outgoingReliable.toList = [((channelIdConnection, seq), r)]
          ∧ r.packetBytes = disconnectCommand seq data
          ∧ ∀ ch a nowMs,
            ((onCommands key sentTime src t h cmds []).1.onAck k ch a nowMs).peer k = none
              ↔ ch = channelIdConnection ∧ a.receivedReliableSeq = seq))
    ∧ ∀ k p, h.peer k = some p →
      (∀ i h' j q, h.timedStep i = some h' → h'.peer j = some q → q.conn = p.conn → q.Leaving →
        NoMoreSent p q)
      ∧ (p.Leaving → (∀ pkt nowMs, h.sendPacket k pkt nowMs = some h)
        ∧ ∀ is' h' key sentTime src t cmds j q, h.run is' = some h' →
          (onCommands key sentTime src t h' cmds []).1.peer j = some q → q.conn = p.conn →
          j = k ∧ After p q) := by
  have hr : h.Reachable := ⟨_, _, _, _, _, is, hrun⟩
  have hnew : Teardown [] (HostTask.new acceptCapacity maxPeers useChecksum incomingBandwidth
      outgoingBandwidth) := ⟨.new _ _ _ _ _, by simp, by simp⟩
  have hend := hnew.run is _ _ h hrun
  rw [List.nil_append] at hend
  refine ⟨fun key sentTime src t cmds k p hp => ?_, fun k p hp => ⟨?_, fun hleave => ⟨?_, ?_⟩⟩⟩
  · have ht := onCommands_invariant_of_plain (fun h l ht hg hpl => Teardown.label ht hg hpl)
      (fun h k ch a ht => Teardown.onAck ht k ch a t) key sentTime src cmds h [] hend
    cases ht.phase k p hp with
    | before state requests created =>
        refine ⟨by simp [created], fun hst => ?_⟩
        simp [hst] at state
    | later data state requests created =>
        exact ⟨by simp [created], fun hst => nomatch state.symm.trans hst⟩
    | sent data seq r state requests created outgoing bytes =>
        refine ⟨by simp [created], fun _ => ⟨data, seq, r, by simp [requests], ?_, bytes, ?_⟩⟩
        · rw [outgoing, toList_singleton]
        · exact onAck_removes_iff hp state outgoing
  · exact fun i h' j q hs hq hconn hleave => noMoreSent_step hr hp hs hq hconn hleave
  · intro pkt nowMs
    have hst : p.state ≠ .connected := fun hst => PeerEntry.not_leaving hst hleave
    simp only [sendPacket, hp, hst, ne_eq, not_false_eq_true, if_true]
  · intro is' h' key sentTime src t cmds j q hrun' hq hconn
    have hkeep : ∀ (t : U32) (h : HostTask) (q : PeerEntry) (o : PeerOp), After p q →
        o.Guard h q → After p (o.apply t q) :=
      fun t h q o ha hg => ha.op hleave (hr.inRange.2 k p hp).channels.2 hg
    have ht := (tracks_of_peer hr.owned hp (After.refl p)).run hkeep hrun'
    exact (ht.exec hkeep (onCommands_exec_true key sentTime src t cmds h' [])).2 j q hq hconn

/-- A disconnect that waited for the last ACK, in the run of `patientDisconnect`. -/
theorem disconnect_state_machine_patient : ∃ h p data seq r,
    (bind 4 false 0 0).run patientDisconnect = some h ∧ h.peer 0 = some p ∧
    p.state = .disconnecting ∧
    (requestsOf ((bind 4 false 0 0).requests patientDisconnect) p.conn).head? = some data ∧
    p.outgoingReliable.toList = [((channelIdConnection, seq), r)] ∧
    r.packetBytes = disconnectCommand seq data ∧
    ∀ ch a nowMs, (h.onAck 0 ch a nowMs).peer 0 = none
      ↔ ch = channelIdConnection ∧ a.receivedReliableSeq = seq := by
  have hrun : ((bind 4 false 0 0).run patientDisconnect).any (fun h => (h.peer 0).any fun p =>
      decide (p.state = .disconnecting)) = true := by decide +kernel
  obtain ⟨h, hh, hrest⟩ := (Option.any_eq_true _ _).mp hrun
  simp only [Option.any_eq_true, decide_eq_true_eq] at hrest
  obtain ⟨p, hp, hst⟩ := hrest
  obtain ⟨data, seq, r, hrest⟩ := ((disconnect_state_machine 64 4 false 0 0 patientDisconnect h
    hh).1 none none alice 0 [] 0 p hp).2 hst
  exact ⟨h, p, data, seq, r, hh, hp, hst, hrest⟩

end HostTask

end EnetRs
