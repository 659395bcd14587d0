/-
  EnetRs.Safety.Acknowledge — is acknowledged reliable data kept?

  `on_command` decides the ACK from the header, before the command is looked
  at.  This file says when the data behind an ACK is safe once the datagram has
  been processed: which commands the receiver takes, and what later commands of
  the same datagram may take away again, by ending the connection or by writing
  over what was taken.

  Main results:
    * `HostTask.dispatch_hosts_iff` — which commands end a connection.
    * `HostTask.dispatch_kept` — a later command that spares the payload keeps it.
    * `HostTask.acknowledged_retained` — every datagram.
-/
import EnetRs.Host.Ownership
import EnetRs.Safety.Custody

namespace EnetRs

open MachineInt

/-! ## §1. Commands of a datagram. -/

/-- The data of a CMD_SEND_RELIABLE or CMD_SEND_FRAGMENT. -/
def Command.reliableData (cmd : Command) : Option ReliableData :=
  match cmd.body with
  | .sendReliable data =>
      if cmd.header.commandType = cmdSendReliable then some (.whole data) else none
  | .sendFragment sf =>
      if cmd.header.commandType = cmdSendFragment then some (.fragment sf) else none
  | _ => none

/-- The event is a datagram that carries the command `x`. -/
def Event.carries (x : Bytes) : Event → Bool
  | .sent _ cmds _ => decide (x ∈ cmds)
  | _ => false

namespace Command

/-- **What a command does to its entry**: it takes no number of a channel, and
the channel it changes is the one of its header, by the operation it stands for
and in the state in which the command starts. -/
theorem makes_op {cmd : Command} {h h' : HostTask} {key : Option PeerKey} {src : SocketAddr}
    {nowMs : U32} {k : PeerKey} {o : PeerOp} (hm : cmd.Makes h key src nowMs h' (.op k o)) :
    ¬ o.TakesNumber ∧ (o.channelOf = none
      ∨ o.channelOf = some cmd.header.channelId ∧ h' = h ∧ cmd.Receives o) := by
  cases o with
  | recvReliable ch seq data =>
      obtain ⟨-, heq, hr⟩ := hm
      exact ⟨id, .inr ⟨congrArg some hr.2.2.1, heq, hr⟩⟩
  | recvUnreliable ch rseq useq data =>
      obtain ⟨-, heq, hr⟩ := hm
      exact ⟨id, .inr ⟨congrArg some hr.2.2.1, heq, hr⟩⟩
  | recvFragment ch sf reliable =>
      obtain ⟨-, heq, hr⟩ := hm
      have hch : ch = cmd.header.channelId := by
        cases reliable <;> exact hr.2.2
      exact ⟨id, .inr ⟨congrArg some hch, heq, hr⟩⟩
  | numberWhole | numberFragments | nextUnreliable | nextUnsequenced => exact hm.2.2.elim
  | _ => exact ⟨id, .inl rfl⟩

end Command

/-- A later command leaves the payload alone, if its type and body make it a
message or a fragment for the same channel. -/
def PeerEntry.Spares (p : PeerEntry) (ch : U8) (seq : U16) (d : ReliableData) (cmd : Command) :
    Prop :=
  match cmd.body with
  | .sendReliable data => cmd.header.commandType = cmdSendReliable →
      (PeerOp.recvReliable cmd.header.channelId cmd.header.reliableSeq data).Spares p ch seq d
  | .sendFragment sf => cmd.header.commandType = cmdSendFragment →
      (PeerOp.recvFragment cmd.header.channelId sf true).Spares p ch seq d
  | .sendUnreliableFragment sf => cmd.header.commandType = cmdSendUnreliableFragment →
      (PeerOp.recvFragment cmd.header.channelId sf false).Spares p ch seq d
  | _ => True

instance (p : PeerEntry) (ch : U8) (seq : U16) (d : ReliableData) (cmd : Command) :
    Decidable (p.Spares ch seq d cmd) := by
  unfold PeerEntry.Spares
  split <;> infer_instance

theorem PeerEntry.Spares.op {p : PeerEntry} {ch : U8} {seq : U16} {d : ReliableData}
    {cmd : Command} {o : PeerOp} (hs : p.Spares ch seq d cmd) (hr : cmd.Receives o) :
    o.Spares p ch seq d := by
  unfold PeerEntry.Spares at hs
  cases o with
  | recvReliable ch' s m =>
      obtain ⟨hty, hb, rfl, rfl⟩ := hr
      rw [hb] at hs
      exact hs hty
  | recvFragment ch' sf reliable =>
      cases reliable with
      | true =>
          obtain ⟨hty, hb, rfl⟩ := hr
          rw [hb] at hs
          exact hs hty
      | false =>
          obtain ⟨hty, hb, rfl⟩ := hr
          rw [hb] at hs
          exact hs hty
  | _ => trivial

/-- A command for another channel. -/
theorem PeerEntry.spares_of_ne (p : PeerEntry) {ch : U8} (seq : U16) (d : ReliableData)
    {cmd : Command} (hne : cmd.header.channelId ≠ ch) : p.Spares ch seq d cmd := by
  unfold PeerEntry.Spares
  split
  · exact fun _ heq => absurd heq hne
  · exact fun _ heq => absurd heq hne
  · exact fun _ heq => absurd heq hne
  · trivial

namespace HostTask

variable {h : HostTask} {k : PeerKey} {p : PeerEntry} {cmd : Command} {d : ReliableData}

theorem dispatch_data (hd : cmd.reliableData = some d) (h : HostTask) (k : PeerKey)
    (sentTime : Option U16) (src : SocketAddr) (nowMs : U32) :
    h.dispatch (some k) sentTime cmd src nowMs
      = (h.updatePeer k fun p =>
          p.onData cmd.header.channelId cmd.header.reliableSeq nowMs d).noteTake h k
            cmd.header.channelId cmd.header.reliableSeq d := by
  unfold Command.reliableData at hd
  split at hd
  · next data hb =>
    split at hd
    · next hty =>
      cases hd
      simp only [dispatch, hty, hb]
      rw [if_neg (by decide), if_neg (by decide), if_neg (by decide), if_neg (by decide),
        if_neg (by decide), if_pos trivial]
      rfl
    · cases hd
  · next sf hb =>
    split at hd
    · next hty =>
      cases hd
      simp only [dispatch, hty, hb]
      rw [if_neg (by decide), if_neg (by decide), if_neg (by decide), if_neg (by decide),
        if_neg (by decide), if_neg (by decide), if_neg (by decide), if_pos trivial]
      rfl
    · cases hd
  · cases hd

/-- The entry after a data command: what its handler leaves, but for the ghost
record of the number. -/
theorem peer_dispatch_data (hd : cmd.reliableData = some d) (hp : h.peer k = some p)
    (sentTime : Option U16) (src : SocketAddr) (nowMs : U32) :
    ∃ q, (h.dispatch (some k) sentTime cmd src nowMs).peer k = some q ∧ q.conn = p.conn
      ∧ q.channels = (p.onData cmd.header.channelId cmd.header.reliableSeq nowMs d).channels
      ∧ q.delivered
        = (p.onData cmd.header.channelId cmd.header.reliableSeq nowMs d).delivered := by
  rw [dispatch_data hd]
  have hconn : (p.onData cmd.header.channelId cmd.header.reliableSeq nowMs d).conn = p.conn := by
    cases d with
    | whole data => exact (PeerEntry.onSendReliable_received _ _ _ _).2
    | fragment sf => exact (PeerEntry.onFragment_received _ _ _ _).2
  generalize hq : p.onData cmd.header.channelId cmd.header.reliableSeq nowMs d = q at *
  unfold noteTake
  split
  · refine ⟨q.log (.take cmd.header.channelId cmd.header.reliableSeq), ?_, hconn, rfl, ?_⟩
    · rw [peer_updatePeer, if_pos rfl, peer_updatePeer, if_pos rfl, hp]
      simp [hq]
    · simp [PeerEntry.delivered, PeerEntry.log, PeerEvent.asDeliver]
  · refine ⟨q, ?_, hconn, rfl, rfl⟩
    rw [peer_updatePeer, if_pos rfl, hp]
    simp [hq]

/-! ## §2. Commands that end the connection. -/

/-- The commands after which slot `k` no longer holds the connection it held:
a CONNECT from the address of the slot, a DISCONNECT outside the handshake, an
ACK that finds the accept queue full or completes a disconnect. -/
def removesPeer (h : HostTask) (k : PeerKey) (src : SocketAddr) (cmd : Command) : Bool :=
  match cmd.body with
  | .connect _ => decide (cmd.header.commandType = cmdConnect ∧ h.addrMap src = some k)
  | .disconnect _ =>
      decide (cmd.header.commandType = cmdDisconnect)
        && (h.peer k).any fun p => decide (p.state ≠ .acknowledgingConnect)
  | .acknowledge a =>
      decide (cmd.header.commandType = cmdAcknowledge) && (h.peer k).any fun p =>
        (decide (p.state = .acknowledgingConnect ∧ cmd.header.channelId = channelIdConnection
            ∧ a.receivedReliableSeq = p.connectSeq)
          && p.toUserRx.isSome && !h.acceptTx.hasRoom)
        || (decide (p.state = .disconnecting)
          && (p.outgoingReliable.erase (cmd.header.channelId, a.receivedReliableSeq)).isEmpty)
  | _ => false

/-- A CONNECT from another address leaves the slot alone. -/
theorem onConnect_hosts (hp : h.peer k = some p) {src : SocketAddr} (hne : h.addrMap src ≠ some k)
    (c : ConnectCmd) (hdr : CommandHeader) (sentTime : Option U16) (nowMs : U32) :
    (h.onConnect c hdr sentTime src nowMs).Hosts k p.conn := by
  -- `on_connect` removes only what the source address points at, which is never `k`
  have e : Exec nowMs (fun h l => ∀ j, l = .remove j → h.addrMap src = some j) h
      (h.onConnect c hdr sentTime src nowMs) := by
    refine onConnect_exec c hdr sentTime src ?_ ?_ ?_ ?_ ?_
    · rintro _ _ _ _ _ _ heq
      cases heq
    · rintro _ _ _ _ _ heq
      cases heq
    · rintro h j hj _ heq
      cases heq
      exact hj
    · rintro _ _ _ heq
      cases heq
    · rintro _ _ heq
      cases heq
  refine (e.invariant (fun h => h.Hosts k p.conn ∧ h.addrMap src ≠ some k) ?_
    ⟨⟨p, hp, rfl⟩, hne⟩).1
  rintro h l ⟨hh, hne⟩ hg hC
  refine ⟨hh.label hg fun heq => hne (hC k heq), ?_⟩
  cases l with
  | op j o =>
      rw [Label.addrMap_apply_op]
      exact hne
  | remove j =>
      obtain ⟨q, hq⟩ := hg
      simp only [Label.apply, addrMap_removePeer hq, Function.update_apply]
      split
      · simp
      · exact hne
  | install slot entry =>
      show Function.update h.addrMap entry.addr (some slot) src ≠ some k
      rw [Function.update_apply]
      split
      · -- the new slot was free, slot `k` is not
        rintro heq
        cases heq
        obtain ⟨q, hq, -⟩ := hh
        rw [peer_allocSlot hg.1] at hq
        cases hq
      · exact hne
  | raw connect addr => exact hne
  | epoch => exact hne
  | appAccept => exact hne
  | appClose => exact hne

theorem onAck_hosts_iff (hp : h.peer k = some p) (ch : U8) (a : AcknowledgeCmd) (nowMs : U32) :
    (h.onAck k ch a nowMs).Hosts k p.conn ↔
      ¬ ((p.state = .acknowledgingConnect ∧ ch = channelIdConnection
            ∧ a.receivedReliableSeq = p.connectSeq) ∧ p.toUserRx.isSome = true
          ∧ h.acceptTx.hasRoom = false)
        ∧ ¬ (p.state = .disconnecting
          ∧ (p.outgoingReliable.erase (ch, a.receivedReliableSeq)).isEmpty = true) := by
  have hf := PeerEntry.applyAck_acked (p := p) ch a nowMs
  have hst : (p.applyAck ch a nowMs).state = p.state := hf.get (·.state)
  have hseq : (p.applyAck ch a nowMs).connectSeq = p.connectSeq := hf.get (·.connectSeq)
  have hrx : (p.applyAck ch a nowMs).toUserRx = p.toUserRx := hf.get (·.toUserRx)
  have hconn : (p.applyAck ch a nowMs).conn = p.conn := hf.get (·.conn)
  have hout := (PeerEntry.applyAck_eq p ch a nowMs).1
  have hlt := lt_of_peer_eq_some hp
  simp only [onAck, hp]
  rw [← hout, ← hst, ← hseq, ← hrx, ← hconn]
  generalize p.applyAck ch a nowMs = q
  -- a slot that was written holds the connection, a slot that was removed holds nothing
  have hset : ∀ r : PeerEntry, r.conn = q.conn → (h.setPeer k r).Hosts k q.conn :=
    fun r hr => ⟨r, peer_setPeer_self hlt, hr⟩
  have hgone : ∀ h : HostTask, ¬ (h.removePeer k).Hosts k q.conn := by
    rintro h ⟨r, hr, -⟩
    rw [peer_removePeer, if_pos rfl] at hr
    cases hr
  split
  · next hdone =>
    have hnot : ¬ (q.state = .disconnecting ∧ q.outgoingReliable.isEmpty = true) := by
      rw [hdone.1]
      rintro ⟨hc, -⟩
      cases hc
    cases hrx : q.toUserRx with
    | none => exact iff_of_true (hset _ rfl) ⟨by simp, hnot⟩
    | some rx =>
        simp only
        split
        · next hroom =>
          rw [setPeer_acceptTx] at hroom
          refine iff_of_true ?_ ⟨by simp [hroom], hnot⟩
          exact hset { q with state := .connected, toUserRx := none } rfl
        · next hroom =>
          rw [setPeer_acceptTx, Bool.not_eq_true] at hroom
          exact iff_of_false (hgone _) fun hno => hno.1 ⟨hdone, rfl, hroom⟩
  · next hdone =>
    split
    · next hend => exact iff_of_false (hgone _) fun hno => hno.2 hend
    · next hend => exact iff_of_true (hset q rfl) ⟨fun hc => hdone hc.1, hend⟩

/-- A command without a removing body of its own type removes nothing. -/
theorem removesPeer_eq_false {src : SocketAddr}
    (h₁ : ∀ c, cmd.body = .connect c → cmd.header.commandType ≠ cmdConnect)
    (h₂ : ∀ d, cmd.body = .disconnect d → cmd.header.commandType ≠ cmdDisconnect)
    (h₃ : ∀ a, cmd.body = .acknowledge a → cmd.header.commandType ≠ cmdAcknowledge) :
    h.removesPeer k src cmd = false := by
  unfold removesPeer
  split
  · next c hb => simp [h₁ c hb]
  · next d hb => simp [h₂ d hb]
  · next a hb => simp [h₃ a hb]
  · rfl

/-- **Which commands end a connection.** -/
theorem dispatch_hosts_iff (ho : Owned h) (hp : h.peer k = some p) (sentTime : Option U16)
    (cmd : Command) (src : SocketAddr) (nowMs : U32) :
    (h.dispatch (some k) sentTime cmd src nowMs).Hosts k p.conn
      ↔ h.removesPeer k src cmd = false := by
  have hself : h.Hosts k p.conn := ⟨p, hp, rfl⟩
  -- most types are handled on the entry, by operations that keep the connection
  have hstay : ∀ o : PeerOp, (h.updatePeer k fun p => o.apply nowMs p).Hosts k p.conn :=
    fun o => hosts_op nowMs o hself
  have htake : ∀ {h' : HostTask} (ch : U8) (seq : U16) (d : ReliableData), h'.Hosts k p.conn →
      (h'.noteTake h k ch seq d).Hosts k p.conn := by
    intro h' ch seq d hh
    unfold noteTake
    split
    · exact hosts_op nowMs (.take ch seq) hh
    · exact hh
  obtain ⟨f, hf, heq⟩ := dispatch_handled (some k) sentTime cmd src nowMs
  rw [heq]
  cases hf with
  | ignored noConnect noDisconnect noAck =>
      exact iff_of_true hself (removesPeer_eq_false noConnect
        (fun d => noDisconnect k d rfl) fun a => noAck k a rfl)
  | connect c hty hb =>
      have hrem : h.removesPeer k src cmd = decide (h.addrMap src = some k) := by
        simp [removesPeer, hb, hty]
      by_cases hk : h.addrMap src = some k
      · refine iff_of_false ?_ (by simp [hrem, hk])
        exact ((evictAddr_absent ho hk hp k).exec (onConnect_exec_evicted h c _ _ src nowMs)).1
      · exact iff_of_true (onConnect_hosts hp hk c _ _ nowMs) (by simp [hrem, hk])
  | verifyConnect _ vc hk hty hb =>
      cases hk
      refine iff_of_true ?_ (by simp [removesPeer, hb])
      have e : Exec nowMs (fun _ l => l ≠ .remove k) h (h.onVerifyConnect k vc cmd.header nowMs) :=
        onVerifyConnect_exec vc cmd.header (by simp)
      exact e.invariant (fun h => h.Hosts k p.conn) (fun _ _ hh hg hl => hh.label hg hl) hself
  | ack _ a hk hty hb =>
      cases hk
      refine (onAck_hosts_iff hp _ a nowMs).trans ?_
      simp only [removesPeer, hb, hp, hty, decide_true, Bool.true_and, Option.any_some,
        Bool.or_eq_false_iff]
      refine and_congr ?_ ?_
      · refine Iff.trans ?_ Bool.eq_false_iff.symm
        rw [ne_eq, Bool.and_eq_true, Bool.and_eq_true, decide_eq_true_eq, Bool.not_eq_true']
        exact not_congr and_assoc.symm
      · refine Iff.trans ?_ Bool.eq_false_iff.symm
        rw [ne_eq, Bool.and_eq_true, decide_eq_true_eq]
  | disconnect _ data hk hty hb =>
      cases hk
      have hrem : h.removesPeer k src cmd = decide (p.state ≠ .acknowledgingConnect) := by
        simp [removesPeer, hb, hp, hty]
      simp only [onDisconnect, hp, Option.map_some]
      by_cases hst : p.state = .acknowledgingConnect
      · rw [if_pos (by rw [hst])]
        exact iff_of_true hself (by simp [hrem, hst])
      · rw [if_neg (by simpa using hst)]
        refine iff_of_false ?_ (by simp [hrem, hst])
        rintro ⟨q, hq, -⟩
        rw [peer_removePeer, if_pos rfl] at hq
        cases hq
  | ping _ hk hty =>
      cases hk
      -- a PING is told by its type alone
      refine iff_of_true (hstay .recvPing) (removesPeer_eq_false ?_ ?_ ?_) <;>
        · intro _ _
          rw [hty]
          decide
  | reliable _ data hk hty hb =>
      cases hk
      exact iff_of_true (htake _ _ _ (hstay (.recvReliable _ _ data))) (by simp [removesPeer, hb])
  | unreliable _ useq data hk hty hb =>
      cases hk
      exact iff_of_true (hstay (.recvUnreliable _ _ useq data)) (by simp [removesPeer, hb])
  | fragment _ sf hk hty hb =>
      cases hk
      exact iff_of_true (htake _ _ _ (hstay (.recvFragment _ sf true))) (by simp [removesPeer, hb])
  | unreliableFragment _ sf hk hty hb =>
      cases hk
      exact iff_of_true (hstay (.recvFragment _ sf false)) (by simp [removesPeer, hb])
  | unsequenced _ group data hk hty hb =>
      cases hk
      exact iff_of_true (hstay (.recvUnsequenced group data)) (by simp [removesPeer, hb])
  | bandwidthLimit _ bl hk hty hb =>
      cases hk
      exact iff_of_true (hstay (.recvBandwidthLimit bl)) (by simp [removesPeer, hb])
  | throttleConfigure _ tc hk hty hb =>
      cases hk
      exact iff_of_true (hstay (.recvThrottleConfigure tc)) (by simp [removesPeer, hb])

/-- No later command of the datagram ends the connection in slot `k`. -/
def Undisturbed (k : PeerKey) (sentTime : Option U16) (src : SocketAddr) (nowMs : U32)
    (h : HostTask) (cmds : List Command) : Prop :=
  CommandsMeet (fun h cmd => h.removesPeer k src cmd = false) (some k) sentTime src nowMs h cmds

/-- **The connection survives the rest of the datagram**, or has left its slot
for good. -/
theorem onCommands_hosts (sentTime : Option U16) (src : SocketAddr) (nowMs : U32) {conn : Nat} :
    ∀ (cmds : List Command) (h : HostTask) (acks : List Bytes), Owned h → h.Hosts k conn →
      (Undisturbed k sentTime src nowMs h cmds ∧
        (onCommands (some k) sentTime src nowMs h cmds acks).1.Hosts k conn)
      ∨ (¬ Undisturbed k sentTime src nowMs h cmds ∧
        (onCommands (some k) sentTime src nowMs h cmds acks).1.Absent k conn) := by
  intro cmds
  induction cmds with
  | nil =>
      intro h acks _ hh
      exact .inl ⟨trivial, hh⟩
  | cons cmd cmds ih =>
      intro h acks ho hh
      obtain ⟨p, hp, rfl⟩ := hh
      have hiff := dispatch_hosts_iff ho hp sentTime cmd src nowMs
      have hlt := ho.lt k p hp
      have e := dispatch_exec nowMs h (some k) sentTime cmd src
      cases hrem : h.removesPeer k src cmd with
      | false =>
          rcases ih _ (acks ++ ackFor (some k) sentTime cmd.header)
            (ho.exec e) (hiff.mpr hrem) with hin | hout
          · exact .inl ⟨⟨hrem, hin.1⟩, hin.2⟩
          · exact .inr ⟨fun hu => hout.1 hu.2, hout.2⟩
      | true =>
          -- it has left; nothing brings it back
          have hgone : (h.dispatch (some k) sentTime cmd src nowMs).Absent k p.conn := by
            refine ⟨fun hh => Bool.false_ne_true ((hiff.mp hh).symm.trans hrem), ?_⟩
            exact e.invariant (fun h => p.conn < h.nextConn)
              (fun h l hlt _ _ => Nat.lt_of_lt_of_le hlt (nextConn_le nowMs h l)) hlt
          refine .inr ⟨fun hu => Bool.false_ne_true (hu.1.symm.trans hrem), ?_⟩
          exact hgone.exec (onCommands_exec_true (some k) sentTime src nowMs cmds _ _)

/-! ## §3. Commands that touch the payload. -/

variable {ch : U8} {seq : U16}

/-- **A later command**: it keeps the connection and spares the payload, so the
payload is kept or delivered. -/
theorem dispatch_kept (ho : Owned h) (hp : h.peer k = some p) (hh : p.HoldsData ch seq d)
    {src : SocketAddr} (hrem : h.removesPeer k src cmd = false) (hs : p.Spares ch seq d cmd)
    (sentTime : Option U16) (nowMs : U32) :
    ∃ q, (h.dispatch (some k) sentTime cmd src nowMs).peer k = some q ∧ q.conn = p.conn
      ∧ p.KeptSince q ch seq d := by
  have hend : (h.dispatch (some k) sentTime cmd src nowMs).Tracks p.conn k
      fun q => p.KeptSince q ch seq d := by
    refine (dispatch_exec nowMs h (some k) sentTime cmd src).invariant
      (fun h => h.Tracks p.conn k fun q => p.KeptSince q ch seq d) ?_
      (tracks_of_peer ho hp ⟨⟨[], by simp⟩, .inl hh⟩)
    rintro h₁ l ht hg hm
    refine ht.label ?_ hg
    rintro p' o rfl hp' hkept -
    obtain ⟨hn, hnone | ⟨-, rfl, hr⟩⟩ := Command.makes_op hm
    · exact hkept.untouched (PeerOp.untouchedOn nowMs p' hn (by simp [hnone]))
    · obtain rfl : p = p' := Option.some.inj (hp.symm.trans hp')
      exact PeerOp.kept nowMs hn hh (hs.op hr)
  obtain ⟨q, hq, hconn⟩ := (dispatch_hosts_iff ho hp sentTime cmd src nowMs).mpr hrem
  exact ⟨q, hq, hconn, (hend.2 k q hq hconn).2⟩

/-- No later command of the datagram ends the connection or writes over the
payload, as long as the payload is held. -/
def Unharmed (k : PeerKey) (sentTime : Option U16) (src : SocketAddr) (nowMs : U32) (ch : U8)
    (seq : U16) (d : ReliableData) (h : HostTask) (cmds : List Command) : Prop :=
  CommandsMeet (fun h cmd => ∀ p, h.peer k = some p → p.HoldsData ch seq d →
    h.removesPeer k src cmd = false ∧ p.Spares ch seq d cmd) (some k) sentTime src nowMs h cmds

instance (k : PeerKey) (sentTime : Option U16) (src : SocketAddr) (nowMs : U32) (ch : U8)
    (seq : U16) (d : ReliableData) (h : HostTask) (cmds : List Command) :
    Decidable (Unharmed k sentTime src nowMs ch seq d h cmds) :=
  decidableCommandsMeet _ _ _ _ _ _

/-- Commands for other channels harm the payload only by ending the connection. -/
theorem Undisturbed.unharmed {sentTime : Option U16} {src : SocketAddr} {nowMs : U32} :
    ∀ {cmds : List Command} {h : HostTask}, Undisturbed k sentTime src nowMs h cmds →
      (∀ x ∈ cmds, x.header.channelId ≠ ch) → Unharmed k sentTime src nowMs ch seq d h cmds := by
  intro cmds
  induction cmds with
  | nil => exact fun _ _ => trivial
  | cons cmd cmds ih =>
      intro h hu hother
      refine ⟨fun p _ _ => ⟨hu.1, p.spares_of_ne seq d (hother cmd List.mem_cons_self)⟩, ?_⟩
      exact ih hu.2 fun x hx => hother x (List.mem_cons_of_mem cmd hx)

/-- **The rest of the datagram**: the payload is delivered on the way, or held
at the end.  `p₀` is the entry from which deliveries are counted. -/
theorem onCommands_kept (sentTime : Option U16) (src : SocketAddr) (nowMs : U32)
    (p₀ : PeerEntry) :
    ∀ (cmds : List Command) (h : HostTask) (acks : List Bytes) (p : PeerEntry), Owned h →
      h.peer k = some p → p.conn = p₀.conn → (∃ pkts, p.delivered = p₀.delivered ++ pkts) →
      p.HoldsData ch seq d → Unharmed k sentTime src nowMs ch seq d h cmds →
      (∃ done, done <+: cmds ∧ ∃ q,
          (onCommands (some k) sentTime src nowMs h done acks).1.peer k = some q
            ∧ q.conn = p₀.conn ∧ p₀.DeliveredSince q ch d)
        ∨ ∃ q, (onCommands (some k) sentTime src nowMs h cmds acks).1.peer k = some q
            ∧ q.conn = p₀.conn ∧ q.HoldsData ch seq d := by
  intro cmds
  induction cmds with
  | nil =>
      intro h acks p _ hp hconn _ hh _
      exact .inr ⟨p, hp, hconn, hh⟩
  | cons cmd cmds ih =>
      intro h acks p ho hp hconn hle hh hu
      obtain ⟨hrem, hs⟩ := hu.1 p hp hh
      obtain ⟨q, hq, hqconn, hkept⟩ := dispatch_kept ho hp hh hrem hs sentTime nowMs
      rcases hkept.kept with hheld | hdel
      · have hle' : ∃ pkts, q.delivered = p₀.delivered ++ pkts := by
          obtain ⟨xs, hxs⟩ := hle
          obtain ⟨ys, hys⟩ := hkept.delivered
          exact ⟨xs ++ ys, by rw [hys, hxs, List.append_assoc]⟩
        rcases ih _ (acks ++ ackFor (some k) sentTime cmd.header) q
          (ho.exec (dispatch_exec nowMs h (some k) sentTime cmd src)) hq (hqconn.trans hconn) hle'
          hheld hu.2 with ⟨done, hdone, r, hr⟩ | hend
        · exact .inl ⟨cmd :: done, List.prefix_cons_inj cmd |>.mpr hdone, r, hr⟩
        · exact .inr hend
      · refine .inl ⟨[cmd], ⟨cmds, rfl⟩, q, hq, hqconn.trans hconn, hdel.of_later hle⟩

/-- Changes that concern other channels, or none. -/
theorem Tracks.untouched {nowMs : U32} {C : Cond} {h' : HostTask} (e : Exec nowMs C h h')
    (hC : ∀ h₁ o, C h₁ (.op k o) → ¬ o.TakesNumber ∧ o.channelOf ≠ some ch) (ho : Owned h)
    (hp : h.peer k = some p) : h'.Tracks p.conn k (PeerEntry.UntouchedOn ch p) := by
  refine e.invariant (fun h => h.Tracks p.conn k (PeerEntry.UntouchedOn ch p)) ?_
    (tracks_of_peer ho hp (.refl ch p))
  rintro h₁ l ht hg hl
  refine ht.label ?_ hg
  rintro p' o rfl - hu -
  obtain ⟨hn, hch⟩ := hC h₁ o hl
  exact hu.trans (PeerOp.untouchedOn nowMs p' hn hch)

/-- Commands for other channels. -/
theorem onCommands_untouched (ho : Owned h) (hp : h.peer k = some p) (sentTime : Option U16)
    (src : SocketAddr) (nowMs : U32) {cmds : List Command}
    (hother : ∀ x ∈ cmds, x.header.channelId ≠ ch) (acks : List Bytes) :
    (onCommands (some k) sentTime src nowMs h cmds acks).1.Tracks p.conn k
      (PeerEntry.UntouchedOn ch p) := by
  have e : Exec nowMs (fun _ l => ∀ o, l = .op k o → ¬ o.TakesNumber ∧ o.channelOf ≠ some ch) h
      (onCommands (some k) sentTime src nowMs h cmds acks).1 := by
    refine onCommands_exec (P := fun _ cmd => cmd.header.channelId ≠ ch) (some k) sentTime src ?_
      cmds h acks (commandsMeet_of_forall _ _ _ _ cmds h hother)
    rintro h cmd h' l hne hm o rfl
    obtain ⟨hn, hnone | ⟨hch, -⟩⟩ := Command.makes_op hm
    · exact ⟨hn, by simp [hnone]⟩
    · exact ⟨hn, fun heq => hne (Option.some.inj (hch.symm.trans heq))⟩
  exact Tracks.untouched e (fun _ o hC => hC o rfl) ho hp

/-- The ACKs at the end touch no channel. -/
theorem flushAcks_untouched (ho : Owned h) (hp : h.peer k = some p) (key : Option PeerKey)
    (src : SocketAddr) (acks : List Bytes) (nowMs : U32) :
    (h.flushAcks key src acks nowMs).Tracks p.conn k (PeerEntry.UntouchedOn ch p) := by
  refine Tracks.untouched (flushAcks_exec key src acks) ?_ ho hp
  rintro h₁ o ⟨j, cmds, heq⟩
  cases heq
  exact ⟨id, by simp [PeerOp.channelOf]⟩

/-! ## §4. Every datagram. -/

/-- The state after the commands `cmds` of an accepted datagram. -/
def afterCommands (h : HostTask) (a : Accepted) (src : SocketAddr) (nowMs : U32)
    (cmds : List Command) : HostTask :=
  (onCommands a.key a.sentTime src nowMs h cmds []).1

/-- The ACK that `on_command` made for the command is in what the batch at the
end of the datagram sends. -/
def AckEmitted (h : HostTask) (a : Accepted) (src : SocketAddr) (nowMs : U32) (cmd : Command) :
    Prop :=
  let r := onCommands a.key a.sentTime src nowMs h a.cmds []
  ∃ x ∈ ackFor a.key a.sentTime cmd.header,
    ∃ e ∈ (r.1.flushAcks a.key src r.2 nowMs).trace.drop r.1.trace.length, e.carries x = true

instance (h : HostTask) (a : Accepted) (src : SocketAddr) (nowMs : U32) (cmd : Command) :
    Decidable (h.AckEmitted a src nowMs cmd) := by
  unfold AckEmitted
  infer_instance

/-- `R` holds of every reliable data command that a datagram brings to an
existing peer and that is acknowledged.  `pre` and `post` are the commands
before and after it in the datagram. -/
def EachAcked (h : HostTask) (raw : Bytes) (src : SocketAddr) (nowMs : U32)
    (R : Accepted → PeerKey → List Command → Command → List Command → ReliableData → Prop) : Prop :=
  ∀ a k, h.acceptDatagram raw src = some a → a.key = some k → (h.peer k).isSome = true →
    ∀ pre cmd post d, a.cmds = pre ++ cmd :: post → cmd.reliableData = some d →
      h.AckEmitted a src nowMs cmd → R a k pre cmd post d

/-- The data of the command is safe.  `p` is the entry as the command finds it:
the number was received before; or the payload was handed to `deliver`, by the
command or by a later one of the datagram (`done` are the later ones processed
until then); or the entry holds it when the datagram has been processed. -/
def Retained (h : HostTask) (raw : Bytes) (a : Accepted) (k : PeerKey) (src : SocketAddr)
    (nowMs : U32) (pre : List Command) (cmd : Command) (post : List Command) (d : ReliableData) :
    Prop :=
  ∃ p, (h.afterCommands a src nowMs pre).peer k = some p ∧
    (p.HadReceived cmd.header.channelId cmd.header.reliableSeq d
      ∨ (∃ done, done <+: post ∧ ∃ q,
          (h.afterCommands a src nowMs (pre ++ cmd :: done)).peer k = some q
            ∧ q.conn = p.conn ∧ p.DeliveredSince q cmd.header.channelId d)
      ∨ ∃ q, (h.onDatagram raw src nowMs).peer k = some q ∧ q.conn = p.conn
          ∧ q.HoldsData cmd.header.channelId cmd.header.reliableSeq d)

/-- Acknowledged data is safe. -/
def AckSound (h : HostTask) (raw : Bytes) (src : SocketAddr) (nowMs : U32) : Prop :=
  h.EachAcked raw src nowMs fun a k pre cmd post d => h.Retained raw a k src nowMs pre cmd post d

/-- The checks, made in the state in which the command is processed: its number
was received before; or it is delivered at once; or none of the places that drop
a command applies (or the payload is there already), and no later command of the
datagram ends the connection or writes over the payload while it is held. -/
def Safe (h : HostTask) (a : Accepted) (k : PeerKey) (src : SocketAddr) (nowMs : U32)
    (cmd : Command) (post : List Command) (d : ReliableData) : Prop :=
  ∃ p, h.peer k = some p ∧
    (p.HadReceived cmd.header.channelId cmd.header.reliableSeq d
      ∨ p.deliversNow cmd.header.channelId cmd.header.reliableSeq d = true
      ∨ ((p.takes cmd.header.channelId cmd.header.reliableSeq d = true
            ∨ p.HoldsData cmd.header.channelId cmd.header.reliableSeq d)
          ∧ Unharmed k a.sentTime src nowMs cmd.header.channelId cmd.header.reliableSeq d
            (h.dispatch (some k) a.sentTime cmd src nowMs) post))

/-- A connection is in its slot after the datagram iff no command after `h₂` ended it. -/
theorem onDatagram_hosts_iff {raw : Bytes} {src : SocketAddr} {nowMs : U32} {a : Accepted}
    (hacc : h.acceptDatagram raw src = some a) (hkey : a.key = some k) {pre post : List Command}
    (hcmds : a.cmds = pre ++ post) {conn : Nat} (ho : Owned (h.afterCommands a src nowMs pre))
    (hh : (h.afterCommands a src nowMs pre).Hosts k conn) :
    (h.onDatagram raw src nowMs).Hosts k conn
      ↔ Undisturbed k a.sentTime src nowMs (h.afterCommands a src nowMs pre) post := by
  simp only [onDatagram, hacc, hcmds, onCommands_append]
  simp only [afterCommands, hkey] at ho hh ⊢
  generalize onCommands (some k) a.sentTime src nowMs h pre [] = r at *
  have hend := onCommands_hosts a.sentTime src nowMs post r.1 r.2 ho hh
  generalize onCommands (some k) a.sentTime src nowMs r.1 post r.2 = r' at *
  have e : Exec nowMs _ r'.1 (r'.1.flushAcks (some k) src r'.2 nowMs) := flushAcks_exec _ _ _
  rcases hend with ⟨hu, hin⟩ | ⟨hu, hout⟩
  · refine iff_of_true (e.invariant (fun h => h.Hosts k conn) ?_ hin) hu
    rintro h₁ l hh hg ⟨j, cmds, rfl⟩
    exact hh.label hg (by simp)
  · exact iff_of_false (hout.exec e).1 hu

section Command

variable {raw : Bytes} {src : SocketAddr} {nowMs : U32} {a : Accepted} {pre post : List Command}
  (ho : Owned h) (hacc : h.acceptDatagram raw src = some a) (hkey : a.key = some k)
  (hcmds : a.cmds = pre ++ cmd :: post) (hd : cmd.reliableData = some d)

include hkey in
/-- The state after a command and some of the commands after it. -/
theorem afterCommands_cons (h : HostTask) (src : SocketAddr) (nowMs : U32) (pre : List Command)
    (cmd : Command) (done : List Command) :
    h.afterCommands a src nowMs (pre ++ cmd :: done)
      = (onCommands (some k) a.sentTime src nowMs
          ((h.afterCommands a src nowMs pre).dispatch (some k) a.sentTime cmd src nowMs) done
          ((onCommands a.key a.sentTime src nowMs h pre []).2
            ++ ackFor (some k) a.sentTime cmd.header)).1 := by
  simp only [afterCommands, onCommands_append, hkey]
  rfl

include ho hacc in
/-- The entry after the commands of the datagram, and after the datagram. -/
theorem onDatagram_untouched {q : PeerEntry}
    (hq : (h.afterCommands a src nowMs a.cmds).peer k = some q) (ch : U8) :
    (h.onDatagram raw src nowMs).Hosts k q.conn
      ∧ (h.onDatagram raw src nowMs).Tracks q.conn k (PeerEntry.UntouchedOn ch q) := by
  have ho' : Owned (h.afterCommands a src nowMs a.cmds) :=
    ho.exec (onCommands_exec_true a.key a.sentTime src nowMs a.cmds h [])
  simp only [onDatagram, hacc]
  simp only [afterCommands] at hq ho'
  generalize onCommands a.key a.sentTime src nowMs h a.cmds [] = r at *
  refine ⟨?_, flushAcks_untouched ho' hq a.key src r.2 nowMs⟩
  have e : Exec nowMs _ r.1 (r.1.flushAcks a.key src r.2 nowMs) := flushAcks_exec _ _ _
  refine e.invariant (fun h => h.Hosts k q.conn) ?_ ⟨q, hq, rfl⟩
  rintro h₁ l hh hg ⟨j, cmds, rfl⟩
  exact hh.label hg (by simp)

include ho hacc hkey hcmds hd

/-- **One command**: data that passes the checks is safe. -/
theorem retained_of_safe (hs : (h.afterCommands a src nowMs pre).Safe a k src nowMs cmd post d) :
    h.Retained raw a k src nowMs pre cmd post d := by
  obtain ⟨p, hp, hcase⟩ := hs
  refine ⟨p, hp, ?_⟩
  have ho₁ : Owned (h.afterCommands a src nowMs pre) :=
    ho.exec (onCommands_exec_true a.key a.sentTime src nowMs pre h [])
  obtain ⟨q, hq, hconn, hch, hdel⟩ := peer_dispatch_data hd hp a.sentTime src nowMs
  have hafter := afterCommands_cons hkey h src nowMs pre cmd
  -- delivered by the command itself
  have hatonce : p.deliversNow cmd.header.channelId cmd.header.reliableSeq d = true →
      p.DeliveredSince q cmd.header.channelId d := by
    intro hnow
    rw [PeerEntry.DeliveredSince, hdel]
    exact (p.delivered_iff _ _ nowMs d).mpr hnow
  rcases hcase with had | hnow | ⟨hin, hu⟩
  · exact .inl had
  · exact .inr (.inl ⟨[], List.nil_prefix, q, by rw [hafter]; exact hq, hconn, hatonce hnow⟩)
  cases hnow : p.deliversNow cmd.header.channelId cmd.header.reliableSeq d with
  | true =>
      exact .inr (.inl ⟨[], List.nil_prefix, q, by rw [hafter]; exact hq, hconn, hatonce hnow⟩)
  | false =>
      -- held after the command; the later commands keep it or deliver it
      have hheld : q.HoldsData cmd.header.channelId cmd.header.reliableSeq d := by
        simp only [PeerEntry.HoldsData, hch]
        exact (PeerEntry.holdsData_iff nowMs d hnow).mpr hin
      have hle : ∃ pkts, q.delivered = p.delivered ++ pkts := by
        rw [hdel]
        exact p.onData_delivered _ _ nowMs d
      have hrest := onCommands_kept a.sentTime src nowMs p post _
        ((onCommands a.key a.sentTime src nowMs h pre []).2
          ++ ackFor (some k) a.sentTime cmd.header) q
        (ho₁.exec (dispatch_exec nowMs _ (some k) a.sentTime cmd src)) hq hconn hle hheld hu
      simp only [← hafter, ← hcmds] at hrest
      refine .inr (hrest.imp_right ?_)
      rintro ⟨r, hr, hrconn, hrheld⟩
      obtain ⟨⟨x, hx, hxconn⟩, htr⟩ := onDatagram_untouched ho hacc hr cmd.header.channelId
      refine ⟨x, hx, hxconn.trans hrconn, ?_⟩
      exact (htr.2 k x hx hxconn).2.holdsData_iff.mpr hrheld

/-- **The last command for its channel**: its data is safe exactly if the checks
say so. -/
theorem retained_iff_safe (hlast : ∀ x ∈ post, x.header.channelId ≠ cmd.header.channelId) :
    h.Retained raw a k src nowMs pre cmd post d
      ↔ (h.afterCommands a src nowMs pre).Safe a k src nowMs cmd post d := by
  refine ⟨?_, retained_of_safe ho hacc hkey hcmds hd⟩
  rintro ⟨p, hp, hcase⟩
  refine ⟨p, hp, ?_⟩
  have ho₁ : Owned (h.afterCommands a src nowMs pre) :=
    ho.exec (onCommands_exec_true a.key a.sentTime src nowMs pre h [])
  obtain ⟨q, hq, hconn, hch, hdel⟩ := peer_dispatch_data hd hp a.sentTime src nowMs
  have ho₂ := ho₁.exec (dispatch_exec nowMs _ (some k) a.sentTime cmd src)
  have hafter := afterCommands_cons hkey h src nowMs pre cmd
  -- no later command touches the channel
  have hquiet : ∀ done, done <+: post → (h.afterCommands a src nowMs (pre ++ cmd :: done)).Tracks
      p.conn k (PeerEntry.UntouchedOn cmd.header.channelId q) := by
    intro done hdone
    rw [hafter, ← hconn]
    exact onCommands_untouched ho₂ hq _ _ _ (fun x hx => hlast x (hdone.subset hx)) _
  cases hnow : p.deliversNow cmd.header.channelId cmd.header.reliableSeq d with
  | true => exact .inr (.inl rfl)
  | false =>
      rcases hcase with had | ⟨done, hdone, r, hr, hrconn, hrdel⟩ | ⟨r, hr, hrconn, hrheld⟩
      · exact .inl had
      · -- nothing of the channel was delivered after the command, nor by it
        have hearly := ((hquiet done hdone).2 k r hr hrconn).2.deliveredSince hrdel
        rw [PeerEntry.DeliveredSince, hdel] at hearly
        have := (p.delivered_iff _ _ nowMs d).mp hearly
        rw [hnow] at this
        cases this
      · -- held at the end, so held after the command, and the connection survived
        have hsurvive : Undisturbed k a.sentTime src nowMs
            ((h.afterCommands a src nowMs pre).dispatch (some k) a.sentTime cmd src nowMs)
            post := by
          have hcmds' : a.cmds = (pre ++ [cmd]) ++ post := by simp [hcmds]
          have hfirst : h.afterCommands a src nowMs (pre ++ [cmd])
              = (h.afterCommands a src nowMs pre).dispatch (some k) a.sentTime cmd src nowMs :=
            hafter []
          rw [← hfirst] at hq ho₂ ⊢
          exact (onDatagram_hosts_iff hacc hkey hcmds' ho₂ ⟨q, hq, hconn⟩).mp ⟨r, hr, hrconn⟩
        have hend : (h.afterCommands a src nowMs a.cmds).Hosts k p.conn := by
          rw [hcmds, hafter]
          rcases onCommands_hosts a.sentTime src nowMs post _
            ((onCommands a.key a.sentTime src nowMs h pre []).2
              ++ ackFor (some k) a.sentTime cmd.header) ho₂ ⟨q, hq, hconn⟩ with hin | hout
          · exact hin.2
          · exact absurd hsurvive hout.1
        obtain ⟨x, hx, hxconn⟩ := hend
        have htr := (onDatagram_untouched ho hacc hx cmd.header.channelId).2
        have hu₂ := (htr.2 k r hr (hrconn.trans hxconn.symm)).2
        rw [hcmds] at hx
        have hu₁ := ((hquiet post (List.prefix_refl post)).2 k x hx hxconn).2
        have hheld := (hu₁.trans hu₂).holdsData_iff.mp hrheld
        simp only [PeerEntry.HoldsData, hch] at hheld
        refine .inr (.inr ⟨(PeerEntry.holdsData_iff nowMs d hnow).mp hheld, ?_⟩)
        exact hsurvive.unharmed hlast

end Command

/-- Alice's first messages: the second one on channel 0 before the first, and on
channel 1 a message in two fragments, with a PING between them. -/
def aliceMessages : Bytes :=
  peerDatagram 0 9
    [encodeCommand cmdSendReliable commandFlagAcknowledge 0 2 (be16 2 ++ [4, 5]),
     fragmentCommand 1 1 ⟨1, 2, 0, 4, 0, [6, 7]⟩,
     encodeCommand cmdSendReliable commandFlagAcknowledge 0 1 (be16 3 ++ [1, 2, 3]),
     encodeCommand cmdPing commandFlagAcknowledge channelIdConnection 2 [],
     fragmentCommand 1 2 ⟨1, 2, 1, 4, 2, [8, 9]⟩]

/-- The first command of the datagram brings a number that was never taken; it is
acknowledged, nothing is delivered, and the payload is not held at the end. -/
def losesFirst (h : HostTask) (raw : Bytes) (src : SocketAddr) (nowMs : U32) (k : PeerKey) : Bool :=
  (h.acceptDatagram raw src).any fun a => (h.peer k).any fun p => a.cmds.head?.any fun cmd =>
    cmd.reliableData.any fun d => decide (a.key = some k ∧ h.AckEmitted a src nowMs cmd
      ∧ .take cmd.header.channelId cmd.header.reliableSeq ∉ p.history
      ∧ (∀ i < a.cmds.length + 1, ∀ q,
          (h.afterCommands a src nowMs (a.cmds.take i)).peer k = some q →
            q.delivered = p.delivered)
      ∧ ∀ q, (h.onDatagram raw src nowMs).peer k = some q →
          ¬ q.HoldsData cmd.header.channelId cmd.header.reliableSeq d)

theorem not_ackSound_of_losesFirst {raw : Bytes} {src : SocketAddr} {nowMs : U32}
    (hl : h.losesFirst raw src nowMs k = true) : ¬ h.AckSound raw src nowMs := by
  simp only [losesFirst, Option.any_eq_true, decide_eq_true_eq] at hl
  obtain ⟨a, ha, p, hp, cmd, hcmd, d, hd, hkey, hack, hnew, hdel, hlost⟩ := hl
  obtain ⟨post, hcmds⟩ := List.head?_eq_some_iff.mp hcmd
  intro hsound
  obtain ⟨p', hp', hcase⟩ :=
    hsound a k ha hkey (by rw [hp]; rfl) [] cmd post d hcmds hd hack
  obtain rfl : p = p' := Option.some.inj (hp.symm.trans hp')
  rcases hcase with had | ⟨done, ⟨rest, hdone⟩, q, hq, -, m, -, hm⟩ | ⟨q, hq, -, hheld⟩
  · exact hnew had.1
  · have htake : a.cmds.take (done.length + 1) = cmd :: done := by
      rw [hcmds, ← hdone]
      simp
    have hlen : done.length + 1 < a.cmds.length + 1 := by
      rw [hcmds, ← hdone, List.length_cons, List.length_append]
      omega
    rw [hdel _ hlen q (by rw [htake]; exact hq)] at hm
    simp at hm
  · exact hlost q hq hheld

/-- The first fragment of a message of 20 MiB. -/
def hugeFragment : SendFragmentCmd :=
  { startSeq := 1
    fragmentCount := 15375
    fragmentNumber := 0
    totalLength := 20 * 1024 * 1024
    fragmentOffset := 0
    data := [1, 2, 3, 4] }

/-- Two messages with one number, ahead of the one that is expected. -/
def twoThirds : Bytes :=
  peerDatagram 0 9
    [encodeCommand cmdSendReliable commandFlagAcknowledge 0 3 (be16 1 ++ [5]),
     encodeCommand cmdSendReliable commandFlagAcknowledge 0 3 (be16 1 ++ [6])]

end HostTask

end EnetRs
