/-
  EnetRs.Sending.Transmissions — every transmission on record was a datagram.

  `transmissions` records when a reliable command was sent.  The record is made
  when the command is stored, or marked as due by the retransmission loop; the
  datagram goes out a moment later, in the same turn of the main loop.  In between
  the entry owes it.

  Main results:
    * `HostTask.Owes.flushBatch` — a batch that goes out pays what is owed.
    * `HostTask.Settled.step` — no turn of the main loop ends with a debt.
    * `HostTask.transmissions_emitted` — in every reachable state the times on
      record are those of datagrams that carry the stored bytes to the peer.
-/
import EnetRs.Exchange.Datagram
import EnetRs.Host.Ownership

namespace EnetRs

open MachineInt

/-! ## §1. What is marked as sent. -/

/-- Every command outstanding in `q` is so in `p`, or it is one of `cmds` and is
marked as sent at `nowMs`: for the first time or once more. -/
structure Marks (nowMs : U32) (cmds : List Bytes) (p q : PeerEntry) : Prop where
  addr : q.addr = p.addr
  each : ∀ (key : U8 × U16) (r : OutstandingReliable), q.outgoingReliable[key]? = some r →
    p.outgoingReliable[key]? = some r ∨ r.packetBytes ∈ cmds
      ∧ (r.transmissions = [nowMs]
        ∨ ∃ r₀, p.outgoingReliable[key]? = some r₀ ∧ r = r₀.retransmit nowMs)

namespace Marks

variable {nowMs : U32} {cmds : List Bytes} {p q s : PeerEntry}

theorem of_same (haddr : q.addr = p.addr) (hout : q.outgoingReliable = p.outgoingReliable) :
    Marks nowMs cmds p q :=
  ⟨haddr, fun _ _ hr => .inl (hout ▸ hr)⟩

/-- What does not touch the outstanding commands may follow. -/
theorem then_same (hm : Marks nowMs cmds p q) (haddr : s.addr = q.addr)
    (hout : s.outgoingReliable = q.outgoingReliable) : Marks nowMs cmds p s :=
  ⟨haddr.trans hm.addr, fun key r hr => hm.each key r (hout ▸ hr)⟩

/-- Storing a command marks it: it is outstanding under its key with one transmission,
which is now. -/
theorem track (hm : Marks nowMs cmds p q) (ch : U8) (seq : U16) (cmdType : U8) (cmd : Bytes) :
    Marks nowMs (cmds ++ [cmd]) p (q.track ch seq cmdType cmd nowMs) := by
  refine ⟨hm.addr, fun key r hr => ?_⟩
  simp only [PeerEntry.track] at hr
  rw [Std.ExtTreeMap.getElem?_insert] at hr
  split at hr
  · cases hr
    exact .inr ⟨List.mem_append_right _ List.mem_cons_self, .inl rfl⟩
  · exact (hm.each key r hr).imp_right fun hnew => ⟨List.mem_append_left _ hnew.1, hnew.2⟩

theorem next (hm : Marks nowMs cmds p q) (ch : U8) : Marks nowMs cmds p (q.nextReliableSeq ch).1 := by
  refine hm.then_same ?_ ?_ <;> (unfold PeerEntry.nextReliableSeq; split <;> rfl)

/-- A command made from its parts takes a number, which marks nothing, and is stored. -/
theorem makeReliable (p : PeerEntry) (ch cmdType flags : U8) (body : Bytes) :
    Marks nowMs [(p.makeReliable ch cmdType flags nowMs body).2] p
      (p.makeReliable ch cmdType flags nowMs body).1 := by
  have htake : Marks nowMs [] p (p.takeSeq ch).1 := by
    unfold PeerEntry.takeSeq
    split
    · exact .of_same rfl rfl
    · exact (Marks.of_same rfl rfl).next ch
  exact htake.track _ _ _ _

theorem numberWhole (p : PeerEntry) (pkt : Packet) :
    Marks nowMs [(p.numberWhole pkt nowMs).2] p (p.numberWhole pkt nowMs).1 :=
  (makeReliable p _ _ _ _).then_same rfl rfl

/-- The fragmentation loop, with what was marked before it as `cmds`. -/
theorem fragmentLoop (ch : U8) (startSeq : U16) (fp : Nat) (data : Bytes) :
    ∀ (n i : Nat) (cmds : List Bytes) (q : PeerEntry), Marks nowMs cmds p q →
      Marks nowMs (cmds ++ (PeerEntry.fragmentLoop ch startSeq fp data nowMs n i q).2) p
        (PeerEntry.fragmentLoop ch startSeq fp data nowMs n i q).1 := by
  intro n
  induction n with
  | zero =>
      intro i cmds q hm
      simpa [PeerEntry.fragmentLoop] using hm
  | succ n ih =>
      intro i cmds q hm
      unfold PeerEntry.fragmentLoop
      rw [List.append_cons]
      by_cases hi : i = 0
      · simp only [hi, if_true]
        exact ih _ _ _ (hm.track _ _ _ _)
      · simp only [hi, if_false]
        exact ih _ _ _ ((hm.next ch).track _ _ _ _)

/-- A packet in fragments: each of them is stored, and each is among the commands that
are handed out. -/
theorem numberFragments (p : PeerEntry) (pkt : Packet) (fp : Nat) :
    Marks nowMs (p.numberFragments pkt fp nowMs).2 p (p.numberFragments pkt fp nowMs).1 := by
  have hstart : Marks nowMs [] p (p.nextReliableSeq pkt.channel).1 :=
    (Marks.of_same rfl rfl).next pkt.channel
  exact (fragmentLoop pkt.channel (p.nextReliableSeq pkt.channel).2 fp pkt.data
    (fragCount fp pkt.data) 0 [] _ hstart).then_same rfl rfl

/-! A new entry starts with nothing outstanding; its CONNECT or VERIFY_CONNECT is the
first command that it stores. -/

theorem clientHandshake (h : HostTask) (slot : PeerKey) (addr : SocketAddr) (channelCount : U8)
    (userData : U32) (reply : ConnectReplySender) (connectId : U32) :
    ∃ p : PeerEntry, p.outgoingReliable = ∅
      ∧ Marks nowMs [(h.clientHandshake slot addr channelCount userData nowMs reply connectId).2] p
        (h.clientHandshake slot addr channelCount userData nowMs reply connectId).1 := by
  refine ⟨{ PeerEntry.fresh addr connectId h.nextConn h.hostMtu (umax channelCount 1) nowMs with
    connectReply := some reply }, rfl, ?_⟩
  exact (makeReliable _ channelIdConnection cmdConnect 0 _).then_same rfl rfl

/-- The same for the VERIFY_CONNECT of the entry that `on_connect` builds. -/
theorem serverHandshake (h : HostTask) (slot : PeerKey) (connect : ConnectCmd)
    (hdr : CommandHeader) (src : SocketAddr) :
    ∃ p : PeerEntry, p.outgoingReliable = ∅
      ∧ Marks nowMs [(h.serverHandshake slot connect hdr src nowMs).2] p
        (h.serverHandshake slot connect hdr src nowMs).1 := by
  refine ⟨h.serverEntry connect hdr src nowMs, rfl, ?_⟩
  exact (makeReliable _ channelIdConnection cmdVerifyConnect 0 _).then_same rfl rfl

/-- The retransmission loop marks what it hands out. -/
theorem retransmit (nowMs : U32) (p : PeerEntry) :
    Marks nowMs (retransmitLoop nowMs p.outgoingReliable.toList p.outgoingReliable).2.2 p
      (PeerOp.retransmit.apply nowMs p) := by
  refine ⟨rfl, fun key r hr => ?_⟩
  rcases retransmitLoop_toList nowMs p.outgoingReliable key with
    ⟨-, hnone⟩ | ⟨r₀, r', hr₀, hr', hres, hsent⟩
  · cases hnone.symm.trans hr
  · obtain rfl : r' = r := Option.some.inj (hr'.symm.trans hr)
    rcases hsent with rfl | hsent
    · exact .inl hr₀
    · rcases hres with rfl | ⟨-, -, rfl⟩
      · exact .inl hr₀
      · exact .inr ⟨hsent, .inr ⟨r₀, hr₀, rfl⟩⟩

end Marks

/-! ## §2. What is on the wire. -/

/-- The sent time of a datagram that carries `cmd` to `addr`. -/
def Event.stamp (addr : SocketAddr) (cmd : Bytes) : Event → Option U16
  | .sent dest cmds datagram =>
      if dest = addr ∧ cmds.contains cmd then (ProtocolHeader.parse datagram).bind (·.1.sentTime)
      else none
  | _ => none

namespace HostTask

/-- The sent times of the datagrams that carried `cmd` to `addr`, in their order. -/
def stamps (h : HostTask) (addr : SocketAddr) (cmd : Bytes) : List U16 :=
  h.trace.filterMap (Event.stamp addr cmd)

/-- Each of the times is the sent time of a datagram of its own that carries `cmd`;
the header has 16 bits for it. -/
def Emitted (h : HostTask) (addr : SocketAddr) (cmd : Bytes) (times : List U32) : Prop :=
  (times.map (BitVec.setWidth 16)).Sublist (h.stamps addr cmd)

/-- The transmissions on record were emitted; the last one, at `nowMs`, may still be
to come if the command is `due`. -/
def Recorded (h : HostTask) (nowMs : U32) (due : Prop) (addr : SocketAddr)
    (r : OutstandingReliable) : Prop :=
  h.Emitted addr r.packetBytes r.transmissions
    ∨ due ∧ ∃ times, r.transmissions = times ++ [nowMs] ∧ h.Emitted addr r.packetBytes times

/-- What is recorded as sent was sent, but for `owed`: these commands of slot `key`
are marked as sent at `nowMs` and have yet to go out. -/
def Owes (nowMs : U32) (key : PeerKey) (owed : List Bytes) (h : HostTask) : Prop :=
  ∀ k p, h.peer k = some p → ∀ (id : U8 × U16) r, p.outgoingReliable[id]? = some r →
    h.Recorded nowMs (k = key ∧ r.packetBytes ∈ owed) p.addr r

/-- What is recorded as sent was sent. -/
def Settled (h : HostTask) : Prop :=
  ∀ k p, h.peer k = some p → ∀ (id : U8 × U16) r, p.outgoingReliable[id]? = some r →
    h.Emitted p.addr r.packetBytes r.transmissions

variable {nowMs : U32} {h h' : HostTask} {key : PeerKey} {p q : PeerEntry} {cmds owed : List Bytes}

/-- The trace only grows, so what was emitted stays emitted. -/
theorem Emitted.mono {addr : SocketAddr} {cmd : Bytes} {times : List U32} {es : List Event}
    (hem : h.Emitted addr cmd times) (htrace : h'.trace = h.trace ++ es) :
    h'.Emitted addr cmd times := by
  unfold Emitted stamps at *
  rw [htrace, List.filterMap_append]
  exact hem.trans (List.sublist_append_left _ _)

/-- A datagram that carries the command is one more time. -/
theorem Emitted.snoc {cmd : Bytes} {times : List U32} {batch : List Bytes} (ck : Bool)
    (hem : h.Emitted p.addr cmd times) (hmem : cmd ∈ batch)
    (htrace : h'.trace = h.trace ++ [.sent p.addr batch (makeDatagram ck p batch nowMs)]) :
    h'.Emitted p.addr cmd (times ++ [nowMs]) := by
  have hstamp : Event.stamp p.addr cmd (.sent p.addr batch (makeDatagram ck p batch nowMs))
      = some (nowMs.setWidth 16) := by
    simp [Event.stamp, hmem, parse_makeDatagram, PeerEntry.datagramHeader]
  unfold Emitted stamps at *
  rw [htrace, List.filterMap_append, List.map_append]
  refine hem.append ?_
  simp [hstamp]

theorem Recorded.mono {due due' : Prop} {addr : SocketAddr} {r : OutstandingReliable}
    {es : List Event} (hr : h.Recorded nowMs due addr r) (htrace : h'.trace = h.trace ++ es)
    (hdue : due → due') : h'.Recorded nowMs due' addr r := by
  refine hr.imp (fun hem => hem.mono htrace) ?_
  rintro ⟨hd, times, htimes, hem⟩
  exact ⟨hdue hd, times, htimes, hem.mono htrace⟩

/-! ## §3. Debts and how they are paid. -/

theorem Settled.owes (hs : h.Settled) : h.Owes nowMs key owed :=
  fun k p hp id r hr => .inl (hs k p hp id r hr)

/-- Nothing owed is everything paid. -/
theorem Owes.settled (ho : h.Owes nowMs key []) : h.Settled := by
  intro k p hp id r hr
  rcases ho k p hp id r hr with hem | ⟨⟨-, hmem⟩, -⟩
  · exact hem
  · cases hmem

/-- A slot without an entry owes nothing. -/
theorem Owes.settled_of_none (ho : h.Owes nowMs key owed) (hn : h.peer key = none) :
    h.Settled := by
  intro k p hp id r hr
  rcases ho k p hp id r hr with hem | ⟨⟨rfl, -⟩, -⟩
  · exact hem
  · cases hn.symm.trans hp

/-- A marked entry owes the commands that it marked. -/
theorem Settled.setPeer (hs : h.Settled) (hp : h.peer key = some p) (hm : Marks nowMs cmds p q) :
    (h.setPeer key q).Owes nowMs key cmds := by
  intro k q' hq' id r hr
  rw [peer_setPeer hp] at hq'
  split at hq'
  · next hk =>
    cases hq'
    rw [hm.addr]
    rcases hm.each id r hr with hold | ⟨hmem, hnew | ⟨r₀, hr₀, rfl⟩⟩
    · exact .inl (hs key p hp id r hold)
    · exact .inr ⟨⟨hk, hmem⟩, [], hnew, List.nil_sublist _⟩
    · exact .inr ⟨⟨hk, hmem⟩, r₀.transmissions, rfl, hs key p hp id r₀ hr₀⟩
  · exact .inl (hs k q' hq' id r hr)

/-- An entry may change in other fields. -/
theorem Settled.setPeer_same (hs : h.Settled) (hp : h.peer key = some p) (haddr : q.addr = p.addr)
    (hout : q.outgoingReliable = p.outgoingReliable) : (h.setPeer key q).Settled := by
  have ho : (h.setPeer key q).Owes 0 key [] := hs.setPeer hp (.of_same haddr hout)
  exact ho.settled

theorem Settled.updatePeer (hs : h.Settled) {f : PeerEntry → PeerEntry}
    (hf : ∀ p, (f p).addr = p.addr ∧ (f p).outgoingReliable = p.outgoingReliable) :
    (h.updatePeer key f).Settled := by
  cases hp : h.peer key with
  | none => rwa [updatePeer_of_none hp]
  | some p =>
      rw [updatePeer_of_some hp]
      exact hs.setPeer_same hp (hf p).1 (hf p).2

/-- A new entry owes the command it was built with. -/
theorem Settled.install (hs : h.Settled) {slot : PeerKey} (hfree : h.allocSlot = some slot)
    (hempty : p.outgoingReliable = ∅) (hm : Marks nowMs cmds p q) :
    (h.install slot q).Owes nowMs slot cmds := by
  have hno : ∀ (id : U8 × U16) (r : OutstandingReliable), p.outgoingReliable[id]? ≠ some r := by
    intro id r hr
    rw [hempty, Std.ExtTreeMap.getElem?_empty] at hr
    cases hr
  intro k q' hq' id r hr
  rw [peer_install hfree] at hq'
  split at hq'
  · next hk =>
    cases hq'
    rcases hm.each id r hr with hold | ⟨hmem, hnew | ⟨r₀, hr₀, -⟩⟩
    · exact absurd hold (hno id r)
    · exact .inr ⟨⟨hk, hmem⟩, [], hnew, List.nil_sublist _⟩
    · exact absurd hr₀ (hno id r₀)
  · exact .inl (hs k q' hq' id r hr)

/-- **A batch that goes out pays for what it carries.** -/
theorem Owes.emitByKey {batch rest : List Bytes} (ho : h.Owes nowMs key owed)
    (hpay : ∀ b ∈ owed, b ∈ batch ∨ b ∈ rest) :
    (h.emitByKey key batch nowMs).Owes nowMs key rest := by
  cases hp : h.peer key with
  | none =>
      rw [emitByKey_of_none hp]
      exact (ho.settled_of_none hp).owes
  | some p =>
      intro k q hq id r hr
      by_cases hb : batch = []
      · subst hb
        have hsame : (h.emitByKey key [] nowMs).trace = h.trace ++ [] := (List.append_nil _).symm
        refine (ho k q hq id r hr).mono hsame fun hdue => ⟨hdue.1, ?_⟩
        exact (hpay _ hdue.2).resolve_left List.not_mem_nil
      · rw [emitByKey_of_some hp hb] at hq ⊢
        generalize hh : (h.setPeer key { p with lastSendTime := nowMs }).note
          (.sent p.addr batch (makeDatagram h.useChecksum p batch nowMs)) = h₁ at hq ⊢
        have htrace : h₁.trace
            = h.trace ++ [.sent p.addr batch (makeDatagram h.useChecksum p batch nowMs)] := by
          rw [← hh]
          rfl
        -- the entry that sends is the same but for `lastSendTime`
        obtain ⟨q₀, hq₀, haddr, hout⟩ : ∃ q₀, h.peer k = some q₀ ∧ q.addr = q₀.addr
            ∧ q.outgoingReliable = q₀.outgoingReliable := by
          rw [← hh, note_peer, peer_setPeer hp] at hq
          split at hq
          · next hk =>
            cases hq
            exact ⟨p, hk ▸ hp, rfl, rfl⟩
          · exact ⟨q, hq, rfl, rfl⟩
        rw [hout] at hr
        rw [haddr]
        rcases ho k q₀ hq₀ id r hr with hem | ⟨⟨rfl, hmem⟩, times, htimes, hem⟩
        · exact .inl (hem.mono htrace)
        · cases hp.symm.trans hq₀
          rcases hpay _ hmem with hin | hrest
          · unfold Recorded
            rw [htimes]
            exact .inl (hem.snoc _ hin htrace)
          · exact .inr ⟨⟨rfl, hrest⟩, times, htimes, hem.mono htrace⟩

/-- How what was marked goes out in one datagram. -/
theorem Owes.emit_all {batch : List Bytes} (ho : h.Owes nowMs key owed)
    (hpay : ∀ b ∈ owed, b ∈ batch) : (h.emitByKey key batch nowMs).Settled := by
  have hpaid : (h.emitByKey key batch nowMs).Owes nowMs key [] :=
    ho.emitByKey fun b hb => .inl (hpay b hb)
  exact hpaid.settled

/-- What is collected and what is still to come is owed until the loop is over. -/
theorem Owes.flushLoop (mtu hdr : Nat) :
    ∀ (cmds batch : List Bytes) (h : HostTask) (sz : Nat), h.Owes nowMs key (batch ++ cmds) →
      (flushLoop key nowMs mtu hdr h cmds batch sz).Settled := by
  intro cmds
  induction cmds with
  | nil =>
      intro batch h sz ho
      rw [List.append_nil] at ho
      exact ho.emit_all fun _ hb => hb
  | cons cmd cmds ih =>
      intro batch h sz ho
      unfold HostTask.flushLoop
      split
      · exact ih _ _ _ (ho.emitByKey fun b hb => List.mem_append.mp hb)
      · refine ih _ _ _ ?_
        rwa [List.append_assoc]

/-- **A batch that goes out pays what is owed**, in as many datagrams as it takes; a
slot that has no entry has nothing to pay. -/
theorem Owes.flushBatch (ho : h.Owes nowMs key cmds) :
    (h.flushBatch key cmds nowMs).Settled := by
  unfold HostTask.flushBatch
  split
  · next hp => exact ho.settled_of_none hp
  · exact Owes.flushLoop _ _ _ _ _ _ ho

/-! ## §4. Changes that mark nothing. -/

/-- The changes that neither store a command nor mark one. -/
def Steady : Label → Prop
  | .op _ (.connectionCmd _ _) | .op _ (.numberWhole _) | .op _ (.numberFragments _ _)
  | .op _ .retransmit | .install _ _ => False
  | _ => True

/-- A change that marks nothing leaves the debts as they are: the outstanding commands
after it were there before, and the trace has only grown. -/
theorem Owes.label {l : Label} (ho : h.Owes nowMs key owed) (hg : l.Guard nowMs h)
    (hl : Steady l) : (l.apply nowMs h).Owes nowMs key owed := by
  obtain ⟨es, htrace⟩ : ∃ es, (l.apply nowMs h).trace = h.trace ++ es := by
    cases l with
    | op k o =>
        obtain ⟨p, hp, -⟩ := hg
        exact ⟨_, Label.trace_apply_op hp o⟩
    | raw connect addr => exact ⟨_, rfl⟩
    | _ => exact ⟨[], (List.append_nil _).symm⟩
  refine Label.entries_at (I := fun k p => ∀ (id : U8 × U16) r, p.outgoingReliable[id]? = some r →
    (l.apply nowMs h).Recorded nowMs (k = key ∧ r.packetBytes ∈ owed) p.addr r) hg ?_ ?_
    fun k p hp id r hr => (ho k p hp id r hr).mono htrace fun hdue => hdue
  · rintro slot entry rfl
    exact hl.elim
  · -- what is outstanding after a steady operation was so before, with the same record
    rintro k p o rfl hp hI - id r hr
    rw [(o.sameConnection nowMs p).addr]
    refine hI id r (PeerOp.outgoing_of_steady ?_ ?_ nowMs p hr)
    · intro hc
      cases o <;> first | exact hl | exact hc
    · rintro rfl
      exact hl

theorem Settled.label {l : Label} (hs : h.Settled) (hg : l.Guard nowMs h) (hl : Steady l) :
    (l.apply nowMs h).Settled := by
  have ho : h.Owes nowMs 0 [] := hs.owes
  exact (ho.label hg hl).settled

theorem Settled.exec {C : Cond} (hs : h.Settled) (e : Exec nowMs C h h')
    (hC : ∀ h l, C h l → Steady l) : h'.Settled :=
  e.invariant Settled (fun h l hs hg hl => hs.label hg (hC h l hl)) hs

/-! ## §5. The functions of the task. -/

/-- A control command is owed from its storing until the datagram right after it. -/
theorem Settled.sendConnectionCmd (hs : h.Settled) (key : PeerKey) (cmdType : U8) (body : Bytes) :
    (h.sendConnectionCmd key cmdType body nowMs).Settled := by
  unfold HostTask.sendConnectionCmd
  split
  · exact hs
  · next p hp => exact (hs.setPeer hp (.makeReliable ..)).emit_all fun _ hb => hb

/-- A reliable packet waits, or what was numbered goes out at once: whole in one
datagram, in fragments through `flush_batch`. -/
theorem Settled.sendReliable (hs : h.Settled) (hp : h.peer key = some p) (pkt : Packet) :
    (h.sendReliable key p pkt nowMs).Settled := by
  unfold HostTask.sendReliable
  split
  · exact hs
  · split
    · refine hs.setPeer_same hp ?_ ?_ <;> (unfold PeerEntry.queuePending; split <;> rfl)
    · split
      · exact (hs.setPeer hp (.numberWhole ..)).emit_all fun _ hb => hb
      · exact (hs.setPeer hp (.numberFragments ..)).flushBatch

/-- A packet that is not reliable is not tracked. -/
theorem steady_of_send {pkt : Packet} {h₁ : HostTask} {l : Label} (hmode : pkt.mode ≠ .reliable)
    (hg : l.Guard nowMs h₁) (hl : SendMakes h key pkt h₁ l) : Steady l := by
  have hquiet := Quiet.of_send hmode hg hl
  cases l with
  | op k o =>
      cases o with
      | numberWhole | numberFragments => exact hquiet
      | connectionCmd | retransmit => exact hl.2.2
      | _ => trivial
  | install slot entry => exact hl
  | _ => trivial

/-- Only a reliable packet is tracked, so the other modes consist of changes that mark
nothing. -/
theorem Settled.sendPacket (hs : h.Settled) {pkt : Packet}
    (hsend : h.sendPacket key pkt nowMs = some h') : h'.Settled := by
  by_cases hmode : pkt.mode = .reliable
  · simp only [HostTask.sendPacket, hmode] at hsend
    split at hsend
    · cases hsend
      exact hs
    · next p hp =>
      split at hsend
      · cases hsend
        exact hs
      · cases hsend
        exact hs.sendReliable hp pkt
  · exact (sendPacket_exec pkt hsend).invariant Settled
      (fun h₁ l hs hg hl => hs.label hg (steady_of_send hmode hg hl)) hs

theorem Settled.sendAll :
    ∀ (pkts : List Packet) (h : HostTask), h.Settled → sendAll key nowMs h pkts = some h' →
      h'.Settled := by
  intro pkts
  induction pkts with
  | nil =>
      intro h hs hsend
      cases hsend
      exact hs
  | cons pkt pkts ih =>
      intro h hs hsend
      obtain ⟨h₁, hfirst, hrest⟩ := Option.bind_eq_some_iff.mp hsend
      exact ih h₁ (hs.sendPacket hfirst) hrest

theorem Settled.drainPending (hs : h.Settled) (hd : h.drainPending key nowMs = some h') :
    h'.Settled := by
  unfold HostTask.drainPending at hd
  split at hd
  · cases hd
    exact hs
  · next p hp =>
    have hcleared : (h.setPeer key { p with pendingSend := [] }).Settled :=
      hs.setPeer_same hp rfl rfl
    exact Settled.sendAll _ _ hcleared hd

/-- A request to disconnect marks nothing but the DISCONNECT that it may send. -/
theorem Settled.sendDisconnect (hs : h.Settled) (key : PeerKey) (data : U32) :
    (h.sendDisconnect key data nowMs).Settled := by
  unfold HostTask.sendDisconnect
  split
  · exact hs
  · next p hp =>
    have hcase : (if !p.outgoingReliable.isEmpty then
          h.setPeer key { p with state := .disconnectLater data }
        else (h.setPeer key { p with state := .disconnecting }).sendConnectionCmd key
          cmdDisconnect (be32 data) nowMs).Settled := by
      split
      · exact hs.setPeer_same hp rfl rfl
      · have hbegun : (h.setPeer key { p with state := .disconnecting }).Settled :=
          hs.setPeer_same hp rfl rfl
        exact hbegun.sendConnectionCmd _ _ _
    split <;> first | exact hs | exact hcase

/-- A peer that is given up owes nothing any more. -/
theorem Owes.notify_remove (ho : h.Owes nowMs key owed) (data : Option U32) :
    ((h.notifyDisconnect key data).removePeer key).Settled := by
  have e : Exec nowMs (fun _ l => Steady l) h ((h.notifyDisconnect key data).removePeer key) :=
    notify_remove_exec data trivial fun _ _ => trivial
  have hleft := e.invariant (Owes nowMs key owed) (fun _ _ ho hg hl => ho.label hg hl) ho
  refine hleft.settled_of_none ?_
  rw [peer_removePeer, if_pos rfl]

/-- What the retransmission loop marked goes out first. -/
theorem Owes.serviceSends {retransmits : List Bytes} (ho : h.Owes nowMs key retransmits)
    (pingNeeded : Bool) (disconnectLater : Option U32) :
    (h.serviceSends key retransmits pingNeeded disconnectLater nowMs).Settled := by
  have hflushed : (if retransmits.isEmpty then h else h.flushBatch key retransmits nowMs).Settled := by
    split
    · next hnone =>
      rw [List.isEmpty_iff.mp hnone] at ho
      exact ho.settled
    · exact ho.flushBatch
  simp only [HostTask.serviceSends]
  generalize (if retransmits.isEmpty then h else h.flushBatch key retransmits nowMs) = h₁
    at hflushed ⊢
  have hpinged : (if pingNeeded then h₁.sendConnectionCmd key cmdPing [] nowMs else h₁).Settled := by
    split
    · exact hflushed.sendConnectionCmd _ _ _
    · exact hflushed
  generalize (if pingNeeded then h₁.sendConnectionCmd key cmdPing [] nowMs else h₁) = h₂
    at hpinged ⊢
  cases disconnectLater with
  | none => exact hpinged
  | some data =>
      have hbegun : (h₂.updatePeer key fun p => { p with state := .disconnecting }).Settled :=
        hpinged.updatePeer fun _ => ⟨rfl, rfl⟩
      exact hbegun.sendConnectionCmd _ _ _

/-- The retransmission loop marks what is due, and then either the entry is given up,
and with it the debt, or the marked commands go out. -/
theorem Settled.serviceChecks (hs : h.Settled) (hp : h.peer key = some p) (nowMs : U32) :
    (h.serviceChecks key p nowMs).1.Settled := by
  have ho := hs.setPeer hp (Marks.retransmit nowMs p)
  unfold HostTask.serviceChecks
  simp only [PeerOp.apply] at ho
  generalize retransmitLoop nowMs p.outgoingReliable.toList p.outgoingReliable = r at ho ⊢
  obtain ⟨timedOut, outgoing, retransmits⟩ := r
  simp only at ho ⊢
  split
  · exact ho.notify_remove none
  · exact ho.serviceSends _ _

theorem Settled.serviceEach :
    ∀ (keys : List PeerKey) (h : HostTask), h.Settled → serviceEach nowMs h keys = some h' →
      h'.Settled := by
  intro keys
  induction keys with
  | nil =>
      intro h hs hserve
      cases hserve
      exact hs
  | cons key keys ih =>
      intro h hs hserve
      obtain ⟨h₁, hfirst, hrest⟩ := Option.bind_eq_some_iff.mp hserve
      refine ih h₁ ?_ hrest
      unfold serviceOne at hfirst
      split at hfirst
      · cases hfirst
        exact hs
      · next p hp =>
        simp only at hfirst
        split at hfirst
        · exact (hs.serviceChecks hp nowMs).drainPending hfirst
        · cases hfirst
          exact hs.serviceChecks hp nowMs

/-- The windows are other fields of the entries; every BANDWIDTH_LIMIT is paid at once. -/
theorem Settled.throttlePeers (hs : h.Settled) (keys : List PeerKey) (nowMs : U32) :
    (h.throttlePeers keys nowMs).Settled := by
  have hwindows : ∀ w : U32, (keys.foldl (fun h key =>
      h.updatePeer key fun p => { p with windowSize := w }) h).Settled :=
    fun w => List.foldlRecOn keys _ hs fun _ hs _ _ => hs.updatePeer fun _ => ⟨rfl, rfl⟩
  have hlimits : ∀ {h : HostTask} (body : Bytes), h.Settled → (keys.foldl (fun h key =>
      h.sendConnectionCmd key cmdBandwidthLimit body nowMs) h).Settled :=
    fun body hs => List.foldlRecOn keys _ hs fun _ hs key _ => hs.sendConnectionCmd key _ body
  unfold HostTask.throttlePeers
  extract_lets peerCount perPeer h₁ ib ob
  have hs₁ : h₁.Settled := by
    simp only [h₁]
    split
    · exact hwindows perPeer
    · exact hs
  split
  · exact hs₁
  · exact hlimits _ hs₁

theorem Settled.bandwidthThrottle (hs : h.Settled) (nowMs : U32) :
    (h.bandwidthThrottle nowMs).Settled := by
  unfold HostTask.bandwidthThrottle
  split
  · exact hs
  · have hs₁ : ({ h with bandwidthThrottleEpoch := nowMs } : HostTask).Settled := hs
    simp only
    split
    · exact hs₁
    · split
      · exact hs₁
      · exact hs₁.throttlePeers _ _

/-- The new entry owes its VERIFY_CONNECT until the reply, which carries it. -/
theorem Settled.onConnect (hs : h.Settled) (c : ConnectCmd) (hdr : CommandHeader)
    (sentTime : Option U16) (src : SocketAddr) : (h.onConnect c hdr sentTime src nowMs).Settled := by
  have e : Exec nowMs (fun _ l => Steady l) h (h.evictAddr src) :=
    evictAddr_exec src (fun _ _ _ _ => trivial) fun _ _ _ => trivial
  have hevicted : (h.evictAddr src).Settled := hs.exec e fun _ _ hl => hl
  unfold HostTask.onConnect
  simp only
  split
  · next hfull => exact hevicted.label (l := .raw c src) hfull trivial
  · next slot hfree =>
    obtain ⟨p, hempty, hm⟩ := Marks.serverHandshake (h.evictAddr src) slot c hdr src
    exact (hevicted.install hfree hempty hm).emit_all fun b hb => List.mem_append_right _ hb

/-- A command other than CONNECT stores none and marks none. -/
theorem steady_of_makes {cmd : Command} {key : Option PeerKey} {src : SocketAddr} {h₁ : HostTask}
    {l : Label} (hty : cmd.header.commandType ≠ cmdConnect)
    (hl : cmd.Makes h key src nowMs h₁ l) : Steady l := by
  cases l with
  | op k o =>
      cases o with
      | numberWhole | numberFragments | connectionCmd | retransmit => exact hl.2.2
      | _ => trivial
  | install slot entry =>
      obtain ⟨c, hc, -⟩ := hl
      exact hty hc.1
  | _ => trivial

theorem Settled.dispatch (hs : h.Settled) (key : Option PeerKey) (sentTime : Option U16)
    (cmd : Command) (src : SocketAddr) : (h.dispatch key sentTime cmd src nowMs).Settled := by
  by_cases hty : cmd.header.commandType = cmdConnect
  · simp only [HostTask.dispatch, hty, if_true]
    split
    · exact hs.onConnect _ _ _ _
    · exact hs
  · exact hs.exec (dispatch_exec nowMs h key sentTime cmd src) fun _ _ hl => steady_of_makes hty hl

/-- **No turn of the main loop ends with a debt.** -/
theorem Settled.step {i : Timed} (hs : h.Settled) (hstep : h.timedStep i = some h') :
    h'.Settled := by
  obtain ⟨nowMs, i⟩ := i
  cases i with
  | datagram raw src =>
      cases hstep
      exact onDatagram_invariant (P := fun _ _ _ _ => True) Settled
        (fun a _ => commandsMeet_true _ _ _ _ _ _)
        (fun h key sentTime cmd hs _ => hs.dispatch key sentTime cmd src)
        (fun h k cmds hs hg => hs.label hg trivial) hs
  | send key pkt =>
      have hnoted : (h.noteSubmit key pkt).Settled := by
        refine hs.updatePeer fun p => ?_
        split <;> exact ⟨rfl, rfl⟩
      exact hnoted.sendPacket hstep
  | disconnect key data =>
      cases hstep
      exact hs.sendDisconnect key data
  | connect addr channelCount data reply connectId =>
      simp only [timedStep, HostTask.step, beginConnect] at hstep
      cases hfree : h.allocSlot with
      | none =>
          simp only [hfree] at hstep
          cases hstep
          exact hs
      | some slot =>
          simp only [hfree] at hstep
          cases hstep
          obtain ⟨p, hempty, hm⟩ :=
            Marks.clientHandshake h slot addr channelCount data reply connectId
          exact (hs.install hfree hempty hm).emit_all fun _ hb => hb
  | tick =>
      obtain ⟨h₁, hserved, rfl⟩ := Option.map_eq_some_iff.mp hstep
      exact (Settled.serviceEach _ _ hs hserved).bandwidthThrottle nowMs
  | appRecv key =>
      cases hstep
      exact hs.updatePeer fun _ => ⟨rfl, rfl⟩
  | appDrop key =>
      cases hstep
      exact hs.updatePeer fun _ => ⟨rfl, rfl⟩
  | appAccept =>
      cases hstep
      exact hs
  | appClose =>
      cases hstep
      exact hs

/-- **Every transmission on record was a datagram.**  In every reachable state the
times in the record of an outstanding command are, in order, sent times of different
datagrams that carried its bytes to the peer. -/
theorem transmissions_emitted (hr : Reachable h) (hp : h.peer key = some p) {id : U8 × U16}
    {r : OutstandingReliable} (hout : p.outgoingReliable[id]? = some r) :
    (r.transmissions.map (BitVec.setWidth 16)).Sublist (h.stamps p.addr r.packetBytes) := by
  obtain ⟨acceptCapacity, maxPeers, ck, ib, ob, is, hrun⟩ := hr
  have hs : h.Settled := by
    refine Transition.run_invariant (fun s i s' hs hstep => hs.step hstep) is _ h ?_ hrun
    simp [Settled]
  exact hs key p hp id r hout

end HostTask

end EnetRs
