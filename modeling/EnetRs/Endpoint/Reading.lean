/-
  EnetRs.Endpoint.Reading — what the application reads from a connection.

  Packets, then at most one notice that the connection is over, then nothing but
  `ChannelClosed`: in every run, whatever the peer sends, however slowly the
  application reads, and also if the task stops or panics.  The packets are those
  that were delivered to this connection, in their order; when the delivery channel
  was full, some are missing.

  Main results:
    * `Orderly.turn` — one turn of the task.
    * `Endpoint.Sound.step` — one action.
    * `Endpoint.recv_in_order` — every run.
-/
import EnetRs.Endpoint.Model

namespace EnetRs

open MachineInt

/-! ## §1. Read and still to be read. -/

namespace PeerEntry

variable {p q : PeerEntry} {results : List (Except Error Packet)}

/-- What was read from the entry's channel and what is in it. -/
def view (results : List (Except Error Packet)) (p : PeerEntry) : List (Except Error Packet) :=
  results ++ p.toUser.queue.map PeerMsg.received

/-- While the entry is there, packets only. -/
def Open (results : List (Except Error Packet)) (p : PeerEntry) : Prop :=
  ∃ pkts : List Packet, pkts.Sublist p.delivered ∧ p.view results = pkts.map .ok

/-- A well-formed reading: packets, perhaps a notice, and `ChannelClosed` any number of
times. -/
def reading (pkts : List Packet) (notice : Option (Option U32)) (n : Nat) :
    List (Except Error Packet) :=
  pkts.map .ok ++ notice.toList.map (fun data => .error (.disconnected data))
    ++ List.replicate n (.error .channelClosed)

/-- Once the entry is gone, the rest of a well-formed reading. -/
def Closing (results : List (Except Error Packet)) (p : PeerEntry) : Prop :=
  ∃ (pkts : List Packet) (notice : Option (Option U32)) (n : Nat), pkts.Sublist p.delivered
    ∧ p.view results = reading pkts notice n ∧ (0 < n → p.toUser.queue = [])

/-- Every delivery keeps the reading open. -/
theorem Open.op {nowMs : U32} {k : PeerKey} {o : PeerOp} (hp : p.Open results)
    (ho : (Label.op k o).Keeps) : (o.apply nowMs p).Open results := by
  obtain ⟨pkts, hsub, hview⟩ := hp
  obtain ⟨more, -, hdel, hqueue⟩ := o.apply_hands nowMs p
  by_cases ht : o.TouchesQueue
  · -- of these operations only the drop of the receiver is left
    cases o with
    | appDrop => exact ⟨pkts, hsub, hview⟩
    | notify | appRecv => exact ho.elim
    | _ => exact ht.elim
  · obtain ⟨kept, hkept, hq⟩ :=
      Mpsc.foldl_trySend_kept (fun pkt => (.ok pkt : PeerMsg)) more p.toUser
    rw [← hqueue ht] at hq
    refine ⟨pkts ++ kept, ?_, ?_⟩
    · rw [hdel]
      exact hsub.append hkept
    · unfold view at hview ⊢
      rw [hq, List.map_append, ← List.append_assoc, hview, List.map_append, List.map_map]
      rfl

/-- The entry is removed, with or without a notice. -/
theorem Open.told (hp : p.Open results) (notice : Option (Option U32)) :
    (p.told notice.toList).Closing results := by
  obtain ⟨pkts, hsub, hview⟩ := hp
  cases notice with
  | none =>
      refine ⟨pkts, none, 0, hsub, ?_, fun hn => absurd hn (by simp)⟩
      have hsame : view results (p.told []) = p.view results := rfl
      simp [reading, hsame, hview]
  | some data =>
      by_cases hroom : p.toUser.hasRoom = true
      · refine ⟨pkts, some data, 0, hsub, ?_, fun hn => absurd hn (by simp)⟩
        have hq : (p.told (some data).toList).toUser.queue = p.toUser.queue ++ [.error data] := by
          simp [PeerEntry.told, Mpsc.trySend, hroom]
        unfold view at hview ⊢
        rw [hq, List.map_append, ← List.append_assoc, hview]
        simp [reading, PeerMsg.received, Except.mapError]
      · refine ⟨pkts, none, 0, hsub, ?_, fun hn => absurd hn (by simp)⟩
        have hq : (p.told (some data).toList).toUser = p.toUser := by
          simp [PeerEntry.told, Mpsc.trySend, hroom]
        unfold view at hview ⊢
        rw [hq, hview]
        simp [reading]

theorem Open.closing (hp : p.Open results) : p.Closing results := hp.told none

/-- A message is read: what was in the channel is in the hands of the application. -/
theorem view_recv {msg : PeerMsg} (hmsg : p.toUser.queue.head? = some msg) :
    view (results ++ [msg.received]) { p with toUser := p.toUser.recv } = p.view results := by
  obtain ⟨rest, hq⟩ := List.head?_eq_some_iff.mp hmsg
  simp [view, Mpsc.recv, hq]

theorem Closing.recv {msg : PeerMsg} (hp : p.Closing results)
    (hmsg : p.toUser.queue.head? = some msg) :
    ({ p with toUser := p.toUser.recv } : PeerEntry).Closing (results ++ [msg.received]) := by
  obtain ⟨pkts, notice, n, hsub, hview, hempty⟩ := hp
  refine ⟨pkts, notice, n, hsub, (view_recv hmsg).trans hview, fun hn => ?_⟩
  rw [hempty hn] at hmsg
  cases hmsg

/-- The channel is empty and nobody will put anything into it. -/
theorem Closing.channelClosed (hp : p.Closing results) (hempty : p.toUser.queue = []) :
    p.Closing (results ++ [.error .channelClosed]) := by
  obtain ⟨pkts, notice, n, hsub, hview, -⟩ := hp
  refine ⟨pkts, notice, n + 1, hsub, ?_, fun _ => hempty⟩
  simp only [view, hempty, List.map_nil, List.append_nil] at hview ⊢
  rw [hview]
  simp [reading, List.replicate_succ']

/-- What was read up to now is a well-formed reading itself. -/
theorem Closing.read_so_far (hp : p.Closing results) :
    ∃ (pkts : List Packet) (notice : Option (Option U32)) (n : Nat), pkts.Sublist p.delivered
      ∧ results = reading pkts notice n := by
  obtain ⟨pkts, notice, n, hsub, hview, hempty⟩ := hp
  rcases Nat.eq_zero_or_pos n with rfl | hn
  · unfold view at hview
    simp only [reading, List.replicate_zero, List.append_nil] at hview
    rcases List.append_eq_append_iff.mp hview with ⟨rest, hpkts, -⟩ | ⟨rest, hres, hnotice⟩
    · -- some packets are still in the channel
      obtain ⟨pkts₁, pkts₂, rfl, rfl, -⟩ := List.map_eq_append_iff.mp hpkts
      exact ⟨pkts₁, none, 0, (List.sublist_append_left _ _).trans hsub, by simp [reading]⟩
    · cases notice with
      | none =>
          have hrest : rest = [] := (List.append_eq_nil_iff.mp hnotice.symm).1
          exact ⟨pkts, none, 0, hsub, by simp [reading, hres, hrest]⟩
      | some data =>
          rcases List.append_eq_singleton_iff.mp hnotice.symm with ⟨hrest, -⟩ | ⟨hrest, -⟩
          · exact ⟨pkts, none, 0, hsub, by simp [reading, hres, hrest]⟩
          · exact ⟨pkts, some data, 0, hsub, by simp [reading, hres, hrest]⟩
  · refine ⟨pkts, notice, n, hsub, ?_⟩
    rw [← hview, view, hempty hn, List.map_nil, List.append_nil]

end PeerEntry

/-! ## §2. One turn. -/

namespace HostTask

variable {h h' h₁ : HostTask} {nowMs : U32} {c : Receiver} {k : PeerKey} {p q : PeerEntry}

/-- A change that keeps the entries sends no notice. -/
theorem notices_label {l : Label} (hg : l.Guard nowMs h) (hl : l.Keeps) (c : Receiver) :
    (l.apply nowMs h).notices c = h.notices c := by
  unfold notices
  cases l with
  | op k o =>
      obtain ⟨p, hp, -⟩ := hg
      rw [Label.trace_apply_op hp, List.filterMap_append]
      have hnone : (o.events h.useChecksum k p nowMs).filterMap (Event.noticeTo c) = [] := by
        cases o with
        | notify | appRecv => exact hl.elim
        | verify hostMtu vc hdr =>
            simp only [PeerOp.events]
            split <;> rfl
        | _ => rfl
      rw [hnone, List.append_nil]
  | remove k => exact hl.elim
  | raw connect addr => simp [Label.apply, sendRawDisconnect, Event.noticeTo]
  | _ => rfl

theorem notices_exec {C : Cond} (e : Exec nowMs C h h') (hC : ∀ h l, C h l → l.Keeps)
    (c : Receiver) : h'.notices c = h.notices c :=
  e.invariant (fun h' => h'.notices c = h.notices c)
    (fun h₁ l hi hg hl => (notices_label hg (hC h₁ l hl) c).trans hi) rfl

theorem Hosts.keeps (hh : h.Hosts k c) (e : Exec nowMs (fun _ l => l.Keeps) h h') :
    h'.Hosts k c :=
  e.invariant (fun h => h.Hosts k c)
    (fun _ l hh hg hl => hh.label hg (by rintro rfl; exact hl)) hh

/-- Before a removal nothing is delivered. -/
structure Parted (p q : PeerEntry) : Prop where
  conn : q.conn = p.conn
  toUser : q.toUser = p.toUser
  delivered : q.delivered = p.delivered

theorem parted_exec (e : Exec nowMs (fun _ l => l.Parting) h h') :
    ∀ j q, h'.peer j = some q → ∃ p, h.peer j = some p ∧ Parted p q := by
  refine e.invariant (fun h' => ∀ j q, h'.peer j = some q → ∃ p, h.peer j = some p ∧ Parted p q)
    (fun h₁ l hi hg hl => ?_) fun j q hq => ⟨q, hq, rfl, rfl, rfl⟩
  cases l with
  | op k o =>
      obtain ⟨p₁, hp₁, -⟩ := hg
      intro j q hq
      rw [Label.peer_apply_op hp₁] at hq
      split at hq
      · next hjk =>
        cases hq
        obtain ⟨p, hp, hs⟩ := hi k p₁ hp₁
        have hand : p₁.Handed (o.apply nowMs p₁) [] := by
          cases o with
          | emit cmds => exact .same rfl rfl
          | retransmit => exact .same rfl rfl
          | ack ch a =>
              exact .nothing (PeerEntry.applyAck_eq p₁ ch a nowMs).2 rfl
                ((PeerEntry.applyAck_acked ch a nowMs).get (·.toUser))
          | _ => exact hl.elim
        refine ⟨p, hjk ▸ hp, ((PeerOp.sameConnection nowMs p₁ o).conn).trans hs.conn,
          hand.toUser.trans hs.toUser, ?_⟩
        rw [hand.delivered, List.append_nil, hs.delivered]
      · exact hi j q hq
  | _ => exact hl.elim

theorem notices_dismiss (hp : h.peer k = some p) (notice : Option (Option U32)) :
    (h.dismiss k notice).notices c = h.notices c ++ if p.conn = c then notice.toList else [] := by
  cases notice with
  | none => simp [dismiss, notices]
  | some data =>
      simp only [dismiss, notices, removePeer_trace, trace_notifyDisconnect hp,
        List.filterMap_append]
      congr 1
      by_cases hc : p.conn = c <;> simp [hc, Event.noticeTo]

theorem peer_dismiss (h : HostTask) (k : PeerKey) (notice : Option (Option U32)) (j : PeerKey) :
    (h.dismiss k notice).peer j = if j = k then none else h.peer j := by
  cases notice with
  | none => exact peer_removePeer h k j
  | some data =>
      rw [dismiss, peer_removePeer]
      split
      · rfl
      · next hjk => rw [peer_notifyDisconnect, if_neg hjk]

/-- **A connection that leaves in a turn** leaves its entry as it was before, but for a
notice. -/
theorem Turn.leaves_told (ho : Owned h) (ht : Turn nowMs h h') (hl : h.leaves h' c = some q) :
    ∃ k p, h.peer k = some p ∧ p.conn = c
      ∧ ∃ notice : Option (Option U32), q = p.told notice.toList := by
  unfold leaves at hl
  split at hl
  · next p hp hnone =>
    cases hl
    obtain ⟨k, hk, hc⟩ := (ofConn_eq_some_iff ho).mp hp
    have hgone : ¬ h'.Hosts k c := by
      rintro ⟨q, hq, hqc⟩
      exact (ofConn_eq_none_iff (ho.exec ht.exec)).mp hnone k q hq hqc
    refine ⟨k, p, hk, hc, ?_⟩
    cases ht with
    | keeps e => exact absurd (Hosts.keeps ⟨p, hk, hc⟩ e) hgone
    | @parts h₁ k₁ p₁ notice before entry after =>
        obtain ⟨p₀, hp₀, hs⟩ := parted_exec before k₁ p₁ entry
        by_cases hkk : k = k₁
        · subst hkk
          cases hk.symm.trans hp₀
          refine ⟨notice, congrArg p.told ?_⟩
          rw [notices_exec after (fun _ _ hl => hl), notices_dismiss entry,
            notices_exec before (fun _ _ hl => hl.keeps), if_pos (hs.conn.trans hc),
            List.drop_left]
        · -- another entry is removed
          obtain ⟨q, hq, hqc⟩ := Hosts.keeps ⟨p, hk, hc⟩ (before.mono fun _ _ hl => hl.keeps)
          refine absurd (Hosts.keeps ⟨q, ?_, hqc⟩ after) hgone
          rw [peer_dismiss, if_neg hkk, hq]
  · cases hl

end HostTask

/-! ## §3. All connections of a task. -/

/-- A task, the entries it has dropped, and what was read from each connection. -/
structure Orderly (h : HostTask) (departed : Receiver → Option PeerEntry)
    (read : Receiver → List (Except Error Packet)) : Prop where
  owned : Owned h
  fresh : ∀ c, h.nextConn ≤ c → departed c = none ∧ read c = []
  live : ∀ k p, h.peer k = some p → departed p.conn = none ∧ p.Open (read p.conn)
  gone : ∀ c p, departed c = some p → p.Closing (read c)
  known : ∀ c, read c ≠ [] → departed c ≠ none ∨ ∃ k p, h.peer k = some p ∧ p.conn = c

namespace Orderly

open HostTask

variable {h h' : HostTask} {departed : Receiver → Option PeerEntry}
  {read : Receiver → List (Except Error Packet)} {nowMs : U32}

/-- The part of the invariant that is kept change by change. -/
def Present (departed : Receiver → Option PeerEntry) (read : Receiver → List (Except Error Packet))
    (h : HostTask) : Prop :=
  (∀ c, h.nextConn ≤ c → departed c = none ∧ read c = [])
    ∧ ∀ k p, h.peer k = some p → departed p.conn = none ∧ p.Open (read p.conn)

theorem Present.label {l : Label} (hi : Present departed read h) (hg : l.Guard nowMs h)
    (hl : l.Keeps) : Present departed read (l.apply nowMs h) := by
  refine ⟨fun c hc => hi.1 c ((nextConn_le nowMs h l).trans hc), ?_⟩
  apply Label.entries hg _ _ hi.2
  · -- nothing was read from a new connection yet
    intro slot entry _ hnew
    obtain ⟨hd, hr⟩ := hi.1 entry.conn (Nat.le_of_eq hnew.conn.1.symm)
    refine ⟨hd, [], List.nil_sublist _, ?_⟩
    rw [hr]
    rcases hnew with ⟨addr, count, data, reply, id, rfl⟩ | ⟨c, hdr, src, rfl⟩ <;> rfl
  · intro k p o heq _ hp _
    rw [(PeerOp.sameConnection nowMs p o).conn]
    exact ⟨hp.1, hp.2.op (heq ▸ hl)⟩

theorem Present.exec (hi : Present departed read h)
    (e : Exec nowMs (fun _ l => l.Keeps) h h') : Present departed read h' :=
  e.invariant (Present departed read) (fun _ _ hi hg hl => hi.label hg hl) hi

theorem Present.turn (hi : Present departed read h) (ht : Turn nowMs h h') :
    Present departed read h' := by
  cases ht with
  | keeps e => exact hi.exec e
  | @parts h₁ k p notice before entry after =>
      have hi₁ := hi.exec (before.mono fun _ _ hl => hl.keeps)
      refine Present.exec ⟨fun c hc => hi₁.1 c ?_, fun j q hq => ?_⟩ after
      · exact (nextConn_le_exec (dismiss_exec nowMs entry notice)).trans hc
      · rw [peer_dismiss] at hq
        split at hq
        · cases hq
        · exact hi₁.2 j q hq

/-- **One turn of the task.** -/
theorem turn (ho : Orderly h departed read) (ht : Turn nowMs h h') :
    Orderly h' (fun c => (departed c).or (h.leaves h' c)) read := by
  have howned := ho.owned.exec ht.exec
  have hpres : Present departed read h' := Present.turn ⟨ho.fresh, ho.live⟩ ht
  have hstay : ∀ {c : Receiver}, h'.ofConn c ≠ none → h.leaves h' c = none := by
    intro c hc
    unfold leaves
    split
    · next hnone => exact absurd hnone hc
    · rfl
  refine ⟨howned, fun c hc => ?_, fun k p hp => ?_, fun c p hp => ?_, fun c hc => ?_⟩
  · obtain ⟨hd, hr⟩ := hpres.1 c hc
    have hnone : h.ofConn c = none := (ofConn_eq_none_iff ho.owned).mpr fun k p hp hpc => by
      have hlt := ho.owned.lt k p hp
      have hle := nextConn_le_exec ht.exec
      omega
    simp [hd, hr, leaves, hnone]
  · obtain ⟨hd, hopen⟩ := hpres.2 k p hp
    have hsome : h'.ofConn p.conn = some p := (ofConn_eq_some_iff howned).mpr ⟨k, hp, rfl⟩
    refine ⟨?_, hopen⟩
    rw [hd, hstay (by rw [hsome]; exact Option.some_ne_none _)]
    rfl
  · rcases Option.or_eq_some_iff.mp hp with hd | ⟨-, hl⟩
    · exact ho.gone c p hd
    · obtain ⟨k, q, hq, rfl, notice, rfl⟩ := ht.leaves_told ho.owned hl
      exact (ho.live k q hq).2.told notice
  · rcases ho.known c hc with hd | ⟨k, p, hp, hpc⟩
    · exact .inl fun hnone => hd (Option.or_eq_none_iff.mp hnone).1
    · by_cases hnone : h'.ofConn c = none
      · -- the connection left in this turn
        left
        have hsome : h.ofConn c = some p := (ofConn_eq_some_iff ho.owned).mpr ⟨k, hp, hpc⟩
        simp [leaves, hsome, hnone]
      · obtain ⟨q, hq⟩ := Option.ne_none_iff_exists'.mp hnone
        exact .inr (by
          obtain ⟨j, hj, hc⟩ := (ofConn_eq_some_iff howned).mp hq
          exact ⟨j, q, hj, hc⟩)

/-- One change that keeps every entry. -/
theorem label {l : Label} (ho : Orderly h departed read) (hg : l.Guard nowMs h) (hl : l.Keeps) :
    Orderly (l.apply nowMs h) departed read := by
  obtain ⟨hfresh, hlive⟩ := Present.label ⟨ho.fresh, ho.live⟩ hg hl
  refine ⟨ho.owned.label hg, hfresh, hlive, ho.gone, fun c hc => (ho.known c hc).imp_right ?_⟩
  rintro ⟨k, p, hp, hpc⟩
  obtain ⟨q, hq, hqc⟩ := Hosts.keeps ⟨p, hp, hpc⟩ (.single l hg hl)
  exact ⟨k, q, hq, hqc⟩

/-- **Several turns.** -/
theorem turns {hs : List HostTask} (ho : Orderly h departed read)
    (hc : List.IsChain (Turn nowMs) (h :: hs)) :
    Orderly (hs.getLast?.getD h) (departures departed h hs) read := by
  induction hs generalizing h departed with
  | nil => exact ho
  | cons h' hs ih =>
      obtain ⟨ht, hrest⟩ := List.isChain_cons_cons.mp hc
      have hnext := ih (ho.turn ht) hrest
      rwa [List.getLast?_cons, Option.getD_some]

end Orderly

/-- The same without a task. -/
structure Settled (departed : Receiver → Option PeerEntry)
    (read : Receiver → List (Except Error Packet)) : Prop where
  gone : ∀ c p, departed c = some p → p.Closing (read c)
  known : ∀ c, read c ≠ [] → departed c ≠ none

/-! ## §4. The application reads. -/

section Reads

open HostTask

variable {h : HostTask} {departed : Receiver → Option PeerEntry}
  {read : Receiver → List (Except Error Packet)} {c : Receiver} {k : PeerKey} {p q : PeerEntry}
  {results : List (Except Error Packet)}

/-- A message from a connection whose entry is there. -/
theorem Orderly.recv (ho : Orderly h departed read) (hp : h.peer k = some p) {msg : PeerMsg}
    (hmsg : p.toUser.queue.head? = some msg) :
    Orderly (h.updatePeer k fun p => { p with toUser := p.toUser.recv }) departed
      (Function.update read p.conn (read p.conn ++ [msg.received])) := by
  have hpeer : ∀ j, (h.updatePeer k fun p => { p with toUser := p.toUser.recv }).peer j
      = if j = k then some { p with toUser := p.toUser.recv } else h.peer j := by
    intro j
    rw [updatePeer_of_some hp, peer_setPeer hp]
  obtain ⟨hd, pkts, hsub, hview⟩ := ho.live k p hp
  -- the other connections have other channels
  have hother : ∀ {j : PeerKey} {q : PeerEntry}, j ≠ k → h.peer j = some q → q.conn ≠ p.conn :=
    fun hjk hq hc => hjk (ho.owned.inj _ k _ p hq hp hc)
  refine ⟨?_, fun c hc => ?_, fun j q hq => ?_, fun c q hq => ?_, fun c hc => ?_⟩
  · have e : Exec 0 (fun _ _ => True) h
        (h.updatePeer k fun p => { p with toUser := p.toUser.recv }) :=
      updatePeer_exec .appRecv trivial (fun _ _ => trivial) (fun _ => rfl) rfl
    exact ho.owned.exec e
  · rw [updatePeer_nextConn] at hc
    have hlt := ho.owned.lt k p hp
    have hne : c ≠ p.conn := by omega
    rw [Function.update_of_ne hne]
    exact ho.fresh c hc
  · rw [hpeer] at hq
    split at hq
    · cases hq
      refine ⟨hd, pkts, hsub, ?_⟩
      show PeerEntry.view (Function.update read p.conn _ p.conn) _ = _
      rw [Function.update_self, PeerEntry.view_recv hmsg, hview]
    · next hjk =>
      rw [Function.update_of_ne (hother hjk hq)]
      exact ho.live j q hq
  · have hne : c ≠ p.conn := by
      rintro rfl
      rw [hd] at hq
      cases hq
    rw [Function.update_of_ne hne]
    exact ho.gone c q hq
  · by_cases hcp : c = p.conn
    · exact .inr ⟨k, _, (hpeer k).trans (if_pos rfl), hcp.symm⟩
    · rw [Function.update_of_ne hcp] at hc
      refine (ho.known c hc).imp_right ?_
      rintro ⟨j, q, hq, hqc⟩
      refine ⟨j, q, (hpeer j).trans ?_, hqc⟩
      rw [if_neg, hq]
      rintro rfl
      cases hp.symm.trans hq
      exact hcp hqc.symm

theorem closing_update (hgone : ∀ c p, departed c = some p → p.Closing (read c))
    (hq : q.Closing results) (c' : Receiver) (p' : PeerEntry)
    (hp' : Function.update departed c (some q) c' = some p') :
    p'.Closing (Function.update read c results c') := by
  by_cases hc : c' = c
  · subst hc
    rw [Function.update_self] at hp' ⊢
    cases hp'
    exact hq
  · rw [Function.update_of_ne hc] at hp' ⊢
    exact hgone c' p' hp'

theorem departed_update_ne_none {c' : Receiver} (hd : departed c' ≠ none) :
    Function.update departed c (some q) c' ≠ none := by
  by_cases hc : c' = c
  · rw [hc, Function.update_self]
    exact Option.some_ne_none q
  · rwa [Function.update_of_ne hc]

/-- Something is read from a connection whose entry is gone. -/
theorem Settled.read_gone (c : Receiver) (hs : Settled departed read) (hq : q.Closing results) :
    Settled (Function.update departed c (some q)) (Function.update read c results) := by
  refine ⟨closing_update hs.gone hq, fun c' hc' => ?_⟩
  by_cases hc : c' = c
  · rw [hc, Function.update_self]
    exact Option.some_ne_none q
  · rw [Function.update_of_ne hc] at hc'
    exact departed_update_ne_none (hs.known c' hc')

theorem Orderly.read_gone (ho : Orderly h departed read) (hp : departed c = some p)
    (hq : q.Closing results) :
    Orderly h (Function.update departed c (some q)) (Function.update read c results) := by
  -- neither a live connection nor one still to come
  have hlive : ∀ {c'}, departed c' = none → c' ≠ c := by
    rintro c' hnone rfl
    rw [hp] at hnone
    cases hnone
  refine ⟨ho.owned, fun c' hc' => ?_, fun k p' hp' => ?_, closing_update ho.gone hq,
    fun c' hc' => ?_⟩
  · obtain ⟨hd, hr⟩ := ho.fresh c' hc'
    rw [Function.update_of_ne (hlive hd), Function.update_of_ne (hlive hd)]
    exact ⟨hd, hr⟩
  · obtain ⟨hd, hopen⟩ := ho.live k p' hp'
    rw [Function.update_of_ne (hlive hd), Function.update_of_ne (hlive hd)]
    exact ⟨hd, hopen⟩
  · by_cases hc : c' = c
    · left
      rw [hc, Function.update_self]
      exact Option.some_ne_none q
    · rw [Function.update_of_ne hc] at hc'
      exact (ho.known c' hc').imp_left departed_update_ne_none

end Reads

/-! ## §5. Every run of an endpoint. -/

namespace Endpoint

open HostTask

variable {e e' : Endpoint} {nowMs : U32} {c : Receiver}

/-- **The invariant of an endpoint.** -/
structure Sound (e : Endpoint) : Prop where
  orderly : e.running = true → Orderly e.task e.departed e.read
  settled : e.running = false → Settled e.departed e.read

theorem Sound.starts (hs : Starts e) : e.Sound := by
  have hnew : ∀ cap maxPeers ck ib ob, Orderly (HostTask.new cap maxPeers ck ib ob)
      (fun _ => none) fun _ => [] := by
    intro cap maxPeers ck ib ob
    exact ⟨Owned.new .., fun _ _ => ⟨rfl, rfl⟩, by simp, by simp, fun _ hne => absurd rfl hne⟩
  cases hs with
  | bind => exact ⟨fun _ => hnew .., fun hr => by cases hr⟩
  | connect => exact ⟨fun _ => hnew .., fun hr => by cases hr⟩

/-- The end of the task. -/
theorem Sound.halt (ho : Orderly e.task e.departed e.read) : e.halt.Sound := by
  refine ⟨fun hr => (by cases hr), fun _ => ⟨fun c p hp => ?_, fun c hc hnone => ?_⟩⟩
  · rcases Option.or_eq_some_iff.mp hp with hd | ⟨-, hl⟩
    · exact ho.gone c p hd
    · obtain ⟨k, hk, rfl⟩ := (ofConn_eq_some_iff ho.owned).mp hl
      exact (ho.live k p hk).2.closing
  · obtain ⟨hd, hl⟩ := Option.or_eq_none_iff.mp hnone
    rcases ho.known c hc with hne | ⟨k, p, hp, hpc⟩
    · exact hne hd
    · exact (ofConn_eq_none_iff ho.owned).mp hl k p hp hpc

/-- One step of the task. -/
theorem Sound.turn (ho : Orderly e.task e.departed e.read) (hrun : e.running = true)
    {i : Input} (hi : ∀ k, i ≠ .appRecv k) : (e.turn nowMs i).Sound := by
  obtain ⟨hpart, hall⟩ := step_turns e.task nowMs i hi
  unfold Endpoint.turn
  cases hs : e.task.step nowMs i with
  | some h' =>
      refine ⟨fun _ => ?_, fun hr => absurd (hrun.symm.trans hr) (by simp)⟩
      have hlast := ho.turns (hall h' hs)
      rwa [List.getLast?_concat, Option.getD_some] at hlast
  | none => exact Sound.halt (ho.turns hpart)

/-- The application reads from a connection. -/
theorem Sound.recv (hs : e.Sound) (hstep : e.recv c = some e') : e'.Sound := by
  unfold Endpoint.recv at hstep
  split at hstep
  · next k hk =>
    -- the connection is there, and so is the task
    have hrun : e.running = true := by
      unfold liveSlot at hk
      split at hk
      · assumption
      · cases hk
    have ho := hs.orderly hrun
    simp only [liveSlot, if_pos hrun] at hk
    obtain ⟨p, hp, rfl⟩ := (slotOf_eq_some_iff ho.owned).mp hk
    simp only [hp, Option.bind_some, Option.map_eq_some_iff] at hstep
    obtain ⟨msg, hmsg, rfl⟩ := hstep
    exact ⟨fun _ => ho.recv hp hmsg, fun hr => absurd (hrun.symm.trans hr) (by simp)⟩
  · obtain ⟨p, hp, rfl⟩ := Option.map_eq_some_iff.mp hstep
    have hgone : p.Closing (e.read c) := by
      cases hrun : e.running with
      | true => exact (hs.orderly hrun).gone c p hp
      | false => exact (hs.settled hrun).gone c p hp
    split
    · next msg hmsg =>
      exact ⟨fun hrun => (hs.orderly hrun).read_gone hp (hgone.recv hmsg),
        fun hrun => (hs.settled hrun).read_gone c (hgone.recv hmsg)⟩
    · next hnone =>
      have hclosed := hgone.channelClosed (List.head?_eq_none_iff.mp hnone)
      have hsame : Function.update e.departed c (some p) = e.departed := by
        rw [← hp, Function.update_eq_self]
      constructor
      · intro hrun
        have hnext := (hs.orderly hrun).read_gone hp hclosed
        rwa [hsame] at hnext
      · intro hrun
        have hnext := (hs.settled hrun).read_gone c hclosed
        rwa [hsame] at hnext

/-- What only concerns the handles. -/
theorem Sound.of_eq (hs : e.Sound) (hrun : e'.running = e.running) (htask : e'.task = e.task)
    (hdep : e'.departed = e.departed) (hread : e'.read = e.read) : e'.Sound := by
  refine ⟨fun hr => ?_, fun hr => ?_⟩
  · rw [htask, hdep, hread]
    exact hs.orderly (hrun ▸ hr)
  · rw [hdep, hread]
    exact hs.settled (hrun ▸ hr)

/-- A change that the application makes in the task. -/
theorem Sound.label (nowMs : U32) (hs : e.Sound) {l : Label} (hl : l.Keeps)
    (hg : e.running = true → l.Guard nowMs e.task) (hrun : e'.running = e.running)
    (htask : e'.task = l.apply nowMs e.task) (hdep : e'.departed = e.departed)
    (hread : e'.read = e.read) : e'.Sound := by
  refine ⟨fun hr => ?_, fun hr => ?_⟩
  · rw [htask, hdep, hread]
    exact (hs.orderly (hrun ▸ hr)).label (hg (hrun ▸ hr)) hl
  · rw [hdep, hread]
    exact hs.settled (hrun ▸ hr)

theorem Sound.dropReceiver (hs : e.Sound) (c : Receiver) : (e.dropReceiver c).Sound := by
  unfold Endpoint.dropReceiver
  cases hk : e.liveSlot c with
  | none => exact hs.of_eq rfl rfl rfl rfl
  | some k =>
      unfold liveSlot at hk
      split at hk
      · next hrun =>
        obtain ⟨p, hp, -⟩ := (slotOf_eq_some_iff (hs.orderly hrun).owned).mp hk
        refine hs.label 0 (l := .op k .appDrop) trivial (fun _ => ⟨p, hp, trivial⟩) rfl ?_ rfl rfl
        have hno : PeerOp.appDrop.events e.task.useChecksum k p 0 = [] := rfl
        rw [Label.apply_op hp, hno, List.append_nil]
        exact updatePeer_of_some hp
      · cases hk

/-- **One action.** -/
theorem Sound.does (hs : e.Sound) {a : Action} (hd : e.Does nowMs a e') : e'.Sound := by
  cases hd with
  | datagram raw src hrun => exact Sound.turn (hs.orderly hrun) hrun fun _ heq => by cases heq
  | tick hrun => exact Sound.turn (hs.orderly hrun) hrun fun _ heq => by cases heq
  | message connectId msg hrun hmsg =>
      refine Sound.turn (e := { e with messages := e.messages.recv }) (hs.orderly hrun) hrun
        fun _ heq => ?_
      cases msg <;> cases heq
  | stop hrun => exact Sound.halt (hs.orderly hrun)
  | accept => exact hs.label 0 (l := .appAccept) trivial (fun _ => trivial) rfl rfl rfl rfl
  | connected | timeout | dropHost =>
      exact hs.label 0 (l := .appClose) trivial (fun _ => trivial) rfl rfl rfl rfl
  | sendPacket | disconnect | dropSender => exact hs.of_eq rfl rfl rfl rfl
  | recv c _ hrecv => exact hs.recv hrecv
  | dropReceiver c => exact hs.dropReceiver c

/-- The entry of a connection, in the task or dropped by it. -/
def entryOf (e : Endpoint) (c : Receiver) : Option PeerEntry :=
  (e.departed c).or (if e.running then e.task.ofConn c else none)

/-- **What the application reads from a connection.**  In every run, `recv` gives
packets that were delivered to this connection, in their order and each at most once;
then, if the connection ended with a notice that found room, the notice; and after
that only `ChannelClosed`.  The notice and `ChannelClosed` come only once the task has
dropped the entry. -/
theorem recv_in_order {e₀ e : Endpoint} (hstart : Starts e₀) (as : List (U32 × Action))
    (hrun : e₀.run as = some e) (c : Receiver) :
    ∃ pkts notice n, e.read c = PeerEntry.reading pkts notice n
      ∧ (∀ p, e.entryOf c = some p → pkts.Sublist p.delivered)
      ∧ (e.departed c = none → notice = none ∧ n = 0)
      ∧ (e.read c ≠ [] → e.entryOf c ≠ none) := by
  have hs : e.Sound := Transition.run_invariant (I := Sound)
    (fun _ _ _ hs hstep => hs.does (does_of_step hstep)) as e₀ e (.starts hstart) hrun
  cases hd : e.departed c with
  | some p =>
      have hgone : p.Closing (e.read c) := by
        cases hr : e.running with
        | true => exact (hs.orderly hr).gone c p hd
        | false => exact (hs.settled hr).gone c p hd
      obtain ⟨pkts, notice, n, hsub, hread⟩ := hgone.read_so_far
      refine ⟨pkts, notice, n, hread, fun q hq => ?_, fun hne => (by cases hne), fun _ => ?_⟩
      · simp only [entryOf, hd, Option.some_or, Option.some.injEq] at hq
        rwa [← hq]
      · simp [entryOf, hd]
  | none =>
      -- the entry is in the task, or nothing was read
      by_cases hempty : e.read c = []
      · exact ⟨[], none, 0, by simp [hempty, PeerEntry.reading], fun _ _ => List.nil_sublist _,
          fun _ => ⟨rfl, rfl⟩, fun hne => absurd hempty hne⟩
      · cases hr : e.running with
        | false => exact absurd hd ((hs.settled hr).known c hempty)
        | true =>
            have ho := hs.orderly hr
            rcases ho.known c hempty with hne | ⟨k, p, hp, rfl⟩
            · exact absurd hd hne
            · have hentry : e.entryOf p.conn = some p := by
                simp only [entryOf, hd, hr, if_true, Option.none_or]
                exact (ofConn_eq_some_iff ho.owned).mpr ⟨k, hp, rfl⟩
              obtain ⟨-, pkts, hsub, hview⟩ := ho.live k p hp
              obtain ⟨pkts₁, pkts₂, rfl, hread, -⟩ := List.map_eq_append_iff.mp hview.symm
              refine ⟨pkts₁, none, 0, by simp [PeerEntry.reading, hread], fun q hq => ?_,
                fun _ => ⟨rfl, rfl⟩, fun _ => by rw [hentry]; exact Option.some_ne_none p⟩
              cases hentry.symm.trans hq
              exact (List.sublist_append_left _ _).trans hsub

/-- Alice connects and is accepted, sends one message and disconnects; the application
reads three times. -/
def aliceVisits : List (U32 × Action) :=
  [(10, .datagram (connectDatagram 77 2 1392) alice),
   (20, .datagram (peerDatagram 0 9 [ack channelIdConnection 1 10]) alice), (30, .accept),
   (40, .datagram (peerDatagram 0 9 [byteCommand 1 5,
     encodeCommand cmdDisconnect 0 channelIdConnection 0 (be32 3)]) alice),
   (50, .recv 1), (60, .recv 1), (70, .recv 1)]

theorem recv_in_order_aliceVisits :
    ∃ e pkts notice n, (Endpoint.bind 4 false 0 0).run aliceVisits = some e
      ∧ e.read 1 = [.ok (bytePacket 5), .error (.disconnected (some 3)), .error .channelClosed]
      ∧ e.read 1 = PeerEntry.reading pkts notice n := by
  have hrun : ((Endpoint.bind 4 false 0 0).run aliceVisits).any (fun e => decide (e.read 1
      = [.ok (bytePacket 5), .error (.disconnected (some 3)), .error .channelClosed])) = true := by
    decide +kernel
  obtain ⟨e, he, hread⟩ := (Option.any_eq_true _ _).mp hrun
  obtain ⟨pkts, notice, n, hform, -⟩ := recv_in_order (.bind 4 false 0 0) aliceVisits he 1
  exact ⟨e, pkts, notice, n, he, of_decide_eq_true hread, hform⟩

end Endpoint

end EnetRs
