/-
  EnetRs.Host.Ownership — which connection a slot belongs to.

  Main results:
    * `PeerOp.sameConnection` — no operation changes an entry's address,
      connect id or delivery channel.
    * `Absent.label` — a connection that has left its slot never comes back.
    * `Owned` and `Reachable.owned` — in every reachable state the address map
      points at entries with that address, delivery channels are never shared,
      and the connection behind a handle can only be in the handle's slot.
-/
import EnetRs.Host.Frames
import EnetRs.Host.Steps

namespace EnetRs

open MachineInt

/-! ## §1. The identity of an entry. -/

/-- `q` belongs to the same connection as `p`. -/
structure SameConnection (p q : PeerEntry) : Prop where
  addr : q.addr = p.addr
  connectId : q.connectId = p.connectId
  connectSeq : q.connectSeq = p.connectSeq
  conn : q.conn = p.conn
  rx : q.toUserRx = p.toUserRx ∨ q.toUserRx = none

/-- The delivery channel stays the same one, whatever is put into it. -/
theorem PeerOp.conn_apply (nowMs : U32) (p : PeerEntry) (o : PeerOp) :
    (o.apply nowMs p).conn = p.conn := by
  cases o with
  | recvReliable ch seq data => exact (PeerEntry.onSendReliable_received ch seq data nowMs).2
  | recvUnreliable ch rseq useq data =>
      exact (PeerEntry.onSendUnreliable_received ch rseq useq data nowMs).2
  | recvFragment ch sf reliable => exact (PeerEntry.onFragment_received ch sf reliable nowMs).2
  | recvUnsequenced group data => exact (PeerEntry.onSendUnsequenced_received group data nowMs).2
  | notify data => exact Mpsc.trySend_id _ _
  | _ => exact get_apply (·.conn) nowMs p _

/-- **No operation changes whose entry it is.** -/
theorem PeerOp.sameConnection (nowMs : U32) (p : PeerEntry) (o : PeerOp) :
    SameConnection p (o.apply nowMs p) := by
  have hf := o.apply_frame nowMs p
  have hconn := o.conn_apply nowMs p
  cases o with
  | accept | establish | verify => exact ⟨rfl, rfl, rfl, hconn, .inr rfl⟩
  | _ =>
      exact ⟨congrArg (·.addr) hf, congrArg (·.connectId) hf, congrArg (·.connectSeq) hf, hconn,
        .inl (congrArg (·.toUserRx) hf)⟩

/-- The operations that move an entry from one state to another. -/
def PeerOp.Lifecycle : PeerOp → Prop
  | .accept _ | .establish | .verify _ _ _ | .deferDisconnect _ | .beginDisconnect _ => True
  | _ => False

/-- `q` is at the same point of the connection's life as `p`. -/
structure SamePhase (p q : PeerEntry) : Prop where
  state : q.state = p.state
  rx : q.toUserRx = p.toUserRx
  mtu : q.mtu = p.mtu

/-- Every other operation leaves the state, the receiver and the MTU alone. -/
theorem PeerOp.samePhase (nowMs : U32) (p : PeerEntry) {o : PeerOp} (ho : ¬ o.Lifecycle) :
    SamePhase p (o.apply nowMs p) := by
  have hf := o.apply_frame nowMs p
  cases o with
  | accept | establish | verify | deferDisconnect | beginDisconnect => exact absurd trivial ho
  | _ => exact ⟨congrArg (·.state) hf, congrArg (·.toUserRx) hf, congrArg (·.mtu) hf⟩

/-- A new entry's delivery channel is the one numbered `nextConn`. -/
theorem IsNewEntry.conn {h : HostTask} {slot : PeerKey} {nowMs : U32} {entry : PeerEntry}
    (hn : IsNewEntry h slot nowMs entry) :
    entry.conn = h.nextConn ∧ entry.toUserRx = some h.nextConn := by
  rcases hn with ⟨_, _, _, _, _, rfl⟩ | ⟨_, _, _, rfl⟩ <;> exact ⟨rfl, rfl⟩

/-! ## §2. Ownership of slots, addresses and handles. -/

/-- A handle `(k, c)` the application holds: slot `k`, obtained for the
connection whose delivery channel is `c`, from `accept` or from `connect`. -/
def IsHandle (h : HostTask) (k : PeerKey) (c : Nat) : Prop :=
  (∃ addr connectId, Event.accepted k c addr connectId ∈ h.trace)
    ∨ ∃ reply, Event.connected reply k c ∈ h.trace

structure Owned (h : HostTask) : Prop where
  addr : ∀ a k, h.addrMap a = some k → ∃ p, h.peer k = some p ∧ p.addr = a
  lt : ∀ k p, h.peer k = some p → p.conn < h.nextConn
  inj : ∀ j k p q, h.peer j = some p → h.peer k = some q → p.conn = q.conn → j = k
  rx : ∀ k p rx, h.peer k = some p → p.toUserRx = some rx → rx = p.conn
  handle_lt : ∀ k c, IsHandle h k c → c < h.nextConn
  handle : ∀ k c j p, IsHandle h k c → h.peer j = some p → p.conn = c → j = k

namespace Owned

variable {h : HostTask} {nowMs : U32}

theorem new (acceptCapacity maxPeers : Nat) (useChecksum : Bool)
    (incomingBandwidth outgoingBandwidth : U32) :
    Owned (HostTask.new acceptCapacity maxPeers useChecksum incomingBandwidth
      outgoingBandwidth) := by
  have htrace : ∀ k c, ¬ IsHandle (HostTask.new acceptCapacity maxPeers useChecksum
      incomingBandwidth outgoingBandwidth) k c := by
    rintro k c (⟨_, _, hm⟩ | ⟨_, hm⟩) <;> cases hm
  exact
    { addr := fun a k ha => nomatch ha
      lt := by simp
      inj := by simp
      rx := by simp
      handle_lt := fun k c hc => absurd hc (htrace k c)
      handle := fun k c j p hc => absurd hc (htrace k c) }

/-- The handles an operation gives out are for its own entry. -/
theorem isHandle_op {k : PeerKey} {p : PeerEntry} {o : PeerOp} (ho : Owned h)
    (hp : h.peer k = some p) (hg : o.Guard h p) {j : PeerKey} {c : Nat}
    (hc : IsHandle ((Label.op k o).apply nowMs h) j c) : IsHandle h j c ∨ (j = k ∧ c = p.conn) := by
  have hmem : ∀ e, e ∈ ((Label.op k o).apply nowMs h).trace →
      e ∈ h.trace ∨ e ∈ o.events h.useChecksum k p nowMs := by
    intro e he
    rw [Label.trace_apply_op hp] at he
    exact List.mem_append.mp he
  rcases hc with ⟨addr, connectId, hm⟩ | ⟨reply, hm⟩
  · rcases hmem _ hm with hm | hm
    · exact .inl (.inl ⟨addr, connectId, hm⟩)
    · cases o with
      | accept rx =>
          simp only [PeerOp.events, List.mem_singleton, Event.accepted.injEq] at hm
          obtain ⟨rfl, rfl, _, _⟩ := hm
          exact .inr ⟨rfl, ho.rx _ _ _ hp hg.2.2⟩
      | verify hostMtu vc hdr =>
          simp only [PeerOp.events] at hm
          split at hm <;> simp at hm
      | _ => simp [PeerOp.events] at hm
  · rcases hmem _ hm with hm | hm
    · exact .inl (.inr ⟨reply, hm⟩)
    · cases o with
      | verify hostMtu vc hdr =>
          simp only [PeerOp.events] at hm
          split at hm
          · next rx reply' hrx _ =>
            simp only [List.mem_singleton, Event.connected.injEq] at hm
            obtain ⟨_, rfl, rfl⟩ := hm
            exact .inr ⟨rfl, ho.rx _ _ _ hp hrx⟩
          · simp at hm
      | _ => simp [PeerOp.events] at hm

theorem op {k : PeerKey} {p : PeerEntry} {o : PeerOp} (ho : Owned h) (hp : h.peer k = some p)
    (hg : o.Guard h p) : Owned ((Label.op k o).apply nowMs h) := by
  have hsame := PeerOp.sameConnection nowMs p o
  -- whoever is in a slot afterwards was there before, as the same connection
  have hback : ∀ j q, ((Label.op k o).apply nowMs h).peer j = some q →
      ∃ q₀, h.peer j = some q₀ ∧ SameConnection q₀ q := by
    intro j q hq
    rw [Label.peer_apply_op hp] at hq
    split at hq
    · next hjk =>
      cases hq
      exact ⟨p, by rw [hjk, hp], hsame⟩
    · exact ⟨q, hq, rfl, rfl, rfl, rfl, .inl rfl⟩
  refine ⟨?_, ?_, ?_, ?_, ?_, ?_⟩
  · intro a j ha
    rw [Label.addrMap_apply_op] at ha
    obtain ⟨q, hq, hqa⟩ := ho.addr a j ha
    rw [Label.peer_apply_op hp]
    split
    · next hjk =>
      have hqp : q = p := Option.some.inj (by rw [← hq, hjk, hp])
      exact ⟨_, rfl, by rw [hsame.addr, ← hqp, hqa]⟩
    · exact ⟨q, hq, hqa⟩
  · intro j q hq
    obtain ⟨q₀, hq₀, hs⟩ := hback j q hq
    rw [Label.nextConn_apply_op, hs.conn]
    exact ho.lt j q₀ hq₀
  · intro i j q r hq hr hqr
    obtain ⟨q₀, hq₀, hsq⟩ := hback i q hq
    obtain ⟨r₀, hr₀, hsr⟩ := hback j r hr
    exact ho.inj i j q₀ r₀ hq₀ hr₀ (by rw [← hsq.conn, ← hsr.conn, hqr])
  · intro j q rx hq hrx
    obtain ⟨q₀, hq₀, hs⟩ := hback j q hq
    rw [hs.conn]
    rcases hs.rx with hkeep | hnone
    · exact ho.rx j q₀ rx hq₀ (by rw [← hkeep, hrx])
    · rw [hnone] at hrx
      cases hrx
  · intro j c hc
    rw [Label.nextConn_apply_op]
    rcases isHandle_op ho hp hg hc with hc | ⟨_, rfl⟩
    · exact ho.handle_lt j c hc
    · exact ho.lt k p hp
  · intro j c i q hc hq hqc
    obtain ⟨q₀, hq₀, hs⟩ := hback i q hq
    rcases isHandle_op ho hp hg hc with hc | ⟨rfl, rfl⟩
    · exact ho.handle j c i q₀ hc hq₀ (by rw [← hs.conn, hqc])
    · exact ho.inj i j q₀ p hq₀ hp (by rw [← hs.conn, hqc])

theorem remove {k : PeerKey} {p : PeerEntry} (ho : Owned h) (hp : h.peer k = some p) :
    Owned ((Label.remove k).apply nowMs h) := by
  have hback : ∀ j q, ((Label.remove k).apply nowMs h).peer j = some q →
      j ≠ k ∧ h.peer j = some q := by
    intro j q hq
    rw [Label.peer_apply_remove] at hq
    split at hq
    · cases hq
    · next hjk => exact ⟨hjk, hq⟩
  have htrace : ∀ j c, IsHandle ((Label.remove k).apply nowMs h) j c → IsHandle h j c :=
    fun _ _ hc => hc
  refine ⟨?_, ?_, ?_, ?_, ?_, ?_⟩
  · intro a j ha
    simp only [Label.apply, HostTask.addrMap_removePeer hp] at ha
    by_cases hap : a = p.addr
    · rw [hap, Function.update_self] at ha
      cases ha
    · rw [Function.update_of_ne hap] at ha
      obtain ⟨q, hq, hqa⟩ := ho.addr a j ha
      refine ⟨q, ?_, hqa⟩
      rw [Label.peer_apply_remove, if_neg, hq]
      rintro rfl
      exact hap (by rw [← hqa, Option.some.inj (hq.symm.trans hp)])
  · exact fun j q hq => ho.lt j q (hback j q hq).2
  · exact fun i j q r hq hr => ho.inj i j q r (hback i q hq).2 (hback j r hr).2
  · exact fun j q rx hq => ho.rx j q rx (hback j q hq).2
  · exact fun j c hc => ho.handle_lt j c (htrace j c hc)
  · exact fun j c i q hc hq => ho.handle j c i q (htrace j c hc) (hback i q hq).2

theorem install {slot : PeerKey} {entry : PeerEntry} (ho : Owned h)
    (hs : h.allocSlot = some slot) (hn : IsNewEntry h slot nowMs entry) :
    Owned ((Label.install slot entry).apply nowMs h) := by
  obtain ⟨hconn, hrx⟩ := hn.conn
  have hfree := HostTask.peer_allocSlot hs
  have hback : ∀ j q, ((Label.install slot entry).apply nowMs h).peer j = some q →
      (j = slot ∧ q = entry) ∨ (j ≠ slot ∧ h.peer j = some q) := by
    intro j q hq
    rw [Label.peer_apply_install hs] at hq
    split at hq
    · next hj =>
      cases hq
      exact .inl ⟨hj, rfl⟩
    · next hj => exact .inr ⟨hj, hq⟩
  refine ⟨?_, ?_, ?_, ?_, ?_, ?_⟩
  · intro a j ha
    change Function.update h.addrMap entry.addr (some slot) a = some j at ha
    rw [Label.peer_apply_install hs]
    by_cases hae : a = entry.addr
    · rw [hae, Function.update_self] at ha
      cases ha
      exact ⟨entry, if_pos rfl, hae.symm⟩
    · rw [Function.update_of_ne hae] at ha
      obtain ⟨q, hq, hqa⟩ := ho.addr a j ha
      rw [if_neg, hq]
      · exact ⟨q, rfl, hqa⟩
      · rintro rfl
        rw [hfree] at hq
        cases hq
  · intro j q hq
    show q.conn < h.nextConn + 1
    rcases hback j q hq with ⟨_, rfl⟩ | ⟨_, hq⟩
    · omega
    · exact Nat.lt_succ_of_lt (ho.lt j q hq)
  · intro i j q r hq hr hqr
    -- the new channel number is above every number in use
    rcases hback i q hq with ⟨hi, rfl⟩ | ⟨_, hq₀⟩ <;>
      rcases hback j r hr with ⟨hj, rfl⟩ | ⟨_, hr₀⟩
    · rw [hi, hj]
    · have := ho.lt j r hr₀
      omega
    · have := ho.lt i q hq₀
      omega
    · exact ho.inj i j q r hq₀ hr₀ hqr
  · intro j q rx hq hqrx
    rcases hback j q hq with ⟨_, rfl⟩ | ⟨_, hq⟩
    · rw [hrx] at hqrx
      cases hqrx
      exact hconn.symm
    · exact ho.rx j q rx hq hqrx
  · exact fun j c hc => Nat.lt_succ_of_lt (ho.handle_lt j c hc)
  · intro j c i q hc hq hqc
    rcases hback i q hq with ⟨_, rfl⟩ | ⟨_, hq⟩
    · have := ho.handle_lt j c hc
      omega
    · exact ho.handle j c i q hc hq hqc

/-- Every change keeps ownership. -/
theorem label {l : Label} (ho : Owned h) (hg : l.Guard nowMs h) : Owned (l.apply nowMs h) := by
  cases l with
  | op k o =>
      obtain ⟨p, hp, hg⟩ := hg
      exact ho.op hp hg
  | remove k =>
      obtain ⟨p, hp⟩ := hg
      exact ho.remove hp
  | install slot entry => exact ho.install hg.1 hg.2
  | raw connect addr =>
      have htrace : ∀ k c, IsHandle ((Label.raw connect addr).apply nowMs h) k c →
          IsHandle h k c := by
        intro k c hc
        simpa [IsHandle, Label.apply, HostTask.sendRawDisconnect] using hc
      exact { ho with
        handle_lt := fun k c hc => ho.handle_lt k c (htrace k c hc)
        handle := fun k c j p hc => ho.handle k c j p (htrace k c hc) }
  | epoch => exact ⟨ho.addr, ho.lt, ho.inj, ho.rx, ho.handle_lt, ho.handle⟩
  | appAccept => exact ⟨ho.addr, ho.lt, ho.inj, ho.rx, ho.handle_lt, ho.handle⟩
  | appClose => exact ⟨ho.addr, ho.lt, ho.inj, ho.rx, ho.handle_lt, ho.handle⟩

theorem exec {C : Cond} {h' : HostTask} (ho : Owned h) (e : Exec nowMs C h h') : Owned h' :=
  e.invariant Owned (fun _ _ ho hg _ => ho.label hg) ho

end Owned

/-- **Ownership holds in every reachable state.** -/
theorem HostTask.Reachable.owned {h : HostTask} (hr : h.Reachable) : Owned h :=
  hr.invariant Owned Owned.new fun _ _ _ ho hg => ho.label hg

/-! ## §3. A connection stays in its slot, or leaves it for good. -/

namespace HostTask

variable {h : HostTask} {nowMs : U32} {k : PeerKey} {conn : Nat} {l : Label}

/-- Slot `k` holds the connection `conn`. -/
def Hosts (h : HostTask) (k : PeerKey) (conn : Nat) : Prop := ∃ q, h.peer k = some q ∧ q.conn = conn

theorem hosts_op (nowMs : U32) (o : PeerOp) (hh : h.Hosts k conn) :
    (h.updatePeer k fun p => o.apply nowMs p).Hosts k conn := by
  obtain ⟨q, hq, rfl⟩ := hh
  refine ⟨o.apply nowMs q, ?_, (PeerOp.sameConnection nowMs q o).conn⟩
  rw [peer_updatePeer, if_pos rfl, hq]
  rfl

/-- Only a removal takes the connection out of its slot. -/
theorem Hosts.label (hh : h.Hosts k conn) (hg : l.Guard nowMs h) (hl : l ≠ .remove k) :
    (l.apply nowMs h).Hosts k conn := by
  obtain ⟨q, hq, rfl⟩ := hh
  cases l with
  | op j o =>
      obtain ⟨p, hp, -⟩ := hg
      simp only [Hosts, Label.peer_apply_op hp]
      split
      · next hkj =>
        subst hkj
        cases hq.symm.trans hp
        exact ⟨_, rfl, (PeerOp.sameConnection nowMs _ o).conn⟩
      · exact ⟨q, hq, rfl⟩
  | remove j =>
      have hkj : k ≠ j := fun hkj => hl (by rw [hkj])
      exact ⟨q, by rw [Label.peer_apply_remove, if_neg hkj, hq], rfl⟩
  | install slot entry =>
      refine ⟨q, ?_, rfl⟩
      rw [Label.peer_apply_install hg.1, if_neg, hq]
      rintro rfl
      rw [peer_allocSlot hg.1] at hq
      cases hq
  | raw connect addr => exact ⟨q, hq, rfl⟩
  | epoch => exact ⟨q, hq, rfl⟩
  | appAccept => exact ⟨q, hq, rfl⟩
  | appClose => exact ⟨q, hq, rfl⟩

/-- The connection is not in slot `k`, and its number is taken. -/
def Absent (h : HostTask) (k : PeerKey) (conn : Nat) : Prop :=
  ¬ h.Hosts k conn ∧ conn < h.nextConn

theorem nextConn_le (nowMs : U32) (h : HostTask) (l : Label) :
    h.nextConn ≤ (l.apply nowMs h).nextConn := by
  cases l with
  | op k o => rw [Label.nextConn_apply_op]
  | install slot entry => exact Nat.le_succ _
  | _ => exact Nat.le_refl _

theorem nextConn_le_exec {C : Cond} {h' : HostTask} (e : Exec nowMs C h h') :
    h.nextConn ≤ h'.nextConn :=
  e.invariant (fun h₁ => h.nextConn ≤ h₁.nextConn)
    (fun h₁ l hle _ _ => Nat.le_trans hle (HostTask.nextConn_le nowMs h₁ l)) (Nat.le_refl _)

/-- Whoever is in a slot after a change was there before, or is new. -/
theorem hosts_of_label (hg : l.Guard nowMs h) (hh : (l.apply nowMs h).Hosts k conn) :
    h.Hosts k conn ∨ conn = h.nextConn := by
  obtain ⟨q, hq, rfl⟩ := hh
  cases l with
  | op j o =>
      obtain ⟨p, hp, -⟩ := hg
      rw [Label.peer_apply_op hp] at hq
      split at hq
      · next hkj =>
        subst hkj
        cases hq
        exact .inl ⟨p, hp, (PeerOp.sameConnection nowMs p o).conn.symm⟩
      · exact .inl ⟨q, hq, rfl⟩
  | remove j =>
      rw [Label.peer_apply_remove] at hq
      split at hq
      · cases hq
      · exact .inl ⟨q, hq, rfl⟩
  | install slot entry =>
      rw [Label.peer_apply_install hg.1] at hq
      split at hq
      · cases hq
        exact .inr hg.2.conn.1
      · exact .inl ⟨q, hq, rfl⟩
  | raw connect addr => exact .inl ⟨q, hq, rfl⟩
  | epoch => exact .inl ⟨q, hq, rfl⟩
  | appAccept => exact .inl ⟨q, hq, rfl⟩
  | appClose => exact .inl ⟨q, hq, rfl⟩

/-- **A connection that has left its slot never comes back**: new entries get
new numbers. -/
theorem Absent.label (ha : h.Absent k conn) (hg : l.Guard nowMs h) :
    (l.apply nowMs h).Absent k conn := by
  refine ⟨fun hh => ?_, Nat.lt_of_lt_of_le ha.2 (nextConn_le nowMs h l)⟩
  rcases hosts_of_label hg hh with hh | heq
  · exact ha.1 hh
  · exact Nat.ne_of_lt ha.2 heq

theorem Absent.exec {C : Cond} {h' : HostTask} (ha : h.Absent k conn) (e : Exec nowMs C h h') :
    h'.Absent k conn :=
  e.invariant (fun h => h.Absent k conn) (fun _ _ ha hg _ => ha.label hg) ha

/-- Connection `conn` has been given out, for slot `k`, and its entry has `I`
as long as it is there. -/
def Tracks (h : HostTask) (conn : Nat) (k : PeerKey) (I : PeerEntry → Prop) : Prop :=
  conn < h.nextConn ∧ ∀ j q, h.peer j = some q → q.conn = conn → j = k ∧ I q

/-- **What holds of a new entry and is kept by every operation holds of the
connection for good.** -/
theorem Tracks.label {I : PeerEntry → Prop}
    (hI : ∀ p o, l = .op k o → h.peer k = some p → I p → o.Guard h p → I (o.apply nowMs p))
    (ht : h.Tracks conn k I) (hg : l.Guard nowMs h) : (l.apply nowMs h).Tracks conn k I := by
  refine ⟨Nat.lt_of_lt_of_le ht.1 (nextConn_le nowMs h l), ?_⟩
  -- a new entry has a number that was not given out before
  refine Label.entries_at hg ?_ ?_ ht.2
  · rintro slot entry - hnew hconn
    have hnext := hnew.conn.1
    have hlt := ht.1
    omega
  · rintro j p o hl hp hkeep hgo hconn
    rw [(PeerOp.sameConnection nowMs p o).conn] at hconn
    obtain ⟨rfl, hkept⟩ := hkeep hconn
    exact ⟨rfl, hI p o hl hp hkept hgo⟩

theorem tracks_of_peer {p : PeerEntry} {I : PeerEntry → Prop} (ho : Owned h)
    (hp : h.peer k = some p) (hI : I p) : h.Tracks p.conn k I := by
  refine ⟨ho.lt k p hp, fun j q hq hconn => ?_⟩
  obtain rfl := ho.inj j k q p hq hp hconn
  cases hp.symm.trans hq
  exact ⟨rfl, hI⟩

/-- What is left to show of a change that is taken as a whole. -/
theorem Tracks.of_exec {C : Cond} {h' : HostTask} {I J : PeerEntry → Prop}
    (ht : h.Tracks conn k I) (e : Exec nowMs C h h')
    (hpeers : ∀ j q, h'.peer j = some q → q.conn = conn → j = k ∧ J q) : h'.Tracks conn k J :=
  ⟨Nat.lt_of_lt_of_le ht.1 (nextConn_le_exec e), hpeers⟩

section TracksRun

variable {I : PeerEntry → Prop}
  (hI : ∀ (t : U32) (h : HostTask) (p : PeerEntry) (o : PeerOp), I p → o.Guard h p →
    I (o.apply t p))

include hI

theorem Tracks.exec {C : Cond} {h' : HostTask} (ht : h.Tracks conn k I) (e : Exec nowMs C h h') :
    h'.Tracks conn k I :=
  e.invariant (fun h => h.Tracks conn k I)
    (fun h₁ _ ht hg _ => ht.label (fun p o _ _ => hI nowMs h₁ p o) hg) ht

theorem Tracks.run {h' : HostTask} {is : List Timed} (ht : h.Tracks conn k I)
    (hrun : h.run is = some h') : h'.Tracks conn k I :=
  Transition.run_invariant (I := fun h => h.Tracks conn k I)
    (fun _ _ _ ht hs => ht.exec hI (step_exec_true hs)) is h h' ht hrun

end TracksRun

/-- The eviction takes the connection of the source address out of its slot. -/
theorem evictAddr_absent {p : PeerEntry} (ho : Owned h) {src : SocketAddr}
    (hk : h.addrMap src = some k) (hp : h.peer k = some p) (j : PeerKey) :
    (h.evictAddr src).Absent j p.conn := by
  have hev : h.evictAddr src = (h.notifyDisconnect k none).removePeer k := by
    simp [evictAddr, hk]
  rw [hev]
  refine ⟨?_, by simpa using ho.lt k p hp⟩
  rintro ⟨q, hq, hqp⟩
  rw [peer_removePeer] at hq
  split at hq
  · cases hq
  · next hjk =>
    rw [peer_notifyDisconnect, if_neg hjk] at hq
    exact hjk (ho.inj j k q p hq hp hqp)

/-- What `on_connect` does after the eviction. -/
theorem onConnect_exec_evicted (h : HostTask) (c : ConnectCmd) (hdr : CommandHeader)
    (sentTime : Option U16) (src : SocketAddr) (nowMs : U32) :
    Exec nowMs (fun _ _ => True) (h.evictAddr src) (h.onConnect c hdr sentTime src nowMs) := by
  unfold onConnect
  generalize h.evictAddr src = h₁
  simp only
  cases hs : h₁.allocSlot with
  | none => exact .single (.raw c src) hs trivial
  | some slot =>
      have e : Exec nowMs (fun _ _ => True) h₁ _ :=
        .single (.install slot (h₁.serverHandshake slot c hdr src nowMs).1)
          ⟨hs, .inr ⟨c, hdr, src, rfl⟩⟩ trivial
      exact e.trans (emitByKey_exec _ fun _ _ _ => trivial)

end HostTask

end EnetRs
