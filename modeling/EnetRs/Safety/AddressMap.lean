/-
  EnetRs.Safety.AddressMap — the address map mirrors the slots.

  `addr_map` and `peers` are updated apart from each other: `on_connect` evicts
  and then inserts, `remove_peer` clears a slot and unmaps the address it held.
  They agree as long as no entry is inserted for an address that has one, which
  only `begin_connect` could do.  A server never calls it, and a client host has
  a single slot, which is free when it does.

  Main results:
    * `step_invariant_of_installs` — the invariant rule for steps that sets
      apart the two ways in which an entry is inserted.
    * `Mapped.step` — one step keeps the map and the slots in agreement.
    * `addrMap_iff_peer` — the bijection, in every state of every such run.
-/
import EnetRs.Host.Ownership

namespace EnetRs

open MachineInt

/-- An input a server gets: anything but a `Host::connect` call. -/
def Input.IsServer : Input → Prop
  | .connect .. => False
  | _ => True

/-! ## §1. The invariant. -/

/-- The map points at entries with that address, and at every one of them. -/
structure Mapped (h : HostTask) : Prop where
  owned : Owned h
  mapped : ∀ k p, h.peer k = some p → h.addrMap p.addr = some k

namespace Mapped

variable {h : HostTask} {nowMs : U32}

theorem new (acceptCapacity maxPeers : Nat) (useChecksum : Bool)
    (incomingBandwidth outgoingBandwidth : U32) :
    Mapped (HostTask.new acceptCapacity maxPeers useChecksum incomingBandwidth
      outgoingBandwidth) :=
  ⟨Owned.new _ _ _ _ _, by simp⟩

/-- Two slots do not hold entries of one address. -/
theorem addr_inj (hm : Mapped h) {j k : PeerKey} {p q : PeerEntry} (hp : h.peer j = some p)
    (hq : h.peer k = some q) (ha : p.addr = q.addr) : j = k := by
  have hj := hm.mapped j p hp
  rw [ha, hm.mapped k q hq] at hj
  exact (Option.some.inj hj).symm

/-- An address that is not mapped has no entry. -/
theorem addr_ne (hm : Mapped h) {src : SocketAddr} (hfree : h.addrMap src = none) {j : PeerKey}
    {q : PeerEntry} (hq : h.peer j = some q) : q.addr ≠ src := by
  rintro rfl
  rw [hm.mapped j q hq] at hfree
  cases hfree

theorem op {k : PeerKey} {p : PeerEntry} {o : PeerOp} (hm : Mapped h) (hp : h.peer k = some p)
    (hg : o.Guard h p) : Mapped ((Label.op k o).apply nowMs h) := by
  refine ⟨hm.owned.op hp hg, fun j q hq => ?_⟩
  rw [Label.addrMap_apply_op]
  rw [Label.peer_apply_op hp] at hq
  split at hq
  · next hjk =>
    cases hq
    rw [(PeerOp.sameConnection nowMs p o).addr, hjk]
    exact hm.mapped k p hp
  · exact hm.mapped j q hq

/-- **`remove_peer` unmaps the address of the peer it removes** and leaves
every other peer's address mapped. -/
theorem remove {k : PeerKey} {p : PeerEntry} (hm : Mapped h) (hp : h.peer k = some p) :
    Mapped ((Label.remove k).apply nowMs h) := by
  refine ⟨hm.owned.remove hp, fun j q hq => ?_⟩
  rw [Label.peer_apply_remove] at hq
  split at hq
  · cases hq
  · next hjk =>
    have hne : q.addr ≠ p.addr := fun ha => hjk (hm.addr_inj hq hp ha)
    simp only [Label.apply, HostTask.addrMap_removePeer hp]
    rw [Function.update_of_ne hne, hm.mapped j q hq]

/-- A new entry for an address that has none. -/
theorem install {slot : PeerKey} {entry : PeerEntry} (hm : Mapped h)
    (hg : (Label.install slot entry).Guard nowMs h)
    (hfree : ∀ j q, h.peer j = some q → q.addr ≠ entry.addr) :
    Mapped ((Label.install slot entry).apply nowMs h) := by
  refine ⟨hm.owned.label hg, fun j q hq => ?_⟩
  show Function.update h.addrMap entry.addr (some slot) q.addr = some j
  rw [Label.peer_apply_install hg.1] at hq
  split at hq
  · next hj =>
    cases hq
    rw [Function.update_self, hj]
  · rw [Function.update_of_ne (hfree j q hq)]
    exact hm.mapped j q hq

/-- Every change but an insertion keeps the agreement. -/
theorem label {l : Label} (hm : Mapped h) (hg : l.Guard nowMs h)
    (hl : ∀ slot entry, l ≠ .install slot entry) : Mapped (l.apply nowMs h) := by
  cases l with
  | op k o =>
      obtain ⟨p, hp, hg⟩ := hg
      exact hm.op hp hg
  | remove k =>
      obtain ⟨p, hp⟩ := hg
      exact hm.remove hp
  | install slot entry => exact absurd rfl (hl slot entry)
  | raw c addr => exact ⟨hm.owned.label hg, hm.mapped⟩
  | epoch => exact ⟨hm.owned.label hg, hm.mapped⟩
  | appAccept => exact ⟨hm.owned.label hg, hm.mapped⟩
  | appClose => exact ⟨hm.owned.label hg, hm.mapped⟩

end Mapped

/-! ## §2. The two ways in. -/

namespace HostTask

variable {h : HostTask}

/-- After the eviction the address has no entry. -/
theorem addrMap_evictAddr (ho : Owned h) (src : SocketAddr) :
    (h.evictAddr src).addrMap src = none := by
  unfold evictAddr
  cases hk : h.addrMap src with
  | none => exact hk
  | some k =>
      obtain ⟨p, hp, hpa⟩ := ho.addr src k hk
      have hp₁ : (h.notifyDisconnect k none).peer k
          = some { p with toUser := p.toUser.trySend (.error none) } := by
        rw [peer_notifyDisconnect, if_pos rfl, hp]
        rfl
      simp only
      rw [addrMap_removePeer hp₁, hpa, Function.update_self]

/-- **The invariant rule for steps, by insertions**: commands are taken as a
whole, a `connect` call by the entry it inserts, and everything else change by
change. -/
theorem step_invariant_of_installs {Inv : HostTask → Prop} {nowMs : U32}
    {P : HostTask → Option PeerKey → SocketAddr → Command → Prop}
    (hother : ∀ (h : HostTask) (l : Label), Inv h → l.Guard nowMs h →
      (∀ slot entry, l ≠ .install slot entry) → Inv (l.apply nowMs h))
    (hdispatch : ∀ (h : HostTask) key sentTime cmd src, Inv h → P h key src cmd →
      Inv (h.dispatch key sentTime cmd src nowMs))
    {h h' : HostTask} {i : Input}
    (hconnect : ∀ addr channelCount data reply connectId,
      i = .connect addr channelCount data reply connectId → ∀ slot,
      let l := Label.install slot
        (h.clientHandshake slot addr channelCount data nowMs reply connectId).1
      l.Guard nowMs h → Inv (l.apply nowMs h))
    (hm : StepMeets P (fun _ _ _ => True) h (nowMs, i)) (hi : Inv h)
    (hs : h.timedStep (nowMs, i) = some h') : Inv h' := by
  by_cases hdg : ∃ raw src, i = .datagram raw src
  · obtain ⟨raw, src, rfl⟩ := hdg
    cases hs
    refine onDatagram_invariant (P := P) Inv hm (fun h key sentTime cmd hi hp =>
      hdispatch h key sentTime cmd src hi hp) ?_ hi
    exact fun h k cmds hi hg => hother h _ hi hg fun _ _ hl => nomatch hl
  · -- outside a datagram only `connect` inserts, in the state the step starts from
    let C : Cond := fun h₁ l => ∀ slot entry, l = .install slot entry →
      h₁ = h ∧ ∃ addr channelCount data reply connectId,
        i = .connect addr channelCount data reply connectId
          ∧ entry = (h.clientHandshake slot addr channelCount data nowMs reply connectId).1
    have hm' : StepMeets (fun _ _ _ _ => False) (fun _ _ _ => True) h (nowMs, i) := by
      cases i with
      | datagram raw src => exact absurd ⟨raw, src, rfl⟩ hdg
      | tick => exact hm
      | _ => trivial
    have e : Exec nowMs C h h' := by
      refine step_exec i hm' (fun _ _ _ _ _ _ hf => hf.elim) ?_ ?_
        (fun _ _ _ _ _ _ hl => nomatch hl) ?_ hs
      · rintro h₁ key pkt h₂ l _ hl slot entry rfl
        exact hl.elim
      · rintro h₁ l hl slot entry rfl
        exact hl.elim
      · rintro addr channelCount data reply connectId hi slot _ _ hl
        cases hl
        exact ⟨rfl, addr, channelCount, data, reply, connectId, hi, rfl⟩
    refine e.invariant Inv (fun h₁ l hi₁ hg hc => ?_) hi
    by_cases hl : ∃ slot entry, l = .install slot entry
    · obtain ⟨slot, entry, rfl⟩ := hl
      obtain ⟨rfl, addr, channelCount, data, reply, connectId, hin, rfl⟩ := hc _ _ rfl
      exact hconnect _ _ _ _ _ hin slot hg
    · exact hother h₁ l hi₁ hg fun slot entry hl' => hl ⟨slot, entry, hl'⟩

end HostTask

namespace Mapped

variable {h : HostTask} {nowMs : U32}

/-- **One command**: the entry `on_connect` inserts is for an address that was
evicted just before. -/
theorem dispatch {key : Option PeerKey} {sentTime : Option U16} {cmd : Command} {src : SocketAddr}
    (hm : Mapped h) : Mapped (h.dispatch key sentTime cmd src nowMs) := by
  refine (HostTask.dispatch_exec nowMs h key sentTime cmd src).invariant Mapped ?_ hm
  intro h₁ l hm₁ hg hl
  by_cases hin : ∃ slot entry, l = .install slot entry
  · obtain ⟨slot, entry, rfl⟩ := hin
    obtain ⟨c, hc, rfl, rfl⟩ := hl
    refine hm₁.install hg fun j q hq => ?_
    exact hm₁.addr_ne (HostTask.addrMap_evictAddr hm.owned src) hq
  · exact hm₁.label hg fun slot entry hl => hin ⟨slot, entry, hl⟩

/-- **One step**, if a `connect` call finds no entry for its address. -/
theorem step {h' : HostTask} {i : HostTask.Timed} (hm : Mapped h)
    (hconnect : ∀ addr channelCount data reply connectId,
      i.2 = .connect addr channelCount data reply connectId → ∀ slot, h.allocSlot = some slot →
      ∀ j q, h.peer j = some q → q.addr ≠ addr)
    (hs : h.timedStep i = some h') : Mapped h' := by
  obtain ⟨nowMs, i⟩ := i
  refine HostTask.step_invariant_of_installs (P := fun _ _ _ _ => True)
    (fun h l hm hg hl => hm.label hg hl) (fun h key sentTime cmd src hm _ => hm.dispatch)
    ?_ ?_ hm hs
  · intro addr channelCount data reply connectId hi slot l hg
    exact hm.install hg (hconnect addr channelCount data reply connectId hi slot hg.1)
  · exact HostTask.stepMeets_true h (nowMs, i)

end Mapped

/-! ## §3. Servers, and clients with one slot. -/

namespace HostTask

variable {h h' : HostTask} {i : Timed}

theorem length_timedStep (hs : h.timedStep i = some h') : h'.peers.length = h.peers.length :=
  (step_exec_true hs).invariant (fun h₁ => h₁.peers.length = h.peers.length)
    (fun _ l hlen _ _ => (Label.length_apply l).trans hlen) rfl

/-- A host of one slot has no entry when it has a free slot. -/
theorem peer_eq_none_of_one_slot (hlen : h.peers.length = 1) {slot : PeerKey}
    (hs : h.allocSlot = some slot) (j : PeerKey) : h.peer j = none := by
  cases hq : h.peer j with
  | none => rfl
  | some q =>
      have hslot : slot = 0 := Nat.lt_one_iff.mp (hlen ▸ allocSlot_lt hs)
      have hj : j = 0 := Nat.lt_one_iff.mp (hlen ▸ lt_of_peer_eq_some hq)
      rw [hj, ← hslot, peer_allocSlot hs] at hq
      cases hq

/-- What a server or a one-slot host keeps along a run. -/
theorem mapped_of_run (acceptCapacity maxPeers : Nat) (useChecksum : Bool) (ib ob : U32)
    (is : List Timed) (hhost : (∀ i ∈ is, i.2.IsServer) ∨ maxPeers = 1)
    (hrun : (HostTask.new acceptCapacity maxPeers useChecksum ib ob).run is = some h) :
    Mapped h := by
  rcases hhost with hserver | hone
  · refine Transition.run_invariant_of_meets (C := fun _ i => i.2.IsServer)
      (fun h i h' hm hi hs => hm.step ?_ hs) is _ h (Mapped.new _ _ _ _ _)
      (Transition.meets_of_forall hserver) hrun
    intro addr channelCount data reply connectId hin
    rw [hin] at hi
    exact hi.elim
  · have hone' : (HostTask.new acceptCapacity maxPeers useChecksum ib ob).peers.length = 1 := by
      simpa [HostTask.new] using hone
    -- with one slot, a `connect` call that finds it free finds no entry at all
    refine (Transition.run_invariant (I := fun h => Mapped h ∧ h.peers.length = 1)
      (fun h i h' hm hs => ⟨hm.1.step ?_ hs, (length_timedStep hs).trans hm.2⟩) is _ h
      ⟨Mapped.new _ _ _ _ _, hone'⟩ hrun).1
    intro _ _ _ _ _ _ slot hslot j q hq
    rw [peer_eq_none_of_one_slot hm.2 hslot j] at hq
    cases hq

/-- **The address map and the slots are in bijection** in every state that a
host reaches which is never told to connect, or which has a single slot. -/
theorem addrMap_iff_peer (acceptCapacity maxPeers : Nat) (useChecksum : Bool) (ib ob : U32)
    (is : List Timed) (hhost : (∀ i ∈ is, i.2.IsServer) ∨ maxPeers = 1)
    (hrun : (HostTask.new acceptCapacity maxPeers useChecksum ib ob).run is = some h) :
    (∀ a k, h.addrMap a = some k ↔ ∃ p, h.peer k = some p ∧ p.addr = a)
      ∧ (∀ j k p q, h.peer j = some p → h.peer k = some q → p.addr = q.addr → j = k)
      ∧ ∀ j k p, h.peer j = some p → j ≠ k → (h.removePeer k).addrMap p.addr = some j := by
  have hm := mapped_of_run acceptCapacity maxPeers useChecksum ib ob is hhost hrun
  refine ⟨fun a k => ⟨hm.owned.addr a k, ?_⟩, fun j k p q => hm.addr_inj, ?_⟩
  · rintro ⟨p, hp, rfl⟩
    exact hm.mapped k p hp
  · intro j k p hp hjk
    cases hk : h.peer k with
    | none =>
        rw [addrMap_removePeer_none hk]
        exact hm.mapped j p hp
    | some r =>
        have hm' : Mapped ((Label.remove k).apply 0 h) := hm.remove hk
        refine hm'.mapped j p ?_
        rw [Label.peer_apply_remove, if_neg hjk]
        exact hp

/-- Alice's and Bob's entries, and a client's one entry, are the ones their
address is mapped to. -/
theorem addrMap_iff_peer_alice :
    (∃ h, (HostTask.new 64 4 false 0 0).run
        (aliceConnects 10 ++ [(30, .datagram (connectDatagram 78 2 1392) bob)]) = some h
      ∧ (h.peer 0).isSome ∧ h.addrMap bob = some 1 ∧ ∃ p, h.peer 1 = some p ∧ p.addr = bob)
    ∧ ∃ h, (HostTask.new 1 1 false 0 0).run [(5, .connect alice 2 0 9 77)] = some h
      ∧ h.addrMap alice = some 0 ∧ ∃ p, h.peer 0 = some p ∧ p.addr = alice := by
  have hserver : ((HostTask.new 64 4 false 0 0).run
      (aliceConnects 10 ++ [(30, .datagram (connectDatagram 78 2 1392) bob)])).any
      (fun h => (h.peer 0).isSome && decide (h.addrMap bob = some 1)) = true := by decide +kernel
  have hclient : ((HostTask.new 1 1 false 0 0).run [(5, .connect alice 2 0 9 77)]).any
      (fun h => decide (h.addrMap alice = some 0)) = true := by decide +kernel
  obtain ⟨h, hh, hrest⟩ := (Option.any_eq_true _ _).mp hserver
  obtain ⟨h', hh', hrest'⟩ := (Option.any_eq_true _ _).mp hclient
  simp only [Bool.and_eq_true, decide_eq_true_eq] at hrest hrest'
  refine ⟨⟨h, hh, hrest.1, hrest.2, ?_⟩, h', hh', hrest', ?_⟩
  · exact ((addrMap_iff_peer 64 4 false 0 0 _ (.inl (by simp [aliceConnects, Input.IsServer]))
      hh).1 bob 1).mp hrest.2
  · exact ((addrMap_iff_peer 1 1 false 0 0 _ (.inr rfl) hh').1 alice 0).mp hrest'

end HostTask

end EnetRs
