/-
  EnetRs.Safety.Address — what a datagram can do to the entries of others.

  The slot a datagram is handled for comes from a 12-bit number in its header
  and is not compared with the address it came from.  So isolation between
  source addresses holds for a datagram that resolves to a slot of its own
  source, and fails for one that names somebody else's slot.
-/
import EnetRs.Host.Ownership

namespace EnetRs

open MachineInt

namespace HostTask

/-- The slot the datagram resolves to is empty or belongs to its source, if
the datagram gets as far as its command loop. -/
def ResolvesToOwn (h : HostTask) (raw : Bytes) (src : SocketAddr) : Prop :=
  ∀ a k p, h.acceptDatagram raw src = some a → a.key = some k → h.peer k = some p → p.addr = src

instance (h : HostTask) (raw : Bytes) (src : SocketAddr) : Decidable (h.ResolvesToOwn raw src) :=
  decidable_of_iff
    ((h.acceptDatagram raw src).all fun a => a.key.all fun k => (h.peer k).all fun p =>
      decide (p.addr = src)) (by
    simp only [Option.all_eq_true, decide_eq_true_eq, ResolvesToOwn]
    exact ⟨fun hall a k p ha hk hp => hall a ha k hk p hp,
      fun hall a ha k hk p hp => hall a k p ha hk hp⟩)

/-- The slot a change is made in is the one resolved, or the one of the source address. -/
def Touches (key : Option PeerKey) (src : SocketAddr) : Cond
  | h, .op k _ | h, .remove k => key = some k ∨ h.addrMap src = some k
  | _, .install _ _ | _, .raw _ _ => True
  | _, _ => False

theorem touches_of_makes {cmd : Command} {h h' : HostTask} {key : Option PeerKey}
    {src : SocketAddr} {nowMs : U32} {l : Label} (hl : cmd.Makes h key src nowMs h' l) :
    Touches key src h' l := by
  cases l with
  | op k o =>
      cases o with
      | emit cmds => exact hl.1
      | notify data => exact hl
      | accept rx => exact .inl hl
      | establish => exact .inl hl
      | _ => exact .inl hl.1
  | remove k => exact hl
  | install slot entry => trivial
  | raw connect addr => trivial
  | epoch => exact hl
  | appAccept => exact hl
  | appClose => exact hl

/-- A change that touches only slots of `src` keeps an entry of somebody else. -/
theorem Touches.keeps {h : HostTask} {key : Option PeerKey} {src : SocketAddr} {nowMs : U32}
    {l : Label} {j : PeerKey} {p : PeerEntry} (ho : Owned h) (ht : Touches key src h l)
    (hg : l.Guard nowMs h) (hkey : key ≠ some j) (hp : h.peer j = some p) (ha : p.addr ≠ src) :
    (l.apply nowMs h).peer j = some p := by
  -- the slot of `src` in the address map holds an entry of `src`, so it is not `j`
  have hne : ∀ k, key = some k ∨ h.addrMap src = some k → j ≠ k := by
    rintro k (hk | hk) rfl
    · exact hkey hk
    · obtain ⟨q, hq, hqa⟩ := ho.addr src j hk
      exact ha (by rw [← hqa, Option.some.inj (hq.symm.trans hp)])
  cases l with
  | op k o =>
      obtain ⟨q, hq, _⟩ := hg
      rw [Label.peer_apply_op hq, if_neg (hne k ht), hp]
  | remove k => rw [Label.peer_apply_remove, if_neg (hne k ht), hp]
  | install slot entry =>
      rw [Label.peer_apply_install hg.1, if_neg, hp]
      rintro rfl
      rw [peer_allocSlot hg.1] at hp
      cases hp
  | raw connect addr => exact hp
  | epoch => exact ht.elim
  | appAccept => exact ht.elim
  | appClose => exact ht.elim

/-- **Isolation of source addresses.**  In every reachable state, a datagram
that does not resolve to an entry of another address leaves every entry of
another address exactly as it is. -/
theorem onDatagram_isolates {h : HostTask} (hr : h.Reachable) (raw : Bytes) (src : SocketAddr)
    (nowMs : U32) (hown : h.ResolvesToOwn raw src) (j : PeerKey) (p : PeerEntry)
    (hp : h.peer j = some p) (ha : p.addr ≠ src) :
    (h.onDatagram raw src nowMs).peer j = some p := by
  cases hacc : h.acceptDatagram raw src with
  | none =>
      simp only [onDatagram, hacc]
      exact hp
  | some a =>
      have hkey : a.key ≠ some j := fun hk => ha (hown a j p hacc hk hp)
      have e : Exec nowMs (Touches a.key src) h (h.onDatagram raw src nowMs) := by
        refine onDatagram_exec (P := fun _ _ _ _ => True) raw src
          (fun _ _ => commandsMeet_true _ _ _ _ _ _) ?_ ?_
        · intro a' ha' h₁ cmd h₂ l _ hl
          cases hacc.symm.trans ha'
          exact touches_of_makes hl
        · intro a' ha' h₁ k cmds hk _
          cases hacc.symm.trans ha'
          exact hk
      refine (e.invariant (fun h => Owned h ∧ h.peer j = some p) ?_ ⟨hr.owned, hp⟩).2
      rintro h₁ l ⟨ho, hj⟩ hg ht
      exact ⟨ho.label hg, ht.keeps ho hg hkey hj ha⟩

/-! ## Two clients. -/

/-- Alice has connected in slot 0; Bob's CONNECT has arrived in slot 1. -/
def twoClients : List Timed :=
  [(10, .datagram (connectDatagram 77 2 1392) alice),
   (20, .datagram (peerDatagram 0 9 [ack channelIdConnection 1 10]) alice),
   (30, .datagram (connectDatagram 78 2 1392) bob)]

/-- Alice's own DISCONNECT does not touch Bob's entry. -/
theorem onDatagram_isolates_bob :
    ∃ h p, (bind 4 false 0 0).run twoClients = some h ∧ h.peer 1 = some p ∧ p.addr = bob
      ∧ (h.onDatagram (peerDatagram 0 9
          [encodeCommand cmdDisconnect commandFlagAcknowledge channelIdConnection 2 (be32 5)])
          alice 40).peer 1 = some p := by
  have hrun : ((bind 4 false 0 0).run twoClients).any (fun h => (h.peer 1).any (fun p =>
      decide (p.addr = bob)) && decide (h.ResolvesToOwn (peerDatagram 0 9
        [encodeCommand cmdDisconnect commandFlagAcknowledge channelIdConnection 2 (be32 5)])
        alice)) = true := by decide +kernel
  obtain ⟨h, hh, hrest⟩ := (Option.any_eq_true _ _).mp hrun
  simp only [Bool.and_eq_true, Option.any_eq_true, decide_eq_true_eq] at hrest
  obtain ⟨⟨p, hp, hpa⟩, hown⟩ := hrest
  refine ⟨h, p, hh, hp, hpa, ?_⟩
  exact onDatagram_isolates ⟨64, 4, false, 0, 0, twoClients, hh⟩ _ alice 40 hown 1 p hp
    (by rw [hpa]; decide)

/-- **Bob's datagram removes Alice's entry**: it names slot 0, where Alice is. -/
theorem onDatagram_reaches_other_address :
    ∃ (h : HostTask) (p : PeerEntry), h.Reachable ∧ h.peer 0 = some p ∧ p.addr = alice
      ∧ (h.onDatagram (peerDatagram 0 9 [encodeCommand cmdDisconnect 0 channelIdConnection 2 (be32 5)])
          bob 40).peer 0 = none := by
  have hrun : ((bind 4 false 0 0).run twoClients).any (fun h => (h.peer 0).any (fun p =>
      decide (p.addr = alice)) && ((h.onDatagram (peerDatagram 0 9
        [encodeCommand cmdDisconnect 0 channelIdConnection 2 (be32 5)]) bob 40).peer 0).isNone)
      = true := by decide +kernel
  obtain ⟨h, hh, hrest⟩ := (Option.any_eq_true _ _).mp hrun
  simp only [Bool.and_eq_true, Option.any_eq_true, decide_eq_true_eq, Option.isNone_iff_eq_none]
    at hrest
  obtain ⟨⟨p, hp, hpa⟩, hgone⟩ := hrest
  exact ⟨h, p, ⟨64, 4, false, 0, 0, twoClients, hh⟩, hp, hpa, hgone⟩

end HostTask

end EnetRs
