/-
  EnetRs.Host.Slots — how the primitive state changes read back.

  One lemma per primitive and per observation (`peer`, `addrMap`, `trace`, …),
  so that no later proof unfolds `setPeer`, `updatePeer`, `removePeer` or
  `emitByKey`.
-/
import EnetRs.Host.State

namespace EnetRs.HostTask

open MachineInt

variable {h : HostTask} {j k : PeerKey} {p q : PeerEntry} {f : PeerEntry → PeerEntry}

/-! ## §1. `peer`, `setPeer`, `updatePeer`. -/

theorem lt_of_peer_eq_some (hp : h.peer k = some p) : k < h.peers.length := by
  by_contra hk
  have : h.peers[k]? = none := List.getElem?_eq_none (Nat.le_of_not_lt hk)
  simp [peer, this] at hp

theorem peer_setPeer_self (hk : k < h.peers.length) : (h.setPeer k q).peer k = some q := by
  simp [peer, setPeer, hk]

theorem peer_setPeer_ne (hjk : j ≠ k) : (h.setPeer k q).peer j = h.peer j := by
  simp [peer, setPeer, List.getElem?_set_ne (Ne.symm hjk)]

/-- A new host has no peers. -/
@[simp] theorem peer_new (acceptCapacity maxPeers : Nat) (useChecksum : Bool) (ib ob : U32)
    (k : PeerKey) : (HostTask.new acceptCapacity maxPeers useChecksum ib ob).peer k = none := by
  simp only [peer, HostTask.new, List.getElem?_replicate]
  split <;> rfl

/-- Writing over an occupied slot. -/
theorem peer_setPeer (hp : h.peer k = some p) (j : PeerKey) :
    (h.setPeer k q).peer j = if j = k then some q else h.peer j := by
  by_cases hjk : j = k
  · subst hjk
    rw [if_pos rfl, peer_setPeer_self (lt_of_peer_eq_some hp)]
  · rw [if_neg hjk, peer_setPeer_ne hjk]

theorem updatePeer_of_some (hp : h.peer k = some p) : h.updatePeer k f = h.setPeer k (f p) := by
  simp [updatePeer, hp]

theorem updatePeer_of_none (hp : h.peer k = none) : h.updatePeer k f = h := by
  simp [updatePeer, hp]

theorem peer_updatePeer (h : HostTask) (k : PeerKey) (f : PeerEntry → PeerEntry) (j : PeerKey) :
    (h.updatePeer k f).peer j = if j = k then (h.peer k).map f else h.peer j := by
  cases hp : h.peer k with
  | none =>
      rw [updatePeer_of_none hp]
      by_cases hjk : j = k
      · subst hjk
        simp [hp]
      · simp [hjk]
  | some p =>
      rw [updatePeer_of_some hp, peer_setPeer hp]
      rfl

/-- Two writes to one slot are the second one. -/
@[simp] theorem setPeer_setPeer (h : HostTask) (k : PeerKey) (p q : PeerEntry) :
    (h.setPeer k p).setPeer k q = h.setPeer k q := by
  simp [setPeer]

/-- Writing back what is there changes nothing. -/
theorem setPeer_self (hp : h.peer k = some p) : h.setPeer k p = h := by
  have hk := lt_of_peer_eq_some hp
  have hget : h.peers[k] = some p := by simpa [peer, hk] using hp
  have : h.peers.set k (some p) = h.peers := by rw [← hget, List.set_getElem_self hk]
  simp [setPeer, this]

@[simp] theorem setPeer_addrMap : (h.setPeer k q).addrMap = h.addrMap := rfl
@[simp] theorem setPeer_trace : (h.setPeer k q).trace = h.trace := rfl
@[simp] theorem setPeer_useChecksum : (h.setPeer k q).useChecksum = h.useChecksum := rfl
@[simp] theorem setPeer_nextConn : (h.setPeer k q).nextConn = h.nextConn := rfl
@[simp] theorem setPeer_acceptTx : (h.setPeer k q).acceptTx = h.acceptTx := rfl
@[simp] theorem setPeer_hostMtu : (h.setPeer k q).hostMtu = h.hostMtu := rfl
@[simp] theorem setPeer_length : (h.setPeer k q).peers.length = h.peers.length := by
  simp [setPeer]

section UpdateFrame

variable (h k f)

@[simp] theorem updatePeer_addrMap : (h.updatePeer k f).addrMap = h.addrMap := by
  unfold updatePeer; split <;> rfl
@[simp] theorem updatePeer_trace : (h.updatePeer k f).trace = h.trace := by
  unfold updatePeer; split <;> rfl
@[simp] theorem updatePeer_useChecksum : (h.updatePeer k f).useChecksum = h.useChecksum := by
  unfold updatePeer; split <;> rfl
@[simp] theorem updatePeer_nextConn : (h.updatePeer k f).nextConn = h.nextConn := by
  unfold updatePeer; split <;> rfl
@[simp] theorem updatePeer_acceptTx : (h.updatePeer k f).acceptTx = h.acceptTx := by
  unfold updatePeer; split <;> rfl
@[simp] theorem updatePeer_hostMtu : (h.updatePeer k f).hostMtu = h.hostMtu := by
  unfold updatePeer; split <;> rfl
@[simp] theorem updatePeer_length : (h.updatePeer k f).peers.length = h.peers.length := by
  unfold updatePeer; split <;> simp

end UpdateFrame

/-! ## §2. `note`, `removePeer`, `notifyDisconnect`. -/

@[simp] theorem note_peer (h : HostTask) (e : Event) (j : PeerKey) : (h.note e).peer j = h.peer j :=
  rfl
@[simp] theorem note_peers (h : HostTask) (e : Event) : (h.note e).peers = h.peers := rfl
@[simp] theorem note_addrMap (h : HostTask) (e : Event) : (h.note e).addrMap = h.addrMap := rfl
@[simp] theorem note_trace (h : HostTask) (e : Event) : (h.note e).trace = h.trace ++ [e] := rfl
@[simp] theorem note_useChecksum (h : HostTask) (e : Event) :
    (h.note e).useChecksum = h.useChecksum := rfl
@[simp] theorem note_nextConn (h : HostTask) (e : Event) : (h.note e).nextConn = h.nextConn := rfl
@[simp] theorem note_hostMtu (h : HostTask) (e : Event) : (h.note e).hostMtu = h.hostMtu := rfl

theorem peer_removePeer (h : HostTask) (k j : PeerKey) :
    (h.removePeer k).peer j = if j = k then none else h.peer j := by
  by_cases hjk : j = k
  · subst hjk
    rw [if_pos rfl]
    simp only [peer, removePeer]
    by_cases hj : j < h.peers.length
    · simp [hj]
    · rw [List.getElem?_eq_none (by simpa using hj)]
      rfl
  · simp [peer, removePeer, List.getElem?_set_ne (Ne.symm hjk), hjk]

theorem addrMap_removePeer (hp : h.peer k = some p) :
    (h.removePeer k).addrMap = Function.update h.addrMap p.addr none := by
  simp [removePeer, hp]

/-- Emptying an empty slot changes nothing. -/
theorem removePeer_of_none (hp : h.peer k = none) : h.removePeer k = h := by
  have hset : h.peers.set k none = h.peers := by
    by_cases hk : k < h.peers.length
    · have hget : h.peers[k] = none := by simpa [peer, hk] using hp
      rw [← hget, List.set_getElem_self hk]
    · exact List.set_eq_of_length_le (Nat.le_of_not_lt hk)
  simp [removePeer, hp, hset]

/-- Only the address of the entry matters to `removePeer`. -/
theorem removePeer_setPeer (hp : h.peer k = some p) (ha : q.addr = p.addr) :
    (h.setPeer k q).removePeer k = h.removePeer k := by
  have hq : (h.setPeer k q).peer k = some q := peer_setPeer_self (lt_of_peer_eq_some hp)
  simp only [removePeer, hq, hp, ha]
  simp [setPeer]

theorem addrMap_removePeer_none (hp : h.peer k = none) : (h.removePeer k).addrMap = h.addrMap := by
  simp [removePeer, hp]

@[simp] theorem removePeer_trace : (h.removePeer k).trace = h.trace := rfl
@[simp] theorem removePeer_nextConn : (h.removePeer k).nextConn = h.nextConn := rfl
@[simp] theorem removePeer_useChecksum : (h.removePeer k).useChecksum = h.useChecksum := rfl
@[simp] theorem removePeer_hostMtu : (h.removePeer k).hostMtu = h.hostMtu := rfl
@[simp] theorem removePeer_length : (h.removePeer k).peers.length = h.peers.length := by
  simp [removePeer]

theorem peer_notifyDisconnect (h : HostTask) (k : PeerKey) (data : Option U32) (j : PeerKey) :
    (h.notifyDisconnect k data).peer j =
      if j = k then (h.peer k).map fun p => { p with toUser := p.toUser.trySend (.error data) }
      else h.peer j := by
  cases hp : h.peer k with
  | none =>
      simp only [notifyDisconnect, hp]
      by_cases hjk : j = k
      · subst hjk
        simp [hp]
      · simp [hjk]
  | some p =>
      simp only [notifyDisconnect, hp, note_peer]
      rw [peer_setPeer hp]
      rfl

theorem trace_notifyDisconnect (hp : h.peer k = some p) (data : Option U32) :
    (h.notifyDisconnect k data).trace
      = h.trace ++ [.disconnected p.conn data p.toUser.hasRoom] := by
  simp only [notifyDisconnect, hp]
  rfl

@[simp] theorem notifyDisconnect_addrMap (h : HostTask) (k : PeerKey) (data : Option U32) :
    (h.notifyDisconnect k data).addrMap = h.addrMap := by
  unfold notifyDisconnect; split <;> rfl
@[simp] theorem notifyDisconnect_nextConn (h : HostTask) (k : PeerKey) (data : Option U32) :
    (h.notifyDisconnect k data).nextConn = h.nextConn := by
  unfold notifyDisconnect; split <;> rfl
@[simp] theorem notifyDisconnect_hostMtu (h : HostTask) (k : PeerKey) (data : Option U32) :
    (h.notifyDisconnect k data).hostMtu = h.hostMtu := by
  unfold notifyDisconnect; split <;> rfl
@[simp] theorem notifyDisconnect_length (h : HostTask) (k : PeerKey) (data : Option U32) :
    (h.notifyDisconnect k data).peers.length = h.peers.length := by
  unfold notifyDisconnect; split <;> simp
@[simp] theorem notifyDisconnect_useChecksum (h : HostTask) (k : PeerKey) (data : Option U32) :
    (h.notifyDisconnect k data).useChecksum = h.useChecksum := by
  unfold notifyDisconnect; split <;> rfl

/-! ## §3. `emitByKey`. -/

theorem emitByKey_nil (h : HostTask) (k : PeerKey) (nowMs : U32) : h.emitByKey k [] nowMs = h := rfl

theorem emitByKey_of_some (hp : h.peer k = some p) {cmds : List Bytes} (hc : cmds ≠ [])
    (nowMs : U32) :
    h.emitByKey k cmds nowMs = (h.setPeer k { p with lastSendTime := nowMs }).note
      (.sent p.addr cmds (makeDatagram h.useChecksum p cmds nowMs)) := by
  cases cmds with
  | nil => exact absurd rfl hc
  | cons c cs => simp [emitByKey, hp]

theorem emitByKey_of_none (hp : h.peer k = none) (cmds : List Bytes) (nowMs : U32) :
    h.emitByKey k cmds nowMs = h := by
  simp [emitByKey, hp]

theorem peer_emitByKey (h : HostTask) (k : PeerKey) {cmds : List Bytes} (hc : cmds ≠ [])
    (nowMs : U32) (j : PeerKey) :
    (h.emitByKey k cmds nowMs).peer j =
      if j = k then (h.peer k).map fun p => { p with lastSendTime := nowMs } else h.peer j := by
  cases hp : h.peer k with
  | none =>
      rw [emitByKey_of_none hp]
      by_cases hjk : j = k
      · subst hjk
        simp [hp]
      · simp [hjk]
  | some p =>
      rw [emitByKey_of_some hp hc, note_peer, peer_setPeer hp]
      rfl

section EmitFrame

variable (h : HostTask) (k : PeerKey) (cmds : List Bytes) (nowMs : U32)

@[simp] theorem emitByKey_addrMap : (h.emitByKey k cmds nowMs).addrMap = h.addrMap := by
  unfold emitByKey; split <;> [rfl; (split <;> rfl)]
@[simp] theorem emitByKey_nextConn : (h.emitByKey k cmds nowMs).nextConn = h.nextConn := by
  unfold emitByKey; split <;> [rfl; (split <;> rfl)]
@[simp] theorem emitByKey_useChecksum : (h.emitByKey k cmds nowMs).useChecksum = h.useChecksum := by
  unfold emitByKey; split <;> [rfl; (split <;> rfl)]
@[simp] theorem emitByKey_hostMtu : (h.emitByKey k cmds nowMs).hostMtu = h.hostMtu := by
  unfold emitByKey; split <;> [rfl; (split <;> rfl)]
@[simp] theorem emitByKey_length :
    (h.emitByKey k cmds nowMs).peers.length = h.peers.length := by
  unfold emitByKey; split <;> [rfl; (split <;> simp)]

end EmitFrame

/-! ## §4. `allocSlot`. -/

theorem allocSlot_lt (hs : h.allocSlot = some k) : k < h.peers.length :=
  (List.findIdx?_eq_some_iff_findIdx_eq.mp hs).1

/-- The slot handed out is free. -/
theorem peer_allocSlot (hs : h.allocSlot = some k) : h.peer k = none := by
  obtain ⟨hlt, hnone, _⟩ := List.findIdx?_eq_some_iff_getElem.mp hs
  simp only [peer, List.getElem?_eq_getElem hlt]
  simpa using hnone

/-- A slot is handed out as long as one is free. -/
theorem allocSlot_ne_none (hk : k < h.peers.length) (hp : h.peer k = none) :
    h.allocSlot ≠ none := by
  intro hnone
  have hall := List.findIdx?_eq_none_iff.mp hnone _ (List.getElem_mem hk)
  simp only [peer, List.getElem?_eq_getElem hk, Option.join_some] at hp
  simp [hp] at hall

end EnetRs.HostTask
