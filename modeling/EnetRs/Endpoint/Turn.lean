/-
  EnetRs.Endpoint.Turn — how an entry leaves the task.

  A step of the task is a sequence of turns: one command of a datagram, one slot of
  a tick.  Within a turn at most one entry is removed.  If the application is told,
  it is told right before the removal, and nothing is delivered to that entry in the
  same turn; so what the application finds in the delivery channel of a removed entry
  is what was there before the turn, and perhaps a notice.

  Main results:
    * `HostTask.dispatch_turn`, `HostTask.serviceOne_turn` — the two kinds of turns.
    * `HostTask.step_turns` — every step is a sequence of turns.
-/
import Mathlib.Data.List.Chain
import EnetRs.Host.Deliveries
import EnetRs.Host.Ownership

namespace EnetRs

open MachineInt

/-! ## §1. Turns. -/

namespace Label

/-- A change that neither removes an entry nor tells the application so; the
application takes nothing from the delivery channel either. -/
def Keeps : Label → Prop
  | .op _ (.notify _) | .op _ .appRecv | .remove _ => False
  | _ => True

/-- A change that can come before a removal in the same turn. -/
def Parting : Label → Prop
  | .op _ (.emit _) | .op _ (.ack _ _) | .op _ .retransmit => True
  | _ => False

theorem Parting.keeps {l : Label} (hl : l.Parting) : l.Keeps := by
  cases l with
  | op k o =>
      cases o with
      | notify | appRecv => exact hl
      | _ => trivial
  | remove k => exact hl
  | _ => trivial

end Label

namespace HostTask

variable {h h' h₁ : HostTask} {nowMs : U32} {key k : PeerKey} {p q : PeerEntry}

/-- The entry in a slot is removed; before that the application may be told. -/
def dismiss (h : HostTask) (k : PeerKey) : Option (Option U32) → HostTask
  | none => h.removePeer k
  | some data => (h.notifyDisconnect k data).removePeer k

/-- **One turn of the task.** -/
inductive Turn (nowMs : U32) (h h' : HostTask) : Prop where
  /-- Every entry stays. -/
  | keeps (changes : Exec nowMs (fun _ l => l.Keeps) h h')
  /-- One entry is removed. -/
  | parts {h₁ : HostTask} {k : PeerKey} {p : PeerEntry} (notice : Option (Option U32))
      (before : Exec nowMs (fun _ l => l.Parting) h h₁) (entry : h₁.peer k = some p)
      (after : Exec nowMs (fun _ l => l.Keeps) (h₁.dismiss k notice) h')

theorem dismiss_exec (nowMs : U32) (hp : h.peer k = some p) (notice : Option (Option U32)) :
    Exec nowMs (fun _ _ => True) h (h.dismiss k notice) := by
  cases notice with
  | none => exact .single (.remove k) ⟨p, hp⟩ trivial
  | some data => exact notify_remove_exec data trivial fun _ _ => trivial

/-- A turn is a sequence of changes. -/
theorem Turn.exec (ht : Turn nowMs h h') : Exec nowMs (fun _ _ => True) h h' := by
  cases ht with
  | keeps e => exact e.mono fun _ _ _ => trivial
  | parts notice before entry after =>
      exact ((before.mono fun _ _ _ => trivial).trans (dismiss_exec nowMs entry notice)).trans
        (after.mono fun _ _ _ => trivial)

/-- A notice to the entry in a slot, then its removal. -/
theorem turn_of_notice (data : Option U32) (e : Exec nowMs (fun _ l => l.Parting) h h₁) :
    Turn nowMs h ((h₁.notifyDisconnect key data).removePeer key) := by
  cases hp : h₁.peer key with
  | none =>
      have hsame : h₁.notifyDisconnect key data = h₁ := by simp [notifyDisconnect, hp]
      rw [hsame, removePeer_of_none hp]
      exact .keeps (e.mono fun _ _ => Label.Parting.keeps)
  | some p => exact .parts (some data) e hp .refl

/-- An ACK removes the entry when it completes a disconnect or finds the accept queue
full; before that the command it names is erased, and the application is not told. -/
theorem onAck_turn (ch : U8) (a : AcknowledgeCmd) : Turn nowMs h (h.onAck key ch a nowMs) := by
  unfold onAck
  cases hp : h.peer key with
  | none => exact .keeps .refl
  | some p =>
      simp only
      have e₁ : ∀ {C : Cond}, (∀ h, C h (.op key (.ack ch a))) →
          Exec nowMs C h (h.setPeer key (p.applyAck ch a nowMs)) := fun hC =>
        .op (.ack ch a) hp trivial (hC _) rfl rfl
      have hp₁ : (h.setPeer key (p.applyAck ch a nowMs)).peer key
          = some (p.applyAck ch a nowMs) := peer_setPeer_self (lt_of_peer_eq_some hp)
      generalize p.applyAck ch a nowMs = q at *
      have hkeeps := e₁ (C := fun _ l => l.Keeps) fun _ => trivial
      have hparts := e₁ (C := fun _ l => l.Parting) fun _ => trivial
      split
      · next hdone =>
        cases hrx : q.toUserRx with
        | none =>
            have e₂ : Exec nowMs (fun _ l => l.Keeps) (h.setPeer key q) _ :=
              .op .establish hp₁ ⟨hdone.1, hrx⟩ trivial rfl rfl
            rw [setPeer_setPeer] at e₂
            exact .keeps (hkeeps.trans e₂)
        | some rx =>
            simp only
            split
            · next hroom =>
              have e₂ : Exec nowMs (fun _ l => l.Keeps) (h.setPeer key q) _ :=
                .single (.op key (.accept rx)) ⟨q, hp₁, hroom, hdone.1, hrx⟩ trivial
              rw [Label.apply_op hp₁, setPeer_setPeer] at e₂
              exact .keeps (hkeeps.trans e₂)
            · -- the accept queue is full: the entry is removed without a word
              let q' : PeerEntry := { q with state := .connected, toUserRx := none }
              have hsame : (h.setPeer key q').removePeer key
                  = (h.setPeer key q).removePeer key := by
                rw [← removePeer_setPeer hp₁ (q := q') rfl, setPeer_setPeer]
              rw [hsame]
              exact .parts none hparts hp₁ .refl
      · split
        · exact .parts none hparts hp₁ .refl
        · exact .keeps hkeeps

/-- DISCONNECT tells the application and then removes the entry; the ACK goes first. -/
theorem onDisconnect_turn (hdr : CommandHeader) (sentTime : Option U16) (data : U32) :
    Turn nowMs h (h.onDisconnect key hdr sentTime data nowMs) := by
  unfold onDisconnect
  split
  · exact .keeps .refl
  · refine turn_of_notice (some data) ?_
    split
    · exact emitByKey_exec _ fun _ _ _ => trivial
    · exact .refl

/-- CONNECT removes at most the old entry of the address, and tells its application;
what follows installs the new one. -/
theorem onConnect_turn (c : ConnectCmd) (hdr : CommandHeader) (sentTime : Option U16)
    (src : SocketAddr) : Turn nowMs h (h.onConnect c hdr sentTime src nowMs) := by
  -- after the eviction: the refusal, or the new entry and its first batch
  have hafter : ∀ h₁ : HostTask, h₁ = h.evictAddr src → Exec nowMs (fun _ l => l.Keeps) h₁
      (h.onConnect c hdr sentTime src nowMs) := by
    rintro h₁ rfl
    unfold onConnect
    generalize h.evictAddr src = h₁
    simp only
    cases hs : h₁.allocSlot with
    | none => exact .single (.raw c src) hs trivial
    | some slot =>
        simp only
        have e₁ : Exec nowMs (fun _ l => l.Keeps) h₁ _ :=
          .single (.install slot (h₁.serverHandshake slot c hdr src nowMs).1)
            ⟨hs, .inr ⟨c, hdr, src, rfl⟩⟩ trivial
        exact e₁.trans (emitByKey_exec _ fun _ _ _ => trivial)
  unfold evictAddr at hafter
  cases hk : h.addrMap src with
  | none => exact .keeps (hafter h (by simp only [hk]))
  | some k =>
      cases hp : h.peer k with
      | none =>
          have hsame : h.notifyDisconnect k none = h := by simp [notifyDisconnect, hp]
          exact .keeps (hafter h (by simp only [hk, hsame, removePeer_of_none hp]))
      | some p => exact .parts (some none) .refl hp (hafter _ (by simp only [hk]; rfl))

/-- **One command.** -/
theorem dispatch_turn (h : HostTask) (key : Option PeerKey) (sentTime : Option U16)
    (cmd : Command) (src : SocketAddr) : Turn nowMs h (h.dispatch key sentTime cmd src nowMs) := by
  obtain ⟨f, hf, heq⟩ := dispatch_handled key sentTime cmd src nowMs
  have hsingle : ∀ (k : PeerKey) (o : PeerOp), (Label.op k o).Keeps →
      (∀ p, h.peer k = some p → o.Guard h p) → (∀ p, o.events h.useChecksum k p nowMs = []) →
      o.acceptTx k h.acceptTx = h.acceptTx →
      Exec nowMs (fun _ l => l.Keeps) h (h.updatePeer k fun p => o.apply nowMs p) :=
    fun k o ho hg hev htx => updatePeer_exec o ho hg hev htx
  rw [heq]
  cases hf with
  | ignored => exact .keeps .refl
  | connect c hty hb => exact onConnect_turn c cmd.header sentTime src
  | verifyConnect k vc hk hty hb => exact .keeps (onVerifyConnect_exec vc cmd.header trivial)
  | ack k a hk hty hb => exact onAck_turn _ a
  | disconnect k data hk hty hb => exact onDisconnect_turn _ _ _
  | ping k hk hty =>
      exact .keeps (hsingle k .recvPing trivial (fun _ _ => trivial) (fun _ => rfl) rfl)
  | reliable k data hk hty hb =>
      exact .keeps ((hsingle k (.recvReliable _ _ data) trivial (fun _ _ => trivial)
        (fun _ => rfl) rfl).trans (noteTake_exec h _ _ _ fun _ => trivial))
  | unreliable k useq data hk hty hb =>
      exact .keeps (hsingle k (.recvUnreliable _ _ useq data) trivial (fun _ _ => trivial)
        (fun _ => rfl) rfl)
  | fragment k sf hk hty hb =>
      exact .keeps ((hsingle k (.recvFragment _ sf true) trivial (fun _ _ => trivial)
        (fun _ => rfl) rfl).trans (noteTake_exec h _ _ _ fun _ => trivial))
  | unreliableFragment k sf hk hty hb =>
      exact .keeps (hsingle k (.recvFragment _ sf false) trivial (fun _ _ => trivial)
        (fun _ => rfl) rfl)
  | unsequenced k group data hk hty hb =>
      exact .keeps (hsingle k (.recvUnsequenced group data) trivial (fun _ _ => trivial)
        (fun _ => rfl) rfl)
  | bandwidthLimit k bl hk hty hb =>
      exact .keeps (hsingle k (.recvBandwidthLimit bl) trivial (fun _ _ => trivial)
        (fun _ => rfl) rfl)
  | throttleConfigure k tc hk hty hb =>
      exact .keeps (hsingle k (.recvThrottleConfigure tc) trivial (fun _ _ => trivial)
        (fun _ => rfl) rfl)

/-! ## §2. The service of one slot. -/

theorem keeps_of_send {pkt : Packet} {l : Label} (hl : SendMakes h key pkt h₁ l) : l.Keeps := by
  cases l with
  | op k o =>
      cases o with
      | notify | appRecv => exact hl.2.2
      | _ => trivial
  | remove k => exact hl
  | _ => trivial

theorem drainPending_keeps (hs : h.drainPending key nowMs = some h') :
    Exec nowMs (fun _ l => l.Keeps) h h' :=
  drainPending_exec (Q := fun _ _ _ => True) (fun _ _ _ _ _ _ hl => keeps_of_send hl)
    (fun _ _ => trivial) (fun _ _ => sendsMeet_true key nowMs _ _) hs

/-- What the tick does on its own keeps every entry, unless it gives the peer up. -/
theorem keeps_of_tracked {l : Label} (hi : l.Internal h) (ht : l.Tracked h) : l.Keeps := by
  cases l with
  | op k o =>
      cases o with
      | notify data => exact ht
      | appRecv => exact hi
      | _ => trivial
  | remove k => exact ht
  | _ => trivial

/-- **One slot.** -/
theorem serviceOne_turn (hs : h.serviceOne key nowMs = some h') : Turn nowMs h h' := by
  unfold serviceOne at hs
  cases hp : h.peer key with
  | none =>
      simp only [hp] at hs
      cases hs
      exact .keeps .refl
  | some p =>
      simp only [hp, serviceChecks] at hs
      have hkeeps : Exec nowMs (fun _ l => l.Keeps) h _ :=
        .op .retransmit hp trivial trivial rfl rfl
      have hparts : Exec nowMs (fun _ l => l.Parting) h _ :=
        .op .retransmit hp trivial trivial rfl rfl
      have hp₁ := peer_setPeer_self (q := PeerOp.retransmit.apply nowMs p) (lt_of_peer_eq_some hp)
      simp only [PeerOp.apply] at hkeeps hparts hp₁
      split at hs
      · simp only [Bool.false_eq_true, if_false] at hs
        cases hs
        exact turn_of_notice none hparts
      · simp only [if_true] at hs
        have e : Exec nowMs (fun _ l => l.Keeps) _ _ := serviceSends_exec hp₁
          (retransmitLoop_outstanding nowMs p) fun _ _ hi _ ht => keeps_of_tracked hi ht
        exact .keeps (hkeeps.trans (e.trans (drainPending_keeps hs)))

/-! ## §3. What takes no turn of its own. -/

theorem sendDisconnect_keeps (h : HostTask) (key : PeerKey) (data : U32) :
    Exec nowMs (fun _ l => l.Keeps) h (h.sendDisconnect key data nowMs) :=
  sendDisconnect_exec data (fun _ _ hi _ ht => keeps_of_tracked hi ht) trivial trivial

theorem connect_keeps (addr : SocketAddr) (channelCount : U8) (data : U32)
    (reply : ConnectReplySender) (connectId : U32)
    (hs : h.step nowMs (.connect addr channelCount data reply connectId) = some h') :
    Exec nowMs (fun _ l => l.Keeps) h h' :=
  connect_exec addr channelCount data reply connectId
    (fun _ _ hi _ _ ht => keeps_of_tracked hi ht) (fun _ => trivial) hs

theorem bandwidthThrottle_keeps (h : HostTask) :
    Exec nowMs (fun _ l => l.Keeps) h (h.bandwidthThrottle nowMs) :=
  bandwidthThrottle_exec fun _ _ hi _ ht => keeps_of_tracked hi ht

/-! ## §4. The turns of a step. -/

/-- The states after each command of a datagram. -/
def commandStages (key : Option PeerKey) (sentTime : Option U16) (src : SocketAddr) (nowMs : U32) :
    HostTask → List Command → List HostTask
  | _, [] => []
  | h, cmd :: cmds =>
      h.dispatch key sentTime cmd src nowMs
        :: commandStages key sentTime src nowMs (h.dispatch key sentTime cmd src nowMs) cmds

/-- The states after each slot of a tick, as far as it gets. -/
def serviceStages (nowMs : U32) : HostTask → List PeerKey → List HostTask
  | _, [] => []
  | h, key :: keys =>
      match h.serviceOne key nowMs with
      | some h' => h' :: serviceStages nowMs h' keys
      | none => []

/-- The states that a step passes through, the last one apart. -/
def stages (h : HostTask) (nowMs : U32) : Input → List HostTask
  | .datagram raw src =>
      match h.acceptDatagram raw src with
      | some a => commandStages a.key a.sentTime src nowMs h a.cmds
      | none => []
  | .tick => serviceStages nowMs h (h.keysWhere fun _ => true)
  | _ => []

/-- The command loop is one turn per command, by induction on the commands. -/
theorem commandStages_turns (nowMs : U32) (key : Option PeerKey) (sentTime : Option U16)
    (src : SocketAddr) (cmds : List Command) (h h' : HostTask) (acks : List Bytes)
    (hlast : Turn nowMs (onCommands key sentTime src nowMs h cmds acks).1 h') :
    List.IsChain (Turn nowMs) (h :: (commandStages key sentTime src nowMs h cmds ++ [h'])) := by
  induction cmds generalizing h acks with
  | nil => exact .cons_cons hlast (.singleton h')
  | cons cmd cmds ih => exact .cons_cons (dispatch_turn h key sentTime cmd src) (ih _ _ hlast)

/-- The tick is one turn per slot, by induction on the slots; a tick that does not get
to its end, because a packet panics, has taken the turns until then. -/
theorem serviceStages_turns (nowMs : U32) (keys : List PeerKey) (h : HostTask) :
    List.IsChain (Turn nowMs) (h :: serviceStages nowMs h keys)
      ∧ ∀ h₁ h', serviceEach nowMs h keys = some h₁ → Turn nowMs h₁ h' →
        List.IsChain (Turn nowMs) (h :: (serviceStages nowMs h keys ++ [h'])) := by
  induction keys generalizing h with
  | nil =>
      refine ⟨.singleton h, fun h₁ h' hs hlast => ?_⟩
      cases hs
      exact .cons_cons hlast (.singleton h')
  | cons key keys ih =>
      unfold serviceStages
      cases hs₁ : h.serviceOne key nowMs with
      | none =>
          refine ⟨.singleton h, fun h₁ h' hs _ => ?_⟩
          simp only [serviceEach, hs₁, Option.bind_none] at hs
          cases hs
      | some h₂ =>
          obtain ⟨hchain, hall⟩ := ih h₂
          refine ⟨.cons_cons (serviceOne_turn hs₁) hchain, fun h₁ h' hs hlast => ?_⟩
          simp only [serviceEach, hs₁, Option.bind_some] at hs
          exact .cons_cons (serviceOne_turn hs₁) (hall h₁ h' hs hlast)

/-- **Every step is a sequence of turns**, and so is what a step does before it
panics. -/
theorem step_turns (h : HostTask) (nowMs : U32) (i : Input) (hi : ∀ k, i ≠ .appRecv k) :
    List.IsChain (Turn nowMs) (h :: h.stages nowMs i)
      ∧ ∀ h', h.step nowMs i = some h' →
        List.IsChain (Turn nowMs) (h :: (h.stages nowMs i ++ [h'])) := by
  have hsingle : ∀ h', Exec nowMs (fun _ l => l.Keeps) h h' →
      List.IsChain (Turn nowMs) [h, h'] := fun h' e => .cons_cons (.keeps e) (.singleton h')
  cases i with
  | datagram raw src =>
      cases ha : h.acceptDatagram raw src with
      | none =>
          simp only [stages, ha]
          refine ⟨.singleton h, fun h' hs => ?_⟩
          simp only [step, onDatagram, ha] at hs
          cases hs
          exact hsingle h .refl
      | some a =>
          simp only [stages, ha]
          have hall := commandStages_turns nowMs a.key a.sentTime src a.cmds h
          refine ⟨?_, fun h' hs => ?_⟩
          · have hlast := hall _ [] (.keeps .refl)
            rw [← List.cons_append] at hlast
            exact hlast.left_of_append
          · simp only [step, onDatagram, ha] at hs
            cases hs
            refine hall _ [] (.keeps ((flushAcks_exec a.key src _).mono ?_))
            rintro _ _ ⟨k, cmds, rfl⟩
            trivial
  | send key pkt =>
      refine ⟨.singleton h, fun h' hs => hsingle h' ?_⟩
      have e : Exec nowMs (fun _ l => l.Keeps) h (h.noteSubmit key pkt) :=
        noteSubmit_exec pkt trivial
      exact e.trans ((sendPacket_exec pkt hs).mono fun _ _ hl => keeps_of_send hl)
  | disconnect key data =>
      refine ⟨.singleton h, fun h' hs => hsingle h' ?_⟩
      cases hs
      exact sendDisconnect_keeps h key data
  | connect addr channelCount data reply connectId =>
      exact ⟨.singleton h, fun h' hs => hsingle h' (connect_keeps _ _ _ _ _ hs)⟩
  | tick =>
      obtain ⟨hpart, hall⟩ := serviceStages_turns nowMs (h.keysWhere fun _ => true) h
      refine ⟨hpart, fun h' hs => ?_⟩
      obtain ⟨h₁, hs₁, rfl⟩ := Option.map_eq_some_iff.mp hs
      exact hall h₁ _ hs₁ (.keeps (bandwidthThrottle_keeps h₁))
  | appRecv key => exact absurd rfl (hi key)
  | appDrop key =>
      refine ⟨.singleton h, fun h' hs => hsingle h' ?_⟩
      cases hs
      exact updatePeer_exec .appDrop trivial (fun _ _ => trivial) (fun _ => rfl) rfl
  | appAccept =>
      refine ⟨.singleton h, fun h' hs => hsingle h' ?_⟩
      cases hs
      exact .single .appAccept trivial trivial
  | appClose =>
      refine ⟨.singleton h, fun h' hs => hsingle h' ?_⟩
      cases hs
      exact .single .appClose trivial trivial

end HostTask

end EnetRs
