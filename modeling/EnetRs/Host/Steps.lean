/-
  EnetRs.Host.Steps — one step of the main loop, and every run.

  Main results:
    * `step_exec` — a step whose commands meet `P` and whose packets meet `Q`
      consists of changes that meet `C`.
    * `step_invariant` — an invariant that holds between packets: changes that
      are not part of sending are taken one by one, a packet as a whole.
    * `Reachable.invariant` — the rule for invariants of reachable states.
-/
import EnetRs.Host.Exec

namespace EnetRs

open MachineInt

namespace HostTask

variable {nowMs : U32} {C : Cond} {h h' : HostTask} {key : PeerKey}

/-! ## §1. Connecting and submitting. -/

theorem clientHandshake_length (h : HostTask) (slot : PeerKey) (addr : SocketAddr)
    (channelCount : U8) (userData nowMs : U32) (reply : ConnectReplySender) (connectId : U32) :
    (h.clientHandshake slot addr channelCount userData nowMs reply connectId).2.length = 48 := by
  show (encodeCommand ..).length = 48
  simp only [encodeCommand_length, connectBody, List.length_append, be16_length, be32_length,
    List.length_cons, List.length_nil]

theorem connect_exec (addr : SocketAddr) (channelCount : U8) (data : U32)
    (reply : ConnectReplySender) (connectId : U32)
    (hO : ∀ h l, l.Internal h → l.Plain → l.Calm → l.Tracked h → C h l)
    (hI : ∀ slot, C h (.install slot
      (h.clientHandshake slot addr channelCount data nowMs reply connectId).1))
    (hs : h.step nowMs (.connect addr channelCount data reply connectId) = some h') :
    Exec nowMs C h h' := by
  simp only [step, beginConnect] at hs
  cases hslot : h.allocSlot with
  | none =>
      simp only [hslot] at hs
      cases hs
      exact .refl
  | some slot =>
      simp only [hslot] at hs
      cases hs
      have hnew : IsNewEntry h slot nowMs
          (h.clientHandshake slot addr channelCount data nowMs reply connectId).1 :=
        .inl ⟨addr, channelCount, data, reply, connectId, rfl⟩
      have e : Exec nowMs C h _ := .single (.install slot _) ⟨hslot, hnew⟩ (hI slot)
      refine e.trans (emitByKey_exec _ fun p hp _ => hO _ _ ⟨p, hp, .single ?_⟩ trivial trivial
        ⟨p, hp, fun b hb => ?_⟩)
      · rw [clientHandshake_length]
        omega
      · -- the entry that was just installed keeps its CONNECT
        rw [Label.peer_apply_install hslot, if_pos rfl] at hp
        cases hp
        rw [List.mem_singleton.mp hb]
        exact ⟨_, _, Std.ExtTreeMap.getElem?_insert_self, rfl⟩

theorem noteSubmit_exec (pkt : Packet) (hC : C h (.op key (.submit pkt))) :
    Exec nowMs C h (h.noteSubmit key pkt) := by
  unfold noteSubmit
  cases hp : h.peer key with
  | none =>
      rw [updatePeer_of_none hp]
      exact .refl
  | some p =>
      rw [updatePeer_of_some hp]
      cases hacc : p.acceptsReliable pkt with
      | true => exact .op (.submit pkt) hp hacc hC rfl rfl
      | false =>
          simp only [Bool.false_eq_true, if_false, setPeer_self hp]
          exact .refl

/-! ## §2. The changes of a step. -/

/-- Every command and every packet that the step processes meets its condition,
in the state in which it is processed. -/
def StepMeets (P : HostTask → Option PeerKey → SocketAddr → Command → Prop)
    (Q : HostTask → PeerKey → Packet → Prop) (h : HostTask) : Timed → Prop
  | (nowMs, .datagram raw src) => DatagramMeets P h raw src nowMs
  | (_, .send key pkt) => Q (h.noteSubmit key pkt) key pkt
  | (nowMs, .tick) => ServiceMeets Q nowMs h (h.keysWhere fun _ => true)
  | _ => True

/-! The conditions are decided by running the step. -/

section Decide

variable {P : HostTask → Option PeerKey → SocketAddr → Command → Prop}
  {Q : HostTask → PeerKey → Packet → Prop}

instance decidableCommandsMeet {P : HostTask → Command → Prop} [∀ h cmd, Decidable (P h cmd)]
    (key : Option PeerKey) (sentTime : Option U16) (src : SocketAddr) (nowMs : U32) :
    (h : HostTask) → (cmds : List Command) →
      Decidable (CommandsMeet P key sentTime src nowMs h cmds)
  | _, [] => isTrue trivial
  | h, cmd :: cmds =>
      have := decidableCommandsMeet (P := P) key sentTime src nowMs
        (h.dispatch key sentTime cmd src nowMs) cmds
      inferInstanceAs (Decidable (P h cmd ∧ CommandsMeet P key sentTime src nowMs _ cmds))

instance [∀ h key src cmd, Decidable (P h key src cmd)] (h : HostTask) (raw : Bytes)
    (src : SocketAddr) (nowMs : U32) : Decidable (DatagramMeets P h raw src nowMs) :=
  match ha : h.acceptDatagram raw src with
  | none => isTrue (by simp [DatagramMeets, ha])
  | some a =>
      decidable_of_iff (CommandsMeet (fun h cmd => P h a.key src cmd) a.key a.sentTime src nowMs h
        a.cmds) (by simp [DatagramMeets, ha])

instance decidableSendsMeet [∀ h key pkt, Decidable (Q h key pkt)] (key : PeerKey) (nowMs : U32) :
    (h : HostTask) → (pkts : List Packet) → Decidable (SendsMeet Q key nowMs h pkts)
  | _, [] => isTrue trivial
  | h, pkt :: pkts =>
      match hs : h.sendPacket key pkt nowMs with
      | none => decidable_of_iff (Q h key pkt) (by simp [SendsMeet, hs])
      | some h' =>
          have := decidableSendsMeet key nowMs h' pkts
          decidable_of_iff (Q h key pkt ∧ SendsMeet Q key nowMs h' pkts) (by simp [SendsMeet, hs])

instance [∀ h key pkt, Decidable (Q h key pkt)] (h : HostTask) (key : PeerKey) (nowMs : U32) :
    Decidable (DrainMeets Q h key nowMs) :=
  match hp : h.peer key with
  | none => isTrue (by simp [DrainMeets, hp])
  | some p =>
      decidable_of_iff (SendsMeet Q key nowMs (h.setPeer key { p with pendingSend := [] })
        p.pendingSend) (by simp [DrainMeets, hp])

instance decidableServiceMeets [∀ h key pkt, Decidable (Q h key pkt)] (nowMs : U32) :
    (h : HostTask) → (keys : List PeerKey) → Decidable (ServiceMeets Q nowMs h keys)
  | _, [] => isTrue trivial
  | h, key :: keys =>
      have : Decidable (∀ p, h.peer key = some p →
          DrainMeets Q (h.serviceChecks key p nowMs).1 key nowMs) :=
        match hp : h.peer key with
        | none => isTrue (by simp)
        | some p =>
            decidable_of_iff (DrainMeets Q (h.serviceChecks key p nowMs).1 key nowMs) (by simp)
      match hs : h.serviceOne key nowMs with
      | none =>
          decidable_of_iff (∀ p, h.peer key = some p →
            DrainMeets Q (h.serviceChecks key p nowMs).1 key nowMs) (by simp [ServiceMeets, hs])
      | some h' =>
          have := decidableServiceMeets nowMs h' keys
          decidable_of_iff ((∀ p, h.peer key = some p →
            DrainMeets Q (h.serviceChecks key p nowMs).1 key nowMs) ∧ ServiceMeets Q nowMs h' keys)
            (by simp [ServiceMeets, hs])

instance [∀ h key src cmd, Decidable (P h key src cmd)] [∀ h key pkt, Decidable (Q h key pkt)]
    (h : HostTask) : (i : Timed) → Decidable (StepMeets P Q h i)
  | (nowMs, .datagram raw src) => inferInstanceAs (Decidable (DatagramMeets P h raw src nowMs))
  | (_, .send key pkt) => inferInstanceAs (Decidable (Q (h.noteSubmit key pkt) key pkt))
  | (nowMs, .tick) =>
      inferInstanceAs (Decidable (ServiceMeets Q nowMs h (h.keysWhere fun _ => true)))
  | (_, .disconnect _ _) | (_, .connect _ _ _ _ _) | (_, .appRecv _) | (_, .appDrop _)
  | (_, .appAccept) | (_, .appClose) => isTrue trivial

end Decide

/-- **One step.**  Whatever the input, the step is a sequence of changes; the
condition on them comes from the conditions on commands and packets. -/
theorem step_exec_of_app {P : HostTask → Option PeerKey → SocketAddr → Command → Prop}
    {Q : HostTask → PeerKey → Packet → Prop} (i : Input) (hm : StepMeets P Q h (nowMs, i))
    (hP : ∀ h key src cmd h' l, P h key src cmd → cmd.Makes h key src nowMs h' l → C h' l)
    (hQ : ∀ h key pkt h' l, Q h key pkt → SendMakes h key pkt h' l → C h' l)
    (hO : ∀ h l, l.Internal h → (i ≠ .tick → l.Calm) → C h l)
    (hH : ∀ h k o, o.Handles → C h (.op k o))
    (hI : ∀ addr channelCount data reply connectId,
      i = .connect addr channelCount data reply connectId → ∀ slot, C h (.install slot
        (h.clientHandshake slot addr channelCount data nowMs reply connectId).1))
    (hrecv : ∀ key, i = .appRecv key → C h (.op key .appRecv))
    (hdrop : ∀ key, i = .appDrop key → C h (.op key .appDrop))
    (hhost : i = .appAccept ∨ i = .appClose → C h .appAccept ∧ C h .appClose)
    (hs : h.step nowMs i = some h') : Exec nowMs C h h' := by
  cases i with
  | datagram raw src =>
      cases hs
      exact onDatagram_exec raw src hm (fun a _ h cmd h' l => hP h a.key src cmd h' l)
        fun _ _ _ _ _ _ hb => hO _ _ hb fun _ => trivial
  | send key pkt =>
      have e : Exec nowMs C h (h.noteSubmit key pkt) := noteSubmit_exec pkt (hH _ _ _ trivial)
      exact e.trans ((sendPacket_exec pkt hs).mono fun h' l hl => hQ _ key pkt h' l hm hl)
  | disconnect key data =>
      cases hs
      exact sendDisconnect_exec data (fun h o ho hcalm _ => hO h _ ho fun _ => hcalm)
        (hH h _ _ trivial) (hH h _ _ trivial)
  | connect addr channelCount data reply connectId =>
      exact connect_exec addr channelCount data reply connectId
        (fun h l ho _ hcalm _ => hO h l ho fun _ => hcalm)
        (hI _ _ _ _ _ rfl) hs
  | tick => exact serviceAll_exec hQ (fun h l ho => hO h l ho fun hne => absurd rfl hne) hH hm hs
  | appRecv key =>
      cases hs
      exact updatePeer_exec .appRecv (hrecv key rfl) (fun _ _ => trivial) (fun _ => rfl) rfl
  | appDrop key =>
      cases hs
      exact updatePeer_exec .appDrop (hdrop key rfl) (fun _ _ => trivial) (fun _ => rfl) rfl
  | appAccept =>
      cases hs
      exact .single .appAccept trivial (hhost (.inl rfl)).1
  | appClose =>
      cases hs
      exact .single .appClose trivial (hhost (.inr rfl)).2

/-- The same when the condition holds of everything the application does. -/
theorem step_exec {P : HostTask → Option PeerKey → SocketAddr → Command → Prop}
    {Q : HostTask → PeerKey → Packet → Prop} (i : Input) (hm : StepMeets P Q h (nowMs, i))
    (hP : ∀ h key src cmd h' l, P h key src cmd → cmd.Makes h key src nowMs h' l → C h' l)
    (hQ : ∀ h key pkt h' l, Q h key pkt → SendMakes h key pkt h' l → C h' l)
    (hO : ∀ h l, l.Other → C h l) (hH : ∀ h k o, o.Handles → C h (.op k o))
    (hI : ∀ addr channelCount data reply connectId,
      i = .connect addr channelCount data reply connectId → ∀ slot, C h (.install slot
        (h.clientHandshake slot addr channelCount data nowMs reply connectId).1))
    (hs : h.step nowMs i = some h') : Exec nowMs C h h' :=
  step_exec_of_app i hm hP hQ (fun h l hl _ => hO h l hl.other) hH hI (fun _ _ => hO _ _ trivial)
    (fun _ _ => hO _ _ trivial) (fun _ => ⟨hO _ _ trivial, hO _ _ trivial⟩) hs

/-! The trivial conditions. -/

theorem sendsMeet_true (key : PeerKey) (nowMs : U32) (pkts : List Packet) (h : HostTask) :
    SendsMeet (fun _ _ _ => True) key nowMs h pkts := by
  induction pkts generalizing h with
  | nil => trivial
  | cons pkt pkts ih => exact ⟨trivial, fun h' _ => ih h'⟩

theorem serviceMeets_true (nowMs : U32) (keys : List PeerKey) (h : HostTask) :
    ServiceMeets (fun _ _ _ => True) nowMs h keys := by
  induction keys generalizing h with
  | nil => trivial
  | cons key keys ih =>
      exact ⟨fun p _ q _ => sendsMeet_true key nowMs _ _, fun h' _ => ih h'⟩

/-- The service of one slot is a sequence of changes. -/
theorem serviceOne_exec_true (hs : h.serviceOne key nowMs = some h') :
    Exec nowMs (fun _ _ => True) h h' :=
  serviceOne_exec (Q := fun _ _ _ => True) (fun _ _ _ _ _ _ _ => trivial)
    (fun _ _ _ _ => trivial) (fun _ _ _ _ => trivial)
    (fun _ _ _ _ => sendsMeet_true key nowMs _ _) hs

theorem commandsMeet_of_forall {P : Command → Prop} (key : Option PeerKey)
    (sentTime : Option U16) (src : SocketAddr) (nowMs : U32) (cmds : List Command) (h : HostTask)
    (hall : ∀ cmd ∈ cmds, P cmd) :
    CommandsMeet (fun _ cmd => P cmd) key sentTime src nowMs h cmds := by
  induction cmds generalizing h with
  | nil => trivial
  | cons cmd cmds ih =>
      exact ⟨hall cmd List.mem_cons_self, ih _ fun c hc => hall c (List.mem_cons_of_mem _ hc)⟩

theorem commandsMeet_true (key : Option PeerKey) (sentTime : Option U16) (src : SocketAddr)
    (nowMs : U32) (cmds : List Command) (h : HostTask) :
    CommandsMeet (fun _ _ => True) key sentTime src nowMs h cmds :=
  commandsMeet_of_forall key sentTime src nowMs cmds h fun _ _ => trivial

theorem onCommands_append (key : Option PeerKey) (sentTime : Option U16) (src : SocketAddr)
    (nowMs : U32) (cmds cmds' : List Command) (h : HostTask) (acks : List Bytes) :
    onCommands key sentTime src nowMs h (cmds ++ cmds') acks
      = onCommands key sentTime src nowMs (onCommands key sentTime src nowMs h cmds acks).1 cmds'
          (onCommands key sentTime src nowMs h cmds acks).2 := by
  induction cmds generalizing h acks with
  | nil => rfl
  | cons cmd cmds ih => exact ih _ _

theorem onCommands_exec_true (key : Option PeerKey) (sentTime : Option U16) (src : SocketAddr)
    (nowMs : U32) (cmds : List Command) (h : HostTask) (acks : List Bytes) :
    Exec nowMs (fun _ _ => True) h (onCommands key sentTime src nowMs h cmds acks).1 :=
  onCommands_exec (P := fun _ _ => True) key sentTime src (fun _ _ _ _ _ _ => trivial) cmds h acks
    (commandsMeet_true key sentTime src nowMs cmds h)

theorem stepMeets_true (h : HostTask) (i : Timed) :
    StepMeets (fun _ _ _ _ => True) (fun _ _ _ => True) h i := by
  obtain ⟨nowMs, i⟩ := i
  cases i with
  | datagram raw src => exact fun a _ => commandsMeet_true _ _ _ _ _ _
  | tick => exact serviceMeets_true _ _ _
  | _ => trivial

/-- A step is a sequence of changes. -/
theorem step_exec_true {i : Timed} (hs : h.timedStep i = some h') :
    Exec i.1 (fun _ _ => True) h h' := by
  obtain ⟨nowMs, i⟩ := i
  exact step_exec i (stepMeets_true h (nowMs, i)) (fun _ _ _ _ _ _ _ _ => trivial)
    (fun _ _ _ _ _ _ _ => trivial) (fun _ _ _ => trivial) (fun _ _ _ _ => trivial)
    (fun _ _ _ _ _ _ _ => trivial) hs

/-! ## §3. Invariants. -/

/-- The service of the slots, each drain taken as a whole. -/
theorem serviceEach_invariant {Inv : HostTask → Prop}
    (hlabel : ∀ (h : HostTask) (l : Label), Inv h → l.Guard nowMs h → l.Internal h →
      Inv (l.apply nowMs h))
    (hdrain : ∀ (h h' : HostTask) (key : PeerKey), Inv h → h.drainPending key nowMs = some h' → Inv h') :
    ∀ (keys : List PeerKey) (h h' : HostTask), Inv h → serviceEach nowMs h keys = some h' →
      Inv h' := by
  intro keys
  induction keys with
  | nil =>
      intro h h' hi hs
      cases hs
      exact hi
  | cons key keys ih =>
      intro h h' hi hs
      obtain ⟨h₁, hs₁, hs⟩ := Option.bind_eq_some_iff.mp hs
      refine ih h₁ h' ?_ hs
      cases hp : h.peer key with
      | none =>
          simp only [serviceOne, hp] at hs₁
          cases hs₁
          exact hi
      | some p =>
          simp only [serviceOne, hp] at hs₁
          have hi₁ : Inv (h.serviceChecks key p nowMs).1 :=
            (serviceChecks_exec hp (fun _ _ ho _ _ => ho)
              fun _ _ => ⟨trivial, trivial⟩).invariant Inv hlabel hi
          split at hs₁
          · exact hdrain _ _ _ hi₁ hs₁
          · cases hs₁
            exact hi₁

/-- A change that neither a reliable packet nor a disconnect request is behind. -/
def Quiet : Label → Prop
  | .op _ o =>
      match o with
      | .submit _ | .clearPending | .queue _ | .numberWhole _ | .numberFragments _ _
      | .deferDisconnect _ | .beginDisconnect false => False
      | _ => True
  | _ => True

/-- How `send_disconnect` answers a request. -/
def Requested : PeerOp → Prop
  | .deferDisconnect _ | .beginDisconnect false => True
  | _ => False

theorem Quiet.of_internal {l : Label} (hl : l.Internal h) : Quiet l := by
  cases l with
  | op k o =>
      cases o with
      | beginDisconnect deferred => cases deferred <;> trivial
      | _ => trivial
  | _ => trivial

theorem Quiet.of_makes {cmd : Command} {key : Option PeerKey} {src : SocketAddr} {l : Label}
    (hl : cmd.Makes h key src nowMs h' l) : Quiet l := by
  cases l with
  | op k o =>
      cases o with
      | submit | clearPending | queue | numberWhole | numberFragments | deferDisconnect
      | beginDisconnect => exact hl.2.2.elim
      | _ => trivial
  | _ => trivial

/-- A packet that is not reliable is sent by quiet changes. -/
theorem Quiet.of_send {pkt : Packet} {h₁ : HostTask} {l : Label} (hmode : pkt.mode ≠ .reliable)
    (hg : l.Guard nowMs h₁) (hl : SendMakes h key pkt h₁ l) : Quiet l := by
  cases l with
  | op k o =>
      obtain ⟨p, -, hgo⟩ := hg
      cases o with
      | queue pkt' | numberWhole pkt' | numberFragments pkt' =>
          obtain ⟨c, hsend, -⟩ := hgo
          obtain ⟨-, -, rfl⟩ := hl
          exact hmode hsend.2.1
      | submit | clearPending | deferDisconnect | beginDisconnect => exact hl.2.2.elim
      | _ => trivial
  | _ => trivial

theorem noteSubmit_of_mode {pkt : Packet} (hmode : pkt.mode ≠ .reliable) :
    h.noteSubmit key pkt = h := by
  have hno : ∀ p : PeerEntry, p.acceptsReliable pkt = false := by
    intro p
    simp [PeerEntry.acceptsReliable, hmode]
  unfold noteSubmit
  cases hp : h.peer key with
  | none => exact updatePeer_of_none hp
  | some p => rw [updatePeer_of_some hp, hno, if_neg Bool.false_ne_true, setPeer_self hp]

/-- **One step, packet by packet.**  A property that every quiet change keeps,
that a disconnect request keeps (`D` is known of its slot), that submitting one
reliable packet keeps (`Q` is known of it), and that the drain of one slot
keeps, is kept by the step; in between it may fail. -/
theorem step_invariant {I : HostTask → Prop} {Q : HostTask → PeerKey → Packet → Prop}
    {D : HostTask → PeerKey → Prop}
    (hlabel : ∀ (h : HostTask) (l : Label), I h → l.Guard nowMs h → Quiet l →
      I (l.apply nowMs h))
    (hdisc : ∀ (h : HostTask) (key : PeerKey) (o : PeerOp), I h → D h key →
      (Label.op key o).Guard nowMs h → Requested o → I ((Label.op key o).apply nowMs h))
    (hsend : ∀ (h h' : HostTask) (key : PeerKey) (pkt : Packet), I h → Q h key pkt →
      pkt.mode = .reliable → (h.noteSubmit key pkt).sendPacket key pkt nowMs = some h' → I h')
    (hdrain : ∀ (h h' : HostTask) (key : PeerKey), I h →
      h.drainPending key nowMs = some h' → I h')
    (i : Input) (hQ : ∀ key pkt, i = .send key pkt → Q h key pkt)
    (hD : ∀ key data, i = .disconnect key data → D h key) (hi : I h)
    (hs : h.step nowMs i = some h') : I h' := by
  have hquiet : ∀ {h h' : HostTask}, Exec nowMs (fun _ l => Quiet l) h h' → I h → I h' :=
    fun e => e.invariant I hlabel
  cases i with
  | datagram raw src =>
      cases hs
      refine hquiet (onDatagram_exec (P := fun _ _ _ _ => True) raw src ?_ ?_ ?_) hi
      · exact fun a _ => commandsMeet_true _ _ _ _ _ _
      · exact fun a _ h cmd h' l _ hl => Quiet.of_makes hl
      · exact fun _ _ _ _ _ _ _ => trivial
  | send key pkt =>
      by_cases hmode : pkt.mode = .reliable
      · exact hsend h h' key pkt hi (hQ key pkt rfl) hmode hs
      · simp only [step, noteSubmit_of_mode hmode] at hs
        exact (sendPacket_exec pkt hs).invariant I
          (fun h₁ l hi₁ hg hl => hlabel h₁ l hi₁ hg (Quiet.of_send hmode hg hl)) hi
  | disconnect key data =>
      cases hs
      have e : Exec nowMs (fun h₁ l => Quiet l ∨ h₁ = h ∧ ∃ o, l = .op key o ∧ Requested o) h
          (h.sendDisconnect key data nowMs) :=
        sendDisconnect_exec data (fun _ _ ho _ _ => .inl (Quiet.of_internal ho))
          (.inr ⟨rfl, _, rfl, trivial⟩) (.inr ⟨rfl, _, rfl, trivial⟩)
      refine e.invariant I (fun h₁ l hi₁ hg hl => ?_) hi
      rcases hl with hl | ⟨rfl, o, rfl, ho⟩
      · exact hlabel h₁ l hi₁ hg hl
      · exact hdisc h₁ key o hi₁ (hD key data rfl) hg ho
  | connect addr channelCount data reply connectId =>
      exact hquiet (connect_exec addr channelCount data reply connectId
        (fun _ _ ho _ _ _ => Quiet.of_internal ho) (fun _ => trivial) hs) hi
  | tick =>
      obtain ⟨h₁, hs₁, rfl⟩ := Option.map_eq_some_iff.mp hs
      refine hquiet (bandwidthThrottle_exec fun _ _ ho _ _ => Quiet.of_internal ho) ?_
      exact serviceEach_invariant (fun h l hi hg hl => hlabel h l hi hg (Quiet.of_internal hl)) hdrain
        _ _ _ hi hs₁
  | appRecv key =>
      cases hs
      exact hquiet (updatePeer_exec .appRecv trivial (fun _ _ => trivial) (fun _ => rfl) rfl) hi
  | appDrop key =>
      cases hs
      exact hquiet (updatePeer_exec .appDrop trivial (fun _ _ => trivial) (fun _ => rfl) rfl) hi
  | appAccept =>
      cases hs
      exact hlabel h .appAccept hi trivial trivial
  | appClose =>
      cases hs
      exact hlabel h .appClose hi trivial trivial

/-! An ACK and a disconnect pass through entries that no step leaves behind;
the rule below takes them as a whole. -/

theorem plain_of_makes {cmd : Command} {key : Option PeerKey} {src : SocketAddr} {l : Label}
    (hty : cmd.header.commandType ≠ cmdAcknowledge) (hl : cmd.Makes h key src nowMs h' l) :
    l.Plain := by
  cases l with
  | op k o =>
      cases o with
      | ack ch a => exact hty hl.2.2.1
      | deferDisconnect | beginDisconnect => exact hl.2.2.elim
      | _ => trivial
  | _ => trivial

theorem plain_of_send {pkt : Packet} {h₁ : HostTask} {l : Label} (hl : SendMakes h key pkt h₁ l) :
    l.Plain := by
  cases l with
  | op k o =>
      cases o with
      | ack | deferDisconnect | beginDisconnect => exact hl.2.2.elim
      | _ => trivial
  | _ => trivial

section Plain

variable {Inv : HostTask → Prop}
  (hlabel : ∀ (h : HostTask) (l : Label), Inv h → l.Guard nowMs h → l.Plain →
    Inv (l.apply nowMs h))
  (hack : ∀ (h : HostTask) k ch a, Inv h → Inv (h.onAck k ch a nowMs))
  (hfire : ∀ (h : HostTask) k p data, Inv h → h.peer k = some p →
    p.state = .disconnectLater data → p.outgoingReliable.isEmpty = true →
    Inv (h.fireDisconnect k data nowMs))

include hlabel hack in
/-- One command, an ACK as a whole. -/
theorem dispatch_invariant_of_plain (key : Option PeerKey) (sentTime : Option U16) (cmd : Command)
    (src : SocketAddr) (hi : Inv h) : Inv (h.dispatch key sentTime cmd src nowMs) := by
  by_cases hty : cmd.header.commandType = cmdAcknowledge
  · have hconnect : cmdAcknowledge ≠ cmdConnect := by decide
    have hverify : cmdAcknowledge ≠ cmdVerifyConnect := by decide
    simp only [dispatch, hty, hconnect, hverify, if_false, if_true]
    split
    · exact hack _ _ _ _ hi
    · exact hi
  · exact (dispatch_exec nowMs h key sentTime cmd src).invariant Inv
      (fun h₁ l hi₁ hg hl => hlabel h₁ l hi₁ hg (plain_of_makes hty hl)) hi

include hlabel hack in
theorem onCommands_invariant_of_plain (key : Option PeerKey) (sentTime : Option U16)
    (src : SocketAddr) :
    ∀ (cmds : List Command) (h : HostTask) (acks : List Bytes), Inv h →
      Inv (onCommands key sentTime src nowMs h cmds acks).1 := by
  intro cmds
  induction cmds with
  | nil => exact fun h acks hi => hi
  | cons cmd cmds ih =>
      exact fun h acks hi => ih _ _ (dispatch_invariant_of_plain hlabel hack key sentTime cmd src hi)

include hlabel hfire in
/-- The service of the slots, a deferred disconnect as a whole. -/
theorem serviceEach_invariant_of_plain :
    ∀ (keys : List PeerKey) (h h' : HostTask), Inv h → serviceEach nowMs h keys = some h' →
      Inv h' := by
  have hplain : ∀ {h h' : HostTask}, Exec nowMs (fun _ l => l.Plain) h h' → Inv h → Inv h' :=
    fun e => e.invariant Inv hlabel
  have hchecks : ∀ (h : HostTask) key p, h.peer key = some p → Inv h →
      Inv (h.serviceChecks key p nowMs).1 := by
    intro h key p hp hi
    unfold serviceChecks
    have e : Exec nowMs (fun _ l => l.Plain) h _ := .op .retransmit hp trivial trivial rfl rfl
    simp only [PeerOp.apply] at e
    have hp₁ := peer_setPeer_self (q := { p with
      outgoingReliable := (retransmitLoop nowMs p.outgoingReliable.toList p.outgoingReliable).2.1 })
      (lt_of_peer_eq_some hp)
    have hr := retransmitLoop_outstanding nowMs p
    generalize retransmitLoop nowMs p.outgoingReliable.toList p.outgoingReliable = r at *
    obtain ⟨timedOut, outgoing, retransmits⟩ := r
    simp only at e hp₁ hr ⊢
    split
    · exact hplain (e.trans (notify_remove_exec none trivial fun _ _ => trivial)) hi
    · obtain ⟨h₁, t, e₁, hp', heq⟩ := serviceSends_split (C := fun _ l => l.Plain) nowMs hp₁
        hr fun _ _ _ hpl _ _ => hpl
      simp only [heq]
      have hi₁ : Inv h₁ := hplain (e.trans e₁) hi
      split
      · next data hlater =>
        obtain ⟨hst, hempty⟩ := disconnectLaterData_eq_some.mp hlater
        exact hfire h₁ key _ data hi₁ (hp' (by simp [hlater])) hst hempty
      · exact hi₁
  intro keys
  induction keys with
  | nil =>
      intro h h' hi hs
      cases hs
      exact hi
  | cons key keys ih =>
      intro h h' hi hs
      obtain ⟨h₁, hs₁, hs⟩ := Option.bind_eq_some_iff.mp hs
      refine ih h₁ h' ?_ hs
      cases hp : h.peer key with
      | none =>
          simp only [serviceOne, hp] at hs₁
          cases hs₁
          exact hi
      | some p =>
          simp only [serviceOne, hp] at hs₁
          have hi₁ := hchecks h key p hp hi
          split at hs₁
          · refine hplain (drainPending_exec (Q := fun _ _ _ => True)
              (fun _ _ _ _ _ _ hl => plain_of_send hl) (fun _ _ => trivial)
              (fun q _ => sendsMeet_true key nowMs _ _) hs₁) hi₁
          · cases hs₁
            exact hi₁

include hlabel hack hfire in
/-- **One step, ACKs and disconnects as a whole.**  What `send_disconnect` does is
left to `hrequest`. -/
theorem step_invariant_of_plain (i : Input)
    (hrequest : ∀ key data, i = .disconnect key data → Inv (h.sendDisconnect key data nowMs))
    (hi : Inv h) (hs : h.step nowMs i = some h') : Inv h' := by
  have hplain : ∀ {h h' : HostTask}, Exec nowMs (fun _ l => l.Plain) h h' → Inv h → Inv h' :=
    fun e => e.invariant Inv hlabel
  cases i with
  | datagram raw src =>
      cases hs
      refine onDatagram_invariant (P := fun _ _ _ _ => True) Inv
        (fun a _ => commandsMeet_true _ _ _ _ _ _) ?_ ?_ hi
      · exact fun h key sentTime cmd hi _ =>
          dispatch_invariant_of_plain hlabel hack key sentTime cmd src hi
      · exact fun h k cmds hi hg => hlabel h _ hi hg trivial
  | send key pkt =>
      have e : Exec nowMs (fun _ l => l.Plain) h (h.noteSubmit key pkt) :=
        noteSubmit_exec pkt trivial
      exact hplain (e.trans ((sendPacket_exec pkt hs).mono fun _ _ hl => plain_of_send hl)) hi
  | disconnect key data =>
      cases hs
      exact hrequest key data rfl
  | connect addr channelCount data reply connectId =>
      exact hplain (connect_exec addr channelCount data reply connectId
        (fun _ _ _ hpl _ _ => hpl) (fun _ => trivial) hs) hi
  | tick =>
      obtain ⟨h₁, hs₁, rfl⟩ := Option.map_eq_some_iff.mp hs
      refine hplain (bandwidthThrottle_exec fun _ _ _ hpl _ => hpl) ?_
      exact serviceEach_invariant_of_plain hlabel hfire _ _ _ hi hs₁
  | appRecv key =>
      cases hs
      exact hplain (updatePeer_exec .appRecv trivial (fun _ _ => trivial) (fun _ => rfl) rfl) hi
  | appDrop key =>
      cases hs
      exact hplain (updatePeer_exec .appDrop trivial (fun _ _ => trivial) (fun _ => rfl) rfl) hi
  | appAccept =>
      cases hs
      exact hlabel h .appAccept hi trivial trivial
  | appClose =>
      cases hs
      exact hlabel h .appClose hi trivial trivial

end Plain

/-- **Invariants of reachable states**: true of a new host, kept by every change. -/
theorem Reachable.invariant (Inv : HostTask → Prop)
    (hnew : ∀ acceptCapacity maxPeers useChecksum incomingBandwidth outgoingBandwidth,
      Inv (HostTask.new acceptCapacity maxPeers useChecksum incomingBandwidth outgoingBandwidth))
    (hlabel : ∀ (nowMs : U32) (h : HostTask) (l : Label), Inv h → l.Guard nowMs h →
      Inv (l.apply nowMs h)) (hr : Reachable h) :
    Inv h := by
  obtain ⟨cap, maxPeers, ck, ib, ob, is, hrun⟩ := hr
  refine Transition.run_invariant (fun s i s' hi hs => ?_) is _ h (hnew cap maxPeers ck ib ob) hrun
  exact (step_exec_true hs).invariant Inv (fun h l hi hg _ => hlabel i.1 h l hi hg) hi

/-- One more step. -/
theorem Reachable.step {i : Timed} (hr : Reachable h) (hs : h.timedStep i = some h') :
    Reachable h' := by
  obtain ⟨cap, maxPeers, ck, ib, ob, is, hrun⟩ := hr
  refine ⟨cap, maxPeers, ck, ib, ob, is ++ [i], Transition.run_append.mpr ⟨h, hrun, ?_⟩⟩
  exact Transition.run_cons_eq_some.mpr ⟨h', hs, rfl⟩

end HostTask

end EnetRs
