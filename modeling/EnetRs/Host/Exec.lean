/-
  EnetRs.Host.Exec — every function of the task is a sequence of changes.

  One lemma per function of `src/task.rs`: its result is reached by changes of
  `EnetRs.Host.Label`, and the lemma says which ones it can make and in which
  state (`Command.Makes` for an incoming command, `SendMakes` for a packet,
  `Label.Internal` for the rest).  No later proof unfolds a handler to find out
  what it may touch.

  Main results:
    * `dispatch_handled` — the handlers `on_command` calls, case by case.
    * `dispatch_exec`, `onDatagram_exec` — a command, a datagram.
    * `sendPacket_exec`, `sendDisconnect_exec` — a message from the user.
    * `serviceChecks_exec`, `serviceAll_exec` — the tick.
-/
import EnetRs.Host.Outstanding
import EnetRs.Protocol.RoundTrip

namespace EnetRs

open MachineInt

/-! ## §1. What each function may do. -/

/-- What goes out apart from the packets of the user: every command is
outstanding, or no longer than the answer to a CONNECT; several of them go
together only if they fit. -/
structure PeerEntry.Batch (useChecksum : Bool) (p : PeerEntry) (cmds : List Bytes) : Prop where
  each : ∀ b ∈ cmds, b.length ≤ 52
    ∨ ∃ (key : U8 × U16) (r : OutstandingReliable),
      p.outgoingReliable[key]? = some r ∧ r.packetBytes = b
  size : cmds.length = 1 ∨ cmds.flatten.length ≤ 52
    ∨ HostTask.hdrOverhead useChecksum + cmds.flatten.length ≤ p.mtu.toNat

/-- The entry in slot `k` sends such a batch. -/
def HostTask.Emits (h : HostTask) (k : PeerKey) (cmds : List Bytes) : Prop :=
  ∃ p, h.peer k = some p ∧ p.Batch h.useChecksum cmds

/-- What goes out in `h₁` for a packet that `send_packet` gets in `h`: an
unsequenced packet whole, the others cut to the mtu. -/
def HostTask.EmitsPacket (h : HostTask) (key : PeerKey) (pkt : Packet) (h₁ : HostTask)
    (cmds : List Bytes) : Prop :=
  ∃ p q, h.peer key = some p ∧ p.state = .connected ∧ h₁.peer key = some q ∧ q.mtu = p.mtu
    ∧ h₁.useChecksum = h.useChecksum
    ∧ if pkt.mode = .unsequenced then cmds.flatten.length = 8 + pkt.data.length
      else mtuMin ≤ p.mtu → HostTask.hdrOverhead h.useChecksum + cmds.flatten.length ≤ p.mtu.toNat

namespace Command

/-- The operation a command performs on the entry its datagram resolved to. -/
def Receives (cmd : Command) : PeerOp → Prop
  | .recvPing => cmd.header.commandType = cmdPing
  | .recvReliable ch seq data =>
      cmd.header.commandType = cmdSendReliable ∧ cmd.body = .sendReliable data
        ∧ ch = cmd.header.channelId ∧ seq = cmd.header.reliableSeq
  | .recvUnreliable ch rseq useq data =>
      cmd.header.commandType = cmdSendUnreliable ∧ cmd.body = .sendUnreliable useq data
        ∧ ch = cmd.header.channelId ∧ rseq = cmd.header.reliableSeq
  | .recvFragment ch sf true =>
      cmd.header.commandType = cmdSendFragment ∧ cmd.body = .sendFragment sf
        ∧ ch = cmd.header.channelId
  | .recvFragment ch sf false =>
      cmd.header.commandType = cmdSendUnreliableFragment ∧ cmd.body = .sendUnreliableFragment sf
        ∧ ch = cmd.header.channelId
  | .recvUnsequenced group data =>
      cmd.header.commandType = cmdSendUnsequenced ∧ cmd.body = .sendUnsequenced group data
  | .recvBandwidthLimit bl =>
      cmd.header.commandType = cmdBandwidthLimit ∧ cmd.body = .bandwidthLimit bl
  | .recvThrottleConfigure tc =>
      cmd.header.commandType = cmdThrottleConfigure ∧ cmd.body = .throttleConfigure tc
  | .ack ch a =>
      cmd.header.commandType = cmdAcknowledge ∧ cmd.body = .acknowledge a
        ∧ ch = cmd.header.channelId
  | .verify _ vc hdr =>
      cmd.header.commandType = cmdVerifyConnect ∧ cmd.body = .verifyConnect vc ∧ hdr = cmd.header
  | _ => False

/-- The command is a CONNECT with body `c`. -/
def Connects (cmd : Command) (c : ConnectCmd) : Prop :=
  cmd.header.commandType = cmdConnect ∧ cmd.body = .connect c

/-- The changes `on_command` can make for `cmd` when it starts in state `h`;
`h'` is the state in which the change is made. -/
def Makes (cmd : Command) (h : HostTask) (key : Option PeerKey) (src : SocketAddr) (nowMs : U32)
    (h' : HostTask) : Label → Prop
  | .op k (.emit cmds) => (key = some k ∨ h'.addrMap src = some k) ∧ h'.Emits k cmds
  | .op k (.notify _) => key = some k ∨ h'.addrMap src = some k
  | .op k (.accept _) | .op k .establish => key = some k
  | .op k (.take ch seq) =>
      key = some k ∧ ch = cmd.header.channelId ∧ seq = cmd.header.reliableSeq
  | .op k o => key = some k ∧ h' = h ∧ cmd.Receives o
  | .remove k => key = some k ∨ h'.addrMap src = some k
  | .install slot entry =>
      ∃ c, cmd.Connects c ∧ h' = h.evictAddr src
        ∧ entry = (h'.serverHandshake slot c cmd.header src nowMs).1
  | .raw _ addr => addr = src
  | _ => False

end Command

/-- The operation `send_packet` performs for `pkt` on the entry. -/
def PeerOp.Sends (pkt : Packet) : PeerOp → Prop
  | .queue pkt' | .numberWhole pkt' | .numberFragments pkt' _ => pkt' = pkt
  | .nextUnreliable ch _ | .nextUnsequenced ch _ => ch = pkt.channel ∧ pkt.mode ≠ .reliable
  | _ => False

/-- The changes `send_packet` can make. -/
def SendMakes (h : HostTask) (key : PeerKey) (pkt : Packet) (h' : HostTask) : Label → Prop
  | .op k (.emit cmds) => k = key ∧ h.EmitsPacket key pkt h' cmds
  | .op k o => k = key ∧ h' = h ∧ o.Sends pkt
  | _ => False

/-- Beside `SendMakes`: which counters a packet of this mode moves. -/
def PeerOp.OfMode (mode : SendMode) : PeerOp → Prop
  | .nextUnreliable _ _ => mode = .unreliable
  | .nextUnsequenced _ _ => mode = .unsequenced
  | _ => True

/-- The changes of the tick in state `h`, the packets apart. -/
def Label.Internal (h : HostTask) : Label → Prop
  | .op k o =>
      match o with
      | .emit cmds => h.Emits k cmds
      | .notify _ | .beginDisconnect true | .connectionCmd _ _ | .retransmit | .setWindow _ => True
      | _ => False
  | .install _ _ | .raw _ _ | .appAccept | .appClose => False
  | _ => True

/-- The changes of the tick, the packets apart, and of the application. -/
def Label.Other : Label → Prop
  | .op _ o =>
      match o with
      | .emit _ | .notify _ | .beginDisconnect true | .connectionCmd _ _ | .retransmit
      | .setWindow _ | .appRecv | .appDrop => True
      | _ => False
  | .install _ _ | .raw _ _ => False
  | _ => True

theorem Label.Internal.other {h : HostTask} {l : Label} (hl : l.Internal h) : l.Other := by
  cases l with
  | op k o =>
      cases o with
      | beginDisconnect deferred => cases deferred <;> trivial
      | emit | notify | connectionCmd | retransmit | setWindow => trivial
      | _ => exact hl.elim
  | install | raw | appAccept | appClose => exact hl.elim
  | _ => trivial

/-- What the user's messages lead to, the packets themselves apart: a
submission is recorded, `pending_send` is emptied before its packets are sent
again, a disconnect is requested. -/
def PeerOp.Handles : PeerOp → Prop
  | .submit _ | .clearPending | .deferDisconnect _ | .beginDisconnect false => True
  | _ => False

/-- The changes that are neither part of a disconnect nor of an ACK: those two
pass through entries that no step leaves behind. -/
def Label.Plain : Label → Prop
  | .op _ (.ack _ _) | .op _ (.deferDisconnect _) | .op _ (.beginDisconnect _) => False
  | _ => True

/-- The changes that are no part of `bandwidth_throttle`. -/
def Label.Calm : Label → Prop
  | .epoch | .op _ (.setWindow _) => False
  | .op _ (.connectionCmd cmdType _) => cmdType ≠ cmdBandwidthLimit
  | _ => True

/-- The bodies that go out on the connection channel once it is established. -/
inductive CommandBody.Control : CommandBody → Prop
  | ping : Control .ping
  | disconnect (data : U32) : Control (.disconnect data)
  | bandwidthLimit (c : BandwidthLimitCmd) : Control (.bandwidthLimit c)

/-- Each of the commands is outstanding. -/
def HostTask.Outstanding (p : PeerEntry) (cmds : List Bytes) : Prop :=
  ∀ b ∈ cmds, ∃ (key : U8 × U16) (r : OutstandingReliable),
    p.outgoingReliable[key]? = some r ∧ r.packetBytes = b

/-- The changes that send what is outstanding and create control commands; no entry is
removed, and the application is not told of a removal. -/
def Label.Tracked (h : HostTask) : Label → Prop
  | .op k (.emit cmds) => ∃ p, h.peer k = some p ∧ HostTask.Outstanding p cmds
  | .op _ (.connectionCmd cmdType body) =>
      ∃ b : CommandBody, b.Control ∧ b.commandType = cmdType ∧ Command.writeBody b = body
  | .op _ (.notify _) | .remove _ => False
  | _ => True

/-! ## §2. Emission. -/

theorem encodeCommand_length (cmdType flags ch : U8) (seq : U16) (body : Bytes) :
    (encodeCommand cmdType flags ch seq body).length = 4 + body.length := by
  simp only [encodeCommand, List.length_append, be16_length, List.length_cons, List.length_nil]

/-- One short command is a batch: PING, DISCONNECT, BANDWIDTH_LIMIT, an ACK, the
answer to a CONNECT all have at most 52 bytes. -/
theorem PeerEntry.Batch.single {useChecksum : Bool} {p : PeerEntry} {b : Bytes}
    (hb : b.length ≤ 52) : p.Batch useChecksum [b] := by
  refine ⟨fun x hx => ?_, .inl rfl⟩
  rw [List.mem_singleton.mp hx]
  exact .inl hb

namespace HostTask

variable {nowMs : U32} {C : Cond} {h h' : HostTask} {key : PeerKey}

theorem hdrOverhead_le (useChecksum : Bool) : hdrOverhead useChecksum ≤ 8 := by
  cases useChecksum <;> decide

theorem ack_length (ch : U8) (seq sentTime : U16) : (ack ch seq sentTime).length = 8 := by
  simp only [ack, encodeCommand_length, List.length_append, be16_length]

/-- `emit_by_key` is one change, or none: an empty batch and an empty slot send
nothing, so the condition is asked for only where a datagram goes out. -/
theorem emitByKey_exec (cmds : List Bytes)
    (hC : ∀ p, h.peer key = some p → cmds ≠ [] → C h (.op key (.emit cmds))) :
    Exec nowMs C h (h.emitByKey key cmds nowMs) := by
  by_cases hc : cmds = []
  · subst hc
    exact .refl
  cases hp : h.peer key with
  | none =>
      rw [emitByKey_of_none hp]
      exact .refl
  | some p =>
      rw [emitByKey_of_some hp hc]
      have e : Exec nowMs C h _ := .single (.op key (.emit cmds)) ⟨p, hp, hc⟩ (hC p hp hc)
      rw [Label.apply_op hp] at e
      exact e

/-- A batch changes nothing of the entry but its last send time. -/
theorem peer_emit {p : PeerEntry} (hp : h.peer key = some p) (batch : List Bytes) (nowMs : U32) :
    ∃ t, (h.emitByKey key batch nowMs).peer key = some { p with lastSendTime := t } := by
  by_cases hb : batch = []
  · subst hb
    exact ⟨p.lastSendTime, hp⟩
  · exact ⟨nowMs, by rw [peer_emitByKey h key hb, if_pos rfl, hp]; rfl⟩

/-- `batch` is one of the batches into which `flush_batch` cuts `cmds` for the
entry `p` of slot `key` in `h`; it goes out in `h₁`. -/
structure Flushes (h : HostTask) (key : PeerKey) (p : PeerEntry) (cmds : List Bytes)
    (h₁ : HostTask) (batch : List Bytes) : Prop where
  addrMap : h₁.addrMap = h.addrMap
  useChecksum : h₁.useChecksum = h.useChecksum
  entry : ∃ t, h₁.peer key = some { p with lastSendTime := t }
  sub : ∀ b ∈ batch, b ∈ cmds
  size : batch.length = 1 ∨ hdrOverhead h.useChecksum + batch.flatten.length ≤ p.mtu.toNat

/-- The loop of `flush_batch`, by induction on the commands to come.  The invariant is
about what is collected so far: one command at most, or it fits in the mtu; the loop
emits before a command would break that. -/
theorem flushLoop_exec {p : PeerEntry} {h₀ : HostTask} {cmds₀ : List Bytes}
    (hC : ∀ h₁ batch, Flushes h₀ key p cmds₀ h₁ batch → C h₁ (.op key (.emit batch))) :
    ∀ (cmds batch : List Bytes) (h : HostTask), h.addrMap = h₀.addrMap →
      h.useChecksum = h₀.useChecksum → (∃ t, h.peer key = some { p with lastSendTime := t }) →
      (∀ b ∈ batch ++ cmds, b ∈ cmds₀) →
      (batch.length ≤ 1 ∨ hdrOverhead h₀.useChecksum + batch.flatten.length ≤ p.mtu.toNat) →
      Exec nowMs C h (flushLoop key nowMs p.mtu.toNat (hdrOverhead h₀.useChecksum) h cmds batch
        (hdrOverhead h₀.useChecksum + batch.flatten.length)) := by
  have hemit : ∀ (cmds batch : List Bytes) (h : HostTask), h.addrMap = h₀.addrMap →
      h.useChecksum = h₀.useChecksum → (∃ t, h.peer key = some { p with lastSendTime := t }) →
      (∀ b ∈ batch ++ cmds, b ∈ cmds₀) →
      (batch.length ≤ 1 ∨ hdrOverhead h₀.useChecksum + batch.flatten.length ≤ p.mtu.toNat) →
      Exec nowMs C h (h.emitByKey key batch nowMs) := by
    intro cmds batch h haddr hck hp hsub hsize
    apply emitByKey_exec
    intro _ _ hne
    have hpos := List.length_pos_iff.mpr hne
    exact hC h batch ⟨haddr, hck, hp, fun b hb => hsub b (List.mem_append_left _ hb),
      hsize.imp_left fun hle => by omega⟩
  intro cmds
  induction cmds with
  | nil => exact hemit []
  | cons cmd cmds ih =>
      intro batch h haddr hck hp hsub hsize
      unfold flushLoop
      split
      · -- the batch is full: it goes out, and `cmd` starts the next one
        obtain ⟨t, hp⟩ := hp
        obtain ⟨t', hp'⟩ := peer_emit hp batch nowMs
        refine (hemit (cmd :: cmds) batch h haddr hck ⟨t, hp⟩ hsub hsize).trans ?_
        have hrest := ih [cmd] (h.emitByKey key batch nowMs)
          ((emitByKey_addrMap ..).trans haddr) ((emitByKey_useChecksum ..).trans hck) ⟨t', hp'⟩
          (fun b hb => hsub b (List.mem_append_right _ hb)) (.inl (Nat.le_refl 1))
        simpa using hrest
      · next hroom =>
        have hrest := ih (batch ++ [cmd]) h haddr hck hp (by simpa using hsub) (by
          rw [not_and_or, not_not] at hroom
          rcases hroom with hle | hnil
          · refine .inr ?_
            simp only [List.flatten_append, List.flatten_singleton, List.length_append]
            omega
          · exact .inl (by simp [hnil]))
        simpa [Nat.add_assoc] using hrest

/-- `flush_batch` emits batches of its list, each of which `Flushes` describes: nothing
else changes between them but the time of the last send. -/
theorem flushBatch_exec (cmds : List Bytes)
    (hC : ∀ p h₁ batch, h.peer key = some p → Flushes h key p cmds h₁ batch →
      C h₁ (.op key (.emit batch))) :
    Exec nowMs C h (h.flushBatch key cmds nowMs) := by
  unfold flushBatch
  split
  · exact .refl
  · next p hp =>
    exact flushLoop_exec (fun h₁ batch => hC p h₁ batch hp) cmds [] h rfl rfl
      ⟨p.lastSendTime, hp⟩ (fun b hb => hb) (.inl (Nat.zero_le 1))

/-- A list of commands that are all short or outstanding goes out in batches: a batch
inherits it from the list, and the entry still has the same commands outstanding. -/
theorem Flushes.emits {p : PeerEntry} {cmds batch : List Bytes} {h₁ : HostTask}
    (hf : Flushes h key p cmds h₁ batch)
    (hcmds : ∀ b ∈ cmds, b.length ≤ 52 ∨ ∃ (k : U8 × U16) (r : OutstandingReliable),
      p.outgoingReliable[k]? = some r ∧ r.packetBytes = b) : h₁.Emits key batch := by
  obtain ⟨t, ht⟩ := hf.entry
  refine ⟨_, ht, fun b hb => hcmds b (hf.sub b hb), ?_⟩
  rw [hf.useChecksum]
  exact hf.size.imp_right .inr

/-- `try_send(Err(data))` to the entry in a slot, then `remove_peer`: two changes, and
none of them if the slot is empty. -/
theorem notify_remove_exec (data : Option U32) (hn : C h (.op key (.notify data)))
    (hr : ∀ h₁, h₁.addrMap = h.addrMap → C h₁ (.remove key)) :
    Exec nowMs C h ((h.notifyDisconnect key data).removePeer key) := by
  cases hp : h.peer key with
  | none =>
      have hsame : h.notifyDisconnect key data = h := by simp [notifyDisconnect, hp]
      rw [hsame, removePeer_of_none hp]
      exact .refl
  | some p =>
      have e : Exec nowMs C h (h.notifyDisconnect key data) := by
        have e : Exec nowMs C h _ := .single (.op key (.notify data)) ⟨p, hp, trivial⟩ hn
        rw [Label.apply_op hp] at e
        simp only [notifyDisconnect, hp]
        exact e
      refine .step (.remove key) e ⟨{ p with toUser := p.toUser.trySend (.error data) }, ?_⟩
        (hr _ (notifyDisconnect_addrMap h key data))
      rw [peer_notifyDisconnect, if_pos rfl, hp]
      rfl

/-! ## §3. Incoming commands. -/

/-- `if let Some(p) = self.peer_mut(key)` around an operation that lets
nothing out of the task. -/
theorem updatePeer_exec (o : PeerOp) (hC : C h (.op key o))
    (hg : ∀ p, h.peer key = some p → o.Guard h p)
    (hev : ∀ p, o.events h.useChecksum key p nowMs = [])
    (htx : o.acceptTx key h.acceptTx = h.acceptTx) :
    Exec nowMs C h (h.updatePeer key fun p => o.apply nowMs p) := by
  cases hp : h.peer key with
  | none =>
      rw [updatePeer_of_none hp]
      exact .refl
  | some p =>
      rw [updatePeer_of_some hp]
      exact .op o hp (hg p hp) hC (hev p) htx

/-- The record that a payload was taken, if it was: a change of the ghost history only. -/
theorem noteTake_exec (h₀ : HostTask) (ch : U8) (seq : U16) (d : ReliableData)
    (hC : ∀ h, C h (.op key (.take ch seq))) :
    Exec nowMs C h (h.noteTake h₀ key ch seq d) := by
  unfold noteTake
  split
  · exact updatePeer_exec (.take ch seq) (hC h) (fun _ _ => trivial) (fun _ => rfl) rfl
  · exact .refl

/-- VERIFY_CONNECT in a Connecting entry under the right connect id; everything else is
ignored without a change. -/
theorem onVerifyConnect_exec (vc : VerifyConnectCmd) (hdr : CommandHeader)
    (hC : C h (.op key (.verify h.hostMtu vc hdr))) :
    Exec nowMs C h (h.onVerifyConnect key vc hdr nowMs) := by
  unfold onVerifyConnect
  cases hp : h.peer key with
  | none => exact .refl
  | some p =>
      simp only
      split
      · exact .refl
      · next hok =>
        rw [not_or, not_not, not_not] at hok
        have e : Exec nowMs C h _ :=
          .single (.op key (.verify h.hostMtu vc hdr)) ⟨p, hp, rfl, hok⟩ hC
        rw [Label.apply_op hp] at e
        -- the reply goes out only if both the receiver and the reply handle are there
        cases hrx : p.toUserRx <;> cases hre : p.connectReply <;>
          simp only [PeerOp.events, hrx, hre, List.append_nil] at e <;> exact e

/-- An ACK is one change, and then perhaps a second one: the handshake is complete and
the entry is accepted, or established for nobody, or removed because the accept queue
is full; or it was the last ACK of a Disconnecting entry, which is removed. -/
theorem onAck_exec (ch : U8) (a : AcknowledgeCmd) (hack : C h (.op key (.ack ch a)))
    (hacc : ∀ h rx, C h (.op key (.accept rx))) (hest : ∀ h, C h (.op key .establish))
    (hrem : ∀ h, C h (.remove key)) :
    Exec nowMs C h (h.onAck key ch a nowMs) := by
  unfold onAck
  cases hp : h.peer key with
  | none => exact .refl
  | some p =>
      simp only
      have e₁ : Exec nowMs C h (h.setPeer key (p.applyAck ch a nowMs)) :=
        .op (.ack ch a) hp trivial hack rfl rfl
      have hp₁ : (h.setPeer key (p.applyAck ch a nowMs)).peer key
          = some (p.applyAck ch a nowMs) := peer_setPeer_self (lt_of_peer_eq_some hp)
      generalize p.applyAck ch a nowMs = q at *
      split
      · next hdone =>
        cases hrx : q.toUserRx with
        | none =>
            refine e₁.trans ?_
            have e₂ : Exec nowMs C (h.setPeer key q) _ :=
              .op .establish hp₁ ⟨hdone.1, hrx⟩ (hest _) rfl rfl
            rw [setPeer_setPeer] at e₂
            exact e₂
        | some rx =>
            simp only
            split
            · next hroom =>
              refine e₁.trans ?_
              have e₂ : Exec nowMs C (h.setPeer key q) _ :=
                .single (.op key (.accept rx)) ⟨q, hp₁, hroom, hdone.1, hrx⟩ (hacc _ rx)
              rw [Label.apply_op hp₁, setPeer_setPeer] at e₂
              exact e₂
            · -- the accept queue is full: the entry is removed again
              have hsame : (h.setPeer key { q with state := .connected, toUserRx := none }).removePeer
                  key = (h.setPeer key q).removePeer key := by
                rw [← removePeer_setPeer hp₁ (q := { q with state := .connected, toUserRx := none }) rfl,
                  setPeer_setPeer]
              rw [hsame]
              exact .step (.remove key) e₁ ⟨q, hp₁⟩ (hrem _)
      · split
        · exact .step (.remove key) e₁ ⟨q, hp₁⟩ (hrem _)
        · exact e₁

/-- DISCONNECT: the ACK goes out first, since the entry is gone afterwards, then the
application is told and the slot is freed. -/
theorem onDisconnect_exec (hdr : CommandHeader) (sentTime : Option U16) (data : U32)
    (hemit : ∀ h cmds, h.Emits key cmds → C h (.op key (.emit cmds)))
    (hnot : ∀ h data, C h (.op key (.notify data))) (hrem : ∀ h, C h (.remove key)) :
    Exec nowMs C h (h.onDisconnect key hdr sentTime data nowMs) := by
  unfold onDisconnect
  split
  · exact .refl
  · refine Exec.trans ?_ (notify_remove_exec (some data) (hnot _ _) fun h₁ _ => hrem h₁)
    split
    · refine emitByKey_exec _ fun p hp _ => hemit _ _ ⟨p, hp, .single ?_⟩
      rw [ack_length]
      omega
    · exact .refl

/-- The eviction before a CONNECT is answered touches only the slot of that address, and
the application of that entry is told. -/
theorem evictAddr_exec (src : SocketAddr)
    (hnot : ∀ h k data, h.addrMap src = some k → C h (.op k (.notify data)))
    (hrem : ∀ h k, h.addrMap src = some k → C h (.remove k)) :
    Exec nowMs C h (h.evictAddr src) := by
  unfold evictAddr
  cases hk : h.addrMap src with
  | none => exact .refl
  | some k =>
      exact notify_remove_exec none (hnot h k none hk) fun h₁ ha => hrem h₁ k (by rw [ha, hk])

@[simp] theorem serverHandshake_addr (h : HostTask) (slot : PeerKey) (c : ConnectCmd)
    (hdr : CommandHeader) (src : SocketAddr) (nowMs : U32) :
    (h.serverHandshake slot c hdr src nowMs).1.addr = src := rfl

theorem serverHandshake_length (h : HostTask) (slot : PeerKey) (c : ConnectCmd)
    (hdr : CommandHeader) (src : SocketAddr) (nowMs : U32) :
    (h.serverHandshake slot c hdr src nowMs).2.length = 44 := by
  show (encodeCommand ..).length = 44
  simp only [encodeCommand_length, verifyBody, List.length_append, be16_length, be32_length,
    List.length_cons, List.length_nil]

/-- The answer to a CONNECT, with or without the ACK. -/
theorem batch_of_serverHandshake (h : HostTask) (p : PeerEntry) (slot : PeerKey) (c : ConnectCmd)
    (hdr : CommandHeader) (src : SocketAddr) (nowMs : U32) (sentTime : Option U16)
    {useChecksum : Bool} :
    p.Batch useChecksum ((sentTime.map fun st => ack channelIdConnection hdr.reliableSeq st).toList
      ++ [(h.serverHandshake slot c hdr src nowMs).2]) := by
  have hlen := h.serverHandshake_length slot c hdr src nowMs
  cases sentTime with
  | none => exact .single (by rw [hlen]; omega)
  | some st =>
      have hack := ack_length channelIdConnection hdr.reliableSeq st
      show p.Batch useChecksum [ack channelIdConnection hdr.reliableSeq st, _]
      refine ⟨fun b hb => .inl ?_, .inr (.inl ?_)⟩
      · rcases List.mem_pair.mp hb with rfl | rfl <;> omega
      · show (_ ++ (_ ++ [])).length ≤ 52
        rw [List.length_append, List.append_nil]
        omega

/-- CONNECT: the old entry of the address goes, and the new one is installed and
answered; without a free slot a bare DISCONNECT goes out and nothing is kept. -/
theorem onConnect_exec (c : ConnectCmd) (hdr : CommandHeader) (sentTime : Option U16)
    (src : SocketAddr)
    (hemit : ∀ h k cmds, h.addrMap src = some k → h.Emits k cmds → C h (.op k (.emit cmds)))
    (hnot : ∀ h k data, h.addrMap src = some k → C h (.op k (.notify data)))
    (hrem : ∀ h k, h.addrMap src = some k → C h (.remove k))
    (hraw : ∀ h c, C h (.raw c src))
    (hinst : ∀ slot, C (h.evictAddr src)
      (.install slot ((h.evictAddr src).serverHandshake slot c hdr src nowMs).1)) :
    Exec nowMs C h (h.onConnect c hdr sentTime src nowMs) := by
  unfold onConnect
  refine (evictAddr_exec src hnot hrem).trans ?_
  generalize h.evictAddr src = h₁ at *
  simp only
  cases hs : h₁.allocSlot with
  | none => exact .single (.raw c src) hs (hraw h₁ c)
  | some slot =>
      simp only
      have e₁ : Exec nowMs C h₁ _ :=
        .single (.install slot (h₁.serverHandshake slot c hdr src nowMs).1)
          ⟨hs, .inr ⟨c, hdr, src, rfl⟩⟩ (hinst slot)
      -- the new entry's address is the source: the batch goes out under `addrMap src`
      refine e₁.trans (emitByKey_exec _ fun p hp _ => hemit _ slot _ ?_ ⟨p, hp, ?_⟩)
      · simp [Label.apply, install, serverHandshake_addr]
      · exact batch_of_serverHandshake _ p slot c hdr src nowMs sentTime

/-- What `on_command` does with a command, whatever the state: which handler it
calls, and what the command then is. -/
inductive Handled (key : Option PeerKey) (sentTime : Option U16) (cmd : Command)
    (src : SocketAddr) (nowMs : U32) : (HostTask → HostTask) → Prop where
  | ignored (noConnect : ∀ c, cmd.body = .connect c → cmd.header.commandType ≠ cmdConnect)
      (noDisconnect : ∀ k d, key = some k → cmd.body = .disconnect d →
        cmd.header.commandType ≠ cmdDisconnect)
      (noAck : ∀ k a, key = some k → cmd.body = .acknowledge a →
        cmd.header.commandType ≠ cmdAcknowledge) :
      Handled key sentTime cmd src nowMs id
  | connect (c : ConnectCmd) (type : cmd.header.commandType = cmdConnect)
      (body : cmd.body = .connect c) :
      Handled key sentTime cmd src nowMs fun h => h.onConnect c cmd.header sentTime src nowMs
  | verifyConnect (k : PeerKey) (vc : VerifyConnectCmd) (found : key = some k)
      (type : cmd.header.commandType = cmdVerifyConnect) (body : cmd.body = .verifyConnect vc) :
      Handled key sentTime cmd src nowMs fun h => h.onVerifyConnect k vc cmd.header nowMs
  | ack (k : PeerKey) (a : AcknowledgeCmd) (found : key = some k)
      (type : cmd.header.commandType = cmdAcknowledge) (body : cmd.body = .acknowledge a) :
      Handled key sentTime cmd src nowMs fun h => h.onAck k cmd.header.channelId a nowMs
  | disconnect (k : PeerKey) (data : U32) (found : key = some k)
      (type : cmd.header.commandType = cmdDisconnect) (body : cmd.body = .disconnect data) :
      Handled key sentTime cmd src nowMs fun h => h.onDisconnect k cmd.header sentTime data nowMs
  | ping (k : PeerKey) (found : key = some k) (type : cmd.header.commandType = cmdPing) :
      Handled key sentTime cmd src nowMs fun h => h.updatePeer k fun p => p.onPing nowMs
  | reliable (k : PeerKey) (data : Bytes) (found : key = some k)
      (type : cmd.header.commandType = cmdSendReliable) (body : cmd.body = .sendReliable data) :
      Handled key sentTime cmd src nowMs fun h =>
        (h.updatePeer k fun p =>
          p.onSendReliable cmd.header.channelId cmd.header.reliableSeq data nowMs).noteTake h k
            cmd.header.channelId cmd.header.reliableSeq (.whole data)
  | unreliable (k : PeerKey) (useq : U16) (data : Bytes) (found : key = some k)
      (type : cmd.header.commandType = cmdSendUnreliable)
      (body : cmd.body = .sendUnreliable useq data) :
      Handled key sentTime cmd src nowMs fun h => h.updatePeer k fun p =>
        p.onSendUnreliable cmd.header.channelId cmd.header.reliableSeq useq data nowMs
  | fragment (k : PeerKey) (sf : SendFragmentCmd) (found : key = some k)
      (type : cmd.header.commandType = cmdSendFragment) (body : cmd.body = .sendFragment sf) :
      Handled key sentTime cmd src nowMs fun h =>
        (h.onFragment k cmd.header.channelId sf true nowMs).noteTake h k cmd.header.channelId
          cmd.header.reliableSeq (.fragment sf)
  | unreliableFragment (k : PeerKey) (sf : SendFragmentCmd) (found : key = some k)
      (type : cmd.header.commandType = cmdSendUnreliableFragment)
      (body : cmd.body = .sendUnreliableFragment sf) :
      Handled key sentTime cmd src nowMs fun h =>
        h.onFragment k cmd.header.channelId sf false nowMs
  | unsequenced (k : PeerKey) (group : U16) (data : Bytes) (found : key = some k)
      (type : cmd.header.commandType = cmdSendUnsequenced)
      (body : cmd.body = .sendUnsequenced group data) :
      Handled key sentTime cmd src nowMs fun h =>
        h.updatePeer k fun p => p.onSendUnsequenced group data nowMs
  | bandwidthLimit (k : PeerKey) (bl : BandwidthLimitCmd) (found : key = some k)
      (type : cmd.header.commandType = cmdBandwidthLimit) (body : cmd.body = .bandwidthLimit bl) :
      Handled key sentTime cmd src nowMs fun h => h.updatePeer k fun p => p.onBandwidthLimit bl
  | throttleConfigure (k : PeerKey) (tc : ThrottleConfigureCmd) (found : key = some k)
      (type : cmd.header.commandType = cmdThrottleConfigure)
      (body : cmd.body = .throttleConfigure tc) :
      Handled key sentTime cmd src nowMs fun h => h.updatePeer k fun p => p.onThrottleConfigure tc

/-- **The cases of `on_command`**, once for all that follows. -/
theorem dispatch_handled (key : Option PeerKey) (sentTime : Option U16) (cmd : Command)
    (src : SocketAddr) (nowMs : U32) :
    ∃ f, Handled key sentTime cmd src nowMs f
      ∧ ∀ h : HostTask, h.dispatch key sentTime cmd src nowMs = f h := by
  have hite : ∀ {c : Prop} [Decidable c] {a b : HostTask → HostTask},
      (c → ∃ f, Handled key sentTime cmd src nowMs f ∧ ∀ h, a h = f h) →
      (¬ c → ∃ f, Handled key sentTime cmd src nowMs f ∧ ∀ h, b h = f h) →
      ∃ f, Handled key sentTime cmd src nowMs f ∧ ∀ h, (if c then a h else b h) = f h := by
    intro c _ a b hpos hneg
    split
    · next hc => exact hpos hc
    · next hc => exact hneg hc
  have hother : cmd.header.commandType ≠ cmdConnect → cmd.header.commandType ≠ cmdDisconnect →
      cmd.header.commandType ≠ cmdAcknowledge → Handled key sentTime cmd src nowMs id :=
    fun h₁ h₂ h₃ => .ignored (fun _ _ => h₁) (fun _ _ _ _ => h₂) fun _ _ _ _ => h₃
  unfold dispatch
  refine hite (fun hty => ?_) fun hty₁ => ?_
  · cases hb : cmd.body with
    | connect c => exact ⟨_, .connect c hty hb, fun _ => rfl⟩
    | _ =>
        refine ⟨id, .ignored (fun c hc => ?_) (fun _ _ _ _ => ?_) (fun _ _ _ _ => ?_), fun _ => rfl⟩
        · cases hb.symm.trans hc
        all_goals
          rw [hty]
          decide
  refine hite (fun hty => ?_) fun _ => ?_
  · have hignored := hother hty₁ (by rw [hty]; decide) (by rw [hty]; decide)
    cases key with
    | none => exact ⟨id, hignored, fun _ => rfl⟩
    | some k =>
        cases hb : cmd.body with
        | verifyConnect vc => exact ⟨_, .verifyConnect k vc rfl hty hb, fun _ => rfl⟩
        | _ => exact ⟨id, hignored, fun _ => rfl⟩
  refine hite (fun hty => ?_) fun hty₃ => ?_
  · have hdisc : cmd.header.commandType ≠ cmdDisconnect := by
      rw [hty]
      decide
    cases key with
    | none =>
        exact ⟨id, .ignored (fun _ _ => hty₁) (fun _ _ _ _ => hdisc) (fun _ _ hk => by cases hk),
          fun _ => rfl⟩
    | some k =>
        cases hb : cmd.body with
        | acknowledge a => exact ⟨_, .ack k a rfl hty hb, fun _ => rfl⟩
        | _ =>
            refine ⟨id, .ignored (fun _ _ => hty₁) (fun _ _ _ _ => hdisc) (fun _ a _ ha => ?_),
              fun _ => rfl⟩
            cases hb.symm.trans ha
  refine hite (fun hty => ?_) fun hty₄ => ?_
  · cases key with
    | none =>
        exact ⟨id, .ignored (fun _ _ => hty₁) (fun _ _ hk => by cases hk) (fun _ _ _ _ => hty₃),
          fun _ => rfl⟩
    | some k =>
        cases hb : cmd.body with
        | disconnect data => exact ⟨_, .disconnect k data rfl hty hb, fun _ => rfl⟩
        | _ =>
            refine ⟨id, .ignored (fun _ _ => hty₁) (fun _ d _ hd => ?_) (fun _ _ _ _ => hty₃),
              fun _ => rfl⟩
            cases hb.symm.trans hd
  -- the types that concern the entry alone
  have hignored := hother hty₁ hty₄ hty₃
  cases key with
  | none =>
      refine ⟨id, hignored, fun h => ?_⟩
      repeat' refine iteInduction (motive := fun h' : HostTask => h' = h) (fun _ => ?_) fun _ => ?_
      all_goals rfl
  | some k =>
      refine hite (fun hty => ⟨_, .ping k rfl hty, fun _ => rfl⟩) fun _ => ?_
      refine hite (fun hty => ?_) fun _ => ?_
      · cases hb : cmd.body with
        | sendReliable data => exact ⟨_, .reliable k data rfl hty hb, fun _ => rfl⟩
        | _ => exact ⟨id, hignored, fun _ => rfl⟩
      refine hite (fun hty => ?_) fun _ => ?_
      · cases hb : cmd.body with
        | sendUnreliable useq data => exact ⟨_, .unreliable k useq data rfl hty hb, fun _ => rfl⟩
        | _ => exact ⟨id, hignored, fun _ => rfl⟩
      refine hite (fun hty => ?_) fun _ => ?_
      · cases hb : cmd.body with
        | sendFragment sf => exact ⟨_, .fragment k sf rfl hty hb, fun _ => rfl⟩
        | _ => exact ⟨id, hignored, fun _ => rfl⟩
      refine hite (fun hty => ?_) fun _ => ?_
      · cases hb : cmd.body with
        | sendUnreliableFragment sf =>
            exact ⟨_, .unreliableFragment k sf rfl hty hb, fun _ => rfl⟩
        | _ => exact ⟨id, hignored, fun _ => rfl⟩
      refine hite (fun hty => ?_) fun _ => ?_
      · cases hb : cmd.body with
        | sendUnsequenced group data =>
            exact ⟨_, .unsequenced k group data rfl hty hb, fun _ => rfl⟩
        | _ => exact ⟨id, hignored, fun _ => rfl⟩
      refine hite (fun hty => ?_) fun _ => ?_
      · cases hb : cmd.body with
        | bandwidthLimit bl => exact ⟨_, .bandwidthLimit k bl rfl hty hb, fun _ => rfl⟩
        | _ => exact ⟨id, hignored, fun _ => rfl⟩
      refine hite (fun hty => ?_) fun _ => ⟨id, hignored, fun _ => rfl⟩
      cases hb : cmd.body with
      | throttleConfigure tc => exact ⟨_, .throttleConfigure k tc rfl hty hb, fun _ => rfl⟩
      | _ => exact ⟨id, hignored, fun _ => rfl⟩

/-- **One command.**  `on_command` makes only the changes `Command.Makes` lists. -/
theorem dispatch_exec (nowMs : U32) (h : HostTask) (key : Option PeerKey)
    (sentTime : Option U16) (cmd : Command) (src : SocketAddr) :
    Exec nowMs (cmd.Makes h key src nowMs) h (h.dispatch key sentTime cmd src nowMs) := by
  obtain ⟨f, hf, heq⟩ := dispatch_handled key sentTime cmd src nowMs
  rw [heq]
  cases hf with
  | ignored => exact .refl
  | connect c hty hb =>
      exact onConnect_exec c cmd.header sentTime src (fun _ _ _ ha hb => ⟨.inr ha, hb⟩)
        (fun _ _ _ ha => .inr ha) (fun _ _ ha => .inr ha) (fun _ _ => rfl)
        (fun slot => ⟨c, ⟨hty, hb⟩, rfl, rfl⟩)
  | verifyConnect k vc hk hty hb =>
      exact onVerifyConnect_exec vc cmd.header ⟨hk, rfl, hty, hb, rfl⟩
  | ack k a hk hty hb =>
      exact onAck_exec _ a ⟨hk, rfl, hty, hb, rfl⟩ (fun _ _ => hk) (fun _ => hk)
        (fun _ => .inl hk)
  | disconnect k data hk hty hb =>
      exact onDisconnect_exec _ _ _ (fun _ _ hb => ⟨.inl hk, hb⟩) (fun _ _ => .inl hk)
        (fun _ => .inl hk)
  | ping k hk hty =>
      exact updatePeer_exec .recvPing ⟨hk, rfl, hty⟩ (fun _ _ => trivial) (fun _ => rfl) rfl
  | reliable k data hk hty hb =>
      exact (updatePeer_exec (.recvReliable _ _ data) ⟨hk, rfl, hty, hb, rfl, rfl⟩
        (fun _ _ => trivial) (fun _ => rfl) rfl).trans
        (noteTake_exec h _ _ _ fun _ => ⟨hk, rfl, rfl⟩)
  | unreliable k useq data hk hty hb =>
      exact updatePeer_exec (.recvUnreliable _ _ useq data) ⟨hk, rfl, hty, hb, rfl, rfl⟩
        (fun _ _ => trivial) (fun _ => rfl) rfl
  | fragment k sf hk hty hb =>
      exact (updatePeer_exec (.recvFragment _ sf true) ⟨hk, rfl, hty, hb, rfl⟩
        (fun _ _ => trivial) (fun _ => rfl) rfl).trans
        (noteTake_exec h _ _ _ fun _ => ⟨hk, rfl, rfl⟩)
  | unreliableFragment k sf hk hty hb =>
      exact updatePeer_exec (.recvFragment _ sf false) ⟨hk, rfl, hty, hb, rfl⟩
        (fun _ _ => trivial) (fun _ => rfl) rfl
  | unsequenced k group data hk hty hb =>
      exact updatePeer_exec (.recvUnsequenced group data) ⟨hk, rfl, hty, hb⟩
        (fun _ _ => trivial) (fun _ => rfl) rfl
  | bandwidthLimit k bl hk hty hb =>
      exact updatePeer_exec (.recvBandwidthLimit bl) ⟨hk, rfl, hty, hb⟩
        (fun _ _ => trivial) (fun _ => rfl) rfl
  | throttleConfigure k tc hk hty hb =>
      exact updatePeer_exec (.recvThrottleConfigure tc) ⟨hk, rfl, hty, hb⟩
        (fun _ _ => trivial) (fun _ => rfl) rfl

/-- Every command of a datagram meets `P` in the state in which it is processed. -/
def CommandsMeet (P : HostTask → Command → Prop) (key : Option PeerKey) (sentTime : Option U16)
    (src : SocketAddr) (nowMs : U32) : HostTask → List Command → Prop
  | _, [] => True
  | h, cmd :: cmds =>
      P h cmd ∧ CommandsMeet P key sentTime src nowMs (h.dispatch key sentTime cmd src nowMs) cmds

/-- **The command loop**, by induction on the commands.  Each is judged in the state that
the ones before it leave, which is why `CommandsMeet` runs along with the loop. -/
theorem onCommands_exec {P : HostTask → Command → Prop} (key : Option PeerKey)
    (sentTime : Option U16) (src : SocketAddr)
    (hC : ∀ h cmd h' l, P h cmd → cmd.Makes h key src nowMs h' l → C h' l) :
    ∀ (cmds : List Command) (h : HostTask) (acks : List Bytes),
      CommandsMeet P key sentTime src nowMs h cmds →
      Exec nowMs C h (onCommands key sentTime src nowMs h cmds acks).1 := by
  intro cmds
  induction cmds with
  | nil =>
      intro h acks _
      exact .refl
  | cons cmd cmds ih =>
      intro h acks hm
      have e := (dispatch_exec nowMs h key sentTime cmd src).mono
        fun h' l hl => hC h cmd h' l hm.1 hl
      exact e.trans (ih _ _ hm.2)

/-- Every command of the datagram, if its loop is reached, meets `P`. -/
def DatagramMeets (P : HostTask → Option PeerKey → SocketAddr → Command → Prop) (h : HostTask)
    (raw : Bytes) (src : SocketAddr) (nowMs : U32) : Prop :=
  ∀ a, h.acceptDatagram raw src = some a →
    CommandsMeet (fun h cmd => P h a.key src cmd) a.key a.sentTime src nowMs h a.cmds

/-- Every ACK collected in the command loop has eight bytes. -/
theorem onCommands_acks_length (key : Option PeerKey) (sentTime : Option U16) (src : SocketAddr)
    (nowMs : U32) (cmds : List Command) :
    ∀ (h : HostTask) (acks : List Bytes), (∀ b ∈ acks, b.length = 8) →
      ∀ b ∈ (onCommands key sentTime src nowMs h cmds acks).2, b.length = 8 := by
  induction cmds with
  | nil => exact fun _ _ hacks => hacks
  | cons cmd cmds ih =>
      intro h acks hacks
      apply ih
      intro b hb
      rcases List.mem_append.mp hb with hb | hb
      · exact hacks b hb
      · unfold ackFor at hb
        split at hb
        · split at hb
          · rw [List.mem_singleton.mp hb, ack_length]
          · cases hb
        · cases hb

/-- **One datagram**: nothing if a check fails, otherwise the changes of its commands in
order and, at the end, the batch of ACKs to the entry that the header or the source
address leads to. -/
theorem onDatagram_exec {P : HostTask → Option PeerKey → SocketAddr → Command → Prop} (raw : Bytes)
    (src : SocketAddr) (hm : DatagramMeets P h raw src nowMs)
    (hC : ∀ a, h.acceptDatagram raw src = some a → ∀ h cmd h' l, P h a.key src cmd →
      cmd.Makes h a.key src nowMs h' l → C h' l)
    (hemit : ∀ a, h.acceptDatagram raw src = some a → ∀ h' k cmds,
      (a.key = some k ∨ h'.addrMap src = some k) → h'.Emits k cmds → C h' (.op k (.emit cmds))) :
    Exec nowMs C h (h.onDatagram raw src nowMs) := by
  unfold onDatagram
  cases ha : h.acceptDatagram raw src with
  | none => exact .refl
  | some a =>
      simp only
      refine (onCommands_exec a.key a.sentTime src (hC a ha) a.cmds h [] (hm a ha)).trans ?_
      have hacks := onCommands_acks_length a.key a.sentTime src nowMs a.cmds h [] nofun
      generalize onCommands a.key a.sentTime src nowMs h a.cmds [] = r at *
      -- the ACKs collected on the way, if there is somebody to send them to
      unfold flushAcks
      split
      · exact .refl
      · split
        · next k hk =>
          refine flushBatch_exec _ fun p h₁ cmds _ hf => hemit a ha h₁ k cmds ?_ (hf.emits ?_)
          · cases hkey : a.key with
            | some k' =>
                rw [hkey, Option.some_or] at hk
                exact .inl hk
            | none =>
                rw [hkey, Option.none_or] at hk
                exact .inr (by rw [hf.addrMap, hk])
          · intro b hb
            have := hacks b hb
            exact .inl (by omega)
        · exact .refl

/-- The batch of ACKs only emits. -/
theorem flushAcks_exec (key : Option PeerKey) (src : SocketAddr) (acks : List Bytes) :
    Exec nowMs (fun _ l => ∃ k cmds, l = .op k (.emit cmds)) h
      (h.flushAcks key src acks nowMs) := by
  unfold flushAcks
  split
  · exact .refl
  · split
    · exact flushBatch_exec _ fun _ _ cmds _ _ => ⟨_, cmds, rfl⟩
    · exact .refl

/-- **The invariant rule for a datagram**, command by command: each command
that meets `P` keeps the invariant, and so do the ACKs. -/
theorem onDatagram_invariant (Inv : HostTask → Prop)
    {P : HostTask → Option PeerKey → SocketAddr → Command → Prop} {raw : Bytes} {src : SocketAddr}
    (hm : DatagramMeets P h raw src nowMs)
    (hcmd : ∀ h key sentTime cmd, Inv h → P h key src cmd →
      Inv (h.dispatch key sentTime cmd src nowMs))
    (hemit : ∀ h k cmds, Inv h → (Label.op k (.emit cmds)).Guard nowMs h →
      Inv ((Label.op k (.emit cmds)).apply nowMs h))
    (hi : Inv h) : Inv (h.onDatagram raw src nowMs) := by
  unfold onDatagram
  cases ha : h.acceptDatagram raw src with
  | none => exact hi
  | some a =>
      have hloop : ∀ (cmds : List Command) (h : HostTask) (acks : List Bytes), Inv h →
          CommandsMeet (fun h cmd => P h a.key src cmd) a.key a.sentTime src nowMs h cmds →
          Inv (onCommands a.key a.sentTime src nowMs h cmds acks).1 := by
        intro cmds
        induction cmds with
        | nil =>
            intro h acks hi _
            exact hi
        | cons cmd cmds ih =>
            intro h acks hi hmeet
            exact ih _ _ (hcmd h a.key a.sentTime cmd hi hmeet.1) hmeet.2
      refine (flushAcks_exec a.key src _).invariant Inv ?_ (hloop a.cmds h [] hi (hm a ha))
      rintro h₁ l hi₁ hg ⟨k, cmds, rfl⟩
      exact hemit h₁ k cmds hi₁ hg

/-! ## §4. Packets and disconnects. -/

/-- A fragment command has 24 bytes beside the payload, so that with `frag_payload` it
fills a datagram exactly. -/
theorem fragment_length (cmdType flags ch : U8) (seq startSeq : U16) (fp : Nat) (data : Bytes)
    (i : Nat) :
    (encodeCommand cmdType flags ch seq (fragmentBody (fragmentOf startSeq fp data i))).length
      ≤ 24 + fp := by
  simp only [encodeCommand_length, fragmentBody, fragmentOf, List.length_append, be16_length,
    be32_length, List.length_take, List.length_drop]
  omega

theorem fragmentLoop_length (ch : U8) (startSeq : U16) (fp : Nat) (data : Bytes) (nowMs : U32) :
    ∀ (n i : Nat) (p : PeerEntry),
      ∀ b ∈ (PeerEntry.fragmentLoop ch startSeq fp data nowMs n i p).2, b.length ≤ 24 + fp := by
  intro n
  induction n with
  | zero => exact fun _ _ => nofun
  | succ n ih =>
      intro i p b hb
      unfold PeerEntry.fragmentLoop at hb
      rcases List.mem_cons.mp hb with rfl | hb
      · exact fragment_length ..
      · exact ih _ _ b hb

section Packets

variable {p q : PeerEntry} {pkt : Packet} {h₁ h₂ : HostTask} (hp : h.peer key = some p)
  (hst : p.state = .connected) (hmode : pkt.mode ≠ .unsequenced)

include hp hst hmode

/-- A packet in one piece that was found to fit: `max_payload` leaves room for the
header, given that the mtu is not below its minimum. -/
theorem emitsPacket_whole (hq : h₁.peer key = some q) (hmtu : q.mtu = p.mtu)
    (hck : h₁.useChecksum = h.useChecksum) {b : Bytes} {n : Nat} (hn : n ≤ 8) (hb : b.length = n + pkt.data.length)
    (hlen : pkt.data.length ≤ p.mtu.toNat - hdrOverhead h.useChecksum - n) :
    h.EmitsPacket key pkt h₁ [b] := by
  refine ⟨p, q, hp, hst, hq, hmtu, hck, ?_⟩
  rw [if_neg hmode]
  intro hmin
  have hge : 576 ≤ p.mtu.toNat := hmin
  have hhdr := hdrOverhead_le h.useChecksum
  rw [List.flatten_singleton, hb]
  omega

/-- A packet in fragments: a batch that `flush_batch` closed fits, and one fragment alone
fits because of `frag_payload`. -/
theorem emitsPacket_fragments {cmds batch : List Bytes} (hf : Flushes h₁ key q cmds h₂ batch)
    (hmtu : q.mtu = p.mtu) (hck : h₁.useChecksum = h.useChecksum)
    (hcmds : ∀ b ∈ cmds, b.length ≤ 24 + fragPayload p.mtu.toNat h.useChecksum) :
    h.EmitsPacket key pkt h₂ batch := by
  obtain ⟨t, ht⟩ := hf.entry
  refine ⟨p, _, hp, hst, ht, hmtu, hf.useChecksum.trans hck, ?_⟩
  rw [if_neg hmode]
  intro hmin
  have hge : 576 ≤ p.mtu.toNat := hmin
  have hhdr := hdrOverhead_le h.useChecksum
  have hsize := hf.size
  rw [hck, hmtu] at hsize
  rcases hsize with hone | hfits
  · obtain ⟨b, rfl⟩ := List.length_eq_one_iff.mp hone
    have hb := hcmds b (hf.sub b (List.mem_singleton_self b))
    unfold fragPayload at hb
    rw [List.flatten_singleton]
    omega
  · exact hfits

end Packets

/-- A reliable packet is queued if the window is closed; otherwise it is numbered in one
change, whole or in fragments, and what was numbered goes out. -/
theorem sendReliable_exec {p : PeerEntry} (hp : h.peer key = some p) (hst : p.state = .connected)
    (pkt : Packet) (hmode : pkt.mode = .reliable) :
    Exec nowMs (SendMakes h key pkt) h (h.sendReliable key p pkt nowMs) := by
  have hseq : pkt.mode ≠ .unsequenced := by simp [hmode]
  unfold sendReliable
  cases hc : p.channels[pkt.channel.toNat]? with
  | none => exact .refl
  | some c =>
      have hsend : PeerOp.Sendable p pkt c := ⟨hst, hmode, hc⟩
      simp only
      cases hw : p.windowOpen pkt.channel c with
      | false => exact .op (.queue pkt) hp ⟨c, hsend, hw⟩ ⟨rfl, rfl, rfl⟩ rfl rfl
      | true =>
          simp only [Bool.not_true, Bool.false_eq_true, if_false]
          split
          · next hlen =>
            have e : Exec nowMs (SendMakes h key pkt) h _ :=
              .op (.numberWhole pkt) hp ⟨c, hsend, hw, hlen⟩ ⟨rfl, rfl, rfl⟩ rfl rfl
            have hmtu := (PeerEntry.numberWhole_numbered (p := p) pkt nowMs).get (·.mtu)
            refine e.trans (emitByKey_exec _ fun q hq _ => ⟨rfl, ?_⟩)
            cases (peer_setPeer_self (lt_of_peer_eq_some hp)).symm.trans hq
            refine emitsPacket_whole hp hst hseq hq hmtu rfl (by decide : 6 ≤ 8) ?_ hlen
            show (encodeCommand ..).length = _
            simp only [encodeCommand_length, List.length_append, be16_length]
            omega
          · next hlen =>
            have e : Exec nowMs (SendMakes h key pkt) h _ :=
              .op (.numberFragments pkt (fragPayload p.mtu.toNat h.useChecksum)) hp
                ⟨c, hsend, hw, Nat.lt_of_not_le hlen, rfl⟩ ⟨rfl, rfl, rfl⟩ rfl rfl
            have hmtu := (PeerEntry.numberFragments_numbered (p := p) pkt
              (fragPayload p.mtu.toNat h.useChecksum) nowMs).get (·.mtu)
            refine e.trans (flushBatch_exec _ fun q h₂ batch hq hf => ⟨rfl, ?_⟩)
            cases (peer_setPeer_self (lt_of_peer_eq_some hp)).symm.trans hq
            exact emitsPacket_fragments hp hst hseq hf hmtu rfl (fragmentLoop_length _ _ _ _ _ _ _ _)

/-- An unreliable packet moves the channel's counter once, however many fragments it is
cut into.  The index panic is the case in which there is no next state. -/
theorem sendUnreliable_exec {p : PeerEntry} (hp : h.peer key = some p) (hst : p.state = .connected)
    (pkt : Packet) (hmode : pkt.mode = .unreliable)
    (hnext : ∀ c, C h (.op key (.nextUnreliable pkt.channel c)))
    (hemit : ∀ h₁ cmds, h.EmitsPacket key pkt h₁ cmds → C h₁ (.op key (.emit cmds)))
    (hs : h.sendUnreliable key p pkt nowMs = some h') : Exec nowMs C h h' := by
  have hseq : pkt.mode ≠ .unsequenced := by simp [hmode]
  unfold sendUnreliable at hs
  cases hc : p.channels[pkt.channel.toNat]? with
  | none => simp [hc] at hs
  | some c =>
      have e : Exec nowMs C h _ :=
        .op (.nextUnreliable pkt.channel c) hp ⟨hst, hc⟩ (hnext c) rfl rfl
      simp only [hc] at hs
      split at hs
      · next hlen =>
        cases hs
        refine e.trans (emitByKey_exec _ fun q hq _ => hemit _ _ ?_)
        cases (peer_setPeer_self (lt_of_peer_eq_some hp)).symm.trans hq
        refine emitsPacket_whole hp hst hseq hq rfl rfl (by decide : 8 ≤ 8) ?_ hlen
        simp only [encodeCommand_length, List.length_append, be16_length]
        omega
      · cases hs
        refine e.trans (flushBatch_exec _ fun q h₂ batch hq hf => hemit _ _ ?_)
        cases (peer_setPeer_self (lt_of_peer_eq_some hp)).symm.trans hq
        refine emitsPacket_fragments hp hst hseq hf rfl rfl ?_
        intro b hb
        obtain ⟨i, -, rfl⟩ := List.mem_map.mp hb
        exact fragment_length ..

/-- An unsequenced packet goes out whole, whatever its length, and on an unknown channel
without any counter being moved. -/
theorem sendUnsequenced_exec {p : PeerEntry} (hp : h.peer key = some p)
    (hst : p.state = .connected) (pkt : Packet) (hmode : pkt.mode = .unsequenced)
    (hnext : ∀ c, C h (.op key (.nextUnsequenced pkt.channel c)))
    (hemit : ∀ h₁ cmds, h.EmitsPacket key pkt h₁ cmds → C h₁ (.op key (.emit cmds))) :
    Exec nowMs C h (h.sendUnsequenced key p pkt nowMs) := by
  have hlen : ∀ group : U16, ([encodeCommand cmdSendUnsequenced commandFlagUnsequenced pkt.channel 0
      (be16 group ++ be16 (BitVec.ofNat 16 pkt.data.length) ++ pkt.data)].flatten).length
        = 8 + pkt.data.length := by
    intro group
    simp only [List.flatten_singleton, encodeCommand_length, List.length_append, be16_length]
    omega
  unfold sendUnsequenced
  cases hc : p.channels[pkt.channel.toNat]? with
  | none =>
      simp only [setPeer_self hp]
      refine emitByKey_exec _ fun q hq _ => hemit _ _ ⟨p, p, hp, hst, hp, rfl, rfl, ?_⟩
      rw [if_pos hmode, hlen]
  | some c =>
      have e : Exec nowMs C h _ :=
        .op (.nextUnsequenced pkt.channel c) hp ⟨hst, hc⟩ (hnext c) rfl rfl
      refine e.trans (emitByKey_exec _ fun q hq _ => hemit _ _
        ⟨p, _, hp, hst, peer_setPeer_self (lt_of_peer_eq_some hp), rfl, rfl, ?_⟩)
      rw [if_pos hmode, hlen]

/-- **One packet.**  `send_packet` makes only the changes `SendMakes` lists, and
moves the counters of the packet's mode. -/
theorem sendPacket_exec_mode (pkt : Packet) (hs : h.sendPacket key pkt nowMs = some h') :
    Exec nowMs (fun h₁ l => SendMakes h key pkt h₁ l ∧ ∀ k o, l = .op k o → o.OfMode pkt.mode)
      h h' := by
  unfold sendPacket at hs
  cases hp : h.peer key with
  | none =>
      simp only [hp] at hs
      cases hs
      exact .refl
  | some p =>
      simp only [hp] at hs
      split at hs
      · cases hs
        exact .refl
      · next hst =>
        rw [ne_eq, not_not] at hst
        cases hmode : pkt.mode with
        | reliable =>
            simp only [hmode] at hs
            cases hs
            refine (sendReliable_exec hp hst pkt hmode).mono fun h₁ l hl => ⟨hl, ?_⟩
            rintro k o rfl
            cases o with
            | nextUnreliable | nextUnsequenced => exact absurd hmode hl.2.2.2
            | _ => trivial
        | unreliable =>
            simp only [hmode] at hs
            refine sendUnreliable_exec hp hst pkt hmode
              (fun c => ⟨⟨rfl, rfl, rfl, by simp [hmode]⟩, ?_⟩) (fun _ _ hb => ⟨⟨rfl, hb⟩, ?_⟩) hs
            all_goals
              rintro k o ⟨⟩
              trivial
        | unsequenced =>
            simp only [hmode] at hs
            cases hs
            refine sendUnsequenced_exec hp hst pkt hmode
              (fun c => ⟨⟨rfl, rfl, rfl, by simp [hmode]⟩, ?_⟩) fun _ _ hb => ⟨⟨rfl, hb⟩, ?_⟩
            all_goals
              rintro k o ⟨⟩
              trivial

/-- `send_packet` makes only the changes `SendMakes` lists; the modes apart, which most
proofs do not need. -/
theorem sendPacket_exec (pkt : Packet) (hs : h.sendPacket key pkt nowMs = some h') :
    Exec nowMs (SendMakes h key pkt) h h' :=
  (sendPacket_exec_mode pkt hs).mono fun _ _ hl => hl.1

/-- Every packet of a list meets `Q` in the state in which `send_packet` gets it. -/
def SendsMeet (Q : HostTask → PeerKey → Packet → Prop) (key : PeerKey) (nowMs : U32) :
    HostTask → List Packet → Prop
  | _, [] => True
  | h, pkt :: pkts =>
      Q h key pkt ∧ ∀ h', h.sendPacket key pkt nowMs = some h' → SendsMeet Q key nowMs h' pkts

/-- A list of packets, one after the other: each is judged in the state that the ones
before it leave. -/
theorem sendAll_exec {Q : HostTask → PeerKey → Packet → Prop}
    (hC : ∀ h pkt h' l, Q h key pkt → SendMakes h key pkt h' l → C h' l) :
    ∀ (pkts : List Packet) (h h' : HostTask), SendsMeet Q key nowMs h pkts →
      sendAll key nowMs h pkts = some h' → Exec nowMs C h h' := by
  intro pkts
  induction pkts with
  | nil =>
      intro h h' _ hs
      cases hs
      exact .refl
  | cons pkt pkts ih =>
      intro h h' hm hs
      obtain ⟨h₁, h₁s, hs⟩ := Option.bind_eq_some_iff.mp hs
      have e := (sendPacket_exec pkt h₁s).mono fun h' l hl => hC h pkt h' l hm.1 hl
      exact e.trans (ih h₁ h' (hm.2 h₁ h₁s) hs)

/-- PING, DISCONNECT or BANDWIDTH_LIMIT: the command is stored in one change and goes out
in the next, alone in its datagram and outstanding by then. -/
theorem sendConnectionCmd_exec {p : PeerEntry} (hp : h.peer key = some p) (cmdType : U8)
    (body : Bytes) (hg : (PeerOp.connectionCmd cmdType body).Guard h p)
    (hC : C h (.op key (.connectionCmd cmdType body)))
    (hemit : ∀ h cmds, h.Emits key cmds → (Label.op key (.emit cmds)).Tracked h →
      C h (.op key (.emit cmds))) :
    Exec nowMs C h (h.sendConnectionCmd key cmdType body nowMs) := by
  simp only [sendConnectionCmd, hp]
  have e : Exec nowMs C h _ := .op (.connectionCmd cmdType body) hp hg hC rfl rfl
  refine e.trans (emitByKey_exec _ fun q hq _ => hemit _ _ ⟨q, hq, .single ?_⟩
    ⟨q, hq, fun b hb => ?_⟩)
  · have hbody := hg.1
    show (encodeCommand ..).length ≤ 52
    rw [encodeCommand_length]
    omega
  · cases (peer_setPeer_self (lt_of_peer_eq_some hp)).symm.trans hq
    rw [List.mem_singleton.mp hb]
    exact ⟨_, _, Std.ExtTreeMap.getElem?_insert_self, rfl⟩

/-- The state turns to Disconnecting and CMD_DISCONNECT goes out; both callers have found
that nothing is outstanding. -/
theorem disconnectNow_exec {p : PeerEntry} (hp : h.peer key = some p) (data : U32)
    (deferred : Bool) (hg : (PeerOp.beginDisconnect deferred).Guard h p)
    (hbegin : C h (.op key (.beginDisconnect deferred)))
    (hC : ∀ h o, (Label.op key o).Internal h → (Label.op key o).Calm →
      (Label.op key o).Tracked h → C h (.op key o)) :
    Exec nowMs C h ((h.setPeer key { p with state := .disconnecting }).sendConnectionCmd key
      cmdDisconnect (be32 data) nowMs) := by
  have e : Exec nowMs C h _ := .op (.beginDisconnect deferred) hp hg hbegin rfl rfl
  have hempty : p.outgoingReliable.isEmpty = true := by
    cases deferred <;> exact hg.2
  refine e.trans (sendConnectionCmd_exec (peer_setPeer_self (lt_of_peer_eq_some hp)) _ _ ⟨?_, ?_⟩
    (hC _ _ trivial (by decide : cmdDisconnect ≠ cmdBandwidthLimit) ⟨_, .disconnect data, rfl, rfl⟩)
    fun _ _ hb ht => hC _ _ hb trivial ht)
  · rw [be32_length]
    omega
  · exact .inr (.inl ⟨rfl, rfl, hempty⟩)

/-- A disconnect request is deferred while something is outstanding, carried out if
nothing is, and ignored in every state but Connecting and Connected. -/
theorem sendDisconnect_exec (data : U32)
    (hC : ∀ h o, (Label.op key o).Internal h → (Label.op key o).Calm →
      (Label.op key o).Tracked h → C h (.op key o))
    (hdefer : C h (.op key (.deferDisconnect data)))
    (hbegin : C h (.op key (.beginDisconnect false))) :
    Exec nowMs C h (h.sendDisconnect key data nowMs) := by
  unfold sendDisconnect
  cases hp : h.peer key with
  | none => exact .refl
  | some p =>
      simp only
      have hcase : p.state = .connecting ∨ p.state = .connected →
          Exec nowMs C h (if !p.outgoingReliable.isEmpty then
              h.setPeer key { p with state := .disconnectLater data }
            else (h.setPeer key { p with state := .disconnecting }).sendConnectionCmd key
              cmdDisconnect (be32 data) nowMs) := by
        intro hst
        cases hempty : p.outgoingReliable.isEmpty with
        | false => exact .op (.deferDisconnect data) hp ⟨hst, hempty⟩ hdefer rfl rfl
        | true => exact disconnectNow_exec hp data false ⟨hst, hempty⟩ hbegin hC
      cases hst : p.state with
      | connecting => exact hcase (.inl hst)
      | connected => exact hcase (.inr hst)
      | acknowledgingConnect => exact .refl
      | disconnectLater d => exact .refl
      | disconnecting => exact .refl

/-! ## §5. The tick. -/

theorem peer_flushLoop (mtu hdr : Nat) :
    ∀ (cmds batch : List Bytes) (h : HostTask) (sz : Nat) (p : PeerEntry), h.peer key = some p →
      ∃ t, (flushLoop key nowMs mtu hdr h cmds batch sz).peer key
        = some { p with lastSendTime := t } := by
  intro cmds
  induction cmds with
  | nil =>
      intro batch h sz p hp
      exact peer_emit hp batch nowMs
  | cons cmd cmds ih =>
      intro batch h sz p hp
      unfold flushLoop
      split
      · obtain ⟨t, ht⟩ := peer_emit hp batch nowMs
        exact ih _ _ _ { p with lastSendTime := t } ht
      · exact ih _ _ _ _ hp

/-- A whole batch changes nothing of the entry but its last send time. -/
theorem peer_flushBatch {p : PeerEntry} (hp : h.peer key = some p) (cmds : List Bytes)
    (nowMs : U32) :
    ∃ t, (h.flushBatch key cmds nowMs).peer key = some { p with lastSendTime := t } := by
  simp only [flushBatch, hp]
  exact peer_flushLoop _ _ _ _ _ _ _ hp

/-- What `service_one` sends before a deferred disconnect fires.  PING and the disconnect
exclude each other, since one needs a Connected entry and the other one that is
leaving; so what fires the disconnect is the entry as the retransmissions left it. -/
theorem serviceSends_split (nowMs : U32) {p : PeerEntry} (hp : h.peer key = some p)
    {retransmits : List Bytes} (hr : Outstanding p retransmits)
    (hC : ∀ h o, (Label.op key o).Internal h → (Label.op key o).Plain → (Label.op key o).Calm →
      (Label.op key o).Tracked h → C h (.op key o)) :
    ∃ h₁ t, Exec nowMs C h h₁
      ∧ (p.disconnectLaterData ≠ none → h₁.peer key = some { p with lastSendTime := t })
      ∧ h.serviceSends key retransmits (p.pingNeeded nowMs) p.disconnectLaterData nowMs
        = match p.disconnectLaterData with
          | some data => h₁.fireDisconnect key data nowMs
          | none => h₁ := by
  -- the retransmissions leave the entry as it was, but for `lastSendTime`
  obtain ⟨h₁, hh₁, e₁, t, hp₁⟩ : ∃ h₁, h₁ = (if retransmits.isEmpty then h
      else h.flushBatch key retransmits nowMs) ∧ Exec nowMs C h h₁
      ∧ ∃ t, h₁.peer key = some { p with lastSendTime := t } := by
    refine ⟨_, rfl, ?_⟩
    split
    · exact ⟨.refl, p.lastSendTime, hp⟩
    · refine ⟨flushBatch_exec _ fun q h₁ batch hq hf => ?_, peer_flushBatch hp _ _⟩
      cases hp.symm.trans hq
      obtain ⟨t, ht⟩ := hf.entry
      exact hC _ _ (hf.emits fun b hb => .inr (hr b hb)) trivial trivial
        ⟨_, ht, fun b hb => hr b (hf.sub b hb)⟩
  simp only [serviceSends, ← hh₁]
  cases hping : p.pingNeeded nowMs with
  | true =>
      simp only [PeerEntry.pingNeeded, Bool.and_eq_true, decide_eq_true_eq] at hping
      have hlater : p.disconnectLaterData = none := by
        simp [PeerEntry.disconnectLaterData, hping.1.1]
      refine ⟨h₁.sendConnectionCmd key cmdPing [] nowMs, t, e₁.trans ?_, ?_, ?_⟩
      · exact sendConnectionCmd_exec hp₁ _ _ ⟨Nat.zero_le 8, .inl ⟨rfl, hping.1.1, hping.1.2⟩⟩
          (hC _ _ trivial trivial (by decide : cmdPing ≠ cmdBandwidthLimit) ⟨_, .ping, rfl, rfl⟩)
          fun _ _ hb ht => hC _ _ hb trivial trivial ht
      · exact fun hne => absurd hlater hne
      · simp [hlater]
  | false =>
      refine ⟨h₁, t, e₁, fun _ => hp₁, ?_⟩
      cases p.disconnectLaterData <;> rfl

/-- A deferred disconnect fires only with nothing outstanding. -/
theorem disconnectLaterData_eq_some {p : PeerEntry} {data : U32} :
    p.disconnectLaterData = some data
      ↔ p.state = .disconnectLater data ∧ p.outgoingReliable.isEmpty = true := by
  unfold PeerEntry.disconnectLaterData
  split
  · next d hst =>
    split
    · next hempty => simp [hst, hempty]
    · next hempty => simp [hst, hempty]
  · next hst =>
    constructor
    · exact nofun
    · exact fun hlater => absurd hlater.1 (hst data)

/-- The retransmissions, then PING or the deferred disconnect, as changes. -/
theorem serviceSends_exec {p : PeerEntry} (hp : h.peer key = some p) {retransmits : List Bytes}
    (hr : Outstanding p retransmits)
    (hC : ∀ h o, (Label.op key o).Internal h → (Label.op key o).Calm →
      (Label.op key o).Tracked h → C h (.op key o)) :
    Exec nowMs C h
      (h.serviceSends key retransmits (p.pingNeeded nowMs) p.disconnectLaterData nowMs) := by
  obtain ⟨h₁, t, e₁, hp₁, heq⟩ := serviceSends_split nowMs hp hr
    fun h o ho _ hcalm ht => hC h o ho hcalm ht
  rw [heq]
  cases hlater : p.disconnectLaterData with
  | none => exact e₁
  | some data =>
      have hp₁ := hp₁ (by simp [hlater])
      simp only [fireDisconnect, updatePeer_of_some hp₁]
      obtain ⟨hst, hempty⟩ := disconnectLaterData_eq_some.mp hlater
      exact e₁.trans (disconnectNow_exec hp₁ data true ⟨⟨data, hst⟩, hempty⟩
        (hC _ _ trivial trivial trivial) hC)

/-- What the retransmission loop sends is outstanding afterwards: the loop changes
counters and never the bytes. -/
theorem retransmitLoop_outstanding (nowMs : U32) (p : PeerEntry) :
    Outstanding
      { p with
        outgoingReliable :=
          (retransmitLoop nowMs p.outgoingReliable.toList p.outgoingReliable).2.1 }
      (retransmitLoop nowMs p.outgoingReliable.toList p.outgoingReliable).2.2 := by
  intro b hb
  obtain ⟨e, he, rfl⟩ := retransmitLoop_mem_cmds nowMs _ _ b hb
  have hmem := Std.ExtTreeMap.mem_toList_iff_getElem?_eq_some.mp he
  rcases retransmitLoop_toList nowMs p.outgoingReliable e.1 with ⟨hnone, -⟩ | ⟨r, r', hr, hr', hres, -⟩
  · cases hnone.symm.trans hmem
  · cases hmem.symm.trans hr
    exact ⟨e.1, r', hr', hres.packetBytes⟩

/-- The first half of `service_one`: the counters move, and then either the peer is given
up (the application is told, the slot freed) or the due commands go out.  The second
condition is asked for only where the peer is given up. -/
theorem serviceChecks_exec {p : PeerEntry} (hp : h.peer key = some p)
    (hC : ∀ h l, l.Internal h → l.Calm → l.Tracked h → C h l)
    (hstop : (h.serviceChecks key p nowMs).2 = false →
      ∀ h, C h (.op key (.notify none)) ∧ C h (.remove key)) :
    Exec nowMs C h (h.serviceChecks key p nowMs).1 := by
  unfold serviceChecks at hstop ⊢
  have e : Exec nowMs C h _ := .op .retransmit hp trivial (hC _ _ trivial trivial trivial) rfl rfl
  simp only [PeerOp.apply] at e
  have hp₁ := peer_setPeer_self (q := { p with
    outgoingReliable := (retransmitLoop nowMs p.outgoingReliable.toList p.outgoingReliable).2.1 })
    (lt_of_peer_eq_some hp)
  have hr := retransmitLoop_outstanding nowMs p
  generalize retransmitLoop nowMs p.outgoingReliable.toList p.outgoingReliable = r at *
  obtain ⟨timedOut, outgoing, retransmits⟩ := r
  simp only at e hp₁ hr hstop ⊢
  cases timedOut with
  | true => exact e.trans (notify_remove_exec none (hstop rfl _).1 fun _ _ => (hstop rfl _).2)
  | false => exact e.trans (serviceSends_exec hp₁ hr fun _ _ => hC _ _)

/-- Every waiting packet of the slot's entry meets `Q` when it is drained. -/
def DrainMeets (Q : HostTask → PeerKey → Packet → Prop) (h : HostTask) (key : PeerKey)
    (nowMs : U32) : Prop :=
  ∀ p, h.peer key = some p →
    SendsMeet Q key nowMs (h.setPeer key { p with pendingSend := [] }) p.pendingSend

/-- The drain empties `pending_send` first and then sends every packet again; one whose
window is still closed joins the queue anew. -/
theorem drainPending_exec {Q : HostTask → PeerKey → Packet → Prop}
    (hC : ∀ h k pkt h' l, Q h k pkt → SendMakes h k pkt h' l → C h' l)
    (hclear : ∀ h k, C h (.op k .clearPending)) (hm : DrainMeets Q h key nowMs)
    (hs : h.drainPending key nowMs = some h') : Exec nowMs C h h' := by
  unfold drainPending at hs
  cases hp : h.peer key with
  | none =>
      simp only [hp] at hs
      cases hs
      exact .refl
  | some p =>
      simp only [hp] at hs
      have e : Exec nowMs C h _ := .op .clearPending hp trivial (hclear _ _) rfl rfl
      exact e.trans (sendAll_exec (fun h pkt h' l => hC h key pkt h' l) _ _ _ (hm p hp) hs)

/-- Every packet that a tick drains, over the slots still to be served, meets `Q`. -/
def ServiceMeets (Q : HostTask → PeerKey → Packet → Prop) (nowMs : U32) :
    HostTask → List PeerKey → Prop
  | _, [] => True
  | h, key :: keys =>
      (∀ p, h.peer key = some p → DrainMeets Q (h.serviceChecks key p nowMs).1 key nowMs)
        ∧ ∀ h', h.serviceOne key nowMs = some h' → ServiceMeets Q nowMs h' keys

/-- One slot of the tick: the checks, and the drain unless the peer was given up. -/
theorem serviceOne_exec {Q : HostTask → PeerKey → Packet → Prop}
    (hC : ∀ h k pkt h' l, Q h k pkt → SendMakes h k pkt h' l → C h' l)
    (hO : ∀ h l, l.Internal h → l.Calm → C h l) (hH : ∀ h k o, o.Handles → C h (.op k o))
    (hm : ∀ p, h.peer key = some p → DrainMeets Q (h.serviceChecks key p nowMs).1 key nowMs)
    (hs : h.serviceOne key nowMs = some h') : Exec nowMs C h h' := by
  unfold serviceOne at hs
  cases hp : h.peer key with
  | none =>
      simp only [hp] at hs
      cases hs
      exact .refl
  | some p =>
      simp only [hp] at hs
      refine (serviceChecks_exec hp (fun h l ho hcalm _ => hO h l ho hcalm)
        fun _ h => ⟨hO h _ trivial trivial, hO h _ trivial trivial⟩).trans ?_
      split at hs
      · exact drainPending_exec hC (fun _ _ => hH _ _ _ trivial) (hm p hp) hs
      · cases hs
        exact .refl

/-- The slots one after the other: the packets that a slot drains are judged in the state
that the slots before it leave. -/
theorem serviceEach_exec {Q : HostTask → PeerKey → Packet → Prop}
    (hC : ∀ h k pkt h' l, Q h k pkt → SendMakes h k pkt h' l → C h' l)
    (hO : ∀ h l, l.Internal h → l.Calm → C h l) (hH : ∀ h k o, o.Handles → C h (.op k o)) :
    ∀ (keys : List PeerKey) (h h' : HostTask), ServiceMeets Q nowMs h keys →
      serviceEach nowMs h keys = some h' → Exec nowMs C h h' := by
  intro keys
  induction keys with
  | nil =>
      intro h h' _ hs
      cases hs
      exact .refl
  | cons key keys ih =>
      intro h h' hm hs
      obtain ⟨h₁, hs₁, hs⟩ := Option.bind_eq_some_iff.mp hs
      exact (serviceOne_exec hC hO hH hm.1 hs₁).trans (ih h₁ h' (hm.2 h₁ hs₁) hs)

/-- Each of the slots holds a Connected entry. -/
def AllConnected (h : HostTask) (keys : List PeerKey) : Prop :=
  ∀ k ∈ keys, ∃ p, h.peer k = some p ∧ p.state = .connected

/-- The slots that `bandwidth_throttle` collects hold Connected entries; the adjustment
keeps that, so every BANDWIDTH_LIMIT has its guard. -/
theorem allConnected_keysWhere (h : HostTask) :
    AllConnected h (h.keysWhere fun p => decide (p.state = .connected)) := by
  intro k hk
  simp only [keysWhere, List.mem_filter, Option.any_eq_true, decide_eq_true_eq] at hk
  exact hk.2

/-- Writing a Connected entry to a slot keeps all of them Connected. -/
theorem AllConnected.setPeer {keys : List PeerKey} (hall : AllConnected h keys) {p q : PeerEntry}
    (hp : h.peer key = some p) (hq : q.state = .connected) : AllConnected (h.setPeer key q) keys := by
  intro k hk
  rw [peer_setPeer hp]
  split
  · exact ⟨q, rfl, hq⟩
  · exact hall k hk

/-- A clamped window is within the bounds, whatever the division gave. -/
theorem clamp_bounds (x : U32) : windowSizeMin ≤ clamp x windowSizeMin windowSizeMax
    ∧ clamp x windowSizeMin windowSizeMax ≤ windowSizeMax := by
  unfold clamp windowSizeMin windowSizeMax
  split
  · decide
  · split
    · decide
    · bv_omega

/-- The loop that sets the windows, by induction on the slots; that all of them hold
Connected entries is carried along for the loop that follows. -/
theorem setWindows_exec (w : U32) (hw : windowSizeMin ≤ w ∧ w ≤ windowSizeMax)
    (hO : ∀ h l, l.Internal h → l.Plain → l.Tracked h → C h l) :
    ∀ (keys : List PeerKey) (h : HostTask) (all : List PeerKey), (∀ k ∈ keys, k ∈ all) →
      AllConnected h all →
      Exec nowMs C h (keys.foldl
        (fun h key => h.updatePeer key fun p => { p with windowSize := w }) h)
      ∧ AllConnected (keys.foldl
        (fun h key => h.updatePeer key fun p => { p with windowSize := w }) h) all := by
  intro keys
  induction keys with
  | nil =>
      intro h all _ hall
      exact ⟨.refl, hall⟩
  | cons key keys ih =>
      intro h all hsub hall
      obtain ⟨p, hp, hst⟩ := hall key (hsub key List.mem_cons_self)
      simp only [List.foldl_cons, updatePeer_of_some hp]
      have e : Exec nowMs C h _ :=
        .op (.setWindow w) hp ⟨hst, hw⟩ (hO _ _ trivial trivial trivial) rfl rfl
      obtain ⟨e', hall'⟩ := ih _ all (fun k hk => hsub k (List.mem_cons_of_mem _ hk))
        (hall.setPeer hp (q := { p with windowSize := w }) hst)
      exact ⟨e.trans e', hall'⟩

/-- The loop that sends BANDWIDTH_LIMIT: a command to one slot leaves the others
Connected. -/
theorem sendLimits_exec (limits : BandwidthLimitCmd)
    (hO : ∀ h l, l.Internal h → l.Plain → l.Tracked h → C h l) :
    ∀ (keys : List PeerKey) (h : HostTask), AllConnected h keys →
      Exec nowMs C h (keys.foldl (fun h key => h.sendConnectionCmd key cmdBandwidthLimit
        (be32 limits.incomingBandwidth ++ be32 limits.outgoingBandwidth) nowMs) h) := by
  intro keys
  induction keys with
  | nil =>
      intro h _
      exact .refl
  | cons key keys ih =>
      intro h hall
      obtain ⟨p, hp, hst⟩ := hall key (by simp)
      rw [List.foldl_cons]
      refine (sendConnectionCmd_exec hp cmdBandwidthLimit (be32 limits.incomingBandwidth
        ++ be32 limits.outgoingBandwidth) ⟨Nat.le_refl 8, .inr (.inr ⟨rfl, hst⟩)⟩
        (hO _ _ trivial trivial ⟨_, .bandwidthLimit limits, rfl, rfl⟩)
        fun _ _ hb ht => hO _ _ hb trivial ht).trans (ih _ ?_)
      have h₁ := AllConnected.setPeer (fun k hk => hall k (List.mem_cons_of_mem _ hk)) hp
        (q := (p.makeReliable channelIdConnection cmdBandwidthLimit 0 nowMs
          (be32 limits.incomingBandwidth ++ be32 limits.outgoingBandwidth)).1) hst
      intro k hk
      obtain ⟨q, hq, hqst⟩ := h₁ k hk
      simp only [sendConnectionCmd, hp]
      rw [peer_emitByKey _ _ (by simp)]
      split
      · next hkk =>
        subst hkk
        exact ⟨{ q with lastSendTime := nowMs }, by rw [hq]; rfl, hqst⟩
      · exact ⟨q, hq, hqst⟩

/-- `bandwidth_throttle`: at most once per interval, and without a limit or a Connected
peer only the time of the adjustment changes. -/
theorem bandwidthThrottle_exec (hO : ∀ h l, l.Internal h → l.Plain → l.Tracked h → C h l) :
    Exec nowMs C h (h.bandwidthThrottle nowMs) := by
  unfold bandwidthThrottle
  split
  · exact .refl
  · next hint =>
    have e : Exec nowMs C h _ :=
      .single .epoch (BitVec.not_lt.mp hint) (hO _ _ trivial trivial trivial)
    refine e.trans ?_
    simp only [Label.apply]
    generalize hh : ({ h with bandwidthThrottleEpoch := nowMs } : HostTask) = h₁
    have hall := allConnected_keysWhere h₁
    generalize h₁.keysWhere (fun p => decide (p.state = .connected)) = keys at *
    split
    · exact .refl
    · split
      · exact .refl
      · unfold throttlePeers
        extract_lets peerCount perPeer h₂ ib ob
        have h₂spec : Exec nowMs C h₁ h₂ ∧ AllConnected h₂ keys := by
          simp only [h₂]
          split
          · exact setWindows_exec perPeer (clamp_bounds _) hO keys h₁ keys (fun _ hk => hk) hall
          · exact ⟨.refl, hall⟩
        refine h₂spec.1.trans ?_
        split
        · exact .refl
        · exact sendLimits_exec ⟨ib, ob⟩ hO _ _ h₂spec.2

/-- **The tick**: every slot is served, then the bandwidth is adjusted once. -/
theorem serviceAll_exec {Q : HostTask → PeerKey → Packet → Prop}
    (hC : ∀ h k pkt h' l, Q h k pkt → SendMakes h k pkt h' l → C h' l)
    (hO : ∀ h l, l.Internal h → C h l) (hH : ∀ h k o, o.Handles → C h (.op k o))
    (hm : ServiceMeets Q nowMs h (h.keysWhere fun _ => true))
    (hs : h.serviceAll nowMs = some h') : Exec nowMs C h h' := by
  obtain ⟨h₁, hs₁, rfl⟩ := Option.map_eq_some_iff.mp hs
  exact (serviceEach_exec hC (fun h l ho _ => hO h l ho) hH _ _ _ hm hs₁).trans
    (bandwidthThrottle_exec fun h l ho _ _ => hO h l ho)

end HostTask

end EnetRs
