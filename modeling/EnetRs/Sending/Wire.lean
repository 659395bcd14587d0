/-
  EnetRs.Sending.Wire — what the task puts on the wire, command by command.

  A command that goes out is outstanding in the entry that sends it, or it is one
  of the kinds that nobody keeps track of: an ACK, an unreliable message in one
  piece or in fragments, an unsequenced packet.

  A `Permit` says which commands arrive, which untracked commands may go out,
  which entries may be installed, and whether packets may be numbered and entries
  removed.  Each function of the task keeps to the permit if the commands it
  answers and the packets it sends do.

  Main results:
    * `onDatagram_permitted`, `sendPacket_permitted`, `serviceAll_permitted` — the
      functions of the main loop.
    * `step_permitted` — one step.
    * `serviceOne_splits` — a tick that removes an entry numbers nothing in it.
-/
import EnetRs.Sending.Stored
import EnetRs.Safety.AddressMap
import EnetRs.Safety.Limits

namespace EnetRs

open MachineInt

/-! ## §1. Commands. -/

/-- The bytes are those of a well-formed command that meets `T`. -/
def Encodes (T : Command → Prop) (b : Bytes) : Prop :=
  ∃ cmd : Command, cmd.WellFormed ∧ T cmd ∧ cmd.write = b

/-- The same bytes encode a command under every weaker condition: the command is the
same one. -/
theorem Encodes.mono {T T' : Command → Prop} {b : Bytes} (hT : ∀ cmd, T cmd → T' cmd)
    (hb : Encodes T b) : Encodes T' b := by
  obtain ⟨cmd, hwf, hcmd, hw⟩ := hb
  exact ⟨cmd, hwf, hT cmd hcmd, hw⟩

namespace Command

/-- The command `HostTask::ack` builds. -/
def acknowledgement (ch : U8) (seq sentTime : U16) : Command :=
  ⟨⟨cmdAcknowledge ||| 0, ch, 0⟩, .acknowledge ⟨seq, sentTime⟩⟩

/-- The bare DISCONNECT of `send_raw_disconnect`. -/
def refusal : Command := ⟨⟨cmdDisconnect ||| 0, channelIdConnection, 0⟩, .disconnect 0⟩

/-- An unreliable message in one piece. -/
def unreliable (ch : U8) (rseq useq : U16) (data : Bytes) : Command :=
  ⟨⟨cmdSendUnreliable ||| 0, ch, rseq⟩, .sendUnreliable useq data⟩

/-- A fragment of an unreliable message. -/
def unreliableFragment (ch : U8) (rseq : U16) (sf : SendFragmentCmd) : Command :=
  ⟨⟨cmdSendUnreliableFragment ||| 0, ch, rseq⟩, .sendUnreliableFragment sf⟩

/-- An unsequenced packet. -/
def unsequenced (ch : U8) (group : U16) (data : Bytes) : Command :=
  ⟨⟨cmdSendUnsequenced ||| commandFlagUnsequenced, ch, 0⟩, .sendUnsequenced group data⟩

/-- An ACK is well formed whatever it acknowledges: its body has no payload whose
length could be cut off. -/
theorem acknowledgement_wellFormed (ch : U8) (seq sentTime : U16) :
    (acknowledgement ch seq sentTime).WellFormed :=
  ⟨(by decide : (cmdAcknowledge ||| 0) &&& commandMask = cmdAcknowledge), Nat.zero_lt_succ _⟩

theorem refusal_wellFormed : refusal.WellFormed := by decide

/-- An unreliable message in one piece is well formed once its length fits the 16
bits of the length field. -/
theorem unreliable_wellFormed (ch : U8) (rseq useq : U16) {data : Bytes}
    (hlen : data.length < 65536) : (unreliable ch rseq useq data).WellFormed :=
  ⟨(by decide : (cmdSendUnreliable ||| 0) &&& commandMask = cmdSendUnreliable), hlen⟩

/-- A fragment of an unreliable message is well formed once its own piece fits the 16
bits, however long the message is. -/
theorem unreliableFragment_wellFormed (ch : U8) (rseq : U16) {sf : SendFragmentCmd}
    (hlen : sf.data.length < 65536) : (unreliableFragment ch rseq sf).WellFormed :=
  ⟨(by decide : (cmdSendUnreliableFragment ||| 0) &&& commandMask = cmdSendUnreliableFragment),
    hlen⟩

/-- An unsequenced packet is well formed once its length fits the 16 bits; the flag
in the command byte leaves the type under the mask as it is. -/
theorem unsequenced_wellFormed (ch : U8) (group : U16) {data : Bytes}
    (hlen : data.length < 65536) : (unsequenced ch group data).WellFormed :=
  ⟨(by decide : (cmdSendUnsequenced ||| commandFlagUnsequenced) &&& commandMask
    = cmdSendUnsequenced), hlen⟩

end Command

/-- The untracked commands that the packet becomes meet `T`. -/
structure Packet.Becomes (T : Command → Prop) (pkt : Packet) : Prop where
  size : pkt.data.length ≤ maxPacketSize
  unreliable : pkt.mode = .unreliable → ∀ rseq useq,
    T (.unreliable pkt.channel rseq useq pkt.data)
  fragment : pkt.mode = .unreliable → ∀ rseq sf, T (.unreliableFragment pkt.channel rseq sf)
  unsequenced : pkt.mode = .unsequenced →
    pkt.data.length < 65536 ∧ ∀ group, T (.unsequenced pkt.channel group pkt.data)

/-- A reliable packet becomes tracked commands only, so `T` asks nothing of it: this
is how the drain, which sends reliable packets only, needs no permit for them. -/
theorem Packet.Becomes.of_reliable {T : Command → Prop} {pkt : Packet}
    (hmode : pkt.mode = .reliable) (hsize : pkt.data.length ≤ maxPacketSize) : pkt.Becomes T :=
  ⟨hsize, by simp [hmode], by simp [hmode], by simp [hmode]⟩

/-! ## §2. Permits. -/

/-- What the task hears and may do. -/
structure Permit where
  /-- The commands that arrive. -/
  heard : Command → Prop
  /-- The untracked commands that go out. -/
  untracked : Command → Prop
  /-- The entries that are installed. -/
  entry : HostTask → PeerKey → PeerEntry → Prop
  /-- Packets are queued or given numbers. -/
  numbers : Prop
  /-- Entries are removed. -/
  removes : Prop

/-- The operations with which a command arrives at an entry. -/
def PeerOp.Arrives : PeerOp → Prop
  | .recvPing | .recvReliable _ _ _ | .recvUnreliable _ _ _ _ | .recvFragment _ _ _
  | .recvUnsequenced _ _ | .recvBandwidthLimit _ | .recvThrottleConfigure _ | .ack _ _
  | .verify _ _ _ => True
  | _ => False

namespace Permit

/-- **What may be done.**  Every command of a batch is outstanding in the entry
that sends it, or untracked; what is created on the connection channel is a
control command; no packet is longer than MAX_PACKET_SIZE; what arrives was
heard. -/
def Allows (v : Permit) : Cond
  | h, .op k o =>
      match o with
      | .emit cmds => ∃ p, h.peer k = some p ∧ ∀ b ∈ cmds, p.Retains b ∨ Encodes v.untracked b
      | .connectionCmd cmdType body =>
          ∃ b : CommandBody, b.Control ∧ b.commandType = cmdType ∧ Command.writeBody b = body
      | .queue pkt | .numberWhole pkt | .numberFragments pkt _ =>
          v.numbers ∧ pkt.data.length ≤ maxPacketSize
      | o => o.Arrives → ∃ cmd, v.heard cmd ∧ cmd.Receives o
  | h, .install slot entry => v.entry h slot entry
  | _, .raw _ _ => v.untracked .refusal
  | _, .remove _ => v.removes
  | _, _ => True

/-- The answers to a command keep to the permit. -/
structure Answers (v : Permit) (src : SocketAddr) (nowMs : U32) (cmd : Command) : Prop where
  heard : v.heard cmd
  ack : cmd.header.hasAckFlag = true →
    ∀ st, v.untracked (.acknowledgement cmd.header.channelId cmd.header.reliableSeq st)
  connect : ∀ c, cmd.Connects c →
    (∀ st, v.untracked (.acknowledgement channelIdConnection cmd.header.reliableSeq st))
      ∧ v.untracked .refusal
      ∧ ∀ h slot, h.addrMap src = none →
        v.entry h slot (h.serverHandshake slot c cmd.header src nowMs).1

/-- The input keeps to the permit. -/
def Takes (v : Permit) (h : HostTask) (nowMs : U32) : Input → Prop
  | .datagram raw src =>
      ∀ a, h.acceptDatagram raw src = some a → ∀ cmd ∈ a.cmds, v.Answers src nowMs cmd
  | .send _ pkt => pkt.Becomes v.untracked
  | .connect addr channelCount data reply connectId =>
      ∀ slot, v.entry h slot
        (h.clientHandshake slot addr channelCount data nowMs reply connectId).1
  | _ => True

end Permit

/-- The invariants that the task relies on; every packet that waits is reliable and
no longer than MAX_PACKET_SIZE. -/
structure HostTask.Ready (h : HostTask) : Prop where
  owned : Owned h
  limited : h.AllLimited
  waiting : ∀ k p, h.peer k = some p →
    ∀ w ∈ p.pendingSend, w.mode = .reliable ∧ w.data.length ≤ maxPacketSize

namespace HostTask

variable {v : Permit} {nowMs : U32} {h h' : HostTask} {key : PeerKey}

theorem ready_new (acceptCapacity maxPeers : Nat) (useChecksum : Bool) (ib ob : U32) :
    (HostTask.new acceptCapacity maxPeers useChecksum ib ob).Ready :=
  ⟨Owned.new .., ⟨rfl, by simp⟩, by simp⟩

/-- **One action keeps the task ready.**  A packet that waits afterwards waited before
or was just queued; what is queued is reliable by the guard and short by the
permit.  A new entry has nothing waiting. -/
theorem Ready.label {l : Label} (hr : h.Ready) (hg : l.Guard nowMs h) (hl : v.Allows h l) :
    (l.apply nowMs h).Ready := by
  refine ⟨hr.owned.label hg, hr.limited.label hg, Label.entries (I := fun p => ∀ w ∈ p.pendingSend,
    w.mode = .reliable ∧ w.data.length ≤ maxPacketSize) hg (fun slot entry _ hn => ?_) ?_
    hr.waiting⟩
  · rcases hn with ⟨addr, count, data, reply, id, rfl⟩ | ⟨c, hdr, src, rfl⟩ <;> exact nofun
  · rintro k p o rfl hp hall hgo w hw
    rcases PeerOp.eq_queue_of_mem hw with hold | rfl
    · exact hall w hold
    · obtain ⟨c, hsend, -⟩ := hgo
      exact ⟨hsend.2.1, hl.2⟩

theorem Ready.exec (hr : h.Ready) (e : Exec nowMs v.Allows h h') : h'.Ready :=
  e.invariant Ready (fun _ _ hi hg hl => hi.label hg hl) hr

/-! ## §3. Batches. -/

theorem encodes_ack {T : Command → Prop} {ch : U8} {seq st : U16}
    (hT : T (.acknowledgement ch seq st)) : Encodes T (ack ch seq st) :=
  ⟨_, Command.acknowledgement_wellFormed ch seq st, hT, rfl⟩

/-- A batch may go out if each of its commands is outstanding in the entry that sends
it or is an untracked command of the permit. -/
theorem emitByKey_permitted (cmds : List Bytes)
    (hb : ∀ p, h.peer key = some p → ∀ b ∈ cmds, p.Retains b ∨ Encodes v.untracked b) :
    Exec nowMs v.Allows h (h.emitByKey key cmds nowMs) :=
  emitByKey_exec cmds fun p hp _ => ⟨p, hp, hb p hp⟩

/-- The same for a batch that is split over datagrams: between two of them the entry
changes in `last_send_time` only, so what was outstanding still is. -/
theorem flushBatch_permitted (cmds : List Bytes)
    (hb : ∀ p, h.peer key = some p → ∀ b ∈ cmds, p.Retains b ∨ Encodes v.untracked b) :
    Exec nowMs v.Allows h (h.flushBatch key cmds nowMs) := by
  refine flushBatch_exec cmds fun p h₁ batch hp hf => ?_
  obtain ⟨t, ht⟩ := hf.entry
  exact ⟨_, ht, fun b hmem => hb p hp b (hf.sub b hmem)⟩

/-- **What the tick does on its own is allowed**: what it sends is outstanding and what
it creates are control commands. -/
theorem allows_of_tracked {l : Label} (hi : l.Internal h) (ht : l.Tracked h) : v.Allows h l := by
  cases l with
  | op k o =>
      cases o with
      | emit cmds =>
          obtain ⟨p, hp, hout⟩ := ht
          exact ⟨p, hp, fun b hb => .inl (hout b hb)⟩
      | connectionCmd cmdType body => exact ht
      | notify data => exact ht.elim
      | beginDisconnect | retransmit | setWindow => exact False.elim
      | _ => exact hi.elim
  | remove k => exact ht.elim
  | install | raw | appAccept | appClose => exact hi.elim
  | _ => trivial

/-! ## §4. Incoming commands. -/

/-- DISCONNECT is answered by its ACK, if it asks for one, and by the removal of the
entry; nothing else goes out. -/
theorem onDisconnect_permitted (hrem : v.removes) (hdr : CommandHeader) (sentTime : Option U16)
    (data : U32)
    (hack : hdr.hasAckFlag = true →
      ∀ st, v.untracked (.acknowledgement hdr.channelId hdr.reliableSeq st)) :
    Exec nowMs v.Allows h (h.onDisconnect key hdr sentTime data nowMs) := by
  unfold onDisconnect
  split
  · exact .refl
  · refine Exec.trans ?_ (notify_remove_exec (some data) False.elim fun _ _ => hrem)
    split
    · next st hflag =>
      refine emitByKey_permitted _ fun p _ b hb => .inr ?_
      rw [List.mem_singleton.mp hb]
      exact encodes_ack (hack hflag st)
    · exact .refl

/-- The VERIFY_CONNECT is outstanding in the entry that `on_connect` builds. -/
theorem serverHandshake_retains (h : HostTask) (slot : PeerKey) (c : ConnectCmd)
    (hdr : CommandHeader) (src : SocketAddr) (nowMs : U32) :
    (h.serverHandshake slot c hdr src nowMs).1.Retains
      (h.serverHandshake slot c hdr src nowMs).2 :=
  ⟨_, _, Std.ExtTreeMap.getElem?_insert_self, rfl⟩

/-- The CONNECT is outstanding in the entry that `begin_connect` builds. -/
theorem clientHandshake_retains (h : HostTask) (slot : PeerKey) (addr : SocketAddr)
    (channelCount : U8) (userData nowMs : U32) (reply : ConnectReplySender) (connectId : U32) :
    (h.clientHandshake slot addr channelCount userData nowMs reply connectId).1.Retains
      (h.clientHandshake slot addr channelCount userData nowMs reply connectId).2 :=
  ⟨_, _, Std.ExtTreeMap.getElem?_insert_self, rfl⟩

/-- CONNECT evicts the old entry of the address, so the new one is installed at an
address that no entry has.  The reply is the ACK and the VERIFY_CONNECT that the
new entry keeps; where no slot is free it is the bare DISCONNECT. -/
theorem onConnect_permitted (hrem : v.removes) (hr : h.Ready) {cmd : Command} {c : ConnectCmd}
    (hc : cmd.Connects c)
    (sentTime : Option U16) {src : SocketAddr} (hcmd : v.Answers src nowMs cmd) :
    Exec nowMs v.Allows h (h.onConnect c cmd.header sentTime src nowMs) := by
  obtain ⟨hack, hraw, hnew⟩ := hcmd.connect c hc
  unfold onConnect
  refine (evictAddr_exec src (fun _ _ _ _ => False.elim) fun _ _ _ => hrem).trans ?_
  -- the eviction is what makes the address free for the entry that follows
  have hfree := addrMap_evictAddr hr.owned src
  generalize h.evictAddr src = h₁ at hfree ⊢
  simp only
  cases hs : h₁.allocSlot with
  | none => exact .single (.raw c src) hs hraw
  | some slot =>
      simp only
      have e₁ : Exec nowMs v.Allows h₁ _ :=
        .single (.install slot (h₁.serverHandshake slot c cmd.header src nowMs).1)
          ⟨hs, .inr ⟨c, cmd.header, src, rfl⟩⟩ (hnew h₁ slot hfree)
      refine e₁.trans (emitByKey_permitted _ fun p hp b hb => ?_)
      have hslot : (h₁.install slot (h₁.serverHandshake slot c cmd.header src nowMs).1).peer slot
          = some (h₁.serverHandshake slot c cmd.header src nowMs).1 := by
        rw [peer_install hs, if_pos rfl]
      cases hslot.symm.trans hp
      rcases List.mem_append.mp hb with hb | hb
      · obtain ⟨st, -, rfl⟩ := Option.map_eq_some_iff.mp (Option.mem_toList.mp hb)
        exact .inr (encodes_ack (hack st))
      · rw [List.mem_singleton.mp hb]
        exact .inl (h₁.serverHandshake_retains slot c cmd.header src nowMs)

/-- **One command.**  The handlers that write into an entry do so with what the
command brought; only CONNECT and DISCONNECT send something themselves, and the
ACK of the others is collected by the loop. -/
theorem dispatch_permitted (hrem : v.removes) (hr : h.Ready) (key : Option PeerKey)
    (sentTime : Option U16) (cmd : Command) (src : SocketAddr) (hcmd : v.Answers src nowMs cmd) :
    Exec nowMs v.Allows h (h.dispatch key sentTime cmd src nowMs) := by
  have hin : ∀ {o : PeerOp}, cmd.Receives o → o.Arrives → ∃ cmd, v.heard cmd ∧ cmd.Receives o :=
    fun ho _ => ⟨cmd, hcmd.heard, ho⟩
  obtain ⟨f, hf, heq⟩ := dispatch_handled key sentTime cmd src nowMs
  rw [heq]
  -- one case per handler: which of them runs is settled by `dispatch_handled`
  cases hf with
  | ignored => exact .refl
  | connect c hty hb => exact onConnect_permitted hrem hr ⟨hty, hb⟩ sentTime hcmd
  | verifyConnect k vc hk hty hb =>
      exact onVerifyConnect_exec vc cmd.header
        (hin (o := .verify h.hostMtu vc cmd.header) ⟨hty, hb, rfl⟩)
  | ack k a hk hty hb =>
      exact onAck_exec _ a (hin (o := .ack cmd.header.channelId a) ⟨hty, hb, rfl⟩)
        (fun _ _ => False.elim) (fun _ => False.elim)
        fun _ => hrem
  | disconnect k data hk hty hb => exact onDisconnect_permitted hrem _ _ _ hcmd.ack
  | ping k hk hty =>
      exact updatePeer_exec .recvPing (hin hty) (fun _ _ => trivial) (fun _ => rfl) rfl
  | reliable k data hk hty hb =>
      exact (updatePeer_exec (.recvReliable _ _ data)
        (hin (o := .recvReliable cmd.header.channelId _ data) ⟨hty, hb, rfl, rfl⟩)
        (fun _ _ => trivial) (fun _ => rfl) rfl).trans (noteTake_exec h _ _ _ fun _ => False.elim)
  | unreliable k useq data hk hty hb =>
      exact updatePeer_exec (.recvUnreliable _ _ useq data) (hin ⟨hty, hb, rfl, rfl⟩)
        (fun _ _ => trivial) (fun _ => rfl) rfl
  | fragment k sf hk hty hb =>
      exact (updatePeer_exec (.recvFragment _ sf true)
        (hin (o := .recvFragment cmd.header.channelId sf true) ⟨hty, hb, rfl⟩) (fun _ _ => trivial)
        (fun _ => rfl) rfl).trans (noteTake_exec h _ _ _ fun _ => False.elim)
  | unreliableFragment k sf hk hty hb =>
      exact updatePeer_exec (.recvFragment _ sf false) (hin ⟨hty, hb, rfl⟩) (fun _ _ => trivial)
        (fun _ => rfl) rfl
  | unsequenced k group data hk hty hb =>
      exact updatePeer_exec (.recvUnsequenced group data) (hin ⟨hty, hb⟩) (fun _ _ => trivial)
        (fun _ => rfl) rfl
  | bandwidthLimit k bl hk hty hb =>
      exact updatePeer_exec (.recvBandwidthLimit bl) (hin ⟨hty, hb⟩) (fun _ _ => trivial)
        (fun _ => rfl) rfl
  | throttleConfigure k tc hk hty hb =>
      exact updatePeer_exec (.recvThrottleConfigure tc) (hin ⟨hty, hb⟩) (fun _ _ => trivial)
        (fun _ => rfl) rfl

/-- The ACK that the loop collects for a command is an untracked command of the
permit, because the answers to the command are. -/
theorem ackFor_encodes (key : Option PeerKey) (sentTime : Option U16) {cmd : Command}
    {src : SocketAddr} (hcmd : v.Answers src nowMs cmd) :
    ∀ b ∈ ackFor key sentTime cmd.header, Encodes v.untracked b := by
  intro b hb
  unfold ackFor at hb
  split at hb
  · next hflag =>
    split at hb
    · rw [List.mem_singleton.mp hb]
      exact encodes_ack (hcmd.ack hflag.1 _)
    · cases hb
  · cases hb

/-- The command loop, by induction on the commands: the actions keep to the permit,
and every ACK collected on the way, which goes out after the loop, is allowed. -/
theorem onCommands_permitted (hrem : v.removes) (key : Option PeerKey) (sentTime : Option U16)
    (src : SocketAddr) :
    ∀ (cmds : List Command) (h : HostTask) (acks : List Bytes), h.Ready →
      (∀ cmd ∈ cmds, v.Answers src nowMs cmd) → (∀ b ∈ acks, Encodes v.untracked b) →
      Exec nowMs v.Allows h (onCommands key sentTime src nowMs h cmds acks).1
        ∧ ∀ b ∈ (onCommands key sentTime src nowMs h cmds acks).2, Encodes v.untracked b := by
  intro cmds
  induction cmds with
  | nil => exact fun h acks _ _ hacks => ⟨.refl, hacks⟩
  | cons cmd cmds ih =>
      intro h acks hr hall hacks
      have hcmd := hall cmd List.mem_cons_self
      have e₁ := dispatch_permitted hrem hr key sentTime cmd src hcmd
      obtain ⟨e, hb⟩ := ih (h.dispatch key sentTime cmd src nowMs)
        (acks ++ ackFor key sentTime cmd.header) (hr.exec e₁)
        (fun c hc => hall c (List.mem_cons_of_mem _ hc)) fun b hb =>
          (List.mem_append.mp hb).elim (hacks b) (ackFor_encodes key sentTime hcmd b)
      exact ⟨e₁.trans e, hb⟩

/-- **One datagram.**  If the answers to its commands keep to the permit, so does the
whole of `on_datagram`: the command loop and then the batch of ACKs. -/
theorem onDatagram_permitted (hrem : v.removes) (hr : h.Ready) (raw : Bytes) (src : SocketAddr)
    (hall : ∀ a, h.acceptDatagram raw src = some a → ∀ cmd ∈ a.cmds, v.Answers src nowMs cmd) :
    Exec nowMs v.Allows h (h.onDatagram raw src nowMs) := by
  unfold onDatagram
  cases ha : h.acceptDatagram raw src with
  | none => exact .refl
  | some a =>
      simp only
      obtain ⟨e, hacks⟩ := onCommands_permitted hrem a.key a.sentTime src a.cmds h [] hr
        (hall a ha) (by simp)
      refine e.trans ?_
      unfold flushAcks
      split
      · exact .refl
      · split
        · exact flushBatch_permitted _ fun _ _ b hb => .inr (hacks b hb)
        · exact .refl

/-! ## §5. Packets. -/

section Packets

variable {p : PeerEntry} {pkt : Packet} (hp : h.peer key = some p) (hst : p.state = .connected)

include hp hst

/-- A reliable packet waits, or its command or fragments are stored before they are
sent: what goes out is outstanding in the entry at that moment. -/
theorem sendReliable_permitted (hnum : v.numbers) (hr : h.Ready) (hmode : pkt.mode = .reliable)
    (hsize : pkt.data.length ≤ maxPacketSize) :
    Exec nowMs v.Allows h (h.sendReliable key p pkt nowMs) := by
  have hrange := (hr.limited.2 key p hp).toInRange
  unfold sendReliable
  cases hc : p.channels[pkt.channel.toNat]? with
  | none => exact .refl
  | some c =>
      have hsend : PeerOp.Sendable p pkt c := ⟨hst, hmode, hc⟩
      simp only
      cases hw : p.windowOpen pkt.channel c with
      | false => exact .op (.queue pkt) hp ⟨c, hsend, hw⟩ ⟨hnum, hsize⟩ rfl rfl
      | true =>
          simp only [Bool.not_true, Bool.false_eq_true, if_false]
          split
          · next hlen =>
            have e : Exec nowMs v.Allows h _ :=
              .op (.numberWhole pkt) hp ⟨c, hsend, hw, hlen⟩ ⟨hnum, hsize⟩ rfl rfl
            refine e.trans (emitByKey_permitted _ fun q hq b hb => .inl ?_)
            cases (peer_setPeer_self (lt_of_peer_eq_some hp)).symm.trans hq
            rw [List.mem_singleton.mp hb]
            exact PeerEntry.numberWhole_retains p pkt nowMs
          · next hlen =>
            have e : Exec nowMs v.Allows h _ :=
              .op (.numberFragments pkt (fragPayload p.mtu.toNat h.useChecksum)) hp
                ⟨c, hsend, hw, Nat.lt_of_not_le hlen, rfl⟩ ⟨hnum, hsize⟩ rfl rfl
            refine e.trans (flushBatch_permitted _ fun q hq b hb => .inl ?_)
            cases (peer_setPeer_self (lt_of_peer_eq_some hp)).symm.trans hq
            exact PeerEntry.numberFragments_retains hc nowMs
              (PeerEntry.fragCount_pos_of_big hrange (Nat.lt_of_not_le hlen))
              (PeerEntry.fragCount_le_of_size hrange h.useChecksum hsize) b hb

/-- An unreliable packet goes out untracked, whole or in fragments.  Each piece is
shorter than the MTU, so it is well formed. -/
theorem sendUnreliable_permitted (hr : h.Ready) (hmode : pkt.mode = .unreliable)
    (hpkt : pkt.Becomes v.untracked) (hs : h.sendUnreliable key p pkt nowMs = some h') :
    Exec nowMs v.Allows h h' := by
  have hmtu : p.mtu.toNat ≤ 1392 := by
    have hle := (hr.limited.2 key p hp).mtu_le
    rw [hr.limited.1] at hle
    exact hle
  unfold sendUnreliable at hs
  cases hc : p.channels[pkt.channel.toNat]? with
  | none => simp [hc] at hs
  | some c =>
      have e : Exec nowMs v.Allows h _ :=
        .op (.nextUnreliable pkt.channel c) hp ⟨hst, hc⟩ False.elim rfl rfl
      simp only [hc] at hs
      split at hs
      · next hlen =>
        cases hs
        refine e.trans (emitByKey_permitted _ fun q _ b hb => .inr ?_)
        rw [List.mem_singleton.mp hb]
        refine ⟨.unreliable pkt.channel _ _ pkt.data, Command.unreliable_wellFormed _ _ _ ?_,
          hpkt.unreliable hmode _ _, rfl⟩
        unfold maxUnreliablePayload at hlen
        omega
      · cases hs
        refine e.trans (flushBatch_permitted _ fun q _ b hb => .inr ?_)
        obtain ⟨i, -, rfl⟩ := List.mem_map.mp hb
        refine ⟨.unreliableFragment pkt.channel _ _, Command.unreliableFragment_wellFormed _ _ ?_,
          hpkt.fragment hmode _ _, rfl⟩
        show ((pkt.data.drop _).take _).length < 65536
        rw [List.length_take]
        unfold fragPayload
        omega

/-- An unsequenced packet goes out untracked in one command, also on a channel the
entry does not have, where no counter moves. -/
theorem sendUnsequenced_permitted (hmode : pkt.mode = .unsequenced)
    (hpkt : pkt.Becomes v.untracked) :
    Exec nowMs v.Allows h (h.sendUnsequenced key p pkt nowMs) := by
  obtain ⟨hlen, hT⟩ := hpkt.unsequenced hmode
  have hcmd : ∀ group : U16, Encodes v.untracked (encodeCommand cmdSendUnsequenced
      commandFlagUnsequenced pkt.channel 0
      (be16 group ++ be16 (BitVec.ofNat 16 pkt.data.length) ++ pkt.data)) :=
    fun group => ⟨_, Command.unsequenced_wellFormed pkt.channel group hlen, hT group, rfl⟩
  unfold sendUnsequenced
  cases hc : p.channels[pkt.channel.toNat]? with
  | none =>
      simp only [setPeer_self hp]
      refine emitByKey_permitted _ fun q _ b hb => .inr ?_
      rw [List.mem_singleton.mp hb]
      exact hcmd _
  | some c =>
      have e : Exec nowMs v.Allows h _ :=
        .op (.nextUnsequenced pkt.channel c) hp ⟨hst, hc⟩ False.elim rfl rfl
      refine e.trans (emitByKey_permitted _ fun q _ b hb => .inr ?_)
      rw [List.mem_singleton.mp hb]
      exact hcmd _

end Packets

/-- **One packet**: a peer that is gone or not connected sends nothing, and each of
the three modes keeps to the permit. -/
theorem sendPacket_permitted (hnum : v.numbers) (hr : h.Ready) {pkt : Packet}
    (hpkt : pkt.Becomes v.untracked)
    (hs : h.sendPacket key pkt nowMs = some h') : Exec nowMs v.Allows h h' := by
  unfold sendPacket at hs
  cases hp : h.peer key with
  | none =>
      simp only [hp] at hs
      cases hs
      exact .refl
  | some p =>
      simp only [hp] at hs
      split at hs
      · cases hs
        exact .refl
      · next hst =>
        rw [ne_eq, not_not] at hst
        cases hmode : pkt.mode with
        | reliable =>
            simp only [hmode] at hs
            cases hs
            exact sendReliable_permitted hp hst hnum hr hmode hpkt.size
        | unreliable =>
            simp only [hmode] at hs
            exact sendUnreliable_permitted hp hst hr hmode hpkt hs
        | unsequenced =>
            simp only [hmode] at hs
            cases hs
            exact sendUnsequenced_permitted hp hst hmode hpkt

/-- The packets of a drain, by induction on them.  They are reliable, so they need no
permit of their own, and the task stays ready from one to the next. -/
theorem sendAll_permitted (hnum : v.numbers) :
    ∀ (pkts : List Packet) (h h' : HostTask), h.Ready →
      (∀ w ∈ pkts, w.mode = .reliable ∧ w.data.length ≤ maxPacketSize) →
      sendAll key nowMs h pkts = some h' → Exec nowMs v.Allows h h' := by
  intro pkts
  induction pkts with
  | nil =>
      intro h h' _ _ hs
      cases hs
      exact .refl
  | cons pkt pkts ih =>
      intro h h' hr hall hs
      obtain ⟨h₁, hs₁, hs⟩ := Option.bind_eq_some_iff.mp hs
      obtain ⟨hmode, hsize⟩ := hall pkt List.mem_cons_self
      have e : Exec nowMs v.Allows h h₁ :=
        sendPacket_permitted hnum hr (.of_reliable hmode hsize) hs₁
      exact e.trans (ih h₁ h' (hr.exec e) (fun w hw => hall w (List.mem_cons_of_mem _ hw)) hs)

/-! ## §6. Disconnects and the tick. -/

/-- The request to disconnect acts in Connecting and Connected only: it waits for the
outstanding commands or sends DISCONNECT at once. -/
theorem sendDisconnect_permitted (data : U32) :
    Exec nowMs v.Allows h (h.sendDisconnect key data nowMs) :=
  sendDisconnect_exec data (fun _ _ hi _ ht => allows_of_tracked hi ht) False.elim False.elim

/-- What `service_one` does before the drain: it removes the entry, or goes on
without removing anything. -/
theorem serviceChecks_permitted {p : PeerEntry} (hp : h.peer key = some p)
    (hrem : (h.serviceChecks key p nowMs).2 = false → v.removes) :
    Exec nowMs v.Allows h (h.serviceChecks key p nowMs).1 :=
  serviceChecks_exec hp (fun _ _ hi _ ht => allows_of_tracked hi ht)
    fun hstop _ => ⟨False.elim, hrem hstop⟩

/-- The drain empties `pending_send` and sends what was there, which is reliable and
short because the task is ready. -/
theorem drainPending_permitted (hnum : v.numbers) (hr : h.Ready)
    (hs : h.drainPending key nowMs = some h') :
    Exec nowMs v.Allows h h' := by
  unfold drainPending at hs
  cases hp : h.peer key with
  | none =>
      simp only [hp] at hs
      cases hs
      exact .refl
  | some p =>
      simp only [hp] at hs
      have e : Exec nowMs v.Allows h _ := .op .clearPending hp trivial False.elim rfl rfl
      exact e.trans (sendAll_permitted hnum _ _ _ (hr.exec e) (hr.waiting key p hp) hs)

/-- **A tick that removes an entry numbers nothing in it**, and one that numbers
removes nothing. -/
theorem serviceOne_splits (hr : h.Ready) (hs : h.serviceOne key nowMs = some h') :
    (∀ v : Permit, v.removes → Exec nowMs v.Allows h h')
      ∨ ∀ v : Permit, v.numbers → Exec nowMs v.Allows h h' := by
  unfold serviceOne at hs
  cases hp : h.peer key with
  | none =>
      simp only [hp] at hs
      cases hs
      exact .inl fun _ _ => .refl
  | some p =>
      simp only [hp] at hs
      cases hgo : (h.serviceChecks key p nowMs).2 with
      | false =>
          rw [if_neg (by rw [hgo]; exact Bool.false_ne_true)] at hs
          cases hs
          exact .inl fun v hrem => serviceChecks_permitted hp fun _ => hrem
      | true =>
          rw [if_pos hgo] at hs
          refine .inr fun v hnum => ?_
          have e : Exec nowMs v.Allows h _ :=
            serviceChecks_permitted hp fun hstop => absurd (hgo.symm.trans hstop) (by decide)
          exact e.trans (drainPending_permitted hnum (hr.exec e) hs)

theorem serviceOne_permitted (hnum : v.numbers) (hrem : v.removes) (hr : h.Ready)
    (hs : h.serviceOne key nowMs = some h') : Exec nowMs v.Allows h h' := by
  rcases serviceOne_splits hr hs with e | e
  · exact e v hrem
  · exact e v hnum

/-- The ticks of all peers, by induction on the keys; a key whose peer was removed in
the meantime is skipped. -/
theorem serviceEach_permitted (hnum : v.numbers) (hrem : v.removes) :
    ∀ (keys : List PeerKey) (h h' : HostTask), h.Ready → serviceEach nowMs h keys = some h' →
      Exec nowMs v.Allows h h' := by
  intro keys
  induction keys with
  | nil =>
      intro h h' _ hs
      cases hs
      exact .refl
  | cons key keys ih =>
      intro h h' hr hs
      obtain ⟨h₁, hs₁, hs⟩ := Option.bind_eq_some_iff.mp hs
      have e : Exec nowMs v.Allows h h₁ := serviceOne_permitted hnum hrem hr hs₁
      exact e.trans (ih h₁ h' (hr.exec e) hs)

/-- The bandwidth throttle sends BANDWIDTH_LIMIT only, and that as a tracked command,
so it keeps to every permit. -/
theorem bandwidthThrottle_permitted : Exec nowMs v.Allows h (h.bandwidthThrottle nowMs) :=
  bandwidthThrottle_exec fun _ _ hi _ ht => allows_of_tracked hi ht

/-- **The tick**: every peer in turn and then the bandwidth throttle. -/
theorem serviceAll_permitted (hnum : v.numbers) (hrem : v.removes) (hr : h.Ready)
    (hs : h.serviceAll nowMs = some h') :
    Exec nowMs v.Allows h h' := by
  obtain ⟨h₁, hs₁, rfl⟩ := Option.map_eq_some_iff.mp hs
  exact (serviceEach_permitted hnum hrem _ _ _ hr hs₁).trans bandwidthThrottle_permitted

/-! ## §7. One step. -/

/-- Opening a connection installs the new entry, if a slot is free, and sends the
CONNECT that the entry keeps. -/
theorem connect_permitted (addr : SocketAddr) (channelCount : U8) (data : U32)
    (reply : ConnectReplySender) (connectId : U32)
    (hnew : ∀ slot, v.entry h slot
      (h.clientHandshake slot addr channelCount data nowMs reply connectId).1)
    (hs : h.step nowMs (.connect addr channelCount data reply connectId) = some h') :
    Exec nowMs v.Allows h h' :=
  connect_exec addr channelCount data reply connectId
    (fun _ _ hi _ _ ht => allows_of_tracked hi ht) hnew hs

/-- **One step** keeps to the permit if its input does.  The inputs of the application
that only read from a queue or drop it send nothing. -/
theorem step_permitted (hnum : v.numbers) (hrem : v.removes) (hr : h.Ready) {i : Input}
    (hi : v.Takes h nowMs i)
    (hs : h.step nowMs i = some h') : Exec nowMs v.Allows h h' := by
  cases i with
  | datagram raw src =>
      cases hs
      exact onDatagram_permitted hrem hr raw src hi
  | send key pkt =>
      have e : Exec nowMs v.Allows h (h.noteSubmit key pkt) := noteSubmit_exec pkt False.elim
      exact e.trans (sendPacket_permitted hnum (hr.exec e) hi hs)
  | disconnect key data =>
      cases hs
      exact sendDisconnect_permitted data
  | connect addr channelCount data reply connectId =>
      exact connect_permitted addr channelCount data reply connectId hi hs
  | tick => exact serviceAll_permitted hnum hrem hr hs
  | appRecv key =>
      cases hs
      exact updatePeer_exec .appRecv False.elim (fun _ _ => trivial) (fun _ => rfl) rfl
  | appDrop key =>
      cases hs
      exact updatePeer_exec .appDrop False.elim (fun _ _ => trivial) (fun _ => rfl) rfl
  | appAccept =>
      cases hs
      exact .single .appAccept trivial trivial
  | appClose =>
      cases hs
      exact .single .appClose trivial trivial

end HostTask

end EnetRs
