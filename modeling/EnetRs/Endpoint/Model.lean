/-
  EnetRs.Endpoint.Model — the handles of the application (`src/peer.rs`,
  `src/lib.rs`) and the task behind them.

  The application holds a `Host`, and for each connection a `PeerSender` and a
  `PeerReceiver`.  Messages to the task go through one bounded queue; packets come
  back through one delivery channel per connection, which outlives the entry at the
  other end.  The task ends when every sender of the queue is gone and the queue is
  empty, or when it panics.

  Three components of the state are ghosts: what was read from each connection,
  which connections were asked to disconnect, and to whom a `PeerSender` belongs.

  When the `Host` or a waiting `connect` call is dropped, the receivers that are on
  their way to it go with it.  Nobody would have read those channels any more, so the
  model leaves them open.

  Main results:
    * `Endpoint.does_of_step` — what one action does.
    * `Endpoint.run_reachable` — behind the handles runs the task as modelled so far.
-/
import EnetRs.Endpoint.Turn
import EnetRs.Reassembly.Handover

namespace EnetRs

open MachineInt

/-! ## §1. Connections and their slots. -/

/-- The notice that an event is for a connection. -/
def Event.noticeTo (c : Receiver) : Event → Option (Option U32)
  | .disconnected conn data _ => if conn = c then some data else none
  | _ => none

/-- The entry with some notices in its delivery channel. -/
def PeerEntry.told (p : PeerEntry) (notices : List (Option U32)) : PeerEntry :=
  { p with toUser := notices.foldl (fun tx data => tx.trySend (.error data)) p.toUser }

namespace HostTask

variable {h h' : HostTask} {c : Receiver} {k : PeerKey} {p : PeerEntry}

/-- The slot of the entry with this delivery channel. -/
def slotOf (h : HostTask) (c : Receiver) : Option PeerKey :=
  h.peers.findIdx? fun e => e.any fun p => decide (p.conn = c)

/-- The entry with this delivery channel. -/
def ofConn (h : HostTask) (c : Receiver) : Option PeerEntry := (h.slotOf c).bind h.peer

theorem slotOf_eq_some_iff (ho : Owned h) :
    h.slotOf c = some k ↔ ∃ p, h.peer k = some p ∧ p.conn = c := by
  have hat : ∀ {j : PeerKey} (hj : j < h.peers.length),
      (h.peers[j].any fun p => decide (p.conn = c)) = true
        ↔ ∃ p, h.peer j = some p ∧ p.conn = c := by
    intro j hj
    simp [peer, hj, Option.any_eq_true]
  have hto : ∀ {j : PeerKey}, h.slotOf c = some j → ∃ p, h.peer j = some p ∧ p.conn = c := by
    intro j hs
    obtain ⟨hlt, hj, -⟩ := List.findIdx?_eq_some_iff_getElem.mp hs
    exact (hat hlt).mp hj
  refine ⟨hto, ?_⟩
  rintro ⟨p, hp, hc⟩
  have hlt := lt_of_peer_eq_some hp
  cases hs : h.slotOf c with
  | none =>
      have hno := List.findIdx?_eq_none_iff.mp hs _ (List.getElem_mem hlt)
      rw [(hat hlt).mpr ⟨p, hp, hc⟩] at hno
      cases hno
  | some j =>
      obtain ⟨q, hq, hqc⟩ := hto hs
      rw [ho.inj j k q p hq hp (hqc.trans hc.symm)]

theorem ofConn_eq_some_iff (ho : Owned h) :
    h.ofConn c = some p ↔ ∃ k, h.peer k = some p ∧ p.conn = c := by
  unfold ofConn
  rw [Option.bind_eq_some_iff]
  constructor
  · rintro ⟨k, hs, hp⟩
    obtain ⟨q, hq, hc⟩ := (slotOf_eq_some_iff ho).mp hs
    cases hq.symm.trans hp
    exact ⟨k, hp, hc⟩
  · rintro ⟨k, hp, hc⟩
    exact ⟨k, (slotOf_eq_some_iff ho).mpr ⟨p, hp, hc⟩, hp⟩

theorem ofConn_eq_none_iff (ho : Owned h) :
    h.ofConn c = none ↔ ∀ k p, h.peer k = some p → p.conn ≠ c := by
  rw [Option.eq_none_iff_forall_ne_some]
  constructor
  · exact fun hno k p hp hc => hno p ((ofConn_eq_some_iff ho).mpr ⟨k, hp, hc⟩)
  · intro hno p hp
    obtain ⟨k, hp, hc⟩ := (ofConn_eq_some_iff ho).mp hp
    exact hno k p hp hc

/-! ## §2. What a removed entry leaves behind. -/

/-- The notices of its end that a connection was sent. -/
def notices (h : HostTask) (c : Receiver) : List (Option U32) :=
  h.trace.filterMap (Event.noticeTo c)

/-- What is left of a connection that was there before a turn and is not any more:
the entry as it was, with the notice it was sent. -/
def leaves (h h' : HostTask) (c : Receiver) : Option PeerEntry :=
  match h.ofConn c, h'.ofConn c with
  | some p, none => some (p.told ((h'.notices c).drop (h.notices c).length))
  | _, _ => none

/-- The removed entries after some more turns. -/
def departures (departed : Receiver → Option PeerEntry) :
    HostTask → List HostTask → Receiver → Option PeerEntry
  | _, [] => departed
  | h, h' :: rest => departures (fun c => (departed c).or (h.leaves h' c)) h' rest

/-- The answer that a `Host::connect` call got. -/
def answer (h : HostTask) (reply : ConnectReplySender) : Option (PeerKey × Receiver) :=
  h.trace.findSome? fun
    | .connected reply' key conn => if reply' = reply then some (key, conn) else none
    | _ => none

end HostTask

/-! ## §3. Handles and messages. -/

/-- `Error`, as far as the handles of a connection return it. -/
inductive Error where
  | disconnected (data : Option U32)
  | channelClosed
  deriving DecidableEq, Repr

/-- What `Peer::recv` makes of a message. -/
def PeerMsg.received (msg : PeerMsg) : Except Error Packet := msg.mapError .disconnected

/-- `ToTask`. -/
inductive ToTask where
  | send (peerKey : PeerKey) (packet : Packet)
  | disconnect (peerKey : PeerKey) (data : U32)
  | connect (addr : SocketAddr) (channelCount : U8) (data : U32) (reply : ConnectReplySender)
  deriving DecidableEq, Repr

/-- The message as an input of the main loop; the id of a new connection is drawn
when the message is processed. -/
def ToTask.input (connectId : U32) : ToTask → Input
  | send peerKey packet => .send peerKey packet
  | disconnect peerKey data => .disconnect peerKey data
  | connect addr channelCount data reply => .connect addr channelCount data reply connectId

/-- `PeerSender`. -/
structure PeerSender where
  key : PeerKey
  /-- Ghost: the connection it was made for. -/
  conn : Receiver
  deriving DecidableEq, Repr

/-! ## §4. The endpoint. -/

/-- The task and the handles. -/
structure Endpoint where
  task : HostTask
  running : Bool
  /-- `task_tx` and `user_rx`. -/
  messages : Mpsc ToTask
  /-- The `Host` is alive. -/
  host : Bool
  /-- The `Host::connect` call that waits for its reply. -/
  waiting : Option ConnectReplySender
  senders : List PeerSender
  /-- The `PeerReceiver`s, by their channels. -/
  receivers : List Receiver
  /-- The entries that the task has dropped, for what is left in their channels. -/
  departed : Receiver → Option PeerEntry
  /-- Ghost: what the application got from each connection. -/
  read : Receiver → List (Except Error Packet)
  /-- Ghost: the connections for which a `ToTask::Disconnect` was queued. -/
  asked : List Receiver

/-- What happens at an endpoint. -/
inductive Action where
  /-- `socket.recv_from`. -/
  | datagram (raw : Bytes) (src : SocketAddr)
  | tick
  /-- `user_rx.recv()` yields a message. -/
  | message (connectId : U32)
  /-- `user_rx.recv()` yields `None`. -/
  | stop
  /-- `Host::accept`. -/
  | accept
  /-- The reply reaches `connect_with_timeout`. -/
  | connected
  /-- `connect_with_timeout` gives up. -/
  | timeout
  /-- `PeerSender::send_packet`, or `poll_ready` and `start_send`. -/
  | sendPacket (s : PeerSender) (pkt : Packet)
  /-- `PeerSender::disconnect`. -/
  | disconnect (s : PeerSender) (data : U32)
  | dropSender (s : PeerSender)
  /-- `Peer::recv`, or `poll_next` of the receiver. -/
  | recv (c : Receiver)
  | dropReceiver (c : Receiver)
  | dropHost
  deriving DecidableEq, Repr

namespace Endpoint

/-- `Host::bind`. -/
def bind (maxPeers : Nat) (useChecksum : Bool) (incomingBandwidth outgoingBandwidth : U32) :
    Endpoint :=
  { task := HostTask.bind maxPeers useChecksum incomingBandwidth outgoingBandwidth
    running := true
    messages := Mpsc.new 0 1024
    host := true
    waiting := none
    senders := []
    receivers := []
    departed := fun _ => none
    read := fun _ => []
    asked := [] }

/-- `Host::connect_with_timeout`, once it has sent its message. -/
def connect (addr : SocketAddr) (channelCount : U8) (reply : ConnectReplySender) : Endpoint :=
  { task := HostTask.new 1 1 false 0 0
    running := true
    messages := (Mpsc.new 0 1024).trySend (.connect addr channelCount 0 reply)
    host := false
    waiting := some reply
    senders := []
    receivers := []
    departed := fun _ => none
    read := fun _ => []
    asked := [] }

/-- The task is gone: the sending halves of all delivery channels are dropped, and so
is the receiving half of the message queue. -/
def halt (e : Endpoint) : Endpoint :=
  { e with
    running := false
    departed := fun c => (e.departed c).or (e.task.ofConn c)
    messages := e.messages.close }

/-- One step of the task, which may panic. -/
def turn (e : Endpoint) (nowMs : U32) (i : Input) : Endpoint :=
  match e.task.step nowMs i with
  | some h' =>
      { e with
        task := h'
        departed := HostTask.departures e.departed e.task (e.task.stages nowMs i ++ [h']) }
  | none =>
      halt { e with
        task := (e.task.stages nowMs i).getLast?.getD e.task
        departed := HostTask.departures e.departed e.task (e.task.stages nowMs i) }

/-- Somebody can still send messages to the task. -/
def hasSenders (e : Endpoint) : Bool := e.host || !e.senders.isEmpty || e.waiting.isSome

/-- `task_tx.send(msg).await`: waits for room; fails if the task is gone. -/
def post (e : Endpoint) (msg : ToTask) : Option Endpoint :=
  if e.messages.closed then some e
  else if e.messages.hasRoom then some { e with messages := e.messages.trySend msg }
  else none

/-- A `Peer` for the application. -/
def handOver (e : Endpoint) (key : PeerKey) (rx : Receiver) : Endpoint :=
  { e with senders := e.senders ++ [⟨key, rx⟩], receivers := e.receivers ++ [rx] }

/-- `accept_rx` is dropped: with the `Host`, or when `connect_with_timeout` returns. -/
def dropAccept (e : Endpoint) : Endpoint :=
  { e with task := { e.task with acceptTx := e.task.acceptTx.close } }

/-- Ghost: note a result of `recv`. -/
def noteRead (e : Endpoint) (c : Receiver) (r : Except Error Packet) : Endpoint :=
  { e with read := Function.update e.read c (e.read c ++ [r]) }

/-- Ghost: note that a disconnect was queued, if there was room for it. -/
def noteAsked (e : Endpoint) (placed : Bool) (c : Receiver) : Endpoint :=
  { e with asked := if placed then c :: e.asked else e.asked }

/-- The slot of a connection, while the task runs. -/
def liveSlot (e : Endpoint) (c : Receiver) : Option PeerKey :=
  if e.running then e.task.slotOf c else none

/-- `rx.recv()`: the next message; `None` once the sending half is gone; otherwise it
waits. -/
def recv (e : Endpoint) (c : Receiver) : Option Endpoint :=
  match e.liveSlot c with
  | some k =>
      ((e.task.peer k).bind fun p => p.toUser.queue.head?).map fun msg =>
        { e with
          task := e.task.updatePeer k fun p => { p with toUser := p.toUser.recv } }.noteRead c
            msg.received
  | none =>
      (e.departed c).map fun p =>
        match p.toUser.queue.head? with
        | some msg =>
            { e with
              departed := Function.update e.departed c
                (some { p with toUser := p.toUser.recv }) }.noteRead c msg.received
        | none => e.noteRead c (.error .channelClosed)

/-- The receiver is dropped.  Nobody reads the channel of a removed entry then. -/
def dropReceiver (e : Endpoint) (c : Receiver) : Endpoint :=
  { e with
    receivers := e.receivers.erase c
    task := match e.liveSlot c with
      | some k => e.task.updatePeer k fun p => { p with toUser := p.toUser.close }
      | none => e.task }

/-- One action; `none` if it is not possible now. -/
def step (e : Endpoint) (nowMs : U32) : Action → Option Endpoint
  | .datagram raw src => if e.running then some (e.turn nowMs (.datagram raw src)) else none
  | .tick => if e.running then some (e.turn nowMs .tick) else none
  | .message connectId =>
      if e.running then
        e.messages.queue.head?.map fun msg =>
          { e with messages := e.messages.recv }.turn nowMs (msg.input connectId)
      else none
  | .stop =>
      if e.running && e.messages.queue.isEmpty && !e.hasSenders then some e.halt else none
  | .accept =>
      if e.host then
        e.task.acceptTx.queue.head?.map fun (key, rx) =>
          { e with task := { e.task with acceptTx := e.task.acceptTx.recv } }.handOver key rx
      else none
  | .connected =>
      (e.waiting.bind e.task.answer).map fun (key, rx) =>
        { e.dropAccept with waiting := none }.handOver key rx
  | .timeout => e.waiting.map fun _ => { e.dropAccept with waiting := none }
  | .sendPacket s pkt => if s ∈ e.senders then e.post (.send s.key pkt) else none
  | .disconnect s data =>
      if s ∈ e.senders then
        (e.post (.disconnect s.key data)).map fun e' => e'.noteAsked e.messages.hasRoom s.conn
      else none
  | .dropSender s =>
      -- `Drop`: a disconnect if there is room for it
      if s ∈ e.senders then
        some { e.noteAsked e.messages.hasRoom s.conn with
          messages := e.messages.trySend (.disconnect s.key 0)
          senders := e.senders.erase s }
      else none
  | .recv c => if c ∈ e.receivers then e.recv c else none
  | .dropReceiver c => if c ∈ e.receivers then some (e.dropReceiver c) else none
  | .dropHost => if e.host then some { e.dropAccept with host := false } else none

/-- A finite run. -/
def run (e : Endpoint) (as : List (U32 × Action)) : Option Endpoint :=
  Transition.run (fun e a => e.step a.1 a.2) e as

/-- How an endpoint starts. -/
inductive Starts : Endpoint → Prop where
  | bind (maxPeers : Nat) (useChecksum : Bool) (incomingBandwidth outgoingBandwidth : U32) :
      Starts (bind maxPeers useChecksum incomingBandwidth outgoingBandwidth)
  | connect (addr : SocketAddr) (channelCount : U8) (reply : ConnectReplySender) :
      Starts (connect addr channelCount reply)

/-! ## §5. One action. -/

variable {e e' : Endpoint} {nowMs : U32}

/-- What one action does. -/
inductive Does (e : Endpoint) (nowMs : U32) : Action → Endpoint → Prop where
  | datagram (raw : Bytes) (src : SocketAddr) (hrun : e.running = true) :
      Does e nowMs (.datagram raw src) (e.turn nowMs (.datagram raw src))
  | tick (hrun : e.running = true) : Does e nowMs .tick (e.turn nowMs .tick)
  | message (connectId : U32) (msg : ToTask) (hrun : e.running = true)
      (hmsg : e.messages.queue.head? = some msg) :
      Does e nowMs (.message connectId)
        ({ e with messages := e.messages.recv }.turn nowMs (msg.input connectId))
  | stop (hrun : e.running = true) : Does e nowMs .stop e.halt
  | accept (key : PeerKey) (rx : Receiver)
      (hqueued : e.task.acceptTx.queue.head? = some (key, rx)) :
      Does e nowMs .accept
        ({ e with task := { e.task with acceptTx := e.task.acceptTx.recv } }.handOver key rx)
  | connected (reply : ConnectReplySender) (key : PeerKey) (rx : Receiver)
      (hans : e.task.answer reply = some (key, rx)) :
      Does e nowMs .connected ({ e.dropAccept with waiting := none }.handOver key rx)
  | timeout : Does e nowMs .timeout { e.dropAccept with waiting := none }
  | sendPacket (s : PeerSender) (pkt : Packet) :
      Does e nowMs (.sendPacket s pkt) { e with messages := e.messages.trySend (.send s.key pkt) }
  | disconnect (s : PeerSender) (data : U32) (hs : s ∈ e.senders) :
      Does e nowMs (.disconnect s data)
        ({ e with messages := e.messages.trySend (.disconnect s.key data) }.noteAsked
          e.messages.hasRoom s.conn)
  | dropSender (s : PeerSender) (hs : s ∈ e.senders) :
      Does e nowMs (.dropSender s)
        { e.noteAsked e.messages.hasRoom s.conn with
          messages := e.messages.trySend (.disconnect s.key 0)
          senders := e.senders.erase s }
  | recv (c : Receiver) (e' : Endpoint) (hrecv : e.recv c = some e') : Does e nowMs (.recv c) e'
  | dropReceiver (c : Receiver) : Does e nowMs (.dropReceiver c) (e.dropReceiver c)
  | dropHost : Does e nowMs .dropHost { e.dropAccept with host := false }

/-- A message of the application: queued if there is room, lost if the task is gone. -/
theorem post_eq {msg : ToTask} (hpost : e.post msg = some e') :
    e' = { e with messages := e.messages.trySend msg } := by
  unfold post at hpost
  split at hpost
  · next hclosed =>
    cases hpost
    simp [Mpsc.trySend, Mpsc.hasRoom, hclosed]
  · split at hpost
    · exact (Option.some.inj hpost).symm
    · cases hpost

/-- **One action, inverted.** -/
theorem does_of_step {a : Action} (hstep : e.step nowMs a = some e') : e.Does nowMs a e' := by
  cases a with
  | datagram raw src =>
      simp only [step, Option.ite_none_right_eq_some, Option.some.injEq] at hstep
      obtain ⟨hrun, rfl⟩ := hstep
      exact .datagram raw src hrun
  | tick =>
      simp only [step, Option.ite_none_right_eq_some, Option.some.injEq] at hstep
      obtain ⟨hrun, rfl⟩ := hstep
      exact .tick hrun
  | message connectId =>
      simp only [step, Option.ite_none_right_eq_some, Option.map_eq_some_iff] at hstep
      obtain ⟨hrun, msg, hmsg, rfl⟩ := hstep
      exact .message connectId msg hrun hmsg
  | stop =>
      simp only [step, Option.ite_none_right_eq_some, Bool.and_eq_true, Option.some.injEq] at hstep
      obtain ⟨⟨⟨hrun, -⟩, -⟩, rfl⟩ := hstep
      exact .stop hrun
  | accept =>
      simp only [step, Option.ite_none_right_eq_some, Option.map_eq_some_iff] at hstep
      obtain ⟨-, ⟨key, rx⟩, hqueued, rfl⟩ := hstep
      exact .accept key rx hqueued
  | connected =>
      simp only [step, Option.map_eq_some_iff, Option.bind_eq_some_iff] at hstep
      obtain ⟨⟨key, rx⟩, ⟨reply, -, hans⟩, rfl⟩ := hstep
      exact .connected reply key rx hans
  | timeout =>
      simp only [step, Option.map_eq_some_iff] at hstep
      obtain ⟨reply, -, rfl⟩ := hstep
      exact .timeout
  | sendPacket s pkt =>
      simp only [step, Option.ite_none_right_eq_some] at hstep
      rw [post_eq hstep.2]
      exact .sendPacket s pkt
  | disconnect s data =>
      simp only [step, Option.ite_none_right_eq_some, Option.map_eq_some_iff] at hstep
      obtain ⟨hs, e₁, hpost, rfl⟩ := hstep
      rw [post_eq hpost]
      exact .disconnect s data hs
  | dropSender s =>
      simp only [step, Option.ite_none_right_eq_some, Option.some.injEq] at hstep
      obtain ⟨hs, rfl⟩ := hstep
      exact .dropSender s hs
  | recv c =>
      simp only [step, Option.ite_none_right_eq_some] at hstep
      exact .recv c e' hstep.2
  | dropReceiver c =>
      simp only [step, Option.ite_none_right_eq_some, Option.some.injEq] at hstep
      obtain ⟨-, rfl⟩ := hstep
      exact .dropReceiver c
  | dropHost =>
      simp only [step, Option.ite_none_right_eq_some, Option.some.injEq] at hstep
      obtain ⟨-, rfl⟩ := hstep
      exact .dropHost

/-! ## §6. The task behind the handles. -/

theorem turn_task {i : Input} (hr : (e.turn nowMs i).running = true) :
    e.running = true ∧ e.task.step nowMs i = some (e.turn nowMs i).task := by
  unfold turn at hr ⊢
  cases hs : e.task.step nowMs i with
  | some h' =>
      rw [hs] at hr
      exact ⟨hr, rfl⟩
  | none =>
      rw [hs] at hr
      cases hr

theorem recv_task {c : Receiver} (hrecv : e.recv c = some e') (hr : e'.running = true) :
    e.running = true ∧ (e'.task = e.task ∨ ∃ i, e.task.step nowMs i = some e'.task) := by
  unfold recv at hrecv
  split at hrecv
  · next k _ =>
    obtain ⟨msg, -, rfl⟩ := Option.map_eq_some_iff.mp hrecv
    exact ⟨hr, .inr ⟨.appRecv k, rfl⟩⟩
  · obtain ⟨p, -, rfl⟩ := Option.map_eq_some_iff.mp hrecv
    split at hr <;> exact ⟨hr, .inl rfl⟩

/-- An action is a step of the task, or does not touch it. -/
theorem Does.task {a : Action} (hd : e.Does nowMs a e') (hr : e'.running = true) :
    e.running = true ∧ (e'.task = e.task ∨ ∃ i, e.task.step nowMs i = some e'.task) := by
  cases hd with
  | datagram raw src hrun => exact ⟨hrun, .inr ⟨_, (turn_task hr).2⟩⟩
  | tick hrun => exact ⟨hrun, .inr ⟨_, (turn_task hr).2⟩⟩
  | message connectId msg hrun hmsg => exact ⟨hrun, .inr ⟨_, (turn_task hr).2⟩⟩
  | stop => cases hr
  | accept => exact ⟨hr, .inr ⟨.appAccept, rfl⟩⟩
  | connected | timeout | dropHost => exact ⟨hr, .inr ⟨.appClose, rfl⟩⟩
  | sendPacket | disconnect | dropSender => exact ⟨hr, .inl rfl⟩
  | recv c _ hrecv => exact recv_task hrecv hr
  | dropReceiver c =>
      refine ⟨hr, ?_⟩
      unfold Endpoint.dropReceiver
      cases e.liveSlot c with
      | none => exact .inl rfl
      | some k => exact .inr ⟨.appDrop k, rfl⟩

/-- **Behind the handles runs the task**: as long as it runs, its state is a reachable
one. -/
theorem run_reachable {e₀ : Endpoint} (hstart : Starts e₀) (as : List (U32 × Action))
    (hrun : e₀.run as = some e) (hr : e.running = true) : e.task.Reachable := by
  refine Transition.run_invariant (I := fun e => e.running = true → e.task.Reachable)
    (fun e a e' hi hstep hr => ?_) as e₀ e ?_ hrun hr
  · obtain ⟨hrun, htask | ⟨i, hs⟩⟩ := (does_of_step hstep).task hr
    · rw [htask]
      exact hi hrun
    · exact (hi hrun).step (i := (a.1, i)) hs
  · intro _
    cases hstart with
    | bind maxPeers ck ib ob => exact ⟨64, maxPeers, ck, ib, ob, [], rfl⟩
    | connect => exact ⟨1, 1, false, 0, 0, [], rfl⟩

end Endpoint

end EnetRs
