/-
  EnetRs.System.TwoHosts — a client, a server, and the network between them
  (`src/lib.rs`).

  `Host::connect` runs a task of its own with one slot, whose first message is
  `ToTask::Connect`; nothing else ever sends that message.  So a client host opens
  one connection and a server host opens none.  The datagrams travel over a network
  that may lose, repeat and reorder them.

  A client's task never uses checksums (`connect_with_timeout` passes `false`), so
  the server is one that does not either: `HostConfig::use_checksum` keeps its
  default, and the other fields of the configuration are free.

  Two components of the state are ghosts: the client's entry as it was last seen,
  and the commands that the server has processed.

  Main results:
    * `Config.run_invariant` — the invariant rule for the system.
    * `Config.reachable` — each host is a reachable state of its own task.
-/
import EnetRs.Exchange.Handshake
import EnetRs.Lib.Network

namespace EnetRs

open MachineInt

/-- What the application and the clock put in. -/
def Input.isLocal : Input → Bool
  | .datagram _ _ | .connect _ _ _ _ _ => false
  | _ => true

/-! ## §1. The two ends. -/

/-- The client's end. -/
structure Client where
  task : HostTask
  /-- Ghost: the entry of the connection, as it was last seen. -/
  last : PeerEntry

/-- The task moves on; the ghost keeps the last entry there was. -/
def Client.follow (c : Client) (task : HostTask) : Client := ⟨task, (task.peer 0).getD c.last⟩

/-- The server's end. -/
structure Server where
  task : HostTask
  /-- Ghost: the commands that were processed, in order. -/
  heard : List Command

/-- The datagrams that were sent to `addr`. -/
def datagramsTo (addr : SocketAddr) (trace : List Event) : List Bytes :=
  trace.filterMap fun e =>
    match e with
    | .sent dest _ datagram => if dest = addr then some datagram else none
    | _ => none

theorem mem_datagramsTo {addr : SocketAddr} {trace : List Event} {d : Bytes}
    (hd : d ∈ datagramsTo addr trace) : ∃ cmds, .sent addr cmds d ∈ trace := by
  obtain ⟨e, he, heq⟩ := List.mem_filterMap.mp hd
  cases e with
  | sent dest cmds datagram =>
      simp only [Option.ite_none_right_eq_some, Option.some.injEq] at heq
      obtain ⟨rfl, rfl⟩ := heq
      exact ⟨cmds, he⟩
  | _ => cases heq

/-- The parameters of a run: the addresses, what the client asks for, and the
server's configuration. -/
structure Config where
  clientAddr : SocketAddr
  serverAddr : SocketAddr
  channelCount : U8
  connectId : U32
  reply : ConnectReplySender
  time : U32
  maxPeers : Nat
  incomingBandwidth : U32
  outgoingBandwidth : U32

namespace Config

variable (cfg : Config)

/-- The client's host before its first message: `connect_with_timeout`. -/
def clientHost : HostTask := HostTask.new 1 1 false 0 0

/-- The first message. -/
def connects : Input := .connect cfg.serverAddr cfg.channelCount 0 cfg.reply cfg.connectId

/-- The entry that `begin_connect` makes. -/
def clientEntry : PeerEntry :=
  (clientHost.clientHandshake 0 cfg.serverAddr cfg.channelCount 0 cfg.time cfg.reply
    cfg.connectId).1

/-- The CONNECT that it sends. -/
def request : ConnectCmd := clientHost.connectRequest 0 (umax cfg.channelCount 1) cfg.connectId 0

/-- The server's host: `Host::bind`, with the default `use_checksum = false`. -/
def serverHost : HostTask :=
  HostTask.bind cfg.maxPeers false cfg.incomingBandwidth cfg.outgoingBandwidth

/-- The two ends once the client has sent its CONNECT. -/
def start : Client × Server :=
  (Client.follow ⟨clientHost, cfg.clientEntry⟩
    ((clientHost.step cfg.time cfg.connects).getD clientHost), ⟨cfg.serverHost, []⟩)

/-- The client as a node of the network. -/
def client : Network.Node Client HostTask.Timed U32 Bytes where
  act c i := if i.2.isLocal then (c.task.timedStep i).map c.follow else none
  receive c t d := (c.task.step t (.datagram d cfg.serverAddr)).map c.follow
  sent c := datagramsTo cfg.serverAddr c.task.trace

/-- The server as a node of the network. -/
def server : Network.Node Server HostTask.Timed U32 Bytes where
  act s i :=
    if i.2.isLocal then (s.task.timedStep i).map fun task => { s with task := task } else none
  receive s t d := (s.task.step t (.datagram d cfg.clientAddr)).map fun task =>
    ⟨task, s.heard ++ ((s.task.acceptDatagram d cfg.clientAddr).map (·.cmds)).getD []⟩
  sent s := datagramsTo cfg.clientAddr s.task.trace

/-- One move of the system. -/
abbrev Move := Network.Move HostTask.Timed HostTask.Timed U32

/-- A finite run of the system. -/
def run (moves : List Move) : Option (Client × Server) :=
  Network.run cfg.client cfg.server cfg.start moves

/-- The first message: the entry is installed and its CONNECT goes out. -/
theorem start_task : cfg.start.1.task
    = (clientHost.install 0 cfg.clientEntry).emitByKey 0
        [(clientHost.clientHandshake 0 cfg.serverAddr cfg.channelCount 0 cfg.time cfg.reply
          cfg.connectId).2] cfg.time := rfl

variable {cfg}

/-! ## §2. Moves. -/

variable {s s' : Client × Server} {moves : List Move}

/-- A local move of the client. -/
theorem client_act {c c' : Client} {i : HostTask.Timed} (ha : cfg.client.act c i = some c') :
    i.2.isLocal = true ∧ ∃ task, c.task.timedStep i = some task ∧ c' = c.follow task := by
  simp only [client] at ha
  split at ha
  · next hl =>
    obtain ⟨task, hs, rfl⟩ := Option.map_eq_some_iff.mp ha
    exact ⟨hl, task, hs, rfl⟩
  · cases ha

/-- A local move of the server. -/
theorem server_act {r r' : Server} {i : HostTask.Timed} (ha : cfg.server.act r i = some r') :
    i.2.isLocal = true ∧ ∃ task, r.task.timedStep i = some task ∧ r' = { r with task := task } := by
  simp only [server] at ha
  split at ha
  · next hl =>
    obtain ⟨task, hs, rfl⟩ := Option.map_eq_some_iff.mp ha
    exact ⟨hl, task, hs, rfl⟩
  · cases ha

/-- A datagram reaches the client. -/
theorem client_receive {c c' : Client} {t : U32} {d : Bytes}
    (hr : cfg.client.receive c t d = some c') :
    c' = c.follow (c.task.onDatagram d cfg.serverAddr t) :=
  (Option.some.inj hr).symm

/-- A datagram reaches the server. -/
theorem server_receive {r r' : Server} {t : U32} {d : Bytes}
    (hr : cfg.server.receive r t d = some r') :
    r' = ⟨r.task.onDatagram d cfg.clientAddr t,
      r.heard ++ ((r.task.acceptDatagram d cfg.clientAddr).map (·.cmds)).getD []⟩ :=
  (Option.some.inj hr).symm

/-- **The invariant rule.**  `D` is what is known of every move. -/
theorem run_invariant {I : Client × Server → Prop} {D : Move → Prop} (hstart : I cfg.start)
    (hleft : ∀ c r i task, I (c, r) → i.2.isLocal = true → D (.left i) →
      c.task.timedStep i = some task → I (c.follow task, r))
    (hright : ∀ c r i task, I (c, r) → i.2.isLocal = true → D (.right i) →
      r.task.timedStep i = some task → I (c, { r with task := task }))
    (htoLeft : ∀ c r t cmds d, I (c, r) → .sent cfg.clientAddr cmds d ∈ r.task.trace →
      I (c.follow (c.task.onDatagram d cfg.serverAddr t), r))
    (htoRight : ∀ c r t cmds d, I (c, r) → .sent cfg.serverAddr cmds d ∈ c.task.trace →
      I (c, ⟨r.task.onDatagram d cfg.clientAddr t,
        r.heard ++ ((r.task.acceptDatagram d cfg.clientAddr).map (·.cmds)).getD []⟩))
    (hD : ∀ m ∈ moves, D m) (hrun : cfg.run moves = some s) : I s := by
  refine Network.run_invariant (D := D) ?_ ?_ ?_ ?_ moves hD hstart hrun
  · rintro ⟨c, r⟩ i c' hi hd ha
    obtain ⟨hl, task, hs, rfl⟩ := client_act ha
    exact hleft c r i task hi hl hd hs
  · rintro ⟨c, r⟩ i r' hi hd ha
    obtain ⟨hl, task, hs, rfl⟩ := server_act ha
    exact hright c r i task hi hl hd hs
  · rintro ⟨c, r⟩ t d c' hi hd hr
    obtain ⟨cmds, hsent⟩ := mem_datagramsTo hd
    rw [client_receive hr]
    exact htoLeft c r t cmds d hi hsent
  · rintro ⟨c, r⟩ t d r' hi hd hr
    obtain ⟨cmds, hsent⟩ := mem_datagramsTo hd
    rw [server_receive hr]
    exact htoRight c r t cmds d hi hsent

/-- **Each host is a reachable state of its own task.** -/
theorem reachable (hrun : cfg.run moves = some s) : s.1.task.Reachable ∧ s.2.task.Reachable := by
  refine run_invariant (I := fun s => s.1.task.Reachable ∧ s.2.task.Reachable) (D := fun _ => True)
    ⟨⟨1, 1, false, 0, 0, [(cfg.time, cfg.connects)], rfl⟩, 64, cfg.maxPeers, false, _, _, [], rfl⟩
    ?_ ?_ ?_ ?_ (fun _ _ => trivial) hrun
  · exact fun c r i task hi _ _ hs => ⟨hi.1.step hs, hi.2⟩
  · exact fun c r i task hi _ _ hs => ⟨hi.1, hi.2.step hs⟩
  · exact fun c r t cmds d hi _ => ⟨hi.1.step (i := (t, .datagram d cfg.serverAddr)) rfl, hi.2⟩
  · exact fun c r t cmds d hi _ => ⟨hi.1, hi.2.step (i := (t, .datagram d cfg.clientAddr)) rfl⟩

/-- A client at one address and a server at the other. -/
def aliceToBob : Config := ⟨HostTask.alice, HostTask.bob, 2, 77, 9, 10, 4, 0, 0⟩

/-- The handshake, and two packets that arrive in the wrong order; one arrives
twice. -/
def twoPackets : List Move :=
  [.toRight 20 0, .toLeft 30 0,
   .left (40, .send 0 ⟨[1, 2, 3], 0, .reliable⟩), .left (41, .send 0 ⟨[4], 0, .reliable⟩),
   .toRight 45 3, .toRight 46 1, .toRight 50 2, .toRight 60 2]

end Config

end EnetRs
