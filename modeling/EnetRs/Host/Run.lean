/-
  EnetRs.Host.Run — the main loop (`HostTask::run`, `src/task.rs`) as a
  transition function, and its reachable states.

  One step consumes one thing the `select!` can yield: a datagram, a message
  from the user, or a tick.  The other inputs are what the application does
  with the channels it holds; they decide whether a later `try_send` succeeds.
-/
import EnetRs.Host.Receive
import EnetRs.Host.Service
import EnetRs.Lib.Transition

namespace EnetRs

open MachineInt

/-- One input of the main loop. -/
inductive Input where
  /-- `socket.recv_from` returned a datagram. -/
  | datagram (raw : Bytes) (src : SocketAddr)
  /-- `ToTask::Send`. -/
  | send (key : PeerKey) (pkt : Packet)
  /-- `ToTask::Disconnect`. -/
  | disconnect (key : PeerKey) (data : U32)
  /-- `ToTask::Connect`, with the random connect id it will be given. -/
  | connect (addr : SocketAddr) (channelCount : U8) (data : U32) (reply : ConnectReplySender)
      (connectId : U32)
  /-- The 20 ms ticker. -/
  | tick
  /-- The application takes a message from the delivery channel in a slot. -/
  | appRecv (key : PeerKey)
  /-- The application drops the receiver of the delivery channel in a slot. -/
  | appDrop (key : PeerKey)
  /-- The application takes a connection from the accept queue. -/
  | appAccept
  /-- The application drops the `Host`. -/
  | appClose
  deriving DecidableEq, Repr

namespace HostTask

/-- Ghost: record in the entry's history that a packet is about to be accepted. -/
def noteSubmit (h : HostTask) (key : PeerKey) (pkt : Packet) : HostTask :=
  h.updatePeer key fun p => if p.acceptsReliable pkt then p.log (.submit pkt) else p

/-- One turn of `HostTask::run` at time `nowMs`; `none` when the task panics. -/
def step (h : HostTask) (nowMs : U32) : Input → Option HostTask
  | .datagram raw src => some (h.onDatagram raw src nowMs)
  | .send key pkt => (h.noteSubmit key pkt).sendPacket key pkt nowMs
  | .disconnect key data => some (h.sendDisconnect key data nowMs)
  | .connect addr channelCount data reply connectId =>
      match h.beginConnect addr channelCount data nowMs reply connectId with
      | (h', some (key, cmd)) => some (h'.emitByKey key [cmd] nowMs)
      | (h', none) => some h'
  | .tick => h.serviceAll nowMs
  | .appRecv key => some (h.updatePeer key fun p => { p with toUser := p.toUser.recv })
  | .appDrop key => some (h.updatePeer key fun p => { p with toUser := p.toUser.close })
  | .appAccept => some { h with acceptTx := h.acceptTx.recv }
  | .appClose => some { h with acceptTx := h.acceptTx.close }

/-- A timed input. -/
abbrev Timed := U32 × Input

/-- `step` on timed inputs. -/
def timedStep (h : HostTask) (i : Timed) : Option HostTask := h.step i.1 i.2

/-- A finite run of the main loop. -/
def run (h : HostTask) (is : List Timed) : Option HostTask := Transition.run timedStep h is

/-- A state some run of some new host reaches. -/
def Reachable (h : HostTask) : Prop :=
  ∃ acceptCapacity maxPeers useChecksum incomingBandwidth outgoingBandwidth is,
    run (HostTask.new acceptCapacity maxPeers useChecksum incomingBandwidth outgoingBandwidth) is
      = some h

/-- `Host::bind`: accept capacity 64. -/
def bind (maxPeers : Nat) (useChecksum : Bool) (incomingBandwidth outgoingBandwidth : U32) :
    HostTask :=
  HostTask.new 64 maxPeers useChecksum incomingBandwidth outgoingBandwidth

end HostTask

/-! ## Datagrams as a client builds them, and two clients. -/

/-- A datagram without checksum: peer id and session, send time, commands. -/
def clientDatagram (peerId session : U16) (sentTime : U16) (cmds : List Bytes) : Bytes :=
  be16 (headerFlagSentTime ||| (session <<< headerSessionShift) ||| peerId) ++ be16 sentTime
    ++ cmds.flatten

/-- A client's CONNECT command, for any sequence of parameters it may ask for. -/
def connectCommand (connectId channelCount mtu throttleDeceleration : U32) : Bytes :=
  encodeCommand cmdConnect commandFlagAcknowledge channelIdConnection 1
    (be16 0 ++ [0xFF] ++ [0xFF] ++ be32 mtu ++ be32 windowSizeMax ++ be32 channelCount ++ be32 0
      ++ be32 0 ++ be32 throttleIntervalMs ++ be32 throttleAccelerationDefault
      ++ be32 throttleDeceleration ++ be32 connectId ++ be32 0)

/-- The datagram with which a client opens a connection (peer id unassigned). -/
def connectDatagram (connectId channelCount mtu : U32) : Bytes :=
  clientDatagram headerPeerIdMax 0 7
    [connectCommand connectId channelCount mtu throttleDecelerationDefault]

/-- A client's datagram to the entry in slot `k`, under the session id a server
gives a fresh connection. -/
def peerDatagram (k : U16) (sentTime : U16) (cmds : List Bytes) : Bytes :=
  clientDatagram k 1 sentTime cmds

/-- A reliable fragment as a client sends it. -/
def fragmentCommand (ch : U8) (seq : U16) (sf : SendFragmentCmd) : Bytes :=
  encodeCommand cmdSendFragment commandFlagAcknowledge ch seq (fragmentBody sf)

namespace HostTask

/-- Two client addresses. -/
def alice : SocketAddr := .v4 0x0A000001 4000

def bob : SocketAddr := .v4 0x0A000002 5000

/-- Alice's CONNECT and the ACK that completes her handshake, in slot 0. -/
def aliceConnects (nowMs : U32) : List Timed :=
  [(nowMs, .datagram (connectDatagram 77 2 1392) alice),
   (nowMs + 10, .datagram (peerDatagram 0 9 [ack channelIdConnection 1 10]) alice)]

/-- Bob does the same; he gets slot `k`. -/
def bobConnects (k : U16) (nowMs : U32) : List Timed :=
  [(nowMs, .datagram (connectDatagram 78 2 1392) bob),
   (nowMs + 10, .datagram (peerDatagram k 9 [ack channelIdConnection 1 10]) bob)]

/-- Alice connects with the largest throttle deceleration.  Twenty ACKs then
raise the round-trip estimate, and the next one, a throttle interval later,
takes the packet throttle to zero: from time 65001 on her windows are closed
while anything is outstanding. -/
def aliceThrottled : List Timed :=
  [(0, .datagram (clientDatagram headerPeerIdMax 0 7 [connectCommand 77 2 1392 32]) alice),
   (10, .datagram (peerDatagram 0 9 [ack channelIdConnection 1 10]) alice),
   (60000, .datagram (peerDatagram 0 9 (List.replicate 20 (ack 0 0 0))) alice),
   (65001, .datagram (peerDatagram 0 9 [ack 0 0 0]) alice)]

/-- A reliable packet of one byte on channel 0. -/
def bytePacket (b : U8) : Packet := ⟨[b], 0, .reliable⟩

end HostTask

end EnetRs
