/-
  EnetRs.Channel — per-channel receive state (`src/channel.rs`).

  Fragment reassembly buffers, the reliable and unreliable streams of one
  channel, and the duplicate window for unsequenced packets.
-/
import EnetRs.Protocol.Wire
import EnetRs.Lib.BitArray

namespace EnetRs

open MachineInt
open Std (ExtTreeMap)

/-- `MAX_INCOMING_RELIABLE_QUEUE`. -/
def maxIncomingReliableQueue : Nat := 4096

/-! ## §1. Fragment reassembly. -/

/-- One message under reassembly: how many fragments it announced, how many
arrived, the bytes so far, and one mask bit per fragment. -/
structure FragmentBuffer where
  fragmentCount : U32
  received : U32
  buf : Bytes
  mask : List U64

namespace FragmentBuffer

/-- `FragmentBuffer::new`. -/
def new (totalLength : Nat) (fragmentCount : U32) : FragmentBuffer :=
  { fragmentCount := fragmentCount
    received := 0
    buf := List.replicate totalLength 0
    mask := List.replicate (divCeil fragmentCount.toNat 64) 0 }

/-- `FragmentBuffer::receive`: the buffer after the fragment and whether this
was the last one needed.  `offset.checked_add` cannot fail on `Nat`; a sum
past `usize::MAX` is past `buf.len()` as well and takes the same exit. -/
def receive (b : FragmentBuffer) (fragmentNumber : U32) (offset : Nat) (data : Bytes) :
    FragmentBuffer × Bool :=
  if b.mask.length ≤ fragmentNumber.toNat / 64 then (b, false)
  else if BitArray.testBit b.mask fragmentNumber.toNat then (b, false)
  else if b.buf.length < offset + data.length then (b, false)
  else
    let b' : FragmentBuffer :=
      { b with
        mask := BitArray.setBit b.mask fragmentNumber.toNat
        received := b.received + 1
        buf := b.buf.take offset ++ data ++ b.buf.drop (offset + data.length) }
    (b', b'.received == b'.fragmentCount)

/-- Whether `receive` writes the fragment: in range, not a duplicate, in bounds. -/
def accepts (b : FragmentBuffer) (fragmentNumber : U32) (offset : Nat) (data : Bytes) : Bool :=
  !decide (b.mask.length ≤ fragmentNumber.toNat / 64)
    && !BitArray.testBit b.mask fragmentNumber.toNat
    && !decide (b.buf.length < offset + data.length)

/-- `FragmentBuffer::finish`. -/
def finish (b : FragmentBuffer) : Bytes := b.buf

end FragmentBuffer

/-! ## §2. The channel. -/

/-- The numeric order of `BTreeMap<u16, _>` keys. -/
instance : Std.TransOrd U16 := inferInstanceAs (Std.TransOrd (BitVec 16))

structure Channel where
  outgoingReliableSeq : U16
  outgoingUnreliableSeq : U16
  outgoingUnsequencedGroup : U16
  incomingReliableSeq : U16
  /-- Reliable commands held waiting for an earlier number to arrive. -/
  incomingReliableQueue : ExtTreeMap U16 Bytes
  incomingUnreliableSeq : U16
  /-- Reassembly: `start_seq` ↦ buffer. -/
  fragmentBuffers : ExtTreeMap U16 FragmentBuffer

namespace Channel

/-- `Channel::new`. -/
def new : Channel :=
  { outgoingReliableSeq := 0
    outgoingUnreliableSeq := 0
    outgoingUnsequencedGroup := 0
    incomingReliableSeq := 0
    incomingReliableQueue := ∅
    incomingUnreliableSeq := 0
    fragmentBuffers := ∅ }

/-- `Channel::next_reliable_seq`: the advanced channel; its
`outgoingReliableSeq` is the number handed out. -/
def nextReliableSeq (c : Channel) : Channel :=
  { c with outgoingReliableSeq := c.outgoingReliableSeq + 1 }

/-- `Channel::next_unreliable_seq`. -/
def nextUnreliableSeq (c : Channel) : Channel :=
  { c with outgoingUnreliableSeq := c.outgoingUnreliableSeq + 1 }

/-- `Channel::next_unsequenced_group`. -/
def nextUnsequencedGroup (c : Channel) : Channel :=
  { c with outgoingUnsequencedGroup := c.outgoingUnsequencedGroup + 1 }

/-- The drain loop of `receive_reliable` and of `on_fragment`: take follow-on
numbers out of the queue while they are there.  Every turn removes one entry,
so the queue's size is fuel enough (`drain_stuck`). -/
def drainLoop : Nat → Channel → Channel × List Bytes
  | 0, c => (c, [])
  | fuel + 1, c =>
      let next := c.incomingReliableSeq + 1
      match c.incomingReliableQueue[next]? with
      | some d =>
          let (c', out) := drainLoop fuel
            { c with
              incomingReliableSeq := next
              incomingReliableQueue := c.incomingReliableQueue.erase next }
          (c', d :: out)
      | none => (c, [])

def drain (c : Channel) : Channel × List Bytes :=
  drainLoop c.incomingReliableQueue.size c

/-- `Channel::receive_reliable`: the channel after the arrival and the
messages that are now deliverable, in order. -/
def receiveReliable (c : Channel) (seq : U16) (data : Bytes) : Channel × List Bytes :=
  let expected := c.incomingReliableSeq + 1
  if seq = expected then
    let (c', out) := drain { c with incomingReliableSeq := seq }
    (c', data :: out)
  else if seqLt expected seq then
    -- buffered only inside the receive window and below the queue cap
    let window : U16 := freeReliableWindows * reliableWindowSize
    if seq - expected ≤ window
        ∧ c.incomingReliableQueue.size < maxIncomingReliableQueue then
      ({ c with incomingReliableQueue := c.incomingReliableQueue.insert seq data }, [])
    else (c, [])
  else (c, [])

/-- The number `receive_reliable` delivers at once. -/
def expects (c : Channel) (seq : U16) : Bool := decide (seq = c.incomingReliableSeq + 1)

/-- The numbers `receive_reliable` queues. -/
def hasRoomFor (c : Channel) (seq : U16) : Bool :=
  seqLt (c.incomingReliableSeq + 1) seq
    && decide (seq - (c.incomingReliableSeq + 1) ≤ freeReliableWindows * reliableWindowSize)
    && decide (c.incomingReliableQueue.size < maxIncomingReliableQueue)

/-- `Channel::receive_unreliable`. -/
def receiveUnreliable (c : Channel) (seq : U16) (data : Bytes) : Channel × Option Bytes :=
  if seqLt c.incomingUnreliableSeq seq then
    ({ c with incomingUnreliableSeq := seq }, some data)
  else (c, none)

end Channel

/-! ## §3. Unsequenced duplicate detection. -/

structure UnsequencedWindow where
  window : List U32
  group : U16

namespace UnsequencedWindow

/-- `UnsequencedWindow::new`. -/
def new : UnsequencedWindow := { window := List.replicate 32 0, group := 0 }

/-- The bit of a group in the 1024-bit window. -/
def idx (group : U16) : Nat := group.toNat % 1024

/-- The part of `check_and_set` that moves the high-water mark forward. -/
def advanceTo (win : UnsequencedWindow) (group : U16) (advance : Nat) : UnsequencedWindow :=
  let window :=
    if 1024 ≤ advance then List.replicate 32 0
    else (List.range advance).foldl
      (fun acc i => BitArray.clearBit acc (idx (win.group + BitVec.ofNat 16 (i + 1)))) win.window
  { window := window, group := group }

/-- `UnsequencedWindow::check_and_set`. -/
def checkAndSet (win : UnsequencedWindow) (group : U16) : UnsequencedWindow × Bool :=
  let diff := (group - win.group).toInt
  if diff < 0 ∧ 1024 ≤ -diff then (win, false)
  else
    let win' := if 0 < diff then win.advanceTo group diff.toNat else win
    if BitArray.testBit win'.window (idx group) then (win', false)
    else ({ win' with window := BitArray.setBit win'.window (idx group) }, true)

end UnsequencedWindow

end EnetRs
