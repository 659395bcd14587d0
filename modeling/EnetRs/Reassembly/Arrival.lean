/-
  EnetRs.Reassembly.Arrival — what one arrival does to a channel.

  A fragment is written into its buffer or leaves it as it is; a message is
  delivered, queued or dropped.  Each function of `src/channel.rs` gets one
  equation per outcome, under the predicate that selects it (`accepts`,
  `expects`, `hasRoomFor`).

  Main results:
    * `FragmentBuffer.receive_of_accepts`, `receive_of_rejects`.
    * `Channel.receiveReliable_of_expects`, `_of_room`, `_of_drop`.
    * `PeerEntry.onSendReliable_eq`, `onSendUnreliable_eq`, `onFragment_eq` — the
      entry afterwards.
-/
import EnetRs.Host.Channels

namespace EnetRs

open MachineInt

/-! ## §1. Buffers. -/

/-- The fragment's bytes stand in `m` at the fragment's offset. -/
def SendFragmentCmd.IsPartOf (sf : SendFragmentCmd) (m : Bytes) : Prop :=
  (m.drop sf.fragmentOffset.toNat).take sf.data.length = sf.data

namespace FragmentBuffer

variable {b : FragmentBuffer} {n : U32} {offset : Nat} {data : Bytes}

/-- The buffer with the fragment written into it. -/
def write (b : FragmentBuffer) (n : U32) (offset : Nat) (data : Bytes) : FragmentBuffer :=
  { b with
    mask := BitArray.setBit b.mask n.toNat
    received := b.received + 1
    buf := b.buf.take offset ++ data ++ b.buf.drop (offset + data.length) }

theorem receive_of_accepts (ha : b.accepts n offset data = true) :
    b.receive n offset data
      = (b.write n offset data, b.received + 1 == b.fragmentCount) := by
  simp only [accepts, Bool.and_eq_true, Bool.not_eq_true', decide_eq_false_iff_not] at ha
  simp only [receive, ha, if_false, Bool.false_eq_true]
  rfl

theorem receive_of_rejects (ha : b.accepts n offset data = false) :
    b.receive n offset data = (b, false) := by
  unfold receive
  split
  · rfl
  · next h₁ =>
    split
    · rfl
    · next h₂ =>
      split
      · rfl
      · next h₃ => simp [accepts, h₁, h₂, h₃] at ha

/-- A written fragment is in the buffer: its bit is set, its bytes are in place. -/
theorem write_spec (ha : b.accepts n offset data = true) :
    BitArray.testBit (b.write n offset data).mask n.toNat = true
      ∧ ((b.write n offset data).buf.drop offset).take data.length = data := by
  simp only [accepts, Bool.and_eq_true, Bool.not_eq_true', decide_eq_false_iff_not, Nat.not_le,
    Nat.not_lt] at ha
  obtain ⟨⟨hword, -⟩, hbound⟩ := ha
  constructor
  · simp only [write]
    rw [BitArray.testBit_setBit _ _ _ (by decide) hword]
    simp
  · have hoff : (b.buf.take offset).length = offset := by
      rw [List.length_take]
      omega
    show ((b.buf.take offset ++ data ++ b.buf.drop (offset + data.length)).drop offset).take
      data.length = data
    rw [List.append_assoc, List.drop_append_of_le_length (by omega), List.drop_eq_nil_of_le (by omega),
      List.nil_append, List.take_left]

end FragmentBuffer

/-! ## §2. Messages. -/

namespace Channel

variable {c : Channel} {seq : U16} {data : Bytes}

theorem receiveReliable_of_expects (he : c.expects seq = true) :
    c.receiveReliable seq data
      = ((drain { c with incomingReliableSeq := seq }).1,
          data :: (drain { c with incomingReliableSeq := seq }).2) := by
  simp only [expects, decide_eq_true_eq] at he
  simp only [receiveReliable, he, if_true]

theorem receiveReliable_of_room (he : c.expects seq = false) (hr : c.hasRoomFor seq = true) :
    c.receiveReliable seq data
      = ({ c with incomingReliableQueue := c.incomingReliableQueue.insert seq data }, []) := by
  simp only [expects, decide_eq_false_iff_not] at he
  simp only [hasRoomFor, Bool.and_eq_true, decide_eq_true_eq] at hr
  simp only [receiveReliable, he, if_false, hr, if_true, and_self]

theorem receiveReliable_of_drop (he : c.expects seq = false) (hr : c.hasRoomFor seq = false) :
    c.receiveReliable seq data = (c, []) := by
  simp only [expects, decide_eq_false_iff_not] at he
  simp only [receiveReliable, he, if_false]
  split
  · next hlt =>
    split
    · next hroom =>
      have hyes : c.hasRoomFor seq = true := by
        rw [hasRoomFor, hlt, decide_eq_true hroom.1, decide_eq_true hroom.2]
        rfl
      rw [hr] at hyes
      cases hyes
    · rfl
  · rfl

end Channel

/-! ## §3. Fragments. -/

namespace PeerEntry

variable {c : Channel} {sf : SendFragmentCmd}

/-- Whether the buffer the fragment belongs to takes it. -/
def fits (c : Channel) (sf : SendFragmentCmd) : Bool :=
  (fragmentBufferFor c sf).accepts sf.fragmentNumber sf.fragmentOffset.toNat sf.data

/-- That buffer with the fragment written into it. -/
def filled (c : Channel) (sf : SendFragmentCmd) : FragmentBuffer :=
  (fragmentBufferFor c sf).write sf.fragmentNumber sf.fragmentOffset.toNat sf.data

theorem fits_of_completes (hd : completes c sf = true) : fits c sf = true := by
  by_contra hf
  rw [Bool.not_eq_true] at hf
  rw [completes, FragmentBuffer.receive_of_rejects hf] at hd
  cases hd

theorem fragmentStep_rejected (hf : fits c sf = false) (reliable : Bool) :
    fragmentStep c sf reliable
      = ({ c with
            fragmentBuffers := c.fragmentBuffers.insert sf.startSeq (fragmentBufferFor c sf) },
          []) := by
  simp [fragmentStep, FragmentBuffer.receive_of_rejects hf]

theorem fragmentStep_stored (hf : fits c sf = true) (hd : completes c sf = false)
    (reliable : Bool) :
    fragmentStep c sf reliable
      = ({ c with fragmentBuffers := c.fragmentBuffers.insert sf.startSeq (filled c sf) }, []) := by
  rw [completes, FragmentBuffer.receive_of_accepts hf] at hd
  simp only [fragmentStep, FragmentBuffer.receive_of_accepts hf]
  rw [if_neg (by simpa using hd)]
  rfl

theorem fragmentStep_complete (hd : completes c sf = true) (reliable : Bool) :
    fragmentStep c sf reliable
      = releaseAssembled { c with fragmentBuffers := c.fragmentBuffers.erase sf.startSeq } sf
          reliable (filled c sf).buf := by
  have hf := fits_of_completes hd
  rw [completes, FragmentBuffer.receive_of_accepts hf] at hd
  simp only [fragmentStep, FragmentBuffer.receive_of_accepts hf]
  rw [if_pos (by simpa using hd)]
  rfl

theorem filled_isPartOf (hf : fits c sf = true) : sf.IsPartOf (filled c sf).buf :=
  (FragmentBuffer.write_spec hf).2

end PeerEntry

/-! ## §4. Entries. -/

namespace PeerEntry

variable {p : PeerEntry} {ch : U8} {c : Channel} {sf : SendFragmentCmd}

/-- The deliver events of a batch. -/
def deliveries (ch : U8) (mode : SendMode) (ready : List Bytes) : List PeerEvent :=
  ready.map fun data => .deliver ⟨data, ch, mode⟩

theorem deliverAll_history (p : PeerEntry) (ch : U8) (mode : SendMode) (ready : List Bytes) :
    (p.deliverAll ch mode ready).history = p.history ++ deliveries ch mode ready := by
  rw [deliverAll_eq]
  rfl

theorem onSendReliable_eq (hc : p.channels[ch.toNat]? = some c) (seq : U16) (data : Bytes)
    (nowMs : U32) :
    (p.onSendReliable ch seq data nowMs).channels
        = p.channels.set ch.toNat (c.receiveReliable seq data).1
      ∧ (p.onSendReliable ch seq data nowMs).history
        = p.history ++ deliveries ch .reliable (c.receiveReliable seq data).2 := by
  simp only [onSendReliable, hc, deliverAll_channels, deliverAll_history, and_self]

theorem onSendUnreliable_eq (hc : p.channels[ch.toNat]? = some c) (rseq useq : U16) (data : Bytes)
    (nowMs : U32) :
    (seqLt rseq c.incomingReliableSeq = true →
        (p.onSendUnreliable ch rseq useq data nowMs).channels = p.channels
          ∧ (p.onSendUnreliable ch rseq useq data nowMs).history = p.history)
      ∧ (seqLt rseq c.incomingReliableSeq = false →
        (p.onSendUnreliable ch rseq useq data nowMs).channels
            = p.channels.set ch.toNat (c.receiveUnreliable useq data).1
          ∧ (p.onSendUnreliable ch rseq useq data nowMs).history
            = p.history ++ deliveries ch .unreliable (c.receiveUnreliable useq data).2.toList) := by
  constructor
  · intro hlate
    simp only [onSendUnreliable, hc, hlate, if_true, and_self]
  · intro hcurrent
    simp only [onSendUnreliable, hc, hcurrent, Bool.false_eq_true, if_false, deliverAll_channels,
      deliverAll_history, and_self]

theorem onFragment_eq (hc : p.channels[ch.toNat]? = some c) (reliable : Bool) (nowMs : U32)
    (hm : fragmentMalformed sf = false) (hr : p.fragmentRefused c sf = false) :
    (p.onFragment ch sf reliable nowMs).channels
        = p.channels.set ch.toNat (fragmentStep c sf reliable).1
      ∧ (p.onFragment ch sf reliable nowMs).history
        = p.history ++ deliveries ch (if reliable then .reliable else .unreliable)
          (fragmentStep c sf reliable).2 := by
  have hr' : ({ p with lastReceiveTime := nowMs } : PeerEntry).fragmentRefused c sf = false := hr
  simp only [onFragment, hm, Bool.false_eq_true, if_false, hc, deliverAll_channels,
    deliverAll_history]
  rw [storeFragment_channels _ ch c sf reliable hr', storeFragment_ready _ ch c sf reliable hr',
    storeFragment_eq]
  exact ⟨rfl, rfl⟩

/-- A malformed or refused fragment changes at most the last receive time. -/
theorem onFragment_dropped (hc : p.channels[ch.toNat]? = some c) (reliable : Bool) (nowMs : U32)
    (hd : fragmentMalformed sf = true ∨ p.fragmentRefused c sf = true) :
    (p.onFragment ch sf reliable nowMs).channels = p.channels
      ∧ (p.onFragment ch sf reliable nowMs).history = p.history := by
  unfold onFragment
  cases hm : fragmentMalformed sf with
  | true => exact ⟨rfl, rfl⟩
  | false =>
      have hr : ({ p with lastReceiveTime := nowMs } : PeerEntry).fragmentRefused c sf = true := by
        rcases hd with hd | hd
        · rw [hm] at hd
          cases hd
        · exact hd
      simp [hc, storeFragment, hr, deliverAll_channels, deliverAll_history, deliveries]

end PeerEntry

end EnetRs
