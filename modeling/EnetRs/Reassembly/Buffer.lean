/-
  EnetRs.Reassembly.Buffer — what a reassembly buffer holds.

  `Holds b fp m S` says that `b` is the buffer of the message `m`, cut into
  fragments of size `fp`, into which exactly the fragments in `S` have been
  written.  Fragments arrive as `send_packet` makes them (`fragmentOf`).

  Main results:
    * `Holds.new`, `Holds.receive_old`, `Holds.receive_new` — a buffer just
      made, a fragment that came before, a fragment that is new.
    * `Holds.buf_eq` — once it holds all fragments, it holds the message.
    * `PeerEntry.onFragment_taken` — what `on_fragment` does with a fragment
      whose number is free or belongs to its own message.
-/
import EnetRs.Host.Bounds
import EnetRs.Lib.Slices
import EnetRs.Reassembly.Arrival
import Mathlib.Data.Finset.Card
import Mathlib.Data.Finset.Range

namespace EnetRs

open MachineInt Slices

/-! ## §1. The fragments of a message. -/

section Fragments

variable {fp : Nat} {m : Bytes} {i : Nat}

theorem lt_fragCount_iff (hfp : 0 < fp) : i < fragCount fp m ↔ i * fp < m.length := by
  rw [fragCount, divCeil, Nat.lt_div_iff_mul_lt hfp]
  omega

/-- What is assumed of a message that is sent in fragments: the header fields
that describe it are wide enough. -/
structure Sized (fp : Nat) (m : Bytes) : Prop where
  pos : 0 < fp
  length : m.length < 2 ^ 32

namespace Sized

variable (hs : Sized fp m)

include hs

theorem offset (hi : i < fragCount fp m) (startSeq : U16) :
    (fragmentOf startSeq fp m i).fragmentOffset.toNat = i * fp := by
  have hlt := (lt_fragCount_iff hs.pos).mp hi
  exact Nat.mod_eq_of_lt (Nat.lt_trans hlt hs.length)

theorem fragCount_le : fragCount fp m ≤ m.length := by
  by_contra hlt
  have hmul := (lt_fragCount_iff hs.pos).mp (Nat.lt_of_not_le hlt)
  have hge : m.length * 1 ≤ m.length * fp := Nat.mul_le_mul_left _ hs.pos
  omega

theorem number (hi : i < fragCount fp m) (startSeq : U16) :
    (fragmentOf startSeq fp m i).fragmentNumber.toNat = i :=
  Nat.mod_eq_of_lt (Nat.lt_of_lt_of_le hi (Nat.le_trans hs.fragCount_le hs.length.le))

theorem total (startSeq : U16) : (fragmentOf startSeq fp m i).totalLength.toNat = m.length :=
  Nat.mod_eq_of_lt hs.length

theorem count (startSeq : U16) :
    (fragmentOf startSeq fp m i).fragmentCount.toNat = fragCount fp m :=
  Nat.mod_eq_of_lt (Nat.lt_of_le_of_lt hs.fragCount_le hs.length)

end Sized

theorem fragmentOf_data (startSeq : U16) : (fragmentOf startSeq fp m i).data = piece fp m i := rfl

end Fragments

/-! ## §2. Buffers. -/

/-- `b` is the buffer of the message `m`, with the fragments in `S` written. -/
structure Holds (b : FragmentBuffer) (fp : Nat) (m : Bytes) (S : Finset Nat) : Prop where
  count : b.fragmentCount = BitVec.ofNat 32 (fragCount fp m)
  received : b.received = BitVec.ofNat 32 S.card
  length : b.buf.length = m.length
  words : b.mask.length = divCeil (fragCount fp m) 64
  bits : ∀ i, BitArray.testBit b.mask i = decide (i ∈ S)
  pieces : ∀ i ∈ S, piece fp b.buf i = piece fp m i
  lt : ∀ i ∈ S, i < fragCount fp m

namespace Holds

variable {b : FragmentBuffer} {fp : Nat} {m : Bytes} {S : Finset Nat} {i : Nat}

theorem new (hs : Sized fp m) (startSeq : U16) (i : Nat) :
    Holds (FragmentBuffer.new (fragmentOf startSeq fp m i).totalLength.toNat
      (fragmentOf startSeq fp m i).fragmentCount) fp m ∅ :=
  { count := rfl
    received := rfl
    length := by simp [FragmentBuffer.new, hs.total]
    words := by simp [FragmentBuffer.new, hs.count]
    bits := fun i => by simp [FragmentBuffer.new, BitArray.testBit_replicate_zero]
    pieces := by simp
    lt := by simp }

/-- A fragment of the message fits its buffer unless it is there already. -/
theorem accepts_eq (hb : Holds b fp m S) (hs : Sized fp m) (hi : i < fragCount fp m)
    (startSeq : U16) :
    b.accepts (fragmentOf startSeq fp m i).fragmentNumber
      (fragmentOf startSeq fp m i).fragmentOffset.toNat (fragmentOf startSeq fp m i).data
      = !decide (i ∈ S) := by
  have hword : ¬ b.mask.length ≤ i / 64 := by
    rw [hb.words, divCeil]
    omega
  have hbound : ¬ b.buf.length < i * fp + (piece fp m i).length := by
    rw [hb.length, Nat.not_lt]
    exact piece_bound ((lt_fragCount_iff hs.pos).mp hi).le
  simp only [FragmentBuffer.accepts, hs.number hi, hs.offset hi, fragmentOf_data, hb.bits, hword,
    hbound, decide_false, Bool.not_false, Bool.true_and, Bool.and_true]

theorem receive_old (hb : Holds b fp m S) (hs : Sized fp m) (hi : i < fragCount fp m)
    (hmem : i ∈ S) (startSeq : U16) :
    b.receive (fragmentOf startSeq fp m i).fragmentNumber
      (fragmentOf startSeq fp m i).fragmentOffset.toNat (fragmentOf startSeq fp m i).data
      = (b, false) := by
  refine FragmentBuffer.receive_of_rejects ?_
  rw [hb.accepts_eq hs hi, decide_eq_true hmem]
  rfl

/-- The buffer with a new fragment written into it. -/
theorem write (hb : Holds b fp m S) (hs : Sized fp m) (hi : i < fragCount fp m) (hnew : i ∉ S)
    (startSeq : U16) :
    Holds (b.write (fragmentOf startSeq fp m i).fragmentNumber
      (fragmentOf startSeq fp m i).fragmentOffset.toNat (fragmentOf startSeq fp m i).data)
      fp m (insert i S) := by
  have hle : i * fp ≤ m.length := ((lt_fragCount_iff hs.pos).mp hi).le
  have hbuf : (b.write (fragmentOf startSeq fp m i).fragmentNumber
      (fragmentOf startSeq fp m i).fragmentOffset.toNat (fragmentOf startSeq fp m i).data).buf
      = overwrite b.buf (i * fp) (piece fp m i) := by
    simp only [FragmentBuffer.write, hs.offset hi, fragmentOf_data]
    rfl
  refine ⟨hb.count, ?_, ?_, ?_, fun j => ?_, fun j hj => ?_, fun j hj => ?_⟩
  · rw [Finset.card_insert_of_notMem hnew, BitVec.ofNat_add, ← hb.received]
    rfl
  · rw [hbuf, length_overwrite (by rw [hb.length]; exact piece_bound hle), hb.length]
  · simp only [FragmentBuffer.write, BitArray.setBit_length, hb.words]
  · have hword : i / 64 < b.mask.length := by
      rw [hb.words, divCeil]
      omega
    simp only [FragmentBuffer.write, hs.number hi]
    rw [BitArray.testBit_setBit _ _ _ (by decide) hword, hb.bits]
    simp only [Finset.mem_insert, Bool.decide_or]
  · rw [hbuf, piece_overwrite hle hb.length]
    split
    · next hji => rw [hji]
    · next hji => exact hb.pieces j (Finset.mem_of_mem_insert_of_ne hj hji)
  · rcases Finset.mem_insert.mp hj with rfl | hj
    · exact hi
    · exact hb.lt j hj

/-- The number of fragments received fits its field. -/
theorem card_le (hb : Holds b fp m S) : S.card ≤ fragCount fp m := by
  have hsub : S ⊆ Finset.range (fragCount fp m) := fun i hi => Finset.mem_range.mpr (hb.lt i hi)
  exact (Finset.card_le_card hsub).trans_eq (Finset.card_range _)

theorem receive_new (hb : Holds b fp m S) (hs : Sized fp m) (hi : i < fragCount fp m)
    (hnew : i ∉ S) (startSeq : U16) :
    ∃ b', b.receive (fragmentOf startSeq fp m i).fragmentNumber
        (fragmentOf startSeq fp m i).fragmentOffset.toNat (fragmentOf startSeq fp m i).data
        = (b', decide (S.card + 1 = fragCount fp m))
      ∧ Holds b' fp m (insert i S) := by
  have hw := hb.write hs hi hnew startSeq
  refine ⟨_, ?_, hw⟩
  rw [FragmentBuffer.receive_of_accepts (by rw [hb.accepts_eq hs hi, decide_eq_false hnew]; rfl)]
  refine Prod.ext rfl ?_
  have hcard := hw.card_le
  rw [Finset.card_insert_of_notMem hnew] at hcard
  have hn := hs.fragCount_le
  have hlen := hs.length
  show (b.received + 1 == b.fragmentCount) = decide (S.card + 1 = fragCount fp m)
  rw [hb.received, hb.count, Bool.beq_eq_decide_eq]
  refine decide_eq_decide.mpr ?_
  rw [← BitVec.toNat_inj]
  have hone : (1 : U32).toNat = 1 := rfl
  simp only [BitVec.toNat_add, BitVec.toNat_ofNat, hone]
  omega

/-- **All fragments are there**: the buffer holds the message. -/
theorem buf_eq (hb : Holds b fp m S) (hfp : 0 < fp) (hall : S.card = fragCount fp m) :
    b.buf = m := by
  have hsub : S ⊆ Finset.range (fragCount fp m) := fun i hi => Finset.mem_range.mpr (hb.lt i hi)
  have heq : S = Finset.range (fragCount fp m) :=
    Finset.eq_of_subset_of_card_le hsub (by rw [Finset.card_range, hall])
  refine eq_of_pieces hfp hb.length fun i hi => hb.pieces i ?_
  rw [heq, Finset.mem_range]
  exact (lt_fragCount_iff hfp).mpr hi

end Holds

/-! ## §3. A fragment arrives. -/

/-- The fragments in `S` are in the buffer under `key`; there is none if `S` is
empty. -/
def BufferAt (c : Channel) (key : U16) (fp : Nat) (m : Bytes) (S : Finset Nat) : Prop :=
  (c.fragmentBuffers[key]? = none ∧ S = ∅)
    ∨ ∃ b, c.fragmentBuffers[key]? = some b ∧ Holds b fp m S

/-- **What becomes of fragment `j` of the message `m`**: it is dropped, stored,
or the last one. -/
inductive Taken (p : PeerEntry) (ch : U8) (c : Channel) (fp : Nat) (m : Bytes) (key : U16)
    (S : Finset Nat) (j : Nat) (reliable : Bool) (p' : PeerEntry) : Prop
  | dropped (cause : PeerEntry.fragmentMalformed (fragmentOf key fp m j) = true
        ∨ p.fragmentRefused c (fragmentOf key fp m j) = true)
      (channels : p'.channels = p.channels) (history : p'.history = p.history)
  | stored (b : FragmentBuffer) (holds : Holds b fp m (insert j S))
      (more : (insert j S).card < fragCount fp m)
      (channels : p'.channels = p.channels.set ch.toNat
        { c with fragmentBuffers := c.fragmentBuffers.insert key b })
      (history : p'.history = p.history)
  | last (new : j ∉ S) (all : (insert j S).card = fragCount fp m)
      (channels : p'.channels = p.channels.set ch.toNat
        (PeerEntry.releaseAssembled { c with fragmentBuffers := c.fragmentBuffers.erase key }
          (fragmentOf key fp m j) reliable m).1)
      (history : p'.history = p.history
        ++ PeerEntry.deliveries ch (if reliable then .reliable else .unreliable)
          (PeerEntry.releaseAssembled { c with fragmentBuffers := c.fragmentBuffers.erase key }
            (fragmentOf key fp m j) reliable m).2)

/-- An unreliable message is judged by its own number. -/
theorem PeerEntry.releaseAssembled_unreliable (c : Channel) (key : U16) (fp : Nat) (m : Bytes)
    (j : Nat) :
    releaseAssembled c (fragmentOf key fp m j) false m
      = ((c.receiveUnreliable key m).1, (c.receiveUnreliable key m).2.toList) := by
  simp only [releaseAssembled, Bool.false_eq_true, if_false]
  have hkey : (fragmentOf key fp m j).startSeq = key := rfl
  rw [hkey]
  rcases c.receiveUnreliable key m with ⟨c', _ | d⟩ <;> rfl

theorem BufferAt.holds {c : Channel} {key : U16} {fp : Nat} {m : Bytes} {S : Finset Nat}
    (hb : BufferAt c key fp m S) (hs : Sized fp m) (j : Nat) :
    Holds (PeerEntry.fragmentBufferFor c (fragmentOf key fp m j)) fp m S := by
  have hkey : (fragmentOf key fp m j).startSeq = key := rfl
  rcases hb with ⟨hnone, rfl⟩ | ⟨b, hsome, hb⟩
  · simp only [PeerEntry.fragmentBufferFor, hkey, hnone, Option.getD_none]
    exact .new hs key j
  · simp only [PeerEntry.fragmentBufferFor, hkey, hsome, Option.getD_some]
    exact hb

theorem PeerEntry.onFragment_taken {p : PeerEntry} {ch : U8} {c : Channel} {fp : Nat} {m : Bytes}
    {key : U16} {S : Finset Nat} {j : Nat} (hc : p.channels[ch.toNat]? = some c)
    (hb : BufferAt c key fp m S) (hs : Sized fp m) (hj : j < fragCount fp m)
    (hmore : S.card < fragCount fp m) (reliable : Bool) (nowMs : U32) :
    Taken p ch c fp m key S j reliable (p.onFragment ch (fragmentOf key fp m j) reliable nowMs) := by
  by_cases hdrop : fragmentMalformed (fragmentOf key fp m j) = true
      ∨ p.fragmentRefused c (fragmentOf key fp m j) = true
  · obtain ⟨hchan, hhist⟩ := onFragment_dropped hc reliable nowMs hdrop
    exact .dropped hdrop hchan hhist
  · simp only [not_or, Bool.not_eq_true] at hdrop
    obtain ⟨hchan, hhist⟩ := onFragment_eq hc reliable nowMs hdrop.1 hdrop.2
    have hholds := hb.holds hs j
    by_cases hmem : j ∈ S
    · -- a duplicate: the buffer is put back as it was
      have hnot : fits c (fragmentOf key fp m j) = false := by
        rw [fits, hholds.accepts_eq hs hj, decide_eq_true hmem]
        rfl
      have hstep := fragmentStep_rejected hnot reliable
      rw [hstep] at hchan hhist
      have hsame : insert j S = S := Finset.insert_eq_of_mem hmem
      refine .stored _ (hsame.symm ▸ hholds) (hsame.symm ▸ hmore) hchan ?_
      rw [hhist]
      exact List.append_nil _
    · obtain ⟨b', hrecv, hb'⟩ := hholds.receive_new hs hj hmem key
      have hcard := Finset.card_insert_of_notMem hmem
      have hfits : fits c (fragmentOf key fp m j) = true := by
        rw [fits, hholds.accepts_eq hs hj, decide_eq_false hmem]
        rfl
      have hfilled : filled c (fragmentOf key fp m j) = b' := by
        have hacc := FragmentBuffer.receive_of_accepts hfits
        rw [hrecv] at hacc
        exact (congrArg Prod.fst hacc).symm
      have hdone : completes c (fragmentOf key fp m j)
          = decide (S.card + 1 = fragCount fp m) := congrArg Prod.snd hrecv
      by_cases hall : S.card + 1 = fragCount fp m
      · rw [decide_eq_true hall] at hdone
        rw [fragmentStep_complete hdone, hfilled, hb'.buf_eq hs.pos (hcard.trans hall)]
          at hchan hhist
        exact .last hmem (hcard.trans hall) hchan hhist
      · rw [decide_eq_false hall] at hdone
        rw [fragmentStep_stored hfits hdone, hfilled] at hchan hhist
        have hlt : (insert j S).card < fragCount fp m := by
          have hle := hb'.card_le
          omega
        refine .stored b' hb' hlt hchan ?_
        rw [hhist]
        exact List.append_nil _

end EnetRs
