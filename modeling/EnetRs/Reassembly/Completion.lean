/-
  EnetRs.Reassembly.Completion — when a reassembly is complete.

  `Assembly` says what a reassembly is: the set of fragments recorded so far and
  the bytes written.  A `FragmentBuffer` keeps a counter and a bit mask instead.
  The mask is rounded up to whole 64-bit words and its length is the only bound
  on fragment numbers, so a number past the last one may still have a bit; such
  a fragment is recorded and counted.

  Main results:
    * `agreesOn_iff` — the buffer behaves like an `Assembly` on a list of calls
      exactly if none of them is in that gap.
    * `onFragments_pending` — without such fragments `on_fragment` hands out
      nothing before every announced fragment has arrived.
    * `completion_iff` — both.
-/
import EnetRs.Lib.Slices
import EnetRs.Reassembly.Arrival
import Mathlib.Data.Finset.Card

namespace EnetRs

open MachineInt

/-! ## §1. What a reassembly is. -/

/-- One call of `FragmentBuffer::receive`. -/
structure ReceiveCall where
  number : U32
  offset : Nat
  data : Bytes

/-- The fragments recorded so far, and the bytes they wrote. -/
structure Assembly where
  recorded : Finset Nat
  bytes : Bytes

namespace Assembly

/-- A reassembly of `total` bytes before the first fragment. -/
def empty (total : Nat) : Assembly := ⟨∅, List.replicate total 0⟩

/-- A reassembly of `n` fragments takes a fragment that is one of them, has not
been recorded and stays within the message. -/
def Takes (n total : Nat) (A : Assembly) (c : ReceiveCall) : Prop :=
  c.number.toNat < n ∧ c.number.toNat ∉ A.recorded ∧ c.offset + c.data.length ≤ total

instance (n total : Nat) (A : Assembly) (c : ReceiveCall) : Decidable (A.Takes n total c) :=
  inferInstanceAs (Decidable (_ ∧ _ ∧ _))

/-- The reassembly with one more fragment. -/
def record (A : Assembly) (c : ReceiveCall) : Assembly :=
  ⟨insert c.number.toNat A.recorded, Slices.overwrite A.bytes c.offset c.data⟩

/-- The reassembly after a call. -/
def receive (n total : Nat) (A : Assembly) (c : ReceiveCall) : Assembly :=
  if A.Takes n total c then A.record c else A

end Assembly

namespace FragmentBuffer

/-- `receive`, on a call. -/
def call (b : FragmentBuffer) (c : ReceiveCall) : FragmentBuffer × Bool :=
  b.receive c.number c.offset c.data

/-- `b` is a buffer for `n` fragments and `total` bytes that stands for `A`. -/
structure Represents (n : U32) (total : Nat) (b : FragmentBuffer) (A : Assembly) : Prop where
  count : b.fragmentCount = n
  received : b.received = BitVec.ofNat 32 A.recorded.card
  bytes : b.buf = A.bytes
  length : A.bytes.length = total
  words : b.mask.length = divCeil n.toNat 64
  bits : ∀ i, BitArray.testBit b.mask i = decide (i ∈ A.recorded)
  lt : ∀ i ∈ A.recorded, i < n.toNat

/-- One call does what it should: nothing if the fragment is not taken; else it is
recorded; and the answer is `true` exactly if this call completes the set. -/
structure CallAgrees (n : U32) (total : Nat) (b : FragmentBuffer) (A : Assembly) (c : ReceiveCall) :
    Prop where
  rejected : ¬ A.Takes n.toNat total c → b.call c = (b, false)
  recorded : A.Takes n.toNat total c → Represents n total (b.call c).1 (A.record c)
  complete : (b.call c).2 = true
    ↔ A.Takes n.toNat total c ∧ (A.record c).recorded = Finset.range n.toNat

/-- Every call of a list does what it should. -/
def AgreesOn (n : U32) (total : Nat) : FragmentBuffer → Assembly → List ReceiveCall → Prop
  | _, _, [] => True
  | b, A, c :: cs =>
      CallAgrees n total b A c ∧ AgreesOn n total (b.call c).1 (A.receive n.toNat total c) cs

/-- The call names a fragment past the last one that has a bit all the same, and
stays within the message. -/
def InGap (n : U32) (total : Nat) (c : ReceiveCall) : Prop :=
  n.toNat ≤ c.number.toNat ∧ c.number.toNat < 64 * divCeil n.toNat 64
    ∧ c.offset + c.data.length ≤ total

instance (n : U32) (total : Nat) (c : ReceiveCall) : Decidable (InGap n total c) :=
  inferInstanceAs (Decidable (_ ∧ _ ∧ _))

/-! ## §2. The buffer stands for its reassembly. -/

variable {n : U32} {total : Nat} {b : FragmentBuffer} {A : Assembly} {c : ReceiveCall}

theorem represents_new (total : Nat) (n : U32) : Represents n total (new total n) (.empty total) :=
  { count := rfl
    received := rfl
    bytes := rfl
    length := List.length_replicate
    words := List.length_replicate
    bits := fun i => BitArray.testBit_replicate_zero _ i
    lt := by simp [Assembly.empty] }

/-- The fragments the buffer takes. -/
theorem Represents.accepts_iff (hb : Represents n total b A) :
    b.accepts c.number c.offset c.data = true ↔ c.number.toNat < 64 * divCeil n.toNat 64
      ∧ c.number.toNat ∉ A.recorded ∧ c.offset + c.data.length ≤ total := by
  have hword : ¬ b.mask.length ≤ c.number.toNat / 64 ↔ c.number.toNat < 64 * divCeil n.toNat 64 := by
    rw [hb.words]
    omega
  simp only [accepts, Bool.and_eq_true, Bool.not_eq_true', decide_eq_false_iff_not, hb.bits, hb.bytes,
    hb.length, Nat.not_lt]
  rw [hword, and_assoc]

/-- Outside the gap the buffer takes what the reassembly takes. -/
theorem Represents.accepts_iff_takes (hb : Represents n total b A) (hgap : ¬ InGap n total c) :
    b.accepts c.number c.offset c.data = true ↔ A.Takes n.toNat total c := by
  rw [hb.accepts_iff, Assembly.Takes]
  unfold InGap at hgap
  constructor
  · rintro ⟨hmask, hnew, hfit⟩
    exact ⟨Nat.lt_of_not_le fun hge => hgap ⟨hge, hmask, hfit⟩, hnew, hfit⟩
  · rintro ⟨hlt, hnew, hfit⟩
    refine ⟨?_, hnew, hfit⟩
    unfold divCeil
    omega

/-- A recorded fragment is marked, counted and written. -/
theorem Represents.write (hb : Represents n total b A) (ht : A.Takes n.toNat total c) :
    Represents n total (b.write c.number c.offset c.data) (A.record c) := by
  obtain ⟨hlt, hnew, hfit⟩ := ht
  refine ⟨hb.count, ?_, ?_, ?_, ?_, fun i => ?_, fun i hi => ?_⟩
  · show b.received + 1 = BitVec.ofNat 32 (insert c.number.toNat A.recorded).card
    rw [Finset.card_insert_of_notMem hnew, BitVec.ofNat_add, ← hb.received]
    rfl
  · show Slices.overwrite b.buf c.offset c.data = _
    rw [hb.bytes]
    rfl
  · show (Slices.overwrite A.bytes c.offset c.data).length = total
    rw [Slices.length_overwrite (by rw [hb.length]; exact hfit), hb.length]
  · exact (BitArray.setBit_length _ _).trans hb.words
  · have hword : c.number.toNat / 64 < b.mask.length := by
      rw [hb.words, divCeil]
      omega
    show BitArray.testBit (BitArray.setBit b.mask c.number.toNat) i
      = decide (i ∈ insert c.number.toNat A.recorded)
    rw [BitArray.testBit_setBit _ _ _ (by decide) hword, hb.bits]
    simp only [Finset.mem_insert, Bool.decide_or]
  · rcases Finset.mem_insert.mp hi with rfl | hi
    · exact hlt
    · exact hb.lt i hi

/-- **Counter and set agree**: the count is reached when all numbers are there. -/
theorem Represents.received_eq_count (hb : Represents n total b A) :
    b.received = b.fragmentCount ↔ A.recorded = Finset.range n.toNat := by
  have hsub : A.recorded ⊆ Finset.range n.toNat := fun i hi => Finset.mem_range.mpr (hb.lt i hi)
  have hle : A.recorded.card ≤ n.toNat := by
    rw [← Finset.card_range n.toNat]
    exact Finset.card_le_card hsub
  have hbound := n.isLt
  rw [hb.received, hb.count]
  constructor
  · intro hcard
    have hnat := congrArg BitVec.toNat hcard
    rw [BitVec.toNat_ofNat, Nat.mod_eq_of_lt (by omega)] at hnat
    exact Finset.eq_of_subset_of_card_le hsub (by rw [Finset.card_range, hnat])
  · intro hall
    rw [hall, Finset.card_range, BitVec.ofNat_toNat, BitVec.setWidth_eq]

/-- **A call outside the gap** does what it should. -/
theorem Represents.callAgrees (hb : Represents n total b A) (hgap : ¬ InGap n total c) :
    CallAgrees n total b A c
      ∧ Represents n total (b.call c).1 (A.receive n.toNat total c) := by
  have hiff := hb.accepts_iff_takes hgap
  by_cases ht : A.Takes n.toNat total c
  · have hcall : b.call c = _ := receive_of_accepts (hiff.mpr ht)
    have hw := hb.write ht
    rw [Assembly.receive, if_pos ht]
    refine ⟨⟨fun hnot => absurd ht hnot, fun _ => ?_, ?_⟩, ?_⟩
    · rw [hcall]
      exact hw
    · rw [hcall, and_iff_right ht, ← hw.received_eq_count]
      exact beq_iff_eq
    · rw [hcall]
      exact hw
  · have hcall : b.call c = (b, false) :=
      receive_of_rejects (Bool.eq_false_iff.mpr fun ha => ht (hiff.mp ha))
    rw [Assembly.receive, if_neg ht]
    refine ⟨⟨fun _ => hcall, fun hyes => absurd hyes ht, ?_⟩, ?_⟩
    · rw [hcall]
      exact iff_of_false nofun fun hyes => ht hyes.1
    · rw [hcall]
      exact hb

/-- A call in the gap is recorded although it names no fragment. -/
theorem Represents.not_callAgrees (hb : Represents n total b A) (hgap : InGap n total c) :
    ¬ CallAgrees n total b A c := by
  intro hagree
  have hnot : ¬ A.Takes n.toNat total c := fun ht => absurd ht.1 (Nat.not_lt_of_le hgap.1)
  have hnew : c.number.toNat ∉ A.recorded := fun hmem => absurd (hb.lt _ hmem) (Nat.not_lt_of_le hgap.1)
  have hcall : b.call c = _ := receive_of_accepts (hb.accepts_iff.mpr ⟨hgap.2.1, hnew, hgap.2.2⟩)
  -- the counter has moved
  have hsame := congrArg (fun r : FragmentBuffer × Bool => r.1.received)
    (hcall.symm.trans (hagree.rejected hnot))
  have hmoved : b.received + 1 = b.received := hsame
  bv_omega

/-- The calls of a list, one after the other. -/
theorem Represents.agreesOn_iff (hb : Represents n total b A) (cs : List ReceiveCall) :
    AgreesOn n total b A cs ↔ ∀ c ∈ cs, ¬ InGap n total c := by
  induction cs generalizing b A with
  | nil => simp [AgreesOn]
  | cons c cs ih =>
      rw [List.forall_mem_cons, AgreesOn]
      by_cases hgap : InGap n total c
      · exact iff_of_false (fun h => hb.not_callAgrees hgap h.1) fun h => h.1 hgap
      · obtain ⟨hagree, hnext⟩ := hb.callAgrees hgap
        rw [ih hnext]
        exact and_congr_left fun _ => iff_of_true hagree hgap

end FragmentBuffer

/-! ## §3. Fragments of one message. -/

/-- The call `on_fragment` makes for a command. -/
def SendFragmentCmd.receiveCall (sf : SendFragmentCmd) : ReceiveCall :=
  ⟨sf.fragmentNumber, sf.fragmentOffset.toNat, sf.data⟩

namespace PeerEntry

/-- `on_fragment` for one command after the other; each comes with its kind and
the time it arrives at. -/
def onFragments (p : PeerEntry) (ch : U8) (cmds : List (SendFragmentCmd × Bool × U32)) : PeerEntry :=
  cmds.foldl (fun p x => p.onFragment ch x.1 x.2.1 x.2.2) p

variable {p : PeerEntry} {ch : U8} {c : Channel} {n : U32} {total : Nat} {b : FragmentBuffer}
  {A : Assembly} {sf : SendFragmentCmd}

open FragmentBuffer

/-- One fragment, while number `i` is missing: it is stored or ignored. -/
theorem onFragment_pending (hc : p.channels[ch.toNat]? = some c)
    (hm : fragmentMalformed sf = false) (hr : p.fragmentRefused c sf = false)
    (hbuf : fragmentBufferFor c sf = b) (hb : Represents n total b A)
    (hgap : ¬ InGap n total sf.receiveCall) {i : Nat} (hi : i < n.toNat) (hmiss : i ∉ A.recorded)
    (hother : sf.fragmentNumber.toNat ≠ i) (reliable : Bool) (nowMs : U32) :
    (p.onFragment ch sf reliable nowMs).history = p.history
      ∧ ∃ b' A', (p.onFragment ch sf reliable nowMs).channels = p.channels.set ch.toNat
          { c with fragmentBuffers := c.fragmentBuffers.insert sf.startSeq b' }
        ∧ Represents n total b' A' ∧ i ∉ A'.recorded := by
  obtain ⟨hagree, hnext⟩ := hb.callAgrees hgap
  obtain ⟨hchan, hhist⟩ := onFragment_eq hc reliable nowMs hm hr
  have hmiss' : i ∉ (A.receive n.toNat total sf.receiveCall).recorded := by
    unfold Assembly.receive
    split
    · exact fun hmem => (Finset.mem_insert.mp hmem).elim (fun h => hother h.symm) hmiss
    · exact hmiss
  -- the set is not complete, so the answer is `false`
  have hopen : ((fragmentBufferFor c sf).receive sf.fragmentNumber sf.fragmentOffset.toNat sf.data).2
      = false := by
    rw [hbuf]
    refine Bool.eq_false_iff.mpr fun hdone => ?_
    obtain ⟨ht, hall⟩ := hagree.complete.mp hdone
    rw [Assembly.receive, if_pos ht, hall, Finset.mem_range] at hmiss'
    exact hmiss' hi
  have hstep : fragmentStep c sf reliable
      = ({ c with fragmentBuffers := c.fragmentBuffers.insert sf.startSeq (b.call sf.receiveCall).1 }, [])
      := by
    have hcall : (fragmentBufferFor c sf).receive sf.fragmentNumber sf.fragmentOffset.toNat sf.data
        = ((b.call sf.receiveCall).1, false) := by
      rw [← hopen, hbuf]
      rfl
    simp only [fragmentStep, hcall]
    rfl
  rw [hstep] at hchan hhist
  exact ⟨by rw [hhist]; exact List.append_nil _, _, _, hchan, hnext, hmiss'⟩

/-- **Pending.**  While one of the announced fragments has not arrived, the
buffer takes what comes, and nothing else happens. -/
theorem onFragments_pending {key : U16} {i : Nat} (hi : i < n.toNat)
    (cmds : List (SendFragmentCmd × Bool × U32)) (hkey : ∀ x ∈ cmds, x.1.startSeq = key)
    (hgap : ∀ x ∈ cmds, ¬ InGap n total x.1.receiveCall)
    (hother : ∀ x ∈ cmds, x.1.fragmentNumber.toNat ≠ i) (hc : p.channels[ch.toNat]? = some c)
    (hsome : c.fragmentBuffers[key]? = some b) (hb : Represents n total b A)
    (hmiss : i ∉ A.recorded) :
    (p.onFragments ch cmds).history = p.history
      ∧ ∃ buffers, (p.onFragments ch cmds).channels[ch.toNat]?
        = some { c with fragmentBuffers := buffers } := by
  induction cmds generalizing p c b A with
  | nil => exact ⟨rfl, c.fragmentBuffers, hc⟩
  | cons x cmds ih =>
      obtain ⟨sf, reliable, nowMs⟩ := x
      have hstart : sf.startSeq = key := hkey _ List.mem_cons_self
      have hkey' := fun x hx => hkey x (List.mem_cons_of_mem _ hx)
      have hgap' := fun x hx => hgap x (List.mem_cons_of_mem _ hx)
      have hother' := fun x hx => hother x (List.mem_cons_of_mem _ hx)
      show (onFragments (p.onFragment ch sf reliable nowMs) ch cmds).history = p.history
        ∧ ∃ buffers, (onFragments (p.onFragment ch sf reliable nowMs) ch cmds).channels[ch.toNat]?
          = some { c with fragmentBuffers := buffers }
      cases hm : fragmentMalformed sf with
      | true =>
          obtain ⟨hchan, hhist⟩ := onFragment_dropped hc reliable nowMs (.inl hm)
          rw [← hhist]
          exact ih hkey' hgap' hother' (hchan ▸ hc) hsome hb hmiss
      | false =>
          have hr : p.fragmentRefused c sf = false := by
            have hin : c.fragmentBuffers.contains sf.startSeq = true := by
              rw [hstart, Std.ExtTreeMap.contains_eq_isSome_getElem?, hsome]
              rfl
            simp [fragmentRefused, hin]
          have hbuf : fragmentBufferFor c sf = b := by
            rw [fragmentBufferFor, hstart, hsome]
            rfl
          obtain ⟨hhist, b', A', hchan, hb', hmiss'⟩ := onFragment_pending hc hm hr hbuf hb
            (hgap _ List.mem_cons_self) hi hmiss (hother _ List.mem_cons_self) reliable nowMs
          have hc' : (p.onFragment ch sf reliable nowMs).channels[ch.toNat]? = some
              { c with fragmentBuffers := c.fragmentBuffers.insert sf.startSeq b' } := by
            rw [hchan, List.getElem?_set_self (List.getElem?_eq_some_iff.mp hc).1]
          obtain ⟨hhist', buffers, hbuffers⟩ := ih hkey' hgap' hother' hc'
            (by rw [hstart]; simp) hb' hmiss'
          exact ⟨hhist'.trans hhist, buffers, hbuffers⟩

/-- **Complete exactly when complete.**  On a list of calls a new buffer behaves
like the reassembly it stands for exactly if no call is in the gap between the
number of fragments and the length of the mask.  And where no fragment command
of a message is in that gap of the buffer the first one opens, `on_fragment`
delivers nothing and queues nothing before all announced fragments have arrived,
whatever else the commands say. -/
theorem completion_iff (n : U32) (total : Nat) :
    (∀ calls, AgreesOn n total (FragmentBuffer.new total n) (.empty total) calls
        ↔ ∀ c ∈ calls, ¬ InGap n total c)
      ∧ ∀ (p : PeerEntry) (ch : U8) (c : Channel) (sf : SendFragmentCmd) (reliable : Bool) (nowMs : U32)
          (cmds : List (SendFragmentCmd × Bool × U32)),
        p.channels[ch.toNat]? = some c → c.fragmentBuffers[sf.startSeq]? = none →
        fragmentMalformed sf = false → p.fragmentRefused c sf = false →
        sf.fragmentCount = n → sf.totalLength.toNat = total →
        (∀ x ∈ cmds, x.1.startSeq = sf.startSeq) →
        (∀ x ∈ (sf, reliable, nowMs) :: cmds, ¬ InGap n total x.1.receiveCall) →
        (∃ i < n.toNat, ∀ x ∈ (sf, reliable, nowMs) :: cmds, x.1.fragmentNumber.toNat ≠ i) →
        (p.onFragments ch ((sf, reliable, nowMs) :: cmds)).history = p.history
          ∧ ∃ buffers, (p.onFragments ch ((sf, reliable, nowMs) :: cmds)).channels[ch.toNat]?
            = some { c with fragmentBuffers := buffers } := by
  refine ⟨(represents_new total n).agreesOn_iff, ?_⟩
  rintro p ch c sf reliable nowMs cmds hc hnone hm hr rfl rfl hkey hgap ⟨i, hi, hother⟩
  have hbuf : fragmentBufferFor c sf = FragmentBuffer.new sf.totalLength.toNat sf.fragmentCount := by
    rw [fragmentBufferFor, hnone]
    rfl
  -- the first command opens the buffer, the others find it
  obtain ⟨hhist, b', A', hchan, hb', hmiss⟩ := onFragment_pending hc hm hr hbuf (represents_new _ _)
    (hgap _ List.mem_cons_self) hi (Finset.notMem_empty i) (hother _ List.mem_cons_self) reliable nowMs
  have hc' : (p.onFragment ch sf reliable nowMs).channels[ch.toNat]? = some
      { c with fragmentBuffers := c.fragmentBuffers.insert sf.startSeq b' } := by
    rw [hchan, List.getElem?_set_self (List.getElem?_eq_some_iff.mp hc).1]
  obtain ⟨hhist', buffers, hbuffers⟩ := onFragments_pending hi cmds hkey
    (fun x hx => hgap x (List.mem_cons_of_mem _ hx)) (fun x hx => hother x (List.mem_cons_of_mem _ hx))
    hc' (by simp) hb' hmiss
  exact ⟨hhist'.trans hhist, buffers, hbuffers⟩

/-- Two bytes of a message of four, as fragment `number` of `count`. -/
def halfOf (count number offset : U32) (data : Bytes) : SendFragmentCmd :=
  ⟨1, count, number, 4, offset, data⟩

theorem completion_iff_two :
    AgreesOn 2 4 (FragmentBuffer.new 4 2) (.empty 4) [⟨1, 2, [3, 4]⟩, ⟨1, 0, [9]⟩, ⟨0, 0, [1, 2]⟩]
      ∧ ((PeerEntry.fresh HostTask.alice 77 0 1392 2 0).onFragments 0
        [(halfOf 2 0 0 [1, 2], true, 5), (halfOf 2 0 0 [9, 9], true, 6)]).history = [] := by
  obtain ⟨hcalls, hfragments⟩ := completion_iff 2 4
  refine ⟨(hcalls _).mpr (by decide), (hfragments _ 0 Channel.new _ true 5 _ rfl (by simp [Channel.new])
    rfl rfl rfl rfl (by decide) (by decide) ⟨1, by decide, by decide⟩).1⟩

/-- **A message with a hole.**  A buffer for two fragments takes fragment 0 and,
from a command that announces three, fragment 2: that makes two, and the message
is delivered although fragment 1 never came. -/
theorem completes_with_hole :
    (((FragmentBuffer.new 4 2).call ⟨0, 0, [1, 2]⟩).1.call ⟨2, 0, [9]⟩).2 = true
      ∧ ¬ AgreesOn 2 4 (FragmentBuffer.new 4 2) (.empty 4) [⟨0, 0, [1, 2]⟩, ⟨2, 0, [9]⟩]
      ∧ ∃ h p, (HostTask.bind 4 false 0 0).run (HostTask.aliceConnects 0 ++
          [(20, .datagram (peerDatagram 0 20 [fragmentCommand 0 1 (halfOf 2 0 0 [1, 2]),
            fragmentCommand 0 2 (halfOf 3 2 0 [9])]) HostTask.alice)]) = some h
        ∧ h.peer 0 = some p ∧ .deliver ⟨[9, 2, 0, 0], 0, .reliable⟩ ∈ p.history := by
  refine ⟨by decide, ?_, ?_⟩
  · rw [(represents_new 4 2).agreesOn_iff]
    decide
  · have hrun : ((HostTask.bind 4 false 0 0).run (HostTask.aliceConnects 0 ++
        [(20, .datagram (peerDatagram 0 20 [fragmentCommand 0 1 (halfOf 2 0 0 [1, 2]),
          fragmentCommand 0 2 (halfOf 3 2 0 [9])]) HostTask.alice)])).any (fun h =>
        (h.peer 0).any fun p => decide (.deliver ⟨[9, 2, 0, 0], 0, .reliable⟩ ∈ p.history)) = true := by
      decide +kernel
    obtain ⟨h, hh, hrest⟩ := (Option.any_eq_true _ _).mp hrun
    obtain ⟨p, hp, hmem⟩ := (Option.any_eq_true _ _).mp hrest
    exact ⟨h, p, hh, hp, of_decide_eq_true hmem⟩

end PeerEntry

end EnetRs
