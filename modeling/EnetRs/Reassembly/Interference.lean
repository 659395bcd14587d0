/-
  EnetRs.Reassembly.Interference — a reliable and an unreliable reassembly.

  `on_fragment` keeps the buffers of both kinds in one map, under `start_seq`.
  Reliable and unreliable numbers are counted apart, so a reliable and an
  unreliable message can have the same one; their fragments then end up in one
  buffer.  The number of buffers and the bytes in them are also limited for both
  kinds together.

  Main results:
    * `MessagePair.Shelves.step` — one fragment.
    * `MessagePair.undisturbed` — every interleaving, for messages that do not
      get in each other's way.
    * `MessagePair.undisturbed_iff_apart` — which ones these are.
-/
import EnetRs.Reassembly.Reception
import EnetRs.Reassembly.Separate

namespace EnetRs

open MachineInt Slices

/-! ## §1. Two messages of one sender. -/

/-- A message that the sender cuts into fragments. -/
structure CutMessage (s : Sender) where
  startSeq : U16
  data : Bytes
  reliable : Bool
  cut : s.whole ⟨data, 0, if reliable then .reliable else .unreliable⟩ = false
  length : data.length ≤ maxPacketSize

namespace CutMessage

variable {s : Sender} (m : CutMessage s)

def pieces : Nat := fragCount s.fp m.data

def fragment (j : Nat) : SendFragmentCmd := fragmentOf m.startSeq s.fp m.data j

/-- The message would get a buffer if no other fragment arrived. -/
def FitsAlone (p : PeerEntry) (c : Channel) : Prop :=
  c.fragmentBuffers.size < maxFragmentBuffersPerChannel
    ∧ p.fragmentBytesInFlight + m.data.length ≤ maxFragmentBytesPerPeer

instance (p : PeerEntry) (c : Channel) : Decidable (m.FitsAlone p c) :=
  inferInstanceAs (Decidable (_ ∧ _))

theorem sized : Sized s.fp m.data :=
  ⟨s.fp_pos, Nat.lt_of_le_of_lt m.length (by decide)⟩

theorem two_le : 2 ≤ m.pieces := s.two_le_fragCount _ m.cut

/-- A message that is not too long has not too many fragments. -/
theorem pieces_le : m.pieces ≤ 65536 := by
  have hmtu : 576 ≤ s.mtu.toNat := s.mtu_ge
  have hfp : 544 ≤ s.fp := by
    unfold Sender.fp fragPayload HostTask.hdrOverhead
    split <;> omega
  by_contra hgt
  have hlt := (lt_fragCount_iff s.fp_pos).mp (Nat.lt_of_not_le hgt)
  have hmul : 65536 * 544 ≤ 65536 * s.fp := Nat.mul_le_mul_left _ hfp
  have hlen := m.length
  have hmax : maxPacketSize = 33554432 := rfl
  omega

/-- Without room for its buffer every fragment of the message is refused. -/
theorem refused {p : PeerEntry} {c : Channel} (hnone : c.fragmentBuffers.contains m.startSeq = false)
    (hno : ¬ m.FitsAlone p c) (j : Nat) : p.fragmentRefused c (m.fragment j) = true := by
  have htotal : (m.fragment j).totalLength.toNat = m.data.length := m.sized.total _
  have hkey : (m.fragment j).startSeq = m.startSeq := rfl
  simp only [PeerEntry.fragmentRefused, hkey, hnone, htotal, Bool.not_false, Bool.true_and,
    Bool.or_eq_true, decide_eq_true_eq]
  simp only [FitsAlone, not_and_or, Nat.not_lt, Nat.not_le] at hno
  exact hno

/-- No fragment of the message is malformed. -/
theorem formed {j : Nat} (hj : j < m.pieces) :
    PeerEntry.fragmentMalformed (m.fragment j) = false := by
  have hs := m.sized
  have hle := m.pieces_le
  have hcount : (m.fragment j).fragmentCount.toNat = m.pieces := hs.count m.startSeq
  have hnumber : (m.fragment j).fragmentNumber.toNat = j := hs.number hj m.startSeq
  have htotal : (m.fragment j).totalLength.toNat = m.data.length := hs.total m.startSeq
  have hoffset : (m.fragment j).fragmentOffset.toNat = j * s.fp := hs.offset hj m.startSeq
  have hbound : j * s.fp + (piece s.fp m.data j).length ≤ m.data.length :=
    piece_bound ((lt_fragCount_iff hs.pos).mp hj).le
  have hmax : maxFragmentCount.toNat = 1048576 := rfl
  simp only [PeerEntry.fragmentMalformed, Bool.or_eq_false_iff, beq_eq_false_iff_ne,
    decide_eq_false_iff_not, BitVec.lt_def, BitVec.le_def, hcount, hnumber, htotal, hoffset, hmax]
  refine ⟨⟨⟨⟨⟨fun hzero => ?_, by omega⟩, by omega⟩, by omega⟩, Nat.not_lt.mpr m.length⟩,
    Nat.not_lt.mpr hbound⟩
  rw [hzero] at hcount
  have htwo := m.two_le
  have hzero' : (0 : U32).toNat = 0 := rfl
  omega

end CutMessage

/-- A reliable and an unreliable message, `message true` and `message false`. -/
structure MessagePair (s : Sender) where
  ch : U8
  message : Bool → CutMessage s
  mode : ∀ b, (message b).reliable = b

/-- A fragment of one of the two arrives. -/
structure PairArrival where
  reliable : Bool
  part : Nat
  nowMs : U32

namespace PeerEntry

/-- The payloads delivered on channel `ch` in one mode. -/
def payloads (p : PeerEntry) (ch : U8) (mode : SendMode) : List Bytes :=
  ((p.deliveredOn ch).filter (·.mode == mode)).map (·.data)

theorem payloads_deliveries {p q : PeerEntry} {ch : U8} {mode' : SendMode} {out : List Bytes}
    (mode : SendMode) (hh : q.history = p.history ++ deliveries ch mode' out)
    (hmode : mode' ≠ .unsequenced) :
    q.payloads ch mode = p.payloads ch mode ++ if mode' = mode then out else [] := by
  rw [payloads, deliveredOn_filter_mode mode hh hmode, List.map_append]
  refine congrArg ((p.payloads ch mode) ++ ·) ?_
  split
  · rw [List.map_map]
    exact List.map_id' out
  · rfl

end PeerEntry

namespace MessagePair

variable {s : Sender} (w : MessagePair s)

def Valid (a : PairArrival) : Prop := a.part < (w.message a.reliable).pieces

instance (a : PairArrival) : Decidable (w.Valid a) := inferInstanceAs (Decidable (_ < _))

/-- The receiver's `on_fragment`. -/
def receive (p : PeerEntry) (a : PairArrival) : PeerEntry :=
  p.onFragment w.ch ((w.message a.reliable).fragment a.part) a.reliable a.nowMs

def receiveAll (p : PeerEntry) (is : List PairArrival) : PeerEntry := is.foldl w.receive p

/-- The arrivals without the unreliable message. -/
def onlyReliable (is : List PairArrival) : List PairArrival := is.filter (·.reliable)

def chan (p : PeerEntry) : Channel := (p.channels[w.ch.toNat]?).getD Channel.new

/-- The payload was in the queue before, or is the reliable message. -/
def Known (c : Channel) (key : U16) (d : Bytes) : Prop :=
  (key = (w.message true).startSeq ∧ d = (w.message true).data)
    ∨ c.incomingReliableQueue[key]? = some d

/-- **The reassemblies do not interfere**: the reliable stream is what it would
be if no fragment of the unreliable message had arrived, and what is delivered or
held back for either of the messages is that message. -/
structure Undisturbed (p : PeerEntry) (is : List PairArrival) : Prop where
  reliable : (w.receiveAll p is).payloads w.ch .reliable
    = (w.receiveAll p (onlyReliable is)).payloads w.ch .reliable
  stream : SameStream (w.chan (w.receiveAll p is)) (w.chan (w.receiveAll p (onlyReliable is)))
  exactReliable : ∃ l, (w.receiveAll p is).payloads w.ch .reliable = p.payloads w.ch .reliable ++ l
    ∧ ∀ d ∈ l, ∃ key, w.Known (w.chan p) key d
  exactHeld : ∀ key d, (w.chan (w.receiveAll p is)).incomingReliableQueue[key]? = some d →
    w.Known (w.chan p) key d
  exactUnreliable : ∃ l,
    (w.receiveAll p is).payloads w.ch .unreliable = p.payloads w.ch .unreliable ++ l
      ∧ ∀ d ∈ l, d = (w.message false).data

/-- Both messages have room at once. -/
def FitTogether (p : PeerEntry) (c : Channel) : Prop :=
  c.fragmentBuffers.size + 1 < maxFragmentBuffersPerChannel
    ∧ p.fragmentBytesInFlight + (w.message true).data.length + (w.message false).data.length
      ≤ maxFragmentBytesPerPeer

/-- The messages do not get in each other's way: their start numbers differ and
there is room for both, or one of them would be refused anyway; or both would. -/
def Apart (p : PeerEntry) (c : Channel) : Prop :=
  ((w.message true).startSeq ≠ (w.message false).startSeq
      ∧ (w.FitTogether p c ∨ ∃ b, ¬ (w.message b).FitsAlone p c))
    ∨ ∀ b, ¬ (w.message b).FitsAlone p c

/-! ## §2. What the receiver holds. -/

/-- The fragments in `S b` of `message b` are in their buffer; apart from that,
the receiver holds what the entry `p` with channel `c` held. -/
structure Shelves (p : PeerEntry) (c : Channel) (q : PeerEntry) (c' : Channel)
    (S : Bool → Finset Nat) : Prop where
  channel : q.channels[w.ch.toNat]? = some c'
  side : ∀ b, Side c' (w.message b).startSeq s.fp (w.message b).data (S b)
  fits : ∀ b, S b ≠ ∅ → (w.message b).FitsAlone p c
  size : c'.fragmentBuffers.size
    = c.fragmentBuffers.size + buffers (S true) + buffers (S false)
  bytes : q.fragmentBytesInFlight
    = p.fragmentBytesInFlight + (w.message true).data.length * buffers (S true)
      + (w.message false).data.length * buffers (S false)

variable {w} {p q : PeerEntry} {c c' : Channel} {S : Bool → Finset Nat} {a : PairArrival}

/-- Nothing of the two messages has arrived. -/
theorem Shelves.begins (hc : p.channels[w.ch.toNat]? = some c)
    (hnone : ∀ b, c.fragmentBuffers.contains (w.message b).startSeq = false) :
    w.Shelves p c p c fun _ => ∅ := by
  refine ⟨hc, fun b => ⟨.inl ⟨?_, rfl⟩, ?_, ?_⟩, fun b hne => absurd rfl hne, ?_, ?_⟩
  · have hno := hnone b
    rw [Std.ExtTreeMap.contains_eq_isSome_getElem?, Option.isSome_eq_false_iff] at hno
    exact Option.isNone_iff_eq_none.mp hno
  · simpa using hnone b
  · rw [Finset.card_empty]
    exact Nat.lt_of_lt_of_le Nat.two_pos (w.message b).two_le
  · simp [buffers]
  · simp [buffers]

/-- The other message. -/
theorem Shelves.size_bytes (hq : w.Shelves p c q c' S) (b : Bool) :
    c'.fragmentBuffers.size = c.fragmentBuffers.size + buffers (S b) + buffers (S (!b))
      ∧ q.fragmentBytesInFlight
        = p.fragmentBytesInFlight + (w.message b).data.length * buffers (S b)
          + (w.message (!b)).data.length * buffers (S (!b)) := by
  have hsize := hq.size
  have hbytes := hq.bytes
  cases b with
  | true => exact ⟨hsize, hbytes⟩
  | false =>
      refine ⟨?_, ?_⟩
      · rw [hsize]
        exact Nat.add_right_comm ..
      · rw [hbytes]
        exact Nat.add_right_comm ..

theorem buffers_le (S : Finset Nat) : buffers S ≤ 1 := by
  unfold buffers
  split <;> omega

theorem buffers_empty : buffers ∅ = 0 := rfl

/-- A message that would be refused anyway is refused. -/
theorem Shelves.refused (hq : w.Shelves p c q c' S) {b : Bool} {j : Nat}
    (hno : ¬ (w.message b).FitsAlone p c) :
    q.fragmentRefused c' ((w.message b).fragment j) = true := by
  have hempty : S b = ∅ := by
    by_contra hne
    exact hno (hq.fits b hne)
  have hpresent := (hq.side b).present
  rw [hempty] at hpresent
  obtain ⟨hsize, hbytes⟩ := hq.size_bytes b
  have hkey : ((w.message b).fragment j).startSeq = (w.message b).startSeq := rfl
  have htotal : ((w.message b).fragment j).totalLength.toNat = (w.message b).data.length :=
    (w.message b).sized.total _
  simp only [PeerEntry.fragmentRefused, hkey, hpresent, htotal, ne_eq, not_true_eq_false,
    decide_false, Bool.not_false, Bool.true_and, Bool.or_eq_true, decide_eq_true_eq]
  simp only [CutMessage.FitsAlone, not_and_or, Nat.not_lt, Nat.not_le] at hno
  rw [hempty, buffers_empty] at hsize hbytes
  omega

/-- A message that has room when nothing else has arrived has it now. -/
theorem Shelves.room (hq : w.Shelves p c q c' S) (hap : w.Apart p c) {b : Bool}
    (hfit : (w.message b).FitsAlone p c) (hempty : S b = ∅) :
    c'.fragmentBuffers.size < maxFragmentBuffersPerChannel
      ∧ q.fragmentBytesInFlight + (w.message b).data.length ≤ maxFragmentBytesPerPeer := by
  obtain ⟨hsize, hbytes⟩ := hq.size_bytes b
  rw [hempty, buffers_empty] at hsize hbytes
  have hle := buffers_le (S (!b))
  have hother : S (!b) = ∅ ∨ w.FitTogether p c := by
    by_contra hnot
    obtain ⟨hne, htog⟩ := not_or.mp hnot
    have hfit' := hq.fits _ hne
    rcases hap with ⟨-, htog' | ⟨b', hb'⟩⟩ | hnone
    · exact htog htog'
    · cases b <;> cases b' <;> first | exact hb' hfit | exact hb' hfit'
    · exact hnone b hfit
  rcases hother with hempty' | htog
  · rw [hempty', buffers_empty] at hsize hbytes
    obtain ⟨hroom, hbudget⟩ := hfit
    omega
  · have hlen : (w.message (!b)).data.length * buffers (S (!b)) ≤ (w.message (!b)).data.length := by
      calc _ ≤ (w.message (!b)).data.length * 1 := Nat.mul_le_mul_left _ hle
        _ = _ := Nat.mul_one _
    obtain ⟨hroom, hbudget⟩ := htog
    cases b <;> simp only [Bool.not_true, Bool.not_false] at * <;> omega

/-! ## §3. One fragment. -/

/-- What is stored of a message after its fragment `j`. -/
def kept (w : MessagePair s) (p : PeerEntry) (c : Channel) (S : Bool → Finset Nat)
    (a : PairArrival) : Bool → Finset Nat :=
  Function.update S a.reliable
    (if (w.message a.reliable).FitsAlone p c then
      stored (w.message a.reliable).pieces a.part (S a.reliable)
    else ∅)

/-- The fragment is the last one missing of a message that has room. -/
def Last (w : MessagePair s) (p : PeerEntry) (c : Channel) (S : Bool → Finset Nat)
    (a : PairArrival) : Prop :=
  (w.message a.reliable).FitsAlone p c
    ∧ (insert a.part (S a.reliable)).card = (w.message a.reliable).pieces

theorem Apart.startSeq_ne (hap : w.Apart p c) {b : Bool} (hfit : (w.message b).FitsAlone p c) :
    (w.message (!b)).startSeq ≠ (w.message b).startSeq := by
  rcases hap with ⟨hne, -⟩ | hnone
  · cases b with
    | true => exact hne.symm
    | false => exact hne
  · exact absurd hfit (hnone b)

/-- What is left to show after a fragment of `message b`. -/
theorem Shelves.update (hq : w.Shelves p c q c' S) (b : Bool) {q' : PeerEntry} {c₁ : Channel}
    {T : Finset Nat} (hc₁ : q'.channels[w.ch.toNat]? = some c₁)
    (hside : Side c₁ (w.message b).startSeq s.fp (w.message b).data T)
    (hother : c₁.fragmentBuffers[(w.message (!b)).startSeq]?
      = c'.fragmentBuffers[(w.message (!b)).startSeq]?)
    (hfits : T ≠ ∅ → (w.message b).FitsAlone p c)
    (hsize : c₁.fragmentBuffers.size + buffers (S b) = c'.fragmentBuffers.size + buffers T)
    (hbytes : q'.fragmentBytesInFlight + (w.message b).data.length * buffers (S b)
      = q.fragmentBytesInFlight + (w.message b).data.length * buffers T) :
    w.Shelves p c q' c₁ (Function.update S b T) := by
  have hsize' := hq.size
  have hbytes' := hq.bytes
  have hside' := (hq.side (!b)).congr hother
  have hfits' := hq.fits (!b)
  cases b with
  | true =>
      refine ⟨hc₁, fun b => ?_, fun b => ?_, ?_, ?_⟩
      · cases b with
        | true => exact hside
        | false => exact hside'
      · cases b with
        | true => exact hfits
        | false => exact hfits'
      · simp only [Function.update_self, ne_eq, Bool.false_eq_true, not_false_eq_true,
          Function.update_of_ne]
        omega
      · simp only [Function.update_self, ne_eq, Bool.false_eq_true, not_false_eq_true,
          Function.update_of_ne]
        omega
  | false =>
      refine ⟨hc₁, fun b => ?_, fun b => ?_, ?_, ?_⟩
      · cases b with
        | true => exact hside'
        | false => exact hside
      · cases b with
        | true => exact hfits'
        | false => exact hfits
      · simp only [Function.update_self, ne_eq, Bool.true_eq_false, not_false_eq_true,
          Function.update_of_ne]
        omega
      · simp only [Function.update_self, ne_eq, Bool.true_eq_false, not_false_eq_true,
          Function.update_of_ne]
        omega

/-- **One fragment.** -/
theorem Shelves.step (hq : w.Shelves p c q c' S) (hap : w.Apart p c) (hv : w.Valid a) :
    ∃ c₁ out, w.Shelves p c (w.receive q a) c₁ (w.kept p c S a)
      ∧ (w.receive q a).history = q.history
        ++ PeerEntry.deliveries w.ch (if a.reliable then .reliable else .unreliable) out
      ∧ (w.Last p c S a → (c₁, out) = PeerEntry.releaseAssembled
        { c' with fragmentBuffers := c'.fragmentBuffers.erase (w.message a.reliable).startSeq }
        ((w.message a.reliable).fragment a.part) a.reliable (w.message a.reliable).data)
      ∧ (¬ w.Last p c S a → out = [] ∧ SameStream c₁ c') := by
  have hformed := (w.message a.reliable).formed hv
  by_cases hfit : (w.message a.reliable).FitsAlone p c
  · -- the message has a buffer, or gets one
    obtain ⟨hsize, hbytes⟩ := hq.size_bytes a.reliable
    have hcharged : (w.message a.reliable).data.length * buffers (S a.reliable)
        ≤ q.fragmentBytesInFlight := by
      omega
    obtain ⟨c₁, out, hcol⟩ := PeerEntry.onFragment_collects hq.channel (hq.side a.reliable)
      (w.message a.reliable).sized (w.message a.reliable).two_le hv hformed
      (hq.room hap hfit) hcharged a.reliable a.nowMs
    refine ⟨c₁, out, ?_, hcol.history, fun hlast => hcol.last hlast.2,
      fun hnot => hcol.early fun hall => hnot ⟨hfit, hall⟩⟩
    have hc₁ : (w.receive q a).channels[w.ch.toNat]? = some c₁ :=
      Collections.getElem?_of_eq_set hq.channel hcol.channels
    rw [kept, if_pos hfit]
    exact hq.update a.reliable hc₁ hcol.side (hcol.others _ (hap.startSeq_ne hfit)) (fun _ => hfit)
      hcol.size hcol.bytes
  · -- refused: nothing changes
    have href := hq.refused (j := a.part) hfit
    obtain ⟨hchan, hhist⟩ := PeerEntry.onFragment_dropped hq.channel a.reliable a.nowMs (.inr href)
    have hbytes := PeerEntry.onFragment_refused_bytes hq.channel a.reliable a.nowMs hformed href
    have hempty : S a.reliable = ∅ := by
      by_contra hne
      exact hfit (hq.fits _ hne)
    have hside := hq.side a.reliable
    rw [hempty] at hside
    refine ⟨c', [], ?_, hhist.trans (List.append_nil _).symm, fun hlast => absurd hlast.1 hfit,
      fun _ => ⟨rfl, .refl c'⟩⟩
    rw [kept, if_neg hfit]
    exact hq.update a.reliable (hchan ▸ hq.channel) hside rfl (fun hne => absurd rfl hne)
      (by rw [hempty]) (by rw [hempty]; exact congrArg (· + _) hbytes)

/-! ## §4. Every interleaving. -/

/-- The reliable message alone. -/
def alone (S : Bool → Finset Nat) (b : Bool) : Finset Nat := if b then S true else ∅

/-- The receiver `q` of both messages beside the receiver `q₁` of the reliable one
only. -/
structure Parallel (w : MessagePair s) (p : PeerEntry) (c : Channel) (q q₁ : PeerEntry)
    (c' c₁ : Channel) (S : Bool → Finset Nat) : Prop where
  both : w.Shelves p c q c' S
  one : w.Shelves p c q₁ c₁ (alone S)
  stream : SameStream c' c₁
  reliable : q.payloads w.ch .reliable = q₁.payloads w.ch .reliable
  stocked : Stocked (w.Known c) c'
  exactReliable : ∃ l, q.payloads w.ch .reliable = p.payloads w.ch .reliable ++ l
    ∧ ∀ d ∈ l, ∃ key, w.Known c key d
  exactUnreliable : ∃ l, q.payloads w.ch .unreliable = p.payloads w.ch .unreliable ++ l
    ∧ ∀ d ∈ l, d = (w.message false).data

namespace Parallel

variable {q₁ : PeerEntry} {c₁ : Channel}

theorem begins (hc : p.channels[w.ch.toNat]? = some c)
    (hnone : ∀ b, c.fragmentBuffers.contains (w.message b).startSeq = false) :
    w.Parallel p c p p c c fun _ => ∅ := by
  have hb := Shelves.begins hc hnone
  have hempty : alone (fun _ => ∅) = fun _ => ∅ := by
    funext b
    cases b <;> rfl
  exact ⟨hb, hempty ▸ hb, .refl c, rfl, fun _ _ hd => .inr hd, ⟨[], by simp⟩, ⟨[], by simp⟩⟩

/-- More payloads of the right kind. -/
theorem extend {P : Bytes → Prop} {xs ys out : List Bytes}
    (hx : ∃ l, xs = ys ++ l ∧ ∀ d ∈ l, P d) (hout : ∀ d ∈ out, P d) :
    ∃ l, xs ++ out = ys ++ l ∧ ∀ d ∈ l, P d := by
  obtain ⟨l, rfl, hl⟩ := hx
  refine ⟨l ++ out, List.append_assoc .., fun d hd => ?_⟩
  exact (List.mem_append.mp hd).elim (hl d) (hout d)

/-- A fragment of the reliable message, for both receivers. -/
theorem step_reliable (hp : w.Parallel p c q q₁ c' c₁ S) (hap : w.Apart p c) (hv : w.Valid a)
    (hrel : a.reliable = true) :
    ∃ d d₁, w.Parallel p c (w.receive q a) (w.receive q₁ a) d d₁ (w.kept p c S a) := by
  obtain ⟨d, out, hq, hh, hlast, hearly⟩ := hp.both.step hap hv
  obtain ⟨d₁, out₁, hq₁, hh₁, hlast₁, hearly₁⟩ := hp.one.step hap hv
  have hkept : w.kept p c (alone S) a = alone (w.kept p c S a) := by
    funext b
    cases b <;> simp [kept, alone, hrel]
  have hsame : w.Last p c (alone S) a ↔ w.Last p c S a := by
    simp only [Last, alone, hrel, if_true]
  rw [hkept] at hq₁
  -- what both receivers do
  have hout : out = out₁ ∧ SameStream d d₁ ∧ Stocked (w.Known c) d
      ∧ ∀ x ∈ out, ∃ key, w.Known c key x := by
    by_cases hl : w.Last p c S a
    · have heq := hlast hl
      have heq₁ := hlast₁ (hsame.mpr hl)
      rw [hrel] at heq heq₁
      have hs : SameStream
          { c' with fragmentBuffers := c'.fragmentBuffers.erase (w.message true).startSeq }
          { c₁ with fragmentBuffers := c₁.fragmentBuffers.erase (w.message true).startSeq } :=
        ⟨hp.stream.seq, hp.stream.queue⟩
      have hstream := hs.releaseAssembled ((w.message true).fragment a.part) (w.message true).data
      have hstock : Stocked (w.Known c)
          { c' with fragmentBuffers := c'.fragmentBuffers.erase (w.message true).startSeq } :=
        hp.stocked
      have hrelease := hstock.releaseAssembled ((w.message true).fragment a.part)
        (.inl ⟨rfl, rfl⟩)
      rw [← heq, ← heq₁] at hstream
      rw [← heq] at hrelease
      exact ⟨hstream.2, hstream.1, hrelease⟩
    · obtain ⟨rfl, hs⟩ := hearly hl
      obtain ⟨rfl, hs₁⟩ := hearly₁ (mt hsame.mp hl)
      exact ⟨rfl, (hs.trans hp.stream).trans hs₁.symm,
        fun key x hx => hp.stocked key x (hs.queue ▸ hx), nofun⟩
  obtain ⟨rfl, hstream, hstock, hknown⟩ := hout
  rw [hrel, if_pos rfl] at hh hh₁
  have hpay := PeerEntry.payloads_deliveries .reliable hh (by decide)
  have hpay₁ := PeerEntry.payloads_deliveries .reliable hh₁ (by decide)
  have hpayU := PeerEntry.payloads_deliveries .unreliable hh (by decide)
  refine ⟨d, d₁, hq, hq₁, hstream, ?_, hstock, ?_, ?_⟩
  · rw [hpay, hpay₁, hp.reliable]
  · rw [hpay]
    exact extend hp.exactReliable hknown
  · rw [hpayU, if_neg (by decide), List.append_nil]
    exact hp.exactUnreliable

/-- A fragment of the unreliable message, for the receiver of both. -/
theorem step_unreliable (hp : w.Parallel p c q q₁ c' c₁ S) (hap : w.Apart p c) (hv : w.Valid a)
    (hrel : a.reliable = false) :
    ∃ d, w.Parallel p c (w.receive q a) q₁ d c₁ (w.kept p c S a) := by
  obtain ⟨d, out, hq, hh, hlast, hearly⟩ := hp.both.step hap hv
  have hkept : alone (w.kept p c S a) = alone S := by
    funext b
    cases b <;> simp [kept, alone, hrel]
  -- the reliable stream is not touched
  have hout : SameStream d c' ∧ ∀ x ∈ out, x = (w.message false).data := by
    by_cases hl : w.Last p c S a
    · have heq := hlast hl
      rw [hrel, CutMessage.fragment, PeerEntry.releaseAssembled_unreliable] at heq
      obtain ⟨rfl, rfl⟩ := Prod.mk.inj heq
      unfold Channel.receiveUnreliable
      split
      · exact ⟨⟨rfl, rfl⟩, fun x hx => List.mem_singleton.mp hx⟩
      · exact ⟨⟨rfl, rfl⟩, nofun⟩
    · obtain ⟨rfl, hs⟩ := hearly hl
      exact ⟨hs, nofun⟩
  rw [hrel] at hh
  have hpay := PeerEntry.payloads_deliveries .reliable hh (by decide)
  have hpayU := PeerEntry.payloads_deliveries .unreliable hh (by decide)
  rw [if_neg (by decide), List.append_nil] at hpay
  refine ⟨d, hq, hkept.symm ▸ hp.one, hout.1.trans hp.stream, hpay.trans hp.reliable,
    fun key x hx => hp.stocked key x (hout.1.queue ▸ hx), ?_, ?_⟩
  · rw [hpay]
    exact hp.exactReliable
  · rw [hpayU, if_pos (by decide)]
    exact extend hp.exactUnreliable hout.2

theorem run (hap : w.Apart p c) : ∀ (is : List PairArrival) {q q₁ : PeerEntry} {c' c₁ : Channel}
    {S : Bool → Finset Nat}, w.Parallel p c q q₁ c' c₁ S → (∀ a ∈ is, w.Valid a) →
    ∃ d d₁ S', w.Parallel p c (w.receiveAll q is) (w.receiveAll q₁ (onlyReliable is)) d d₁ S' := by
  intro is
  induction is with
  | nil => exact fun hp _ => ⟨_, _, _, hp⟩
  | cons a is ih =>
      intro q q₁ c' c₁ S hp hv
      have hva := hv a List.mem_cons_self
      have hvs := fun a' ha' => hv a' (List.mem_cons_of_mem _ ha')
      cases hrel : a.reliable with
      | true =>
          obtain ⟨d, d₁, hp'⟩ := hp.step_reliable hap hva hrel
          have honly : onlyReliable (a :: is) = a :: onlyReliable is := List.filter_cons_of_pos hrel
          rw [honly]
          exact ih hp' hvs
      | false =>
          obtain ⟨d, hp'⟩ := hp.step_unreliable hap hva hrel
          have honly : onlyReliable (a :: is) = onlyReliable is := by
            simp [onlyReliable, hrel]
          rw [honly]
          exact ih hp' hvs

end Parallel

theorem chan_of_getElem? {q : PeerEntry} (hc : q.channels[w.ch.toNat]? = some c) :
    w.chan q = c := by
  rw [chan, hc]
  rfl

/-- **Every interleaving**, for messages that do not get in each other's way. -/
theorem undisturbed (hc : p.channels[w.ch.toNat]? = some c)
    (hnone : ∀ b, c.fragmentBuffers.contains (w.message b).startSeq = false) (hap : w.Apart p c)
    (is : List PairArrival) (hv : ∀ a ∈ is, w.Valid a) : w.Undisturbed p is := by
  obtain ⟨d, d₁, S, hp⟩ := Parallel.run hap is (.begins hc hnone) hv
  have hd := chan_of_getElem? hp.both.channel
  have hd₁ := chan_of_getElem? hp.one.channel
  have hchan := chan_of_getElem? hc
  refine ⟨hp.reliable, ?_, ?_, ?_, hp.exactUnreliable⟩
  · rw [hd, hd₁]
    exact hp.stream
  · rw [hchan]
    exact hp.exactReliable
  · rw [hd, hchan]
    exact hp.stocked

/-! ## §5. Messages in each other's way. -/

/-- `message b` is being put together and nothing stands in its way. -/
structure Gathering (w : MessagePair s) (b : Bool) (q : PeerEntry) (c' : Channel) (T : Finset Nat) :
    Prop where
  channel : q.channels[w.ch.toNat]? = some c'
  side : Side c' (w.message b).startSeq s.fp (w.message b).data T
  room : T = ∅ → c'.fragmentBuffers.size < maxFragmentBuffersPerChannel
    ∧ q.fragmentBytesInFlight + (w.message b).data.length ≤ maxFragmentBytesPerPeer
  charged : (w.message b).data.length * buffers T ≤ q.fragmentBytesInFlight

/-- The receiver has delivered nothing and its reliable stream stands still. -/
structure Idle (w : MessagePair s) (p : PeerEntry) (c : Channel) (q : PeerEntry) (c' : Channel) :
    Prop where
  channel : q.channels[w.ch.toNat]? = some c'
  stream : SameStream c' c
  reliable : q.payloads w.ch .reliable = p.payloads w.ch .reliable

theorem Idle.trans {r : PeerEntry} {c₁ : Channel} (h₁ : w.Idle p c q c')
    (h₂ : w.Idle q c' r c₁) : w.Idle p c r c₁ :=
  ⟨h₂.channel, h₂.stream.trans h₁.stream, h₂.reliable.trans h₁.reliable⟩

theorem Idle.of_history {c₁ : Channel} (hc : q.channels[w.ch.toNat]? = some c₁)
    (hs : SameStream c₁ c) (hh : q.history = p.history) : w.Idle p c q c₁ :=
  ⟨hc, hs, by rw [PeerEntry.payloads, PeerEntry.deliveredOn_congr hh]; rfl⟩

theorem Gathering.begins {b : Bool} (hc : p.channels[w.ch.toNat]? = some c)
    (hnone : ∀ b, c.fragmentBuffers.contains (w.message b).startSeq = false)
    (hfit : (w.message b).FitsAlone p c) : w.Gathering b p c ∅ :=
  ⟨hc, (Shelves.begins hc hnone).side b, fun _ => hfit, Nat.zero_le _⟩

variable {b : Bool} {T : Finset Nat}

/-- One more fragment. -/
theorem Gathering.more (hg : w.Gathering b q c' T) {j : Nat} (hj : j < (w.message b).pieces)
    (hmore : (insert j T).card < (w.message b).pieces) (nowMs : U32) :
    ∃ c₁, w.Gathering b (w.receive q ⟨b, j, nowMs⟩) c₁ (insert j T)
      ∧ w.Idle q c' (w.receive q ⟨b, j, nowMs⟩) c₁
      ∧ (∀ key, key ≠ (w.message b).startSeq →
        c₁.fragmentBuffers[key]? = c'.fragmentBuffers[key]?)
      ∧ c₁.fragmentBuffers.size + buffers T = c'.fragmentBuffers.size + 1
      ∧ (w.receive q ⟨b, j, nowMs⟩).fragmentBytesInFlight
          + (w.message b).data.length * buffers T
        = q.fragmentBytesInFlight + (w.message b).data.length := by
  obtain ⟨c₁, out, hcol⟩ := PeerEntry.onFragment_collects hg.channel hg.side (w.message b).sized
    (w.message b).two_le hj ((w.message b).formed hj) hg.room hg.charged b nowMs
  have hne : insert j T ≠ ∅ := Finset.insert_ne_empty j T
  have hstored : stored (fragCount s.fp (w.message b).data) j T = insert j T :=
    if_neg (Nat.ne_of_lt hmore)
  have hone : buffers (insert j T) = 1 := if_neg hne
  obtain ⟨rfl, hstream⟩ := hcol.early (Nat.ne_of_lt hmore)
  have hside := hcol.side
  have hsize := hcol.size
  have hbytes := hcol.bytes
  rw [hstored] at hside hsize hbytes
  rw [hone] at hsize hbytes
  rw [Nat.mul_one] at hbytes
  change (w.receive q ⟨b, j, nowMs⟩).fragmentBytesInFlight + _ = _ at hbytes
  have hc₁ : (w.receive q ⟨b, j, nowMs⟩).channels[w.ch.toNat]? = some c₁ :=
    Collections.getElem?_of_eq_set hg.channel hcol.channels
  have hcharged := hg.charged
  refine ⟨c₁, ⟨hc₁, hside, fun hempty => absurd hempty hne, ?_⟩,
    .of_history hc₁ hstream (hcol.history.trans (List.append_nil _)), hcol.others, hsize, hbytes⟩
  rw [hone, Nat.mul_one]
  omega

/-- Many fragments, but not all. -/
theorem Gathering.run : ∀ (js : List Nat) {T : Finset Nat} {q : PeerEntry} {c' : Channel},
    w.Gathering b q c' T → (∀ j ∈ js, j < (w.message b).pieces) →
    (T ∪ js.toFinset).card < (w.message b).pieces →
    ∃ c₁, w.Gathering b (w.receiveAll q (js.map (⟨b, ·, 0⟩))) c₁ (T ∪ js.toFinset)
      ∧ w.Idle q c' (w.receiveAll q (js.map (⟨b, ·, 0⟩))) c₁ := by
  intro js
  induction js with
  | nil =>
      intro T q c' hg _ _
      rw [List.toFinset_nil, Finset.union_empty]
      exact ⟨c', hg, .of_history hg.channel (.refl c') rfl⟩
  | cons j js ih =>
      intro T q c' hg hlt hcard
      have hset : T ∪ (j :: js).toFinset = insert j T ∪ js.toFinset := by
        rw [List.toFinset_cons, Finset.union_insert, Finset.insert_union]
      rw [hset] at hcard ⊢
      have hmore : (insert j T).card < (w.message b).pieces :=
        Nat.lt_of_le_of_lt (Finset.card_le_card Finset.subset_union_left) hcard
      obtain ⟨c₁, hg₁, hidle₁, -⟩ := hg.more (hlt j List.mem_cons_self) hmore 0
      obtain ⟨c₂, hg₂, hidle₂⟩ := ih hg₁ (fun j' hj' => hlt j' (List.mem_cons_of_mem _ hj')) hcard
      exact ⟨c₂, hg₂, hidle₁.trans hidle₂⟩

/-- The fragments of a message but for the first. -/
def tail (w : MessagePair s) (b : Bool) : List PairArrival :=
  (List.range' 1 ((w.message b).pieces - 1)).map (⟨b, ·, 0⟩)

/-- The set of their numbers. -/
theorem tail_card (b : Bool) :
    (List.range' 1 ((w.message b).pieces - 1)).toFinset.card + 1 = (w.message b).pieces := by
  have htwo := (w.message b).two_le
  rw [List.toFinset_card_of_nodup List.nodup_range', List.length_range']
  omega

/-- All fragments but the first have arrived. -/
theorem gather_tail (hc : p.channels[w.ch.toNat]? = some c)
    (hnone : ∀ b, c.fragmentBuffers.contains (w.message b).startSeq = false)
    (hfit : (w.message b).FitsAlone p c) :
    ∃ c', w.Idle p c (w.receiveAll p (w.tail b)) c'
      ∧ ∃ T, Side c' (w.message b).startSeq s.fp (w.message b).data T ∧ 0 ∉ T
        ∧ T.card + 1 = (w.message b).pieces := by
  have hcard := w.tail_card b
  obtain ⟨c', hg, hidle⟩ := Gathering.run (List.range' 1 ((w.message b).pieces - 1))
    (Gathering.begins hc hnone hfit)
    (fun j hj => by
      have hj := List.mem_range'_1.mp hj
      omega)
    (by
      rw [Finset.empty_union]
      omega)
  rw [Finset.empty_union] at hg
  refine ⟨c', hidle, _, hg.side, fun hmem => ?_, hcard⟩
  have hmem := List.mem_range'_1.mp (List.mem_toFinset.mp hmem)
  omega

/-- The first fragment of `message b'` completes the buffer under its number,
whichever message made it. -/
theorem joins (b' : Bool) (hc' : q.channels[w.ch.toNat]? = some c')
    (hside : Side c' (w.message b).startSeq s.fp (w.message b).data T) (hzero : 0 ∉ T)
    (hcard : T.card + 1 = (w.message b).pieces)
    (hkey : (w.message b').startSeq = (w.message b).startSeq) (nowMs : U32) :
    ∃ c₁ out m, (c₁, out) = PeerEntry.releaseAssembled
        { c' with fragmentBuffers := c'.fragmentBuffers.erase (w.message b').startSeq }
        ((w.message b').fragment 0) b' m
      ∧ (w.receive q ⟨b', 0, nowMs⟩).channels[w.ch.toNat]? = some c₁
      ∧ (w.receive q ⟨b', 0, nowMs⟩).history = q.history
        ++ PeerEntry.deliveries w.ch (if b' then .reliable else .unreliable) out := by
  have htwo := (w.message b).two_le
  have htwo' := (w.message b').two_le
  have hpos : 0 < (w.message b').pieces := by omega
  have hformed := (w.message b').formed hpos
  have hnumber : ((w.message b').fragment 0).fragmentNumber.toNat = 0 :=
    (w.message b').sized.number hpos _
  have hoffset : ((w.message b').fragment 0).fragmentOffset.toNat = 0 :=
    ((w.message b').sized.offset hpos _).trans (Nat.zero_mul _)
  have hne : T ≠ ∅ := by
    rintro rfl
    rw [Finset.card_empty] at hcard
    omega
  have hcontains : c'.fragmentBuffers.contains ((w.message b').fragment 0).startSeq = true := by
    have hpresent := hside.present
    rw [decide_eq_true hne] at hpresent
    rw [← hpresent]
    exact congrArg _ hkey
  have hrefused : q.fragmentRefused c' ((w.message b').fragment 0) = false := by
    simp [PeerEntry.fragmentRefused, hcontains]
  -- the buffer that is there
  have hholds : Holds (PeerEntry.fragmentBufferFor c' ((w.message b').fragment 0)) s.fp
      (w.message b).data T := by
    rcases hside.buffer with ⟨-, hempty⟩ | ⟨buf, hbuf, hholds⟩
    · exact absurd hempty hne
    · have hfor : PeerEntry.fragmentBufferFor c' ((w.message b').fragment 0) = buf := by
        have hkey' : ((w.message b').fragment 0).startSeq = (w.message b).startSeq := hkey
        rw [PeerEntry.fragmentBufferFor, hkey', hbuf]
        rfl
      rw [hfor]
      exact hholds
  have hfits : PeerEntry.fits c' ((w.message b').fragment 0) = true := by
    have hlen : ((w.message b').fragment 0).data.length ≤ (w.message b).data.length := by
      have hlt := (lt_fragCount_iff s.fp_pos).mp (Nat.lt_of_succ_le htwo)
      have hle : ((w.message b').fragment 0).data.length ≤ s.fp := List.length_take_le _ _
      omega
    have hwords : 0 < (PeerEntry.fragmentBufferFor c' ((w.message b').fragment 0)).mask.length := by
      rw [hholds.words, divCeil]
      have hpieces : 2 ≤ fragCount s.fp (w.message b).data := htwo
      omega
    simp only [PeerEntry.fits, FragmentBuffer.accepts, hnumber, hoffset, hholds.bits, hholds.length,
      Nat.zero_div, Nat.zero_add, decide_eq_false hzero, Bool.not_false, Bool.and_true,
      Bool.and_eq_true, Bool.not_eq_true', decide_eq_false_iff_not, Nat.not_lt]
    exact ⟨Nat.not_le.mpr hwords, hlen⟩
  have hcompletes : PeerEntry.completes c' ((w.message b').fragment 0) = true := by
    rw [PeerEntry.completes, FragmentBuffer.receive_of_accepts hfits]
    show (_ + 1 == _) = true
    have hpieces : fragCount s.fp (w.message b).data = T.card + 1 := hcard.symm
    rw [hholds.received, hholds.count, beq_iff_eq, hpieces, BitVec.ofNat_add]
    rfl
  obtain ⟨hchan, hhist⟩ := PeerEntry.onFragment_eq hc' b' nowMs hformed hrefused
  rw [PeerEntry.fragmentStep_complete hcompletes] at hchan hhist
  exact ⟨_, _, _, rfl, Collections.getElem?_of_eq_set hc' hchan, hhist⟩

/-- The channel has not seen the number: it expects it, or has room for it and
does not hold it. -/
def NewTo (c : Channel) (seq : U16) : Prop :=
  c.expects seq = true ∨ c.hasRoomFor seq = true ∧ c.incomingReliableQueue[seq]? = none

/-- A new message changes the stream, or is delivered. -/
theorem NewTo.release (sf : SendFragmentCmd) (m : Bytes) (hn : NewTo c sf.startSeq)
    (hs : SameStream c' c) :
    ¬ ((PeerEntry.releaseAssembled c' sf true m).2 = []
      ∧ SameStream (PeerEntry.releaseAssembled c' sf true m).1 c) := by
  rintro ⟨hout, hstream⟩
  obtain ⟨hs', hout'⟩ := hs.releaseAssembled sf m
  rw [hout'] at hout
  have hstream' := hs'.symm.trans hstream
  clear hs' hout' hstream
  unfold PeerEntry.releaseAssembled at hout hstream'
  cases hex : c.expects sf.startSeq with
  | true =>
      rw [Channel.receiveReliable_of_expects hex] at hout
      simp only [if_true, List.isEmpty_cons, Bool.not_false, Bool.true_and] at hout
      split at hout
      · exact List.cons_ne_nil _ _ hout
      · exact List.cons_ne_nil _ _ hout
  | false =>
      rcases hn with hex' | ⟨hroom, hnone⟩
      · rw [hex] at hex'
        cases hex'
      · rw [Channel.receiveReliable_of_room hex hroom] at hstream'
        simp only [if_true, List.isEmpty_nil, Bool.not_true, Bool.false_and, Bool.false_eq_true,
          if_false] at hstream'
        have hqueue := hstream'.queue
        simp only at hqueue
        rw [← hqueue, Std.ExtTreeMap.getElem?_insert_self] at hnone
        cases hnone

/-- Both receivers stand still, or neither does. -/
theorem Undisturbed.idle_iff {is : List PairArrival} {c₁ c₂ : Channel} (hu : w.Undisturbed p is)
    (h₁ : (w.receiveAll p is).channels[w.ch.toNat]? = some c₁)
    (h₂ : (w.receiveAll p (onlyReliable is)).channels[w.ch.toNat]? = some c₂) :
    w.Idle p c (w.receiveAll p is) c₁ ↔ w.Idle p c (w.receiveAll p (onlyReliable is)) c₂ := by
  have hstream := hu.stream
  rw [chan_of_getElem? h₁, chan_of_getElem? h₂] at hstream
  constructor
  · exact fun hi => ⟨h₂, hstream.symm.trans hi.stream, hu.reliable.symm.trans hi.reliable⟩
  · exact fun hi => ⟨h₁, hstream.trans hi.stream, hu.reliable.trans hi.reliable⟩

theorem receiveAll_append (q : PeerEntry) (xs ys : List PairArrival) :
    w.receiveAll q (xs ++ ys) = w.receiveAll (w.receiveAll q xs) ys := List.foldl_append ..

theorem tail_valid (b : Bool) : ∀ a ∈ w.tail b, w.Valid a := by
  intro a ha
  obtain ⟨j, hj, rfl⟩ := List.mem_map.mp ha
  have hj := List.mem_range'_1.mp hj
  show j < (w.message b).pieces
  omega

theorem first_valid (b : Bool) (nowMs : U32) : w.Valid ⟨b, 0, nowMs⟩ :=
  Nat.lt_of_lt_of_le Nat.two_pos (w.message b).two_le

theorem onlyReliable_tail (b : Bool) : onlyReliable (w.tail b) = if b then w.tail b else [] := by
  have hall : ∀ a ∈ w.tail b, a.reliable = b := by
    intro a ha
    obtain ⟨j, -, rfl⟩ := List.mem_map.mp ha
    rfl
  cases b with
  | true => exact List.filter_eq_self.mpr hall
  | false => exact List.filter_eq_nil_iff.mpr (by simpa using hall)

/-- The first fragment of the reliable message completes the buffer under its
number: the reliable stream does not stand still. -/
theorem joins_not_idle (hidle : w.Idle p c q c')
    (hside : Side c' (w.message b).startSeq s.fp (w.message b).data T) (hzero : 0 ∉ T)
    (hcard : T.card + 1 = (w.message b).pieces)
    (hkey : (w.message true).startSeq = (w.message b).startSeq)
    (hnew : NewTo c (w.message true).startSeq) :
    ∃ c₁, (w.receive q ⟨true, 0, 0⟩).channels[w.ch.toNat]? = some c₁
      ∧ ¬ w.Idle p c (w.receive q ⟨true, 0, 0⟩) c₁ := by
  obtain ⟨c₁, out, m, heq, hc₁, hh⟩ := joins true hidle.channel hside hzero hcard hkey 0
  refine ⟨c₁, hc₁, fun hi => ?_⟩
  have hpay := PeerEntry.payloads_deliveries .reliable hh (by decide)
  rw [hi.reliable, hidle.reliable, if_pos (by decide)] at hpay
  have hs : SameStream
      { c' with fragmentBuffers := c'.fragmentBuffers.erase (w.message true).startSeq } c :=
    ⟨hidle.stream.seq, hidle.stream.queue⟩
  refine NewTo.release ((w.message true).fragment 0) m hnew hs ?_
  rw [← heq]
  exact ⟨List.append_right_eq_self.mp hpay.symm, hi.stream⟩

/-- The reliable message arrives, and nothing else. -/
theorem reliable_alone (hc : p.channels[w.ch.toNat]? = some c)
    (hnone : ∀ b, c.fragmentBuffers.contains (w.message b).startSeq = false)
    (hfit : (w.message true).FitsAlone p c) (hnew : NewTo c (w.message true).startSeq) :
    ∃ c₁, (w.receiveAll p (w.tail true ++ [⟨true, 0, 0⟩])).channels[w.ch.toNat]? = some c₁
      ∧ ¬ w.Idle p c (w.receiveAll p (w.tail true ++ [⟨true, 0, 0⟩])) c₁ := by
  obtain ⟨c', hidle, T, hside, hzero, hcard⟩ := gather_tail hc hnone hfit
  rw [receiveAll_append]
  exact joins_not_idle hidle hside hzero hcard rfl hnew

/-- **Same number, the reliable message fits**: the unreliable fragment completes
the buffer of the reliable message, which is then lost. -/
theorem disturbed_by_first (hc : p.channels[w.ch.toNat]? = some c)
    (hnone : ∀ b, c.fragmentBuffers.contains (w.message b).startSeq = false)
    (hkey : (w.message true).startSeq = (w.message false).startSeq)
    (hfit : (w.message true).FitsAlone p c) (hnew : NewTo c (w.message true).startSeq) :
    ¬ w.Undisturbed p (w.tail true ++ [⟨false, 0, 0⟩, ⟨true, 0, 0⟩]) := by
  intro hu
  obtain ⟨c', hidle, T, hside, hzero, hcard⟩ := gather_tail hc hnone hfit
  obtain ⟨c₁, out, m, heq, hc₁, hh⟩ := joins false hidle.channel hside hzero hcard hkey.symm 0
  have hbuf := congrArg Channel.fragmentBuffers (congrArg Prod.fst heq)
  rw [PeerEntry.releaseAssembled_fragmentBuffers] at hbuf
  -- the stream stands still, the buffer is gone
  have hidle₁ : w.Idle p c (w.receive (w.receiveAll p (w.tail true)) ⟨false, 0, 0⟩) c₁ := by
    have hpay := PeerEntry.payloads_deliveries .reliable hh (by decide)
    rw [if_neg (by decide), List.append_nil] at hpay
    refine ⟨hc₁, ?_, hpay.trans hidle.reliable⟩
    have hkeep := PeerEntry.releaseAssembled_false_stream
      { c' with fragmentBuffers := c'.fragmentBuffers.erase (w.message false).startSeq }
      ((w.message false).fragment 0) m
    rw [← heq] at hkeep
    exact hkeep.trans ⟨hidle.stream.seq, hidle.stream.queue⟩
  have hpos : 0 < (w.message true).pieces := w.first_valid true 0
  have hempty : BufferAt c₁ (w.message true).startSeq s.fp (w.message true).data ∅ := by
    refine .inl ⟨?_, rfl⟩
    rw [hbuf, hkey]
    exact Std.ExtTreeMap.getElem?_erase_self
  have htaken := PeerEntry.onFragment_taken hc₁ hempty (w.message true).sized hpos
    (by rw [Finset.card_empty]; exact hpos) true 0
  obtain ⟨c₂, hidle₂⟩ : ∃ c₂, w.Idle p c (w.receiveAll p
      (w.tail true ++ [⟨false, 0, 0⟩, ⟨true, 0, 0⟩])) c₂ := by
    rw [receiveAll_append]
    cases htaken with
    | dropped cause channels history =>
        exact ⟨c₁, hidle₁.trans (.of_history (channels ▸ hc₁) (.refl c₁) history)⟩
    | stored buf holds more channels history =>
        exact ⟨_, hidle₁.trans (.of_history (Collections.getElem?_of_eq_set hc₁ channels)
          ⟨rfl, rfl⟩ history)⟩
    | last new all =>
        have htwo := (w.message true).two_le
        rw [Finset.card_insert_of_notMem new, Finset.card_empty] at all
        exact absurd all (Nat.ne_of_lt htwo)
  have honly : onlyReliable (w.tail true ++ [⟨false, 0, 0⟩, ⟨true, 0, 0⟩])
      = w.tail true ++ [⟨true, 0, 0⟩] := by
    rw [onlyReliable, List.filter_append]
    exact congrArg₂ (· ++ ·) (onlyReliable_tail true) rfl
  obtain ⟨c₃, hc₃, hnot⟩ := reliable_alone hc hnone hfit hnew
  rw [← honly] at hc₃ hnot
  exact hnot ((hu.idle_iff hidle₂.channel hc₃).mp hidle₂)

/-- **Same number, only the unreliable message fits**: the reliable fragment
completes its buffer and is delivered with the unreliable bytes. -/
theorem disturbed_by_unreliable (hc : p.channels[w.ch.toNat]? = some c)
    (hnone : ∀ b, c.fragmentBuffers.contains (w.message b).startSeq = false)
    (hkey : (w.message true).startSeq = (w.message false).startSeq)
    (hfit : (w.message false).FitsAlone p c) (hno : ¬ (w.message true).FitsAlone p c)
    (hnew : NewTo c (w.message true).startSeq) :
    ¬ w.Undisturbed p (w.tail false ++ [⟨true, 0, 0⟩]) := by
  intro hu
  obtain ⟨c', hidle, T, hside, hzero, hcard⟩ := gather_tail hc hnone hfit
  obtain ⟨c₁, hc₁, hnot⟩ := joins_not_idle hidle hside hzero hcard hkey hnew
  have honly : onlyReliable (w.tail false ++ [⟨true, 0, 0⟩]) = [⟨true, 0, 0⟩] := by
    rw [onlyReliable, List.filter_append]
    exact congrArg₂ (· ++ ·) (onlyReliable_tail false) rfl
  -- alone, the reliable fragment is refused
  have href := (Shelves.begins hc hnone).refused (j := 0) hno
  obtain ⟨hchan, hhist⟩ := PeerEntry.onFragment_dropped hc true 0 (.inr href)
  have halone : w.Idle p c (w.receiveAll p (onlyReliable (w.tail false ++ [⟨true, 0, 0⟩]))) c := by
    rw [honly]
    exact .of_history (hchan ▸ hc) (.refl c) hhist
  have hrun : w.receiveAll p (w.tail false ++ [⟨true, 0, 0⟩])
      = w.receive (w.receiveAll p (w.tail false)) ⟨true, 0, 0⟩ :=
    receiveAll_append p (w.tail false) [⟨true, 0, 0⟩]
  rw [← hrun] at hc₁ hnot
  exact hnot ((hu.idle_iff hc₁ halone.channel).mpr halone)

/-- The reliable message has no room. -/
theorem blocked (hidle : w.Idle p c q c')
    (hnone : c'.fragmentBuffers.contains (w.message true).startSeq = false)
    (hno : ¬ (w.message true).FitsAlone q c') : ∀ (is : List PairArrival),
    (∀ a ∈ is, w.Valid a ∧ a.reliable = true) → w.Idle p c (w.receiveAll q is) c' := by
  intro is
  induction is generalizing q with
  | nil => exact fun _ => hidle
  | cons a is ih =>
      intro hv
      obtain ⟨hva, hrel⟩ := hv a List.mem_cons_self
      have hformed := (w.message a.reliable).formed hva
      have href : q.fragmentRefused c' ((w.message a.reliable).fragment a.part) = true := by
        rw [hrel]
        exact (w.message true).refused hnone hno a.part
      obtain ⟨hchan, hhist⟩ := PeerEntry.onFragment_dropped hidle.channel a.reliable a.nowMs
        (.inr href)
      have hbytes := PeerEntry.onFragment_refused_bytes hidle.channel a.reliable a.nowMs hformed href
      refine ih (q := w.receive q a) (hidle.trans (.of_history (hchan ▸ hidle.channel) (.refl c')
        hhist)) (fun hfit => hno ⟨hfit.1, ?_⟩) fun a' ha' => hv a' (List.mem_cons_of_mem _ ha')
      have hle := hfit.2
      rw [receive, hbytes] at hle
      exact hle

/-- **Different numbers, but no room for both**: the unreliable message takes the
room of the reliable one. -/
theorem disturbed_by_room (hc : p.channels[w.ch.toNat]? = some c)
    (hnone : ∀ b, c.fragmentBuffers.contains (w.message b).startSeq = false)
    (hne : (w.message true).startSeq ≠ (w.message false).startSeq)
    (hfits : ∀ b, (w.message b).FitsAlone p c) (hno : ¬ w.FitTogether p c)
    (hnew : NewTo c (w.message true).startSeq) :
    ¬ w.Undisturbed p (⟨false, 0, 0⟩ :: (w.tail true ++ [⟨true, 0, 0⟩])) := by
  intro hu
  have htwo := (w.message false).two_le
  have hpos : 0 < (w.message false).pieces := by omega
  obtain ⟨c', -, hidle, hothers, hsize, hbytes⟩ := (Gathering.begins hc hnone (hfits false)).more
    hpos (by rw [insert_empty_eq, Finset.card_singleton]; omega) 0
  rw [buffers_empty] at hsize hbytes
  rw [Nat.mul_zero] at hbytes
  have hnone' : c'.fragmentBuffers.contains (w.message true).startSeq = false := by
    rw [Std.ExtTreeMap.contains_eq_isSome_getElem?, hothers _ hne,
      ← Std.ExtTreeMap.contains_eq_isSome_getElem?]
    exact hnone true
  have hfull : ¬ (w.message true).FitsAlone (w.receive p ⟨false, 0, 0⟩) c' := by
    simp only [FitTogether, not_and_or, Nat.not_lt, Nat.not_le] at hno
    simp only [CutMessage.FitsAlone, not_and_or, Nat.not_lt, Nat.not_le]
    omega
  have hvalid : ∀ a ∈ w.tail true ++ [⟨true, 0, 0⟩], w.Valid a ∧ a.reliable = true := by
    intro a ha
    rcases List.mem_append.mp ha with ha | ha
    · refine ⟨w.tail_valid true a ha, ?_⟩
      obtain ⟨j, -, rfl⟩ := List.mem_map.mp ha
      rfl
    · rw [List.mem_singleton.mp ha]
      exact ⟨w.first_valid true 0, rfl⟩
  have hmixed := blocked hidle hnone' hfull (w.tail true ++ [⟨true, 0, 0⟩]) hvalid
  have honly : onlyReliable (⟨false, 0, 0⟩ :: (w.tail true ++ [⟨true, 0, 0⟩]))
      = w.tail true ++ [⟨true, 0, 0⟩] :=
    List.filter_eq_self.mpr fun a ha => (hvalid a ha).2
  obtain ⟨c₃, hc₃, hnot⟩ := reliable_alone hc hnone (hfits true) hnew
  rw [← honly] at hc₃ hnot
  exact hnot ((hu.idle_iff hmixed.channel hc₃).mp hmixed)

/-- **Reliable and unreliable reassemblies do not interfere exactly if the
messages do not get in each other's way.** -/
theorem undisturbed_iff_apart (w : MessagePair s) (p : PeerEntry) (c : Channel)
    (hc : p.channels[w.ch.toNat]? = some c)
    (hnone : ∀ b, c.fragmentBuffers.contains (w.message b).startSeq = false) :
    (w.Apart p c → ∀ is : List PairArrival, (∀ a ∈ is, w.Valid a) → w.Undisturbed p is)
      ∧ (NewTo c (w.message true).startSeq →
        (∀ is : List PairArrival, (∀ a ∈ is, w.Valid a) → w.Undisturbed p is) → w.Apart p c) := by
  refine ⟨undisturbed hc hnone, fun hnew hall => ?_⟩
  have hvalid : ∀ (b : Bool) (ys : List PairArrival), (∀ a ∈ ys, w.Valid a) →
      ∀ a ∈ w.tail b ++ ys, w.Valid a := fun b ys hys a ha =>
    (List.mem_append.mp ha).elim (w.tail_valid b a) (hys a)
  have hfirst : ∀ a ∈ [(⟨true, 0, 0⟩ : PairArrival)], w.Valid a := fun a ha =>
    List.mem_singleton.mp ha ▸ w.first_valid true 0
  by_contra hnot
  simp only [Apart, not_or, not_and, not_forall, not_exists, not_not] at hnot
  obtain ⟨hroom, b, hfit⟩ := hnot
  by_cases hkey : (w.message true).startSeq = (w.message false).startSeq
  · by_cases hfitR : (w.message true).FitsAlone p c
    · refine disturbed_by_first hc hnone hkey hfitR hnew (hall _ (hvalid true _ ?_))
      exact List.forall_mem_cons.mpr ⟨w.first_valid false 0, hfirst⟩
    · cases b with
      | true => exact hfitR hfit
      | false =>
          exact disturbed_by_unreliable hc hnone hkey hfit hfitR hnew
            (hall _ (hvalid false _ hfirst))
  · obtain ⟨htog, hfits⟩ := hroom hkey
    refine disturbed_by_room hc hnone hkey hfits htog hnew (hall _ ?_)
    exact List.forall_mem_cons.mpr ⟨w.first_valid false 0, hvalid true _ hfirst⟩

end MessagePair

/-- A reliable message with number 1 and an unreliable one with number `u`, in two
fragments each. -/
def sharingChannel (u : U16) : MessagePair ⟨576, false, Sender.mtuMin_le⟩ :=
  { ch := 0
    message := fun b =>
      if b then ⟨1, List.replicate 567 7, true, by decide +kernel, by decide +kernel⟩
      else ⟨u, List.replicate 567 8, false, by decide +kernel, by decide +kernel⟩
    mode := fun b => by cases b <;> rfl }

/-- The second unreliable message of the sender. -/
theorem undisturbed_iff_apart_second :
    (sharingChannel 2).Apart newcomer Channel.new
      ∧ MessagePair.NewTo Channel.new ((sharingChannel 2).message true).startSeq
      ∧ ∀ is : List PairArrival, (∀ a ∈ is, (sharingChannel 2).Valid a) →
        (sharingChannel 2).Undisturbed newcomer is := by
  have hap : (sharingChannel 2).Apart newcomer Channel.new :=
    .inl ⟨by decide +kernel, .inl ⟨by decide +kernel, by decide +kernel⟩⟩
  have hiff := MessagePair.undisturbed_iff_apart (sharingChannel 2) newcomer Channel.new rfl
    (by decide +kernel)
  exact ⟨hap, .inl (by decide +kernel), hiff.1 hap⟩

/-- **The first reliable and the first unreliable message of a sender have the
same number**: an unreliable fragment completes the reliable message, whose bytes
are delivered as unreliable, mixed with its own; the reliable message is lost. -/
theorem reassemblies_interfere :
    (∀ a ∈ [(⟨true, 1, 5⟩ : PairArrival), ⟨false, 0, 6⟩, ⟨true, 0, 7⟩],
        (sharingChannel 1).Valid a)
      ∧ ((sharingChannel 1).receiveAll newcomer [⟨true, 1, 5⟩, ⟨false, 0, 6⟩, ⟨true, 0, 7⟩]).payloads
          0 .reliable = []
      ∧ ((sharingChannel 1).receiveAll newcomer
          (MessagePair.onlyReliable [⟨true, 1, 5⟩, ⟨false, 0, 6⟩, ⟨true, 0, 7⟩])).payloads
          0 .reliable = [List.replicate 567 7]
      ∧ ((sharingChannel 1).receiveAll newcomer [⟨true, 1, 5⟩, ⟨false, 0, 6⟩, ⟨true, 0, 7⟩]).payloads
          0 .unreliable = [List.replicate 548 8 ++ List.replicate 19 7] := by
  decide +kernel

end EnetRs
