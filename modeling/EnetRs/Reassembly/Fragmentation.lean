/-
  EnetRs.Reassembly.Fragmentation — one message in fragments, there and back.

  `send_packet` cuts a message that is too long for one command into fragments,
  and `on_fragment` puts them together.  The fragments of one message may arrive
  in any order and more than once, also after the message is complete: a second
  set of them completes a second buffer, whose content the stream then discards
  as old.

  Main results:
    * `CutMessage.Assembling.arrive` — one fragment.
    * `CutMessage.assembles` — any fragments in any order.
    * `fragmentation_round_trip` — what `send_packet` emits comes back as the
      message, once.
-/
import EnetRs.Reassembly.Commands
import EnetRs.Reassembly.Interference
import EnetRs.Sending.Carried

namespace EnetRs

open MachineInt Slices

/-! ## §1. The stream of a single message. -/

namespace CutMessage

variable {s : Sender} (m : CutMessage s)

/-- The message as it is delivered. -/
def packet (ch : U8) : Packet := ⟨m.data, ch, if m.reliable then .reliable else .unreliable⟩

/-- The number before the message. -/
def before : Nat := (m.startSeq - 1).toNat

/-- The stream of the message has got as far as the number before it or, once it
is delivered, over all its numbers (an unreliable message has one).  Nothing is
held back. -/
def StreamAt (delivered : Bool) (c : Channel) : Prop :=
  if m.reliable then
    QueueIs (fun _ => m.before + 1) (fun _ => m.data) c
      (if delivered then m.before + m.pieces else m.before) ∅
  else c.incomingUnreliableSeq = if delivered then m.startSeq else m.startSeq - 1

variable {m} {c : Channel} {delivered : Bool}

theorem ofNat_before : BitVec.ofNat 16 m.before = m.startSeq - 1 := by
  rw [before, BitVec.ofNat_toNat, BitVec.setWidth_eq]

theorem ofNat_before_succ : BitVec.ofNat 16 (m.before + 1) = m.startSeq := by
  rw [BitVec.ofNat_add, ofNat_before]
  exact BitVec.sub_add_cancel ..

/-- The buffers do not matter. -/
theorem StreamAt.congr {c' : Channel} (hs : m.StreamAt delivered c)
    (hseq : c'.incomingReliableSeq = c.incomingReliableSeq)
    (hqueue : c'.incomingReliableQueue = c.incomingReliableQueue)
    (hunrel : c'.incomingUnreliableSeq = c.incomingUnreliableSeq) : m.StreamAt delivered c' := by
  unfold StreamAt at hs ⊢
  split
  · next hrel =>
    rw [if_pos hrel] at hs
    exact ⟨hseq.trans hs.incoming, fun key d => hqueue ▸ hs.queue key d, hs.ahead, hs.inj⟩
  · next hrel =>
    rw [if_neg hrel] at hs
    exact hunrel.trans hs

/-- A message of at most 16 MiB has less than half the numbers. -/
theorem pieces_le_half (hlen : m.data.length ≤ maxFragmentBytesPerPeer) : m.pieces ≤ 32768 := by
  have hmtu : 576 ≤ s.mtu.toNat := s.mtu_ge
  have hfp : 544 ≤ s.fp := by
    unfold Sender.fp fragPayload HostTask.hdrOverhead
    split <;> omega
  by_contra hgt
  have hlt := (lt_fragCount_iff s.fp_pos).mp (Nat.lt_of_not_le hgt)
  have hmul : 32768 * 544 ≤ 32768 * s.fp := Nat.mul_le_mul_left _ hfp
  have hmax : maxFragmentBytesPerPeer = 16777216 := rfl
  omega

/-- **The message is put together**: the first time it is delivered, after that it
is old. -/
theorem StreamAt.release (hs : m.StreamAt delivered c) (hhalf : m.pieces ≤ 32768) (j : Nat) :
    ∃ c', PeerEntry.releaseAssembled c (m.fragment j) m.reliable m.data
        = (c', if delivered then [] else [m.data])
      ∧ m.StreamAt true c' := by
  have htwo := m.two_le
  unfold StreamAt at hs ⊢
  cases hrel : m.reliable with
  | true =>
      rw [hrel, if_pos rfl] at hs
      simp only [if_true]
      have hnear : Near ((if delivered then m.before + m.pieces else m.before) + 1)
          (m.before + 1) := by
        constructor <;> split <;> omega
      have hserved : Served (fun _ => m.before + 1) (fun _ => m.data) c
          (if delivered then m.before + m.pieces else m.before) ∅ 0 m.pieces
          (PeerEntry.releaseAssembled c (m.fragment j) true m.data) :=
        hs.release nofun hnear nofun ofNat_before_succ.symm (m.sized.count m.startSeq) (by omega)
          (fun _ => nofun)
      generalize PeerEntry.releaseAssembled c (m.fragment j) true m.data = r at hserved ⊢
      cases hserved with
      | @now l c' starts drained =>
          obtain rfl : l = [] := List.eq_nil_iff_forall_not_mem.mpr fun i hi =>
            Finset.notMem_empty i (drained.mem i hi)
          cases delivered with
          | true =>
              simp only [if_true] at starts
              omega
          | false =>
              have hq := drained.queue
              simp only [Bool.false_eq_true, if_false, List.length_nil, Nat.add_zero,
                List.toFinset_nil, Finset.sdiff_empty] at hq
              exact ⟨c', rfl, hq⟩
      | held ahead =>
          cases delivered <;> simp only [Bool.false_eq_true, if_false, if_true] at ahead <;> omega
      | dropped behind =>
          cases delivered with
          | true => exact ⟨c, rfl, hs⟩
          | false =>
              simp only [Bool.false_eq_true, if_false] at behind
              omega
  | false =>
      rw [hrel, if_neg Bool.false_ne_true] at hs
      simp only [Bool.false_eq_true, if_false, if_true]
      rw [fragment, PeerEntry.releaseAssembled_unreliable, Channel.receiveUnreliable, hs]
      cases delivered with
      | true =>
          have hold : seqLt m.startSeq m.startSeq = false := by simp [seqLt]
          simp only [if_true, hold, Bool.false_eq_true, if_false]
          exact ⟨c, rfl, hs⟩
      | false =>
          have hnew : seqLt (m.startSeq - 1) m.startSeq = true := by
            have hone : m.startSeq - (m.startSeq - 1) = 1 := by bv_omega
            rw [seqLt, hone]
            rfl
          simp only [Bool.false_eq_true, if_false, hnew, if_true]
          exact ⟨_, rfl, rfl⟩

/-! ## §2. Fragments arrive. -/

variable (m)

/-- The receiver's `on_fragment`, for a fragment of the message. -/
def receive (ch : U8) (q : PeerEntry) (i : U32 × Nat) : PeerEntry :=
  q.onFragment ch (m.fragment i.2) m.reliable i.1

def receiveAll (ch : U8) (q : PeerEntry) (is : List (U32 × Nat)) : PeerEntry :=
  is.foldl (m.receive ch) q

/-- **Between the fragments.**  The entry was `p`, with channel `c`, and the parts
`A` of the message have arrived.  It is delivered once they are all there, and
until then its buffer holds them; `S` is what the buffer holds, after that of a
second set. -/
structure Assembling (p : PeerEntry) (ch : U8) (c : Channel) (A : Finset Nat) (q : PeerEntry)
    (c' : Channel) (S : Finset Nat) : Prop where
  channel : q.channels[ch.toNat]? = some c'
  side : Side c' m.startSeq s.fp m.data S
  size : c'.fragmentBuffers.size = c.fragmentBuffers.size + buffers S
  bytes : q.fragmentBytesInFlight = p.fragmentBytesInFlight + m.data.length * buffers S
  lt : ∀ j ∈ A, j < m.pieces
  missing : A ≠ Finset.range m.pieces → S = A
  stream : m.StreamAt (decide (A = Finset.range m.pieces)) c'
  history : q.history = p.history
    ++ if A = Finset.range m.pieces then [.deliver (m.packet ch)] else []

variable {m} {p q : PeerEntry} {ch : U8} {c' : Channel} {A S : Finset Nat}

theorem Assembling.begins (hc : p.channels[ch.toNat]? = some c)
    (hnone : c.fragmentBuffers[m.startSeq]? = none) (hstream : m.StreamAt false c) :
    m.Assembling p ch c ∅ p c ∅ := by
  have htwo := m.two_le
  have hne : (∅ : Finset Nat) ≠ Finset.range m.pieces := by
    intro heq
    have hcard := congrArg Finset.card heq
    rw [Finset.card_empty, Finset.card_range] at hcard
    omega
  refine ⟨hc, ⟨.inl ⟨hnone, rfl⟩, ?_, ?_⟩, by simp [buffers], by simp [buffers], by simp,
    fun _ => rfl, by rwa [decide_eq_false hne], by rw [if_neg hne, List.append_nil]⟩
  · rw [Std.ExtTreeMap.contains_eq_isSome_getElem?, hnone]
    rfl
  · rw [Finset.card_empty]
    exact Nat.lt_of_lt_of_le Nat.two_pos m.two_le

/-- A set of parts with as many elements as there are parts has them all. -/
theorem eq_range_of_card (hlt : ∀ j ∈ A, j < m.pieces) (hcard : A.card = m.pieces) :
    A = Finset.range m.pieces :=
  Finset.eq_of_subset_of_card_le (fun j hj => Finset.mem_range.mpr (hlt j hj))
    (by rw [Finset.card_range, hcard])

/-- A fragment that completes nothing leaves the unreliable counter alone. -/
theorem unreliable_of_early {i : U32 × Nat} {c₁ : Channel} {out : List Bytes}
    (hc : q.channels[ch.toNat]? = some c') (hside : Side c' m.startSeq s.fp m.data S)
    (hi : i.2 < m.pieces)
    (hcol : Collects q ch c' m.startSeq s.fp m.data S i.2 m.reliable (m.receive ch q i) c₁ out)
    (hmore : (insert i.2 S).card ≠ m.pieces) :
    c₁.incomingUnreliableSeq = c'.incomingUnreliableSeq := by
  have hc₁ : (m.receive ch q i).channels[ch.toNat]? = some c₁ :=
    Collections.getElem?_of_eq_set hc hcol.channels
  have htaken : Taken q ch c' s.fp m.data m.startSeq S i.2 m.reliable (m.receive ch q i) :=
    PeerEntry.onFragment_taken hc hside.buffer m.sized hi hside.more m.reliable i.1
  cases htaken with
  | dropped cause channels history =>
      rw [channels, hc] at hc₁
      cases hc₁
      rfl
  | stored b holds more channels history =>
      rw [Collections.getElem?_of_eq_set hc channels] at hc₁
      cases hc₁
      rfl
  | last new all => exact absurd all hmore

/-- **One fragment.** -/
theorem Assembling.arrive (ha : m.Assembling p ch c A q c' S) (hfit : m.FitsAlone p c)
    {i : U32 × Nat} (hi : i.2 < m.pieces) :
    ∃ c₁ S₁, m.Assembling p ch c (insert i.2 A) (m.receive ch q i) c₁ S₁ := by
  have hhalf : m.pieces ≤ 32768 := by
    refine m.pieces_le_half ?_
    have hbudget := hfit.2
    omega
  have hsize := ha.size
  have hbytes := ha.bytes
  have hroom : S = ∅ → c'.fragmentBuffers.size < maxFragmentBuffersPerChannel
      ∧ q.fragmentBytesInFlight + m.data.length ≤ maxFragmentBytesPerPeer := by
    rintro rfl
    rw [MessagePair.buffers_empty] at hsize hbytes
    rw [hsize, hbytes]
    exact hfit
  obtain ⟨c₁, out, hcol⟩ := PeerEntry.onFragment_collects ha.channel ha.side m.sized m.two_le hi
    (m.formed hi) hroom (by omega) m.reliable i.1
  have hc₁ : (m.receive ch q i).channels[ch.toNat]? = some c₁ :=
    Collections.getElem?_of_eq_set ha.channel hcol.channels
  have hlt : ∀ j ∈ insert i.2 A, j < m.pieces := by
    intro j hj
    rcases Finset.mem_insert.mp hj with rfl | hj
    · exact hi
    · exact ha.lt j hj
  have hsize₁ : c₁.fragmentBuffers.size
      = c.fragmentBuffers.size + buffers (stored m.pieces i.2 S) := by
    have hcol := hcol.size
    unfold pieces
    omega
  have hbytes₁ : (m.receive ch q i).fragmentBytesInFlight
      = p.fragmentBytesInFlight + m.data.length * buffers (stored m.pieces i.2 S) := by
    have hcol : (m.receive ch q i).fragmentBytesInFlight + m.data.length * buffers S
      = q.fragmentBytesInFlight + m.data.length * buffers (stored m.pieces i.2 S) := hcol.bytes
    omega
  have hhistory : (m.receive ch q i).history = q.history
      ++ PeerEntry.deliveries ch (if m.reliable then .reliable else .unreliable) out := hcol.history
  by_cases hall : (insert i.2 S).card = m.pieces
  · -- the last one missing, of the message or of a second set
    have hfull : insert i.2 A = Finset.range m.pieces := by
      by_cases hA : A = Finset.range m.pieces
      · rw [hA]
        exact Finset.insert_eq_of_mem (Finset.mem_range.mpr hi)
      · rw [ha.missing hA] at hall
        exact m.eq_range_of_card hlt hall
    have herased : m.StreamAt (decide (A = Finset.range m.pieces))
        { c' with fragmentBuffers := c'.fragmentBuffers.erase m.startSeq } :=
      ha.stream.congr rfl rfl rfl
    obtain ⟨c₂, hrelease, hstream⟩ := herased.release hhalf i.2
    obtain ⟨rfl, rfl⟩ := Prod.mk.inj ((hcol.last hall).trans hrelease)
    refine ⟨c₁, _, hc₁, hcol.side, hsize₁, hbytes₁, hlt, fun hne => absurd hfull hne, ?_, ?_⟩
    · rwa [decide_eq_true hfull]
    · rw [hhistory, ha.history, if_pos hfull]
      by_cases hA : A = Finset.range m.pieces
      · simp only [if_pos hA, decide_eq_true hA, if_true]
        exact List.append_nil _
      · simp only [if_neg hA, decide_eq_false hA, Bool.false_eq_true, if_false, List.append_nil]
        rfl
  · obtain ⟨rfl, hsame⟩ := hcol.early hall
    have hstored : stored m.pieces i.2 S = insert i.2 S := if_neg hall
    have hiff : insert i.2 A = Finset.range m.pieces ↔ A = Finset.range m.pieces := by
      constructor
      · intro hfull
        by_contra hA
        rw [ha.missing hA, hfull, Finset.card_range] at hall
        exact hall rfl
      · intro hA
        rw [hA]
        exact Finset.insert_eq_of_mem (Finset.mem_range.mpr hi)
    refine ⟨c₁, _, hc₁, hcol.side, hsize₁, hbytes₁, hlt, fun hne => ?_, ?_, ?_⟩
    · have hS := ha.missing (mt hiff.mpr hne)
      show stored m.pieces i.2 S = _
      rw [hstored, hS]
    · simp only [hiff]
      exact ha.stream.congr hsame.seq hsame.queue
        (m.unreliable_of_early ha.channel ha.side hi hcol hall)
    · rw [hhistory, ha.history]
      simp only [hiff]
      exact List.append_nil _

/-- **Any fragments, in any order**: the message is delivered when the last missing
one arrives, and not again. -/
theorem assembles (hc : p.channels[ch.toNat]? = some c)
    (hnone : c.fragmentBuffers[m.startSeq]? = none) (hstream : m.StreamAt false c)
    (hfit : m.FitsAlone p c) (is : List (U32 × Nat)) (his : ∀ i ∈ is, i.2 < m.pieces) :
    ∃ c' S, m.Assembling p ch c (is.map (·.2)).toFinset (m.receiveAll ch p is) c' S := by
  -- the parts that have arrived grow at the end of the list
  have hrun : ∀ (is : List (U32 × Nat)) {q : PeerEntry} {c' : Channel} {A S : Finset Nat},
      m.Assembling p ch c A q c' S → (∀ i ∈ is, i.2 < m.pieces) →
      ∃ c' S, m.Assembling p ch c (A ∪ (is.map (·.2)).toFinset) (m.receiveAll ch q is) c' S := by
    intro is
    induction is with
    | nil =>
        intro q c' A S ha _
        rw [List.map_nil, List.toFinset_nil, Finset.union_empty]
        exact ⟨c', S, ha⟩
    | cons i is ih =>
        intro q c' A S ha his
        obtain ⟨c₁, S₁, ha₁⟩ := ha.arrive hfit (his i List.mem_cons_self)
        obtain ⟨c₂, S₂, ha₂⟩ := ih ha₁ fun j hj => his j (List.mem_cons_of_mem _ hj)
        refine ⟨c₂, S₂, ?_⟩
        rw [List.map_cons, List.toFinset_cons, Finset.union_insert, ← Finset.insert_union]
        exact ha₂
  obtain ⟨c', S, ha⟩ := hrun is (.begins hc hnone hstream) his
  rw [Finset.empty_union] at ha
  exact ⟨c', S, ha⟩

/-! ## §3. The commands. -/

variable (m)

/-- Fragment `j` as a command, with the header number `seq`. -/
def command (ch : U8) (seq : U16) (j : Nat) : Command :=
  if m.reliable then
    ⟨⟨cmdSendFragment ||| commandFlagAcknowledge, ch, seq⟩, .sendFragment (m.fragment j)⟩
  else ⟨⟨cmdSendUnreliableFragment, ch, seq⟩, .sendUnreliableFragment (m.fragment j)⟩

variable {m}

theorem command_fragment (seq : U16) (j : Nat) :
    (m.command ch seq j).fragment = some (m.fragment j) := by
  unfold command
  split <;> rfl

/-- Where the mtu is not above 4096 the lengths of the fragments fit their field. -/
theorem command_wellFormed (hmtu : s.mtu ≤ mtuMax) (seq : U16) (j : Nat) :
    (m.command ch seq j).WellFormed := by
  have hlen : (m.fragment j).data.length < 65536 := by
    have hpiece : (piece s.fp m.data j).length ≤ s.fp := piece_le
    have hmax : s.mtu.toNat ≤ 4096 := hmtu
    have hfp : s.fp ≤ s.mtu.toNat := by
      unfold Sender.fp fragPayload
      omega
    show (piece s.fp m.data j).length < 65536
    omega
  unfold command
  split
  · refine ⟨?_, hlen⟩
    show (cmdSendFragment ||| commandFlagAcknowledge) &&& commandMask = cmdSendFragment
    decide
  · refine ⟨?_, hlen⟩
    show cmdSendUnreliableFragment &&& commandMask = cmdSendUnreliableFragment
    decide

/-- **The ranges of the fragments, one after the other, are the whole message.** -/
theorem ranges_partition :
    ((List.range m.pieces).flatMap fun j =>
      List.range' (m.fragment j).fragmentOffset.toNat (m.fragment j).data.length)
      = List.range m.data.length := by
  have hpieces : m.data.length ≤ m.pieces * s.fp := by
    by_contra hlt
    have hlast := (lt_fragCount_iff s.fp_pos).mpr (Nat.lt_of_not_le hlt)
    exact absurd hlast (Nat.lt_irrefl _)
  -- they are the pieces of the positions
  calc _ = (List.range m.pieces).flatMap (piece s.fp (List.range m.data.length)) := by
        refine List.flatMap_congr fun j hj => ?_
        have hj := List.mem_range.mp hj
        rw [show (m.fragment j).fragmentOffset.toNat = j * s.fp from m.sized.offset hj m.startSeq,
          show (m.fragment j).data = piece s.fp m.data j from rfl, length_piece, piece_range]
    _ = (List.range m.data.length).take (m.pieces * s.fp) := flatMap_piece ..
    _ = _ := List.take_of_length_le (by rwa [List.length_range])

end CutMessage

/-! ## §4. There and back. -/

/-- The receiving channel `inc` is in step with the sending channel `out`: the
counters match, no reassembly is in progress and nothing is held back. -/
structure InStep (out inc : Channel) : Prop where
  reliable : inc.incomingReliableSeq = out.outgoingReliableSeq
  unreliable : inc.incomingUnreliableSeq = out.outgoingUnreliableSeq
  buffers : inc.fragmentBuffers = ∅
  queue : inc.incomingReliableQueue = ∅

/-- The longest payload that goes out in one command. -/
def singleCommandLimit (mode : SendMode) (mtu : Nat) (useChecksum : Bool) : Nat :=
  if mode = .reliable then maxReliablePayload mtu useChecksum
  else maxUnreliablePayload mtu useChecksum

/-- The number a message gets as its `start_seq`. -/
def Channel.nextStart (out : Channel) (mode : SendMode) : U16 :=
  if mode = .reliable then out.outgoingReliableSeq + 1 else out.outgoingUnreliableSeq + 1

/-- The sending channel when the message has been sent as `n` fragments. -/
def Channel.sentFragments (out : Channel) (mode : SendMode) (n : Nat) : Channel :=
  if mode = .reliable then out.advance n else out.nextUnreliableSeq

/-- `on_command` for the fragment commands: the bytes are read and handed to
`on_fragment`. -/
def PeerEntry.onFragmentBytes (q : PeerEntry) (nowMs : U32) (bytes : Bytes) : PeerEntry :=
  match Command.parse bytes with
  | some (⟨hdr, .sendFragment sf⟩, _) => q.onFragment hdr.channelId sf true nowMs
  | some (⟨hdr, .sendUnreliableFragment sf⟩, _) => q.onFragment hdr.channelId sf false nowMs
  | _ => q

/-- Commands arrive, each named by its place among those sent. -/
def PeerEntry.feed (sent : List Bytes) (q : PeerEntry) (is : List (U32 × Nat)) : PeerEntry :=
  is.foldl (fun q i => (sent[i.2]?).elim q (q.onFragmentBytes i.1)) q

/-- The fragments among the commands sent. -/
def fragmentsIn (sent : List Bytes) : List SendFragmentCmd :=
  sent.filterMap fun bytes => (Command.parse bytes).bind fun r => r.1.fragment

namespace CutMessage

variable {s : Sender} {m : CutMessage s} {ch : U8}

theorem parse_command (hmtu : s.mtu ≤ mtuMax) (seq : U16) (j : Nat) :
    Command.parse (m.command ch seq j).write = some (m.command ch seq j, []) := by
  have hwell : (m.command ch seq j).WellFormed := m.command_wellFormed hmtu seq j
  have hparse := Command.parse_write hwell []
  rwa [List.append_nil] at hparse

theorem onFragmentBytes_command (hmtu : s.mtu ≤ mtuMax) (seq : U16) (j : Nat) (q : PeerEntry)
    (t : U32) : q.onFragmentBytes t (m.command ch seq j).write = m.receive ch q (t, j) := by
  rw [PeerEntry.onFragmentBytes, parse_command hmtu, receive]
  unfold command
  cases m.reliable <;> rfl

variable {seqs : Nat → U16} {sent : List Bytes}
  (hsent : sent = (List.range m.pieces).map fun j => (m.command ch (seqs j) j).write)
  (hmtu : s.mtu ≤ mtuMax)

include hsent hmtu

theorem feed_eq (q : PeerEntry) (is : List (U32 × Nat)) :
    q.feed sent is = m.receiveAll ch q (is.filter (·.2 < m.pieces)) := by
  induction is generalizing q with
  | nil => rfl
  | cons i is ih =>
      show ((sent[i.2]?).elim q (q.onFragmentBytes i.1)).feed sent is = _
      rw [ih]
      by_cases hi : i.2 < m.pieces
      · rw [List.filter_cons_of_pos (by simpa using hi), hsent, List.getElem?_map,
          List.getElem?_range hi]
        show m.receiveAll ch (q.onFragmentBytes i.1 _) _ = _
        rw [onFragmentBytes_command hmtu]
        rfl
      · rw [List.filter_cons_of_neg (by simpa using hi), hsent, List.getElem?_map,
          List.getElem?_eq_none (by simpa using hi)]
        rfl

theorem fragmentsIn_eq : fragmentsIn sent = (List.range m.pieces).map m.fragment := by
  rw [fragmentsIn, hsent, List.filterMap_map, ← List.filterMap_eq_map]
  refine List.filterMap_congr fun j _ => ?_
  show (Command.parse (m.command ch (seqs j) j).write).bind _ = _
  rw [parse_command hmtu]
  exact m.command_fragment (seqs j) j

end CutMessage

section Sender

variable {h : HostTask} {k : PeerKey} {q : PeerEntry} {pkt : Packet} {out : Channel}
  (hge : mtuMin ≤ q.mtu) (hmode : pkt.mode ≠ .unsequenced)
  (hlong : singleCommandLimit pkt.mode q.mtu.toNat h.useChecksum < pkt.data.length)
  (hlen : pkt.data.length ≤ maxPacketSize)

/-- The packet as a message in fragments. -/
def cutMessage (out : Channel) : CutMessage ⟨q.mtu, h.useChecksum, hge⟩ where
  startSeq := out.nextStart pkt.mode
  data := pkt.data
  reliable := pkt.mode == .reliable
  cut := by
    rw [Sender.whole, decide_eq_false_iff_not, Nat.not_le]
    unfold singleCommandLimit at hlong
    cases hm : pkt.mode with
    | reliable => simpa [hm] using hlong
    | unreliable => simpa [hm] using hlong
    | unsequenced => exact absurd hm hmode
  length := hlen

/-- A batch is sent from an entry just put back. -/
theorem setPeer_flushBatch (hq : h.peer k = some q) (q' : PeerEntry) (cmds : List Bytes)
    (nowMs : U32) :
    ∃ p es, ((h.setPeer k q').flushBatch k cmds nowMs).peer k = some p ∧ p.channels = q'.channels
      ∧ ((h.setPeer k q').flushBatch k cmds nowMs).trace = h.trace ++ es
      ∧ sentCommands es = cmds := by
  have hset : (h.setPeer k q').peer k = some q' :=
    HostTask.peer_setPeer_self (HostTask.lt_of_peer_eq_some hq)
  obtain ⟨t, hp⟩ := HostTask.peer_flushBatch hset cmds nowMs
  obtain ⟨es, htrace, hsent⟩ := HostTask.flushBatch_sent hset cmds nowMs
  exact ⟨_, es, hp, rfl, htrace, hsent⟩

/-- **What `send_packet` emits.** -/
theorem sendPacket_fragments (hq : h.peer k = some q) (hstate : q.state = .connected)
    (hout : q.channels[pkt.channel.toNat]? = some out)
    (hopen : pkt.mode = .reliable → q.windowOpen pkt.channel out = true) (nowMs : U32) :
    ∃ (h' : HostTask) (q' : PeerEntry) (es : List Event) (seqs : Nat → U16),
      h.sendPacket k pkt nowMs = some h' ∧ h'.peer k = some q'
      ∧ q'.channels[pkt.channel.toNat]? = some (out.sentFragments pkt.mode
        (cutMessage hge hmode hlong hlen out).pieces)
      ∧ h'.trace = h.trace ++ es
      ∧ sentCommands es = (List.range (cutMessage hge hmode hlong hlen out).pieces).map fun j =>
        ((cutMessage hge hmode hlong hlen out).command pkt.channel (seqs j) j).write := by
  have hpieces : (cutMessage hge hmode hlong hlen out).pieces
      = fragCount (fragPayload q.mtu.toNat h.useChecksum) pkt.data := rfl
  have hpos : 2 ≤ (cutMessage hge hmode hlong hlen out).pieces :=
    (cutMessage hge hmode hlong hlen out).two_le
  have hlimit := Nat.not_le.mpr hlong
  unfold singleCommandLimit at hlimit
  rw [HostTask.sendPacket, hq]
  simp only [hstate, ne_eq, not_true_eq_false, if_false]
  cases hm : pkt.mode with
  | reliable =>
      rw [if_pos hm] at hlimit
      simp only [HostTask.sendReliable, hout, hopen hm, Bool.not_true, Bool.false_eq_true, if_false,
        if_neg hlimit]
      have hchan := q.numberFragments_channels pkt (fragPayload q.mtu.toNat h.useChecksum) nowMs
      rw [← hpieces, Nat.sub_add_cancel (by omega), Collections.modify_of_getElem? _ hout] at hchan
      obtain ⟨p, es, hp, hpc, htrace, hsent⟩ := setPeer_flushBatch hq
        (q.numberFragments pkt (fragPayload q.mtu.toNat h.useChecksum) nowMs).1
        (q.numberFragments pkt (fragPayload q.mtu.toNat h.useChecksum) nowMs).2 nowMs
      refine ⟨_, p, es, fun j => BitVec.ofNat 16 (out.outgoingReliableSeq.toNat + 1 + j), rfl, hp,
        ?_, htrace, hsent.trans ?_⟩
      · rw [hpc]
        exact Collections.getElem?_of_eq_set hout hchan
      · have hT : out.outgoingReliableSeq = BitVec.ofNat 16 out.outgoingReliableSeq.toNat := by
          rw [BitVec.ofNat_toNat, BitVec.setWidth_eq]
        rw [PeerEntry.numberFragments_cmds hout hT, ← hpieces]
        refine List.map_congr_left fun j _ => ?_
        have hstart : BitVec.ofNat 16 (out.outgoingReliableSeq.toNat + 1)
            = out.nextStart pkt.mode := by
          rw [BitVec.ofNat_add, ← hT, hm]
          rfl
        have hrel : (cutMessage hge hmode hlong hlen out).reliable = true := beq_iff_eq.mpr hm
        rw [hstart, CutMessage.command, if_pos hrel]
        rfl
  | unreliable =>
      have hne : ¬ pkt.mode = .reliable := by
        rw [hm]
        decide
      rw [if_neg hne] at hlimit
      have hck : (h.setPeer k { q with
          channels := q.channels.set pkt.channel.toNat out.nextUnreliableSeq }).useChecksum
          = h.useChecksum := rfl
      simp only [HostTask.sendUnreliable, hout, hck, if_neg hlimit]
      rw [← hpieces]
      obtain ⟨p, es, hp, hpc, htrace, hsent⟩ := setPeer_flushBatch hq
        { q with channels := q.channels.set pkt.channel.toNat out.nextUnreliableSeq }
        ((List.range (cutMessage hge hmode hlong hlen out).pieces).map fun j =>
          encodeCommand cmdSendUnreliableFragment 0 pkt.channel
            out.nextUnreliableSeq.outgoingReliableSeq
            (fragmentBody (fragmentOf out.nextUnreliableSeq.outgoingUnreliableSeq
              (fragPayload q.mtu.toNat h.useChecksum) pkt.data j))) nowMs
      refine ⟨_, p, es, fun _ => out.nextUnreliableSeq.outgoingReliableSeq, rfl, hp, ?_, htrace,
        hsent.trans (List.map_congr_left fun j _ => ?_)⟩
      · rw [hpc]
        exact Collections.getElem?_of_eq_set hout rfl
      · have hrel : ¬ (cutMessage hge hmode hlong hlen out).reliable = true :=
          mt beq_iff_eq.mp hne
        have hstart : out.nextUnreliableSeq.outgoingUnreliableSeq = out.nextStart pkt.mode := by
          rw [hm]
          rfl
        rw [hstart, CutMessage.command, if_neg hrel]
        rfl
  | unsequenced => exact absurd hm hmode

/-- The receiving channel expects the message. -/
theorem InStep.streamAt {inc : Channel} (hstep : InStep out inc) :
    (cutMessage hge hmode hlong hlen out).StreamAt false inc := by
  have hbefore : (cutMessage hge hmode hlong hlen out).startSeq = out.nextStart pkt.mode := rfl
  unfold CutMessage.StreamAt
  cases hm : pkt.mode with
  | reliable =>
      have hrel : (cutMessage hge hmode hlong hlen out).reliable = true := beq_iff_eq.mpr hm
      rw [if_pos hrel]
      refine ⟨?_, fun key d => ?_, nofun, nofun⟩
      · rw [if_neg Bool.false_ne_true, CutMessage.ofNat_before, hbefore, hm, hstep.reliable]
        exact (BitVec.add_sub_cancel ..).symm
      · rw [hstep.queue]
        simp
  | unreliable =>
      have hrel : ¬ (cutMessage hge hmode hlong hlen out).reliable = true := by
        refine mt beq_iff_eq.mp ?_
        rw [hm]
        decide
      rw [if_neg hrel, if_neg Bool.false_ne_true, hbefore, hm, hstep.unreliable]
      exact (BitVec.add_sub_cancel ..).symm
  | unsequenced => exact absurd hm hmode

theorem packet_cutMessage : (cutMessage hge hmode hlong hlen out).packet pkt.channel = pkt := by
  obtain ⟨data, channel, mode⟩ := pkt
  cases mode with
  | reliable => rfl
  | unreliable => rfl
  | unsequenced => exact absurd rfl hmode

end Sender

/-- All parts have arrived if all commands have. -/
theorem arrived_all_iff (is : List (U32 × Nat)) (n : Nat) :
    ((is.filter (·.2 < n)).map (·.2)).toFinset = Finset.range n ↔ ∀ j < n, j ∈ is.map (·.2) := by
  rw [Finset.ext_iff]
  simp only [List.mem_toFinset, List.mem_map, List.mem_filter, Finset.mem_range,
    decide_eq_true_eq]
  constructor
  · intro hmem j hj
    obtain ⟨i, ⟨hi, -⟩, rfl⟩ := (hmem j).mpr hj
    exact ⟨i, hi, rfl⟩
  · intro hmem j
    constructor
    · intro ⟨i, ⟨_, hlt⟩, heq⟩
      exact heq ▸ hlt
    · intro hj
      obtain ⟨i, hi, rfl⟩ := hmem j hj
      exact ⟨i, ⟨hi, hj⟩, rfl⟩

/-- **Fragmentation, there and back.**  The fragments that `send_packet` emits for a
payload of up to 16 MiB that is too long for one command partition it.  Fed to the
receiver in any order, some more than once, they deliver the packet when the last
missing one arrives, and never again; the reliable counters then agree.  The budget
of 16 MiB is the peer's and not the channel's: `hroom` counts what is being
reassembled on every channel. -/
theorem fragmentation_round_trip (h : HostTask) (k : PeerKey) (q p : PeerEntry) (pkt : Packet)
    (out inc : Channel) (nowMs : U32) (hq : h.peer k = some q) (hstate : q.state = .connected)
    (hmtu : mtuMin ≤ q.mtu ∧ q.mtu ≤ mtuMax) (hmode : pkt.mode ≠ .unsequenced)
    (hlong : singleCommandLimit pkt.mode q.mtu.toNat h.useChecksum < pkt.data.length)
    (hout : q.channels[pkt.channel.toNat]? = some out)
    (hopen : pkt.mode = .reliable → q.windowOpen pkt.channel out = true)
    (hinc : p.channels[pkt.channel.toNat]? = some inc) (hstep : InStep out inc)
    (hroom : p.fragmentBytesInFlight + pkt.data.length ≤ maxFragmentBytesPerPeer) :
    ∃ (h' : HostTask) (q' : PeerEntry) (out' : Channel) (es : List Event),
      h.sendPacket k pkt nowMs = some h' ∧ h'.peer k = some q'
      ∧ q'.channels[pkt.channel.toNat]? = some out' ∧ h'.trace = h.trace ++ es
      ∧ ((fragmentsIn (sentCommands es)).flatMap fun sf =>
        List.range' sf.fragmentOffset.toNat sf.data.length) = List.range pkt.data.length
      ∧ ∀ is : List (U32 × Nat),
        (p.feed (sentCommands es) is).history = p.history
          ++ (if ∀ j < (sentCommands es).length, j ∈ is.map (·.2) then [.deliver pkt] else [])
        ∧ (pkt.mode = .reliable → (∀ j < (sentCommands es).length, j ∈ is.map (·.2)) →
          ∃ inc', (p.feed (sentCommands es) is).channels[pkt.channel.toNat]? = some inc'
            ∧ inc'.incomingReliableSeq = out'.outgoingReliableSeq) := by
  have hlen : pkt.data.length ≤ maxPacketSize := by
    have hmax : maxFragmentBytesPerPeer ≤ maxPacketSize := by decide
    omega
  obtain ⟨h', q', es, seqs, hsend, hq', hout', htrace, hsent⟩ :=
    sendPacket_fragments hmtu.1 hmode hlong hlen hq hstate hout hopen nowMs
  have hstream := hstep.streamAt hmtu.1 hmode hlong hlen
  have hpkt : (cutMessage hmtu.1 hmode hlong hlen out).packet pkt.channel = pkt :=
    packet_cutMessage hmtu.1 hmode hlong hlen
  have hdata : (cutMessage hmtu.1 hmode hlong hlen out).data = pkt.data := rfl
  have hstart : (cutMessage hmtu.1 hmode hlong hlen out).startSeq = out.nextStart pkt.mode := rfl
  have hrel : (cutMessage hmtu.1 hmode hlong hlen out).reliable = (pkt.mode == .reliable) := rfl
  generalize cutMessage hmtu.1 hmode hlong hlen out = m at hout' hsent hstream hpkt hdata hstart hrel
  have hcount : (sentCommands es).length = m.pieces := by
    rw [hsent, List.length_map, List.length_range]
  refine ⟨h', q', _, es, hsend, hq', hout', htrace, ?_, fun is => ?_⟩
  · rw [m.fragmentsIn_eq hsent hmtu.2, List.flatMap_map, ← hdata]
    exact m.ranges_partition
  · have hfit : m.FitsAlone p inc := by
      refine ⟨?_, hdata ▸ hroom⟩
      rw [hstep.buffers]
      decide
    have hnone : inc.fragmentBuffers[m.startSeq]? = none := by
      rw [hstep.buffers]
      exact Std.ExtTreeMap.getElem?_empty
    obtain ⟨inc', S, ha⟩ := m.assembles hinc hnone hstream hfit (is.filter (·.2 < m.pieces))
      (fun i hi => by simpa using (List.mem_filter.mp hi).2)
    rw [← m.feed_eq hsent hmtu.2] at ha
    have hall := arrived_all_iff is m.pieces
    simp only [hcount]
    constructor
    · rw [ha.history, hpkt]
      simp only [hall]
    · intro hm harrived
      have hstream' := ha.stream
      rw [decide_eq_true (hall.mpr harrived), CutMessage.StreamAt, hrel, hm, if_pos rfl,
        if_pos rfl] at hstream'
      refine ⟨inc', ha.channel, ?_⟩
      rw [hstream'.incoming, BitVec.ofNat_add, CutMessage.ofNat_before, hstart, hm]
      show out.outgoingReliableSeq + 1 - 1 + _ = out.outgoingReliableSeq + _
      rw [BitVec.add_sub_cancel]

/-- Three fragments of 3000 bytes, out of order, two of them twice. -/
theorem fragmentation_round_trip_three :
    ∃ (h' : HostTask) (es : List Event),
      ((HostTask.new 64 4 false 0 0).setPeer 0 newcomer).sendPacket 0
          ⟨List.replicate 3000 7, 0, .reliable⟩ 5 = some h'
        ∧ h'.trace = es ∧ (sentCommands es).length = 3
        ∧ (newcomer.feed (sentCommands es) [(5, 2), (5, 0), (6, 0), (7, 1), (8, 2)]).history
          = newcomer.history ++ [.deliver ⟨List.replicate 3000 7, 0, .reliable⟩] := by
  have hlong : singleCommandLimit .reliable newcomer.mtu.toNat false
      < (List.replicate 3000 (7 : U8)).length := by
    rw [List.length_replicate]
    decide
  obtain ⟨h', q', out', es, hsend, hq', hout', htrace, hranges, hfeed⟩ :=
    fragmentation_round_trip ((HostTask.new 64 4 false 0 0).setPeer 0 newcomer) 0 newcomer newcomer
      ⟨List.replicate 3000 7, 0, .reliable⟩ Channel.new Channel.new 5 rfl rfl
      ⟨by decide, by decide⟩ (by decide) hlong rfl (fun _ => by decide +kernel) rfl
      ⟨rfl, rfl, rfl, rfl⟩ (by simp only [List.length_replicate]; decide)
  have htrace : h'.trace = es := htrace
  have hthree : (((HostTask.new 64 4 false 0 0).setPeer 0 newcomer).sendPacket 0
      ⟨List.replicate 3000 7, 0, .reliable⟩ 5).any
      (fun h' => decide ((sentCommands h'.trace).length = 3)) = true := by
    decide +kernel
  rw [hsend, Option.any_some, decide_eq_true_eq, htrace] at hthree
  refine ⟨h', es, hsend, htrace, hthree, ?_⟩
  have hhistory := (hfeed [(5, 2), (5, 0), (6, 0), (7, 1), (8, 2)]).1
  rw [hthree, if_pos (by decide)] at hhistory
  exact hhistory

/-- **A message there is no room for** is refused fragment by fragment: nothing is
charged for it, so the room stays as it is. -/
theorem CutMessage.receiveAll_refused {s : Sender} (m : CutMessage s) {ch : U8} {c : Channel}
    (hnone : c.fragmentBuffers.contains m.startSeq = false) :
    ∀ (is : List (U32 × Nat)) (p : PeerEntry), p.channels[ch.toNat]? = some c →
      ¬ m.FitsAlone p c → (∀ i ∈ is, i.2 < m.pieces) →
      (m.receiveAll ch p is).history = p.history := by
  intro is
  induction is with
  | nil => exact fun _ _ _ _ => rfl
  | cons i is ih =>
      intro p hc hno his
      have href := m.refused hnone hno i.2
      obtain ⟨hchan, hhist⟩ := PeerEntry.onFragment_dropped hc m.reliable i.1 (.inr href)
      have hbytes := PeerEntry.onFragment_refused_bytes hc m.reliable i.1
        (m.formed (his i List.mem_cons_self)) href
      have hno' : ¬ m.FitsAlone (m.receive ch p i) c := by
        simp only [FitsAlone, receive, hbytes]
        exact hno
      refine (ih (m.receive ch p i) ?_ hno' fun j hj => his j (List.mem_cons_of_mem _ hj)).trans
        hhist
      simp only [receive, hchan, hc]

/-- One fragment of several does not complete a buffer that is made for it. -/
theorem PeerEntry.completes_first {c : Channel} {sf : SendFragmentCmd}
    (hnone : c.fragmentBuffers[sf.startSeq]? = none) (hcount : sf.fragmentCount ≠ 1) :
    completes c sf = false := by
  simp only [completes, fragmentBufferFor, hnone, Option.getD_none]
  cases ha : (FragmentBuffer.new sf.totalLength.toNat sf.fragmentCount).accepts sf.fragmentNumber
      sf.fragmentOffset.toNat sf.data with
  | true =>
      rw [FragmentBuffer.receive_of_accepts ha]
      exact beq_false_of_ne fun heq => hcount heq.symm
  | false => rw [FragmentBuffer.receive_of_rejects ha]

/-- The first fragment of a message that takes the whole budget. -/
def wideFragment : SendFragmentCmd :=
  { startSeq := 1
    fragmentCount := 12300
    fragmentNumber := 0
    totalLength := 16 * 1024 * 1024
    fragmentOffset := 0
    data := [1, 2, 3, 4] }

/-- A newcomer in the middle of that message, on channel 1. -/
def occupied : PeerEntry := newcomer.onFragment 1 wideFragment true 4

theorem occupied_bytes : occupied.fragmentBytesInFlight = 16 * 1024 * 1024 := by
  have hmore : PeerEntry.completes Channel.new wideFragment = false :=
    PeerEntry.completes_first Std.ExtTreeMap.getElem?_empty (by decide)
  have hformed : PeerEntry.fragmentMalformed wideFragment = false := by decide +kernel
  have hroom : newcomer.fragmentRefused Channel.new wideFragment = false := by decide +kernel
  rw [occupied, PeerEntry.onFragment_bytes (c := Channel.new) rfl true 4 hformed hroom, hmore]
  decide +kernel

theorem occupied_channel : occupied.channels[0]? = some Channel.new := by
  have hformed : PeerEntry.fragmentMalformed wideFragment = false := by decide +kernel
  have hroom : newcomer.fragmentRefused Channel.new wideFragment = false := by decide +kernel
  rw [occupied, (PeerEntry.onFragment_eq (c := Channel.new) rfl true 4 hformed hroom).1,
    List.getElem?_set_ne (by decide)]
  rfl

/-- **Three fragments of 3000 bytes, for a channel that is in step**, while another
channel of the peer is in the middle of a message of 16 MiB: whatever arrives, in
whatever order, nothing is delivered. -/
theorem fragmentation_over_budget :
    ∃ (h' : HostTask) (es : List Event),
      ((HostTask.new 64 4 false 0 0).setPeer 0 newcomer).sendPacket 0
          ⟨List.replicate 3000 7, 0, .reliable⟩ 5 = some h'
        ∧ h'.trace = es ∧ (sentCommands es).length = 3
        ∧ occupied.channels[0]? = some Channel.new ∧ InStep Channel.new Channel.new
        ∧ ∀ is : List (U32 × Nat),
          (occupied.feed (sentCommands es) is).history = occupied.history := by
  have hthree : (((HostTask.new 64 4 false 0 0).setPeer 0 newcomer).sendPacket 0
      ⟨List.replicate 3000 7, 0, .reliable⟩ 5).any
      (fun h' => decide ((sentCommands h'.trace).length = 3)) = true := by
    decide +kernel
  obtain ⟨pkt, hpkt⟩ : ∃ pkt : Packet, pkt = ⟨List.replicate 3000 7, 0, .reliable⟩ := ⟨_, rfl⟩
  have hdata : pkt.data.length = 3000 := by
    rw [hpkt]
    exact List.length_replicate
  have hlong : singleCommandLimit pkt.mode newcomer.mtu.toNat
      ((HostTask.new 64 4 false 0 0).setPeer 0 newcomer).useChecksum < pkt.data.length := by
    rw [hdata, hpkt]
    decide
  have hlen : pkt.data.length ≤ maxPacketSize := by
    rw [hdata]
    decide
  have hmode : pkt.mode ≠ .unsequenced := by
    rw [hpkt]
    decide
  have hge : mtuMin ≤ newcomer.mtu := by decide
  have hq : ((HostTask.new 64 4 false 0 0).setPeer 0 newcomer).peer 0 = some newcomer := rfl
  have hout : newcomer.channels[pkt.channel.toNat]? = some Channel.new := by
    rw [hpkt]
    rfl
  have hopen : pkt.mode = .reliable → newcomer.windowOpen pkt.channel Channel.new = true := by
    rw [hpkt]
    exact fun _ => by decide +kernel
  obtain ⟨h', q', es, seqs, hsend, -, -, htrace, hsent⟩ :=
    sendPacket_fragments hge hmode hlong hlen hq rfl hout hopen 5
  have htrace : h'.trace = es := htrace
  have hsame : (cutMessage hge hmode hlong hlen Channel.new).data = pkt.data := rfl
  generalize cutMessage hge hmode hlong hlen Channel.new = m at hsent hsame
  rw [← hpkt, hsend, Option.any_some, decide_eq_true_eq, htrace] at hthree
  refine ⟨h', es, hpkt ▸ hsend, htrace, hthree, occupied_channel, ⟨rfl, rfl, rfl, rfl⟩,
    fun is => ?_⟩
  -- no arrival finds room
  have hle : newcomer.mtu ≤ mtuMax := by decide
  rw [m.feed_eq hsent hle]
  have hnone : Channel.new.fragmentBuffers.contains m.startSeq = false :=
    Std.ExtTreeMap.contains_empty
  refine m.receiveAll_refused hnone _ occupied ?_ ?_ ?_
  · rw [hpkt]
    exact occupied_channel
  · rintro ⟨-, hroom⟩
    rw [occupied_bytes, hsame, hdata] at hroom
    exact absurd hroom (by decide)
  · exact fun i hi => of_decide_eq_true (List.mem_filter.mp hi).2

end EnetRs
