/-
  EnetRs.Reassembly.Stream — the messages of one channel and their numbers.

  A `Traffic` is what an honest sender submits on one channel.  It fixes the
  numbers `send_packet` gives to each message, here counted without wrap-around,
  and so the commands that may arrive.

  Main results:
    * `Traffic.start_add_pieces_le`, `start_inj` — the numbers of different
      messages.
-/
import EnetRs.Reassembly.Queue
import EnetRs.Sending.Numbering

namespace EnetRs

open MachineInt

/-! ## §1. The sender. -/

/-- What `send_packet` needs to know to cut a message. -/
structure Sender where
  mtu : U32
  useChecksum : Bool
  mtu_ge : mtuMin ≤ mtu

namespace Sender

theorem mtuMin_le : mtuMin ≤ 576 := by decide

variable (s : Sender) (m : Packet)

def fp : Nat := fragPayload s.mtu.toNat s.useChecksum

/-- Whether the message goes out in one piece. -/
def whole : Bool :=
  decide (m.data.length ≤
    if m.mode = .reliable then maxReliablePayload s.mtu.toNat s.useChecksum
    else maxUnreliablePayload s.mtu.toNat s.useChecksum)

/-- The number of commands the message takes. -/
def pieces : Nat := if s.whole m then 1 else fragCount s.fp m.data

theorem fp_pos : 0 < s.fp := fragPayload_pos s.mtu_ge s.useChecksum

/-- A message that is cut has at least two pieces. -/
theorem two_le_fragCount (hw : s.whole m = false) : 2 ≤ fragCount s.fp m.data := by
  rw [← Nat.lt_iff_add_one_le, lt_fragCount_iff s.fp_pos]
  simp only [whole, decide_eq_false_iff_not, Nat.not_le] at hw
  have hmtu : 576 ≤ s.mtu.toNat := s.mtu_ge
  unfold fp fragPayload
  unfold maxReliablePayload maxUnreliablePayload at hw
  split at hw <;> omega

theorem pieces_of_cut (hw : s.whole m = false) : s.pieces m = fragCount s.fp m.data := by
  simp [pieces, hw]

theorem pieces_pos : 0 < s.pieces m := by
  cases hw : s.whole m with
  | true => simp [pieces, hw]
  | false =>
      have htwo := s.two_le_fragCount m hw
      rw [s.pieces_of_cut m hw]
      omega

end Sender

/-- The messages an honest sender submits on channel `ch`, in order. -/
structure Traffic where
  sender : Sender
  ch : U8
  msgs : List Packet
  channel : ∀ m ∈ msgs, m.channel = ch
  mode : ∀ m ∈ msgs, m.mode ≠ .unsequenced
  length : ∀ m ∈ msgs, m.data.length < 2 ^ 32

/-- One command of a message: which message, and which part of it. -/
structure Piece where
  msg : Nat
  part : Nat
  deriving DecidableEq, Repr

namespace Traffic

variable (tr : Traffic)

/-- The reliable numbers used up before message `i`: the value of
`outgoing_reliable_seq`, without wrap-around, when it is sent. -/
def reliableBefore (i : Nat) : Nat :=
  (((tr.msgs.take i).filter (·.mode == .reliable)).map tr.sender.pieces).sum

/-- The unreliable numbers used up before message `i`. -/
def unreliableBefore (i : Nat) : Nat := ((tr.msgs.take i).filter (·.mode == .unreliable)).length

def reliable (i : Nat) : Bool := (tr.msgs[i]?).any (·.mode == .reliable)

def data (i : Nat) : Bytes := ((tr.msgs[i]?).map (·.data)).getD []

/-- The first number of message `i`, without wrap-around. -/
def start (i : Nat) : Nat :=
  if tr.reliable i then tr.reliableBefore i + 1 else tr.unreliableBefore i + 1

/-- The number on the wire: `start_seq` of a fragment. -/
def key (i : Nat) : U16 := BitVec.ofNat 16 (tr.start i)

def whole (i : Nat) : Bool := (tr.msgs[i]?).any tr.sender.whole

def pieces (i : Nat) : Nat := ((tr.msgs[i]?).map tr.sender.pieces).getD 0

/-- The command is one of the traffic's. -/
def Valid (x : Piece) : Prop := x.msg < tr.msgs.length ∧ x.part < tr.pieces x.msg

instance (x : Piece) : Decidable (tr.Valid x) := inferInstanceAs (Decidable (_ ∧ _))

variable {tr} {i j : Nat} {m : Packet}

theorem reliable_eq (hm : tr.msgs[i]? = some m) : tr.reliable i = (m.mode == .reliable) := by
  simp [reliable, hm]

theorem data_eq (hm : tr.msgs[i]? = some m) : tr.data i = m.data := by
  simp [data, hm]

theorem whole_eq (hm : tr.msgs[i]? = some m) : tr.whole i = tr.sender.whole m := by
  simp [whole, hm]

theorem pieces_eq (hm : tr.msgs[i]? = some m) : tr.pieces i = tr.sender.pieces m := by
  simp [pieces, hm]

/-- A message that is cut fits its header fields. -/
theorem sized (i : Nat) : Sized tr.sender.fp (tr.data i) := by
  refine ⟨tr.sender.fp_pos, ?_⟩
  cases hm : tr.msgs[i]? with
  | none => simp [data, hm]
  | some m =>
      rw [data_eq hm]
      exact tr.length m (List.mem_of_getElem? hm)

theorem pieces_of_cut (hi : i < tr.msgs.length) (hw : tr.whole i = false) :
    tr.pieces i = fragCount tr.sender.fp (tr.data i) := by
  have hm := List.getElem?_eq_getElem hi
  rw [whole_eq hm] at hw
  rw [pieces_eq hm, data_eq hm, tr.sender.pieces_of_cut _ hw]

theorem two_le_pieces (hi : i < tr.msgs.length) (hw : tr.whole i = false) : 2 ≤ tr.pieces i := by
  have hm := List.getElem?_eq_getElem hi
  rw [pieces_of_cut hi hw, data_eq hm]
  rw [whole_eq hm] at hw
  exact tr.sender.two_le_fragCount _ hw

theorem pieces_of_whole (hw : tr.whole i = true) : tr.pieces i = 1 := by
  obtain ⟨m, hm, hw⟩ := (Option.any_eq_true _ _).mp hw
  simp [pieces_eq hm, Sender.pieces, hw]

theorem pieces_pos (hi : i < tr.msgs.length) : 0 < tr.pieces i := by
  rw [pieces_eq (List.getElem?_eq_getElem hi)]
  exact tr.sender.pieces_pos _

/-! How the numbers grow. -/

theorem reliableBefore_succ (i : Nat) :
    tr.reliableBefore (i + 1) = tr.reliableBefore i + if tr.reliable i then tr.pieces i else 0 := by
  simp only [reliableBefore, List.take_add_one, List.filter_append, List.map_append,
    List.sum_append]
  congr 1
  cases hm : tr.msgs[i]? with
  | none => simp [reliable, hm]
  | some m =>
      rw [reliable_eq hm, pieces_eq hm]
      cases hrel : m.mode == .reliable <;> simp [hrel]

theorem unreliableBefore_succ (hm : tr.msgs[i]? = some m) :
    tr.unreliableBefore (i + 1) = tr.unreliableBefore i + if tr.reliable i then 0 else 1 := by
  have hmode := tr.mode m (List.mem_of_getElem? hm)
  simp only [unreliableBefore, List.take_add_one, hm, List.filter_append, List.length_append,
    reliable_eq hm]
  congr 1
  cases hrel : m.mode with
  | reliable => simp [hrel]
  | unreliable => simp [hrel]
  | unsequenced => exact absurd hrel hmode

theorem reliableBefore_mono (hij : i ≤ j) : tr.reliableBefore i ≤ tr.reliableBefore j := by
  induction j, hij using Nat.le_induction with
  | base => exact Nat.le_refl _
  | succ j _ ih =>
      rw [reliableBefore_succ]
      omega

theorem unreliableBefore_mono (hij : i ≤ j) : tr.unreliableBefore i ≤ tr.unreliableBefore j := by
  have hsub : (tr.msgs.take i).Sublist (tr.msgs.take j) := (List.take_sublist_take_left hij)
  exact (hsub.filter _).length_le

theorem start_of_reliable (hr : tr.reliable i = true) : tr.start i = tr.reliableBefore i + 1 :=
  if_pos hr

theorem start_of_unreliable (hr : tr.reliable i = false) :
    tr.start i = tr.unreliableBefore i + 1 := by
  simp [start, hr]

/-- **Reliable messages do not overlap.** -/
theorem start_add_pieces_le (hi : tr.reliable i = true) (hj : tr.reliable j = true) (hij : i < j) :
    tr.start i + tr.pieces i ≤ tr.start j := by
  have hstep := tr.reliableBefore_succ i
  rw [hi, if_pos rfl] at hstep
  have hmono := tr.reliableBefore_mono hij
  rw [start_of_reliable hi, start_of_reliable hj]
  simp only [Nat.succ_eq_add_one] at hmono
  omega

theorem lt_of_reliable (hi : tr.reliable i = true) : i < tr.msgs.length := by
  obtain ⟨m, hm, -⟩ := (Option.any_eq_true _ _).mp hi
  exact (List.getElem?_eq_some_iff.mp hm).1

theorem start_inj (hi : tr.reliable i = true) (hj : tr.reliable j = true)
    (heq : tr.start i = tr.start j) : i = j := by
  have hpi := tr.pieces_pos (lt_of_reliable hi)
  have hpj := tr.pieces_pos (lt_of_reliable hj)
  rcases Nat.lt_trichotomy i j with hlt | rfl | hgt
  · have hle := tr.start_add_pieces_le hi hj hlt
    omega
  · rfl
  · have hle := tr.start_add_pieces_le hj hi hgt
    omega

/-- The messages are in the order of their numbers. -/
theorem lt_of_start_lt (hi : tr.reliable i = true) (hj : tr.reliable j = true)
    (hlt : tr.start i < tr.start j) : i < j := by
  by_contra hge
  rcases Nat.lt_or_eq_of_le (Nat.le_of_not_lt hge) with hji | rfl
  · have hle := tr.start_add_pieces_le hj hi hji
    omega
  · omega

theorem start_add_pieces_le_of_lt (hi : tr.reliable i = true) (hj : tr.reliable j = true)
    (hlt : tr.start i < tr.start j) : tr.start i + tr.pieces i ≤ tr.start j :=
  start_add_pieces_le hi hj (lt_of_start_lt hi hj hlt)

/-- The message as the receiver should deliver it. -/
def packet (tr : Traffic) (i : Nat) : Packet :=
  ⟨tr.data i, tr.ch, if tr.reliable i then .reliable else .unreliable⟩

theorem getElem?_eq_packet (hi : i < tr.msgs.length) : tr.msgs[i]? = some (tr.packet i) := by
  have hm := List.getElem?_eq_getElem hi
  have hmem := List.getElem_mem hi
  have hch := tr.channel _ hmem
  have hmode := tr.mode _ hmem
  rw [hm, packet, data_eq hm, reliable_eq hm]
  generalize tr.msgs[i] = m at hch hmode
  obtain ⟨data, channel, mode⟩ := m
  simp only at hch hmode
  subst hch
  cases mode with
  | reliable => rfl
  | unreliable => rfl
  | unsequenced => exact absurd rfl hmode

theorem map_packet_range {k : Nat} (hk : k ≤ tr.msgs.length) :
    (List.range k).map tr.packet = tr.msgs.take k := by
  refine List.ext_getElem? fun i => ?_
  rw [List.getElem?_map, List.getElem?_take]
  by_cases hi : i < k
  · rw [List.getElem?_range hi, if_pos hi, getElem?_eq_packet (Nat.lt_of_lt_of_le hi hk)]
    rfl
  · rw [List.getElem?_eq_none (by simpa using hi), if_neg hi]
    rfl

end Traffic

end EnetRs
