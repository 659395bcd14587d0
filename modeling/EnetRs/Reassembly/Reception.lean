/-
  EnetRs.Reassembly.Reception — the receiver of one channel's traffic.

  A `Reception` is the receiver while commands arrive: its entry, and beside it
  what the entry does not record (its two counters without wrap-around, whose
  message opened each reassembly buffer, and which commands have arrived).

  Main results:
    * `Traffic.receiveAll_invariant` — the rule for runs.
    * `Traffic.BuffersOwned.arrive` — every buffer holds fragments of one message.
-/
import EnetRs.Reassembly.Stream

namespace EnetRs

open MachineInt

/-! ## §1. Deliveries. -/

/-- A packet delivered on channel `ch`, the unsequenced ones apart. -/
def PeerEvent.asDelivery (ch : U8) : PeerEvent → Option Packet
  | .deliver pkt => if pkt.channel = ch ∧ pkt.mode ≠ .unsequenced then some pkt else none
  | _ => none

namespace PeerEntry

/-- What was handed to `deliver` on channel `ch`, in order. -/
def deliveredOn (p : PeerEntry) (ch : U8) : List Packet := p.history.filterMap (·.asDelivery ch)

theorem deliveredOn_deliveries {p q : PeerEntry} {ch : U8} {mode : SendMode} {ready : List Bytes}
    (hh : q.history = p.history ++ deliveries ch mode ready) (hmode : mode ≠ .unsequenced) :
    q.deliveredOn ch = p.deliveredOn ch ++ ready.map (⟨·, ch, mode⟩) := by
  have hnew : (deliveries ch mode ready).filterMap (·.asDelivery ch)
      = ready.map (⟨·, ch, mode⟩) := by
    rw [deliveries, List.filterMap_map]
    simp [Function.comp_def, PeerEvent.asDelivery, hmode, List.filterMap_eq_map']
  rw [deliveredOn, hh, List.filterMap_append, hnew]
  rfl

/-- The deliveries of one mode, after a batch of one mode. -/
theorem deliveredOn_filter_mode {p q : PeerEntry} {ch : U8} {mode' : SendMode} {ready : List Bytes}
    (mode : SendMode) (hh : q.history = p.history ++ deliveries ch mode' ready)
    (hmode : mode' ≠ .unsequenced) :
    (q.deliveredOn ch).filter (·.mode == mode) = (p.deliveredOn ch).filter (·.mode == mode)
      ++ if mode' = mode then ready.map (⟨·, ch, mode'⟩) else [] := by
  rw [deliveredOn_deliveries hh hmode, List.filter_append]
  congr 1
  split
  · next heq => simp [List.filter_map, Function.comp_def, heq]
  · next hne => simp [List.filter_map, Function.comp_def, hne]

theorem deliveredOn_congr {p q : PeerEntry} (hh : q.history = p.history) (ch : U8) :
    q.deliveredOn ch = p.deliveredOn ch := by
  rw [deliveredOn, hh]
  rfl

end PeerEntry

/-! ## §2. The receiver. -/

/-- The receiver of the traffic, and beside its entry: its two counters without
wrap-around, the message whose fragment made the buffer under a number, and the
commands that have arrived. -/
structure Reception where
  entry : PeerEntry
  reliable : Nat
  unreliable : Nat
  owner : U16 → Option Nat
  past : List Piece

/-- A receiver that has just been connected. -/
def newcomer : PeerEntry :=
  { PeerEntry.fresh (.v4 0x0A000002 5000) 77 1 mtuDefault 2 0 with state := .connected }

namespace Traffic

variable (tr : Traffic)

/-- The channel in the receiver's entry. -/
def chan (p : PeerEntry) : Channel := (p.channels[tr.ch.toNat]?).getD Channel.new

/-- `on_command` for the commands of the traffic: a command carries the number
and the data `send_packet` put into it. -/
def onPiece (nowMs : U32) (p : PeerEntry) (x : Piece) : PeerEntry :=
  if tr.reliable x.msg then
    if tr.whole x.msg then p.onSendReliable tr.ch (tr.key x.msg) (tr.data x.msg) nowMs
    else p.onFragment tr.ch (fragmentOf (tr.key x.msg) tr.sender.fp (tr.data x.msg) x.part) true nowMs
  else
    if tr.whole x.msg then
      p.onSendUnreliable tr.ch (BitVec.ofNat 16 (tr.reliableBefore x.msg)) (tr.key x.msg)
        (tr.data x.msg) nowMs
    else p.onFragment tr.ch (fragmentOf (tr.key x.msg) tr.sender.fp (tr.data x.msg) x.part) false nowMs

/-- A command arrives.  The counters grow by the distance the 16-bit counters
move; a buffer that is not there yet belongs to the message of the command. -/
def arrive (r : Reception) (i : U32 × Piece) : Reception :=
  let entry := tr.onPiece i.1 r.entry i.2
  let c := tr.chan r.entry
  { entry := entry
    reliable :=
      r.reliable + ((tr.chan entry).incomingReliableSeq - c.incomingReliableSeq).toNat
    unreliable :=
      r.unreliable + ((tr.chan entry).incomingUnreliableSeq - c.incomingUnreliableSeq).toNat
    owner :=
      if c.fragmentBuffers.contains (tr.key i.2.msg) then r.owner
      else Function.update r.owner (tr.key i.2.msg) (some i.2.msg)
    past := r.past ++ [i.2] }

/-- The commands arrive one after the other. -/
def receiveAll (r : Reception) (is : List (U32 × Piece)) : Reception := is.foldl tr.arrive r

/-- The entry knows the channel and nothing has arrived on it. -/
structure Fresh (p : PeerEntry) : Prop where
  channel : p.channels[tr.ch.toNat]? = some Channel.new
  delivered : p.deliveredOn tr.ch = []

/-- The receiver before the first command. -/
def begins (p : PeerEntry) : Reception := ⟨p, 0, 0, fun _ => none, []⟩

/-- The command's numbers lie within half the number space of the receiver's
counters: those of a reliable command around the expected number, those of an
unreliable one around the last unreliable and the last reliable number. -/
def InHalfRange (r : Reception) (x : Piece) : Prop :=
  if tr.reliable x.msg then
    Near (r.reliable + 1) (tr.start x.msg + x.part) ∧ Near (r.reliable + 1) (tr.start x.msg)
  else
    Near r.unreliable (tr.start x.msg) ∧ Near (tr.reliableBefore x.msg) r.reliable

/-- If the command is a fragment, a buffer under its `start_seq` was made by a
fragment of the same message. -/
def JoinsOwn (r : Reception) (x : Piece) : Prop :=
  tr.whole x.msg = false → (tr.chan r.entry).fragmentBuffers.contains (tr.key x.msg) = true →
    r.owner (tr.key x.msg) = some x.msg

instance (r : Reception) (x : Piece) : Decidable (tr.InHalfRange r x) := by
  unfold InHalfRange
  infer_instance

instance (r : Reception) (x : Piece) : Decidable (tr.JoinsOwn r x) := by
  unfold JoinsOwn
  infer_instance

/-- Every command of message `i` is among those that have arrived. -/
def Complete (past : List Piece) (i : Nat) : Prop := ∀ j < tr.pieces i, ⟨i, j⟩ ∈ past

instance (past : List Piece) (i : Nat) : Decidable (tr.Complete past i) := by
  unfold Complete
  infer_instance

variable {tr} {r : Reception} {x : Piece}

theorem Complete.mono {past past' : List Piece} {i : Nat} (hc : tr.Complete past i)
    (hsub : past ⊆ past') : tr.Complete past' i :=
  fun j hj => hsub (hc j hj)

/-- **Invariant rule**, for the commands that meet a condition where they
arrive. -/
theorem receiveAll_invariant {I : Reception → Prop} {C : Reception → U32 × Piece → Prop}
    (hstep : ∀ r i, I r → C r i → I (tr.arrive r i)) {is : List (U32 × Piece)} (hi : I r)
    (hm : Transition.Meets (fun r i => some (tr.arrive r i)) C r is) : I (tr.receiveAll r is) := by
  induction is generalizing r with
  | nil => exact hi
  | cons i is ih => exact ih (hstep r i hi hm.1) (hm.2 _ rfl)

theorem receiveAll_past (r : Reception) (is : List (U32 × Piece)) :
    (tr.receiveAll r is).past = r.past ++ is.map (·.2) := by
  induction is generalizing r with
  | nil => exact (List.append_nil _).symm
  | cons i is ih => exact (ih _).trans (List.append_assoc ..)

theorem chan_of_getElem? {p : PeerEntry} {c : Channel} (hc : p.channels[tr.ch.toNat]? = some c) :
    tr.chan p = c := by
  rw [chan, hc]
  rfl

/-- A counter that moved by less than one turn is where its number says. -/
theorem counter_eq {T T' : Nat} {a a' : U16} (ha : a = BitVec.ofNat 16 T)
    (ha' : a' = BitVec.ofNat 16 T') (hle : T ≤ T') (hlt : T' < T + 65536) :
    T + (a' - a).toNat = T' := by
  subst ha ha'
  simp only [BitVec.toNat_sub, BitVec.toNat_ofNat]
  omega

/-- A buffer that is there keeps its owner. -/
theorem owner_arrive {c : Channel} (hc : r.entry.channels[tr.ch.toNat]? = some c) {key : U16}
    {b : FragmentBuffer} (hb : c.fragmentBuffers[key]? = some b) (t : U32) :
    (tr.arrive r (t, x)).owner key = r.owner key := by
  simp only [Traffic.arrive, chan_of_getElem? hc]
  split
  · rfl
  · next hnot =>
    -- the owner changes only where there is no buffer
    rw [Function.update_of_ne]
    rintro rfl
    rw [Std.ExtTreeMap.contains_eq_isSome_getElem?, hb] at hnot
    exact hnot rfl

/-! ## §3. Whose fragments a buffer holds. -/

/-- What the buffer `b` of message `i` holds, when the reliable stream has got to
`T` and the commands in `past` have arrived. -/
structure Keeps (tr : Traffic) (T : Nat) (past : List Piece) (b : FragmentBuffer) (i : Nat)
    (S : Finset Nat) : Prop where
  lt : i < tr.msgs.length
  cut : tr.whole i = false
  holds : Holds b tr.sender.fp (tr.data i) S
  more : S.card < tr.pieces i
  range : tr.reliable i = true → ∀ j ∈ S, tr.start i + j ≤ T + 32768
  arrived : ∀ j ∈ S, ⟨i, j⟩ ∈ past

theorem Keeps.mono {T T' : Nat} {past past' : List Piece} {b : FragmentBuffer} {i : Nat}
    {S : Finset Nat} (hk : tr.Keeps T past b i S) (hT : T ≤ T') (hsub : past ⊆ past') :
    tr.Keeps T' past' b i S :=
  { hk with
    range := fun hrel j hj => (hk.range hrel j hj).trans (Nat.add_le_add_right hT _)
    arrived := fun j hj => hsub (hk.arrived j hj) }

/-- **Every buffer holds fragments of the message that made it.** -/
def BuffersOwned (tr : Traffic) (r : Reception) (c : Channel) : Prop :=
  ∀ (key : U16) (b : FragmentBuffer), c.fragmentBuffers[key]? = some b →
    ∃ i S, r.owner key = some i ∧ key = tr.key i ∧ tr.Keeps r.reliable r.past b i S

/-- The buffer of message `i` holds the fragments in `S`. -/
structure Collected (tr : Traffic) (r : Reception) (c : Channel) (i : Nat) (S : Finset Nat) :
    Prop where
  buffer : BufferAt c (tr.key i) tr.sender.fp (tr.data i) S
  more : S.card < tr.pieces i
  range : tr.reliable i = true → ∀ j ∈ S, tr.start i + j ≤ r.reliable + 32768
  arrived : ∀ j ∈ S, ⟨i, j⟩ ∈ r.past

/-- The command leaves the buffers as they were, but for the one under its own
number. -/
def BuffersAfter (tr : Traffic) (r : Reception) (x : Piece) (c c' : Channel) : Prop :=
  ∀ (key : U16) (b : FragmentBuffer), c'.fragmentBuffers[key]? = some b →
    c.fragmentBuffers[key]? = some b
      ∨ key = tr.key x.msg ∧ ∃ S, tr.Keeps r.reliable (r.past ++ [x]) b x.msg S

namespace BuffersOwned

variable {c c' : Channel}

/-- The buffer a fragment finds. -/
theorem collected (hb : tr.BuffersOwned r c) (hc : r.entry.channels[tr.ch.toNat]? = some c)
    (hv : tr.Valid x) (hcut : tr.whole x.msg = false) (hown : tr.JoinsOwn r x) :
    ∃ S, tr.Collected r c x.msg S := by
  cases hbuf : c.fragmentBuffers[tr.key x.msg]? with
  | none =>
      refine ⟨∅, .inl ⟨hbuf, rfl⟩, ?_, by simp, by simp⟩
      rw [Finset.card_empty]
      exact tr.pieces_pos hv.1
  | some b =>
      obtain ⟨i, S, howner, -, hkeeps⟩ := hb _ b hbuf
      have hcontains : (tr.chan r.entry).fragmentBuffers.contains (tr.key x.msg) = true := by
        rw [chan_of_getElem? hc, Std.ExtTreeMap.contains_eq_isSome_getElem?, hbuf]
        rfl
      cases howner.symm.trans (hown hcut hcontains)
      exact ⟨S, .inr ⟨b, hbuf, hkeeps.holds⟩, hkeeps.more, hkeeps.range, hkeeps.arrived⟩

/-- **One arrival.** -/
theorem arrive (hb : tr.BuffersOwned r c) (hc : r.entry.channels[tr.ch.toNat]? = some c)
    {t : U32} (hown : tr.JoinsOwn r x) (hle : r.reliable ≤ (tr.arrive r (t, x)).reliable)
    (hnew : tr.BuffersAfter r x c c') :
    tr.BuffersOwned (tr.arrive r (t, x)) c' := by
  intro key b hkey
  rcases hnew key b hkey with hold | ⟨rfl, S, hkeeps⟩
  · obtain ⟨i, S, howner, hki, hkeeps⟩ := hb key b hold
    exact ⟨i, S, (owner_arrive hc hold t).trans howner, hki,
      hkeeps.mono hle (List.subset_append_left ..)⟩
  · refine ⟨x.msg, S, ?_, rfl, hkeeps.mono hle (fun _ hy => hy)⟩
    simp only [Traffic.arrive]
    split
    · next hyes => exact hown hkeeps.cut hyes
    · exact Function.update_self ..

end BuffersOwned

/-! ## §4. A fragment arrives. -/

theorem onPiece_of_cut (hcut : tr.whole x.msg = false) (t : U32) (p : PeerEntry) :
    tr.onPiece t p x = p.onFragment tr.ch
      (fragmentOf (tr.key x.msg) tr.sender.fp (tr.data x.msg) x.part) (tr.reliable x.msg) t := by
  cases hrel : tr.reliable x.msg <;> simp [onPiece, hrel, hcut]

namespace Collected

variable {c : Channel} {S : Finset Nat} (hcol : tr.Collected r c x.msg S) (hv : tr.Valid x)
  (hcut : tr.whole x.msg = false)

include hcol hv hcut

theorem taken (hc : r.entry.channels[tr.ch.toNat]? = some c) (t : U32) :
    Taken r.entry tr.ch c tr.sender.fp (tr.data x.msg) (tr.key x.msg) S x.part
      (tr.reliable x.msg) (tr.onPiece t r.entry x) := by
  have hpieces := pieces_of_cut hv.1 hcut
  rw [onPiece_of_cut hcut]
  exact PeerEntry.onFragment_taken hc hcol.buffer (sized x.msg) (hpieces ▸ hv.2)
    (hpieces ▸ hcol.more) (tr.reliable x.msg) t

/-- The buffer of a fragment that was stored. -/
theorem buffersAfter {b : FragmentBuffer}
    (hnear : tr.reliable x.msg = true → Near (r.reliable + 1) (tr.start x.msg + x.part))
    (holds : Holds b tr.sender.fp (tr.data x.msg) (insert x.part S))
    (more : (insert x.part S).card < fragCount tr.sender.fp (tr.data x.msg)) :
    tr.BuffersAfter r x c
      { c with fragmentBuffers := c.fragmentBuffers.insert (tr.key x.msg) b } := by
  have hkeeps : tr.Keeps r.reliable (r.past ++ [x]) b x.msg (insert x.part S) := by
    refine ⟨hv.1, hcut, holds, by rwa [pieces_of_cut hv.1 hcut], fun hrel j hj => ?_,
      fun j hj => List.mem_append.mpr ?_⟩
    · rcases Finset.mem_insert.mp hj with heq | hj
      · have hle := (hnear hrel).le
        rw [heq]
        exact hle.trans_eq (Nat.add_assoc r.reliable 1 32767)
      · exact hcol.range hrel j hj
    · rcases Finset.mem_insert.mp hj with heq | hj
      · rw [heq]
        exact .inr List.mem_cons_self
      · exact .inl (hcol.arrived j hj)
  intro key b' hb'
  rw [Std.ExtTreeMap.getElem?_insert] at hb'
  split at hb'
  · next hcmp =>
    cases hb'
    exact .inr ⟨(Std.LawfulEqCmp.eq_of_compare hcmp).symm, _, hkeeps⟩
  · exact .inl hb'

/-- All fragments are there. -/
theorem insert_eq_range
    (hall : (insert x.part S).card = fragCount tr.sender.fp (tr.data x.msg)) :
    insert x.part S = Finset.range (tr.pieces x.msg) := by
  have hpieces := pieces_of_cut hv.1 hcut
  have hholds := hcol.buffer.holds (sized x.msg) x.part
  refine Finset.eq_of_subset_of_card_le (fun j hj => Finset.mem_range.mpr ?_)
    (by rw [Finset.card_range, hall, hpieces])
  rcases Finset.mem_insert.mp hj with heq | hj
  · exact heq ▸ hv.2
  · exact hpieces ▸ hholds.lt j hj

theorem complete (hall : (insert x.part S).card = fragCount tr.sender.fp (tr.data x.msg)) :
    tr.Complete (r.past ++ [x]) x.msg := by
  intro j hj
  rw [← Finset.mem_range, ← hcol.insert_eq_range hv hcut hall] at hj
  rcases Finset.mem_insert.mp hj with heq | hj
  · rw [heq]
    exact List.mem_append_right _ List.mem_cons_self
  · exact List.mem_append_left _ (hcol.arrived j hj)

end Collected

/-- A message in one piece is complete when it arrives. -/
theorem complete_of_whole (hv : tr.Valid x) (hw : tr.whole x.msg = true) :
    tr.Complete (r.past ++ [x]) x.msg := by
  obtain ⟨i, j⟩ := x
  intro j' (hj' : j' < tr.pieces i)
  have hone : tr.pieces i = 1 := pieces_of_whole hw
  have hpart : j < tr.pieces i := hv.2
  obtain rfl : j' = j := by omega
  exact List.mem_append_right _ List.mem_cons_self

end Traffic

end EnetRs
