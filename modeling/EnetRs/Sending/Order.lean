/-
  EnetRs.Sending.Order — reliable packets are numbered in the order of submission.

  A packet of a channel whose window is closed waits in `pending_send` until
  the next tick.  `send_packet` looks at the window only: once an ACK has
  opened it, a packet submitted before that tick is numbered at once and
  overtakes the ones that wait (`numbered_out_of_order`).

  Main results:
    * `Draining.next` — a drain never reorders: once a channel's window is
      closed it stays closed until the drain is over.
    * `numbered_in_order` — in every run in which no submission overtakes, the
      numbered packets of a channel are the first ones submitted on it.
-/
import EnetRs.Sending.Runs

namespace EnetRs

open MachineInt

/-! ## §1. Packets of one channel. -/

/-- The packets of a list that go to channel `ch`. -/
def onChannel (ch : U8) (pkts : List Packet) : List Packet :=
  pkts.filter fun pkt => pkt.channel == ch

@[simp] theorem onChannel_nil (ch : U8) : onChannel ch [] = [] := rfl

@[simp] theorem onChannel_append (ch : U8) (xs ys : List Packet) :
    onChannel ch (xs ++ ys) = onChannel ch xs ++ onChannel ch ys :=
  List.filter_append _ _

theorem onChannel_eq_nil {ch : U8} {pkts : List Packet} :
    onChannel ch pkts = [] ↔ ∀ w ∈ pkts, w.channel ≠ ch := by
  simp [onChannel, List.filter_eq_nil_iff]

namespace PeerEntry

variable {p q : PeerEntry}

/-- The packet would be numbered ahead of one of its channel that waits. -/
def overtakes (p : PeerEntry) (pkt : Packet) : Bool :=
  p.acceptsReliable pkt
    && (p.channels[pkt.channel.toNat]?).any (fun c => p.windowOpen pkt.channel c)
    && p.pendingSend.any fun w => w.channel == pkt.channel

/-! ## §2. The invariant. -/

/-- Between packets: on every channel of a Connected entry, what was numbered
followed by what waits is what was submitted. -/
structure Ordered (p : PeerEntry) : Prop where
  keyed : WellKeyed p.outgoingReliable
  held : Held p
  order : p.state = .connected → ∀ ch,
    onChannel ch p.numbered ++ onChannel ch p.pendingSend = onChannel ch p.submitted
  front : ∀ ch, onChannel ch p.numbered <+: onChannel ch p.submitted

/-- During a drain, `pkts` still to go: the channels of the packets that went
back to waiting have their windows closed. -/
structure Draining (p : PeerEntry) (pkts : List Packet) : Prop where
  keyed : WellKeyed p.outgoingReliable
  held : HeldBack p pkts
  order : ∀ ch, onChannel ch p.numbered ++ onChannel ch p.pendingSend ++ onChannel ch pkts
    = onChannel ch p.submitted
  closed : ∀ w ∈ p.pendingSend, ∀ c, p.channels[w.channel.toNat]? = some c →
    p.windowOpen w.channel c = false

section Step

variable {ck : Bool} {c : Channel} {pkt : Packet} {nowMs t : U32}

/-- A packet that overtakes none joins its channel's packets at the end. -/
theorem sendStep_order (hr : InRange p) (hsend : PeerOp.Sendable p pkt c)
    (hroom : p.windowOpen pkt.channel c = false → p.pendingSend.length < maxPendingSend)
    (hfree : p.windowOpen pkt.channel c = true → onChannel pkt.channel p.pendingSend = [])
    (ch : U8) :
    onChannel ch (p.sendStep ck c pkt nowMs).numbered
        ++ onChannel ch (p.sendStep ck c pkt nowMs).pendingSend
      = onChannel ch p.numbered ++ onChannel ch p.pendingSend ++ onChannel ch [pkt] := by
  cases hw : p.windowOpen pkt.channel c with
  | false =>
      rw [sendStep_closed hw, queuePending_of_room (hroom hw)]
      show onChannel ch p.numbered ++ onChannel ch (p.pendingSend ++ [pkt]) = _
      rw [onChannel_append, List.append_assoc]
  | true =>
      obtain ⟨n, hn⟩ := sendStep_open ck nowMs hr hsend hw
      rw [hn.numbered, hn.pending, onChannel_append]
      -- on the packet's own channel nothing waits; on the others it is invisible
      by_cases hch : pkt.channel = ch
      · subst hch
        rw [hfree hw]
        simp
      · have hnil : onChannel ch [pkt] = [] := by simp [onChannel, hch]
        rw [hnil]
        simp

/-- **A drain keeps the order.**  A packet that finds its window open has none
of its channel waiting before it; numbering it leaves the other windows closed. -/
theorem Draining.next {pkts : List Packet} (hd : Draining p (pkt :: pkts)) (hr : InRange p)
    (hsend : PeerOp.Sendable p pkt c) :
    Draining { p.sendStep ck c pkt nowMs with lastSendTime := t } pkts := by
  have hroom := hd.held.hasRoom
  have hfree : p.windowOpen pkt.channel c = true → ∀ w ∈ p.pendingSend, w.channel ≠ pkt.channel := by
    intro hw w hmem heq
    have hclosed := hd.closed w hmem c (by rw [heq]; exact hsend.2.2)
    rw [heq, hw] at hclosed
    cases hclosed
  have hj : Joins p pkt { p.sendStep ck c pkt nowMs with lastSendTime := t } :=
    sendStep_joins hr hsend fun _ => hroom
  refine ⟨hj.keyed hd.keyed, hd.held.next hj, fun ch => ?_, ?_⟩
  · have hsplit : onChannel ch (pkt :: pkts) = onChannel ch [pkt] ++ onChannel ch pkts :=
      onChannel_append ch [pkt] pkts
    rw [hj.submitted, ← hd.order ch, hsplit,
      ← List.append_assoc (onChannel ch p.numbered ++ onChannel ch p.pendingSend),
      ← sendStep_order hr hsend (fun _ => hroom) (fun hw => onChannel_eq_nil.mpr (hfree hw)) ch]
    rfl
  · cases hw : p.windowOpen pkt.channel c with
    | false =>
        rw [sendStep_closed hw, queuePending_of_room hroom]
        intro w hmem c' hc'
        rcases List.mem_append.mp hmem with hold | hnew
        · exact hd.closed w hold c' hc'
        · obtain rfl : w = pkt := by simpa using hnew
          cases hsend.2.2.symm.trans hc'
          exact hw
    | true =>
        obtain ⟨n, hn⟩ := sendStep_open ck nowMs hr hsend hw
        intro w hmem c' hc'
        have hmem : w ∈ p.pendingSend := by rw [← hn.pending]; exact hmem
        have hne := hfree hw w hmem
        have hc' : p.channels[w.channel.toNat]? = some c' := by
          rw [← hn.on.channels _ fun heq => hne (BitVec.eq_of_toNat_eq heq)]
          exact hc'
        exact (hn.on.windowOpen_eq hd.keyed hne c').trans (hd.closed w hmem c' hc')

end Step

/-! ## §3. What keeps the invariant. -/

theorem Ordered.of_starts (hs : Starts p) : Ordered p := by
  have hheld := Held.of_starts hs
  obtain ⟨hsub, hnum, -⟩ := hheld.early hs.state
  refine ⟨hs.keyed, hheld, fun hconn => ?_, fun ch => by rw [hsub, hnum]⟩
  have hst := hs.state
  simp [hconn] at hst

/-- Every operation outside `send_packet` and the drain. -/
theorem Ordered.op {h : HostTask} {nowMs : U32} {o : PeerOp} (hp : Ordered p) (hr : InRange p)
    (hg : o.Guard h p) (ho : ¬ o.Moves) : Ordered (o.apply nowMs p) := by
  have hsame := PeerOp.packets ho nowMs p
  refine ⟨PeerOp.keyed ho nowMs hp.keyed, hp.held.op hr hg ho, ?_, ?_⟩
  · rw [hsame.submitted, hsame.numbered, hsame.pending]
    intro hconn ch
    rcases PeerOp.state_cases nowMs hg with hst | ⟨hearly, -⟩ | ⟨data, hst⟩ | hst
    · exact hp.order (by rw [← hst]; exact hconn) ch
    · obtain ⟨h₁, h₂, h₃⟩ := hp.held.early hearly
      rw [h₁, h₂, h₃]
      rfl
    all_goals simp [hst] at hconn
  · rw [hsame.submitted, hsame.numbered]
    exact hp.front

/-- A submission that overtakes nothing. -/
theorem Ordered.send {ck : Bool} {nowMs t : U32} {c : Channel} {pkt : Packet} (hp : Ordered p)
    (hr : InRange p) (hsend : PeerOp.Sendable p pkt c) (hacc : p.acceptsReliable pkt = true)
    (hq : p.overtakes pkt = false) :
    Ordered { (p.log (.submit pkt)).sendStep ck c pkt nowMs with lastSendTime := t } := by
  have hr' : InRange (p.log (.submit pkt)) := ⟨hr.mtu, hr.window, hr.channels⟩
  have hroom : (p.log (.submit pkt)).windowOpen pkt.channel c = false →
      (p.log (.submit pkt)).pendingSend.length < maxPendingSend :=
    fun hw => hasRoom_of_accepts hsend hacc hw
  have hfree : (p.log (.submit pkt)).windowOpen pkt.channel c = true →
      onChannel pkt.channel (p.log (.submit pkt)).pendingSend = [] := by
    intro hw
    have hw : p.windowOpen pkt.channel c = true := hw
    simp only [overtakes, hacc, hsend.2.2, Option.any_some, hw, Bool.true_and] at hq
    refine onChannel_eq_nil.mpr fun w hmem heq => ?_
    have := List.any_eq_false.mp hq w hmem
    simp [heq] at this
  have hj : Joins (p.log (.submit pkt)) pkt
      { (p.log (.submit pkt)).sendStep ck c pkt nowMs with lastSendTime := t } :=
    sendStep_joins hr' hsend hroom
  have horder : ∀ ch, onChannel ch ((p.log (.submit pkt)).sendStep ck c pkt nowMs).numbered
      ++ onChannel ch ((p.log (.submit pkt)).sendStep ck c pkt nowMs).pendingSend
      = onChannel ch ((p.log (.submit pkt)).sendStep ck c pkt nowMs).submitted := by
    intro ch
    have hsub : ((p.log (.submit pkt)).sendStep ck c pkt nowMs).submitted
        = p.submitted ++ [pkt] := hj.submitted.trans (submitted_log_submit p pkt)
    rw [sendStep_order hr' hsend hroom hfree, hsub, numbered_log_submit, onChannel_append,
      ← hp.order hsend.1 ch]
    rfl
  refine ⟨hj.keyed hp.keyed, hp.held.send hsend hj, fun _ => horder, fun ch => ?_⟩
  exact (horder ch) ▸ List.prefix_append _ _

/-- **The condition is needed**: a packet that overtakes is numbered out of turn,
unless it equals the one that waits. -/
theorem Ordered.overtaken {ck : Bool} {nowMs : U32} {c : Channel} {pkt : Packet} (hp : Ordered p)
    (hr : InRange p) (hsend : PeerOp.Sendable p pkt c) (hover : p.overtakes pkt = true)
    (hnew : pkt ∉ p.pendingSend) :
    ¬ onChannel pkt.channel ((p.log (.submit pkt)).sendStep ck c pkt nowMs).numbered
      <+: onChannel pkt.channel ((p.log (.submit pkt)).sendStep ck c pkt nowMs).submitted := by
  simp only [overtakes, hsend.2.2, Option.any_some, Bool.and_eq_true, List.any_eq_true,
    beq_iff_eq] at hover
  obtain ⟨⟨-, hw⟩, w, hmem, hch⟩ := hover
  obtain ⟨n, hn⟩ := sendStep_open (p := p.log (.submit pkt)) ck nowMs
    ⟨hr.mtu, hr.window, hr.channels⟩ hsend hw
  have hself : onChannel pkt.channel [pkt] = [pkt] := by simp [onChannel]
  rw [hn.numbered, hn.submitted, submitted_log_submit, numbered_log_submit, onChannel_append,
    onChannel_append, ← hp.order hsend.1, hself, List.append_assoc, List.prefix_append_right_inj]
  -- the first packet that waits is not the new one
  intro hpre
  cases hwait : onChannel pkt.channel p.pendingSend with
  | nil => exact onChannel_eq_nil.mp hwait w hmem hch
  | cons v vs =>
      rw [hwait, List.cons_append, List.cons_prefix_cons] at hpre
      have hv : v ∈ onChannel pkt.channel p.pendingSend := by rw [hwait]; exact List.mem_cons_self
      rw [← hpre.1] at hv
      exact hnew (List.mem_filter.mp hv).1

theorem Ordered.clear (hp : Ordered p) (hst : p.state ≠ .connected) :
    Ordered { p with pendingSend := [] } :=
  { keyed := hp.keyed
    held := hp.held.clear
    order := fun hconn => absurd hconn hst
    front := hp.front }

theorem Ordered.start (hp : Ordered p) (hst : p.state = .connected) :
    Draining { p with pendingSend := [] } p.pendingSend :=
  { keyed := hp.keyed
    held := hp.held.start hst
    order := fun ch => by
      show onChannel ch p.numbered ++ onChannel ch [] ++ _ = _
      rw [onChannel_nil, List.append_nil]
      exact hp.order hst ch
    closed := by simp }

theorem Draining.done (hd : Draining p []) : Ordered p := by
  have horder : ∀ ch, onChannel ch p.numbered ++ onChannel ch p.pendingSend
      = onChannel ch p.submitted := fun ch => by simpa using hd.order ch
  exact ⟨hd.keyed, hd.held.done, fun _ => horder,
    fun ch => by rw [← horder]; exact List.prefix_append _ _⟩

/-- The rule for runs, for `Ordered`. -/
theorem ordered_rule : HostTask.PacketRule Ordered Draining (fun p pkt => p.overtakes pkt = false)
    (fun _ => True) :=
  { new := fun hn => .of_starts hn.starts
    op := fun hr hp hg ho _ => hp.op hr hg ho
    send := fun _ _ hr hp hsend hacc hq => hp.send hr hsend hacc hq
    clear := Ordered.clear
    start := Ordered.start
    ready := fun hd => hd.held.ready
    next := fun _ _ hr hd hsend => hd.next hr hsend
    done := Draining.done }

end PeerEntry

/-! ## §4. The numbers themselves. -/

/-- Blocks of numbers, each starting where the one before it ends; the first
starts at `s`. -/
def Consecutive : U16 → List (U16 × Nat) → Prop
  | _, [] => True
  | s, (seq, n) :: rest => seq = s ∧ Consecutive (s + BitVec.ofNat 16 n) rest

/-- How many numbers the blocks take. -/
def blockTotal (blocks : List (U16 × Nat)) : Nat := (blocks.map (·.2)).sum

theorem consecutive_append_singleton (s : U16) (blocks : List (U16 × Nat)) (n : Nat) :
    Consecutive s (blocks ++ [(s + BitVec.ofNat 16 (blockTotal blocks), n)])
      ↔ Consecutive s blocks := by
  induction blocks generalizing s with
  | nil => simp [Consecutive, blockTotal]
  | cons b blocks ih =>
      obtain ⟨seq, m⟩ := b
      have hadd : s + BitVec.ofNat 16 (blockTotal ((seq, m) :: blocks))
          = s + BitVec.ofNat 16 m + BitVec.ofNat 16 (blockTotal blocks) := by
        simp [blockTotal, BitVec.ofNat_add, BitVec.add_assoc]
      rw [List.cons_append, Consecutive, Consecutive, hadd, ih]

namespace PeerEntry

variable {p q : PeerEntry}

/-- The blocks of numbers given to the packets of channel `ch`, in order. -/
def blocks (p : PeerEntry) (ch : U8) : List (U16 × Nat) :=
  (p.numberings.filter fun x => x.1.channel == ch).map (·.2)

/-- A channel's counter is where its last block ends. -/
structure Counted (p : PeerEntry) : Prop where
  consecutive : ∀ ch, Consecutive 1 (p.blocks ch)
  counter : ∀ (ch : U8) c, p.channels[ch.toNat]? = some c →
    c.outgoingReliableSeq = BitVec.ofNat 16 (blockTotal (p.blocks ch))

theorem Counted.congr (hp : Counted p) (hn : q.numberings = p.numberings)
    (hc : q.channels.map (·.outgoingReliableSeq) = p.channels.map (·.outgoingReliableSeq)) :
    Counted q := by
  have hblocks : ∀ ch, q.blocks ch = p.blocks ch := fun ch => by rw [blocks, hn]; rfl
  refine ⟨fun ch => by rw [hblocks]; exact hp.consecutive ch, fun ch c hq => ?_⟩
  have hget := congrArg (fun l : List U16 => l[ch.toNat]?) hc
  simp only [List.getElem?_map, hq, Option.map_some] at hget
  obtain ⟨c', hc', heq⟩ := Option.map_eq_some_iff.mp hget.symm
  rw [hblocks, ← heq]
  exact hp.counter ch c' hc'

/-- Numbering a packet adds the next block to its channel. -/
theorem Counted.numbers {c : Channel} {pkt : Packet} {n : Nat} (hp : Counted p)
    (hsend : PeerOp.Sendable p pkt c) (hn : Numbers p c pkt n q) : Counted q := by
  have hcount := hp.counter pkt.channel c hsend.2.2
  have hother : ∀ ch, pkt.channel ≠ ch → q.blocks ch = p.blocks ch := by
    intro ch hch
    simp [blocks, hn.numberings, hch]
  have hown : q.blocks pkt.channel = p.blocks pkt.channel ++ [(c.outgoingReliableSeq + 1, n)] := by
    simp [blocks, hn.numberings]
  refine ⟨fun ch => ?_, fun ch c' hc' => ?_⟩
  · by_cases hch : pkt.channel = ch
    · subst hch
      rw [hown, hcount, BitVec.add_comm, consecutive_append_singleton]
      exact hp.consecutive pkt.channel
    · rw [hother ch hch]
      exact hp.consecutive ch
  · by_cases hch : pkt.channel = ch
    · subst hch
      rw [hn.channels, Collections.modify_of_getElem? _ hsend.2.2, List.getElem?_set_self
        (List.getElem?_eq_some_iff.mp hsend.2.2).1] at hc'
      cases hc'
      show c.outgoingReliableSeq + BitVec.ofNat 16 n = _
      rw [hown, hcount]
      simp [blockTotal, BitVec.ofNat_add]
    · rw [hother ch hch]
      have hne : ch.toNat ≠ pkt.channel.toNat := fun heq => hch (BitVec.eq_of_toNat_eq heq).symm
      rw [hn.on.channels _ hne] at hc'
      exact hp.counter ch c' hc'

theorem Counted.of_starts (hs : Starts p) : Counted p := by
  obtain ⟨ty, hh, -⟩ := hs.history
  obtain ⟨n, hn⟩ := hs.channels
  have hblocks : ∀ ch, p.blocks ch = [] := fun ch => by rw [blocks, numberings, hh]; rfl
  refine ⟨fun ch => by rw [hblocks]; trivial, fun ch c hc => ?_⟩
  rw [hn, List.getElem?_replicate] at hc
  split at hc
  · cases hc
    rw [hblocks]
    rfl
  · cases hc

theorem Counted.op {h : HostTask} {nowMs : U32} {o : PeerOp} (hp : Counted p) (hr : InRange p)
    (hg : o.Guard h p) : Counted (o.apply nowMs p) := by
  have hmoves : (∀ pkt, o ≠ .numberWhole pkt) → (∀ pkt fp, o ≠ .numberFragments pkt fp) →
      (o.apply nowMs p).numberings = p.numberings → Counted (o.apply nowMs p) := by
    intro hw hf hn
    exact hp.congr hn (PeerOp.map_channels (·.outgoingReliableSeq) nowMs
      (fun c => PeerOp.channelStep_outgoing p c hw hf) hg hr.channels.2)
  by_cases ho : o.Moves
  · cases o with
    | numberWhole pkt =>
        obtain ⟨c, hsend, -⟩ := hg
        exact hp.numbers hsend (numberWhole_numbers nowMs hr hsend)
    | numberFragments pkt fp =>
        obtain ⟨c, hsend, -, hbig, rfl⟩ := hg
        exact hp.numbers hsend (numberFragments_numbers nowMs (fragCount_pos_of_big hr hbig) hsend)
    | submit pkt =>
        exact hmoves nofun nofun (numberings_log_submit p pkt)
    | clearPending => exact hmoves nofun nofun rfl
    | queue pkt =>
        refine hmoves nofun nofun ?_
        simp only [PeerOp.apply, queuePending]
        split <;> rfl
    | _ => exact ho.elim
  · refine hmoves ?_ ?_ (PeerOp.packets ho nowMs p).numberings
    · rintro pkt rfl
      exact ho trivial
    · rintro pkt fp rfl
      exact ho trivial

end PeerEntry

/-- **Numbers are handed out one after the other**, in every reachable state. -/
theorem HostTask.Reachable.counted {h : HostTask} (hr : h.Reachable) (k : PeerKey) (p : PeerEntry)
    (hp : h.peer k = some p) : p.Counted := by
  let Inv : HostTask → Prop := fun h => h.AllInRange ∧ ∀ k p, h.peer k = some p → p.Counted
  suffices hinv : Inv h from hinv.2 k p hp
  refine hr.invariant Inv (fun _ _ _ _ _ => ⟨inRange_new _ _ _ _ _, by simp⟩) ?_
  intro nowMs h l hi hg
  refine ⟨Label.apply_inRange hi.1 hg, Label.entries hg (fun _ _ _ hn => .of_starts hn.starts) ?_
    hi.2⟩
  rintro k p o rfl hp hc hgo
  exact hc.op (hi.1.2 k p hp) hgo

/-! ## §5. Send order. -/

namespace HostTask

/-- **Send-order preservation.**  In every run in which no reliable packet is
submitted while its channel's window is open and a packet of that channel
waits in `pending_send`: on every channel of every entry, the packets that were
given numbers are the first ones that were submitted, in that order, and their
numbers follow one another. -/
theorem numbered_in_order (acceptCapacity maxPeers : Nat) (useChecksum : Bool)
    (incomingBandwidth outgoingBandwidth : U32) (is : List Timed) (h : HostTask)
    (hrun : (HostTask.new acceptCapacity maxPeers useChecksum incomingBandwidth
      outgoingBandwidth).run is = some h)
    (hm : Transition.Meets timedStep
      (UserMeets (fun p pkt => p.overtakes pkt = false) fun _ => True)
      (HostTask.new acceptCapacity maxPeers useChecksum incomingBandwidth outgoingBandwidth) is)
    (k : PeerKey) (p : PeerEntry) (hp : h.peer k = some p) (ch : U8) :
    onChannel ch p.numbered <+: onChannel ch p.submitted ∧ Consecutive 1 (p.blocks ch) := by
  have hreach : h.Reachable := ⟨_, _, _, _, _, is, hrun⟩
  exact ⟨(PeerEntry.ordered_rule.run hm hrun k p hp).front ch,
    (hreach.counted k p hp).consecutive ch⟩

/-- Two packets submitted at a closed window: the second waits, the tick after
the ACK of the first numbers it. -/
def patientSends : List Timed :=
  aliceThrottled ++
    [(65002, .send 0 (bytePacket 1)), (65003, .send 0 (bytePacket 2)),
     (65004, .datagram (peerDatagram 0 9 [ack 0 1 0]) alice), (65020, .tick)]

theorem numbered_in_order_patient : ∃ h p, (bind 4 false 0 0).run patientSends = some h ∧
    h.peer 0 = some p ∧ p.numbered = [bytePacket 1, bytePacket 2] ∧
    (onChannel 0 p.numbered <+: onChannel 0 p.submitted ∧ Consecutive 1 (p.blocks 0)) := by
  have hrun : ((bind 4 false 0 0).run patientSends).any (fun h => (h.peer 0).any fun p =>
      decide (p.numbered = [bytePacket 1, bytePacket 2])) = true := by decide +kernel
  obtain ⟨h, hh, hrest⟩ := (Option.any_eq_true _ _).mp hrun
  simp only [Option.any_eq_true, decide_eq_true_eq] at hrest
  obtain ⟨p, hp, hn⟩ := hrest
  exact ⟨h, p, hh, hp, hn, numbered_in_order 64 4 false 0 0 patientSends h hh (by decide +kernel)
    0 p hp 0⟩

/-- Three packets.  The window is closed when the second is submitted; the ACK
of the first opens it, and the third comes before the next tick. -/
def hastySends : List Timed :=
  aliceThrottled ++
    [(65002, .send 0 (bytePacket 1)), (65003, .send 0 (bytePacket 2)),
     (65004, .datagram (peerDatagram 0 9 [ack 0 1 0]) alice), (65005, .send 0 (bytePacket 3)),
     (65006, .datagram (peerDatagram 0 9 [ack 0 2 0]) alice), (65020, .tick)]

/-- The third packet gets number 2, the second number 3. -/
theorem numbered_out_of_order : ∃ h p, (bind 4 false 0 0).run hastySends = some h ∧
    h.peer 0 = some p ∧ p.state = .connected ∧
    p.submitted = [bytePacket 1, bytePacket 2, bytePacket 3] ∧
    p.numberings = [(bytePacket 1, 1, 1), (bytePacket 3, 2, 1), (bytePacket 2, 3, 1)] ∧
    ¬ (onChannel 0 p.numbered).Sublist (onChannel 0 p.submitted) := by
  have hrun : ((bind 4 false 0 0).run hastySends).any (fun h => (h.peer 0).any fun p =>
      decide (p.state = .connected)
        && decide (p.submitted = [bytePacket 1, bytePacket 2, bytePacket 3])
        && decide (p.numberings = [(bytePacket 1, 1, 1), (bytePacket 3, 2, 1),
          (bytePacket 2, 3, 1)])
        && !decide ((onChannel 0 p.numbered).Sublist (onChannel 0 p.submitted))) = true := by
    decide +kernel
  obtain ⟨h, hh, hrest⟩ := (Option.any_eq_true _ _).mp hrun
  simp only [Bool.and_eq_true, Bool.not_eq_true', Option.any_eq_true, decide_eq_true_eq,
    decide_eq_false_iff_not] at hrest
  obtain ⟨p, hp, ⟨⟨hst, hsub⟩, hnum⟩, hno⟩ := hrest
  exact ⟨h, p, hh, hp, hst, hsub, hnum, hno⟩

end HostTask

end EnetRs
