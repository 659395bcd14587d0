/-
  EnetRs.Safety.Custody — who holds the payload of a reliable command.

  A payload that has arrived is in the channel's queue or (a fragment) in a
  reassembly buffer, until the message it belongs to is delivered.  This file
  says what the command that brings it does with it, and what every other
  command for the same channel may do to it: `receive_reliable` overwrites a
  queued message of the same number, a fragment may overwrite bytes of its
  buffer, and a completed message is dropped where the queue has no room.

  Main results:
    * `PeerEntry.delivered_iff`, `holdsData_iff` — the command itself.
    * `Channel.receiveReliable_keeps`, `PeerEntry.fragmentStep_keeps` — another
      message and another fragment on the channel.
    * `PeerOp.kept` — every operation.
-/
import EnetRs.Host.Deliveries
import EnetRs.Reassembly.Accounting
import EnetRs.Reassembly.Arrival

namespace EnetRs

open MachineInt

/-! ## §1. Where a payload can be. -/

namespace ReliableData

/-- The payload stands in the message `m`. -/
def Within (m : Bytes) : ReliableData → Prop
  | whole data => m = data
  | fragment sf => sf.IsPartOf m

/-- The number of the message the payload belongs to; `seq` is the number of
the command. -/
def key (seq : U16) : ReliableData → U16
  | whole _ => seq
  | fragment sf => sf.startSeq

instance (m : Bytes) : ∀ d : ReliableData, Decidable (d.Within m)
  | whole data => inferInstanceAs (Decidable (m = data))
  | fragment sf => inferInstanceAs (Decidable (_ = sf.data))

end ReliableData

namespace Channel

/-- The message the payload belongs to is in the queue. -/
def InQueue (c : Channel) (seq : U16) (d : ReliableData) : Prop :=
  ∃ m, c.incomingReliableQueue[d.key seq]? = some m ∧ d.Within m

/-- The payload is in the reassembly buffer of its message. -/
def InBuffer (c : Channel) : ReliableData → Prop
  | .whole _ => False
  | .fragment sf => ∃ b, c.fragmentBuffers[sf.startSeq]? = some b
      ∧ BitArray.testBit b.mask sf.fragmentNumber.toNat = true ∧ sf.IsPartOf b.buf

/-- The channel holds the payload of the command numbered `seq`. -/
def Holds (c : Channel) (seq : U16) (d : ReliableData) : Prop := c.InQueue seq d ∨ c.InBuffer d

instance (c : Channel) (seq : U16) (d : ReliableData) : Decidable (c.InQueue seq d) :=
  inferInstanceAs (Decidable (∃ m, c.incomingReliableQueue[d.key seq]? = some m ∧ d.Within m))

instance (c : Channel) : ∀ d : ReliableData, Decidable (c.InBuffer d)
  | .whole _ => isFalse id
  | .fragment sf => inferInstanceAs (Decidable (∃ b, c.fragmentBuffers[sf.startSeq]? = some b
      ∧ BitArray.testBit b.mask sf.fragmentNumber.toNat = true ∧ _ = sf.data))

instance (c : Channel) (seq : U16) (d : ReliableData) : Decidable (c.Holds seq d) :=
  inferInstanceAs (Decidable (_ ∨ _))

/-- `receive_reliable` puts a message with this number into the queue. -/
def queues (c : Channel) (seq : U16) : Bool := !c.expects seq && c.hasRoomFor seq

/-- The number `seq` lies behind the channel's position, or what it numbers is
waiting: in the queue (alone or as part of its message), or in a buffer. -/
def Passed (c : Channel) (seq : U16) (d : ReliableData) : Prop :=
  seqLt c.incomingReliableSeq seq = false
    ∨ seq ∈ c.incomingReliableQueue ∨ d.key seq ∈ c.incomingReliableQueue
    ∨ ∃ start b n, c.fragmentBuffers[start]? = some b ∧ BitArray.testBit b.mask n = true
        ∧ seq = start + BitVec.ofNat 16 n

end Channel

namespace PeerEntry

/-- The entry holds the payload on channel `ch`. -/
def HoldsData (p : PeerEntry) (ch : U8) (seq : U16) (d : ReliableData) : Prop :=
  ∃ c, p.channels[ch.toNat]? = some c ∧ c.Holds seq d

instance (p : PeerEntry) (ch : U8) (seq : U16) (d : ReliableData) :
    Decidable (p.HoldsData ch seq d) :=
  inferInstanceAs (Decidable (∃ c, p.channels[ch.toNat]? = some c ∧ c.Holds seq d))

/-- A command numbered `seq` was received before, in the current cycle of the
16-bit numbers: it was taken, and the channel has passed its number or keeps
it. -/
def HadReceived (p : PeerEntry) (ch : U8) (seq : U16) (d : ReliableData) : Prop :=
  .take ch seq ∈ p.history ∧ ∃ c, p.channels[ch.toNat]? = some c ∧ c.Passed seq d

/-- The payload was handed to `deliver` between `p` and `q`. -/
def DeliveredSince (p q : PeerEntry) (ch : U8) (d : ReliableData) : Prop :=
  ∃ m, d.Within m ∧ ⟨m, ch, .reliable⟩ ∈ q.delivered.drop p.delivered.length

/-- The handler of the command. -/
def onData (p : PeerEntry) (ch : U8) (seq : U16) (nowMs : U32) : ReliableData → PeerEntry
  | .whole data => p.onSendReliable ch seq data nowMs
  | .fragment sf => p.onFragment ch sf true nowMs

/-- Whether the handler delivers the payload at once. -/
def deliversNow (p : PeerEntry) (ch : U8) (seq : U16) (d : ReliableData) : Bool :=
  match p.channels[ch.toNat]?, d with
  | none, _ => false
  | some c, .whole _ => c.expects seq
  | some c, .fragment sf => p.takes ch seq d && completes c sf && c.expects sf.startSeq

/-! ## §2. The command that brings the payload. -/

section Outcome

variable {p : PeerEntry} {ch : U8} {c : Channel} {seq : U16} {sf : SendFragmentCmd}

theorem holdsData_set {c' : Channel} {q : PeerEntry} {d : ReliableData}
    (hc : p.channels[ch.toNat]? = some c) (hq : q.channels = p.channels.set ch.toNat c') :
    q.HoldsData ch seq d ↔ c'.Holds seq d := by
  have hget : q.channels[ch.toNat]? = some c' := by
    rw [hq, List.getElem?_set_self (List.getElem?_eq_some_iff.mp hc).1]
  constructor
  · rintro ⟨c'', hc'', hh⟩
    rw [hget] at hc''
    cases hc''
    exact hh
  · exact fun hh => ⟨c', hget, hh⟩

theorem holdsData_iff_of_channel {d : ReliableData} (hc : p.channels[ch.toNat]? = some c) :
    p.HoldsData ch seq d ↔ c.Holds seq d :=
  holdsData_set hc (Collections.set_of_getElem? hc).symm

theorem delivered_deliveries {q : PeerEntry} {mode : SendMode} {ready : List Bytes}
    (hh : q.history = p.history ++ deliveries ch mode ready) :
    q.delivered = p.delivered ++ ready.map (⟨·, ch, mode⟩) := by
  have hnew : (deliveries ch mode ready).filterMap PeerEvent.asDeliver
      = ready.map (⟨·, ch, mode⟩) := by
    rw [deliveries, List.filterMap_map]
    exact congrFun (List.filterMap_eq_map (f := fun data => (⟨data, ch, mode⟩ : Packet))) ready
  rw [delivered, hh, List.filterMap_append, hnew]
  rfl

/-- A batch of reliable messages delivers the payload if one of them contains it. -/
theorem deliveredSince_deliveries {q : PeerEntry} {ready : List Bytes} {d : ReliableData}
    (hh : q.history = p.history ++ deliveries ch .reliable ready) :
    p.DeliveredSince q ch d ↔ ∃ m ∈ ready, d.Within m := by
  simp only [DeliveredSince, delivered_deliveries hh, List.drop_left, List.mem_map]
  constructor
  · rintro ⟨m, hw, m', hm', heq⟩
    cases heq
    exact ⟨m, hm', hw⟩
  · rintro ⟨m, hm, hw⟩
    exact ⟨m, hw, m, hm, rfl⟩

/-- What the handler of a command leaves: one channel changed, a batch
delivered; and the payload's whereabouts, by the checks made beforehand. -/
structure Outcome (p : PeerEntry) (c : Channel) (ch : U8) (seq : U16) (d : ReliableData)
    (c' : Channel) (ready : List Bytes) : Prop where
  delivered : p.deliversNow ch seq d = true → ∃ m ∈ ready, d.Within m
  nothing : p.deliversNow ch seq d = false → ready = []
  held : p.deliversNow ch seq d = false →
    (c'.Holds seq d ↔ p.takes ch seq d = true ∨ c.Holds seq d)

theorem outcome_whole (hc : p.channels[ch.toNat]? = some c) (data : Bytes) :
    Outcome p c ch seq (.whole data) (c.receiveReliable seq data).1
      (c.receiveReliable seq data).2 := by
  have hnow : p.deliversNow ch seq (.whole data) = c.expects seq := by
    simp [deliversNow, hc]
  have htakes : p.takes ch seq (.whole data) = (c.expects seq || c.hasRoomFor seq) := by
    simp [takes, hc]
  cases he : c.expects seq with
  | true =>
      rw [Channel.receiveReliable_of_expects he]
      refine ⟨fun _ => ⟨data, List.mem_cons_self, rfl⟩, ?_, ?_⟩ <;> simp [hnow, he]
  | false =>
      cases hr : c.hasRoomFor seq with
      | true =>
          rw [Channel.receiveReliable_of_room he hr]
          refine ⟨by simp [hnow, he], fun _ => rfl, fun _ => ?_⟩
          have hin : ({ c with incomingReliableQueue := c.incomingReliableQueue.insert seq data } :
              Channel).InQueue seq (.whole data) :=
            ⟨data, Std.ExtTreeMap.getElem?_insert_self, rfl⟩
          simp [Channel.Holds, htakes, hr, hin]
      | false =>
          rw [Channel.receiveReliable_of_drop he hr]
          refine ⟨by simp [hnow, he], fun _ => rfl, fun _ => ?_⟩
          simp [htakes, he, hr]

/-- A fragment that does not fit leaves the channel holding what it held: a
buffer made for it has no bit set. -/
theorem holds_rejected (seq : U16) (d : ReliableData) :
    ({ c with fragmentBuffers := c.fragmentBuffers.insert sf.startSeq (fragmentBufferFor c sf) } :
        Channel).Holds seq d ↔ c.Holds seq d := by
  refine or_congr Iff.rfl ?_
  cases d with
  | whole data => exact Iff.rfl
  | fragment sf' =>
      simp only [Channel.InBuffer]
      by_cases hkey : sf.startSeq = sf'.startSeq
      · rw [← hkey, Std.ExtTreeMap.getElem?_insert_self]
        cases hb : c.fragmentBuffers[sf.startSeq]? with
        | some b => simp [fragmentBufferFor, hb]
        | none =>
            simp [fragmentBufferFor, hb, FragmentBuffer.new, BitArray.testBit_replicate_zero]
      · rw [Std.ExtTreeMap.getElem?_insert, if_neg (by simpa using hkey)]

/-- Completing a reassembly takes nothing away that was there before. -/
theorem holds_erased (hf : fits c sf = true) (seq : U16) :
    ({ c with fragmentBuffers := c.fragmentBuffers.erase sf.startSeq } : Channel).Holds seq
      (.fragment sf) ↔ c.Holds seq (.fragment sf) := by
  refine or_congr Iff.rfl ⟨?_, ?_⟩
  · rintro ⟨b, hb, -⟩
    rw [Std.ExtTreeMap.getElem?_erase_self] at hb
    cases hb
  rintro ⟨b, hb, hbit, -⟩
  simp [fits, fragmentBufferFor, hb, FragmentBuffer.accepts, hbit] at hf

section Fragment

variable (hc : p.channels[ch.toNat]? = some c) (hm : fragmentMalformed sf = false)
  (hr : p.fragmentRefused c sf = false)

include hc hm hr

/-- The checks for a fragment that is well formed and not refused. -/
theorem takes_fragment : p.takes ch seq (.fragment sf)
    = (fits c sf && (!completes c sf || c.expects sf.startSeq || c.hasRoomFor sf.startSeq)) := by
  simp [takes, hc, hm, hr, fits]

/-- A fragment that completes its message: the buffer is gone, and the payload is
where `receive_reliable` put the message. -/
theorem outcome_assembled (hd : completes c sf = true) :
    Outcome p c ch seq (.fragment sf) (fragmentStep c sf true).1 (fragmentStep c sf true).2 := by
  have hf := fits_of_completes hd
  have htakes : p.takes ch seq (.fragment sf) = _ := takes_fragment hc hm hr
  have hnow : p.deliversNow ch seq (.fragment sf) = c.expects sf.startSeq := by
    cases he : c.expects sf.startSeq <;> simp [deliversNow, hc, htakes, hf, hd, he]
  rw [fragmentStep_complete hd]
  have herase := holds_erased hf seq
  generalize hc₀ : ({ c with fragmentBuffers := c.fragmentBuffers.erase sf.startSeq } :
    Channel) = c₀ at *
  obtain ⟨hexp, hroom'⟩ : c₀.expects sf.startSeq = c.expects sf.startSeq
      ∧ c₀.hasRoomFor sf.startSeq = c.hasRoomFor sf.startSeq := by
    subst hc₀
    exact ⟨rfl, rfl⟩
  simp only [releaseAssembled, if_true]
  cases he : c.expects sf.startSeq with
  | true =>
      rw [Channel.receiveReliable_of_expects (hexp.trans he)]
      refine ⟨fun _ => ⟨(filled c sf).buf, ?_, filled_isPartOf hf⟩, ?_, ?_⟩
      · split <;> simp
      · simp [hnow, he]
      · simp [hnow, he]
  | false =>
      cases hroom : c.hasRoomFor sf.startSeq with
      | true =>
          rw [Channel.receiveReliable_of_room (hexp.trans he) (hroom'.trans hroom)]
          refine ⟨by simp [hnow, he], fun _ => rfl, fun _ => ?_⟩
          have hheld : ({ c₀ with incomingReliableQueue :=
              c₀.incomingReliableQueue.insert sf.startSeq (filled c sf).buf } :
                Channel).Holds seq (.fragment sf) :=
            .inl ⟨_, Std.ExtTreeMap.getElem?_insert_self, filled_isPartOf hf⟩
          simp [htakes, hf, hroom, hheld]
      | false =>
          rw [Channel.receiveReliable_of_drop (hexp.trans he) (hroom'.trans hroom)]
          refine ⟨by simp [hnow, he], fun _ => rfl, fun _ => ?_⟩
          simp [htakes, hd, he, hroom, herase]

/-- A fragment: turned away by its buffer, written into it, or completing it. -/
theorem outcome_fragment :
    Outcome p c ch seq (.fragment sf) (fragmentStep c sf true).1 (fragmentStep c sf true).2 := by
  have htakes : p.takes ch seq (.fragment sf) = _ := takes_fragment hc hm hr
  cases hd : completes c sf with
  | true => exact outcome_assembled hc hm hr hd
  | false =>
      have hnow : p.deliversNow ch seq (.fragment sf) = false := by simp [deliversNow, hc, hd]
      cases hf : fits c sf with
      | false =>
          rw [fragmentStep_rejected hf]
          refine ⟨by simp [hnow], fun _ => rfl, fun _ => ?_⟩
          rw [holds_rejected]
          simp [htakes, hf]
      | true =>
          rw [fragmentStep_stored hf hd]
          refine ⟨by simp [hnow], fun _ => rfl, fun _ => ?_⟩
          have hheld : ({ c with fragmentBuffers :=
              c.fragmentBuffers.insert sf.startSeq (filled c sf) } : Channel).Holds seq
                (.fragment sf) := by
            refine .inr ⟨filled c sf, Std.ExtTreeMap.getElem?_insert_self, ?_, filled_isPartOf hf⟩
            exact (FragmentBuffer.write_spec hf).1
          simp [htakes, hf, hd, hheld]

end Fragment

/-- The entry after the handler of a command for an existing channel. -/
theorem onData_outcome (hc : p.channels[ch.toNat]? = some c) (seq : U16) (nowMs : U32)
    (d : ReliableData) :
    ∃ c' ready, (p.onData ch seq nowMs d).channels = p.channels.set ch.toNat c'
      ∧ (p.onData ch seq nowMs d).history = p.history ++ deliveries ch .reliable ready
      ∧ Outcome p c ch seq d c' ready := by
  cases d with
  | whole data =>
      obtain ⟨hch, hhist⟩ := onSendReliable_eq hc seq data nowMs
      exact ⟨_, _, hch, hhist, outcome_whole hc data⟩
  | fragment sf =>
      by_cases hd : fragmentMalformed sf = true ∨ p.fragmentRefused c sf = true
      · obtain ⟨hch, hhist⟩ := onFragment_dropped hc true nowMs hd
        have htakes : p.takes ch seq (.fragment sf) = false := by
          rcases hd with hd | hd <;> simp [takes, hc, hd]
        have hnow : p.deliversNow ch seq (.fragment sf) = false := by
          simp [deliversNow, hc, htakes]
        refine ⟨c, [], ?_, ?_, ?_⟩
        · rw [Collections.set_of_getElem? hc]
          exact hch
        · simpa [deliveries, onData] using hhist
        · exact ⟨by simp [hnow], fun _ => rfl, fun _ => by simp [htakes]⟩
      · rw [not_or, Bool.not_eq_true, Bool.not_eq_true] at hd
        obtain ⟨hch, hhist⟩ := onFragment_eq hc true nowMs hd.1 hd.2
        exact ⟨_, _, hch, hhist, outcome_fragment hc hd.1 hd.2⟩

/-- A command for a channel the entry does not have. -/
theorem onData_no_channel (hc : p.channels[ch.toNat]? = none) (nowMs : U32) (d : ReliableData) :
    (p.onData ch seq nowMs d).channels = p.channels
      ∧ (p.onData ch seq nowMs d).history = p.history := by
  cases d with
  | whole data => simp [onData, onSendReliable, hc]
  | fragment sf =>
      simp only [onData, onFragment, hc]
      split <;> exact ⟨rfl, rfl⟩

theorem onData_delivered (p : PeerEntry) (ch : U8) (seq : U16) (nowMs : U32) (d : ReliableData) :
    ∃ pkts, (p.onData ch seq nowMs d).delivered = p.delivered ++ pkts := by
  cases d with
  | whole data =>
      obtain ⟨ready, hand, -⟩ := p.onSendReliable_handed ch seq data nowMs
      exact ⟨_, hand.delivered⟩
  | fragment sf =>
      obtain ⟨ready, hand, -⟩ := p.onFragment_handed ch sf true nowMs
      exact ⟨_, hand.delivered⟩

/-- **When the handler delivers the payload.** -/
theorem delivered_iff (p : PeerEntry) (ch : U8) (seq : U16) (nowMs : U32) (d : ReliableData) :
    p.DeliveredSince (p.onData ch seq nowMs d) ch d ↔ p.deliversNow ch seq d = true := by
  cases hc : p.channels[ch.toNat]? with
  | none => simp [DeliveredSince, delivered, (onData_no_channel hc nowMs d).2, deliversNow, hc]
  | some c =>
      obtain ⟨c', ready, -, hhist, ho⟩ := onData_outcome hc seq nowMs d
      rw [deliveredSince_deliveries hhist]
      constructor
      · rintro ⟨m, hm, -⟩
        by_contra hnow
        rw [Bool.not_eq_true] at hnow
        rw [ho.nothing hnow] at hm
        cases hm
      · exact ho.delivered

/-- **When the entry holds the payload afterwards**, if it was not delivered. -/
theorem holdsData_iff (nowMs : U32) (d : ReliableData) (hnow : p.deliversNow ch seq d = false) :
    (p.onData ch seq nowMs d).HoldsData ch seq d
      ↔ p.takes ch seq d = true ∨ p.HoldsData ch seq d := by
  cases hc : p.channels[ch.toNat]? with
  | none =>
      have hno : ∀ q : PeerEntry, q.channels = p.channels → ¬ q.HoldsData ch seq d := by
        rintro q hq ⟨c, hc', -⟩
        rw [hq, hc] at hc'
        cases hc'
      simp [hno _ (onData_no_channel hc nowMs d).1, hno p rfl, takes, hc]
  | some c =>
      obtain ⟨c', ready, hch, -, ho⟩ := onData_outcome hc seq nowMs d
      rw [holdsData_set hc hch, holdsData_iff_of_channel hc]
      exact ho.held hnow

end Outcome

end PeerEntry

/-! ## §3. Another message on the channel. -/

namespace Channel

variable {c : Channel} {seq : U16} {d : ReliableData}

/-- After an arrival the payload is still held, or in one of the messages released. -/
def Keeps (r : Channel × List Bytes) (seq : U16) (d : ReliableData) : Prop :=
  r.1.Holds seq d ∨ ∃ m ∈ r.2, d.Within m

/-- A message with number `s` that arrives leaves the payload alone: if it goes
into the queue in place of the payload's own message, it contains the payload. -/
def SparesMessage (c : Channel) (seq : U16) (d : ReliableData) (s : U16) (m : Bytes) : Prop :=
  s = d.key seq → c.queues s = true → d.Within m ∨ c.InBuffer d

instance (c : Channel) (seq : U16) (d : ReliableData) (s : U16) (m : Bytes) :
    Decidable (c.SparesMessage seq d s m) :=
  inferInstanceAs (Decidable (_ → _))

/-- A message leaves the queue only to be delivered. -/
theorem drainLoop_keeps {k : U16} {m : Bytes} : ∀ (fuel : Nat) (c : Channel),
    c.incomingReliableQueue[k]? = some m →
    (drainLoop fuel c).1.incomingReliableQueue[k]? = some m ∨ m ∈ (drainLoop fuel c).2 := by
  intro fuel
  induction fuel with
  | zero => exact fun c hm => .inl hm
  | succ fuel ih =>
      intro c hm
      unfold drainLoop
      simp only
      cases hnext : c.incomingReliableQueue[c.incomingReliableSeq + 1]? with
      | none => exact .inl hm
      | some x =>
          by_cases hk : c.incomingReliableSeq + 1 = k
          · rw [hk, hm] at hnext
            cases hnext
            exact .inr List.mem_cons_self
          · refine (ih _ ?_).imp_right (List.mem_cons_of_mem x)
            show (c.incomingReliableQueue.erase (c.incomingReliableSeq + 1))[k]? = some m
            rw [Std.ExtTreeMap.getElem?_erase, if_neg (by simpa using hk), hm]

theorem drain_keeps (hh : c.Holds seq d) : Keeps c.drain seq d := by
  rcases hh with ⟨m, hm, hw⟩ | hb
  · rcases drainLoop_keeps c.incomingReliableQueue.size c hm with hq | hout
    · exact .inl (.inl ⟨m, hq, hw⟩)
    · exact .inr ⟨m, hout, hw⟩
  · refine .inl (.inr ?_)
    have hsame := drainLoop_fragmentBuffers c.incomingReliableQueue.size c
    cases d with
    | whole data => exact hb
    | fragment sf =>
        simp only [InBuffer, drain, hsame]
        exact hb

/-- **Another message**: what was held is held or delivered, unless the new
message takes its place. -/
theorem receiveReliable_keeps {s : U16} {m : Bytes} (hh : c.Holds seq d)
    (hs : c.SparesMessage seq d s m) : Keeps (c.receiveReliable s m) seq d := by
  cases he : c.expects s with
  | true =>
      rw [receiveReliable_of_expects he]
      refine (drain_keeps (c := { c with incomingReliableSeq := s }) hh).imp_right ?_
      rintro ⟨x, hx, hw⟩
      exact ⟨x, List.mem_cons_of_mem m hx, hw⟩
  | false =>
      cases hr : c.hasRoomFor s with
      | false =>
          rw [receiveReliable_of_drop he hr]
          exact .inl hh
      | true =>
          rw [receiveReliable_of_room he hr]
          refine .inl ?_
          by_cases hk : s = d.key seq
          · rcases hs hk (by simp [queues, he, hr]) with hw | hb
            · refine .inl ⟨m, ?_, hw⟩
              rw [← hk]
              exact Std.ExtTreeMap.getElem?_insert_self
            · exact .inr hb
          · refine hh.imp_left ?_
            rintro ⟨x, hx, hw⟩
            refine ⟨x, ?_, hw⟩
            rw [Std.ExtTreeMap.getElem?_insert, if_neg (by simpa using hk), hx]

/-- A message that contains the payload and is not dropped brings it. -/
theorem receiveReliable_brings {s : U16} {m : Bytes} (hs : s = d.key seq) (hw : d.Within m)
    (hin : c.expects s = true ∨ c.queues s = true) : Keeps (c.receiveReliable s m) seq d := by
  cases he : c.expects s with
  | true =>
      rw [receiveReliable_of_expects he]
      exact .inr ⟨m, List.mem_cons_self, hw⟩
  | false =>
      have hr : c.hasRoomFor s = true := by
        rcases hin with hin | hin
        · exact absurd hin (by simp [he])
        · simpa [queues, he] using hin
      rw [receiveReliable_of_room he hr]
      refine .inl (.inl ⟨m, ?_, hw⟩)
      rw [← hs]
      exact Std.ExtTreeMap.getElem?_insert_self

end Channel

/-! ## §4. Another fragment on the channel. -/

namespace PeerEntry

variable {p : PeerEntry} {ch : U8} {c : Channel} {seq : U16} {d : ReliableData}
  {sf : SendFragmentCmd} {reliable : Bool}

/-- A fragment that is written into a buffer leaves the payload alone: the
payload is in the queue and the fragment does not complete a message that takes
its place; or the buffer still contains it, and is not dropped when complete. -/
def SparesFragment (c : Channel) (seq : U16) (d : ReliableData) (sf : SendFragmentCmd)
    (reliable : Bool) : Prop :=
  sf.startSeq = d.key seq → fits c sf = true →
    (c.InQueue seq d ∧ ¬ (completes c sf = true ∧ reliable = true ∧ c.queues sf.startSeq = true))
      ∨ (d.Within (filled c sf).buf ∧ (completes c sf = true →
        reliable = true ∧ (c.expects sf.startSeq = true ∨ c.queues sf.startSeq = true)))

instance (c : Channel) (seq : U16) (d : ReliableData) (sf : SendFragmentCmd) (reliable : Bool) :
    Decidable (SparesFragment c seq d sf reliable) :=
  inferInstanceAs (Decidable (_ → _))

/-- What `receive_reliable` kept of the assembled message survives the second drain. -/
theorem releaseAssembled_keeps {m : Bytes}
    (hk : Channel.Keeps (c.receiveReliable sf.startSeq m) seq d) :
    Channel.Keeps (releaseAssembled c sf true m) seq d := by
  simp only [releaseAssembled, if_true]
  generalize c.receiveReliable sf.startSeq m = r at *
  split
  · rcases hk with hh | ⟨x, hx, hw⟩
    · have hdrain := Channel.drain_keeps (c := { r.1 with
        incomingReliableSeq := r.1.incomingReliableSeq + (sf.fragmentCount - 1).setWidth 16 }) hh
      refine hdrain.imp_right ?_
      rintro ⟨x, hx, hw⟩
      exact ⟨x, List.mem_append_right _ hx, hw⟩
    · exact .inr ⟨x, List.mem_append_left _ hx, hw⟩
  · exact hk

theorem releaseAssembled_holds {m : Bytes} (hh : c.Holds seq d) :
    (releaseAssembled c sf false m).1.Holds seq d := by
  have hsame : (c.receiveUnreliable sf.startSeq m).1.Holds seq d := by
    unfold Channel.receiveUnreliable
    split <;> exact hh
  simp only [releaseAssembled, Bool.false_eq_true, if_false]
  split
  · next heq =>
    rw [heq] at hsame
    exact hsame
  · next heq =>
    rw [heq] at hsame
    exact hsame

/-- A change of the buffer of another message. -/
theorem holds_of_other_key {c' : Channel}
    (hq : c'.incomingReliableQueue = c.incomingReliableQueue)
    (hb : c'.fragmentBuffers[d.key seq]? = c.fragmentBuffers[d.key seq]?) (hh : c.Holds seq d) :
    c'.Holds seq d := by
  rcases hh with ⟨m, hm, hw⟩ | hin
  · exact .inl ⟨m, by rw [hq, hm], hw⟩
  · refine .inr ?_
    cases d with
    | whole data => exact hin
    | fragment sf' =>
        obtain ⟨b, hb', hin⟩ := hin
        exact ⟨b, by rw [← hb']; exact hb, hin⟩

/-- A write keeps the bits that are set. -/
theorem testBit_filled (hf : fits c sf = true) {b : FragmentBuffer}
    (hb : c.fragmentBuffers[sf.startSeq]? = some b) {n : Nat}
    (hbit : BitArray.testBit b.mask n = true) :
    BitArray.testBit (filled c sf).mask n = true := by
  have hbuf : fragmentBufferFor c sf = b := by simp [fragmentBufferFor, hb]
  simp only [fits, hbuf, FragmentBuffer.accepts, Bool.and_eq_true, Bool.not_eq_true',
    decide_eq_false_iff_not, Nat.not_le] at hf
  simp only [filled, hbuf, FragmentBuffer.write]
  rw [BitArray.testBit_setBit _ _ _ (by decide) hf.1.1, hbit]
  simp

/-- A completed reassembly: `c₀` is the channel without the buffer. -/
theorem assembled_keeps {c₀ : Channel}
    (hc₀ : c₀ = { c with fragmentBuffers := c.fragmentBuffers.erase sf.startSeq })
    (hd : completes c sf = true) (hh : c.Holds seq d) (hs : SparesFragment c seq d sf reliable) :
    (releaseAssembled c₀ sf reliable (filled c sf).buf).1.Holds seq d
      ∨ reliable = true
        ∧ ∃ m ∈ (releaseAssembled c₀ sf reliable (filled c sf).buf).2, d.Within m := by
  have hf := fits_of_completes hd
  -- the queue and the other buffers are as before
  have hqueue : c.InQueue seq d → c₀.Holds seq d := by
    rintro ⟨m, hm, hw⟩
    exact .inl ⟨m, by rw [hc₀]; exact hm, hw⟩
  have hother : sf.startSeq ≠ d.key seq → c₀.Holds seq d := by
    intro hk
    subst hc₀
    refine holds_of_other_key (c := c) rfl ?_ hh
    rw [Std.ExtTreeMap.getElem?_erase, if_neg (by simpa using hk)]
  have hexp : c₀.expects sf.startSeq = c.expects sf.startSeq := by rw [hc₀]; rfl
  have hqs : c₀.queues sf.startSeq = c.queues sf.startSeq := by rw [hc₀]; rfl
  cases reliable with
  | false =>
      refine .inl (releaseAssembled_holds ?_)
      by_cases hk : sf.startSeq = d.key seq
      · rcases hs hk hf with hq | hw
        · exact hqueue hq.1
        · exact absurd (hw.2 hd).1 (by simp)
      · exact hother hk
  | true =>
      refine (releaseAssembled_keeps ?_).imp_right fun hm => ⟨rfl, hm⟩
      by_cases hk : sf.startSeq = d.key seq
      · rcases hs hk hf with ⟨hq, hno⟩ | ⟨hw, hin⟩
        · refine Channel.receiveReliable_keeps (hqueue hq) fun _ hyes => ?_
          rw [hqs] at hyes
          exact absurd ⟨hd, rfl, hyes⟩ hno
        · refine Channel.receiveReliable_brings hk hw ?_
          rw [hexp, hqs]
          exact (hin hd).2
      · exact Channel.receiveReliable_keeps (hother hk) fun heq => absurd heq hk

/-- A fragment that is stored: its bytes may overwrite those of the payload. -/
theorem stored_keeps (hf : fits c sf = true) (hh : c.Holds seq d)
    (hs : SparesFragment c seq d sf reliable) :
    ({ c with fragmentBuffers := c.fragmentBuffers.insert sf.startSeq (filled c sf) } :
      Channel).Holds seq d := by
  by_cases hk : sf.startSeq = d.key seq
  · rcases hh with hq | hb
    · exact .inl hq
    · rcases hs hk hf with hq | hw
      · exact .inl hq.1
      · cases d with
        | whole data => exact hb.elim
        | fragment sf' =>
            obtain ⟨b, hb, hbit, -⟩ := hb
            have hk' : sf.startSeq = sf'.startSeq := hk
            rw [← hk'] at hb
            refine .inr ⟨filled c sf, ?_, testBit_filled hf hb hbit, hw.1⟩
            rw [← hk']
            exact Std.ExtTreeMap.getElem?_insert_self
  · refine holds_of_other_key (c := c) rfl ?_ hh
    rw [Std.ExtTreeMap.getElem?_insert, if_neg (by simpa using hk)]

/-- **Another fragment**: what was held is held or delivered, unless the
fragment overwrites it or completes a message that is lost. -/
theorem fragmentStep_keeps (hh : c.Holds seq d) (hs : SparesFragment c seq d sf reliable) :
    (fragmentStep c sf reliable).1.Holds seq d
      ∨ reliable = true ∧ ∃ m ∈ (fragmentStep c sf reliable).2, d.Within m := by
  cases hf : fits c sf with
  | false =>
      rw [fragmentStep_rejected hf]
      exact .inl ((holds_rejected seq d).mpr hh)
  | true =>
      cases hd : completes c sf with
      | false =>
          rw [fragmentStep_stored hf hd]
          exact .inl (stored_keeps hf hh hs)
      | true =>
          rw [fragmentStep_complete hd]
          exact assembled_keeps rfl hd hh hs

/-! ## §5. Every operation. -/

/-- Nothing happened on channel `ch` between `p` and `q`. -/
structure UntouchedOn (ch : U8) (p q : PeerEntry) : Prop where
  channel : q.channels[ch.toNat]? = p.channels[ch.toNat]?
  delivered : ∃ pkts, q.delivered = p.delivered ++ pkts
    ∧ ∀ pkt ∈ pkts, ¬ (pkt.channel = ch ∧ pkt.mode = .reliable)

namespace UntouchedOn

variable {q r : PeerEntry}

theorem refl (ch : U8) (p : PeerEntry) : UntouchedOn ch p p := ⟨rfl, [], by simp, by simp⟩

theorem trans (h₁ : UntouchedOn ch p q) (h₂ : UntouchedOn ch q r) : UntouchedOn ch p r := by
  obtain ⟨xs, hxs, hno₁⟩ := h₁.delivered
  obtain ⟨ys, hys, hno₂⟩ := h₂.delivered
  refine ⟨h₂.channel.trans h₁.channel, xs ++ ys, ?_, fun pkt hpkt => ?_⟩
  · rw [hys, hxs, List.append_assoc]
  · exact (List.mem_append.mp hpkt).elim (hno₁ pkt) (hno₂ pkt)

theorem holdsData_iff (hu : UntouchedOn ch p q) :
    q.HoldsData ch seq d ↔ p.HoldsData ch seq d := by
  simp only [HoldsData, hu.channel]

/-- Nor was anything delivered that was not delivered before. -/
theorem deliveredSince {p₀ : PeerEntry} (hu : UntouchedOn ch p q)
    (hd : p₀.DeliveredSince q ch d) : p₀.DeliveredSince p ch d := by
  obtain ⟨pkts, heq, hno⟩ := hu.delivered
  obtain ⟨m, hw, hm⟩ := hd
  rw [heq, List.drop_append] at hm
  rcases List.mem_append.mp hm with hm | hm
  · exact ⟨m, hw, hm⟩
  · exact absurd ⟨rfl, rfl⟩ (hno _ (List.mem_of_mem_drop hm))

end UntouchedOn

/-- The payload that `p` held is held by `q`, or was delivered in between. -/
structure KeptSince (p q : PeerEntry) (ch : U8) (seq : U16) (d : ReliableData) : Prop where
  delivered : ∃ pkts, q.delivered = p.delivered ++ pkts
  kept : q.HoldsData ch seq d ∨ p.DeliveredSince q ch d

/-- A later delivery counts from an earlier entry on too. -/
theorem DeliveredSince.of_later {p₀ q : PeerEntry} (hd : p.DeliveredSince q ch d)
    (hle : ∃ pkts, p.delivered = p₀.delivered ++ pkts) : p₀.DeliveredSince q ch d := by
  obtain ⟨m, hw, hm⟩ := hd
  obtain ⟨pkts, heq⟩ := hle
  refine ⟨m, hw, ?_⟩
  rw [heq, List.length_append, ← List.drop_drop] at hm
  exact List.mem_of_mem_drop hm

theorem KeptSince.untouched {q r : PeerEntry} (hk : p.KeptSince q ch seq d)
    (hu : UntouchedOn ch q r) : p.KeptSince r ch seq d := by
  obtain ⟨xs, hxs⟩ := hk.delivered
  obtain ⟨ys, hys, -⟩ := hu.delivered
  refine ⟨⟨xs ++ ys, by rw [hys, hxs, List.append_assoc]⟩, ?_⟩
  refine hk.kept.imp hu.holdsData_iff.mpr ?_
  rintro ⟨m, hw, hm⟩
  refine ⟨m, hw, ?_⟩
  rw [hys, List.drop_append]
  exact List.mem_append_left _ hm

end PeerEntry

namespace PeerOp

variable {o : PeerOp} {p : PeerEntry} {ch : U8} {seq : U16} {d : ReliableData}

/-- The operation leaves the payload alone. -/
def Spares (p : PeerEntry) (ch : U8) (seq : U16) (d : ReliableData) : PeerOp → Prop
  | recvReliable ch' s m => ch' = ch →
      ∀ c, p.channels[ch.toNat]? = some c → c.SparesMessage seq d s m
  | recvFragment ch' sf reliable => ch' = ch → ∀ c, p.channels[ch.toNat]? = some c →
      PeerEntry.fragmentMalformed sf = false → p.fragmentRefused c sf = false →
      PeerEntry.SparesFragment c seq d sf reliable
  | _ => True

instance (p : PeerEntry) (ch ch' : U8) (seq s : U16) (d : ReliableData) (m : Bytes) :
    Decidable ((recvReliable ch' s m).Spares p ch seq d) :=
  inferInstanceAs (Decidable (ch' = ch → ∀ _ : Channel, _ → _))

instance (p : PeerEntry) (ch ch' : U8) (seq : U16) (d : ReliableData) (sf : SendFragmentCmd)
    (reliable : Bool) : Decidable ((recvFragment ch' sf reliable).Spares p ch seq d) :=
  inferInstanceAs (Decidable (ch' = ch → ∀ _ : Channel, _ → _))

/-- An operation that concerns another channel, or none. -/
theorem untouchedOn (nowMs : U32) (p : PeerEntry) (hn : ¬ o.TakesNumber)
    (ho : o.channelOf ≠ some ch) : PeerEntry.UntouchedOn ch p (o.apply nowMs p) := by
  refine ⟨?_, ?_⟩
  · cases hch : o.channelOf with
    | none => rw [apply_channels_none nowMs p hch]
    | some ch' =>
        have hne : ch'.toNat ≠ ch.toNat := by
          intro heq
          rw [hch, BitVec.eq_of_toNat_eq heq] at ho
          exact ho rfl
        rw [apply_channels_of_arrival nowMs p hch hn, List.getElem?_modify]
        simp [hne]
  · obtain ⟨pkts, hands, heq, -⟩ := apply_hands nowMs p o
    refine ⟨pkts, heq, ?_⟩
    rintro pkt hpkt ⟨rfl, hmode⟩
    have hand := hands pkt hpkt
    cases o with
    | recvReliable ch' s m => exact ho (congrArg some hand.2.symm)
    | recvUnreliable => exact absurd (hmode.symm.trans hand.1) (by decide)
    | recvFragment ch' sf reliable =>
        cases reliable with
        | true => exact ho (congrArg some hand.2.symm)
        | false => exact absurd (hmode.symm.trans hand.1) (by decide)
    | recvUnsequenced group data =>
        rw [show pkt = _ from hand] at hmode
        cases hmode
    | _ => exact hand

/-- **Every operation** that spares the payload keeps it or delivers it. -/
theorem kept (nowMs : U32) (hn : ¬ o.TakesNumber) (hh : p.HoldsData ch seq d)
    (hs : o.Spares p ch seq d) : p.KeptSince (o.apply nowMs p) ch seq d := by
  refine ⟨?_, ?_⟩
  · obtain ⟨pkts, -, heq, -⟩ := apply_hands nowMs p o
    exact ⟨pkts, heq⟩
  by_cases ho : o.channelOf = some ch
  · obtain ⟨c, hc, hheld⟩ := hh
    cases o with
    | recvReliable ch' s m =>
        cases ho
        obtain ⟨hch, hhist⟩ := PeerEntry.onSendReliable_eq hc s m nowMs
        refine (Channel.receiveReliable_keeps hheld (hs rfl c hc)).imp ?_ ?_
        · exact (PeerEntry.holdsData_set hc hch).mpr
        · exact (PeerEntry.deliveredSince_deliveries hhist).mpr
    | recvUnreliable ch' rseq useq data =>
        cases ho
        refine .inl ⟨channelStep p c (.recvUnreliable ch rseq useq data), ?_, ?_⟩
        · rw [apply_channels_of_arrival nowMs p rfl hn, List.getElem?_modify, hc]
          simp
        · -- only the unreliable counter moves
          simp only [channelStep, Channel.receiveUnreliable]
          split
          · exact hheld
          · split <;> exact hheld
    | recvFragment ch' sf reliable =>
        cases ho
        by_cases hd : PeerEntry.fragmentMalformed sf = true ∨ p.fragmentRefused c sf = true
        · obtain ⟨hch, -⟩ := PeerEntry.onFragment_dropped hc reliable nowMs hd
          exact .inl ⟨c, (congrArg (·[ch.toNat]?) hch).trans hc, hheld⟩
        · rw [not_or, Bool.not_eq_true, Bool.not_eq_true] at hd
          obtain ⟨hch, hhist⟩ := PeerEntry.onFragment_eq hc reliable nowMs hd.1 hd.2
          refine (PeerEntry.fragmentStep_keeps hheld (hs rfl c hc hd.1 hd.2)).imp ?_ ?_
          · exact (PeerEntry.holdsData_set hc hch).mpr
          · rintro ⟨rfl, hm⟩
            exact (PeerEntry.deliveredSince_deliveries hhist).mpr hm
    | numberWhole | numberFragments | nextUnreliable | nextUnsequenced => exact absurd trivial hn
    | _ => cases ho
  · exact .inl ((untouchedOn nowMs p hn ho).holdsData_iff.mpr hh)

end PeerOp

end EnetRs
