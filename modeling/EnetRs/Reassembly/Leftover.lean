/-
  EnetRs.Reassembly.Leftover — buffers of messages that are over.

  A reassembly buffer goes away when its message is complete.  Nothing keeps a
  fragment that is sent again after that from opening a new one: `on_fragment`
  compares its `start_seq` with the keys of the buffers only, and the delivery
  counter is looked at once a message has been put together.  A duplicate of a
  fragment of a finished message therefore opens a buffer which the other
  fragments will never fill.

  Main results:
    * `PeerEntry.onFragment_sameBuffers_iff` — which fragments leave the buffers and
      the bytes charged for them as they are.
    * `Traffic.Tidy.arrive` — one command, where no fragment of a message that is
      over opens a buffer.
    * `late_fragments_leave_nothing_iff` — one fragment, and every run.
-/
import EnetRs.Reassembly.Completion
import EnetRs.Reassembly.InOrder
import EnetRs.Reassembly.Separate

namespace EnetRs

open MachineInt

/-! ## §1. One fragment. -/

/-- The buffers of the channel and the bytes charged for buffers are the same in
both entries. -/
def SameBuffers (ch : U8) (p q : PeerEntry) : Prop :=
  (q.channels[ch.toNat]?).map (·.fragmentBuffers) = (p.channels[ch.toNat]?).map (·.fragmentBuffers)
    ∧ q.fragmentBytesInFlight = p.fragmentBytesInFlight

/-- The number is the last one delivered or, in half the number space, behind it. -/
def AtOrBehind (seq last : U16) : Prop := seq = last ∨ seqLt seq last = true

instance (seq last : U16) : Decidable (AtOrBehind seq last) := inferInstanceAs (Decidable (_ ∨ _))

namespace PeerEntry

/-- The fragment finds no place in the buffers: it is malformed, a limit refuses
it, the buffer under its `start_seq` does not take it (it has the fragment, or the
fragment does not fit), or there is no such buffer and the message has no other
fragment. -/
def PassesBy (p : PeerEntry) (ch : U8) (sf : SendFragmentCmd) : Prop :=
  fragmentMalformed sf = true ∨ ∀ c ∈ p.channels[ch.toNat]?,
    p.fragmentRefused c sf = true
      ∨ (∃ b ∈ c.fragmentBuffers[sf.startSeq]?,
        b.accepts sf.fragmentNumber sf.fragmentOffset.toNat sf.data = false)
      ∨ c.fragmentBuffers[sf.startSeq]? = none ∧ sf.fragmentCount = 1

instance (p : PeerEntry) (ch : U8) (sf : SendFragmentCmd) : Decidable (p.PassesBy ch sf) := by
  unfold PassesBy
  infer_instance

variable {p : PeerEntry} {ch : U8} {c : Channel} {sf : SendFragmentCmd}

/-- A fragment that opens a buffer completes it exactly if it is the only one. -/
theorem completes_of_new (hformed : fragmentMalformed sf = false)
    (hnew : c.fragmentBuffers[sf.startSeq]? = none) :
    completes c sf = decide (sf.fragmentCount = 1) := by
  have hfor : fragmentBufferFor c sf
      = FragmentBuffer.new sf.totalLength.toNat sf.fragmentCount := by
    rw [fragmentBufferFor, hnew]
    rfl
  simp only [fragmentMalformed, Bool.or_eq_false_iff, decide_eq_false_iff_not] at hformed
  obtain ⟨⟨⟨-, hnum⟩, -⟩, hlen⟩ := hformed
  rw [BitVec.le_def, Nat.not_le] at hnum
  have hrep := FragmentBuffer.represents_new sf.totalLength.toNat sf.fragmentCount
  have hacc : (fragmentBufferFor c sf).accepts sf.fragmentNumber sf.fragmentOffset.toNat sf.data
      = true := by
    rw [hfor]
    refine (hrep.accepts_iff (c := ⟨sf.fragmentNumber, sf.fragmentOffset.toNat, sf.data⟩)).mpr
      ⟨?_, Finset.notMem_empty _, ?_⟩
    · simp only [divCeil]
      omega
    · simp only
      omega
  rw [completes, FragmentBuffer.receive_of_accepts hacc, hfor]
  show ((0 : U32) + 1 == sf.fragmentCount) = _
  rw [Bool.beq_eq_decide_eq, decide_eq_decide]
  exact eq_comm

/-- The buffers after a fragment that is not dropped. -/
theorem fragmentStep_fragmentBuffers (c : Channel) (sf : SendFragmentCmd) (reliable : Bool) :
    (fragmentStep c sf reliable).1.fragmentBuffers
      = if completes c sf then c.fragmentBuffers.erase sf.startSeq
        else if fits c sf then c.fragmentBuffers.insert sf.startSeq (filled c sf)
        else c.fragmentBuffers.insert sf.startSeq (fragmentBufferFor c sf) := by
  cases hd : completes c sf with
  | true =>
      rw [fragmentStep_complete hd, releaseAssembled_fragmentBuffers]
      rfl
  | false =>
      cases hf : fits c sf with
      | true =>
          rw [fragmentStep_stored hf hd]
          rfl
      | false =>
          rw [fragmentStep_rejected hf]
          rfl

/-- Whether the buffers of the channel are as they were. -/
theorem fragmentStep_same_iff (hformed : fragmentMalformed sf = false) (reliable : Bool) :
    (fragmentStep c sf reliable).1.fragmentBuffers = c.fragmentBuffers
      ↔ (∃ b ∈ c.fragmentBuffers[sf.startSeq]?,
          b.accepts sf.fragmentNumber sf.fragmentOffset.toNat sf.data = false)
        ∨ c.fragmentBuffers[sf.startSeq]? = none ∧ sf.fragmentCount = 1 := by
  rw [fragmentStep_fragmentBuffers]
  cases hbuf : c.fragmentBuffers[sf.startSeq]? with
  | none =>
      rw [completes_of_new hformed hbuf]
      by_cases hone : sf.fragmentCount = 1
      · simp only [hone, decide_true, if_true, and_self, or_true, iff_true]
        refine Std.ExtTreeMap.ext_getElem? fun {k} => ?_
        rw [Std.ExtTreeMap.getElem?_erase]
        split
        · next hcmp => rw [← Std.LawfulEqCmp.eq_of_compare hcmp, hbuf]
        · rfl
      · -- whether the new buffer took it or not, it is there now
        simp only [hone, decide_false, Bool.false_eq_true, if_false, and_false, or_false,
          Option.not_mem_none, false_and, exists_false, iff_false]
        intro hsame
        have hget := congrArg (·[sf.startSeq]?) hsame
        rw [hbuf] at hget
        split at hget <;> rw [Std.ExtTreeMap.getElem?_insert_self] at hget <;> cases hget
  | some b =>
      have hfor : fragmentBufferFor c sf = b := by
        rw [fragmentBufferFor, hbuf]
        rfl
      simp only [Option.mem_some_iff, exists_eq_left', reduceCtorEq, false_and, or_false]
      cases hacc : b.accepts sf.fragmentNumber sf.fragmentOffset.toNat sf.data with
      | false =>
          have hd : completes c sf = false := by
            rw [completes, hfor, FragmentBuffer.receive_of_rejects hacc]
          have hf : fits c sf = false := by
            rw [fits, hfor, hacc]
          simp only [hd, hf, hfor, Bool.false_eq_true, if_false, iff_true]
          refine Std.ExtTreeMap.ext_getElem? fun {k} => ?_
          rw [Std.ExtTreeMap.getElem?_insert]
          split
          · next hcmp => rw [← Std.LawfulEqCmp.eq_of_compare hcmp, hbuf]
          · rfl
      | true =>
          have hf : fits c sf = true := by
            rw [fits, hfor, hacc]
          simp only [Bool.true_eq_false, iff_false, hf, if_true]
          intro hsame
          have hget := congrArg (·[sf.startSeq]?) hsame
          rw [hbuf] at hget
          split at hget
          · rw [Std.ExtTreeMap.getElem?_erase_self] at hget
            cases hget
          · -- a bit that was not set is set now
            rw [Std.ExtTreeMap.getElem?_insert_self, filled, hfor] at hget
            have hbit := (FragmentBuffer.write_spec hacc).1
            rw [Option.some.inj hget] at hbit
            simp [FragmentBuffer.accepts, hbit] at hacc

/-- **Which fragments leave the buffers and the budget as they are.** -/
theorem onFragment_sameBuffers_iff (p : PeerEntry) (ch : U8) (sf : SendFragmentCmd)
    (reliable : Bool) (nowMs : U32) :
    SameBuffers ch p (p.onFragment ch sf reliable nowMs) ↔ p.PassesBy ch sf := by
  unfold SameBuffers PassesBy
  cases hm : fragmentMalformed sf with
  | true =>
      simp [onFragment, hm]
  | false =>
      cases hc : p.channels[ch.toNat]? with
      | none =>
          simp [onFragment, hm, hc]
      | some c =>
          simp only [Bool.false_eq_true, false_or, Option.mem_some_iff, forall_eq',
            Option.map_some]
          cases hr : p.fragmentRefused c sf with
          | true =>
              have hsame := (onFragment_dropped hc reliable nowMs (.inr hr)).1
              simp [hsame, hc, onFragment_refused_bytes hc reliable nowMs hm hr]
          | false =>
              have hsame := (onFragment_eq hc reliable nowMs hm hr).1
              have hget := Collections.getElem?_of_eq_set hc hsame
              rw [hget, onFragment_bytes hc reliable nowMs hm hr]
              simp only [Option.map_some, Option.some.injEq, Bool.false_eq_true, false_or]
              rw [fragmentStep_same_iff hm]
              refine and_iff_left_of_imp ?_
              rintro (⟨b, hb, hacc⟩ | ⟨hnone, hone⟩)
              · have hb : c.fragmentBuffers[sf.startSeq]? = some b := hb
                have hcontains : c.fragmentBuffers.contains sf.startSeq = true := by
                  rw [Std.ExtTreeMap.contains_eq_isSome_getElem?, hb]
                  rfl
                have hd : completes c sf = false := by
                  rw [completes, fragmentBufferFor, hb, Option.getD_some,
                    FragmentBuffer.receive_of_rejects hacc]
                simp [hcontains, hd]
              · have hcontains : c.fragmentBuffers.contains sf.startSeq = false := by
                  rw [Std.ExtTreeMap.contains_eq_isSome_getElem?, hnone]
                  rfl
                simp [hcontains, completes_of_new hm hnone, hone]

end PeerEntry

/-! ## §2. What holds of a receiver without leftovers. -/

/-- Every number of the run of messages is the start of one of them. -/
theorem InTurn.exists_start {start : Nat → Nat} : ∀ {l : List Nat} {T n : Nat}, InTurn start T l →
    T < n → n ≤ T + l.length → ∃ i ∈ l, start i = n := by
  intro l
  induction l with
  | nil =>
      intro T n _ hlt hle
      exact absurd hle (by simp only [List.length_nil]; omega)
  | cons i l ih =>
      intro T n ⟨hi, hl⟩ hlt hle
      rw [List.length_cons] at hle
      by_cases hn : n = T + 1
      · exact ⟨i, List.mem_cons_self, hi.trans hn.symm⟩
      · obtain ⟨j, hj, heq⟩ := ih (T := T + 1) (n := n) hl (by omega) (by omega)
        exact ⟨j, List.mem_cons_of_mem _ hj, heq⟩

namespace Traffic

variable {tr : Traffic} {r : Reception} {x : Piece} {c c' : Channel} {l d : List Nat}
  {Q Q' : Finset Nat} {t : U32}

theorem sorted_of_inTurn : ∀ {l : List Nat} {T : Nat}, InTurn tr.start T l →
    (∀ i ∈ l, tr.reliable i = true) → l.Pairwise (· < ·) := by
  intro l
  induction l with
  | nil => exact fun _ _ => .nil
  | cons i l ih =>
      intro T ⟨hstart, hl⟩ hall
      refine List.pairwise_cons.mpr ⟨fun j hj => ?_,
        ih hl fun j hj => hall j (List.mem_cons_of_mem _ hj)⟩
      have hj' := hl.le j hj
      exact lt_of_start_lt (hall i List.mem_cons_self) (hall j (List.mem_cons_of_mem _ hj))
        (by omega)

/-- What was delivered on the channel in the reliable mode. -/
def reliableDelivered (tr : Traffic) (p : PeerEntry) : List Packet :=
  (p.deliveredOn tr.ch).filter (·.mode == .reliable)

theorem reliableDelivered_congr {p q : PeerEntry} (hh : q.history = p.history) :
    tr.reliableDelivered q = tr.reliableDelivered p := by
  rw [reliableDelivered, PeerEntry.deliveredOn_congr hh]
  rfl

/-- **What holds between the commands.**  `l` are the reliable messages delivered
so far and `Q` those held back; a reliable message that has a buffer is neither. -/
structure Tidy (tr : Traffic) (r : Reception) (c : Channel) (l : List Nat) (Q : Finset Nat) :
    Prop where
  channel : r.entry.channels[tr.ch.toNat]? = some c
  queue : QueueIs tr.start tr.data c r.reliable Q
  stuck : ∀ i ∈ Q, tr.start i ≠ r.reliable + 1
  held : ∀ i ∈ Q, tr.reliable i = true
  buffers : tr.BuffersOwned r c
  delivered : tr.reliableDelivered r.entry = l.map tr.packet
  passed : ∀ i ∈ l, tr.reliable i = true ∧ tr.start i ≤ r.reliable
  order : l.Pairwise (· < ·)
  unfinished : ∀ (key : U16) (b : FragmentBuffer) (i : Nat), c.fragmentBuffers[key]? = some b →
    r.owner key = some i → tr.reliable i = true → r.reliable < tr.start i ∧ i ∉ Q
  accounted : r.entry.Accounted

/-- The fragment is of a reliable message that has been delivered or waits in the
queue, as the receiver sees it: its `start_seq` is not ahead of the counter, or is
a key of the queue. -/
def IsOver (tr : Traffic) (r : Reception) (x : Piece) : Prop :=
  AtOrBehind (tr.key x.msg) (tr.chan r.entry).incomingReliableSeq
    ∨ (tr.chan r.entry).incomingReliableQueue.contains (tr.key x.msg) = true

/-- No fragment of a reliable message that is over finds a place in the buffers. -/
def StaysOut (tr : Traffic) (r : Reception) (x : Piece) : Prop :=
  tr.reliable x.msg = true → tr.whole x.msg = false → tr.IsOver r x →
    r.entry.PassesBy tr.ch (fragmentOf (tr.key x.msg) tr.sender.fp (tr.data x.msg) x.part)

instance (r : Reception) (x : Piece) : Decidable (tr.IsOver r x) :=
  inferInstanceAs (Decidable (_ ∨ _))

instance (r : Reception) (x : Piece) : Decidable (tr.StaysOut r x) := by
  unfold StaysOut
  infer_instance

namespace Tidy

theorem begins {p : PeerEntry} (hp : tr.Fresh p) (hacc : p.Accounted) :
    tr.Tidy (begins p) Channel.new [] ∅ :=
  have hord := Ordered.begins hp
  { channel := hp.channel
    queue := hord.queue
    stuck := hord.stuck
    held := hord.held
    buffers := hord.buffers
    delivered := by
      rw [reliableDelivered]
      show (p.deliveredOn tr.ch).filter _ = _
      rw [hp.delivered]
      rfl
    passed := by simp
    order := .nil
    unfinished := fun key b i hb => by simp [Channel.new] at hb
    accounted := hacc }

/-- What is known of a buffer that was there before the command. -/
theorem old_buffer (hi : tr.Tidy r c l Q) {key : U16} {b : FragmentBuffer} {i : Nat}
    (hb : c.fragmentBuffers[key]? = some b) (howner : (tr.arrive r (t, x)).owner key = some i)
    (hrel : tr.reliable i = true) :
    (r.reliable < tr.start i ∧ i ∉ Q) ∧ tr.whole i = false ∧ key = tr.key i := by
  rw [owner_arrive hi.channel hb] at howner
  obtain ⟨i', S, howner', hkey, hkeeps⟩ := hi.buffers key b hb
  cases howner.symm.trans howner'
  exact ⟨hi.unfinished key b i hb howner hrel, hkeeps.cut, hkey⟩

/-- What is left to show of a command whose effect on the stream is known. -/
theorem next {T' : Nat} (hi : tr.Tidy r c l Q) (hown : tr.JoinsOwn r x)
    (hc' : (tr.onPiece t r.entry x).channels[tr.ch.toNat]? = some c')
    (hq : QueueIs tr.start tr.data c' T' Q') (hstuck : ∀ i ∈ Q', tr.start i ≠ T' + 1)
    (hheld : ∀ i ∈ Q', tr.reliable i = true)
    (hT : r.reliable ≤ T' ∧ T' < r.reliable + 65536) (hbuf : tr.BuffersAfter r x c c')
    (hdel : tr.reliableDelivered (tr.onPiece t r.entry x)
      = tr.reliableDelivered r.entry ++ d.map tr.packet)
    (hd : ∀ i ∈ d, tr.reliable i = true ∧ r.reliable < tr.start i ∧ tr.start i ≤ T')
    (hord : d.Pairwise (· < ·))
    (hopen : ∀ (key : U16) (b : FragmentBuffer) (i : Nat), c'.fragmentBuffers[key]? = some b →
      (tr.arrive r (t, x)).owner key = some i → tr.reliable i = true → T' < tr.start i ∧ i ∉ Q')
    (hacc : (tr.onPiece t r.entry x).Accounted) :
    tr.Tidy (tr.arrive r (t, x)) c' (l ++ d) Q' := by
  have hrel : (tr.arrive r (t, x)).reliable = T' := by
    simp only [Traffic.arrive, chan_of_getElem? hi.channel, chan_of_getElem? hc']
    exact counter_eq hi.queue.incoming hq.incoming hT.1 hT.2
  refine
    { channel := hc'
      queue := hrel.symm ▸ hq
      stuck := hrel.symm ▸ hstuck
      held := hheld
      buffers := hi.buffers.arrive hi.channel hown (hrel.symm ▸ hT.1) hbuf
      delivered := by
        rw [List.map_append, ← hi.delivered]
        exact hdel
      passed := fun i hid => ?_
      order := List.pairwise_append.mpr ⟨hi.order, hord, fun i hil j hj => ?_⟩
      unfinished := hrel.symm ▸ hopen
      accounted := hacc }
  · rw [hrel]
    rcases List.mem_append.mp hid with hil | hid
    · exact ⟨(hi.passed i hil).1, (hi.passed i hil).2.trans hT.1⟩
    · exact ⟨(hd i hid).1, (hd i hid).2.2⟩
  · obtain ⟨hreli, hlei⟩ := hi.passed i hil
    obtain ⟨hrelj, hltj, -⟩ := hd j hj
    exact lt_of_start_lt hreli hrelj (Nat.lt_of_le_of_lt hlei hltj)

/-- The reliable stream stays where it is. -/
theorem quiet (hi : tr.Tidy r c l Q) (hown : tr.JoinsOwn r x)
    (hc' : (tr.onPiece t r.entry x).channels[tr.ch.toNat]? = some c')
    (hq : QueueIs tr.start tr.data c' r.reliable Q) (hbuf : tr.BuffersAfter r x c c')
    (hdel : tr.reliableDelivered (tr.onPiece t r.entry x) = tr.reliableDelivered r.entry)
    (hopen : ∀ (key : U16) (b : FragmentBuffer) (i : Nat), c'.fragmentBuffers[key]? = some b →
      (tr.arrive r (t, x)).owner key = some i → tr.reliable i = true →
        r.reliable < tr.start i ∧ i ∉ Q)
    (hacc : (tr.onPiece t r.entry x).Accounted) : tr.Tidy (tr.arrive r (t, x)) c' l Q := by
  have hnext := hi.next (d := []) hown hc' hq hi.stuck hi.held ⟨Nat.le_refl _, by omega⟩ hbuf
    (by rw [hdel, List.map_nil, List.append_nil]) (by simp) .nil hopen hacc
  rwa [List.append_nil] at hnext

/-- A command that is dropped. -/
theorem unchanged (hi : tr.Tidy r c l Q) (hown : tr.JoinsOwn r x)
    (hchan : (tr.onPiece t r.entry x).channels = r.entry.channels)
    (hh : (tr.onPiece t r.entry x).history = r.entry.history)
    (hacc : (tr.onPiece t r.entry x).Accounted) : tr.Tidy (tr.arrive r (t, x)) c l Q :=
  hi.quiet hown (hchan ▸ hi.channel) hi.queue (fun _ _ hb => .inl hb)
    (reliableDelivered_congr hh)
    (fun _ _ _ hb howner hreli => (hi.old_buffer hb howner hreli).1) hacc

/-! ## §3. Commands. -/

/-- A message handed to `receive_reliable`, whose own buffer, if it had one, is
gone. -/
theorem served {c₀ : Channel} {out : List Bytes} (hi : tr.Tidy r c l Q) (hv : tr.Valid x)
    (hrel : tr.reliable x.msg = true) (hown : tr.JoinsOwn r x) (ht : Trimmed c c₀)
    (hn : tr.start x.msg = r.reliable + 1 → tr.pieces x.msg ≤ 32768)
    (hgone : ∀ (key : U16) (b : FragmentBuffer) (i : Nat), c₀.fragmentBuffers[key]? = some b →
      key = tr.key i → tr.whole i = false → i ≠ x.msg)
    (hs : Served tr.start tr.data c₀ r.reliable Q x.msg (tr.pieces x.msg) (c', out))
    (hc' : (tr.onPiece t r.entry x).channels[tr.ch.toNat]? = some c')
    (hh : (tr.onPiece t r.entry x).history
      = r.entry.history ++ PeerEntry.deliveries tr.ch .reliable out)
    (hacc : (tr.onPiece t r.entry x).Accounted) :
    ∃ l' Q', tr.Tidy (tr.arrive r (t, x)) c' l' Q' := by
  have hdel : tr.reliableDelivered (tr.onPiece t r.entry x)
      = tr.reliableDelivered r.entry ++ out.map (⟨·, tr.ch, .reliable⟩) :=
    PeerEntry.deliveredOn_filter_mode .reliable hh (by decide)
  cases hs with
  | @now l₁ _ starts drained =>
      have hpos := tr.pieces_pos hv.1
      have hn := hn starts
      have hle := drained.le (fun i hiQ => (hi.queue.ahead i hiQ).2) (by omega)
      have hrel₁ : ∀ i ∈ x.msg :: l₁, tr.reliable i = true := by
        intro i hil
        rcases List.mem_cons.mp hil with rfl | hil
        · exact hrel
        · exact hi.held i (drained.mem i hil)
      refine ⟨_, _, hi.next (d := x.msg :: l₁) hown hc' drained.queue drained.stuck
        (fun i hiQ => hi.held i (Finset.mem_sdiff.mp hiQ).1) ⟨by omega, by omega⟩
        (fun key b hb => .inl (ht.buffers key b (drained.frame.1 ▸ hb))) ?_ (fun i hil => ?_) ?_
        (fun key b i hb howner hreli => ?_) hacc⟩
      · -- the payloads are those of the messages, in the reliable mode
        rw [hdel, List.map_map]
        congr 1
        refine List.map_congr_left fun i hil => ?_
        simp only [Function.comp_apply, packet, hrel₁ i hil, if_true]
      · refine ⟨hrel₁ i hil, ?_⟩
        rcases List.mem_cons.mp hil with rfl | hil
        · omega
        · have hin := drained.inTurn.le i hil
          omega
      · refine List.pairwise_cons.mpr ⟨fun j hj => ?_,
          sorted_of_inTurn drained.inTurn fun j hj => hrel₁ j (List.mem_cons_of_mem _ hj)⟩
        have hj' := drained.inTurn.le j hj
        exact lt_of_start_lt hrel (hrel₁ j (List.mem_cons_of_mem _ hj)) (by omega)
      · -- no other message starts among the numbers that were consumed
        have hb : c₀.fragmentBuffers[key]? = some b := drained.frame.1 ▸ hb
        obtain ⟨⟨hlt, hnot⟩, hcut, hkey⟩ := hi.old_buffer (ht.buffers key b hb) howner hreli
        have hne := hgone key b i hb hkey hcut
        have hstart : tr.start i ≠ tr.start x.msg := fun heq => hne (start_inj hreli hrel heq)
        have hafter : r.reliable + tr.pieces x.msg < tr.start i := by
          have hle := start_add_pieces_le_of_lt hrel hreli (by omega)
          omega
        refine ⟨Nat.lt_of_not_le fun hin => ?_, fun hin => hnot (Finset.mem_sdiff.mp hin).1⟩
        obtain ⟨j, hj, heq⟩ := drained.inTurn.exists_start hafter hin
        have hj' := drained.mem j hj
        exact hnot (start_inj (hi.held j hj') hreli heq ▸ hj')
  | held ahead queue frame =>
      refine ⟨_, _, hi.next (d := []) hown hc' queue (fun i hiQ => ?_) (fun i hiQ => ?_)
        ⟨Nat.le_refl _, by omega⟩ (fun key b hb => .inl (ht.buffers key b (frame.1 ▸ hb))) hdel
        (by simp) .nil (fun key b i hb howner hreli => ?_) hacc⟩
      · rcases Finset.mem_insert.mp hiQ with rfl | hiQ
        · omega
        · exact hi.stuck i hiQ
      · rcases Finset.mem_insert.mp hiQ with rfl | hiQ
        · exact hrel
        · exact hi.held i hiQ
      · have hb : c₀.fragmentBuffers[key]? = some b := frame.1 ▸ hb
        obtain ⟨⟨hlt, hnot⟩, hcut, hkey⟩ := hi.old_buffer (ht.buffers key b hb) howner hreli
        refine ⟨hlt, fun hin => ?_⟩
        rcases Finset.mem_insert.mp hin with heq | hin
        · exact hgone key b i hb hkey hcut heq
        · exact hnot hin
  | dropped behind =>
      exact ⟨_, _, hi.quiet hown hc' (ht.queueIs hi.queue)
        (fun key b hb => .inl (ht.buffers key b hb)) (hdel.trans (List.append_nil _))
        (fun key b i hb howner hreli => (hi.old_buffer (ht.buffers key b hb) howner hreli).1) hacc⟩

/-- A command that leaves the buffers alone leaves the budget alone. -/
theorem accounted_of_same {q : PeerEntry} (hi : tr.Tidy r c l Q)
    (hchan : q.channels = r.entry.channels.set tr.ch.toNat c')
    (hbuf : c'.fragmentBuffers = c.fragmentBuffers)
    (hbytes : q.fragmentBytesInFlight = r.entry.fragmentBytesInFlight) : q.Accounted := by
  have hset := PeerEntry.heldBytes_set c' hi.channel
  rw [← hchan] at hset
  have hsame : c'.heldBytes = c.heldBytes := by
    rw [Channel.heldBytes, hbuf]
    rfl
  have hheld : q.heldBytes = r.entry.heldBytes := by
    unfold PeerEntry.heldBytes at hset ⊢
    omega
  exact ⟨by rw [hbytes, hheld, hi.accounted.counter], hheld ▸ hi.accounted.budget⟩

theorem reliable_whole (hi : tr.Tidy r c l Q) (hv : tr.Valid x) (hrel : tr.reliable x.msg = true)
    (hw : tr.whole x.msg = true) (hnear : Near (r.reliable + 1) (tr.start x.msg))
    (hown : tr.JoinsOwn r x) : ∃ c' l' Q', tr.Tidy (tr.arrive r (t, x)) c' l' Q' := by
  have hpiece : tr.onPiece t r.entry x
      = r.entry.onSendReliable tr.ch (tr.key x.msg) (tr.data x.msg) t := by
    simp [onPiece, hrel, hw]
  obtain ⟨hchan, hh⟩ := PeerEntry.onSendReliable_eq hi.channel (tr.key x.msg) (tr.data x.msg) t
  rw [← hpiece] at hchan hh
  have hone := pieces_of_whole hw
  have hs := hi.queue.receive hi.stuck hnear (start_inj_of_held hi.held hrel)
  rw [← hone] at hs
  have hbytes : (tr.onPiece t r.entry x).fragmentBytesInFlight = r.entry.fragmentBytesInFlight := by
    rw [hpiece]
    exact PeerOp.apply_fragmentBytes (o := .recvReliable _ _ _) t r.entry (by simp)
  have hacc := hi.accounted_of_same hchan (c.receiveReliable_fragmentBuffers _ _) hbytes
  refine ⟨_, hi.served hv hrel hown (.refl c) (fun _ => by omega) (fun key b i _ _ hcut => ?_) hs
    (Collections.getElem?_of_eq_set hi.channel hchan) hh hacc⟩
  rintro rfl
  rw [hw] at hcut
  cases hcut

/-- A fragment keeps the budget: what it releases is what was charged. -/
theorem accounted_cut (hi : tr.Tidy r c l Q) {S : Finset Nat} (hcol : tr.Collected r c x.msg S)
    (hcut : tr.whole x.msg = false) : (tr.onPiece t r.entry x).Accounted := by
  rw [onPiece_of_cut hcut]
  refine (PeerEntry.onFragment_accounted_iff hi.accounted _ _ _ _).mpr ?_
  have hlen := (hcol.buffer.holds (sized x.msg) x.part).length
  rw [PeerEntry.releasesCharge, hi.channel]
  simp [PeerEntry.announcesCharge, hlen, (sized x.msg).total]

/-- The buffer that a fragment opened or filled. -/
theorem unfinished_of_stored (hi : tr.Tidy r c l Q) (hown : tr.JoinsOwn r x)
    (hcut : tr.whole x.msg = false)
    (hopen : tr.reliable x.msg = true → r.reliable < tr.start x.msg ∧ x.msg ∉ Q)
    (hbuf : tr.BuffersAfter r x c c') {key : U16} {b : FragmentBuffer} {i : Nat}
    (hb : c'.fragmentBuffers[key]? = some b) (howner : (tr.arrive r (t, x)).owner key = some i)
    (hreli : tr.reliable i = true) : r.reliable < tr.start i ∧ i ∉ Q := by
  rcases hbuf key b hb with hold | ⟨rfl, -⟩
  · exact (hi.old_buffer hold howner hreli).1
  · have heq : (tr.arrive r (t, x)).owner (tr.key x.msg) = some x.msg := by
      simp only [Traffic.arrive]
      split
      · next hyes => exact hown hcut hyes
      · exact Function.update_self ..
    cases howner.symm.trans heq
    exact hopen hreli

/-- Whether a reliable message is over, as the numbers say. -/
theorem isOver_iff (hi : tr.Tidy r c l Q) (hrel : tr.reliable x.msg = true)
    (hnear : Near (r.reliable + 1) (tr.start x.msg)) :
    tr.IsOver r x ↔ tr.start x.msg ≤ r.reliable ∨ x.msg ∈ Q := by
  have hlast := hnear.last
  rw [IsOver, chan_of_getElem? hi.channel]
  refine or_congr ?_ ?_
  · rw [AtOrBehind, hi.queue.incoming, key, hlast.ofNat_inj, hlast.seqLt, decide_eq_true_eq]
    omega
  · rw [Std.ExtTreeMap.contains_eq_isSome_getElem?, Option.isSome_iff_exists]
    constructor
    · intro ⟨m, hm⟩
      obtain ⟨i, hiQ, hkey, -⟩ := (hi.queue.queue _ _).mp hm
      have hahead := hi.queue.ahead i hiQ
      have hle := hlast.le
      have hge := hlast.2
      have heq : tr.start x.msg = tr.start i :=
        (Serial.ofNat_inj_near (by omega) (by omega)).mp hkey
      exact start_inj hrel (hi.held i hiQ) heq ▸ hiQ
    · intro hxQ
      exact ⟨_, (hi.queue.queue _ _).mpr ⟨x.msg, hxQ, rfl, rfl⟩⟩

theorem reliable_cut (hi : tr.Tidy r c l Q) (hv : tr.Valid x) (hrel : tr.reliable x.msg = true)
    (hcut : tr.whole x.msg = false) (hnear : Near (r.reliable + 1) (tr.start x.msg + x.part))
    (hstart : Near (r.reliable + 1) (tr.start x.msg)) (hown : tr.JoinsOwn r x)
    (hout : tr.StaysOut r x) : ∃ c' l' Q', tr.Tidy (tr.arrive r (t, x)) c' l' Q' := by
  obtain ⟨S, hcol⟩ := hi.buffers.collected hi.channel hv hcut hown
  have hacc := hi.accounted_cut (t := t) hcol hcut
  by_cases hdrop : PeerEntry.fragmentMalformed
        (fragmentOf (tr.key x.msg) tr.sender.fp (tr.data x.msg) x.part) = true
      ∨ r.entry.fragmentRefused c
        (fragmentOf (tr.key x.msg) tr.sender.fp (tr.data x.msg) x.part) = true
  · obtain ⟨hchan, hh⟩ := PeerEntry.onFragment_dropped hi.channel true t hdrop
    rw [← hrel, ← onPiece_of_cut hcut] at hchan hh
    exact ⟨c, l, Q, hi.unchanged hown hchan hh hacc⟩
  · -- a fragment of a message that is over has no buffer, and it is not the only one
    have hnot : r.reliable < tr.start x.msg ∧ x.msg ∉ Q := by
      rw [← Nat.not_le, ← not_or, ← hi.isOver_iff hrel hstart]
      intro hover
      obtain ⟨hformed, hfree⟩ := not_or.mp hdrop
      rcases (hout hrel hcut hover).resolve_left hformed c hi.channel with href | hbuf | ⟨-, hone⟩
      · exact hfree href
      · obtain ⟨b, hb, -⟩ := hbuf
        have hb : c.fragmentBuffers[tr.key x.msg]? = some b := hb
        have hcontains : (tr.chan r.entry).fragmentBuffers.contains (tr.key x.msg) = true := by
          rw [chan_of_getElem? hi.channel, Std.ExtTreeMap.contains_eq_isSome_getElem?, hb]
          rfl
        obtain ⟨hlt, hQ⟩ := hi.unfinished _ b x.msg hb (hown hcut hcontains) hrel
        rcases (hi.isOver_iff hrel hstart).mp hover with hle | hmem
        · omega
        · exact hQ hmem
      · have hcount : (fragmentOf (tr.key x.msg) tr.sender.fp (tr.data x.msg) x.part).fragmentCount.toNat
            = fragCount tr.sender.fp (tr.data x.msg) := (sized x.msg).count _
        have htwo := two_le_pieces hv.1 hcut
        rw [hone, ← pieces_of_cut hv.1 hcut] at hcount
        have honeNat : (1 : U32).toNat = 1 := rfl
        omega
    have htaken := hcol.taken hv hcut hi.channel t
    rw [hrel] at htaken
    cases htaken with
    | dropped cause => exact absurd cause hdrop
    | stored b holds more channels history =>
        have hbuf := hcol.buffersAfter hv hcut (fun _ => hnear) holds more
        exact ⟨_, l, Q, hi.quiet hown (Collections.getElem?_of_eq_set hi.channel channels)
          ⟨hi.queue.incoming, hi.queue.queue, hi.queue.ahead, hi.queue.inj⟩ hbuf
          (reliableDelivered_congr history) (fun key b i hb howner hreli =>
            hi.unfinished_of_stored hown hcut (fun _ => hnot) hbuf hb howner hreli) hacc⟩
    | last new all channels history =>
        have ht := Trimmed.erase c (tr.key x.msg)
        have hs := released hi.queue hi.stuck hi.held ht hv hrel hcut hstart
        refine ⟨_, hi.served hv hrel hown ht (fun hstarts => ?_) (fun key b i hb hkey _ => ?_) hs
          (Collections.getElem?_of_eq_set hi.channel channels) history hacc⟩
        · exact Ordered.pieces_le hcol hv hcut hrel hnear (hcol.insert_eq_range hv hcut all) hstarts
        · -- the buffer of this message has just been removed
          rintro rfl
          rw [hkey, Std.ExtTreeMap.getElem?_erase_self] at hb
          cases hb

/-- An unreliable message is there, in one piece or put together: it does not
concern the reliable stream. -/
theorem unreliable_there {c₀ : Channel} (hi : tr.Tidy r c l Q) (hown : tr.JoinsOwn r x)
    (ht : Trimmed c c₀)
    (hc' : (tr.onPiece t r.entry x).channels[tr.ch.toNat]?
      = some (c₀.receiveUnreliable (tr.key x.msg) (tr.data x.msg)).1)
    (hh : (tr.onPiece t r.entry x).history = r.entry.history
      ++ PeerEntry.deliveries tr.ch .unreliable
        (c₀.receiveUnreliable (tr.key x.msg) (tr.data x.msg)).2.toList)
    (hacc : (tr.onPiece t r.entry x).Accounted) :
    ∃ c' l' Q', tr.Tidy (tr.arrive r (t, x)) c' l' Q' := by
  have hq := ht.queueIs hi.queue
  have hbuf := c₀.receiveUnreliable_fragmentBuffers (tr.key x.msg) (tr.data x.msg)
  refine ⟨_, l, Q, hi.quiet hown hc' ?_ (fun key b hb => .inl (ht.buffers key b (hbuf ▸ hb))) ?_
    (fun key b i hb howner hreli =>
      (hi.old_buffer (ht.buffers key b (hbuf ▸ hb)) howner hreli).1) hacc⟩
  · unfold Channel.receiveUnreliable
    split
    · exact ⟨hq.incoming, hq.queue, hq.ahead, hq.inj⟩
    · exact hq
  · exact (PeerEntry.deliveredOn_filter_mode .reliable hh (by decide)).trans (List.append_nil _)

theorem unreliable_whole (hi : tr.Tidy r c l Q) (hrel : tr.reliable x.msg = false)
    (hw : tr.whole x.msg = true) (hown : tr.JoinsOwn r x) :
    ∃ c' l' Q', tr.Tidy (tr.arrive r (t, x)) c' l' Q' := by
  have hpiece : tr.onPiece t r.entry x = r.entry.onSendUnreliable tr.ch
      (BitVec.ofNat 16 (tr.reliableBefore x.msg)) (tr.key x.msg) (tr.data x.msg) t := by
    simp [onPiece, hrel, hw]
  obtain ⟨hlate, hcurrent⟩ := PeerEntry.onSendUnreliable_eq hi.channel
    (BitVec.ofNat 16 (tr.reliableBefore x.msg)) (tr.key x.msg) (tr.data x.msg) t
  rw [← hpiece] at hlate hcurrent
  have hbytes : (tr.onPiece t r.entry x).fragmentBytesInFlight = r.entry.fragmentBytesInFlight := by
    rw [hpiece]
    exact PeerOp.apply_fragmentBytes (o := .recvUnreliable _ _ _ _) t r.entry (by simp)
  cases hold : seqLt (BitVec.ofNat 16 (tr.reliableBefore x.msg)) c.incomingReliableSeq with
  | true =>
      obtain ⟨hchan, hh⟩ := hlate hold
      have hacc := (PeerEntry.Accounted.congr hbytes (by rw [hchan])).mpr hi.accounted
      exact ⟨c, l, Q, hi.unchanged hown hchan hh hacc⟩
  | false =>
      obtain ⟨hchan, hh⟩ := hcurrent hold
      have hacc := hi.accounted_of_same hchan (c.receiveUnreliable_fragmentBuffers _ _) hbytes
      exact hi.unreliable_there hown (.refl c) (Collections.getElem?_of_eq_set hi.channel hchan)
        hh hacc

theorem unreliable_cut (hi : tr.Tidy r c l Q) (hv : tr.Valid x)
    (hrel : tr.reliable x.msg = false) (hcut : tr.whole x.msg = false) (hown : tr.JoinsOwn r x) :
    ∃ c' l' Q', tr.Tidy (tr.arrive r (t, x)) c' l' Q' := by
  obtain ⟨S, hcol⟩ := hi.buffers.collected hi.channel hv hcut hown
  have hacc := hi.accounted_cut (t := t) hcol hcut
  have htaken := hcol.taken hv hcut hi.channel t
  rw [hrel] at htaken
  cases htaken with
  | dropped cause channels history =>
      exact ⟨c, l, Q, hi.unchanged hown channels history hacc⟩
  | stored b holds more channels history =>
      have hbuf := hcol.buffersAfter hv hcut (by simp [hrel]) holds more
      exact ⟨_, l, Q, hi.quiet hown (Collections.getElem?_of_eq_set hi.channel channels)
        ⟨hi.queue.incoming, hi.queue.queue, hi.queue.ahead, hi.queue.inj⟩ hbuf
        (reliableDelivered_congr history) (fun key b i hb howner hreli =>
          hi.unfinished_of_stored hown hcut (by simp [hrel]) hbuf hb howner hreli) hacc⟩
  | last new all channels history =>
      rw [PeerEntry.releaseAssembled_unreliable] at channels history
      exact hi.unreliable_there hown (.erase c (tr.key x.msg))
        (Collections.getElem?_of_eq_set hi.channel channels) history hacc

/-- **One command.** -/
theorem arrive (hi : tr.Tidy r c l Q) (hv : tr.Valid x)
    (hrange : tr.reliable x.msg = true → tr.InHalfRange r x) (hown : tr.JoinsOwn r x)
    (hout : tr.StaysOut r x) : ∃ c' l' Q', tr.Tidy (tr.arrive r (t, x)) c' l' Q' := by
  cases hrel : tr.reliable x.msg with
  | true =>
      have hrange := hrange hrel
      rw [InHalfRange, hrel, if_pos rfl] at hrange
      cases hw : tr.whole x.msg with
      | true => exact hi.reliable_whole hv hrel hw hrange.2 hown
      | false => exact hi.reliable_cut hv hrel hw hrange.1 hrange.2 hown hout
  | false =>
      cases hw : tr.whole x.msg with
      | true => exact hi.unreliable_whole hrel hw hown
      | false => exact hi.unreliable_cut hv hrel hw hown

end Tidy

/-! ## §4. Every sequence of arrivals. -/

/-- Of the reliable messages those in `l` have been delivered, and every buffer is
that of an unreliable message or of one that has not been delivered: once all have
been, no reliable message has a buffer.  What is charged is what the buffers hold. -/
def NoLeftovers (tr : Traffic) (r : Reception) : Prop :=
  ∃ l : List Nat, tr.reliableDelivered r.entry = l.map tr.packet ∧ l.Pairwise (· < ·)
    ∧ (∀ key : U16, (tr.chan r.entry).fragmentBuffers.contains key = true →
      ∃ i, r.owner key = some i ∧ (tr.reliable i = true → i ∉ l))
    ∧ ((∀ i, tr.reliable i = true → i ∈ l) →
      ∀ key : U16, (tr.chan r.entry).fragmentBuffers.contains key = true →
        ∃ i, r.owner key = some i ∧ tr.reliable i = false)
    ∧ r.entry.fragmentBytesInFlight = r.entry.heldBytes

theorem Tidy.noLeftovers (hi : tr.Tidy r c l Q) : tr.NoLeftovers r := by
  have howned : ∀ key : U16, (tr.chan r.entry).fragmentBuffers.contains key = true →
      ∃ i, r.owner key = some i ∧ (tr.reliable i = true → i ∉ l) := by
    intro key hkey
    rw [chan_of_getElem? hi.channel, Std.ExtTreeMap.contains_eq_isSome_getElem?,
      Option.isSome_iff_exists] at hkey
    obtain ⟨b, hb⟩ := hkey
    obtain ⟨i, S, howner, -⟩ := hi.buffers key b hb
    refine ⟨i, howner, fun hrel hil => ?_⟩
    have hlt := (hi.unfinished key b i hb howner hrel).1
    have hle := (hi.passed i hil).2
    omega
  refine ⟨l, hi.delivered, hi.order, howned, fun hall key hkey => ?_, hi.accounted.counter⟩
  obtain ⟨i, howner, hnot⟩ := howned key hkey
  refine ⟨i, howner, ?_⟩
  rw [← Bool.not_eq_true]
  exact fun hrel => hnot hrel (hall i hrel)

end Traffic

open Traffic in
/-- **Which fragments leave nothing behind.**  A reliable fragment, late or not,
leaves the buffers and the bytes charged for them as they are exactly if it finds no
place in them.  In every run where this holds of the fragments of the reliable
messages that are over, and where no fragment joins another message's buffer, no
buffer of a message that was delivered remains. -/
theorem late_fragments_leave_nothing_iff (p : PeerEntry) (ch : U8) (sf : SendFragmentCmd)
    (nowMs : U32) (tr : Traffic) (q : PeerEntry) (is : List (U32 × Piece)) :
    (SameBuffers ch p (p.onFragment ch sf true nowMs) ↔ p.PassesBy ch sf)
    ∧ (tr.Fresh q → q.Accounted →
      Transition.Meets (fun r i => some (tr.arrive r i))
        (fun r i => tr.Valid i.2 ∧ (tr.reliable i.2.msg = true → tr.InHalfRange r i.2))
        (begins q) is →
      Transition.Meets (fun r i => some (tr.arrive r i))
        (fun r i => tr.JoinsOwn r i.2 ∧ tr.StaysOut r i.2) (begins q) is →
      tr.NoLeftovers (tr.receiveAll (begins q) is)) := by
  constructor
  · exact p.onFragment_sameBuffers_iff ch sf true nowMs
  · intro hq hacc hrange hm
    have hboth := hrange.and hm
    obtain ⟨c, l, Q, hi⟩ : ∃ c l Q, tr.Tidy (tr.receiveAll (begins q) is) c l Q := by
      refine receiveAll_invariant (I := fun r => ∃ c l Q, tr.Tidy r c l Q) ?_
        ⟨_, _, _, Tidy.begins hq hacc⟩ hboth
      intro r ⟨t, x⟩ ⟨c, l, Q, hi⟩ ⟨⟨hv, hr⟩, hown, hout⟩
      exact hi.arrive hv hr hown hout
    exact hi.noLeftovers

open Traffic in
/-- A fragment twice, but before its message is complete. -/
theorem late_fragments_leave_nothing_iff_early :
    threeMessages.NoLeftovers (threeMessages.receiveAll (begins newcomer)
        [(5, ⟨0, 0⟩), (5, ⟨1, 1⟩), (6, ⟨1, 1⟩), (7, ⟨1, 0⟩), (7, ⟨2, 0⟩)])
      ∧ (threeMessages.receiveAll (begins newcomer)
          [(5, ⟨0, 0⟩), (5, ⟨1, 1⟩), (6, ⟨1, 1⟩), (7, ⟨1, 0⟩), (7, ⟨2, 0⟩)]).entry.deliveredOn 0
        = threeMessages.msgs :=
  ⟨(late_fragments_leave_nothing_iff newcomer 0 (fragmentOf 1 4 [1, 2, 3, 4, 5] 0) 5
      threeMessages newcomer _).2 ⟨rfl, rfl⟩ ⟨by decide +kernel, by decide +kernel⟩
      (by decide +kernel) (by decide +kernel),
    by decide +kernel⟩

open Traffic in
/-- **Fragments of finished messages open buffers.**  After a message of two
fragments has been delivered its first fragment comes again: a buffer is opened and
charged.  In a run with all three messages delivered the buffer stays.  The same
buffer is left if the fragment comes again while its message waits in the queue. -/
theorem late_fragment_opens_buffer :
    (∃ h p, (HostTask.bind 4 false 0 0).run (HostTask.aliceConnects 10 ++ HostTask.aliceFragments
          [fragmentOf 1 4 [1, 2, 3, 4, 5, 6, 7, 8] 0, fragmentOf 1 4 [1, 2, 3, 4, 5, 6, 7, 8] 1])
          = some h
        ∧ h.peer 0 = some p
        ∧ (∃ c ∈ p.channels[0]?, AtOrBehind 1 c.incomingReliableSeq)
        ∧ ¬ SameBuffers 0 p (p.onFragment 0 (fragmentOf 1 4 [1, 2, 3, 4, 5, 6, 7, 8] 0) true 50))
      ∧ (Transition.Meets (fun r i => some (threeMessages.arrive r i))
          (fun r i => threeMessages.Valid i.2
            ∧ (threeMessages.reliable i.2.msg = true → threeMessages.InHalfRange r i.2)
            ∧ threeMessages.JoinsOwn r i.2)
          (begins newcomer) [(5, ⟨0, 0⟩), (5, ⟨1, 0⟩), (6, ⟨1, 1⟩), (7, ⟨2, 0⟩), (8, ⟨1, 0⟩)]
        ∧ (threeMessages.receiveAll (begins newcomer)
            [(5, ⟨0, 0⟩), (5, ⟨1, 0⟩), (6, ⟨1, 1⟩), (7, ⟨2, 0⟩), (8, ⟨1, 0⟩)]).entry.deliveredOn 0
          = threeMessages.msgs
        ∧ (threeMessages.chan (threeMessages.receiveAll (begins newcomer)
            [(5, ⟨0, 0⟩), (5, ⟨1, 0⟩), (6, ⟨1, 1⟩), (7, ⟨2, 0⟩), (8, ⟨1, 0⟩)]).entry).fragmentBuffers.contains
              (threeMessages.key 1) = true)
      ∧ ((threeMessages.receiveAll (begins newcomer)
            [(5, ⟨1, 0⟩), (5, ⟨1, 1⟩), (6, ⟨1, 0⟩), (7, ⟨0, 0⟩)]).entry.deliveredOn 0
          = threeMessages.msgs.take 2
        ∧ (threeMessages.chan (threeMessages.receiveAll (begins newcomer)
            [(5, ⟨1, 0⟩), (5, ⟨1, 1⟩), (6, ⟨1, 0⟩), (7, ⟨0, 0⟩)]).entry).fragmentBuffers.contains
              (threeMessages.key 1) = true) := by
  refine ⟨?_, ⟨by decide +kernel, by decide +kernel, by decide +kernel⟩,
    ⟨by decide +kernel, by decide +kernel⟩⟩
  have hrun : ((HostTask.bind 4 false 0 0).run (HostTask.aliceConnects 10
      ++ HostTask.aliceFragments
        [fragmentOf 1 4 [1, 2, 3, 4, 5, 6, 7, 8] 0, fragmentOf 1 4 [1, 2, 3, 4, 5, 6, 7, 8] 1])).any
      (fun h => (h.peer 0).any fun p =>
        (p.channels[0]?).any (fun c => decide (AtOrBehind 1 c.incomingReliableSeq))
          && decide (p.fragmentBytesInFlight = 0)
          && decide ((p.onFragment 0 (fragmentOf 1 4 [1, 2, 3, 4, 5, 6, 7, 8] 0) true
            50).fragmentBytesInFlight = 8)) = true := by
    decide +kernel
  obtain ⟨h, hh, hrest⟩ := (Option.any_eq_true _ _).mp hrun
  simp only [Bool.and_eq_true, Option.any_eq_true, decide_eq_true_eq] at hrest
  obtain ⟨p, hp, ⟨⟨c, hc, hbehind⟩, hbefore⟩, hafter⟩ := hrest
  refine ⟨h, p, hh, hp, ⟨c, hc, hbehind⟩, fun hsame => ?_⟩
  have hbytes := hsame.2
  rw [hafter, hbefore] at hbytes
  cases hbytes

end EnetRs
