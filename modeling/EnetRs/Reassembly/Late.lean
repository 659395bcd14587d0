/-
  EnetRs.Reassembly.Late — unreliable messages that come too late.

  An unreliable command in one piece is dropped when its header names an older
  reliable number than the receiver has got to.  `on_fragment` makes no such
  check, and it keeps reliable and unreliable reassemblies under one kind of
  key.  Where the fragments themselves stay within these two limits, an
  unreliable message is delivered only if everything delivered before it was
  sent before it.

  Main results:
    * `Traffic.Ordered.arrive` — one command.
    * `late_unreliable_discarded` — every sequence of arrivals.
-/
import EnetRs.Reassembly.Invariant

namespace EnetRs

open MachineInt

namespace Traffic

variable {tr : Traffic} {r : Reception} {x : Piece} {c c' : Channel} {l d : List Nat}
  {Q Q' : Finset Nat} {t : U32}

namespace Ordered

/-! ## §1. Reliable commands. -/

/-- What `receive_reliable` did with a message that is there. -/
theorem served {c₀ : Channel} {n : Nat} {out : List Bytes} (hi : tr.Ordered r c l Q)
    (hrel : tr.reliable x.msg = true) (hown : tr.JoinsOwn r x) (ht : Trimmed c c₀)
    (hpos : 0 < n) (hn : tr.start x.msg = r.reliable + 1 → n ≤ 32768)
    (hs : Served tr.start tr.data c₀ r.reliable Q x.msg n (c', out))
    (harr : tr.Complete (r.past ++ [x]) x.msg)
    (hc' : (tr.onPiece t r.entry x).channels[tr.ch.toNat]? = some c')
    (hh : (tr.onPiece t r.entry x).history
      = r.entry.history ++ PeerEntry.deliveries tr.ch .reliable out) :
    ∃ l' Q', tr.Ordered (tr.arrive r (t, x)) c' l' Q' := by
  cases hs with
  | now starts drained =>
      exact ⟨_, _, hi.now hrel hown ht hpos (hn starts) starts drained harr hc' hh⟩
  | held ahead queue frame =>
      exact ⟨_, _, hi.hold hrel hown ht ahead queue frame harr hc' (hh.trans (List.append_nil _))⟩
  | dropped behind =>
      exact ⟨_, _, hi.quiet hown hc' (ht.queueIs hi.queue) ht.counter
        (fun key b hb => .inl (ht.buffers key b hb)) (hh.trans (List.append_nil _))⟩

theorem reliable_whole (hi : tr.Ordered r c l Q) (hv : tr.Valid x) (hrel : tr.reliable x.msg = true)
    (hw : tr.whole x.msg = true) (hrange : tr.InHalfRange r x) (hown : tr.JoinsOwn r x) :
    ∃ c' l' Q', tr.Ordered (tr.arrive r (t, x)) c' l' Q' := by
  rw [InHalfRange, hrel, if_pos rfl] at hrange
  have hpiece : tr.onPiece t r.entry x
      = r.entry.onSendReliable tr.ch (tr.key x.msg) (tr.data x.msg) t := by
    simp [onPiece, hrel, hw]
  obtain ⟨hchan, hh⟩ := PeerEntry.onSendReliable_eq hi.channel (tr.key x.msg) (tr.data x.msg) t
  rw [← hpiece] at hchan hh
  exact ⟨_, hi.served hrel hown (.refl c) Nat.one_pos (fun _ => by omega)
    (hi.queue.receive hi.stuck hrange.2 (start_inj_of_held hi.held hrel)) (complete_of_whole hv hw)
    (Collections.getElem?_of_eq_set hi.channel hchan) hh⟩

theorem reliable_cut (hi : tr.Ordered r c l Q) (hv : tr.Valid x) (hrel : tr.reliable x.msg = true)
    (hcut : tr.whole x.msg = false) (hrange : tr.InHalfRange r x) (hown : tr.JoinsOwn r x) :
    ∃ c' l' Q', tr.Ordered (tr.arrive r (t, x)) c' l' Q' := by
  rw [InHalfRange, hrel, if_pos rfl] at hrange
  obtain ⟨S, hcol⟩ := hi.buffers.collected hi.channel hv hcut hown
  have hpieces := pieces_of_cut hv.1 hcut
  have htaken := hcol.taken hv hcut hi.channel t
  rw [hrel] at htaken
  cases htaken with
  | dropped cause channels history =>
      exact ⟨c, l, Q, hi.quiet hown (channels ▸ hi.channel) hi.queue rfl
        (fun _ _ hb => .inl hb) history⟩
  | stored b holds more channels history =>
      exact ⟨_, l, Q, hi.quiet hown (Collections.getElem?_of_eq_set hi.channel channels)
        ⟨hi.queue.incoming, hi.queue.queue, hi.queue.ahead, hi.queue.inj⟩ rfl
        (hcol.buffersAfter hv hcut (fun _ => hrange.1) holds more) history⟩
  | last new all channels history =>
      have ht := Trimmed.erase c (tr.key x.msg)
      have hs := hi.release ht hv hrel hcut hrange.2
      refine ⟨_, hi.served hrel hown ht (tr.pieces_pos hv.1) (fun hstart => ?_) hs
        (hcol.complete hv hcut all) (Collections.getElem?_of_eq_set hi.channel channels) history⟩
      exact pieces_le hcol hv hcut hrel hrange.1 (hcol.insert_eq_range hv hcut all) hstart

/-! ## §2. Unreliable commands. -/

/-- What was delivered before was sent before. -/
theorem sent_before (hi : tr.Ordered r c l Q)
    (hrel : tr.reliable x.msg = false) (hepoch : r.reliable ≤ tr.reliableBefore x.msg)
    (hnew : r.unreliable < tr.start x.msg) : ∀ i ∈ l, i < x.msg := by
  intro i hil
  by_contra hge
  have hle := Nat.le_of_not_lt hge
  cases hreli : tr.reliable i with
  | true =>
      have hstart := hi.reliable_le i hil hreli
      have hmono := tr.reliableBefore_mono hle
      rw [start_of_reliable hreli] at hstart
      omega
  | false =>
      have hstart := hi.unreliable_le i hil hreli
      have hmono := tr.unreliableBefore_mono hle
      rw [start_of_unreliable hreli] at hstart
      rw [start_of_unreliable hrel] at hnew
      omega

/-- An unreliable message is there, in one piece or put together. -/
theorem judged {c₀ : Channel} (hi : tr.Ordered r c l Q) (hv : tr.Valid x)
    (hrel : tr.reliable x.msg = false) (hown : tr.JoinsOwn r x)
    (hnear : Near r.unreliable (tr.start x.msg)) (hepoch : r.reliable ≤ tr.reliableBefore x.msg)
    (ht : Trimmed c c₀) (harr : tr.Complete (r.past ++ [x]) x.msg)
    (hc' : (tr.onPiece t r.entry x).channels[tr.ch.toNat]?
      = some (c₀.receiveUnreliable (tr.key x.msg) (tr.data x.msg)).1)
    (hh : (tr.onPiece t r.entry x).history = r.entry.history
      ++ PeerEntry.deliveries tr.ch .unreliable
        (c₀.receiveUnreliable (tr.key x.msg) (tr.data x.msg)).2.toList) :
    ∃ c' l' Q', tr.Ordered (tr.arrive r (t, x)) c' l' Q' := by
  have hlt : seqLt c₀.incomingUnreliableSeq (tr.key x.msg)
      = decide (r.unreliable < tr.start x.msg) := by
    rw [ht.counter, hi.counter]
    exact hnear.seqLt
  by_cases hnew : r.unreliable < tr.start x.msg
  · rw [decide_eq_true hnew] at hlt
    simp only [Channel.receiveUnreliable, hlt, if_true] at hc' hh
    have hdel := PeerEntry.deliveredOn_deliveries hh (by decide)
    have hle := hnear.le
    have hq := ht.queueIs hi.queue
    refine ⟨_, _, _, hi.next (d := [x.msg]) hown hc'
      ⟨hq.incoming, hq.queue, hq.ahead, hq.inj⟩ hi.stuck hi.held ⟨Nat.le_refl _, by omega⟩ rfl
      ⟨hnew.le, by omega⟩ (fun key b hb => .inl (ht.buffers key b hb)) ?_ ?_ ?_ ?_⟩
    · rw [hdel]
      simp [packet, hrel]
    · rintro i (hid | hiQ)
      · obtain rfl := List.mem_singleton.mp hid
        exact .inr harr
      · exact .inl hiQ
    · intro i hid
      obtain rfl := List.mem_singleton.mp hid
      rw [hrel]
      exact ⟨hv.1, Nat.le_refl _⟩
    · refine List.pairwise_append.mpr ⟨hi.order, List.pairwise_singleton _ _, ?_⟩
      intro i hil j hj _
      obtain rfl := List.mem_singleton.mp hj
      exact hi.sent_before hrel hepoch hnew i hil
  · rw [decide_eq_false hnew] at hlt
    simp only [Channel.receiveUnreliable, hlt, Bool.false_eq_true, if_false] at hc' hh
    exact ⟨_, _, _, hi.quiet hown hc' (ht.queueIs hi.queue) ht.counter
      (fun key b hb => .inl (ht.buffers key b hb)) (hh.trans (List.append_nil _))⟩

theorem unreliable_whole (hi : tr.Ordered r c l Q) (hv : tr.Valid x)
    (hrel : tr.reliable x.msg = false) (hw : tr.whole x.msg = true) (hrange : tr.InHalfRange r x)
    (hown : tr.JoinsOwn r x) : ∃ c' l' Q', tr.Ordered (tr.arrive r (t, x)) c' l' Q' := by
  rw [InHalfRange, hrel, if_neg Bool.false_ne_true] at hrange
  have hpiece : tr.onPiece t r.entry x = r.entry.onSendUnreliable tr.ch
      (BitVec.ofNat 16 (tr.reliableBefore x.msg)) (tr.key x.msg) (tr.data x.msg) t := by
    simp [onPiece, hrel, hw]
  obtain ⟨hlate, hcurrent⟩ := PeerEntry.onSendUnreliable_eq hi.channel
    (BitVec.ofNat 16 (tr.reliableBefore x.msg)) (tr.key x.msg) (tr.data x.msg) t
  rw [← hpiece, hi.queue.incoming, hrange.2.seqLt] at hlate hcurrent
  by_cases hold : tr.reliableBefore x.msg < r.reliable
  · obtain ⟨hchan, hh⟩ := hlate (decide_eq_true hold)
    exact ⟨c, l, Q, hi.quiet hown (hchan ▸ hi.channel) hi.queue rfl (fun _ _ hb => .inl hb) hh⟩
  · obtain ⟨hchan, hh⟩ := hcurrent (decide_eq_false hold)
    exact hi.judged hv hrel hown hrange.1 (Nat.le_of_not_lt hold) (.refl c)
      (complete_of_whole hv hw) (Collections.getElem?_of_eq_set hi.channel hchan) hh

theorem unreliable_cut (hi : tr.Ordered r c l Q) (hv : tr.Valid x)
    (hrel : tr.reliable x.msg = false) (hcut : tr.whole x.msg = false)
    (hrange : tr.InHalfRange r x) (hown : tr.JoinsOwn r x)
    (hepoch : r.reliable ≤ tr.reliableBefore x.msg) :
    ∃ c' l' Q', tr.Ordered (tr.arrive r (t, x)) c' l' Q' := by
  rw [InHalfRange, hrel, if_neg Bool.false_ne_true] at hrange
  obtain ⟨S, hcol⟩ := hi.buffers.collected hi.channel hv hcut hown
  have htaken := hcol.taken hv hcut hi.channel t
  rw [hrel] at htaken
  cases htaken with
  | dropped cause channels history =>
      exact ⟨c, l, Q, hi.quiet hown (channels ▸ hi.channel) hi.queue rfl
        (fun _ _ hb => .inl hb) history⟩
  | stored b holds more channels history =>
      exact ⟨_, l, Q, hi.quiet hown (Collections.getElem?_of_eq_set hi.channel channels)
        ⟨hi.queue.incoming, hi.queue.queue, hi.queue.ahead, hi.queue.inj⟩ rfl
        (hcol.buffersAfter hv hcut (by simp [hrel]) holds more) history⟩
  | last new all channels history =>
      rw [PeerEntry.releaseAssembled_unreliable] at channels history
      exact hi.judged hv hrel hown hrange.1 hepoch (.erase c (tr.key x.msg))
        (hcol.complete hv hcut all) (Collections.getElem?_of_eq_set hi.channel channels) history

end Ordered

/-! ## §3. Every sequence of arrivals. -/

/-- An unreliable fragment passes the check that `on_command` makes of an
unreliable command in one piece: its header does not name an older reliable
number than the receiver has got to. -/
def EpochCurrent (tr : Traffic) (r : Reception) (x : Piece) : Prop :=
  tr.reliable x.msg = false → tr.whole x.msg = false → r.reliable ≤ tr.reliableBefore x.msg

instance (r : Reception) (x : Piece) : Decidable (tr.EpochCurrent r x) := by
  unfold EpochCurrent
  infer_instance

/-- **One command.** -/
theorem Ordered.arrive (hi : tr.Ordered r c l Q) (hv : tr.Valid x) (hrange : tr.InHalfRange r x)
    (hown : tr.JoinsOwn r x) (hepoch : tr.EpochCurrent r x) :
    ∃ c' l' Q', tr.Ordered (tr.arrive r (t, x)) c' l' Q' := by
  cases hrel : tr.reliable x.msg with
  | true =>
      cases hw : tr.whole x.msg with
      | true => exact hi.reliable_whole hv hrel hw hrange hown
      | false => exact hi.reliable_cut hv hrel hw hrange hown
  | false =>
      cases hw : tr.whole x.msg with
      | true => exact hi.unreliable_whole hv hrel hw hrange hown
      | false => exact hi.unreliable_cut hv hrel hw hrange hown (hepoch hrel hw)

/-- The deliveries are those of the messages `l`, in this order, all of which
have arrived in full: (a) the unreliable ones in the order they were sent, none
twice; (b) none of them after a reliable message that was sent later. -/
def NoneLate (tr : Traffic) (r : Reception) : Prop :=
  ∃ l : List Nat, (r.entry.deliveredOn tr.ch).map some = l.map (tr.msgs[·]?)
    ∧ (∀ i ∈ l, tr.Complete r.past i)
    ∧ (l.filter fun i => !tr.reliable i).Pairwise (· < ·)
    ∧ l.Pairwise fun i j => tr.reliable i = true → tr.reliable j = false → i < j

end Traffic

open Traffic in
/-- **Late unreliable messages are discarded**, where every fragment that arrives
joins no other message's buffer, and every unreliable fragment passes the check
made of the messages in one piece. -/
theorem late_unreliable_discarded (tr : Traffic) (p : PeerEntry) (hp : tr.Fresh p)
    (is : List (U32 × Piece))
    (hrange : Transition.Meets (fun r i => some (tr.arrive r i))
      (fun r i => tr.Valid i.2 ∧ tr.InHalfRange r i.2) (begins p) is)
    (hm : Transition.Meets (fun r i => some (tr.arrive r i))
      (fun r i => tr.JoinsOwn r i.2 ∧ tr.EpochCurrent r i.2) (begins p) is) :
    tr.NoneLate (tr.receiveAll (begins p) is) := by
  have hboth := hrange.and hm
  obtain ⟨c, l, Q, hi⟩ : ∃ c l Q, tr.Ordered (tr.receiveAll (begins p) is) c l Q := by
    refine receiveAll_invariant (I := fun r => ∃ c l Q, tr.Ordered r c l Q) ?_
      ⟨_, _, _, Ordered.begins hp⟩ hboth
    rintro r ⟨t, x⟩ ⟨c, l, Q, hi⟩ ⟨⟨hv, hr⟩, hown, hepoch⟩
    exact hi.arrive hv hr hown hepoch
  refine ⟨l, ?_, fun i hil => hi.arrived i (.inl hil), ?_, ?_⟩
  · rw [hi.delivered, List.map_map]
    exact List.map_congr_left fun i hil => (getElem?_eq_packet (hi.lt i hil)).symm
  · refine List.Pairwise.imp_of_mem (fun {i j} _ hj hij => ?_) (hi.order.filter _)
    have hrel := (List.mem_filter.mp hj).2
    exact hij (by simpa using hrel)
  · exact hi.order.imp fun hij _ hrel => hij hrel

/-- An unreliable message in two fragments, and a reliable byte after it. -/
def overtaken : Traffic :=
  { sender := ⟨576, false, Sender.mtuMin_le⟩
    ch := 0
    msgs := [⟨List.replicate 565 7, 0, .unreliable⟩, ⟨[9], 0, .reliable⟩]
    channel := by decide
    mode := by decide
    length := by decide +kernel }

theorem overtaken_fresh : overtaken.Fresh newcomer := ⟨rfl, rfl⟩

/-- In the order they were sent. -/
theorem late_unreliable_discarded_in_order :
    overtaken.NoneLate
      (overtaken.receiveAll (Traffic.begins newcomer) [(5, ⟨0, 1⟩), (5, ⟨0, 0⟩), (6, ⟨1, 0⟩)]) :=
  late_unreliable_discarded overtaken newcomer overtaken_fresh _ (by decide +kernel)
    (by decide +kernel)

open Traffic in
/-- **A fragmented unreliable message after a later reliable one.** -/
theorem late_unreliable_delivered :
    overtaken.Fresh newcomer
      ∧ Transition.Meets (fun r i => some (overtaken.arrive r i))
          (fun r i => overtaken.Valid i.2 ∧ overtaken.InHalfRange r i.2) (begins newcomer)
          [(5, ⟨1, 0⟩), (6, ⟨0, 0⟩), (6, ⟨0, 1⟩)]
      ∧ ¬ overtaken.NoneLate
          (overtaken.receiveAll (begins newcomer) [(5, ⟨1, 0⟩), (6, ⟨0, 0⟩), (6, ⟨0, 1⟩)]) := by
  refine ⟨overtaken_fresh, by decide +kernel, ?_⟩
  rintro ⟨l, hl, -, -, horder⟩
  have hdel : ((overtaken.receiveAll (begins newcomer)
      [(5, ⟨1, 0⟩), (6, ⟨0, 0⟩), (6, ⟨0, 1⟩)]).entry.deliveredOn overtaken.ch).map some
      = [overtaken.msgs[1]?, overtaken.msgs[0]?] := by
    decide +kernel
  rw [hdel] at hl
  -- only message 0 has the payload that came last, and no message is before it
  have htwo : l.length = 2 := by
    rw [← List.length_map, ← hl]
    rfl
  obtain ⟨i, j, rfl⟩ := List.length_eq_two.mp htwo
  simp only [List.map_cons, List.map_nil, List.cons.injEq, and_true] at hl
  have hi : overtaken.reliable i = true := by
    rw [Traffic.reliable, ← hl.1]
    rfl
  have hj : overtaken.reliable j = false := by
    rw [Traffic.reliable, ← hl.2]
    rfl
  have hlt : i < j := by simpa [hi, hj] using horder
  have hmem : j < overtaken.msgs.length := (List.getElem?_eq_some_iff.mp hl.2.symm).1
  obtain rfl : j = 1 := by
    have hlen : overtaken.msgs.length = 2 := rfl
    omega
  exact absurd hj (by decide)

end EnetRs
