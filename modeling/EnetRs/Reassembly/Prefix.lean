/-
  EnetRs.Reassembly.Prefix — the deliveries of a reliable stream, however its
  commands arrive.

  A message in fragments that is complete before its turn leaves the receiver's
  counter inside its numbers, and the channel stands still.  So the deliveries
  need not be complete; but they are always the first messages of the stream, in
  order and once each, in whatever order the commands arrive and however often,
  as long as the stream has used fewer than 32768 numbers.

  Main results:
    * `Traffic.InFront.arrive` — one command.
    * `Traffic.Receiving.op` — one operation on the receiver's entry.
-/
import EnetRs.Reassembly.InOrder
import EnetRs.Host.Channels
import EnetRs.Host.Deliveries

namespace EnetRs

open MachineInt

/-- The channels agree on everything that arrivals read or write. -/
structure SameIncoming (c c' : Channel) : Prop where
  reliable : c'.incomingReliableSeq = c.incomingReliableSeq
  queue : c'.incomingReliableQueue = c.incomingReliableQueue
  unreliable : c'.incomingUnreliableSeq = c.incomingUnreliableSeq
  buffers : c'.fragmentBuffers = c.fragmentBuffers

/-- The deliveries of a channel among all deliveries. -/
theorem PeerEntry.deliveredOn_eq (p : PeerEntry) (ch : U8) :
    p.deliveredOn ch
      = p.delivered.filter fun pkt => decide (pkt.channel = ch ∧ pkt.mode ≠ .unsequenced) := by
  rw [PeerEntry.deliveredOn, PeerEntry.delivered, List.filter_filterMap]
  refine List.filterMap_congr fun e _ => ?_
  cases e with
  | deliver pkt => simp [PeerEvent.asDelivery, PeerEvent.asDeliver, Option.filter]
  | _ => rfl

namespace Traffic

variable {tr : Traffic} {r : Reception} {x : Piece} {c c' : Channel} {k T : Nat} {l : List Nat}
  {Q : Finset Nat} {t : U32}

/-! ## §1. Where the counter can stand. -/

/-- All the numbers of the stream. -/
def total (tr : Traffic) : Nat := tr.reliableBefore tr.msgs.length

theorem AllReliable.start_add_part_le (hrel : tr.AllReliable) (hv : tr.Valid x) :
    tr.start x.msg + x.part ≤ tr.total := by
  have hpart := hv.2
  have hmono := tr.reliableBefore_mono (Nat.succ_le_of_lt hv.1)
  rw [Nat.succ_eq_add_one, hrel.succ hv.1] at hmono
  rw [start_of_reliable (hrel.reliable hv.1)]
  unfold total
  omega

/-- The counter `T` when the first `k` messages are delivered: behind the first
number of each of them, and not behind their last. -/
structure Reached (tr : Traffic) (k T : Nat) : Prop where
  le : k ≤ tr.msgs.length
  upTo : T ≤ tr.reliableBefore k
  begun : ∀ i < k, tr.start i ≤ T

namespace Reached

variable (hrel : tr.AllReliable) (hr : tr.Reached k T)

include hrel hr

/-- Only the next message can start at the next number. -/
theorem eq_of_start {i : Nat} (hi : i < tr.msgs.length) (hstart : tr.start i = T + 1) : i = k := by
  have hbefore := start_of_reliable (hrel.reliable hi)
  rcases Nat.lt_trichotomy i k with hlt | rfl | hgt
  · have hle := hr.begun i hlt
    omega
  · rfl
  · have hlt := hrel.lt (Nat.lt_trans hgt hi) hgt
    have hle := hr.upTo
    omega

/-- The next message is delivered, and `n` of its numbers count as used. -/
theorem next {n : Nat} (hk : k < tr.msgs.length) (hstart : tr.start k = T + 1) (hpos : 0 < n)
    (hn : n ≤ tr.pieces k) : tr.Reached (k + 1) (T + n) := by
  have hbefore := start_of_reliable (hrel.reliable hk)
  refine ⟨hk, ?_, fun i hi => ?_⟩
  · rw [hrel.succ hk]
    omega
  · rcases Nat.lt_or_eq_of_le (Nat.le_of_lt_succ hi) with hlt | rfl
    · have hle := hr.begun i hlt
      omega
    · omega

/-- Messages that are handed out one number each are the next ones. -/
theorem inTurn (hl : InTurn tr.start T l) (hmem : ∀ i ∈ l, i < tr.msgs.length) :
    l = List.range' k l.length ∧ tr.Reached (k + l.length) (T + l.length) := by
  induction l generalizing k T with
  | nil => exact ⟨rfl, hr⟩
  | cons i l ih =>
      obtain ⟨hstart, hl⟩ := hl
      have hi := hmem i List.mem_cons_self
      obtain rfl := hr.eq_of_start hrel hi hstart
      obtain ⟨hrange, hr'⟩ := ih (hr.next hrel hi hstart Nat.one_pos (tr.pieces_pos hi)) hl
        fun j hj => hmem j (List.mem_cons_of_mem _ hj)
      rw [List.length_cons, List.range'_succ, ← hrange]
      refine ⟨rfl, ?_⟩
      rw [show i + (l.length + 1) = i + 1 + l.length by omega,
        show T + (l.length + 1) = T + 1 + l.length by omega]
      exact hr'

end Reached

/-! ## §2. The invariant. -/

/-- **What holds between the commands**: the first `k` messages are delivered. -/
structure InFront (tr : Traffic) (r : Reception) (c : Channel) (k : Nat) (Q : Finset Nat) : Prop
    extends tr.Ordered r c (List.range k) Q where
  reached : tr.Reached k r.reliable

namespace InFront

theorem begins {p : PeerEntry} (hp : tr.Fresh p) : tr.InFront (begins p) Channel.new 0 ∅ :=
  { Ordered.begins hp with
    reached := ⟨Nat.zero_le _, Nat.zero_le _, by simp⟩ }

/-- The deliveries are the first messages of the stream. -/
theorem delivered_first (hi : tr.InFront r c k Q) : r.entry.deliveredOn tr.ch <+: tr.msgs := by
  rw [hi.delivered, map_packet_range hi.reached.le]
  exact List.take_prefix k tr.msgs

/-- A message reached `receive_reliable`. -/
theorem served {c₀ : Channel} {n : Nat} {out : List Bytes} (hi : tr.InFront r c k Q)
    (hrel : tr.AllReliable) (hv : tr.Valid x) (hown : tr.JoinsOwn r x) (ht : Trimmed c c₀)
    (hpos : 0 < n) (hn : n ≤ tr.pieces x.msg)
    (hle : tr.start x.msg = r.reliable + 1 → n ≤ 32768)
    (hs : Served tr.start tr.data c₀ r.reliable Q x.msg n (c', out))
    (harr : tr.Complete (r.past ++ [x]) x.msg)
    (hc' : (tr.onPiece t r.entry x).channels[tr.ch.toNat]? = some c')
    (hh : (tr.onPiece t r.entry x).history
      = r.entry.history ++ PeerEntry.deliveries tr.ch .reliable out) :
    ∃ k' Q', tr.InFront (tr.arrive r (t, x)) c' k' Q' := by
  have hrelx := hrel.reliable hv.1
  cases hs with
  | @now l₁ _ starts drained =>
      have hord := hi.now hrelx hown ht hpos (hle starts) starts drained harr hc' hh
      have hfar := drained.le (fun i hiQ => (hi.queue.ahead i hiQ).2) (by have := hle starts; omega)
      have hT := hi.reliable_arrive hc' drained.queue.incoming ⟨by omega, by omega⟩
      -- the message is number `k`, and those that waited for it follow it
      have heq := hi.reached.eq_of_start hrel hv.1 starts
      have hnext := hi.reached.next hrel (heq ▸ hv.1) (heq ▸ starts) hpos (heq ▸ hn)
      obtain ⟨hrange, hreached⟩ := hnext.inTurn hrel drained.inTurn
        fun i hil => lt_of_reliable (hi.held i (drained.mem i hil))
      have hlist : List.range k ++ x.msg :: l₁ = List.range (k + 1 + l₁.length) := by
        rw [heq, hrange, List.length_range', ← List.range'_succ, List.range_eq_range',
          List.range_eq_range']
        have happ := List.range'_append_1 (s := 0) (m := k) (n := l₁.length + 1)
        rw [Nat.zero_add] at happ
        rw [happ, show k + (l₁.length + 1) = k + 1 + l₁.length by omega]
      rw [hlist] at hord
      exact ⟨_, _, { hord with reached := hT.symm ▸ hreached }⟩
  | held ahead queue frame =>
      have hord := hi.hold hrelx hown ht ahead queue frame harr hc' (hh.trans (List.append_nil _))
      have hT := hi.reliable_arrive hc' queue.incoming ⟨Nat.le_refl _, by omega⟩
      exact ⟨_, _, { hord with reached := hT.symm ▸ hi.reached }⟩
  | dropped behind =>
      have hq := ht.queueIs hi.queue
      have hord := hi.quiet hown hc' hq ht.counter (fun key b hb => .inl (ht.buffers key b hb))
        (hh.trans (List.append_nil _))
      have hT := hi.reliable_arrive hc' hq.incoming ⟨Nat.le_refl _, by omega⟩
      exact ⟨_, _, { hord with reached := hT.symm ▸ hi.reached }⟩

/-! ## §3. One command. -/

/-- With fewer than 65536 numbers no two messages share a buffer. -/
theorem joinsOwn (hi : tr.InFront r c k Q) (hrel : tr.AllReliable) (hsmall : tr.total < 32768)
    (hv : tr.Valid x) : tr.JoinsOwn r x := by
  intro _ hcontains
  rw [chan_of_getElem? hi.channel, Std.ExtTreeMap.contains_eq_isSome_getElem?] at hcontains
  obtain ⟨b, hb⟩ := Option.isSome_iff_exists.mp hcontains
  obtain ⟨i, S, howner, hkey, hkeeps⟩ := hi.buffers _ b hb
  have hx := hrel.start_add_part_le hv
  have hi' : tr.start i ≤ tr.total :=
    hrel.start_add_part_le (x := ⟨i, 0⟩) ⟨hkeeps.lt, tr.pieces_pos hkeeps.lt⟩
  have hstart : tr.start x.msg = tr.start i :=
    (Serial.ofNat_inj_near (w := 16) (x := tr.start x.msg) (y := tr.start i) (by omega)
      (by omega)).mp hkey
  rw [howner, start_inj (hrel.reliable hkeeps.lt) (hrel.reliable hv.1) hstart.symm]

/-- The numbers of a short stream are all near each other. -/
theorem near (hi : tr.InFront r c k Q) (hrel : tr.AllReliable) (hsmall : tr.total < 32768)
    (hv : tr.Valid x) :
    Near (r.reliable + 1) (tr.start x.msg + x.part) ∧ Near (r.reliable + 1) (tr.start x.msg) := by
  have hx := hrel.start_add_part_le hv
  have hle := hi.reached.upTo
  have hmono := tr.reliableBefore_mono hi.reached.le
  unfold total at hx hsmall
  exact ⟨⟨by omega, by omega⟩, by omega, by omega⟩

theorem arrive_whole (hi : tr.InFront r c k Q) (hrel : tr.AllReliable) (hsmall : tr.total < 32768)
    (hv : tr.Valid x) (hw : tr.whole x.msg = true) :
    ∃ c' k' Q', tr.InFront (tr.arrive r (t, x)) c' k' Q' := by
  have hrelx := hrel.reliable hv.1
  have hpiece : tr.onPiece t r.entry x
      = r.entry.onSendReliable tr.ch (tr.key x.msg) (tr.data x.msg) t := by
    simp [onPiece, hrelx, hw]
  obtain ⟨hchan, hh⟩ := PeerEntry.onSendReliable_eq hi.channel (tr.key x.msg) (tr.data x.msg) t
  rw [← hpiece] at hchan hh
  have hs := hi.queue.receive hi.stuck (hi.near hrel hsmall hv).2 (start_inj_of_held hi.held hrelx)
  exact ⟨_, hi.served hrel hv (hi.joinsOwn hrel hsmall hv) (.refl c) Nat.one_pos
    (tr.pieces_pos hv.1) (fun _ => by omega) hs (complete_of_whole hv hw)
    (Collections.getElem?_of_eq_set hi.channel hchan) hh⟩

theorem arrive_cut (hi : tr.InFront r c k Q) (hrel : tr.AllReliable) (hsmall : tr.total < 32768)
    (hv : tr.Valid x) (hcut : tr.whole x.msg = false) :
    ∃ c' k' Q', tr.InFront (tr.arrive r (t, x)) c' k' Q' := by
  have hrelx := hrel.reliable hv.1
  have hown := hi.joinsOwn hrel hsmall hv
  obtain ⟨hnear, hnear'⟩ := hi.near hrel hsmall hv
  obtain ⟨S, hcol⟩ := hi.buffers.collected hi.channel hv hcut hown
  have htaken := hcol.taken hv hcut hi.channel t
  rw [hrelx] at htaken
  -- a fragment that does not complete its message leaves the stream where it is
  have hquiet : ∀ {c' : Channel},
      (tr.onPiece t r.entry x).channels[tr.ch.toNat]? = some c' →
      QueueIs tr.start tr.data c' r.reliable Q →
      c'.incomingUnreliableSeq = c.incomingUnreliableSeq → tr.BuffersAfter r x c c' →
      (tr.onPiece t r.entry x).history = r.entry.history →
      ∃ c' k' Q', tr.InFront (tr.arrive r (t, x)) c' k' Q' := by
    intro c' hc' hq hu hbuf hh
    have hT := hi.reliable_arrive hc' hq.incoming ⟨Nat.le_refl _, by omega⟩
    exact ⟨_, _, _, { hi.quiet hown hc' hq hu hbuf hh with reached := hT.symm ▸ hi.reached }⟩
  cases htaken with
  | dropped cause channels history =>
      exact hquiet (channels ▸ hi.channel) hi.queue rfl (fun _ _ hb => .inl hb) history
  | stored b holds more channels history =>
      exact hquiet (Collections.getElem?_of_eq_set hi.channel channels)
        ⟨hi.queue.incoming, hi.queue.queue, hi.queue.ahead, hi.queue.inj⟩ rfl
        (hcol.buffersAfter hv hcut (fun _ => hnear) holds more) history
  | last new all channels history =>
      have ht := Trimmed.erase c (tr.key x.msg)
      refine ⟨_, hi.served hrel hv hown ht (tr.pieces_pos hv.1) (Nat.le_refl _) (fun hstart => ?_)
        (hi.release ht hv hrelx hcut hnear') (hcol.complete hv hcut all)
        (Collections.getElem?_of_eq_set hi.channel channels) history⟩
      exact Ordered.pieces_le hcol hv hcut hrelx hnear (hcol.insert_eq_range hv hcut all) hstart

/-- **One command**, whenever it arrives. -/
theorem arrive (hi : tr.InFront r c k Q) (hrel : tr.AllReliable) (hsmall : tr.total < 32768)
    (hv : tr.Valid x) : ∃ c' k' Q', tr.InFront (tr.arrive r (t, x)) c' k' Q' := by
  cases hw : tr.whole x.msg with
  | true => exact hi.arrive_whole hrel hsmall hv hw
  | false => exact hi.arrive_cut hrel hsmall hv hw

end InFront

/-! ## §4. Any operation on the receiver's entry. -/

theorem InFront.congr (hi : tr.InFront r c k Q) {q : PeerEntry}
    (hc : q.channels[tr.ch.toNat]? = some c') (hs : SameIncoming c c')
    (hd : q.deliveredOn tr.ch = r.entry.deliveredOn tr.ch) :
    tr.InFront { r with entry := q } c' k Q :=
  { hi with
    channel := hc
    queue :=
      { hi.queue with
        incoming := hs.reliable.trans hi.queue.incoming
        queue := fun key d => hs.queue ▸ hi.queue.queue key d }
    counter := hs.unreliable.trans hi.counter
    buffers := fun key b hb => hi.buffers key b (hs.buffers ▸ hb)
    delivered := hd.trans hi.delivered }

/-- The entry has received a part of the stream, or does not have its channel. -/
def Receiving (tr : Traffic) (p : PeerEntry) : Prop :=
  (p.channels[tr.ch.toNat]? = none ∧ p.deliveredOn tr.ch = [])
    ∨ ∃ r c k Q, r.entry = p ∧ tr.InFront r c k Q

/-- What arrives on the stream's channel is a command of the stream. -/
def Carries (tr : Traffic) : PeerOp → Prop
  | .recvReliable ch seq data => ch = tr.ch →
      ∃ x, tr.Valid x ∧ tr.whole x.msg = true ∧ seq = tr.key x.msg ∧ data = tr.data x.msg
  | .recvFragment ch sf reliable => ch = tr.ch →
      reliable = true ∧ ∃ x, tr.Valid x ∧ tr.whole x.msg = false
        ∧ sf = fragmentOf (tr.key x.msg) tr.sender.fp (tr.data x.msg) x.part
  | .recvUnreliable ch _ _ _ => ch ≠ tr.ch
  | _ => True

namespace Receiving

variable {h : HostTask} {p q : PeerEntry} {o : PeerOp} {nowMs : U32}

theorem delivered_first (hp : tr.Receiving p) : p.deliveredOn tr.ch <+: tr.msgs := by
  rcases hp with ⟨-, hnil⟩ | ⟨r, c, k, Q, rfl, hi⟩
  · rw [hnil]
    exact List.nil_prefix
  · exact hi.delivered_first

/-- What leaves the arrivals and deliveries of the channel alone. -/
theorem congr (hp : tr.Receiving p)
    (hnone : p.channels[tr.ch.toNat]? = none → q.channels[tr.ch.toNat]? = none)
    (hsome : ∀ c, p.channels[tr.ch.toNat]? = some c →
      ∃ c', q.channels[tr.ch.toNat]? = some c' ∧ SameIncoming c c')
    (hd : q.deliveredOn tr.ch = p.deliveredOn tr.ch) : tr.Receiving q := by
  rcases hp with ⟨hc, hnil⟩ | ⟨r, c, k, Q, rfl, hi⟩
  · exact .inl ⟨hnone hc, hd.trans hnil⟩
  · obtain ⟨c', hc', hs⟩ := hsome c hi.channel
    exact .inr ⟨_, c', k, Q, rfl, hi.congr hc' hs hd⟩

/-- An operation that brings nothing of the stream. -/
theorem elsewhere (hp : tr.Receiving p) (hg : o.Guard h p) (hlen : p.channels.length ≤ 255)
    (hc : o.channelOf = some tr.ch → ∀ c, SameIncoming c (o.channelStep p c))
    (hd : ∀ pkt, o.Hands pkt → pkt.channel = tr.ch → pkt.mode = .unsequenced) :
    tr.Receiving (o.apply nowMs p) := by
  have hchan : (o.apply nowMs p).channels[tr.ch.toNat]? = p.channels[tr.ch.toNat]?
      ∨ o.channelOf = some tr.ch ∧ (o.apply nowMs p).channels[tr.ch.toNat]?
        = (p.channels[tr.ch.toNat]?).map (o.channelStep p) := by
    cases ho : o.channelOf with
    | none => exact .inl (by rw [PeerOp.apply_channels_none nowMs p ho])
    | some ch =>
        rw [PeerOp.apply_channels ho hg hlen, List.getElem?_modify]
        by_cases hch : ch = tr.ch
        · subst hch
          exact .inr ⟨rfl, by simp⟩
        · have hne : ch.toNat ≠ tr.ch.toNat := fun heq => hch (BitVec.eq_of_toNat_eq heq)
          exact .inl (by simp [hne])
  refine hp.congr (fun hnone => ?_) (fun c hsome => ?_) ?_
  · rcases hchan with heq | ⟨-, heq⟩
    · rw [heq, hnone]
    · rw [heq, hnone]
      rfl
  · rcases hchan with heq | ⟨hon, heq⟩
    · exact ⟨c, by rw [heq, hsome], rfl, rfl, rfl, rfl⟩
    · exact ⟨_, by rw [heq, hsome]; rfl, hc hon c⟩
  · obtain ⟨pkts, hall, hdel, -⟩ := o.apply_hands nowMs p
    have hnone : pkts.filter (fun pkt => decide (pkt.channel = tr.ch ∧ pkt.mode ≠ .unsequenced))
        = [] := by
      refine List.filter_eq_nil_iff.mpr fun pkt hpkt hon => ?_
      have hon := of_decide_eq_true hon
      exact hon.2 (hd pkt (hall pkt hpkt) hon.1)
    rw [PeerEntry.deliveredOn_eq, PeerEntry.deliveredOn_eq, hdel, List.filter_append, hnone,
      List.append_nil]

/-- A command of the stream. -/
theorem onPiece (nowMs : U32) (hp : tr.Receiving p) (hrel : tr.AllReliable)
    (hsmall : tr.total < 32768) {x : Piece} (hv : tr.Valid x) :
    tr.Receiving (tr.onPiece nowMs p x) := by
  rcases hp with ⟨hc, hnil⟩ | ⟨r, c, k, Q, rfl, hi⟩
  · -- the entry does not have the channel: the command is dropped
    have hsame : (tr.onPiece nowMs p x).channels = p.channels
        ∧ (tr.onPiece nowMs p x).history = p.history := by
      simp only [Traffic.onPiece, hrel.reliable hv.1, if_true]
      split
      · simp [PeerEntry.onSendReliable, hc]
      · simp only [PeerEntry.onFragment, hc]
        split <;> exact ⟨rfl, rfl⟩
    exact .inl ⟨by rw [hsame.1, hc], (PeerEntry.deliveredOn_congr hsame.2 _).trans hnil⟩
  · obtain ⟨c', k', Q', hi'⟩ := hi.arrive (t := nowMs) hrel hsmall hv
    exact .inr ⟨_, c', k', Q', rfl, hi'⟩

/-- **One operation.** -/
theorem op (hp : tr.Receiving p) (hrel : tr.AllReliable) (hsmall : tr.total < 32768)
    (hg : o.Guard h p) (hlen : p.channels.length ≤ 255) (ho : tr.Carries o) :
    tr.Receiving (o.apply nowMs p) := by
  cases o with
  | recvReliable ch seq data =>
      by_cases hch : ch = tr.ch
      · obtain ⟨x, hv, hw, rfl, rfl⟩ := ho hch
        have hpiece := hp.onPiece nowMs hrel hsmall hv
        simp only [Traffic.onPiece, hrel.reliable hv.1, hw, if_true] at hpiece
        rw [hch]
        exact hpiece
      · exact hp.elsewhere hg hlen (fun heq => absurd (Option.some.inj heq) hch)
          fun pkt hand heq => absurd (hand.2.symm.trans heq) hch
  | recvFragment ch sf reliable =>
      by_cases hch : ch = tr.ch
      · obtain ⟨rfl, x, hv, hw, rfl⟩ := ho hch
        have hpiece := hp.onPiece nowMs hrel hsmall hv
        simp only [Traffic.onPiece, hrel.reliable hv.1, hw, if_true, Bool.false_eq_true,
          if_false] at hpiece
        rw [hch]
        exact hpiece
      · refine hp.elsewhere hg hlen (fun heq => absurd (Option.some.inj heq) hch)
          fun pkt hand heq => ?_
        cases reliable <;> exact absurd (hand.2.symm.trans heq) hch
  | recvUnreliable ch rseq useq data =>
      exact hp.elsewhere hg hlen (fun heq => absurd (Option.some.inj heq) ho)
        fun pkt hand heq => absurd (hand.2.symm.trans heq) ho
  | recvUnsequenced group data =>
      refine hp.elsewhere hg hlen (fun heq => absurd heq (Option.some_ne_none _).symm)
        fun pkt hand _ => ?_
      rw [hand]
  | numberWhole pkt =>
      exact hp.elsewhere hg hlen (fun _ _ => ⟨rfl, rfl, rfl, rfl⟩) fun _ => False.elim
  | numberFragments pkt fp =>
      exact hp.elsewhere hg hlen (fun _ _ => ⟨rfl, rfl, rfl, rfl⟩) fun _ => False.elim
  | nextUnreliable ch c =>
      exact hp.elsewhere hg hlen (fun _ _ => ⟨rfl, rfl, rfl, rfl⟩) fun _ => False.elim
  | nextUnsequenced ch c =>
      exact hp.elsewhere hg hlen (fun _ _ => ⟨rfl, rfl, rfl, rfl⟩) fun _ => False.elim
  | _ =>
      exact hp.elsewhere hg hlen (fun heq => absurd heq (Option.some_ne_none _).symm)
        fun _ => False.elim

/-- A new entry. -/
theorem of_starts (hch : ∀ c, p.channels[tr.ch.toNat]? = some c → c = Channel.new)
    (hnil : p.deliveredOn tr.ch = []) : tr.Receiving p := by
  cases hc : p.channels[tr.ch.toNat]? with
  | none => exact .inl ⟨hc, hnil⟩
  | some c =>
      obtain rfl := hch c hc
      exact .inr ⟨_, _, _, _, rfl, .begins ⟨hc, hnil⟩⟩

end Receiving

end Traffic

end EnetRs
