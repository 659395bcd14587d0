/-
  EnetRs.Reassembly.InOrder — reliable messages, in order and complete.

  `receive_reliable` counts a message as one number, also when it takes a
  message put together from fragments out of its queue; only `on_fragment`
  itself, for a message that is due, moves the counter over all the numbers of
  the fragments.  So the channel stands still for good behind a fragmented
  message that was complete before its turn.  Where this does not happen, the
  deliveries are the messages sent, up to the first one that is not complete.

  Main results:
    * `Traffic.InOrder.arrive` — one command.
    * `reliable_delivery_in_order` — every sequence of arrivals.
-/
import EnetRs.Reassembly.Invariant

namespace EnetRs

open MachineInt

namespace Traffic

variable {tr : Traffic} {r : Reception} {x : Piece} {c c' : Channel} {k : Nat} {l : List Nat}
  {Q : Finset Nat} {t : U32}

/-! ## §1. Numbers of a reliable stream. -/

/-- Every message is reliable. -/
def AllReliable (tr : Traffic) : Prop := ∀ m ∈ tr.msgs, m.mode = .reliable

instance : Decidable tr.AllReliable := by
  unfold AllReliable
  infer_instance

section Numbers

variable (hrel : tr.AllReliable)

include hrel

theorem AllReliable.reliable {i : Nat} (hi : i < tr.msgs.length) : tr.reliable i = true := by
  rw [reliable_eq (List.getElem?_eq_getElem hi), hrel _ (List.getElem_mem hi)]
  rfl

theorem AllReliable.succ {i : Nat} (hi : i < tr.msgs.length) :
    tr.reliableBefore (i + 1) = tr.reliableBefore i + tr.pieces i := by
  rw [reliableBefore_succ, hrel.reliable hi, if_pos rfl]

/-- The numbers of earlier messages are smaller. -/
theorem AllReliable.lt {i j : Nat} (hi : i < tr.msgs.length) (hij : i < j) :
    tr.reliableBefore i < tr.reliableBefore j := by
  have hstep := hrel.succ hi
  have hpos := tr.pieces_pos hi
  have hmono := tr.reliableBefore_mono (Nat.succ_le_of_lt hij)
  rw [Nat.succ_eq_add_one] at hmono
  omega

/-- The message that starts after the first `k` is number `k`. -/
theorem AllReliable.eq_of_start {i : Nat} (hi : i < tr.msgs.length) (hk : k ≤ tr.msgs.length)
    (hstart : tr.start i = tr.reliableBefore k + 1) : i = k := by
  rw [start_of_reliable (hrel.reliable hi)] at hstart
  rcases Nat.lt_trichotomy i k with hlt | rfl | hgt
  · have hlt' := hrel.lt hi hlt
    omega
  · rfl
  · have hlt' := hrel.lt (Nat.lt_trans hgt hi) hgt
    omega

/-- Messages in one piece that have consecutive numbers are consecutive. -/
theorem AllReliable.inTurn : ∀ {l : List Nat} {k : Nat}, k ≤ tr.msgs.length →
    InTurn tr.start (tr.reliableBefore k) l → (∀ i ∈ l, i < tr.msgs.length ∧ tr.whole i = true) →
    l = List.range' k l.length ∧ k + l.length ≤ tr.msgs.length
      ∧ tr.reliableBefore (k + l.length) = tr.reliableBefore k + l.length := by
  intro l
  induction l with
  | nil => exact fun hk _ _ => ⟨rfl, hk, rfl⟩
  | cons i l ih =>
      rintro k hk ⟨hi, hl⟩ hmem
      obtain ⟨hlt, hw⟩ := hmem i List.mem_cons_self
      obtain rfl := hrel.eq_of_start hlt hk hi
      have hsucc := hrel.succ hlt
      rw [pieces_of_whole hw] at hsucc
      rw [← hsucc] at hl
      obtain ⟨hrange, hle, hsum⟩ := ih (k := i + 1) hlt hl
        fun j hj => hmem j (List.mem_cons_of_mem _ hj)
      rw [List.length_cons, List.range'_succ, ← hrange]
      refine ⟨rfl, by omega, ?_⟩
      rw [show i + (l.length + 1) = i + 1 + l.length by omega, hsum]
      omega

end Numbers

/-! ## §2. The invariant. -/

/-- **What holds between the commands**: the first `k` messages are delivered,
the messages in one piece that came early are queued, and every fragment of a
message still to come is in its buffer. -/
structure InOrder (tr : Traffic) (r : Reception) (c : Channel) (k : Nat) (Q : Finset Nat) : Prop
    extends tr.Ordered r c (List.range k) Q where
  le : k ≤ tr.msgs.length
  upTo : r.reliable = tr.reliableBefore k
  inOnePiece : ∀ i ∈ Q, tr.whole i = true
  queued : ∀ i, k ≤ i → tr.whole i = true → ⟨i, 0⟩ ∈ r.past → i ∈ Q
  buffered : ∀ i j, k ≤ i → tr.whole i = false → ⟨i, j⟩ ∈ r.past →
    ∃ b, c.fragmentBuffers[tr.key i]? = some b ∧ r.owner (tr.key i) = some i
      ∧ BitArray.testBit b.mask j = true

namespace InOrder

theorem begins {p : PeerEntry} (hp : tr.Fresh p) : tr.InOrder (begins p) Channel.new 0 ∅ :=
  { Ordered.begins hp with
    le := Nat.zero_le _
    upTo := rfl
    inOnePiece := by simp
    queued := by simp [Traffic.begins]
    buffered := by simp [Traffic.begins] }

/-- A fragmented message still to come is not complete. -/
theorem missing (hi : tr.InOrder r c k Q) {i : Nat} (hki : k ≤ i) (hlt : i < tr.msgs.length)
    (hcut : tr.whole i = false) : ¬ tr.Complete r.past i := by
  intro hall
  have hpos := tr.pieces_pos hlt
  obtain ⟨b, hb, howner, -⟩ := hi.buffered i 0 hki hcut (hall 0 hpos)
  obtain ⟨i', S, howner', -, hkeeps⟩ := hi.buffers _ b hb
  cases howner.symm.trans howner'
  -- its buffer would hold every fragment
  have hsub : Finset.range (tr.pieces i) ⊆ S := by
    intro j hj
    obtain ⟨b', hb', -, hbit⟩ := hi.buffered i j hki hcut (hall j (Finset.mem_range.mp hj))
    cases hb.symm.trans hb'
    rw [hkeeps.holds.bits] at hbit
    exact of_decide_eq_true hbit
  have hcard := Finset.card_le_card hsub
  rw [Finset.card_range] at hcard
  have hmore := hkeeps.more
  omega

/-- **The next message is not complete.** -/
theorem not_complete (hi : tr.InOrder r c k Q) (hrel : tr.AllReliable)
    (hk : k < tr.msgs.length) : ¬ tr.Complete r.past k := by
  cases hw : tr.whole k with
  | false => exact hi.missing (Nat.le_refl k) hk hw
  | true =>
      intro hall
      have hmem := hi.queued k (Nat.le_refl k) hw (hall 0 (tr.pieces_pos hk))
      refine hi.stuck k hmem ?_
      rw [start_of_reliable (hrel.reliable hk), hi.upTo]

/-- A message whose numbers are used up was delivered. -/
theorem lt_of_start_le (hi : tr.InOrder r c k Q) (hrel : tr.reliable x.msg = true)
    (hle : tr.start x.msg ≤ r.reliable) : x.msg < k := by
  by_contra hge
  have hmono := tr.reliableBefore_mono (Nat.le_of_not_lt hge)
  rw [start_of_reliable hrel, hi.upTo] at hle
  omega

/-! ## §3. Commands. -/

/-- A fragment does not touch the buffer of another message. -/
theorem key_ne (hi : tr.InOrder r c k Q) (hown : tr.JoinsOwn r x) (hcut : tr.whole x.msg = false)
    {i : Nat} {b : FragmentBuffer} (hb : c.fragmentBuffers[tr.key i]? = some b)
    (howner : r.owner (tr.key i) = some i) (hne : i ≠ x.msg) : tr.key x.msg ≠ tr.key i := by
  intro hkey
  have hcontains : (tr.chan r.entry).fragmentBuffers.contains (tr.key x.msg) = true := by
    rw [chan_of_getElem? hi.channel, hkey, Std.ExtTreeMap.contains_eq_isSome_getElem?, hb]
    rfl
  have heq := hown hcut hcontains
  rw [hkey, howner] at heq
  exact hne (Option.some.inj heq)

/-- The buffers of the other messages are still there. -/
def SparesOthers (tr : Traffic) (r : Reception) (x : Piece) (c c' : Channel) : Prop :=
  ∀ i b, i ≠ x.msg → c.fragmentBuffers[tr.key i]? = some b → r.owner (tr.key i) = some i →
    c'.fragmentBuffers[tr.key i]? = some b

theorem spares_of_eq (hbuf : c'.fragmentBuffers = c.fragmentBuffers) :
    SparesOthers tr r x c c' :=
  fun _ _ _ hb _ => hbuf ▸ hb

theorem spares_of_erase (hi : tr.InOrder r c k Q) (hown : tr.JoinsOwn r x)
    (hcut : tr.whole x.msg = false)
    (hbuf : c'.fragmentBuffers = c.fragmentBuffers.erase (tr.key x.msg)) :
    SparesOthers tr r x c c' := by
  intro i b hne hb howner
  have hkey := hi.key_ne hown hcut hb howner hne
  rw [hbuf, Std.ExtTreeMap.getElem?_erase, if_neg (by simpa using hkey)]
  exact hb

theorem spares_of_insert (hi : tr.InOrder r c k Q) (hown : tr.JoinsOwn r x)
    (hcut : tr.whole x.msg = false) {b₁ : FragmentBuffer}
    (hbuf : c'.fragmentBuffers = c.fragmentBuffers.insert (tr.key x.msg) b₁) :
    SparesOthers tr r x c c' := by
  intro i b hne hb howner
  have hkey := hi.key_ne hown hcut hb howner hne
  rw [hbuf, Std.ExtTreeMap.getElem?_insert, if_neg (by simpa using hkey)]
  exact hb

/-- What arrived of another message had arrived before. -/
theorem past_of_ne {i j : Nat} (hmem : ⟨i, j⟩ ∈ (tr.arrive r (t, x)).past) (hne : i ≠ x.msg) :
    ⟨i, j⟩ ∈ r.past := by
  refine (List.mem_append.mp hmem).resolve_right fun heq => hne ?_
  have heq : ⟨i, j⟩ = x := List.mem_singleton.mp heq
  rw [← heq]

/-- The fragments of the other messages stay where they are. -/
theorem buffered_other (hi : tr.InOrder r c k Q) (hspare : SparesOthers tr r x c c')
    {i j : Nat} (hki : k ≤ i) (hcut : tr.whole i = false) (hne : i ≠ x.msg)
    (hmem : ⟨i, j⟩ ∈ (tr.arrive r (t, x)).past) :
    ∃ b, c'.fragmentBuffers[tr.key i]? = some b ∧ (tr.arrive r (t, x)).owner (tr.key i) = some i
      ∧ BitArray.testBit b.mask j = true := by
  obtain ⟨b, hb, howner, hbit⟩ := hi.buffered i j hki hcut (past_of_ne hmem hne)
  exact ⟨b, hspare i b hne hb howner, (owner_arrive hi.channel hb t).trans howner, hbit⟩

/-- A command of a message that was delivered changes nothing. -/
theorem old (hi : tr.InOrder r c k Q) (hord : tr.Ordered (tr.arrive r (t, x)) c' (List.range k) Q)
    (hspare : SparesOthers tr r x c c') (hT : (tr.arrive r (t, x)).reliable = r.reliable)
    (hlt : x.msg < k) : tr.InOrder (tr.arrive r (t, x)) c' k Q := by
  have hne : ∀ {i}, k ≤ i → i ≠ x.msg := fun hki => Nat.ne_of_gt (Nat.lt_of_lt_of_le hlt hki)
  exact
    { hord with
      le := hi.le
      upTo := hT.trans hi.upTo
      inOnePiece := hi.inOnePiece
      queued := fun i hki hw hmem => hi.queued i hki hw (past_of_ne hmem (hne hki))
      buffered := fun i j hki hcut hmem => hi.buffered_other hspare hki hcut (hne hki) hmem }

/-- The message that is due is handed out, with those waiting for it. -/
theorem due {c₀ : Channel} {l₁ : List Nat} (hi : tr.InOrder r c k Q) (hrel : tr.AllReliable)
    (hv : tr.Valid x) (hown : tr.JoinsOwn r x) (ht : Trimmed c c₀) (hn : tr.pieces x.msg ≤ 32768)
    (starts : tr.start x.msg = r.reliable + 1)
    (drained : QueueDrained tr.start tr.data c₀ (r.reliable + tr.pieces x.msg) Q l₁ c')
    (harr : tr.Complete (r.past ++ [x]) x.msg) (hspare : SparesOthers tr r x c c')
    (hc' : (tr.onPiece t r.entry x).channels[tr.ch.toNat]? = some c')
    (hh : (tr.onPiece t r.entry x).history
      = r.entry.history ++ PeerEntry.deliveries tr.ch .reliable ((x.msg :: l₁).map tr.data)) :
    tr.InOrder (tr.arrive r (t, x)) c' (k + 1 + l₁.length) (Q \ l₁.toFinset) := by
  have hord := hi.now (hrel.reliable hv.1) hown ht (tr.pieces_pos hv.1) hn starts drained harr hc' hh
  have hle := drained.le (fun i hiQ => (hi.queue.ahead i hiQ).2) (by omega)
  have hT := hi.reliable_arrive hc' drained.queue.incoming ⟨by omega, by omega⟩
  rw [hi.upTo] at starts
  have heq := hrel.eq_of_start hv.1 hi.le starts
  have hk : k < tr.msgs.length := heq ▸ hv.1
  have hsucc := hrel.succ hk
  rw [hi.upTo, heq, ← hsucc] at hT
  have hturn := drained.inTurn
  rw [hi.upTo, heq, ← hsucc] at hturn
  -- the messages that were waiting are the next ones
  obtain ⟨hrange, hlen, hsum⟩ := hrel.inTurn (k := k + 1) hk hturn fun i hil =>
    ⟨lt_of_reliable (hi.held i (drained.mem i hil)), hi.inOnePiece i (drained.mem i hil)⟩
  have hlist : List.range k ++ x.msg :: l₁ = List.range (k + 1 + l₁.length) := by
    have happ : List.range' 0 k ++ List.range' (0 + k) (l₁.length + 1)
        = List.range' 0 (k + (l₁.length + 1)) := List.range'_append_1 ..
    rw [Nat.zero_add, List.range'_succ, ← hrange] at happ
    rw [heq, List.range_eq_range', List.range_eq_range', happ, Nat.add_assoc,
      Nat.add_comm 1 l₁.length]
  rw [hlist] at hord
  have hne : ∀ {i}, k + 1 + l₁.length ≤ i → i ≠ x.msg := by
    intro i hki
    omega
  exact
    { hord with
      le := hlen
      upTo := hT.trans hsum.symm
      inOnePiece := fun i hiQ => hi.inOnePiece i (Finset.mem_sdiff.mp hiQ).1
      queued := fun i hki hw hmem => by
        have hiQ := hi.queued i (by omega) hw (past_of_ne hmem (hne hki))
        refine Finset.mem_sdiff.mpr ⟨hiQ, fun hil => ?_⟩
        rw [List.mem_toFinset, hrange, List.mem_range'_1] at hil
        omega
      buffered := fun i j hki hcut hmem =>
        hi.buffered_other hspare (by omega) hcut (hne hki) hmem }

/-- A message in one piece that comes early waits. -/
theorem early (hi : tr.InOrder r c k Q) (hw : tr.whole x.msg = true)
    (hord : tr.Ordered (tr.arrive r (t, x)) c' (List.range k) (insert x.msg Q))
    (hspare : SparesOthers tr r x c c') (hT : (tr.arrive r (t, x)).reliable = r.reliable) :
    tr.InOrder (tr.arrive r (t, x)) c' k (insert x.msg Q) :=
  { hord with
    le := hi.le
    upTo := hT.trans hi.upTo
    inOnePiece := fun i hiQ => by
      rcases Finset.mem_insert.mp hiQ with rfl | hiQ
      · exact hw
      · exact hi.inOnePiece i hiQ
    queued := fun i hki hwi hmem => by
      by_cases hix : i = x.msg
      · exact Finset.mem_insert.mpr (.inl hix)
      · exact Finset.mem_insert_of_mem (hi.queued i hki hwi (past_of_ne hmem hix))
    buffered := fun i j hki hcut hmem => by
      refine hi.buffered_other hspare hki hcut ?_ hmem
      rintro rfl
      rw [hw] at hcut
      cases hcut }

/-! ## §4. Messages in one piece. -/

theorem arrive_whole (hi : tr.InOrder r c k Q) (hrel : tr.AllReliable) (hv : tr.Valid x)
    (hw : tr.whole x.msg = true) (hnear : Near (r.reliable + 1) (tr.start x.msg))
    (hown : tr.JoinsOwn r x)
    (hcap : r.reliable + 1 < tr.start x.msg →
      c.incomingReliableQueue.size < maxIncomingReliableQueue) :
    ∃ c' k' Q', tr.InOrder (tr.arrive r (t, x)) c' k' Q' := by
  have hrelx := hrel.reliable hv.1
  have hpiece : tr.onPiece t r.entry x
      = r.entry.onSendReliable tr.ch (tr.key x.msg) (tr.data x.msg) t := by
    simp [onPiece, hrelx, hw]
  obtain ⟨hchan, hh⟩ := PeerEntry.onSendReliable_eq hi.channel (tr.key x.msg) (tr.data x.msg) t
  rw [← hpiece] at hchan hh
  have hs := hi.queue.receive hi.stuck hnear (start_inj_of_held hi.held hrelx)
  have harr := complete_of_whole (r := r) hv hw
  have hone := pieces_of_whole hw
  rw [← hone] at hs
  change Served tr.start tr.data c r.reliable Q x.msg (tr.pieces x.msg)
    (c.receiveReliable (tr.key x.msg) (tr.data x.msg)) at hs
  generalize c.receiveReliable (tr.key x.msg) (tr.data x.msg) = out at hs hchan hh
  have hc' := Collections.getElem?_of_eq_set hi.channel hchan
  cases hs with
  | now starts drained =>
      exact ⟨_, _, _, hi.due hrel hv hown (.refl c) (by omega) starts drained harr
        (spares_of_eq drained.frame.1) hc' hh⟩
  | held ahead queue frame =>
      have hord := hi.hold hrelx hown (.refl c) ahead queue frame harr hc'
        (hh.trans (List.append_nil _))
      exact ⟨_, _, _, hi.early hw hord (spares_of_eq frame.1)
        (hi.reliable_arrive hc' queue.incoming ⟨Nat.le_refl _, by omega⟩)⟩
  | dropped behind =>
      have hle : tr.start x.msg ≤ r.reliable :=
        behind.resolve_right fun hfull => Nat.not_le.mpr (hcap hfull.1) hfull.2
      have hord := hi.quiet hown hc' hi.queue rfl (fun _ _ hb => .inl hb)
        (hh.trans (List.append_nil _))
      exact ⟨_, _, _, hi.old hord (spares_of_eq rfl)
        (hi.reliable_arrive hc' hi.queue.incoming ⟨Nat.le_refl _, by omega⟩)
        (hi.lt_of_start_le hrelx hle)⟩

/-! ## §5. Fragments. -/

/-- The buffer holds what has arrived of a message still to come. -/
theorem mem_of_past (hi : tr.InOrder r c k Q) {S : Finset Nat} (hcol : tr.Collected r c x.msg S)
    (hcut : tr.whole x.msg = false) (hkx : k ≤ x.msg) {j : Nat} (hmem : ⟨x.msg, j⟩ ∈ r.past) :
    j ∈ S := by
  obtain ⟨b, hb, -, hbit⟩ := hi.buffered x.msg j hkx hcut hmem
  rcases hcol.buffer with ⟨hnone, -⟩ | ⟨b', hb', hholds⟩
  · rw [hb] at hnone
    cases hnone
  · cases hb.symm.trans hb'
    rw [hholds.bits] at hbit
    exact of_decide_eq_true hbit

/-- A fragment was stored. -/
theorem stored (hi : tr.InOrder r c k Q) {S : Finset Nat} {b : FragmentBuffer}
    (hcol : tr.Collected r c x.msg S) (hcut : tr.whole x.msg = false) (hown : tr.JoinsOwn r x)
    (holds : Holds b tr.sender.fp (tr.data x.msg) (insert x.part S))
    (hbuf : c'.fragmentBuffers = c.fragmentBuffers.insert (tr.key x.msg) b)
    (hord : tr.Ordered (tr.arrive r (t, x)) c' (List.range k) Q)
    (hT : (tr.arrive r (t, x)).reliable = r.reliable) :
    tr.InOrder (tr.arrive r (t, x)) c' k Q :=
  { hord with
    le := hi.le
    upTo := hT.trans hi.upTo
    inOnePiece := hi.inOnePiece
    queued := fun i hki hw hmem => by
      refine hi.queued i hki hw (past_of_ne hmem ?_)
      rintro rfl
      rw [hw] at hcut
      cases hcut
    buffered := fun i j hki hcuti hmem => by
      by_cases hix : i = x.msg
      · subst hix
        refine ⟨b, by rw [hbuf, Std.ExtTreeMap.getElem?_insert_self], ?_, ?_⟩
        · simp only [Traffic.arrive]
          split
          · next hyes => exact hown hcut hyes
          · exact Function.update_self ..
        · rw [holds.bits, decide_eq_true_eq, Finset.mem_insert]
          rcases List.mem_append.mp hmem with hpast | hnow
          · exact .inr (hi.mem_of_past hcol hcut hki hpast)
          · have heq : ⟨x.msg, j⟩ = x := List.mem_singleton.mp hnow
            exact .inl (congrArg Piece.part heq)
      · exact hi.buffered_other (hi.spares_of_insert hown hcut hbuf) hki hcuti hix hmem }

end InOrder

/-- No cap is hit: the queue has room for a message that comes early, and no
limit of `on_fragment` refuses a fragment. -/
def Uncapped (tr : Traffic) (r : Reception) (x : Piece) : Prop :=
  (tr.whole x.msg = true → r.reliable + 1 < tr.start x.msg →
      (tr.chan r.entry).incomingReliableQueue.size < maxIncomingReliableQueue)
    ∧ (tr.whole x.msg = false →
      PeerEntry.fragmentMalformed
          (fragmentOf (tr.key x.msg) tr.sender.fp (tr.data x.msg) x.part) = false
        ∧ r.entry.fragmentRefused (tr.chan r.entry)
          (fragmentOf (tr.key x.msg) tr.sender.fp (tr.data x.msg) x.part) = false)

/-- If the command is the last missing fragment of its message, every earlier
message is complete. -/
def CompletesInTurn (tr : Traffic) (r : Reception) (x : Piece) : Prop :=
  tr.whole x.msg = false → x ∉ r.past →
    (∀ j < tr.pieces x.msg, j ≠ x.part → ⟨x.msg, j⟩ ∈ r.past) → ∀ i < x.msg, tr.Complete r.past i

instance (r : Reception) (x : Piece) : Decidable (tr.Uncapped r x) := by
  unfold Uncapped
  infer_instance

instance (r : Reception) (x : Piece) : Decidable (tr.CompletesInTurn r x) := by
  unfold CompletesInTurn
  infer_instance

namespace InOrder

/-- The last fragment of a message still to come is that of the message that is
due. -/
theorem le_of_last (hi : tr.InOrder r c k Q) (hrel : tr.AllReliable) {S : Finset Nat}
    (hcol : tr.Collected r c x.msg S) (hv : tr.Valid x) (hcut : tr.whole x.msg = false)
    (hturn : tr.CompletesInTurn r x) (hnew : x.part ∉ S)
    (hall : (insert x.part S).card = fragCount tr.sender.fp (tr.data x.msg)) : x.msg ≤ k := by
  by_contra hgt
  have hkx : k < x.msg := Nat.lt_of_not_le hgt
  have hpast : x ∉ r.past := fun hmem => hnew (hi.mem_of_past hcol hcut hkx.le hmem)
  refine hi.not_complete hrel (Nat.lt_trans hkx hv.1) (hturn hcut hpast (fun j hj hne => ?_) k hkx)
  rw [← Finset.mem_range, ← hcol.insert_eq_range hv hcut hall] at hj
  exact hcol.arrived j (Finset.mem_of_mem_insert_of_ne hj hne)

theorem arrive_cut (hi : tr.InOrder r c k Q) (hrel : tr.AllReliable) (hv : tr.Valid x)
    (hcut : tr.whole x.msg = false) (hnear : Near (r.reliable + 1) (tr.start x.msg + x.part))
    (hstart : Near (r.reliable + 1) (tr.start x.msg)) (hown : tr.JoinsOwn r x)
    (hcap : tr.Uncapped r x) (hturn : tr.CompletesInTurn r x) :
    ∃ c' k' Q', tr.InOrder (tr.arrive r (t, x)) c' k' Q' := by
  have hrelx := hrel.reliable hv.1
  obtain ⟨S, hcol⟩ := hi.buffers.collected hi.channel hv hcut hown
  have htaken := hcol.taken hv hcut hi.channel t
  rw [hrelx] at htaken
  cases htaken with
  | dropped cause channels history =>
      obtain ⟨hmal, href⟩ := hcap.2 hcut
      rw [chan_of_getElem? hi.channel] at href
      simp [hmal, href] at cause
  | stored b holds more channels history =>
      have hc' := Collections.getElem?_of_eq_set hi.channel channels
      have hord := hi.quiet hown hc'
        ⟨hi.queue.incoming, hi.queue.queue, hi.queue.ahead, hi.queue.inj⟩ rfl
        (hcol.buffersAfter hv hcut (fun _ => hnear) holds more) history
      exact ⟨_, _, _, hi.stored hcol hcut hown holds rfl hord
        (hi.reliable_arrive hc' hi.queue.incoming ⟨Nat.le_refl _, by omega⟩)⟩
  | last new all channels history =>
      have ht := Trimmed.erase c (tr.key x.msg)
      have hs := hi.release ht hv hrelx hcut hstart
      have hle := hi.le_of_last hrel hcol hv hcut hturn new all
      -- a message that is not ahead is not queued
      have hnot : ¬ r.reliable + 1 < tr.start x.msg := by
        have hmono := tr.reliableBefore_mono hle
        rw [start_of_reliable hrelx, hi.upTo]
        omega
      generalize PeerEntry.releaseAssembled _ _ true (tr.data x.msg) = out at hs channels history
      have hc' := Collections.getElem?_of_eq_set hi.channel channels
      cases hs with
      | now starts drained =>
          have hn := Ordered.pieces_le hcol hv hcut hrelx hnear
            (hcol.insert_eq_range hv hcut all) starts
          exact ⟨_, _, _, hi.due hrel hv hown ht hn starts drained (hcol.complete hv hcut all)
            (hi.spares_of_erase hown hcut drained.frame.1) hc' history⟩
      | held ahead queue frame => exact absurd ahead hnot
      | dropped behind =>
          have hord := hi.quiet hown hc' (ht.queueIs hi.queue) rfl
            (fun key b hb => .inl (ht.buffers key b hb)) (history.trans (List.append_nil _))
          exact ⟨_, _, _, hi.old hord (hi.spares_of_erase hown hcut rfl)
            (hi.reliable_arrive hc' hi.queue.incoming ⟨Nat.le_refl _, by omega⟩)
            (hi.lt_of_start_le hrelx (behind.resolve_right fun hahead => hnot hahead.1))⟩

/-- **One command.** -/
theorem arrive (hi : tr.InOrder r c k Q) (hrel : tr.AllReliable) (hv : tr.Valid x)
    (hnear : Near (r.reliable + 1) (tr.start x.msg + x.part)) (hcap : tr.Uncapped r x)
    (hown : tr.JoinsOwn r x) (hstart : Near (r.reliable + 1) (tr.start x.msg))
    (hturn : tr.CompletesInTurn r x) :
    ∃ c' k' Q', tr.InOrder (tr.arrive r (t, x)) c' k' Q' := by
  cases hw : tr.whole x.msg with
  | true =>
      refine hi.arrive_whole hrel hv hw hstart hown ?_
      rw [← chan_of_getElem? hi.channel]
      exact hcap.1 hw
  | false => exact hi.arrive_cut hrel hv hw hnear hstart hown hcap hturn

end InOrder

end Traffic

/-! ## §6. Every sequence of arrivals. -/

open Traffic in
/-- **Reliable messages are delivered in order, once and completely**, where no
fragmented message is complete before those sent earlier, every `start_seq` that
arrives is within half the number space of the expected number, and no fragment
joins another message's buffer. -/
theorem reliable_delivery_in_order (tr : Traffic) (hrel : tr.AllReliable) (p : PeerEntry)
    (hp : tr.Fresh p) (is : List (U32 × Piece))
    (hrange : Transition.Meets (fun r i => some (tr.arrive r i))
      (fun r i => tr.Valid i.2 ∧ Near (r.reliable + 1) (tr.start i.2.msg + i.2.part)
        ∧ tr.Uncapped r i.2) (begins p) is)
    (hm : Transition.Meets (fun r i => some (tr.arrive r i))
      (fun r i => tr.JoinsOwn r i.2 ∧ Near (r.reliable + 1) (tr.start i.2.msg)
        ∧ tr.CompletesInTurn r i.2) (begins p) is) :
    ∃ k ≤ tr.msgs.length,
      (tr.receiveAll (begins p) is).entry.deliveredOn tr.ch = tr.msgs.take k
        ∧ (∀ i < k, tr.Complete (is.map (·.2)) i)
        ∧ (k < tr.msgs.length → ¬ tr.Complete (is.map (·.2)) k) := by
  have hboth := hrange.and hm
  obtain ⟨c, k, Q, hi⟩ : ∃ c k Q, tr.InOrder (tr.receiveAll (begins p) is) c k Q := by
    refine receiveAll_invariant (I := fun r => ∃ c k Q, tr.InOrder r c k Q) ?_
      ⟨_, _, _, InOrder.begins hp⟩ hboth
    rintro r ⟨t, x⟩ ⟨c, k, Q, hi⟩ ⟨⟨hv, hnear, hcap⟩, hown, hstart, hturn⟩
    exact hi.arrive hrel hv hnear hcap hown hstart hturn
  have hpast : (tr.receiveAll (begins p) is).past = is.map (·.2) := receiveAll_past (begins p) is
  rw [← hpast]
  refine ⟨k, hi.le, ?_, fun i hik => hi.arrived i (.inl (List.mem_range.mpr hik)),
    hi.not_complete hrel⟩
  rw [hi.delivered]
  exact map_packet_range hi.le

/-- A reliable byte, a message in two fragments and another byte. -/
def threeMessages : Traffic :=
  { sender := ⟨576, false, Sender.mtuMin_le⟩
    ch := 0
    msgs := [⟨[9], 0, .reliable⟩, ⟨List.replicate 567 7, 0, .reliable⟩, ⟨[8], 0, .reliable⟩]
    channel := by decide
    mode := by decide
    length := by decide +kernel }

/-- The third message first, the fragments the wrong way round, one of them
twice. -/
theorem reliable_delivery_in_order_shuffled :
    ∃ k ≤ threeMessages.msgs.length,
      (threeMessages.receiveAll (Traffic.begins newcomer)
          [(5, ⟨2, 0⟩), (5, ⟨1, 1⟩), (6, ⟨0, 0⟩), (6, ⟨1, 1⟩), (7, ⟨1, 0⟩)]).entry.deliveredOn
          threeMessages.ch = threeMessages.msgs.take k
        ∧ (∀ i < k, threeMessages.Complete
          ([(5, ⟨2, 0⟩), (5, ⟨1, 1⟩), (6, ⟨0, 0⟩), (6, ⟨1, 1⟩), (7, ⟨1, 0⟩)].map
            ((·.2) : U32 × Piece → Piece)) i)
        ∧ (k < threeMessages.msgs.length → ¬ threeMessages.Complete
          ([(5, ⟨2, 0⟩), (5, ⟨1, 1⟩), (6, ⟨0, 0⟩), (6, ⟨1, 1⟩), (7, ⟨1, 0⟩)].map
            ((·.2) : U32 × Piece → Piece)) k) :=
  reliable_delivery_in_order threeMessages (by decide +kernel) newcomer ⟨rfl, rfl⟩ _
    (by decide +kernel) (by decide +kernel)

open Traffic in
/-- **The channel stands still behind a fragmented message that was complete
before its turn**: every command has arrived, two messages are delivered, and the
third one is not. -/
theorem early_fragments_stall :
    threeMessages.AllReliable ∧ threeMessages.Fresh newcomer
      ∧ Transition.Meets (fun r i => some (threeMessages.arrive r i))
          (fun r i => threeMessages.Valid i.2
            ∧ Near (r.reliable + 1) (threeMessages.start i.2.msg + i.2.part)
            ∧ threeMessages.Uncapped r i.2
            ∧ (threeMessages.chan r.entry).incomingReliableQueue.size < maxIncomingReliableQueue)
          (begins newcomer) [(5, ⟨1, 0⟩), (5, ⟨1, 1⟩), (6, ⟨0, 0⟩), (7, ⟨2, 0⟩)]
      ∧ (∀ i < 3, threeMessages.Complete [⟨1, 0⟩, ⟨1, 1⟩, ⟨0, 0⟩, ⟨2, 0⟩] i)
      ∧ (threeMessages.receiveAll (begins newcomer)
          [(5, ⟨1, 0⟩), (5, ⟨1, 1⟩), (6, ⟨0, 0⟩), (7, ⟨2, 0⟩)]).entry.deliveredOn threeMessages.ch
        = threeMessages.msgs.take 2 :=
  ⟨by decide +kernel, ⟨rfl, rfl⟩, by decide +kernel, by decide +kernel, by decide +kernel⟩

end EnetRs
