/-
  EnetRs.Reassembly.Queue — the reliable stream of one channel.

  The numbers on the wire have 16 bits; here every message `i` also has its
  true start number `start i`, counted from the beginning of the connection.
  `QueueIs c T Q` says that the channel has consumed the numbers up to `T` and
  holds the messages in `Q` back.  As long as the start numbers that arrive lie
  within half the number space of the expected one, the 16-bit comparisons of
  `receive_reliable` decide as the true numbers do.

  Main results:
    * `QueueIs.drain` — what the drain loop hands out, and that it stops only
      when the next message is missing.
    * `QueueIs.receive`, `QueueIs.release` — a message in one piece, a message
      put together from fragments.
-/
import EnetRs.Lib.Serial
import EnetRs.Reassembly.Accounting
import EnetRs.Reassembly.Buffer

namespace EnetRs

open MachineInt

/-! ## §1. The 16-bit comparison. -/

/-- The number `y` lies within half the number space around `x`: the
comparison of their 16-bit forms is that of the counts. -/
def Near (x y : Nat) : Prop := y ≤ x + 32767 ∧ x ≤ y + 32768

instance (x y : Nat) : Decidable (Near x y) := inferInstanceAs (Decidable (_ ∧ _))

theorem Near.le {x y : Nat} (hn : Near x y) : y ≤ x + 32767 := hn.1

/-- What is near the expected number is near the last one. -/
theorem Near.last {T y : Nat} (hn : Near (T + 1) y) : Near y T := by
  have hlo := hn.2
  exact ⟨by omega, hn.le.trans_eq (Nat.add_assoc T 1 32767)⟩

theorem Near.seqLt {x y : Nat} (hn : Near x y) :
    seqLt (BitVec.ofNat 16 x) (BitVec.ofNat 16 y) = decide (x < y) := by
  obtain ⟨hyx, hxy⟩ := hn
  rw [EnetRs.seqLt, decide_eq_decide, BitVec.toInt_eq_toNat_cond]
  simp only [BitVec.toNat_sub, BitVec.toNat_ofNat]
  split <;> omega

theorem Near.ofNat_inj {x y : Nat} (hn : Near x y) :
    BitVec.ofNat 16 x = BitVec.ofNat 16 y ↔ x = y := by
  obtain ⟨hyx, hxy⟩ := hn
  exact Serial.ofNat_inj_near (by omega) (by omega)

/-! ## §2. What a channel holds back. -/

section Queue

variable (start : Nat → Nat) (data : Nat → Bytes)

/-- The channel has consumed the numbers up to `T` and holds the messages in
`Q`, all of them further on. -/
structure QueueIs (c : Channel) (T : Nat) (Q : Finset Nat) : Prop where
  incoming : c.incomingReliableSeq = BitVec.ofNat 16 T
  queue : ∀ (key : U16) (d : Bytes), c.incomingReliableQueue[key]? = some d ↔
    ∃ i ∈ Q, key = BitVec.ofNat 16 (start i) ∧ d = data i
  ahead : ∀ i ∈ Q, T < start i ∧ start i ≤ T + 32768
  inj : ∀ i ∈ Q, ∀ j ∈ Q, start i = start j → i = j

/-- The messages in the list have the numbers from `T + 1` on, one each. -/
def InTurn : Nat → List Nat → Prop
  | _, [] => True
  | T, i :: l => start i = T + 1 ∧ InTurn (T + 1) l

/-- Only the reliable stream of the channel differs. -/
def SameReassembly (c c' : Channel) : Prop :=
  c'.fragmentBuffers = c.fragmentBuffers ∧ c'.incomingUnreliableSeq = c.incomingUnreliableSeq

/-- **What a drain leaves**: the messages `l` are handed out, and the next one
is not there. -/
structure QueueDrained (c : Channel) (T : Nat) (Q : Finset Nat) (l : List Nat) (c' : Channel) :
    Prop where
  inTurn : InTurn start T l
  mem : ∀ i ∈ l, i ∈ Q
  queue : QueueIs start data c' (T + l.length) (Q \ l.toFinset)
  stuck : ∀ i ∈ Q \ l.toFinset, start i ≠ T + l.length + 1
  frame : SameReassembly c c'

end Queue

variable {start : Nat → Nat} {data : Nat → Bytes}

theorem InTurn.le : ∀ {l : List Nat} {T : Nat}, InTurn start T l →
    ∀ i ∈ l, T < start i ∧ start i ≤ T + l.length := by
  intro l
  induction l with
  | nil => simp
  | cons j l ih =>
      rintro T ⟨hj, hl⟩ i hi
      rw [List.length_cons]
      rcases List.mem_cons.mp hi with rfl | hi
      · omega
      · have hi := ih hl i hi
        omega

/-- The last message of the list has the last number. -/
theorem InTurn.exists_last : ∀ {l : List Nat} {T : Nat}, InTurn start T l → l ≠ [] →
    ∃ i ∈ l, start i = T + l.length := by
  intro l
  induction l with
  | nil => exact fun _ hne => absurd rfl hne
  | cons j l ih =>
      rintro T ⟨hj, hl⟩ -
      rw [List.length_cons]
      by_cases hne : l = []
      · subst hne
        exact ⟨j, List.mem_cons_self, hj⟩
      · obtain ⟨i, hi, heq⟩ := ih hl hne
        exact ⟨i, List.mem_cons_of_mem _ hi, by omega⟩

/-- What was waiting within half the number space does not lead further. -/
theorem QueueDrained.le {c c' : Channel} {T T₀ : Nat} {Q : Finset Nat} {l : List Nat}
    (hd : QueueDrained start data c T Q l c') (hQ : ∀ i ∈ Q, start i ≤ T₀ + 32768)
    (hT : T ≤ T₀ + 32768) : T + l.length ≤ T₀ + 32768 := by
  by_cases hne : l = []
  · subst hne
    exact hT
  · obtain ⟨i, hi, heq⟩ := hd.inTurn.exists_last hne
    have hle := hQ i (hd.mem i hi)
    omega

namespace QueueIs

variable {c : Channel} {T : Nat} {Q : Finset Nat} {i : Nat}

/-- The next number is queued exactly if a message in `Q` starts there. -/
theorem next_eq_none (hq : QueueIs start data c T Q) :
    c.incomingReliableQueue[c.incomingReliableSeq + 1]? = none ↔ ∀ i ∈ Q, start i ≠ T + 1 := by
  have hnext : c.incomingReliableSeq + 1 = BitVec.ofNat 16 (T + 1) := by
    rw [hq.incoming, BitVec.ofNat_add]
    rfl
  rw [hnext, Option.eq_none_iff_forall_ne_some]
  constructor
  · intro hnone i hi heq
    exact hnone (data i) ((hq.queue _ _).mpr ⟨i, hi, by rw [heq], rfl⟩)
  · intro hall d hd
    obtain ⟨i, hi, hkey, -⟩ := (hq.queue _ _).mp hd
    have hahead := hq.ahead i hi
    have hnear : Near (T + 1) (start i) := ⟨by omega, by omega⟩
    exact hall i hi (hnear.ofNat_inj.mp hkey).symm

/-- One turn of the loop. -/
theorem advance (hq : QueueIs start data c T Q) (hi : i ∈ Q) (hstart : start i = T + 1) :
    QueueIs start data
      { c with
        incomingReliableSeq := c.incomingReliableSeq + 1
        incomingReliableQueue := c.incomingReliableQueue.erase (c.incomingReliableSeq + 1) }
      (T + 1) (Q.erase i) := by
  have hnext : c.incomingReliableSeq + 1 = BitVec.ofNat 16 (T + 1) := by
    rw [hq.incoming, BitVec.ofNat_add]
    rfl
  refine ⟨hnext, fun key d => ?_, fun j hj => ?_, fun j hj j' hj' => ?_⟩
  · simp only [hnext]
    rw [Std.ExtTreeMap.getElem?_erase]
    split
    · next hcmp =>
      -- no other message has this number
      have hkey := Std.LawfulEqCmp.eq_of_compare hcmp
      refine ⟨nofun, ?_⟩
      rintro ⟨j, hj, hkey', -⟩
      obtain ⟨hne, hj⟩ := Finset.mem_erase.mp hj
      have hahead := hq.ahead j hj
      have hnear : Near (T + 1) (start j) := ⟨by omega, by omega⟩
      have heq := hnear.ofNat_inj.mp (hkey.trans hkey')
      exact absurd (hq.inj j hj i hi (heq.symm.trans hstart.symm)) hne
    · next hcmp =>
      rw [hq.queue]
      constructor
      · rintro ⟨j, hj, rfl, rfl⟩
        refine ⟨j, Finset.mem_erase.mpr ⟨?_, hj⟩, rfl, rfl⟩
        rintro rfl
        rw [hstart] at hcmp
        exact hcmp Std.ReflCmp.compare_self
      · rintro ⟨j, hj, hrest⟩
        exact ⟨j, Finset.mem_of_mem_erase hj, hrest⟩
  · obtain ⟨hne, hj⟩ := Finset.mem_erase.mp hj
    have hahead := hq.ahead j hj
    have hneq : start j ≠ T + 1 := fun heq => hne (hq.inj j hj i hi (heq.trans hstart.symm))
    omega
  · exact hq.inj j (Finset.mem_of_mem_erase hj) j' (Finset.mem_of_mem_erase hj')

/-- Nothing to drain. -/
theorem drained_nil (hq : QueueIs start data c T Q) (hstuck : ∀ i ∈ Q, start i ≠ T + 1) :
    QueueDrained start data c T Q [] c :=
  ⟨trivial, by simp, by simpa using hq, by simpa using hstuck, rfl, rfl⟩

theorem drainLoop : ∀ (fuel : Nat) (c : Channel) (T : Nat) (Q : Finset Nat),
    QueueIs start data c T Q → fuel = c.incomingReliableQueue.size →
    ∃ l, (Channel.drainLoop fuel c).2 = l.map data
      ∧ QueueDrained start data c T Q l (Channel.drainLoop fuel c).1 := by
  intro fuel
  induction fuel with
  | zero =>
      intro c T Q hq hsize
      refine ⟨[], rfl, hq.drained_nil (hq.next_eq_none.mp ?_)⟩
      exact Collections.getElem?_of_size_zero hsize.symm _
  | succ fuel ih =>
      intro c T Q hq hsize
      unfold Channel.drainLoop
      simp only
      cases hnext : c.incomingReliableQueue[c.incomingReliableSeq + 1]? with
      | none =>
          exact ⟨[], rfl, hq.drained_nil (hq.next_eq_none.mp hnext)⟩
      | some d =>
          obtain ⟨i, hi, hkey, rfl⟩ := (hq.queue _ _).mp hnext
          have hstart : start i = T + 1 := by
            have hahead := hq.ahead i hi
            have hnear : Near (T + 1) (start i) := ⟨by omega, by omega⟩
            rw [hq.incoming] at hkey
            exact (hnear.ofNat_inj.mp ((BitVec.ofNat_add ..).trans hkey)).symm
          have hsize' : fuel
              = (c.incomingReliableQueue.erase (c.incomingReliableSeq + 1)).size :=
            Nat.succ_injective (hsize.trans (Collections.size_erase_of_some hnext).symm)
          obtain ⟨l, hout, hd⟩ := ih _ (T + 1) (Q.erase i) (hq.advance hi hstart) hsize'
          have hset : Q \ (i :: l).toFinset = Q.erase i \ l.toFinset := by
            rw [List.toFinset_cons, Finset.sdiff_insert, ← Finset.erase_sdiff_comm]
          refine ⟨i :: l, by rw [hout]; rfl, ⟨hstart, hd.inTurn⟩, ?_, ?_, ?_, hd.frame⟩
          · intro j hj
            rcases List.mem_cons.mp hj with rfl | hj
            · exact hi
            · exact Finset.mem_of_mem_erase (hd.mem j hj)
          · rw [hset, List.length_cons, Nat.add_comm l.length, ← Nat.add_assoc]
            exact hd.queue
          · rw [hset, List.length_cons, Nat.add_comm l.length, ← Nat.add_assoc]
            exact hd.stuck

/-- **The drain.** -/
theorem drain (hq : QueueIs start data c T Q) :
    ∃ l, c.drain.2 = l.map data ∧ QueueDrained start data c T Q l c.drain.1 :=
  drainLoop _ c T Q hq rfl

end QueueIs

/-! ## §3. A message arrives. -/

/-- The channel from which a message that is complete is released: its buffer is
gone. -/
structure Trimmed (c c₀ : Channel) : Prop where
  counter : c₀.incomingUnreliableSeq = c.incomingUnreliableSeq
  incoming : c₀.incomingReliableSeq = c.incomingReliableSeq
  queue : c₀.incomingReliableQueue = c.incomingReliableQueue
  buffers : ∀ (key : U16) (b : FragmentBuffer), c₀.fragmentBuffers[key]? = some b →
    c.fragmentBuffers[key]? = some b

theorem Trimmed.refl (c : Channel) : Trimmed c c := ⟨rfl, rfl, rfl, fun _ _ hb => hb⟩

theorem Trimmed.erase (c : Channel) (key : U16) :
    Trimmed c { c with fragmentBuffers := c.fragmentBuffers.erase key } :=
  ⟨rfl, rfl, rfl, fun _ _ hb => Collections.getElem?_of_erase hb⟩

theorem Trimmed.queueIs {c c₀ : Channel} {T : Nat} {Q : Finset Nat} (ht : Trimmed c c₀)
    (hq : QueueIs start data c T Q) : QueueIs start data c₀ T Q :=
  ⟨ht.incoming.trans hq.incoming, fun key d => ht.queue ▸ hq.queue key d, hq.ahead, hq.inj⟩

/-- **What becomes of the message `i`**, of `n` numbers: it is handed out with
those behind it that were waiting, held, or dropped. -/
inductive Served (start : Nat → Nat) (data : Nat → Bytes) (c : Channel) (T : Nat) (Q : Finset Nat)
    (i n : Nat) : Channel × List Bytes → Prop
  | now {l : List Nat} {c' : Channel} (starts : start i = T + 1)
      (drained : QueueDrained start data c (T + n) Q l c') :
      Served start data c T Q i n (c', (i :: l).map data)
  | held {c' : Channel} (ahead : T + 1 < start i) (queue : QueueIs start data c' T (insert i Q))
      (frame : SameReassembly c c') : Served start data c T Q i n (c', [])
  | dropped (behind : start i ≤ T ∨ T + 1 < start i
      ∧ maxIncomingReliableQueue ≤ c.incomingReliableQueue.size) :
      Served start data c T Q i n (c, [])

namespace QueueIs

variable {c : Channel} {T : Nat} {Q : Finset Nat} {i : Nat}

/-- The queue with one more message. -/
theorem insert (hq : QueueIs start data c T Q) (hahead : T + 1 < start i)
    (hnear : Near (T + 1) (start i)) (hinj : ∀ j ∈ Q, start j = start i → j = i) :
    QueueIs start data
      { c with
        incomingReliableQueue :=
          c.incomingReliableQueue.insert (BitVec.ofNat 16 (start i)) (data i) }
      T (Insert.insert i Q) := by
  -- a message with this number is this message
  have hkey : ∀ j ∈ Q, BitVec.ofNat 16 (start i) = BitVec.ofNat 16 (start j) → j = i := by
    intro j hj heq
    have hj' := hq.ahead j hj
    have hle := hnear.1
    have hnear' : Near (start i) (start j) := ⟨by omega, by omega⟩
    exact hinj j hj (hnear'.ofNat_inj.mp heq).symm
  refine ⟨hq.incoming, fun key d => ?_, fun j hj => ?_, fun j hj j' hj' heq => ?_⟩
  · rw [Std.ExtTreeMap.getElem?_insert]
    split
    · next hcmp =>
      have hcmp := Std.LawfulEqCmp.eq_of_compare hcmp
      constructor
      · rintro ⟨⟩
        exact ⟨i, Finset.mem_insert_self i Q, hcmp.symm, rfl⟩
      · rintro ⟨j, hj, hj', rfl⟩
        rcases Finset.mem_insert.mp hj with rfl | hj
        · rfl
        · rw [hkey j hj (hcmp.trans hj')]
    · next hcmp =>
      rw [hq.queue]
      constructor
      · rintro ⟨j, hj, hrest⟩
        exact ⟨j, Finset.mem_insert_of_mem hj, hrest⟩
      · rintro ⟨j, hj, rfl, rfl⟩
        rcases Finset.mem_insert.mp hj with rfl | hj
        · exact absurd Std.ReflCmp.compare_self hcmp
        · exact ⟨j, hj, rfl, rfl⟩
  · rcases Finset.mem_insert.mp hj with rfl | hj
    · have hle := hnear.1
      omega
    · exact hq.ahead j hj
  · rcases Finset.mem_insert.mp hj with rfl | hold
    · rcases Finset.mem_insert.mp hj' with rfl | hold'
      · rfl
      · exact (hinj j' hold' heq.symm).symm
    · rcases Finset.mem_insert.mp hj' with rfl | hold'
      · exact hinj j hold heq
      · exact hq.inj j hold j' hold' heq

/-- The number of the message is the one expected exactly if it starts there. -/
theorem expects_eq (hq : QueueIs start data c T Q) (hnear : Near (T + 1) (start i)) :
    c.expects (BitVec.ofNat 16 (start i)) = decide (start i = T + 1) := by
  have hnext : c.incomingReliableSeq + 1 = BitVec.ofNat 16 (T + 1) := by
    rw [hq.incoming, BitVec.ofNat_add]
    rfl
  rw [Channel.expects, hnext, decide_eq_decide, eq_comm, hnear.ofNat_inj, eq_comm]

theorem hasRoomFor_eq (hq : QueueIs start data c T Q) (hnear : Near (T + 1) (start i)) :
    c.hasRoomFor (BitVec.ofNat 16 (start i))
      = (decide (T + 1 < start i)
        && decide (c.incomingReliableQueue.size < maxIncomingReliableQueue)) := by
  have hnext : c.incomingReliableSeq + 1 = BitVec.ofNat 16 (T + 1) := by
    rw [hq.incoming, BitVec.ofNat_add]
    rfl
  have hwindow : (freeReliableWindows * reliableWindowSize : U16).toNat = 32768 := rfl
  rw [Channel.hasRoomFor, hnext, hnear.seqLt]
  congr 1
  by_cases hlt : T + 1 < start i
  · have hle : BitVec.ofNat 16 (start i) - BitVec.ofNat 16 (T + 1)
        ≤ freeReliableWindows * reliableWindowSize := by
      rw [BitVec.le_def, hwindow]
      simp only [BitVec.toNat_sub, BitVec.toNat_ofNat]
      have hnear' := hnear.1
      omega
    simp [hle]
  · simp [hlt]

/-- **A message in one piece.** -/
theorem receive (hq : QueueIs start data c T Q) (hstuck : ∀ j ∈ Q, start j ≠ T + 1)
    (hnear : Near (T + 1) (start i)) (hinj : ∀ j ∈ Q, start j = start i → j = i) :
    Served start data c T Q i 1 (c.receiveReliable (BitVec.ofNat 16 (start i)) (data i)) := by
  have hex := hq.expects_eq hnear
  have hroom := hq.hasRoomFor_eq hnear
  by_cases hstart : start i = T + 1
  · rw [decide_eq_true hstart] at hex
    have hq' : QueueIs start data { c with incomingReliableSeq := BitVec.ofNat 16 (start i) }
        (T + 1) Q := by
      refine ⟨congrArg (BitVec.ofNat 16) hstart, hq.queue, fun j hj => ?_, hq.inj⟩
      have hahead := hq.ahead j hj
      have hne := hstuck j hj
      omega
    obtain ⟨l, hout, hd⟩ := hq'.drain
    rw [Channel.receiveReliable_of_expects hex, hout]
    exact .now hstart ⟨hd.inTurn, hd.mem, hd.queue, hd.stuck, hd.frame⟩
  · rw [decide_eq_false hstart] at hex
    by_cases hlt : T + 1 < start i
    · by_cases hcap : c.incomingReliableQueue.size < maxIncomingReliableQueue
      · rw [decide_eq_true hlt, decide_eq_true hcap] at hroom
        rw [Channel.receiveReliable_of_room hex hroom]
        exact .held hlt (hq.insert hlt hnear hinj) ⟨rfl, rfl⟩
      · rw [decide_eq_false hcap, Bool.and_false] at hroom
        rw [Channel.receiveReliable_of_drop hex hroom]
        exact .dropped (.inr ⟨hlt, Nat.le_of_not_lt hcap⟩)
    · rw [decide_eq_false hlt] at hroom
      rw [Channel.receiveReliable_of_drop hex hroom]
      exact .dropped (.inl (by omega))

/-- **A message put together from `n` fragments.**  No other message starts
among its numbers. -/
theorem release {sf : SendFragmentCmd} {n : Nat} (hq : QueueIs start data c T Q)
    (hstuck : ∀ j ∈ Q, start j ≠ T + 1) (hnear : Near (T + 1) (start i))
    (hinj : ∀ j ∈ Q, start j = start i → j = i) (hseq : sf.startSeq = BitVec.ofNat 16 (start i))
    (hcount : sf.fragmentCount.toNat = n) (hpos : 0 < n)
    (hgap : start i = T + 1 → ∀ j ∈ Q, T + n < start j) :
    Served start data c T Q i n (PeerEntry.releaseAssembled c sf true (data i)) := by
  have hserved := hq.receive hstuck hnear hinj
  unfold PeerEntry.releaseAssembled
  simp only [if_true, hseq]
  generalize hr : c.receiveReliable (BitVec.ofNat 16 (start i)) (data i) = r at hserved
  obtain ⟨c', out⟩ := r
  cases hserved with
  | held ahead queue frame =>
      simp only [List.isEmpty_nil, Bool.not_true, Bool.false_and, Bool.false_eq_true, if_false]
      exact .held ahead queue frame
  | dropped behind =>
      simp only [List.isEmpty_nil, Bool.not_true, Bool.false_and, Bool.false_eq_true, if_false]
      exact .dropped behind
  | @now l c' starts drained =>
      have hgap := hgap starts
      simp only [List.map_cons, List.isEmpty_cons, Bool.not_false, Bool.true_and,
        decide_eq_true_eq]
      split
      · next hn =>
        have hn' : 1 < n := by
          rw [← hcount]
          exact hn
        -- the next number is the message's own: nothing was waiting for it
        obtain rfl : l = [] := by
          cases l with
          | nil => rfl
          | cons j l =>
              have hj := hgap j (drained.mem j List.mem_cons_self)
              have hj' := drained.inTurn.1
              omega
        have hdrained := drained.queue
        simp only [List.length_nil, Nat.add_zero, List.toFinset_nil, Finset.sdiff_empty]
          at hdrained
        have hq' : QueueIs start data
            { c' with
              incomingReliableSeq :=
                c'.incomingReliableSeq + (sf.fragmentCount - 1).setWidth 16 } (T + n) Q := by
          refine ⟨?_, hdrained.queue, fun j hj => ?_, hdrained.inj⟩
          · simp only [hdrained.incoming]
            have hone : (1 : U32).toNat = 1 := rfl
            refine BitVec.eq_of_toNat_eq ?_
            simp only [BitVec.toNat_add, BitVec.toNat_ofNat, BitVec.toNat_setWidth,
              BitVec.toNat_sub, hcount, hone]
            omega
          · have hj' := hgap j hj
            have hahead := hdrained.ahead j hj
            omega
        obtain ⟨l', hout, hd⟩ := hq'.drain
        rw [hout]
        exact .now starts ⟨hd.inTurn, hd.mem, hd.queue, hd.stuck,
          hd.frame.1.trans drained.frame.1, hd.frame.2.trans drained.frame.2⟩
      · next hn =>
        obtain rfl : n = 1 := by
          have hle : ¬ 1 < n := by
            rw [← hcount]
            exact hn
          omega
        exact .now starts drained

end QueueIs

end EnetRs
