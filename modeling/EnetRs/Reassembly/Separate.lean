/-
  EnetRs.Reassembly.Separate — one reassembly among others.

  A fragment changes the buffer of its own message, the number of buffers and
  the bytes charged for them, and, when it is the last one, the stream its
  message belongs to.  `Side` is what is known of one message, and
  `PeerEntry.onFragment_collects` all that a fragment of it does; what other
  messages have stored does not matter as long as there is room.

  Main results:
    * `SameStream.releaseAssembled` — the reliable stream does not depend on the
      buffers.
    * `PeerEntry.onFragment_collects` — one fragment.
-/
import EnetRs.Reassembly.Accounting
import EnetRs.Reassembly.Buffer

namespace EnetRs

open MachineInt

/-! ## §1. The reliable stream. -/

/-- The channels have consumed the same numbers and hold the same messages back. -/
structure SameStream (c c₁ : Channel) : Prop where
  seq : c.incomingReliableSeq = c₁.incomingReliableSeq
  queue : c.incomingReliableQueue = c₁.incomingReliableQueue

namespace SameStream

variable {c c₁ c₂ : Channel}

theorem refl (c : Channel) : SameStream c c := ⟨rfl, rfl⟩

theorem symm (hs : SameStream c c₁) : SameStream c₁ c := ⟨hs.seq.symm, hs.queue.symm⟩

theorem trans (h₁ : SameStream c c₁) (h₂ : SameStream c₁ c₂) : SameStream c c₂ :=
  ⟨h₁.seq.trans h₂.seq, h₁.queue.trans h₂.queue⟩

theorem drainLoop : ∀ (fuel : Nat) {c c₁ : Channel}, SameStream c c₁ →
    SameStream (Channel.drainLoop fuel c).1 (Channel.drainLoop fuel c₁).1
      ∧ (Channel.drainLoop fuel c).2 = (Channel.drainLoop fuel c₁).2 := by
  intro fuel
  induction fuel with
  | zero => exact fun hs => ⟨hs, rfl⟩
  | succ fuel ih =>
      intro c c₁ hs
      unfold Channel.drainLoop
      simp only [hs.seq, hs.queue]
      cases hnext : c₁.incomingReliableQueue[c₁.incomingReliableSeq + 1]? with
      | none => exact ⟨hs, rfl⟩
      | some d =>
          have hnext : SameStream
              { c with
                incomingReliableSeq := c₁.incomingReliableSeq + 1
                incomingReliableQueue :=
                  c₁.incomingReliableQueue.erase (c₁.incomingReliableSeq + 1) }
              { c₁ with
                incomingReliableSeq := c₁.incomingReliableSeq + 1
                incomingReliableQueue :=
                  c₁.incomingReliableQueue.erase (c₁.incomingReliableSeq + 1) } := ⟨rfl, rfl⟩
          exact ⟨(ih hnext).1, congrArg (d :: ·) (ih hnext).2⟩

theorem drain (hs : SameStream c c₁) :
    SameStream c.drain.1 c₁.drain.1 ∧ c.drain.2 = c₁.drain.2 := by
  unfold Channel.drain
  rw [hs.queue]
  exact drainLoop _ hs

theorem receiveReliable (hs : SameStream c c₁) (seq : U16) (data : Bytes) :
    SameStream (c.receiveReliable seq data).1 (c₁.receiveReliable seq data).1
      ∧ (c.receiveReliable seq data).2 = (c₁.receiveReliable seq data).2 := by
  unfold Channel.receiveReliable
  simp only [hs.seq, hs.queue]
  split
  · have hd : SameStream
          { c with incomingReliableSeq := seq, incomingReliableQueue := c₁.incomingReliableQueue }
          { c₁ with incomingReliableSeq := seq } := ⟨rfl, rfl⟩
    exact ⟨hd.drain.1, congrArg (data :: ·) hd.drain.2⟩
  · split
    · split
      · exact ⟨⟨rfl, rfl⟩, rfl⟩
      · exact ⟨hs, rfl⟩
    · exact ⟨hs, rfl⟩

theorem releaseAssembled (hs : SameStream c c₁) (sf : SendFragmentCmd) (m : Bytes) :
    SameStream (PeerEntry.releaseAssembled c sf true m).1 (PeerEntry.releaseAssembled c₁ sf true m).1
      ∧ (PeerEntry.releaseAssembled c sf true m).2
        = (PeerEntry.releaseAssembled c₁ sf true m).2 := by
  have hr := hs.receiveReliable sf.startSeq m
  unfold PeerEntry.releaseAssembled
  simp only [if_true, hr.2]
  split
  · have hd : SameStream
        { (c.receiveReliable sf.startSeq m).1 with
          incomingReliableSeq := (c.receiveReliable sf.startSeq m).1.incomingReliableSeq
            + (sf.fragmentCount - 1).setWidth 16 }
        { (c₁.receiveReliable sf.startSeq m).1 with
          incomingReliableSeq := (c₁.receiveReliable sf.startSeq m).1.incomingReliableSeq
            + (sf.fragmentCount - 1).setWidth 16 } := ⟨by simp only [hr.1.seq], hr.1.queue⟩
    exact ⟨hd.drain.1, congrArg (List.append (c₁.receiveReliable sf.startSeq m).2) hd.drain.2⟩
  · exact ⟨hr.1, rfl⟩

end SameStream

/-- Everything held back satisfies `G`. -/
def Stocked (G : U16 → Bytes → Prop) (c : Channel) : Prop :=
  ∀ key d, c.incomingReliableQueue[key]? = some d → G key d

namespace Stocked

variable {G : U16 → Bytes → Prop} {c : Channel}

theorem drainLoop : ∀ (fuel : Nat) {c : Channel}, Stocked G c →
    Stocked G (Channel.drainLoop fuel c).1 ∧ ∀ d ∈ (Channel.drainLoop fuel c).2, ∃ key, G key d := by
  intro fuel
  induction fuel with
  | zero => exact fun hc => ⟨hc, nofun⟩
  | succ fuel ih =>
      intro c hc
      unfold Channel.drainLoop
      simp only
      cases hnext : c.incomingReliableQueue[c.incomingReliableSeq + 1]? with
      | none => exact ⟨hc, nofun⟩
      | some d =>
          have herased : Stocked G
              { c with
                incomingReliableSeq := c.incomingReliableSeq + 1
                incomingReliableQueue :=
                  c.incomingReliableQueue.erase (c.incomingReliableSeq + 1) } := by
            intro key d' hd'
            exact hc key d' (Collections.getElem?_of_erase hd')
          obtain ⟨hrest, hout⟩ := ih herased
          refine ⟨hrest, fun d' hd' => ?_⟩
          rcases List.mem_cons.mp hd' with rfl | hd'
          · exact ⟨_, hc _ _ hnext⟩
          · exact hout d' hd'

theorem receiveReliable (hc : Stocked G c) {seq : U16} {data : Bytes} (hnew : G seq data) :
    Stocked G (c.receiveReliable seq data).1
      ∧ ∀ d ∈ (c.receiveReliable seq data).2, ∃ key, G key d := by
  unfold Channel.receiveReliable
  simp only
  split
  · obtain ⟨hrest, hout⟩ := drainLoop c.incomingReliableQueue.size
      (c := { c with incomingReliableSeq := seq }) hc
    refine ⟨hrest, fun d hd => ?_⟩
    rcases List.mem_cons.mp hd with rfl | hd
    · exact ⟨seq, hnew⟩
    · exact hout d hd
  · split
    · split
      · refine ⟨fun key d hd => ?_, nofun⟩
        simp only at hd
        rw [Std.ExtTreeMap.getElem?_insert] at hd
        split at hd
        · next hcmp =>
          cases hd
          exact Std.LawfulEqCmp.eq_of_compare hcmp ▸ hnew
        · exact hc key d hd
      · exact ⟨hc, nofun⟩
    · exact ⟨hc, nofun⟩

/-- What is handed out was held back, or is the message itself. -/
theorem releaseAssembled (hc : Stocked G c) (sf : SendFragmentCmd) {m : Bytes}
    (hnew : G sf.startSeq m) :
    Stocked G (PeerEntry.releaseAssembled c sf true m).1
      ∧ ∀ d ∈ (PeerEntry.releaseAssembled c sf true m).2, ∃ key, G key d := by
  obtain ⟨hrest, hout⟩ := hc.receiveReliable hnew
  unfold PeerEntry.releaseAssembled
  simp only [if_true]
  split
  · obtain ⟨hrest', hout'⟩ := drainLoop (c.receiveReliable sf.startSeq m).1.incomingReliableQueue.size
      (c := { (c.receiveReliable sf.startSeq m).1 with
        incomingReliableSeq := (c.receiveReliable sf.startSeq m).1.incomingReliableSeq
          + (sf.fragmentCount - 1).setWidth 16 }) hrest
    exact ⟨hrest', fun d hd => (List.mem_append.mp hd).elim (hout d) (hout' d)⟩
  · exact ⟨hrest, hout⟩

end Stocked

/-- An unreliable message does not touch it. -/
theorem PeerEntry.releaseAssembled_false_stream (c : Channel) (sf : SendFragmentCmd) (m : Bytes) :
    SameStream (releaseAssembled c sf false m).1 c := by
  simp only [releaseAssembled, Bool.false_eq_true, if_false, Channel.receiveUnreliable]
  split
  · next heq =>
    split at heq
    · cases heq
      exact ⟨rfl, rfl⟩
    · cases heq
  · next heq =>
    split at heq
    · cases heq
    · cases heq
      exact ⟨rfl, rfl⟩

/-! ## §2. One message. -/

/-- The fragments in `S` of the message `m` are in the buffer under `key`, which
is there if there are any. -/
structure Side (c : Channel) (key : U16) (fp : Nat) (m : Bytes) (S : Finset Nat) : Prop where
  buffer : BufferAt c key fp m S
  present : c.fragmentBuffers.contains key = decide (S ≠ ∅)
  more : S.card < fragCount fp m

/-- It depends on that buffer only. -/
theorem Side.congr {c c' : Channel} {key : U16} {fp : Nat} {m : Bytes} {S : Finset Nat}
    (hs : Side c key fp m S) (hsame : c'.fragmentBuffers[key]? = c.fragmentBuffers[key]?) :
    Side c' key fp m S := by
  refine ⟨?_, ?_, hs.more⟩
  · rw [BufferAt, hsame]
    exact hs.buffer
  · rw [Std.ExtTreeMap.contains_eq_isSome_getElem?, hsame,
      ← Std.ExtTreeMap.contains_eq_isSome_getElem?]
    exact hs.present

/-- The fragments stored after fragment `j`: none if it was the last one. -/
def stored (n j : Nat) (S : Finset Nat) : Finset Nat :=
  if (insert j S).card = n then ∅ else insert j S

/-- The number of buffers for the fragments in `S`. -/
def buffers (S : Finset Nat) : Nat := if S = ∅ then 0 else 1

/-- **What fragment `j` of the message does**: `c'` is the channel afterwards,
`out` is delivered. -/
structure Collects (p : PeerEntry) (ch : U8) (c : Channel) (key : U16) (fp : Nat) (m : Bytes)
    (S : Finset Nat) (j : Nat) (reliable : Bool) (q : PeerEntry) (c' : Channel)
    (out : List Bytes) : Prop where
  channels : q.channels = p.channels.set ch.toNat c'
  history : q.history
    = p.history ++ PeerEntry.deliveries ch (if reliable then .reliable else .unreliable) out
  side : Side c' key fp m (stored (fragCount fp m) j S)
  others : ∀ k, k ≠ key → c'.fragmentBuffers[k]? = c.fragmentBuffers[k]?
  size : c'.fragmentBuffers.size + buffers S
    = c.fragmentBuffers.size + buffers (stored (fragCount fp m) j S)
  bytes : q.fragmentBytesInFlight + m.length * buffers S
    = p.fragmentBytesInFlight + m.length * buffers (stored (fragCount fp m) j S)
  last : (insert j S).card = fragCount fp m → (c', out) = PeerEntry.releaseAssembled
    { c with fragmentBuffers := c.fragmentBuffers.erase key } (fragmentOf key fp m j) reliable m
  early : (insert j S).card ≠ fragCount fp m → out = [] ∧ SameStream c' c

namespace PeerEntry

variable {p : PeerEntry} {ch : U8} {c : Channel} {key : U16} {fp : Nat} {m : Bytes}
  {S : Finset Nat} {j : Nat}

/-- The bytes charged after a fragment that is taken. -/
theorem onFragment_bytes {sf : SendFragmentCmd} (hc : p.channels[ch.toNat]? = some c)
    (reliable : Bool) (nowMs : U32) (hm : fragmentMalformed sf = false)
    (hr : p.fragmentRefused c sf = false) :
    (p.onFragment ch sf reliable nowMs).fragmentBytesInFlight
      = p.fragmentBytesInFlight
          + (if c.fragmentBuffers.contains sf.startSeq then 0 else sf.totalLength.toNat)
          - (if completes c sf then sf.totalLength.toNat else 0) := by
  have hr' : ({ p with lastReceiveTime := nowMs } : PeerEntry).fragmentRefused c sf = false := hr
  have hbytes := storeFragment_bytes { p with lastReceiveTime := nowMs } ch c sf reliable hr'
  simp only [onFragment, hm, Bool.false_eq_true, if_false, hc]
  rw [deliverAll_eq]
  exact hbytes

/-- A fragment that is refused costs nothing. -/
theorem onFragment_refused_bytes {sf : SendFragmentCmd} (hc : p.channels[ch.toNat]? = some c)
    (reliable : Bool) (nowMs : U32) (hm : fragmentMalformed sf = false)
    (hr : p.fragmentRefused c sf = true) :
    (p.onFragment ch sf reliable nowMs).fragmentBytesInFlight = p.fragmentBytesInFlight := by
  have hr' : ({ p with lastReceiveTime := nowMs } : PeerEntry).fragmentRefused c sf = true := hr
  simp only [onFragment, hm, Bool.false_eq_true, if_false, hc]
  rw [deliverAll_eq]
  simp [storeFragment, hr']

/-- A fragment completes its message exactly if it is the last one missing. -/
theorem completes_eq (hb : BufferAt c key fp m S) (hs : Sized fp m) (hj : j < fragCount fp m)
    (hmore : S.card < fragCount fp m) :
    completes c (fragmentOf key fp m j) = decide ((insert j S).card = fragCount fp m) := by
  have hholds := hb.holds hs j
  by_cases hmem : j ∈ S
  · have hold := hholds.receive_old hs hj hmem key
    rw [Finset.insert_eq_of_mem hmem, decide_eq_false (Nat.ne_of_lt hmore)]
    exact congrArg Prod.snd hold
  · obtain ⟨b', hrecv, -⟩ := hholds.receive_new hs hj hmem key
    rw [Finset.card_insert_of_notMem hmem]
    exact congrArg Prod.snd hrecv

/-- **One fragment.** -/
theorem onFragment_collects (hc : p.channels[ch.toNat]? = some c) (hside : Side c key fp m S)
    (hs : Sized fp m) (htwo : 2 ≤ fragCount fp m) (hj : j < fragCount fp m)
    (hformed : fragmentMalformed (fragmentOf key fp m j) = false)
    (hroom : S = ∅ → c.fragmentBuffers.size < maxFragmentBuffersPerChannel
      ∧ p.fragmentBytesInFlight + m.length ≤ maxFragmentBytesPerPeer)
    (hcharged : m.length * buffers S ≤ p.fragmentBytesInFlight) (reliable : Bool) (nowMs : U32) :
    ∃ c' out, Collects p ch c key fp m S j reliable
      (p.onFragment ch (fragmentOf key fp m j) reliable nowMs) c' out := by
  have hkey : (fragmentOf key fp m j).startSeq = key := rfl
  have hrefused : p.fragmentRefused c (fragmentOf key fp m j) = false := by
    simp only [fragmentRefused, hkey, hside.present, hs.total]
    by_cases hS : S = ∅
    · have hroom := hroom hS
      simp [hS, hroom.1, hroom.2]
    · simp [hS]
  have hbytes := onFragment_bytes hc reliable nowMs hformed hrefused
  rw [hkey, hside.present, hs.total, completes_eq hside.buffer hs hj hside.more] at hbytes
  have htaken := onFragment_taken hc hside.buffer hs hj hside.more reliable nowMs
  cases htaken with
  | dropped cause =>
      simp [hformed, hrefused] at cause
  | stored b holds more channels history =>
      have hne : insert j S ≠ ∅ := Finset.insert_ne_empty j S
      have hnot : ¬ (insert j S).card = fragCount fp m := Nat.ne_of_lt more
      have hstored : EnetRs.stored (fragCount fp m) j S = insert j S := if_neg hnot
      refine ⟨_, [], channels, history.trans (List.append_nil _).symm, ?_, ?_, ?_, ?_,
        fun all => absurd all hnot, fun _ => ⟨rfl, rfl, rfl⟩⟩
      · rw [hstored]
        refine ⟨.inr ⟨b, by simp, holds⟩, ?_, more⟩
        simp [hne]
      · intro k hk
        simp only
        rw [Std.ExtTreeMap.getElem?_insert, if_neg (by simpa using hk.symm)]
      · rw [hstored, buffers, buffers, if_neg hne]
        simp only
        rw [Std.ExtTreeMap.size_insert, hside.present]
        by_cases hS : S = ∅ <;> simp [hS]
      · rw [hbytes, hstored, buffers, buffers, if_neg hne, decide_eq_false hnot]
        by_cases hS : S = ∅ <;> simp [hS]
  | last new all channels history =>
      have hstored : EnetRs.stored (fragCount fp m) j S = ∅ := if_pos all
      -- it was not the first one
      have hS : S ≠ ∅ := by
        rintro rfl
        rw [Finset.card_insert_of_notMem new, Finset.card_empty] at all
        omega
      have hbuf := releaseAssembled_fragmentBuffers
        { c with fragmentBuffers := c.fragmentBuffers.erase key } (fragmentOf key fp m j) reliable m
      refine ⟨_, _, channels, history, ?_, ?_, ?_, ?_, fun _ => rfl, fun hnot => absurd all hnot⟩
      · rw [hstored]
        refine ⟨.inl ⟨?_, rfl⟩, ?_, ?_⟩
        · rw [hbuf]
          exact Std.ExtTreeMap.getElem?_erase_self
        · rw [hbuf]
          simp
        · rw [Finset.card_empty]
          omega
      · intro k hk
        rw [hbuf]
        simp only
        rw [Std.ExtTreeMap.getElem?_erase, if_neg (by simpa using hk.symm)]
      · rw [hstored, hbuf, buffers, buffers, if_neg hS, if_pos rfl]
        simp only
        have hcontains : c.fragmentBuffers.contains key = true := by simp [hside.present, hS]
        have hsize := Collections.size_erase_of_contains hcontains
        omega
      · rw [buffers, if_neg hS] at hcharged
        rw [hbytes, hstored, buffers, buffers, if_neg hS, if_pos rfl, decide_eq_true all]
        simp only [hS, ne_eq, not_false_eq_true, decide_true, if_true]
        omega

end PeerEntry

end EnetRs
