/-
  EnetRs.Host.Channels — what an operation does to the channels of an entry.

  Every operation leaves the channel vector alone or changes one channel of
  it: `channelOf` names that channel, `channelStep` is the channel afterwards.

  Main results:
    * `PeerOp.apply_channels` — the channel vector after an operation.
    * `PeerOp.map_channels` — a reading of a channel that its step keeps.
    * `PeerOp.channels_length` — the number of channels never changes.
-/
import EnetRs.Host.Frames
import EnetRs.Lib.Collections

namespace EnetRs

open MachineInt

/-! ## §1. Numbers handed out. -/

namespace Channel

/-- `n` reliable numbers handed out. -/
def advance (c : Channel) (n : Nat) : Channel :=
  { c with outgoingReliableSeq := c.outgoingReliableSeq + BitVec.ofNat 16 n }

theorem nextReliableSeq_eq (c : Channel) : c.nextReliableSeq = c.advance 1 := rfl

@[simp] theorem advance_zero (c : Channel) : c.advance 0 = c := by
  simp [advance]

@[simp] theorem advance_advance (c : Channel) (m n : Nat) :
    (c.advance m).advance n = c.advance (m + n) := by
  simp [advance, BitVec.ofNat_add, BitVec.add_assoc]

end Channel

namespace PeerEntry

variable {p : PeerEntry}

theorem nextReliableSeq_channels (p : PeerEntry) (ch : U8) :
    (p.nextReliableSeq ch).1.channels = p.channels.modify ch.toNat (·.advance 1) := by
  unfold nextReliableSeq
  split
  · next c hc => exact (Collections.modify_of_getElem? _ hc).symm
  · next hc => exact (List.modify_eq_self (List.getElem?_eq_none_iff.mp hc)).symm

/-- Fragments after the first take one number each. -/
theorem fragmentLoop_channels (ch : U8) (startSeq : U16) (fp : Nat) (data : Bytes) (nowMs : U32) :
    ∀ (n i : Nat) (p : PeerEntry), i ≠ 0 →
      (fragmentLoop ch startSeq fp data nowMs n i p).1.channels
        = p.channels.modify ch.toNat (·.advance n) := by
  intro n
  induction n with
  | zero =>
      intro i p _
      simp only [fragmentLoop, Channel.advance_zero]
      exact (List.modify_id _ _).symm
  | succ n ih =>
      intro i p hi
      unfold fragmentLoop
      simp only [hi, if_false]
      rw [ih (i + 1) _ (Nat.succ_ne_zero i)]
      show List.modify (p.nextReliableSeq ch).1.channels _ _ = _
      rw [nextReliableSeq_channels, List.modify_modify_eq]
      congr 1
      funext c
      simp [Nat.add_comm]

theorem numberFragments_channels (p : PeerEntry) (pkt : Packet) (fp : Nat) (nowMs : U32) :
    (p.numberFragments pkt fp nowMs).1.channels
      = p.channels.modify pkt.channel.toNat (·.advance (fragCount fp pkt.data - 1 + 1)) := by
  unfold numberFragments
  simp only [log]
  -- the first fragment uses the number taken before the loop
  cases hn : fragCount fp pkt.data with
  | zero => exact nextReliableSeq_channels p pkt.channel
  | succ n =>
      unfold fragmentLoop
      simp only [if_true]
      rw [fragmentLoop_channels _ _ _ _ _ n 1 _ (by decide)]
      show List.modify (p.nextReliableSeq pkt.channel).1.channels _ _ = _
      rw [nextReliableSeq_channels, List.modify_modify_eq]
      congr 1
      funext c
      simp [Nat.add_comm]

theorem numberWhole_channels (p : PeerEntry) (pkt : Packet) (nowMs : U32)
    (hch : pkt.channel ≠ channelIdConnection) :
    (p.numberWhole pkt nowMs).1.channels = p.channels.modify pkt.channel.toNat (·.advance 1) := by
  unfold numberWhole makeReliable takeSeq
  simp only [hch, if_false]
  exact nextReliableSeq_channels p pkt.channel

/-! ## §2. Arrivals. -/

/-- The channel after a fragment that was neither malformed nor refused, and
the messages it made deliverable. -/
def fragmentStep (c : Channel) (sf : SendFragmentCmd) (reliable : Bool) : Channel × List Bytes :=
  let (buf, done) :=
    (fragmentBufferFor c sf).receive sf.fragmentNumber sf.fragmentOffset.toNat sf.data
  if done then
    releaseAssembled { c with fragmentBuffers := c.fragmentBuffers.erase sf.startSeq } sf reliable
      buf.finish
  else ({ c with fragmentBuffers := c.fragmentBuffers.insert sf.startSeq buf }, [])

theorem storeFragment_channels (p : PeerEntry) (ch : U8) (c : Channel) (sf : SendFragmentCmd)
    (reliable : Bool) (hok : fragmentRefused p c sf = false) :
    (p.storeFragment ch c sf reliable).1.channels
      = p.channels.set ch.toNat (fragmentStep c sf reliable).1 := by
  unfold storeFragment fragmentStep
  simp only [hok, Bool.false_eq_true, if_false]
  split <;> rfl

theorem storeFragment_ready (p : PeerEntry) (ch : U8) (c : Channel) (sf : SendFragmentCmd)
    (reliable : Bool) (hok : fragmentRefused p c sf = false) :
    (p.storeFragment ch c sf reliable).2 = (fragmentStep c sf reliable).2 := by
  unfold storeFragment fragmentStep
  simp only [hok, Bool.false_eq_true, if_false]
  split <;> rfl

@[simp] theorem deliverAll_channels (ch : U8) (mode : SendMode) (ready : List Bytes) :
    (p.deliverAll ch mode ready).channels = p.channels := by
  rw [deliverAll_eq]

end PeerEntry

namespace Channel

/-- The numbers the channel has handed out: reliable, unreliable, unsequenced. -/
def sendCounters (c : Channel) : U16 × U16 × U16 :=
  (c.outgoingReliableSeq, c.outgoingUnreliableSeq, c.outgoingUnsequencedGroup)

/-- **The loop ends because nothing follows**, not because the fuel is used up. -/
theorem drainLoop_stuck : ∀ (fuel : Nat) (c : Channel), c.incomingReliableQueue.size ≤ fuel →
    (drainLoop fuel c).1.incomingReliableQueue[(drainLoop fuel c).1.incomingReliableSeq + 1]?
      = none := by
  intro fuel
  induction fuel with
  | zero =>
      intro c hsize
      exact Collections.getElem?_of_size_zero (Nat.le_zero.mp hsize) _
  | succ fuel ih =>
      intro c hsize
      unfold drainLoop
      simp only
      cases hnext : c.incomingReliableQueue[c.incomingReliableSeq + 1]? with
      | none => exact hnext
      | some d =>
          -- one entry less in the queue
          refine ih _ ?_
          have hsize' := Collections.size_erase_of_some hnext
          show (c.incomingReliableQueue.erase (c.incomingReliableSeq + 1)).size ≤ fuel
          omega

theorem drain_stuck (c : Channel) :
    c.drain.1.incomingReliableQueue[c.drain.1.incomingReliableSeq + 1]? = none :=
  drainLoop_stuck _ c (Nat.le_refl _)

/-! Arrivals leave them alone. -/

theorem drainLoop_outgoing (fuel : Nat) (c : Channel) :
    (drainLoop fuel c).1.sendCounters = c.sendCounters := by
  induction fuel generalizing c with
  | zero => rfl
  | succ fuel ih =>
      unfold drainLoop
      simp only
      split
      · exact ih _
      · rfl

theorem receiveReliable_outgoing (c : Channel) (seq : U16) (data : Bytes) :
    (c.receiveReliable seq data).1.sendCounters = c.sendCounters := by
  unfold receiveReliable
  simp only
  split
  · exact drainLoop_outgoing _ _
  · repeat' split
    all_goals rfl

theorem receiveUnreliable_outgoing (c : Channel) (seq : U16) (data : Bytes) :
    (c.receiveUnreliable seq data).1.sendCounters = c.sendCounters := by
  unfold receiveUnreliable
  split <;> rfl

theorem releaseAssembled_outgoing (c : Channel) (sf : SendFragmentCmd) (reliable : Bool)
    (assembled : Bytes) :
    (PeerEntry.releaseAssembled c sf reliable assembled).1.sendCounters
      = c.sendCounters := by
  unfold PeerEntry.releaseAssembled
  cases reliable with
  | true =>
      have hrecv := receiveReliable_outgoing c sf.startSeq assembled
      generalize c.receiveReliable sf.startSeq assembled = r at hrecv ⊢
      simp only [if_true]
      split
      · exact (drainLoop_outgoing _ _).trans hrecv
      · exact hrecv
  | false =>
      have hrecv := receiveUnreliable_outgoing c sf.startSeq assembled
      simp only [Bool.false_eq_true, if_false]
      split
      · next heq => rw [heq] at hrecv; exact hrecv
      · next heq => rw [heq] at hrecv; exact hrecv

theorem fragmentStep_outgoing (c : Channel) (sf : SendFragmentCmd) (reliable : Bool) :
    (PeerEntry.fragmentStep c sf reliable).1.sendCounters = c.sendCounters := by
  unfold PeerEntry.fragmentStep
  simp only
  split
  · exact releaseAssembled_outgoing _ _ _ _
  · rfl

end Channel

/-! ## §3. The channel vector after an operation. -/

namespace PeerOp

/-- The channel an operation may change. -/
def channelOf : PeerOp → Option U8
  | recvReliable ch _ _ | recvUnreliable ch _ _ _ | recvFragment ch _ _ => some ch
  | nextUnreliable ch _ | nextUnsequenced ch _ => some ch
  | numberWhole pkt | numberFragments pkt _ => some pkt.channel
  | _ => none

/-- That channel of the entry `p` after the operation. -/
def channelStep (p : PeerEntry) (c : Channel) : PeerOp → Channel
  | recvReliable _ seq data => (c.receiveReliable seq data).1
  | recvUnreliable _ rseq useq data =>
      if seqLt rseq c.incomingReliableSeq then c else (c.receiveUnreliable useq data).1
  | recvFragment _ sf reliable =>
      if PeerEntry.fragmentMalformed sf || p.fragmentRefused c sf then c
      else (PeerEntry.fragmentStep c sf reliable).1
  | nextUnreliable _ _ => c.nextUnreliableSeq
  | nextUnsequenced _ _ => c.nextUnsequencedGroup
  | numberWhole _ => c.advance 1
  | numberFragments pkt fp => c.advance (fragCount fp pkt.data - 1 + 1)
  | _ => c

/-- The operations that take a number of a channel. -/
def TakesNumber : PeerOp → Prop
  | numberWhole _ | numberFragments _ _ | nextUnreliable _ _ | nextUnsequenced _ _ => True
  | _ => False

variable {h : HostTask} {nowMs : U32} {p : PeerEntry} {o : PeerOp}

/-- With at most 255 channels none has the number of the connection. -/
theorem Sendable.channel_ne {pkt : Packet} {c : Channel} (hs : Sendable p pkt c)
    (hlen : p.channels.length ≤ 255) : pkt.channel ≠ channelIdConnection := by
  intro heq
  have hlt := (List.getElem?_eq_some_iff.mp hs.2.2).1
  rw [heq] at hlt
  have : channelIdConnection.toNat = 255 := rfl
  omega

theorem apply_channels_none (nowMs : U32) (p : PeerEntry) (ho : o.channelOf = none) :
    (o.apply nowMs p).channels = p.channels := by
  refine (o.get_apply (·.channels) nowMs p).trans ?_
  cases o with
  | recvReliable | recvUnreliable | recvFragment | nextUnreliable | nextUnsequenced
  | numberWhole | numberFragments => cases ho
  | _ => rfl

/-- The channel vector after an arrival, which looks the channel up first; there
may be none. -/
theorem apply_channels_of_arrival {ch : U8} (nowMs : U32) (p : PeerEntry)
    (ho : o.channelOf = some ch) (hn : ¬ o.TakesNumber) :
    (o.apply nowMs p).channels = p.channels.modify ch.toNat fun c => o.channelStep p c := by
  have hlookup : ∀ {q : PeerEntry} {g : Channel → Channel},
      (p.channels[ch.toNat]? = none → q.channels = p.channels) →
      (∀ c, p.channels[ch.toNat]? = some c → q.channels = p.channels.set ch.toNat (g c)) →
      q.channels = p.channels.modify ch.toNat g := by
    intro q g hnone hsome
    cases hc : p.channels[ch.toNat]? with
    | none => rw [hnone hc, List.modify_eq_self (List.getElem?_eq_none_iff.mp hc)]
    | some c => rw [hsome c hc, Collections.modify_of_getElem? _ hc]
  cases o with
  | recvReliable ch' seq data =>
      cases ho
      refine hlookup (fun hc => ?_) fun c hc => ?_ <;>
        simp [apply, PeerEntry.onSendReliable, hc, channelStep]
  | recvUnreliable ch' rseq useq data =>
      cases ho
      refine hlookup (fun hc => ?_) fun c hc => ?_
      · simp [apply, PeerEntry.onSendUnreliable, hc]
      · simp only [apply, PeerEntry.onSendUnreliable, hc, channelStep]
        split
        · exact (Collections.set_of_getElem? hc).symm
        · simp
  | recvFragment ch' sf reliable =>
      cases ho
      refine hlookup (fun hc => ?_) fun c hc => ?_
      · simp only [apply, PeerEntry.onFragment, hc]
        split <;> rfl
      · have hsame : p.channels.set ch.toNat c = p.channels := Collections.set_of_getElem? hc
        simp only [apply, PeerEntry.onFragment, hc, channelStep]
        cases hmal : PeerEntry.fragmentMalformed sf with
        | true => simp [hsame]
        | false =>
            simp only [Bool.false_eq_true, if_false, Bool.false_or, PeerEntry.deliverAll_channels]
            cases href : p.fragmentRefused c sf with
            | true =>
                have href' : ({ p with lastReceiveTime := nowMs } : PeerEntry).fragmentRefused c sf
                    = true := href
                simp [PeerEntry.storeFragment, href', hsame]
            | false => exact PeerEntry.storeFragment_channels _ ch c sf reliable href
  | numberWhole | numberFragments | nextUnreliable | nextUnsequenced => exact absurd trivial hn
  | _ => cases ho

/-- **The channel vector after an operation.** -/
theorem apply_channels {ch : U8} (ho : o.channelOf = some ch) (hg : o.Guard h p)
    (hlen : p.channels.length ≤ 255) :
    (o.apply nowMs p).channels = p.channels.modify ch.toNat fun c => o.channelStep p c := by
  by_cases hn : o.TakesNumber
  · cases o with
    | nextUnreliable ch' c =>
        cases ho
        exact (Collections.modify_of_getElem? _ hg.2).symm
    | nextUnsequenced ch' c =>
        cases ho
        exact (Collections.modify_of_getElem? _ hg.2).symm
    | numberWhole pkt =>
        cases ho
        obtain ⟨c, hs, -⟩ := hg
        exact PeerEntry.numberWhole_channels p pkt nowMs (hs.channel_ne hlen)
    | numberFragments pkt fp =>
        cases ho
        exact PeerEntry.numberFragments_channels p pkt fp nowMs
    | _ => exact hn.elim
  · exact apply_channels_of_arrival nowMs p ho hn

/-- A reading that the operation's step keeps reads the same in every channel. -/
theorem map_channels {α : Type} (f : Channel → α) (nowMs : U32)
    (hf : ∀ c, f (o.channelStep p c) = f c) (hg : o.Guard h p) (hlen : p.channels.length ≤ 255) :
    (o.apply nowMs p).channels.map f = p.channels.map f := by
  cases ho : o.channelOf with
  | none => rw [apply_channels_none nowMs p ho]
  | some ch => rw [apply_channels ho hg hlen, Collections.map_modify_of_eq f hf]

/-- No other moves a number of the channel. -/
theorem channelStep_sendCounters (p : PeerEntry) (c : Channel) (ho : ¬ o.TakesNumber) :
    (o.channelStep p c).sendCounters = c.sendCounters := by
  cases o with
  | numberWhole | numberFragments | nextUnreliable | nextUnsequenced => exact absurd trivial ho
  | recvReliable ch seq data => exact Channel.receiveReliable_outgoing c seq data
  | recvUnreliable ch rseq useq data =>
      simp only [channelStep]
      split
      · rfl
      · exact Channel.receiveUnreliable_outgoing c useq data
  | recvFragment ch sf reliable =>
      simp only [channelStep]
      split
      · rfl
      · exact Channel.fragmentStep_outgoing c sf reliable
  | _ => rfl

/-- Only numbering a packet moves a channel's reliable number. -/
theorem channelStep_outgoing (p : PeerEntry) (c : Channel) (hw : ∀ pkt, o ≠ .numberWhole pkt)
    (hf : ∀ pkt fp, o ≠ .numberFragments pkt fp) :
    (o.channelStep p c).outgoingReliableSeq = c.outgoingReliableSeq := by
  by_cases ho : o.TakesNumber
  · cases o with
    | numberWhole pkt => exact absurd rfl (hw pkt)
    | numberFragments pkt fp => exact absurd rfl (hf pkt fp)
    | nextUnreliable | nextUnsequenced => rfl
    | _ => exact ho.elim
  · exact congrArg (·.1) (channelStep_sendCounters p c ho)

/-- Only an unsequenced packet moves a channel's group. -/
theorem channelStep_group (p : PeerEntry) (c : Channel) (hn : ∀ ch c, o ≠ .nextUnsequenced ch c) :
    (o.channelStep p c).outgoingUnsequencedGroup = c.outgoingUnsequencedGroup := by
  by_cases ho : o.TakesNumber
  · cases o with
    | nextUnsequenced ch c => exact absurd rfl (hn ch c)
    | numberWhole | numberFragments | nextUnreliable => rfl
    | _ => exact ho.elim
  · exact congrArg (·.2.2) (channelStep_sendCounters p c ho)

theorem channels_length (nowMs : U32) (hg : o.Guard h p) (hlen : p.channels.length ≤ 255) :
    (o.apply nowMs p).channels.length = p.channels.length := by
  cases ho : o.channelOf with
  | none => rw [apply_channels_none nowMs p ho]
  | some ch => rw [apply_channels ho hg hlen, List.length_modify]

end PeerOp

end EnetRs
