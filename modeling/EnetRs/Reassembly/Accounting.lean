/-
  EnetRs.Reassembly.Accounting — the memory budget of fragment reassembly.

  `on_fragment` charges a new reassembly by the length its first fragment
  announces and releases it by the length its last fragment announces.  The
  counter tells the truth as long as the two agree whenever a reassembly is
  completed; the sender of the fragments decides whether they do.

  Main results:
    * `PeerEntry.onFragment_accounted_iff` — one fragment.
    * `HostTask.fragment_bytes_accounted` — every run.
-/
import EnetRs.Host.Bounds

namespace EnetRs

open MachineInt Collections

/-! ## §1. What a fragment does to the buffers. -/

/-- Bytes held in the reassembly buffers of a channel. -/
def Channel.heldBytes (c : Channel) : Nat :=
  totalWeight (fun b : FragmentBuffer => b.buf.length) c.fragmentBuffers

/-- Bytes held in the reassembly buffers of all channels. -/
def PeerEntry.heldBytes (p : PeerEntry) : Nat := (p.channels.map Channel.heldBytes).sum

theorem FragmentBuffer.receive_buf_length (b : FragmentBuffer) (n : U32) (offset : Nat)
    (data : Bytes) : (b.receive n offset data).1.buf.length = b.buf.length := by
  unfold receive
  split
  · rfl
  · split
    · rfl
    · split
      · rfl
      · simp only [List.length_append, List.length_take, List.length_drop]
        omega

namespace Channel

theorem drainLoop_fragmentBuffers (fuel : Nat) (c : Channel) :
    (drainLoop fuel c).1.fragmentBuffers = c.fragmentBuffers := by
  induction fuel generalizing c with
  | zero => rfl
  | succ fuel ih =>
      unfold drainLoop
      simp only
      split
      · exact ih _
      · rfl

theorem receiveReliable_fragmentBuffers (c : Channel) (seq : U16) (data : Bytes) :
    (c.receiveReliable seq data).1.fragmentBuffers = c.fragmentBuffers := by
  unfold receiveReliable
  simp only
  split
  · exact drainLoop_fragmentBuffers _ _
  · split
    · split <;> rfl
    · rfl

theorem receiveUnreliable_fragmentBuffers (c : Channel) (seq : U16) (data : Bytes) :
    (c.receiveUnreliable seq data).1.fragmentBuffers = c.fragmentBuffers := by
  unfold receiveUnreliable
  split <;> rfl

end Channel

namespace PeerEntry

theorem releaseAssembled_fragmentBuffers (c : Channel) (sf : SendFragmentCmd) (reliable : Bool)
    (assembled : Bytes) :
    (releaseAssembled c sf reliable assembled).1.fragmentBuffers = c.fragmentBuffers := by
  have hrel := c.receiveReliable_fragmentBuffers sf.startSeq assembled
  have hunrel := c.receiveUnreliable_fragmentBuffers sf.startSeq assembled
  unfold releaseAssembled
  split
  · simp only
    split
    · exact (Channel.drainLoop_fragmentBuffers _ _).trans hrel
    · exact hrel
  · split <;> next heq => rw [heq] at hunrel; exact hunrel

/-- **Bytes held after a fragment**: a new buffer comes in, a completed one goes. -/
theorem fragmentStep_heldBytes (c : Channel) (sf : SendFragmentCmd) (reliable : Bool) :
    (fragmentStep c sf reliable).1.heldBytes
        + (if completes c sf then (fragmentBufferFor c sf).buf.length else 0)
      = c.heldBytes
        + (if c.fragmentBuffers.contains sf.startSeq then 0 else sf.totalLength.toNat) := by
  -- what was held without the buffer of this message
  have hrest : c.heldBytes
      + (if c.fragmentBuffers.contains sf.startSeq then 0 else sf.totalLength.toNat)
      = (fragmentBufferFor c sf).buf.length
        + totalWeight (fun b => b.buf.length) (c.fragmentBuffers.erase sf.startSeq) := by
    unfold fragmentBufferFor
    cases hb : c.fragmentBuffers[sf.startSeq]? with
    | none =>
        have hnot : c.fragmentBuffers.contains sf.startSeq = false := by
          rw [Std.ExtTreeMap.contains_eq_isSome_getElem?, hb]
          rfl
        simp only [hnot, Bool.false_eq_true, if_false, Option.getD_none, FragmentBuffer.new,
          List.length_replicate, erase_of_none hb, Channel.heldBytes]
        omega
    | some b =>
        have hin : c.fragmentBuffers.contains sf.startSeq = true := by
          rw [Std.ExtTreeMap.contains_eq_isSome_getElem?, hb]
          rfl
        simp only [hin, if_true, Option.getD_some, Channel.heldBytes, totalWeight_erase _ hb]
        omega
  rw [hrest]
  unfold fragmentStep completes
  have hlen := (fragmentBufferFor c sf).receive_buf_length sf.fragmentNumber
    sf.fragmentOffset.toNat sf.data
  generalize (fragmentBufferFor c sf).receive sf.fragmentNumber sf.fragmentOffset.toNat sf.data = r
    at *
  obtain ⟨buf, done⟩ := r
  cases done with
  | true =>
      simp only [if_true, Channel.heldBytes, releaseAssembled_fragmentBuffers]
      omega
  | false =>
      simp only [Bool.false_eq_true, if_false, Channel.heldBytes, totalWeight_insert]
      simp only at hlen
      omega

/-! ## §2. The counter. -/

/-- The counter agrees with the buffers, and they fit the budget. -/
structure Accounted (p : PeerEntry) : Prop where
  counter : p.fragmentBytesInFlight = p.heldBytes
  budget : p.heldBytes ≤ maxFragmentBytesPerPeer

theorem Accounted.congr {p q : PeerEntry}
    (hbytes : q.fragmentBytesInFlight = p.fragmentBytesInFlight)
    (hheld : q.channels.map Channel.heldBytes = p.channels.map Channel.heldBytes) :
    Accounted q ↔ Accounted p := by
  have hsum : q.heldBytes = p.heldBytes := congrArg List.sum hheld
  constructor
  · rintro ⟨h₁, h₂⟩
    exact ⟨by rw [← hbytes, h₁, hsum], by rw [← hsum]; exact h₂⟩
  · rintro ⟨h₁, h₂⟩
    exact ⟨by rw [hbytes, h₁, hsum], by rw [hsum]; exact h₂⟩

/-- A fragment for channel `c` that completes a reassembly announces the length
the buffer was made with.  (With no other reassembly in progress, announcing
more does no harm: the release saturates at zero.) -/
def announcesCharge (p : PeerEntry) (c : Channel) (sf : SendFragmentCmd) : Bool :=
  !completes c sf
    || decide ((fragmentBufferFor c sf).buf.length = sf.totalLength.toNat)
    || (decide (p.fragmentBytesInFlight ≤ (fragmentBufferFor c sf).buf.length)
      && decide (p.fragmentBytesInFlight ≤ sf.totalLength.toNat))

/-- The same for a fragment just received, which may be malformed or name a
channel that does not exist. -/
def releasesCharge (p : PeerEntry) (ch : U8) (sf : SendFragmentCmd) : Bool :=
  match p.channels[ch.toNat]? with
  | none => true
  | some c => fragmentMalformed sf || p.announcesCharge c sf

theorem storeFragment_bytes (p : PeerEntry) (ch : U8) (c : Channel) (sf : SendFragmentCmd)
    (reliable : Bool) (hok : fragmentRefused p c sf = false) :
    (p.storeFragment ch c sf reliable).1.fragmentBytesInFlight
      = p.fragmentBytesInFlight
          + (if c.fragmentBuffers.contains sf.startSeq then 0 else sf.totalLength.toNat)
          - (if completes c sf then sf.totalLength.toNat else 0) := by
  unfold storeFragment completes
  simp only [hok, Bool.false_eq_true, if_false]
  split <;> split <;> rfl

theorem heldBytes_set {p : PeerEntry} {i : Nat} {c : Channel} (c' : Channel)
    (hc : p.channels[i]? = some c) :
    ((p.channels.set i c').map Channel.heldBytes).sum + c.heldBytes
      = p.heldBytes + c'.heldBytes := by
  rw [← modify_of_getElem? (fun _ => c') hc]
  exact sum_map_modify Channel.heldBytes _ hc

/-- A buffer made for this fragment has the length the fragment announces. -/
theorem fragmentBufferFor_new {c : Channel} {sf : SendFragmentCmd}
    (hnew : c.fragmentBuffers.contains sf.startSeq = false) :
    (fragmentBufferFor c sf).buf.length = sf.totalLength.toNat := by
  have hnone : c.fragmentBuffers[sf.startSeq]? = none := by
    rw [Std.ExtTreeMap.contains_eq_isSome_getElem?, Option.isSome_eq_false_iff] at hnew
    exact Option.isNone_iff_eq_none.mp hnew
  simp [fragmentBufferFor, hnone, FragmentBuffer.new]

theorem storeFragment_accounted_iff {p : PeerEntry} (hp : Accounted p) {ch : U8} {c : Channel}
    (hc : p.channels[ch.toNat]? = some c) (sf : SendFragmentCmd) (reliable : Bool) :
    Accounted (p.storeFragment ch c sf reliable).1 ↔ p.announcesCharge c sf = true := by
  obtain ⟨hcount, hbudget⟩ := hp
  cases href : p.fragmentRefused c sf with
  | true =>
      -- refused means new, and a new buffer has the announced length
      have hnew : c.fragmentBuffers.contains sf.startSeq = false := by
        simp only [fragmentRefused, Bool.and_eq_true, Bool.not_eq_true'] at href
        exact href.1
      have hstay : (p.storeFragment ch c sf reliable).1 = p := by
        simp [storeFragment, href]
      rw [hstay]
      simp [announcesCharge, fragmentBufferFor_new hnew, Accounted.mk hcount hbudget]
  | false =>
      have hbytes := storeFragment_bytes p ch c sf reliable href
      have hheld : (p.storeFragment ch c sf reliable).1.heldBytes + c.heldBytes
          = p.heldBytes + (fragmentStep c sf reliable).1.heldBytes := by
        unfold heldBytes
        rw [storeFragment_channels p ch c sf reliable href]
        exact heldBytes_set _ hc
      have hstep := fragmentStep_heldBytes c sf reliable
      -- the byte budget was checked if the reassembly is new
      have hroom : c.fragmentBuffers.contains sf.startSeq = false →
          p.fragmentBytesInFlight + sf.totalLength.toNat ≤ maxFragmentBytesPerPeer := by
        intro hnew
        simp only [fragmentRefused, hnew, Bool.not_false, Bool.true_and, Bool.or_eq_false_iff,
          decide_eq_false_iff_not, Nat.not_lt] at href
        exact href.2
      have hnewLen : c.fragmentBuffers.contains sf.startSeq = false →
          (fragmentBufferFor c sf).buf.length = sf.totalLength.toNat := fragmentBufferFor_new
      have hiff : Accounted (p.storeFragment ch c sf reliable).1 ↔
          (p.storeFragment ch c sf reliable).1.fragmentBytesInFlight
            = (p.storeFragment ch c sf reliable).1.heldBytes
          ∧ (p.storeFragment ch c sf reliable).1.heldBytes ≤ maxFragmentBytesPerPeer :=
        ⟨fun h => ⟨h.1, h.2⟩, fun h => ⟨h.1, h.2⟩⟩
      rw [hiff, hbytes]
      unfold announcesCharge
      simp only [Bool.or_eq_true, Bool.not_eq_true', Bool.and_eq_true, decide_eq_true_eq]
      generalize (p.storeFragment ch c sf reliable).1.heldBytes = held' at *
      generalize (fragmentStep c sf reliable).1.heldBytes = cheld' at *
      generalize completes c sf = done at *
      generalize c.fragmentBuffers.contains sf.startSeq = known at *
      clear hbytes hiff href
      cases done <;> cases known <;>
        simp only [Bool.false_eq_true, if_false, if_true, true_or, iff_true, reduceCtorEq,
          false_or, forall_const, Nat.sub_zero, Nat.add_zero] at * <;> omega

/-- **One fragment** keeps the accounting exactly if it releases what its
reassembly was charged. -/
theorem onFragment_accounted_iff {p : PeerEntry} (hp : Accounted p) (ch : U8)
    (sf : SendFragmentCmd) (reliable : Bool) (nowMs : U32) :
    Accounted (p.onFragment ch sf reliable nowMs) ↔ p.releasesCharge ch sf = true := by
  have hp' : Accounted { p with lastReceiveTime := nowMs } := ⟨hp.counter, hp.budget⟩
  unfold onFragment releasesCharge
  cases hc : p.channels[ch.toNat]? with
  | none =>
      simp only [hc, iff_true]
      split <;> assumption
  | some c =>
      cases hmal : fragmentMalformed sf with
      | true => simpa using hp
      | false =>
          simp only [Bool.false_eq_true, if_false, hc, Bool.false_or]
          have hdel := fun q mode ready => Accounted.congr
            (q := PeerEntry.deliverAll q ch mode ready) (p := q)
            (by rw [deliverAll_eq]) (by rw [deliverAll_channels])
          rw [hdel]
          exact storeFragment_accounted_iff hp' hc sf reliable

end PeerEntry

/-! ## §3. Every run. -/

/-- Only fragments touch the counter. -/
theorem PeerOp.apply_fragmentBytes {o : PeerOp} (nowMs : U32) (p : PeerEntry)
    (ho : ∀ ch sf reliable, o ≠ .recvFragment ch sf reliable) :
    (o.apply nowMs p).fragmentBytesInFlight = p.fragmentBytesInFlight := by
  refine (o.get_apply (·.fragmentBytesInFlight) nowMs p).trans ?_
  cases o with
  | recvFragment ch sf reliable => exact absurd rfl (ho ch sf reliable)
  | _ => rfl

/-- Only fragments touch the buffers. -/
theorem PeerOp.channelStep_heldBytes {o : PeerOp} (p : PeerEntry) (c : Channel)
    (ho : ∀ ch sf reliable, o ≠ .recvFragment ch sf reliable) :
    (o.channelStep p c).heldBytes = c.heldBytes := by
  unfold Channel.heldBytes
  cases o with
  | recvFragment ch sf reliable => exact absurd rfl (ho ch sf reliable)
  | recvReliable ch seq data =>
      simp only [channelStep, Channel.receiveReliable_fragmentBuffers]
  | recvUnreliable ch rseq useq data =>
      simp only [channelStep]
      split
      · rfl
      · rw [Channel.receiveUnreliable_fragmentBuffers]
  | _ => rfl

theorem PeerOp.apply_accounted {h : HostTask} {nowMs : U32} {p : PeerEntry} {o : PeerOp}
    (hp : p.Accounted) (hg : o.Guard h p) (hlen : p.channels.length ≤ 255)
    (hrel : ∀ ch sf reliable, o = .recvFragment ch sf reliable → p.releasesCharge ch sf = true) :
    (o.apply nowMs p).Accounted := by
  by_cases ho : ∃ ch sf reliable, o = .recvFragment ch sf reliable
  · obtain ⟨ch, sf, reliable, rfl⟩ := ho
    exact (PeerEntry.onFragment_accounted_iff hp ch sf reliable nowMs).mpr
      (hrel ch sf reliable rfl)
  · have hne : ∀ ch sf reliable, o ≠ .recvFragment ch sf reliable :=
      fun ch sf reliable heq => ho ⟨ch, sf, reliable, heq⟩
    refine (PeerEntry.Accounted.congr (apply_fragmentBytes nowMs p hne) ?_).mpr hp
    exact map_channels Channel.heldBytes nowMs (fun c => channelStep_heldBytes p c hne) hg hlen

theorem IsNewEntry.accounted {h : HostTask} {slot : PeerKey} {nowMs : U32} {entry : PeerEntry}
    (hn : IsNewEntry h slot nowMs entry) : entry.Accounted := by
  have hzero : ∀ n, ((List.replicate n Channel.new).map Channel.heldBytes).sum = 0 := by
    intro n
    have hnew : Channel.new.heldBytes = 0 := totalWeight_empty _
    rw [List.map_replicate, hnew]
    simp
  have hfresh : entry.fragmentBytesInFlight = 0 ∧ entry.heldBytes = 0 := by
    rcases hn with ⟨addr, channelCount, userData, reply, connectId, rfl⟩ | ⟨c, hdr, src, rfl⟩
    · exact ⟨rfl, hzero _⟩
    · exact ⟨rfl, hzero _⟩
  exact ⟨by rw [hfresh.1, hfresh.2], by rw [hfresh.2]; exact Nat.zero_le _⟩

/-- The fragment a command carries, reliable or not. -/
def Command.fragment (cmd : Command) : Option SendFragmentCmd :=
  match cmd.body with
  | .sendFragment sf | .sendUnreliableFragment sf => some sf
  | _ => none

namespace HostTask

/-- A fragment about to be processed releases what its reassembly was charged. -/
def ReleasesCharge (h : HostTask) (key : Option PeerKey) (_src : SocketAddr) (cmd : Command) :
    Prop :=
  ∀ p ∈ key.bind h.peer, ∀ sf ∈ cmd.fragment, p.releasesCharge cmd.header.channelId sf = true

instance (h : HostTask) (key : Option PeerKey) (src : SocketAddr) (cmd : Command) :
    Decidable (ReleasesCharge h key src cmd) := by
  unfold ReleasesCharge
  infer_instance

/-- **Fragment memory accounting.**  In a run in which every fragment that
completes a reassembly announces the length it was charged with, the counter of
each peer is the number of bytes its buffers hold; they stay within 16 MiB, and
the counter is zero when no reassembly is in progress. -/
theorem fragment_bytes_accounted (acceptCapacity maxPeers : Nat) (useChecksum : Bool)
    (incomingBandwidth outgoingBandwidth : U32) (is : List Timed) (h : HostTask)
    (hrun : (HostTask.new acceptCapacity maxPeers useChecksum incomingBandwidth
      outgoingBandwidth).run is = some h)
    (hm : Transition.Meets timedStep (StepMeets ReleasesCharge fun _ _ _ => True)
      (HostTask.new acceptCapacity maxPeers useChecksum incomingBandwidth outgoingBandwidth) is)
    (k : PeerKey) (p : PeerEntry) (hp : h.peer k = some p) :
    p.fragmentBytesInFlight = p.heldBytes ∧ p.heldBytes ≤ maxFragmentBytesPerPeer
      ∧ ((∀ c ∈ p.channels, c.fragmentBuffers.isEmpty = true) → p.fragmentBytesInFlight = 0) := by
  have hacc : p.Accounted := by
    refine run_entries (C := fun h l => ∀ k ch sf reliable p, l = .op k (.recvFragment ch sf reliable) →
      h.peer k = some p → p.releasesCharge ch sf = true) ?_ ?_ ?_ ?_ ?_ ?_ ?_ hrun hm k p hp
    · -- a command makes the change in the state in which the condition was checked
      rintro nowMs h key src cmd h' l hP hmakes k ch sf reliable p rfl hp
      obtain ⟨rfl, rfl, hrec⟩ := hmakes
      cases reliable with
      | true =>
          obtain ⟨-, hb, rfl⟩ := hrec
          exact hP p hp sf (by simp [Command.fragment, hb])
      | false =>
          obtain ⟨-, hb, rfl⟩ := hrec
          exact hP p hp sf (by simp [Command.fragment, hb])
    · rintro h key pkt h' l - hmakes k ch sf reliable p rfl hp
      exact hmakes.2.2.elim
    · rintro h l hother k ch sf reliable p rfl hp
      exact hother.elim
    · rintro h k' o hhandles k ch sf reliable p heq hp
      cases heq
      exact hhandles.elim
    · rintro nowMs h slot addr channelCount data reply connectId k ch sf reliable p heq
      cases heq
    · intro nowMs h slot entry hn _
      exact hn.2.accounted
    · intro nowMs h k p o hp hr hacc hg hC
      refine PeerOp.apply_accounted hacc hg hr.channels.2 ?_
      rintro ch sf reliable rfl
      exact hC k ch sf reliable p rfl hp
  refine ⟨hacc.counter, hacc.budget, fun hempty => ?_⟩
  rw [hacc.counter]
  refine List.sum_eq_zero fun n hn => ?_
  obtain ⟨c, hc, rfl⟩ := List.mem_map.mp hn
  have hnil : c.fragmentBuffers = ∅ := Std.ExtTreeMap.isEmpty_iff.mp (hempty c hc)
  rw [Channel.heldBytes, hnil, totalWeight_empty]

/-- Alice's fragments `sfs`, one datagram each. -/
def aliceFragments (sfs : List SendFragmentCmd) : List Timed :=
  sfs.map fun sf => (40, .datagram (peerDatagram 0 9 [fragmentCommand 0 sf.startSeq sf]) alice)

/-- Two messages of 8 bytes; the first one is completed. -/
def honestFragments : List SendFragmentCmd :=
  [fragmentOf 1 4 [1, 2, 3, 4, 5, 6, 7, 8] 0, fragmentOf 3 4 [1, 2, 3, 4, 5, 6, 7, 8] 0,
   fragmentOf 1 4 [1, 2, 3, 4, 5, 6, 7, 8] 1]

/-- With honest lengths 8 bytes are held and 8 are accounted for. -/
theorem fragment_bytes_accounted_alice :
    ∃ h p, (HostTask.new 64 4 false 0 0).run (aliceConnects 10 ++ aliceFragments honestFragments)
        = some h
      ∧ h.peer 0 = some p ∧ p.heldBytes = 8 ∧ p.fragmentBytesInFlight = p.heldBytes := by
  have hrun : ((HostTask.new 64 4 false 0 0).run
      (aliceConnects 10 ++ aliceFragments honestFragments)).any (fun h =>
        (h.peer 0).any fun p => decide (p.heldBytes = 8)) = true := by decide +kernel
  have hm : Transition.Meets timedStep (StepMeets ReleasesCharge fun _ _ _ => True)
      (HostTask.new 64 4 false 0 0) (aliceConnects 10 ++ aliceFragments honestFragments) := by
    decide +kernel
  obtain ⟨h, hh, hrest⟩ := (Option.any_eq_true _ _).mp hrun
  obtain ⟨p, hp, hheld⟩ := (Option.any_eq_true _ _).mp hrest
  exact ⟨h, p, hh, hp, of_decide_eq_true hheld,
    (fragment_bytes_accounted 64 4 false 0 0 _ h hh hm 0 p hp).1⟩

/-- **The counter can be wrong both ways.**  A last fragment that announces 6 of
8 bytes leaves 2 bytes charged for ever; one that announces 16 releases the 8
bytes that another reassembly still holds. -/
theorem fragment_bytes_not_accounted :
    (∃ h p, (bind 4 false 0 0).run (aliceConnects 10 ++ aliceFragments
          [⟨1, 2, 0, 8, 0, [1, 2, 3, 4]⟩, ⟨1, 2, 1, 6, 4, [5, 6]⟩]) = some h
        ∧ h.peer 0 = some p ∧ p.heldBytes = 0 ∧ p.fragmentBytesInFlight = 2)
      ∧ ∃ h p, (bind 4 false 0 0).run (aliceConnects 10 ++ aliceFragments
          [⟨1, 2, 0, 8, 0, [1, 2, 3, 4]⟩, ⟨3, 2, 0, 8, 0, [1, 2, 3, 4]⟩,
            ⟨1, 2, 1, 16, 4, [5, 6, 7, 8]⟩]) = some h
        ∧ h.peer 0 = some p ∧ p.heldBytes = 8 ∧ p.fragmentBytesInFlight = 0 := by
  have hleak : ((bind 4 false 0 0).run (aliceConnects 10 ++ aliceFragments
      [⟨1, 2, 0, 8, 0, [1, 2, 3, 4]⟩, ⟨1, 2, 1, 6, 4, [5, 6]⟩])).any (fun h =>
        (h.peer 0).any fun p => decide (p.heldBytes = 0 ∧ p.fragmentBytesInFlight = 2)) = true := by
    decide +kernel
  have hover : ((bind 4 false 0 0).run (aliceConnects 10 ++ aliceFragments
      [⟨1, 2, 0, 8, 0, [1, 2, 3, 4]⟩, ⟨3, 2, 0, 8, 0, [1, 2, 3, 4]⟩,
        ⟨1, 2, 1, 16, 4, [5, 6, 7, 8]⟩])).any (fun h =>
        (h.peer 0).any fun p => decide (p.heldBytes = 8 ∧ p.fragmentBytesInFlight = 0)) = true := by
    decide +kernel
  simp only [Option.any_eq_true, decide_eq_true_eq] at hleak hover
  obtain ⟨h₁, hh₁, p₁, hp₁, hb₁⟩ := hleak
  obtain ⟨h₂, hh₂, p₂, hp₂, hb₂⟩ := hover
  exact ⟨⟨h₁, p₁, hh₁, hp₁, hb₁⟩, h₂, p₂, hh₂, hp₂, hb₂⟩

end HostTask

end EnetRs
