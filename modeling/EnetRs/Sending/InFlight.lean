/-
  EnetRs.Sending.InFlight — no command in flight is forgotten.

  What the sending side promises about `outgoing_reliable`, entry by entry
  (`InFlight`), and when it keeps the promise.  It fails for one reason: the
  window is looked at before a packet is cut into fragments, and not again.

  Main results:
    * `in_flight_kept` — the promise is kept in every run whose packets fit the
      window and whose clock does not run backwards.
    * `numberFragments_reuses` — a packet of more than 65536 fragments replaces
      its own first commands.
-/
import EnetRs.Sending.Connection

namespace EnetRs

open MachineInt

/-! ## §1. The promise. -/

/-- **What is in flight**: no command was stored under a key in use, the numbers
of each data channel fit half the number space, and every command is
outstanding, acknowledged, or a CONNECT that VERIFY_CONNECT has answered. -/
structure InFlight (p : PeerEntry) : Prop where
  fresh : ∀ ty ch seq fresh, .create ty ch seq fresh ∈ p.history → fresh = true
  span : ∀ ch, ch ≠ channelIdConnection → ∃ base : U16, ∀ s, (ch, s) ∈ p.outgoingReliable →
    (s - base).toNat < windowSpan
  kept : Accounted (· ∈ p.outgoingReliable) (p.toUserRx = none) p.history

/-- The outstanding numbers of a channel, counted from the lowest there can be. -/
theorem PeerEntry.Windowed.span {p : PeerEntry} (hp : p.Windowed) {ch : U8}
    (hch : ch ≠ channelIdConnection) :
    ∃ base : U16, ∀ s, (ch, s) ∈ p.outgoingReliable → (s - base).toNat < windowSpan := by
  cases hc : p.channels[ch.toNat]? with
  | none =>
      refine ⟨0, fun s hs => ?_⟩
      obtain ⟨c, hc', -⟩ := hp.near ch s hs hch
      cases hc.symm.trans hc'
  | some c =>
      refine ⟨c.outgoingReliableSeq - 32767, fun s hs => ?_⟩
      obtain ⟨c', hc', hnear⟩ := hp.near ch s hs hch
      cases hc.symm.trans hc'
      rw [windowSpan_eq] at hnear ⊢
      unfold Serial.behind at hnear
      bv_omega

namespace HostTask

/-- **No command in flight is forgotten** in a run whose packets fit the window
and whose clock does not run backwards. -/
theorem in_flight_kept (acceptCapacity maxPeers : Nat) (useChecksum : Bool)
    (incomingBandwidth outgoingBandwidth : U32) (start : U32) (is : List Timed)
    (hclock : Clocked start start is)
    (hfits : Transition.Meets timedStep (StepMeets (fun _ _ _ _ => True) FitsWindow)
      (HostTask.new acceptCapacity maxPeers useChecksum incomingBandwidth outgoingBandwidth) is)
    {h : HostTask} (hrun : (HostTask.new acceptCapacity maxPeers useChecksum incomingBandwidth
      outgoingBandwidth).run is = some h) {k : PeerKey} {p : PeerEntry} (hp : h.peer k = some p) :
    InFlight p := by
  have hwin := windowed_run hrun hfits k p hp
  have hnew : SparseAt (fun _ => ageLimit + since start start) start
      (HostTask.new acceptCapacity maxPeers useChecksum incomingBandwidth outgoingBandwidth) :=
    ⟨inRange_new _ _ _ _ _, by simp⟩
  obtain ⟨bound, t, hsparse⟩ := sparse_run is _ h start start hclock hnew hrun
  refine ⟨fun ty ch seq fresh hm => ?_, fun ch hch => hwin.span hch, ?_⟩
  · by_cases hch : ch = channelIdConnection
    · subst hch
      exact (hsparse.entries k p hp).fresh ty seq fresh hm
    · exact hwin.fresh ty ch seq fresh hm hch
  · have hr : h.Reachable := ⟨_, _, _, _, _, _, hrun⟩
    exact (hr.kept k p hp).accounted

/-- Alice connects with the smallest MTU and is sent a packet. -/
def sendsToAlice (pkt : Packet) : List Timed :=
  [(0, .datagram (connectDatagram 77 2 576) alice),
   (10, .datagram (peerDatagram 0 9 [ack channelIdConnection 1 10]) alice)] ++ [(20, .send 0 pkt)]

/-- A packet of two fragments, of which the first is acknowledged before a tick. -/
def sendsFragments : List Timed :=
  sendsToAlice ⟨List.replicate 1000 7, 0, .reliable⟩
    ++ [(40, .datagram (peerDatagram 0 9 [ack 0 1 20]) alice), (60, .tick)]

theorem in_flight_kept_alice :
    ∃ (h : HostTask) (p : PeerEntry), (HostTask.new 64 4 false 0 0).run sendsFragments = some h
      ∧ h.peer 0 = some p ∧ p.outgoingReliable.keys = [(0, 2)] ∧ InFlight p := by
  have hrun : ((HostTask.new 64 4 false 0 0).run sendsFragments).any (fun h => (h.peer 0).any fun p =>
      decide (p.outgoingReliable.keys = [(0, 2)])) = true := by
    decide +kernel
  obtain ⟨h, hh, hrest⟩ := (Option.any_eq_true _ _).mp hrun
  simp only [Option.any_eq_true, decide_eq_true_eq] at hrest
  obtain ⟨p, hp, hkeys⟩ := hrest
  exact ⟨h, p, hh, hp, hkeys, in_flight_kept 64 4 false 0 0 0 sendsFragments (by decide +kernel)
    (by decide +kernel) hh hp⟩

end HostTask

/-! ## §2. A packet that takes every number. -/

namespace PeerEntry

/-- The fragment that comes to a number in use replaces its command. -/
theorem fragmentLoop_reuses (ch : U8) (startSeq : U16) (fp : Nat) (data : Bytes) (nowMs : U32) :
    ∀ (k n i : Nat) (p : PeerEntry) (c : Channel), i ≠ 0 → k < n →
      p.channels[ch.toNat]? = some c →
      (ch, c.outgoingReliableSeq + 1 + BitVec.ofNat 16 k) ∈ p.outgoingReliable →
      .create cmdSendFragment ch (c.outgoingReliableSeq + 1 + BitVec.ofNat 16 k) false
        ∈ (fragmentLoop ch startSeq fp data nowMs n i p).1.history := by
  intro k
  induction k with
  | zero =>
      intro n i p c hi hn hc hin
      obtain ⟨n, rfl⟩ := Nat.exists_eq_add_one_of_ne_zero hn.ne'
      obtain ⟨cmd, hloop⟩ := fragmentLoop_next ch startSeq fp data nowMs n hi hc
      rw [hloop]
      -- what comes after only adds to the history
      obtain ⟨es, hes, -⟩ := (Stores.fragmentLoop ch startSeq fp data nowMs n (i + 1)
        (({ p with channels := p.channels.set ch.toNat c.nextReliableSeq } : PeerEntry).track ch
          (c.outgoingReliableSeq + 1) cmdSendFragment cmd nowMs)).history
      rw [hes]
      refine List.mem_append_left _ (List.mem_append_right _ (List.mem_singleton.mpr ?_))
      have hzero : c.outgoingReliableSeq + 1 + BitVec.ofNat 16 0 = c.outgoingReliableSeq + 1 :=
        BitVec.add_zero _
      rw [hzero] at hin ⊢
      have hused : p.outgoingReliable.contains (ch, c.outgoingReliableSeq + 1) = true :=
        Std.ExtTreeMap.contains_iff_mem.mpr hin
      rw [hused]
      rfl
  | succ k ih =>
      intro n i p c hi hn hc hin
      obtain ⟨n, rfl⟩ := Nat.exists_eq_add_one_of_ne_zero (Nat.ne_zero_of_lt hn)
      obtain ⟨cmd, hloop⟩ := fragmentLoop_next ch startSeq fp data nowMs n hi hc
      rw [hloop]
      -- the counter is one further, the number in use one closer
      have hnum : c.nextReliableSeq.outgoingReliableSeq + 1 + BitVec.ofNat 16 k
          = c.outgoingReliableSeq + 1 + BitVec.ofNat 16 (k + 1) := Serial.add_one_add _ k
      rw [← hnum] at hin ⊢
      refine ih n (i + 1) _ c.nextReliableSeq (Nat.succ_ne_zero i) (Nat.lt_of_succ_lt_succ hn)
        (List.getElem?_set_self (List.getElem?_eq_some_iff.mp hc).1) ?_
      exact Std.ExtTreeMap.mem_insert.mpr (.inr hin)

/-- **More than 65536 fragments**: the packet comes back to its first number while
that is outstanding. -/
theorem numberFragments_reuses {p : PeerEntry} {c : Channel} {pkt : Packet} {fp : Nat}
    (hc : p.channels[pkt.channel.toNat]? = some c) (hbig : 65536 < fragCount fp pkt.data)
    (nowMs : U32) :
    .create cmdSendFragment pkt.channel (c.outgoingReliableSeq + 1) false
      ∈ (p.numberFragments pkt fp nowMs).1.history := by
  have hseq := nextReliableSeq_snd hc
  have hc' := nextReliableSeq_channel hc
  obtain ⟨m, hm⟩ := Nat.exists_eq_add_one_of_ne_zero (Nat.ne_zero_of_lt hbig)
  -- one turn after the first fragment
  have hturn : c.nextReliableSeq.outgoingReliableSeq + 1 + BitVec.ofNat 16 65535
      = c.outgoingReliableSeq + 1 := by
    show c.outgoingReliableSeq + 1 + 1 + 65535#16 = c.outgoingReliableSeq + 1
    bv_omega
  unfold numberFragments
  simp only [log, hm]
  refine List.mem_append_left _ ?_
  unfold fragmentLoop
  simp only [if_true, hseq]
  rw [← hturn]
  refine fragmentLoop_reuses pkt.channel _ fp pkt.data nowMs 65535 m 1 _ c.nextReliableSeq
    Nat.one_ne_zero (by omega) hc' ?_
  rw [hturn]
  exact Std.ExtTreeMap.mem_insert_self

/-- Such a packet leaves every number of its channel outstanding. -/
theorem numberFragments_fills {p : PeerEntry} {c : Channel} {pkt : Packet} {fp : Nat}
    (hsend : PeerOp.Sendable p pkt c) (hbig : 65536 < fragCount fp pkt.data) (nowMs : U32) (s : U16) :
    (pkt.channel, s) ∈ (p.numberFragments pkt fp nowMs).1.outgoingReliable := by
  have hn := numberFragments_numbers nowMs (Nat.zero_lt_of_lt hbig) hsend
  obtain ⟨ty, r, -, hcreates, hout, -⟩ := hn.creates
  rw [hout, hcreates.keys]
  refine .inr ⟨s, Serial.mem_block.mpr ⟨(s - (c.outgoingReliableSeq + 1)).toNat, by omega, ?_⟩, rfl⟩
  rw [BitVec.ofNat_toNat, BitVec.setWidth_eq]
  exact (add_sub_cancel _ _).symm

end PeerEntry

namespace HostTask

/-- Whatever the packet, if it is reliable, for channel 0 and has more than 65536
fragments. -/
theorem reused_for_alice (pkt : Packet) (hch : pkt.channel = 0) (hmode : pkt.mode = .reliable)
    (hbig : ∀ ck, maxReliablePayload 576 ck < pkt.data.length
      ∧ 65536 < fragCount (fragPayload 576 ck) pkt.data) :
    ∃ (h : HostTask) (p : PeerEntry), Clocked 0 0 (sendsToAlice pkt)
      ∧ (bind 4 false 0 0).run (sendsToAlice pkt) = some h ∧ h.peer 0 = some p
      ∧ .create cmdSendFragment 0 1 false ∈ p.history
      ∧ ∀ s : U16, (0, s) ∈ p.outgoingReliable := by
  have hrun : ((bind 4 false 0 0).run ((sendsToAlice ⟨[], 0, .reliable⟩).take 2)).any (fun h =>
      (h.peer 0).any fun p => decide (p.state = .connected ∧ p.mtu = 576) &&
        (p.channels[0]?).any fun c => decide (c.outgoingReliableSeq = 0) && p.windowOpen 0 c)
      = true := by
    decide +kernel
  obtain ⟨h, hh, hrest⟩ := (Option.any_eq_true _ _).mp hrun
  simp only [Option.any_eq_true, Bool.and_eq_true, decide_eq_true_eq] at hrest
  obtain ⟨p, hp, ⟨hst, hmtu⟩, c, hc, hseq, hopen⟩ := hrest
  have hc' : p.channels[pkt.channel.toNat]? = some c := by
    rw [hch]
    exact hc
  have hopen' : p.windowOpen pkt.channel c = true := by
    rw [hch]
    exact hopen
  have hsend : PeerOp.Sendable (p.log (.submit pkt)) pkt c := ⟨hst, hmode, hc'⟩
  have hacc : p.acceptsReliable pkt = true := by
    simp [PeerEntry.acceptsReliable, hst, hmode, hc', hopen']
  have hnoted := (noteSubmit_peer hp hacc 0).trans (if_pos rfl)
  have hs : (h.noteSubmit 0 pkt).sendPacket 0 pkt 20
      = some ((h.noteSubmit 0 pkt).sendReliable 0 (p.log (.submit pkt)) pkt 20) := by
    simp only [sendPacket, hnoted, hmode]
    exact if_neg (not_not.mpr hst)
  obtain ⟨ck, t, hp'⟩ := sendPacket_reliable hnoted hsend hs
  obtain ⟨hlong, hmany⟩ := hbig ck
  -- the window is open and the packet too long for one command
  have hstep : (p.log (.submit pkt)).sendStep ck c pkt 20
      = ((p.log (.submit pkt)).numberFragments pkt (fragPayload 576 ck) 20).1 := by
    have hlogged : (p.log (.submit pkt)).windowOpen pkt.channel c = true := hopen'
    have hmtu' : (p.log (.submit pkt)).mtu.toNat = 576 := congrArg BitVec.toNat hmtu
    rw [PeerEntry.sendStep, hlogged, hmtu', if_neg (by decide), if_neg (Nat.not_le_of_lt hlong)]
  rw [hstep] at hp'
  refine ⟨_, _, ?_, ?_, hp', ?_, fun s => ?_⟩
  · exact ⟨by decide, by decide, by decide, trivial⟩
  · exact Transition.run_append.mpr ⟨h, hh, Transition.run_cons_eq_some.mpr ⟨_, hs, rfl⟩⟩
  · have hreuses := PeerEntry.numberFragments_reuses hsend.2.2 hmany 20
    rwa [hseq, hch] at hreuses
  · have hfills := PeerEntry.numberFragments_fills hsend hmany 20 s
    rwa [hch] at hfills

/-- A packet of 65537 fragments at an MTU of 576. -/
def hugePacket : Packet := ⟨List.replicate 35914276 0, 0, .reliable⟩

/-- **A command in flight replaced.**  Nothing is outstanding and the window is
open; fragment 65536 then takes the number of fragment 0. -/
theorem fragments_reuse_numbers :
    ∃ (h : HostTask) (p : PeerEntry), Clocked 0 0 (sendsToAlice hugePacket)
      ∧ (bind 4 false 0 0).run (sendsToAlice hugePacket) = some h ∧ h.peer 0 = some p
      ∧ .create cmdSendFragment 0 1 false ∈ p.history
      ∧ (∀ base : U16, ∃ s, (0, s) ∈ p.outgoingReliable ∧ ¬ (s - base).toNat < windowSpan)
      ∧ ¬ InFlight p := by
  have hbig : ∀ ck, maxReliablePayload 576 ck < hugePacket.data.length
      ∧ 65536 < fragCount (fragPayload 576 ck) hugePacket.data := by
    intro ck
    have hlen : hugePacket.data.length = 35914276 := List.length_replicate
    rw [fragCount, hlen]
    cases ck <;> decide
  obtain ⟨h, p, hclock, hrun, hp, hreused, hfull⟩ := reused_for_alice hugePacket rfl rfl hbig
  refine ⟨h, p, hclock, hrun, hp, hreused, fun base => ⟨base + 32768, hfull _, ?_⟩, fun hall => ?_⟩
  · rw [windowSpan_eq]
    bv_omega
  · cases hall.fresh _ _ _ _ hreused

end HostTask

end EnetRs
