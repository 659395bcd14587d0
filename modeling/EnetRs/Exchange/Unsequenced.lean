/-
  EnetRs.Exchange.Unsequenced — unsequenced packets between two hosts.

  The sender counts unsequenced packets per channel; the receiver looks for
  duplicates in one window per peer, and delivers every packet on channel 0.
  Packets sent on channel 0 alone have distinct groups, and in any order the
  window takes each of them once.  Packets on two channels share their groups,
  and the receiver drops the second as a duplicate of the first.

  Main results:
    * `UnsequencedWindow.checkAndSet_new` — a group not seen yet is accepted.
    * `HostTask.unsequenced_delivered_iff` — any run of the sender, any run of
      the receiver that gets the datagrams once each, in any order.
-/
import EnetRs.Host.Deliveries
import EnetRs.Host.Ownership
import EnetRs.Sending.Pending
import EnetRs.Exchange.Datagram

namespace EnetRs

open MachineInt

/-! ## §1. The duplicate window. -/

namespace UnsequencedWindow

variable {win : UnsequencedWindow} {seen : Finset Nat} {g : Nat}

/-- The window of a receiver that has seen exactly these groups, all of them
below 1024. -/
structure Holds (win : UnsequencedWindow) (seen : Finset Nat) : Prop where
  length : win.window.length = 32
  bits : ∀ i < 1024, BitArray.testBit win.window i = decide (i ∈ seen)
  top : ∃ t < 1024, win.group = BitVec.ofNat 16 t ∧ ∀ g ∈ seen, g ≤ t

theorem holds_new : Holds new ∅ :=
  ⟨rfl, fun i _ => BitArray.testBit_replicate_zero 32 i, 0, by decide, rfl, by simp⟩

theorem idx_ofNat (hg : g < 1024) : idx (BitVec.ofNat 16 g) = g := by
  rw [idx, BitVec.toNat_ofNat]
  omega

/-- Clearing bits that are not set changes nothing. -/
theorem clear_unset {words : List U32} (hlen : words.length = 32)
    (hbits : ∀ i < 1024, BitArray.testBit words i = decide (i ∈ seen)) (f : Nat → Nat)
    (ks : List Nat) (hks : ∀ k ∈ ks, f k < 1024 ∧ f k ∉ seen) :
    (ks.foldl (fun acc k => BitArray.clearBit acc (f k)) words).length = 32
      ∧ ∀ i < 1024, BitArray.testBit (ks.foldl (fun acc k => BitArray.clearBit acc (f k)) words) i
        = decide (i ∈ seen) := by
  have hrange : ∀ k ∈ ks, f k / 32 < words.length := by
    intro k hk
    have hlt := (hks k hk).1
    rw [hlen]
    omega
  obtain ⟨hlen', hbits'⟩ := BitArray.testBit_foldl_clearBit f ks words (by decide) hrange
  refine ⟨hlen'.trans hlen, fun i hi => ?_⟩
  rw [hbits', hbits i hi]
  by_cases hin : i ∈ seen
  · have hkept : ∀ k ∈ ks, i ≠ f k := fun k hk heq => (hks k hk).2 (heq ▸ hin)
    rw [decide_eq_true hkept, Bool.true_and]
  · rw [decide_eq_false hin, Bool.and_false]

theorem toInt_ofNat_sub {t : Nat} (hg : g < 1024) (ht : t < 1024) :
    (BitVec.ofNat 16 g - BitVec.ofNat 16 t).toInt = (g : Int) - t := by
  rw [BitVec.toInt_eq_toNat_cond, BitVec.toNat_sub, BitVec.toNat_ofNat, BitVec.toNat_ofNat]
  split <;> omega

/-- Moving the mark forward forgets nothing that lies behind it. -/
theorem advanceTo_bits (hw : Holds win seen) {t : Nat} (htop : win.group = BitVec.ofNat 16 t)
    (ht : ∀ g ∈ seen, g ≤ t) (htg : t < g) (hg : g < 1024) :
    (win.advanceTo (BitVec.ofNat 16 g) (g - t)).window.length = 32
      ∧ ∀ i < 1024, BitArray.testBit (win.advanceTo (BitVec.ofNat 16 g) (g - t)).window i
        = decide (i ∈ seen) := by
  have hshort : ¬ 1024 ≤ g - t := by omega
  unfold advanceTo
  simp only [if_neg hshort]
  refine clear_unset hw.length hw.bits
    (fun i => idx (win.group + BitVec.ofNat 16 (i + 1))) (List.range (g - t)) fun i hi => ?_
  have hlt : i < g - t := List.mem_range.mp hi
  have hidx : idx (win.group + BitVec.ofNat 16 (i + 1)) = t + (i + 1) := by
    rw [htop, ← BitVec.ofNat_add]
    exact idx_ofNat (by omega)
  rw [hidx]
  refine ⟨by omega, fun hmem => ?_⟩
  have := ht _ hmem
  omega

/-- **A group that was not seen yet is new.** -/
theorem checkAndSet_new (hw : Holds win seen) (hg : g < 1024) (hnew : g ∉ seen) :
    (win.checkAndSet (BitVec.ofNat 16 g)).2 = true
      ∧ Holds (win.checkAndSet (BitVec.ofNat 16 g)).1 (insert g seen) := by
  obtain ⟨t, ht, htop, hle⟩ := hw.top
  have hdiff : (BitVec.ofNat 16 g - win.group).toInt = (g : Int) - t := by
    rw [htop]
    exact toInt_ofNat_sub hg ht
  -- the window after the mark has moved, if it does
  obtain ⟨win', hwin', hlen, hbits, htop'⟩ : ∃ win' : UnsequencedWindow,
      (if (0 : Int) < (g : Int) - t then
          win.advanceTo (BitVec.ofNat 16 g) ((g : Int) - t).toNat else win) = win'
        ∧ win'.window.length = 32
        ∧ (∀ i < 1024, BitArray.testBit win'.window i = decide (i ∈ seen))
        ∧ ∃ t < 1024, win'.group = BitVec.ofNat 16 t ∧ ∀ x ∈ insert g seen, x ≤ t := by
    by_cases hahead : t < g
    · have hnat : ((g : Int) - t).toNat = g - t := by omega
      obtain ⟨hlen, hbits⟩ := advanceTo_bits hw htop hle hahead hg
      refine ⟨_, rfl, ?_⟩
      rw [if_pos (by omega), hnat]
      refine ⟨hlen, hbits, g, hg, rfl, fun x hx => ?_⟩
      rcases Finset.mem_insert.mp hx with rfl | hx
      · exact Nat.le_refl x
      · exact (hle x hx).trans (Nat.le_of_lt hahead)
    · refine ⟨win, if_neg (by omega), hw.length, hw.bits, t, ht, htop, fun x hx => ?_⟩
      rcases Finset.mem_insert.mp hx with rfl | hx
      · omega
      · exact hle x hx
  have hunset : BitArray.testBit win'.window (idx (BitVec.ofNat 16 g)) = false := by
    rw [idx_ofNat hg, hbits g hg]
    exact decide_eq_false hnew
  have hcheck : win.checkAndSet (BitVec.ofNat 16 g)
      = ({ win' with window := BitArray.setBit win'.window (idx (BitVec.ofNat 16 g)) }, true) := by
    unfold checkAndSet
    simp only [hdiff, hwin', hunset]
    rw [if_neg (by omega)]
    rfl
  rw [hcheck, idx_ofNat hg]
  refine ⟨rfl, by simpa using hlen, fun i hi => ?_, htop'⟩
  show BitArray.testBit (BitArray.setBit win'.window g) i = _
  rw [BitArray.testBit_setBit _ _ _ (by decide) (by rw [hlen]; omega), hbits i hi]
  simp [Finset.mem_insert, Bool.decide_or]

end UnsequencedWindow

/-! ## §2. The sender. -/

/-- The command that carries an unsequenced packet. -/
def unsequencedCommand (group : U16) (pkt : Packet) : Command :=
  ⟨⟨cmdSendUnsequenced ||| commandFlagUnsequenced, pkt.channel, 0⟩,
    .sendUnsequenced group pkt.data⟩

namespace HostTask

variable {h h' : HostTask} {k : PeerKey} {p : PeerEntry} {pkt : Packet} {nowMs : U32}

/-- The datagrams among some events. -/
def datagramsOf (es : List Event) : List Bytes :=
  es.filterMap fun
    | .sent _ _ datagram => some datagram
    | _ => none

/-- The unsequenced packet that the step from `h` to `h'` sends to slot `k`, with
the datagram that carries it. -/
def unsequencedSentBy (k : PeerKey) (h h' : HostTask) : Input → List (Packet × Bytes)
  | .send key pkt =>
      if key = k ∧ pkt.mode = .unsequenced then
        (datagramsOf (h'.trace.drop h.trace.length)).map (pkt, ·)
      else []
  | _ => []

/-- The unsequenced packets that a run sends to slot `k`. -/
def unsequencedSent (k : PeerKey) : HostTask → List Timed → List (Packet × Bytes)
  | _, [] => []
  | h, i :: is =>
      match h.timedStep i with
      | none => []
      | some h' => unsequencedSentBy k h h' i.2 ++ unsequencedSent k h' is

/-- The datagram carries the packet under group `n`. -/
def Carries (useChecksum : Bool) (n : Nat) (pkt : Packet) (datagram : Bytes) : Prop :=
  ∃ p nowMs, datagram
    = makeDatagram useChecksum p [(unsequencedCommand (BitVec.ofNat 16 n) pkt).write] nowMs

/-- The packets carry the groups from `n + 1` on. -/
def NumberedFrom (useChecksum : Bool) : Nat → List (Packet × Bytes) → Prop
  | _, [] => True
  | n, (pkt, datagram) :: rest =>
      Carries useChecksum (n + 1) pkt datagram ∧ NumberedFrom useChecksum (n + 1) rest

/-- The unsequenced counter of channel 0 stands at `n`. -/
def CountsTo (n : Nat) (p : PeerEntry) : Prop :=
  (p.channels.map (·.outgoingUnsequencedGroup))[0]? = some (BitVec.ofNat 16 n)

/-- An unsequenced packet to a peer that is Connected goes out at once. -/
theorem step_unsequenced {c : Channel} (hp : h.peer k = some p) (hst : p.state = .connected)
    (hmode : pkt.mode = .unsequenced) (hc : p.channels[pkt.channel.toNat]? = some c)
    (hs : h.step nowMs (.send k pkt) = some h') :
    ∃ q : PeerEntry, q.conn = p.conn
      ∧ q.channels = p.channels.set pkt.channel.toNat c.nextUnsequencedGroup
      ∧ (∀ j, h'.peer j = if j = k then some q else h.peer j)
      ∧ ∃ q', h'.trace = h.trace ++ [.sent p.addr
          [(unsequencedCommand (c.outgoingUnsequencedGroup + 1) pkt).write]
          (makeDatagram h.useChecksum q'
            [(unsequencedCommand (c.outgoingUnsequencedGroup + 1) pkt).write] nowMs)] := by
  have hnote : h.noteSubmit k pkt = h := noteSubmit_of_mode (by simp [hmode])
  have hsend : h.sendPacket k pkt nowMs = some (h.sendUnsequenced k p pkt nowMs) := by
    simp [sendPacket, hp, hst, hmode]
  simp only [step, hnote, hsend, sendUnsequenced, hc, Option.some.injEq] at hs
  subst hs
  have hp₁ := peer_setPeer_self (q := { p with
    channels := p.channels.set pkt.channel.toNat c.nextUnsequencedGroup }) (lt_of_peer_eq_some hp)
  rw [emitByKey_of_some hp₁ (List.cons_ne_nil _ _)]
  refine ⟨{ p with
    channels := p.channels.set pkt.channel.toNat c.nextUnsequencedGroup
    lastSendTime := nowMs }, rfl, rfl, fun j => ?_, _, rfl⟩
  rw [setPeer_setPeer]
  exact peer_setPeer hp j

/-- Nothing but an unsequenced packet to slot `k` moves the counter. -/
theorem Tracks.countsTo {conn n : Nat} {i : Input} (hw : h.AllWaiting)
    (ht : h.Tracks conn k (CountsTo n)) (hi : ∀ pkt, i = .send k pkt → pkt.mode ≠ .unsequenced)
    (hs : h.step nowMs i = some h') : h'.Tracks conn k (CountsTo n) := by
  refine ((step_exec_mode hw hs).invariant
    (fun h => h.AllWaiting ∧ h.Tracks conn k (CountsTo n)) (fun h₁ l hinv hg hl => ?_) ⟨hw, ht⟩).2
  refine ⟨hinv.1.label hg, hinv.2.label (fun p o hop hp hcount hgo => ?_) hg⟩
  have hno : ∀ ch c, o ≠ .nextUnsequenced ch c := by
    rintro ch c rfl
    obtain ⟨pkt, hsend, hmode⟩ := hl k ch c hop
    exact hi pkt hsend hmode
  have hsame := PeerOp.map_channels (·.outgoingUnsequencedGroup) nowMs
    (fun c => PeerOp.channelStep_group p c hno) hgo (hinv.1.1.2 k p hp).channels.2
  rw [CountsTo, hsame]
  exact hcount

/-- An unsequenced packet on channel 0 moves it by one, and carries the number. -/
theorem Tracks.countsTo_succ {n : Nat} (ht : h.Tracks p.conn k (CountsTo n)) (hp : h.peer k = some p)
    (hst : p.state = .connected) (hmode : pkt.mode = .unsequenced) (hch : pkt.channel = 0)
    (hs : h.step nowMs (.send k pkt) = some h') :
    h'.Tracks p.conn k (CountsTo (n + 1))
      ∧ ∃ datagram, unsequencedSentBy k h h' (.send k pkt) = [(pkt, datagram)]
        ∧ Carries h.useChecksum (n + 1) pkt datagram := by
  obtain ⟨c, hc, hn⟩ : ∃ c, p.channels[0]? = some c
      ∧ c.outgoingUnsequencedGroup = BitVec.ofNat 16 n := by
    have hcount : CountsTo n p := (ht.2 k p hp rfl).2
    rw [CountsTo, List.getElem?_map] at hcount
    exact Option.map_eq_some_iff.mp hcount
  have hnext : c.outgoingUnsequencedGroup + 1 = BitVec.ofNat 16 (n + 1) := by
    rw [hn, BitVec.ofNat_add]
    rfl
  obtain ⟨q, hconn, hq, hpeer, q', htrace⟩ := step_unsequenced hp hst hmode (by rw [hch]; exact hc) hs
  constructor
  · refine ht.of_exec (step_exec_true (i := (nowMs, .send k pkt)) hs) fun j r hr hrconn => ?_
    rw [hpeer] at hr
    split at hr
    · next hjk =>
      cases hr
      refine ⟨hjk, ?_⟩
      have hlt : 0 < p.channels.length := (List.getElem?_eq_some_iff.mp hc).1
      rw [CountsTo, hq, hch, List.getElem?_map]
      show ((p.channels.set 0 c.nextUnsequencedGroup)[0]?).map _ = _
      rw [List.getElem?_set_self hlt]
      exact congrArg some hnext
    · next hjk => exact absurd (ht.2 j r hr hrconn).1 hjk
  · refine ⟨_, ?_, q', nowMs, rfl⟩
    rw [hnext] at htrace
    rw [unsequencedSentBy, if_pos ⟨rfl, hmode⟩, htrace, List.drop_left]
    rfl

/-- To a peer that is not Connected nothing is sent. -/
theorem step_not_connected (hp : h.peer k = some p) (hst : p.state ≠ .connected)
    (hmode : pkt.mode = .unsequenced) : h.step nowMs (.send k pkt) = some h := by
  have hnote : h.noteSubmit k pkt = h := noteSubmit_of_mode (by simp [hmode])
  simp [step, hnote, sendPacket, hp, hst]

/-- An unsequenced packet to a peer that is Connected leaves in one datagram, on
whatever channel. -/
theorem unsequencedSentBy_ne_nil (hp : h.peer k = some p) (hst : p.state = .connected)
    (hmode : pkt.mode = .unsequenced) (hs : h.step nowMs (.send k pkt) = some h') :
    ∃ datagram, (pkt, datagram) ∈ unsequencedSentBy k h h' (.send k pkt) := by
  have hnote : h.noteSubmit k pkt = h := noteSubmit_of_mode (by simp [hmode])
  have hsend : h.sendPacket k pkt nowMs = some (h.sendUnsequenced k p pkt nowMs) := by
    simp [sendPacket, hp, hst, hmode]
  simp only [step, hnote, hsend, Option.some.injEq] at hs
  have htrace : ∃ dest cmds datagram, h'.trace = h.trace ++ [.sent dest cmds datagram] := by
    subst hs
    unfold sendUnsequenced
    simp only
    rw [emitByKey_of_some (peer_setPeer_self (lt_of_peer_eq_some hp)) (List.cons_ne_nil _ _)]
    exact ⟨_, _, _, rfl⟩
  obtain ⟨dest, cmds, datagram, htrace⟩ := htrace
  refine ⟨datagram, ?_⟩
  rw [unsequencedSentBy, if_pos ⟨rfl, hmode⟩, htrace, List.drop_left]
  exact List.mem_singleton_self _

theorem step_useChecksum {i : Timed} (hs : h.timedStep i = some h') :
    h'.useChecksum = h.useChecksum :=
  (step_exec_true hs).invariant (fun h₁ => h₁.useChecksum = h.useChecksum)
    (fun _ l hi _ _ => (Label.useChecksum_apply l).trans hi) rfl

/-- **The sender.**  Unsequenced packets that all go out on channel 0 carry
consecutive groups, whatever else the host does meanwhile. -/
theorem unsequencedSent_numbered {conn : Nat} (is : List Timed) :
    ∀ (h : HostTask) (n : Nat), h.AllWaiting → h.Tracks conn k (CountsTo n) →
      Transition.Meets timedStep (fun h _ => h.Hosts k conn) h is →
      (∀ s ∈ unsequencedSent k h is, s.1.channel = 0) →
      NumberedFrom h.useChecksum n (unsequencedSent k h is) := by
  induction is with
  | nil =>
      intro h n _ _ _ _
      trivial
  | cons i is ih =>
      intro h n hw ht hstay hzero
      obtain ⟨nowMs, i⟩ := i
      unfold unsequencedSent at hzero ⊢
      cases hs : h.timedStep (nowMs, i) with
      | none => trivial
      | some h' =>
          simp only [hs] at hzero ⊢
          have hw' : h'.AllWaiting :=
            (step_exec_true hs).invariant AllWaiting (fun _ _ hi hg _ => hi.label hg) hw
          have hrest := fun s hs => hzero s (List.mem_append_right _ hs)
          obtain ⟨⟨p, hp, rfl⟩, hstay⟩ := hstay
          rw [← step_useChecksum hs]
          by_cases hsend : ∃ pkt, i = .send k pkt ∧ pkt.mode = .unsequenced
          · obtain ⟨pkt, rfl, hmode⟩ := hsend
            by_cases hst : p.state = .connected
            · obtain ⟨datagram, hmem⟩ := unsequencedSentBy_ne_nil hp hst hmode hs
              have hch : pkt.channel = 0 := hzero _ (List.mem_append_left _ hmem)
              obtain ⟨ht', datagram, hsent, hcarries⟩ := ht.countsTo_succ hp hst hmode hch hs
              rw [hsent, step_useChecksum hs]
              refine ⟨hcarries, ?_⟩
              rw [← step_useChecksum hs]
              exact ih h' (n + 1) hw' ht' (hstay h' hs) hrest
            · -- not Connected: the packet is dropped
              obtain rfl : h = h' := by
                rw [timedStep, step_not_connected hp hst hmode] at hs
                exact Option.some.inj hs
              have hnone : unsequencedSentBy k h h (.send k pkt) = [] := by
                simp [unsequencedSentBy, datagramsOf]
              rw [hnone]
              exact ih h n hw' ht (hstay h hs) hrest
          · have hnone : unsequencedSentBy k h h' i = [] := by
              unfold unsequencedSentBy
              split
              · next key pkt =>
                refine if_neg fun hboth => hsend ⟨pkt, ?_, hboth.2⟩
                rw [hboth.1]
              · rfl
            rw [hnone]
            have ht' := ht.countsTo hw (fun pkt heq hmode => hsend ⟨pkt, heq, hmode⟩) hs
            exact ih h' n hw' ht' (hstay h' hs) hrest

end HostTask

/-! ## §3. The receiver. -/

namespace HostTask

variable {h h' : HostTask} {j : PeerKey} {p : PeerEntry} {pkt : Packet} {nowMs : U32}

/-- The datagram, if it is accepted for slot `j` and has an unsequenced command. -/
def unsequencedArrivedBy (j : PeerKey) (h : HostTask) : Input → List Bytes
  | .datagram raw src =>
      if (h.acceptDatagram raw src).any fun a =>
          decide (a.key = some j) && a.cmds.any (·.header.commandType == cmdSendUnsequenced) then
        [raw]
      else []
  | _ => []

/-- The datagrams with unsequenced commands that a run accepts for slot `j`. -/
def unsequencedArrived (j : PeerKey) : HostTask → List Timed → List Bytes
  | _, [] => []
  | h, i :: is =>
      match h.timedStep i with
      | none => []
      | some h' => unsequencedArrivedBy j h i.2 ++ unsequencedArrived j h' is

/-- The entry has seen these groups and handed over these packets. -/
def Took (seen : Finset Nat) (out : List Packet) (p : PeerEntry) : Prop :=
  p.unsequencedWindow.Holds seen ∧ p.unsequenced = out

/-- Without such a datagram the window and the packets stay as they are. -/
theorem Tracks.took {conn : Nat} {seen : Finset Nat} {out : List Packet} {i : Input}
    (ht : h.Tracks conn j (Took seen out)) (hnone : unsequencedArrivedBy j h i = [])
    (hs : h.step nowMs i = some h') : h'.Tracks conn j (Took seen out) := by
  have hmeets : StepMeets
      (fun _ key _ cmd => ¬ (key = some j ∧ cmd.header.commandType = cmdSendUnsequenced))
      (fun _ _ _ => True) h (nowMs, i) := by
    cases i with
    | datagram raw src =>
        intro a ha
        apply commandsMeet_of_forall (P := fun cmd =>
          ¬ (a.key = some j ∧ cmd.header.commandType = cmdSendUnsequenced))
        intro cmd hcmd hboth
        have hany : a.cmds.any (·.header.commandType == cmdSendUnsequenced) = true :=
          List.any_eq_true.mpr ⟨cmd, hcmd, beq_iff_eq.mpr hboth.2⟩
        simp [unsequencedArrivedBy, ha, hboth.1, hany] at hnone
    | tick => exact serviceMeets_true _ _ _
    | _ => trivial
  have e : Exec nowMs (fun _ l => ∀ group data, l ≠ .op j (.recvUnsequenced group data)) h h' := by
    apply step_exec i hmeets _ _ _ _ _ hs
    · intro h key src cmd h₁ l hcmd hl group data heq
      rw [heq] at hl
      exact hcmd ⟨hl.1, hl.2.2.1⟩
    · intro h key pkt h₁ l _ hl group data heq
      rw [heq] at hl
      exact hl.2.2
    · intro h l hl group data heq
      rw [heq] at hl
      exact hl
    · intro h k o ho group data heq
      cases heq
      exact ho
    · intro addr count data reply id _ slot group bytes heq
      cases heq
  refine e.invariant (fun h => h.Tracks conn j (Took seen out)) (fun h₁ l ht₁ hg hl => ?_) ht
  apply ht₁.label _ hg
  intro p o hop _ htook _
  have ho : ∀ group data, o ≠ .recvUnsequenced group data := by
    intro group data heq
    exact hl group data (by rw [hop, heq])
  constructor
  · rw [PeerOp.apply_unsequencedWindow nowMs p ho]
    exact htook.1
  · rw [PeerOp.apply_unsequenced nowMs p ho]
    exact htook.2

theorem unsequencedCommand_type (group : U16) (pkt : Packet) :
    (unsequencedCommand group pkt).header.commandType = cmdSendUnsequenced := by
  show (cmdSendUnsequenced ||| commandFlagUnsequenced) &&& commandMask = cmdSendUnsequenced
  decide

theorem unsequencedCommand_wellFormed {group : U16} (hlen : pkt.data.length ≤ 65535) :
    (unsequencedCommand group pkt).WellFormed :=
  ⟨unsequencedCommand_type group pkt, Nat.lt_succ_of_le hlen⟩

/-- The datagram of one unsequenced packet does one thing to the receiver. -/
theorem onDatagram_unsequenced {src : SocketAddr} {n : Nat} {datagram : Bytes}
    (hc : Carries h.useChecksum n pkt datagram) (hlen : pkt.data.length ≤ 65535)
    (harr : unsequencedArrivedBy j h (.datagram datagram src) ≠ []) :
    h.onDatagram datagram src nowMs
      = h.updatePeer j fun p => p.onSendUnsequenced (BitVec.ofNat 16 n) pkt.data nowMs := by
  obtain ⟨p, t, rfl⟩ := hc
  have hany : (h.acceptDatagram (makeDatagram h.useChecksum p
      [(unsequencedCommand (BitVec.ofNat 16 n) pkt).write] t) src).any (fun a =>
        decide (a.key = some j) && a.cmds.any (·.header.commandType == cmdSendUnsequenced))
      = true := by
    by_contra hno
    exact harr (if_neg hno)
  obtain ⟨a, ha, hboth⟩ := (Option.any_eq_true _ _).mp hany
  have hkey : a.key = some j := of_decide_eq_true (Bool.and_eq_true_iff.mp hboth).1
  have hcmds : a.cmds = [unsequencedCommand (BitVec.ofNat 16 n) pkt] := by
    have hw : ∀ cmd ∈ [unsequencedCommand (BitVec.ofNat 16 n) pkt], cmd.WellFormed := by
      intro cmd hcmd
      rw [List.mem_singleton.mp hcmd]
      exact unsequencedCommand_wellFormed hlen
    rw [acceptDatagram_makeDatagram ha]
    exact parseCommands_write hw
  have hdispatch : h.dispatch (some j) a.sentTime (unsequencedCommand (BitVec.ofNat 16 n) pkt) src
      nowMs = h.updatePeer j fun p => p.onSendUnsequenced (BitVec.ofNat 16 n) pkt.data nowMs := by
    unfold dispatch
    rw [unsequencedCommand_type]
    rfl
  -- no ACK is asked for, so none is flushed
  have hacks : ackFor (some j) a.sentTime (unsequencedCommand (BitVec.ofNat 16 n) pkt).header
      = [] := by
    have hflag : (unsequencedCommand (BitVec.ofNat 16 n) pkt).header.hasAckFlag = false := by
      show (((cmdSendUnsequenced ||| commandFlagUnsequenced) &&& commandFlagAcknowledge) != 0)
        = false
      decide
    simp [ackFor, hflag]
  unfold onDatagram
  simp only [ha, hkey, hcmds, onCommands, onCommand, hdispatch, hacks]
  rfl

/-- **A datagram that carries a group not seen yet hands its packet over.** -/
theorem Tracks.took_succ {conn n : Nat} {seen : Finset Nat} {out : List Packet} {src : SocketAddr}
    {datagram : Bytes} (ht : h.Tracks conn j (Took seen out))
    (hc : Carries h.useChecksum n pkt datagram) (hlen : pkt.data.length ≤ 65535)
    (hn : n < 1024) (hnew : n ∉ seen)
    (harr : unsequencedArrivedBy j h (.datagram datagram src) ≠ [])
    (hs : h.step nowMs (.datagram datagram src) = some h') :
    h'.Tracks conn j (Took (insert n seen) (out ++ [⟨pkt.data, 0, .unsequenced⟩])) := by
  have e := step_exec_true (i := (nowMs, .datagram datagram src)) hs
  apply ht.of_exec e
  intro k q hq hconn
  have hh' : h' = h.updatePeer j fun p =>
      p.onSendUnsequenced (BitVec.ofNat 16 n) pkt.data nowMs := by
    rw [← onDatagram_unsequenced hc hlen harr]
    exact (Option.some.inj hs).symm
  rw [hh', peer_updatePeer] at hq
  split at hq
  · next hkj =>
    obtain ⟨p, hp, rfl⟩ := Option.map_eq_some_iff.mp hq
    have hsame := (PeerOp.sameConnection nowMs p
      (.recvUnsequenced (BitVec.ofNat 16 n) pkt.data)).conn
    have hpconn : p.conn = conn := hsame.symm.trans hconn
    obtain ⟨-, hwin, hout⟩ := ht.2 j p hp hpconn
    obtain ⟨haccept, hwin'⟩ := UnsequencedWindow.checkAndSet_new hwin hn hnew
    refine ⟨hkj, ?_, ?_⟩
    · unfold PeerEntry.onSendUnsequenced
      simp only [haccept, if_true]
      exact hwin'
    · have hand := p.onSendUnsequenced_handed (BitVec.ofNat 16 n) pkt.data nowMs
      rw [PeerEntry.unsequenced, hand.delivered, haccept, if_pos rfl, List.filter_append, ← hout]
      rfl
  · next hkj => exact absurd (ht.2 k q hq hconn).1 hkj

/-- **The receiver.**  Whatever the order in which the datagrams come, each with a
group of its own, every packet is handed over once. -/
theorem unsequencedArrived_took {conn : Nat} (js : List Timed) :
    ∀ (h h' : HostTask) (seen : Finset Nat) (out : List Packet) (ns : List (Nat × Packet)),
      h.Tracks conn j (Took seen out) → h.run js = some h' →
      List.Forall₂ (fun n datagram => Carries h.useChecksum n.1 n.2 datagram) ns
        (unsequencedArrived j h js) →
      (ns.map Prod.fst).Nodup → (∀ n ∈ ns, n.1 < 1024 ∧ n.1 ∉ seen ∧ n.2.data.length ≤ 65535) →
      ∃ seen', h'.Tracks conn j
        (Took seen' (out ++ ns.map fun n => ⟨n.2.data, 0, .unsequenced⟩)) := by
  induction js with
  | nil =>
      intro h h' seen out ns ht hrun hall _ _
      cases hrun
      cases hall
      exact ⟨seen, by simpa using ht⟩
  | cons i js ih =>
      intro h h' seen out ns ht hrun hall hnodup hns
      obtain ⟨h₁, hs, hrest⟩ := Transition.run_cons_eq_some.mp hrun
      obtain ⟨nowMs, i⟩ := i
      simp only [unsequencedArrived, hs] at hall
      rw [← step_useChecksum hs] at hall
      by_cases hnone : unsequencedArrivedBy j h i = []
      · rw [hnone] at hall
        exact ih h₁ h' seen out ns (ht.took hnone hs) hrest hall hnodup hns
      · obtain ⟨datagram, src, rfl, hone⟩ : ∃ datagram src, i = .datagram datagram src
            ∧ unsequencedArrivedBy j h i = [datagram] := by
          unfold unsequencedArrivedBy at hnone ⊢
          split at hnone
          · next raw src =>
            refine ⟨raw, src, rfl, if_pos ?_⟩
            by_contra hno
            exact hnone (if_neg hno)
          · exact absurd rfl hnone
        rw [hone] at hall
        obtain ⟨n, ns, hc, hrestall, rfl⟩ := List.forall₂_cons_right_iff.mp hall
        obtain ⟨hn, hnew, hlen⟩ := hns n List.mem_cons_self
        have hfresh : n.1 ∉ ns.map Prod.fst := (List.nodup_cons.mp hnodup).1
        rw [step_useChecksum hs] at hc
        have ht₁ := ht.took_succ hc hlen hn hnew hnone hs
        -- the groups still to come are not the one that was just seen
        have hns' : ∀ m ∈ ns, m.1 < 1024 ∧ m.1 ∉ insert n.1 seen ∧ m.2.data.length ≤ 65535 := by
          intro m hm
          obtain ⟨hm₁, hm₂, hm₃⟩ := hns m (List.mem_cons_of_mem _ hm)
          refine ⟨hm₁, fun hmem => ?_, hm₃⟩
          rcases Finset.mem_insert.mp hmem with heq | hmem
          · exact hfresh (heq ▸ List.mem_map_of_mem hm)
          · exact hm₂ hmem
        obtain ⟨seen', ht'⟩ := ih h₁ h' _ _ ns ht₁ hrest hrestall
          (List.nodup_cons.mp hnodup).2 hns'
        exact ⟨seen', by simpa using ht'⟩

/-! ## §4. Both ends. -/

/-- Every unsequenced packet the entry handed over is on channel 0 and came in a
command with a 16-bit length. -/
def OffTheWire (p : PeerEntry) : Prop :=
  ∀ pkt ∈ p.unsequenced, pkt.channel = 0 ∧ pkt.data.length ≤ 65535

theorem step_offTheWire {i : Timed} (hi : ∀ k p, h.peer k = some p → OffTheWire p)
    (hs : h.timedStep i = some h') : ∀ k p, h'.peer k = some p → OffTheWire p := by
  obtain ⟨nowMs, i⟩ := i
  have hmeets : StepMeets (fun _ _ _ cmd => cmd.WellFormed) (fun _ _ _ => True) h (nowMs, i) := by
    cases i with
    | datagram raw src =>
        intro a ha
        apply commandsMeet_of_forall
        obtain ⟨payload, hcmds⟩ := acceptDatagram_cmds ha
        rw [hcmds]
        exact parseCommandsUpTo_wellFormed _ payload
    | tick => exact serviceMeets_true _ _ _
    | _ => trivial
  have e : Exec nowMs (fun _ l => ∀ k group data, l = .op k (.recvUnsequenced group data) →
      data.length ≤ 65535) h h' := by
    apply step_exec i hmeets _ _ _ _ _ hs
    · intro h key src cmd h₁ l hw hl k group data heq
      rw [heq] at hl
      have hbody : cmd.body = .sendUnsequenced group data := hl.2.2.2
      have hlen : cmd.body.payload.length < 65536 := hw.2
      rw [hbody] at hlen
      exact Nat.le_of_lt_succ hlen
    · intro h key pkt h₁ l _ hl k group data heq
      rw [heq] at hl
      exact hl.2.2.elim
    · intro h l hl k group data heq
      rw [heq] at hl
      exact hl.elim
    · intro h k o ho k' group data heq
      cases heq
      exact ho.elim
    · intro addr count data reply id _ slot k group bytes heq
      cases heq
  refine e.entries (fun h slot entry hnew => ?_) (fun h k p o _ hoff _ hl => ?_) hi
  · have hempty : entry.unsequenced = [] := by
      rcases hnew with ⟨addr, count, data, reply, id, rfl⟩ | ⟨c, hdr, src, rfl⟩ <;> rfl
    unfold OffTheWire
    rw [hempty]
    exact nofun
  · by_cases ho : ∃ group data, o = .recvUnsequenced group data
    · obtain ⟨group, data, rfl⟩ := ho
      have hand := p.onSendUnsequenced_handed group data nowMs
      intro pkt hpkt
      have hpkt : pkt ∈ (p.onSendUnsequenced group data nowMs).unsequenced := hpkt
      rw [PeerEntry.unsequenced, hand.delivered, List.filter_append] at hpkt
      rcases List.mem_append.mp hpkt with hold | hnew
      · exact hoff pkt hold
      · have hmem := List.mem_of_mem_filter hnew
        split at hmem
        · rw [List.mem_singleton.mp hmem]
          exact ⟨rfl, hl k group data rfl⟩
        · cases hmem
    · push Not at ho
      unfold OffTheWire
      rw [PeerOp.apply_unsequenced nowMs p ho]
      exact hoff

theorem Reachable.offTheWire (hr : h.Reachable) : ∀ k p, h.peer k = some p → OffTheWire p := by
  obtain ⟨cap, maxPeers, ck, ib, ob, is, hrun⟩ := hr
  refine Transition.run_invariant (I := fun h => ∀ k p, h.peer k = some p → OffTheWire p)
    (fun _ _ _ hi hs => step_offTheWire hi hs) is _ h ?_ hrun
  simp

/-- The numbers of the packets sent, one by one. -/
theorem NumberedFrom.forall₂ {useChecksum : Bool} {sent : List (Packet × Bytes)} {n : Nat}
    (hn : NumberedFrom useChecksum n sent) :
    List.Forall₂ (fun m datagram => Carries useChecksum m.1 m.2 datagram)
      ((List.range' (n + 1) sent.length).zip (sent.map Prod.fst)) (sent.map Prod.snd) := by
  induction sent generalizing n with
  | nil => exact .nil
  | cons s sent ih =>
      rw [List.length_cons, List.range'_succ, List.map_cons, List.map_cons, List.zip_cons_cons]
      exact .cons hn.1 (ih hn.2)

/-- The same datagrams in another order carry the same numbers in that order. -/
theorem NumberedFrom.of_perm {useChecksum : Bool} {sent : List (Packet × Bytes)}
    {arrived : List Bytes} (hn : NumberedFrom useChecksum 0 sent)
    (honce : arrived.Perm (sent.map Prod.snd)) (hfew : sent.length < 1024) :
    ∃ ns : List (Nat × Packet),
      List.Forall₂ (fun n datagram => Carries useChecksum n.1 n.2 datagram) ns arrived
        ∧ (ns.map Prod.fst).Nodup ∧ (∀ n ∈ ns, n.1 < 1024)
        ∧ (ns.map Prod.snd).Perm (sent.map Prod.fst) := by
  obtain ⟨ns, hall, hperm⟩ := List.perm_comp_forall₂ honce hn.forall₂.flip
  have hfst := hperm.map Prod.fst
  have hsnd := hperm.map Prod.snd
  rw [List.map_fst_zip (by simp)] at hfst
  rw [List.map_snd_zip (by simp)] at hsnd
  refine ⟨ns, hall.flip, hfst.nodup_iff.mpr List.nodup_range', ?_, hsnd⟩
  intro n hmem
  have hrange := hfst.mem_iff.mp (List.mem_map_of_mem hmem)
  have := List.mem_range'_1.mp hrange
  omega

theorem unsequencedSent_mode (k : PeerKey) (is : List Timed) :
    ∀ h : HostTask, ∀ s ∈ unsequencedSent k h is, s.1.mode = .unsequenced := by
  induction is with
  | nil => exact fun _ => nofun
  | cons i is ih =>
      intro h s hmem
      unfold unsequencedSent at hmem
      split at hmem
      · cases hmem
      · next h' _ =>
        rcases List.mem_append.mp hmem with hnow | hlater
        · unfold unsequencedSentBy at hnow
          split at hnow
          · split at hnow
            · next hboth =>
              obtain ⟨datagram, -, rfl⟩ := List.mem_map.mp hnow
              exact hboth.2
            · cases hnow
          · cases hnow
        · exact ih h' s hlater

/-- **Unsequenced packets between two hosts.**  A connection starts at both ends;
the sender sends fewer than 1024 unsequenced packets, and the receiver accepts
the datagrams once each, in any order.  It hands over exactly the packets that
were sent, each once and with its channel, if and only if all of them were sent
on channel 0 and fit the length field. -/
theorem unsequenced_delivered_iff {hs hr hr' : HostTask} {k j : PeerKey} {p q q' : PeerEntry}
    {is js : List Timed} (hsender : hs.Reachable) (hreceiver : hr.Reachable)
    (hck : hr.useChecksum = hs.useChecksum)
    (hp : hs.peer k = some p) (hgroups : ∀ c ∈ p.channels, c.outgoingUnsequencedGroup = 0)
    (hq : hr.peer j = some q) (hwindow : q.unsequencedWindow = .new)
    (hstay : Transition.Meets timedStep (fun h _ => h.Hosts k p.conn) hs is)
    (hrun : hr.run js = some hr') (hq' : hr'.peer j = some q') (hconn : q'.conn = q.conn)
    (hfew : (unsequencedSent k hs is).length < 1024)
    (honce : (unsequencedArrived j hr js).Perm ((unsequencedSent k hs is).map Prod.snd)) :
    (∃ out, q'.unsequenced = q.unsequenced ++ out
        ∧ out.Perm ((unsequencedSent k hs is).map Prod.fst))
      ↔ ∀ s ∈ unsequencedSent k hs is, s.1.channel = 0 ∧ s.1.data.length ≤ 65535 := by
  constructor
  · -- what is handed over came off the wire, on channel 0
    intro hall s hmem
    obtain ⟨out, hout, hperm⟩ := hall
    have hmem : s.1 ∈ out := hperm.mem_iff.mpr (List.mem_map_of_mem hmem)
    obtain ⟨cap, maxPeers, ck, ib, ob, is₀, hrun₀⟩ := hreceiver
    have hreach : hr'.Reachable :=
      ⟨cap, maxPeers, ck, ib, ob, is₀ ++ js, Transition.run_append.mpr ⟨hr, hrun₀, hrun⟩⟩
    apply hreach.offTheWire j q' hq'
    rw [hout]
    exact List.mem_append_right _ hmem
  · intro hcond
    -- the sender numbers the packets 1, 2, …
    have hcount : CountsTo 0 p := by
      obtain ⟨c, hc⟩ := List.exists_mem_of_length_pos (hsender.inRange.2 k p hp).channels.1
      obtain ⟨c, hc⟩ : ∃ c, p.channels[0]? = some c :=
        Option.isSome_iff_exists.mp (by simpa using List.length_pos_of_mem hc)
      rw [CountsTo, List.getElem?_map, hc]
      exact congrArg some (hgroups c (List.mem_of_getElem? hc))
    have hnumbered := unsequencedSent_numbered is hs 0 hsender.waiting
      (tracks_of_peer hsender.owned hp hcount) hstay fun s hs => (hcond s hs).1
    -- and the receiver meets the numbers in the order in which the datagrams come
    obtain ⟨ns, hall, hdistinct, hsmall, hperm⟩ := hnumbered.of_perm honce hfew
    have hsent : ∀ n ∈ ns, ∃ s ∈ unsequencedSent k hs is, s.1 = n.2 := by
      intro n hn
      exact List.mem_map.mp (hperm.mem_iff.mp (List.mem_map_of_mem hn))
    have hns : ∀ n ∈ ns, n.1 < 1024 ∧ n.1 ∉ (∅ : Finset Nat) ∧ n.2.data.length ≤ 65535 := by
      intro n hn
      obtain ⟨s, hs, heq⟩ := hsent n hn
      exact ⟨hsmall n hn, Finset.notMem_empty _, heq ▸ (hcond s hs).2⟩
    have htook : Took ∅ q.unsequenced q := by
      refine ⟨?_, rfl⟩
      rw [hwindow]
      exact UnsequencedWindow.holds_new
    obtain ⟨seen, htracks⟩ := unsequencedArrived_took js hr hr' ∅ q.unsequenced ns
      (tracks_of_peer hreceiver.owned hq htook) hrun (hck ▸ hall) hdistinct hns
    refine ⟨ns.map Prod.snd, ?_, hperm⟩
    have hsame : ns.map (fun n => (⟨n.2.data, 0, .unsequenced⟩ : Packet)) = ns.map Prod.snd := by
      apply List.map_congr_left
      intro n hn
      obtain ⟨s, hs, heq⟩ := hsent n hn
      rw [← heq, ← (hcond s hs).1, ← unsequencedSent_mode k is _ s hs]
    rw [← hsame]
    exact (htracks.2 j q' hq' hconn).2.2

/-- Alice's own host: it asks bob's for a connection and gets the answer that
bob's host `server` has sent. -/
def aliceSide (server : HostTask) : List Timed :=
  [(5, .connect bob 2 0 9 77), (20, .datagram ((datagramsOf server.trace).headD []) bob)]

/-- Bob sends alice two unsequenced packets, the second one on channel `ch`. -/
def bobSends (ch : U8) : List Timed :=
  [(40, .send 0 ⟨[1], 0, .unsequenced⟩), (50, .send 0 ⟨[2], ch, .unsequenced⟩)]

/-- The datagrams arrive from bob. -/
def arriveFromBob (datagrams : List Bytes) : List Timed :=
  datagrams.map fun datagram => (60, .datagram datagram bob)

instance (h : HostTask) (k : PeerKey) (conn : Nat) : Decidable (h.Hosts k conn) :=
  decidable_of_iff ((h.peer k).any fun q => decide (q.conn = conn)) (by
    simp [Hosts, Option.any_eq_true])

/-- Bob sends two packets on channel 0; they arrive in the other order. -/
theorem unsequenced_delivered_swapped :
    ∃ hs hr hr' q', (bind 4 false 0 0).run (aliceConnects 10) = some hs
      ∧ (bind 4 false 0 0).run (aliceSide hs) = some hr
      ∧ hr.run (arriveFromBob ((unsequencedSent 0 hs (bobSends 0)).map Prod.snd).reverse)
        = some hr'
      ∧ hr'.peer 0 = some q'
      ∧ q'.unsequenced.Perm [⟨[1], 0, .unsequenced⟩, ⟨[2], 0, .unsequenced⟩] := by
  have hrun : ((bind 4 false 0 0).run (aliceConnects 10)).any (fun hs =>
      ((bind 4 false 0 0).run (aliceSide hs)).any fun hr =>
        (hr.run (arriveFromBob ((unsequencedSent 0 hs (bobSends 0)).map Prod.snd).reverse)).any
            fun hr' =>
        (hs.peer 0).any fun p => (hr.peer 0).any fun q => (hr'.peer 0).any fun q' =>
          decide (hr.useChecksum = hs.useChecksum
            ∧ p.channels.all (fun c => decide (c.outgoingUnsequencedGroup = 0)) = true
            ∧ q.unsequencedWindow.window = List.replicate 32 0 ∧ q.unsequencedWindow.group = 0
            ∧ Transition.Meets timedStep (fun h _ => h.Hosts 0 p.conn) hs (bobSends 0)
            ∧ q'.conn = q.conn ∧ q.unsequenced = []
            ∧ (unsequencedSent 0 hs (bobSends 0)).map Prod.fst
                = [⟨[1], 0, .unsequenced⟩, ⟨[2], 0, .unsequenced⟩]
            ∧ unsequencedArrived 0 hr
                (arriveFromBob ((unsequencedSent 0 hs (bobSends 0)).map Prod.snd).reverse)
              = ((unsequencedSent 0 hs (bobSends 0)).map Prod.snd).reverse)) = true := by
    decide +kernel
  obtain ⟨hs, hhs, hrest⟩ := (Option.any_eq_true _ _).mp hrun
  simp only [Option.any_eq_true, decide_eq_true_eq] at hrest
  obtain ⟨hr, hhr, hr', hhr', p, hp, q, hq, q', hq', hck, hgroups, hwin, hgroup, hstay, hconn, hnone,
    hsent, harrived⟩ := hrest
  have hwindow : q.unsequencedWindow = .new := by
    cases hw : q.unsequencedWindow with
    | mk window group =>
        rw [hw] at hwin hgroup
        cases hwin
        cases hgroup
        rfl
  have hiff := unsequenced_delivered_iff ⟨_, _, _, _, _, _, hhs⟩ ⟨_, _, _, _, _, _, hhr⟩ hck hp
    (fun c hc => of_decide_eq_true (List.all_eq_true.mp hgroups c hc)) hq hwindow hstay hhr' hq'
    hconn
    (by
      rw [← List.length_map Prod.fst, hsent]
      decide)
    (by
      rw [harrived]
      exact List.reverse_perm _)
  obtain ⟨out, hout, hperm⟩ := hiff.mpr (by
    intro s hmem
    have hmem : s.1 ∈ _ := List.mem_map_of_mem hmem
    rw [hsent] at hmem
    rcases List.mem_pair.mp hmem with heq | heq <;> rw [heq] <;> decide)
  refine ⟨hs, hr, hr', q', hhs, hhr, hhr', hq', ?_⟩
  rw [hout, hnone, ← hsent]
  exact hperm

/-- **Two packets on two channels have the same group**, and the one that arrives
second is dropped as a duplicate. -/
theorem unsequenced_mistaken_for_duplicate :
    ∃ hs hr hr' q', (bind 4 false 0 0).run (aliceConnects 10) = some hs
      ∧ (bind 4 false 0 0).run (aliceSide hs) = some hr
      ∧ (unsequencedSent 0 hs (bobSends 1)).map Prod.fst
        = [⟨[1], 0, .unsequenced⟩, ⟨[2], 1, .unsequenced⟩]
      ∧ hr.run (arriveFromBob ((unsequencedSent 0 hs (bobSends 1)).map Prod.snd)) = some hr'
      ∧ unsequencedArrived 0 hr
          (arriveFromBob ((unsequencedSent 0 hs (bobSends 1)).map Prod.snd))
        = (unsequencedSent 0 hs (bobSends 1)).map Prod.snd
      ∧ hr'.peer 0 = some q' ∧ q'.state = .connected
      ∧ q'.unsequenced = [⟨[1], 0, .unsequenced⟩] := by
  have hrun : ((bind 4 false 0 0).run (aliceConnects 10)).any (fun hs =>
      ((bind 4 false 0 0).run (aliceSide hs)).any fun hr =>
        (hr.run (arriveFromBob ((unsequencedSent 0 hs (bobSends 1)).map Prod.snd))).any fun hr' =>
        (hr'.peer 0).any fun q' =>
          decide ((unsequencedSent 0 hs (bobSends 1)).map Prod.fst
                = [⟨[1], 0, .unsequenced⟩, ⟨[2], 1, .unsequenced⟩]
            ∧ unsequencedArrived 0 hr
                (arriveFromBob ((unsequencedSent 0 hs (bobSends 1)).map Prod.snd))
              = (unsequencedSent 0 hs (bobSends 1)).map Prod.snd
            ∧ q'.state = .connected ∧ q'.unsequenced = [⟨[1], 0, .unsequenced⟩])) = true := by
    decide +kernel
  obtain ⟨hs, hhs, hrest⟩ := (Option.any_eq_true _ _).mp hrun
  simp only [Option.any_eq_true, decide_eq_true_eq] at hrest
  obtain ⟨hr, hhr, hr', hhr', q', hq', hsent, harrived, hst, hout⟩ := hrest
  exact ⟨hs, hr, hr', q', hhs, hhr, hsent, hhr', harrived, hq', hst, hout⟩

end HostTask

end EnetRs
