/-
  EnetRs.Sending.Numbering — what `send_packet` does to an entry.

  `sendStep` is the reliable branch of `send_packet`, restricted to the entry.
  `Creates` and `Numbers` say which commands it stores and what it records.

  Main results:
    * `numberWhole_numbers`, `numberFragments_numbers` — a packet takes a block
      of consecutive numbers, each of which is outstanding afterwards.
    * `sendStep_open`, `sendStep_closed` — one packet joins one list.
-/
import EnetRs.Sending.Packets
import EnetRs.Lib.Serial

namespace EnetRs

open MachineInt

namespace PeerEntry

variable {p q : PeerEntry}

/-! ## §1. One packet. -/

/-- What the reliable branch of `send_packet` does to the entry; `c` is the
packet's channel. -/
def sendStep (p : PeerEntry) (useChecksum : Bool) (c : Channel) (pkt : Packet) (nowMs : U32) :
    PeerEntry :=
  if !p.windowOpen pkt.channel c then p.queuePending pkt
  else if pkt.data.length ≤ maxReliablePayload p.mtu.toNat useChecksum then
    (p.numberWhole pkt nowMs).1
  else (p.numberFragments pkt (fragPayload p.mtu.toNat useChecksum) nowMs).1

section SendStep

variable {ck : Bool} {c : Channel} {pkt : Packet} {nowMs : U32}

/-- The first number a packet takes on its channel. -/
theorem nextReliableSeq_snd (hc : p.channels[pkt.channel.toNat]? = some c) :
    (p.nextReliableSeq pkt.channel).2 = c.outgoingReliableSeq + 1 := by
  simp only [nextReliableSeq, hc]
  rfl

/-- The channel after a number was taken from it. -/
theorem nextReliableSeq_channel {ch : U8} (hc : p.channels[ch.toNat]? = some c) :
    (p.nextReliableSeq ch).1.channels[ch.toNat]? = some c.nextReliableSeq := by
  rw [nextReliableSeq_channels, Collections.modify_of_getElem? _ hc]
  exact List.getElem?_set_self (List.getElem?_eq_some_iff.mp hc).1

/-- A fragment after the first: it takes the next number and is stored under it. -/
theorem fragmentLoop_next (ch : U8) (startSeq : U16) (fp : Nat) (data : Bytes) (nowMs : U32)
    (n : Nat) {i : Nat} (hi : i ≠ 0) (hc : p.channels[ch.toNat]? = some c) :
    ∃ cmd, (fragmentLoop ch startSeq fp data nowMs (n + 1) i p).1
      = (fragmentLoop ch startSeq fp data nowMs n (i + 1)
          (({ p with channels := p.channels.set ch.toNat c.nextReliableSeq } : PeerEntry).track ch
            (c.outgoingReliableSeq + 1) cmdSendFragment cmd nowMs)).1 := by
  have hnext : p.nextReliableSeq ch
      = ({ p with channels := p.channels.set ch.toNat c.nextReliableSeq },
          c.outgoingReliableSeq + 1) := by
    simp only [nextReliableSeq, hc]
    rfl
  refine ⟨encodeCommand cmdSendFragment commandFlagAcknowledge ch (c.outgoingReliableSeq + 1)
    (fragmentBody (fragmentOf startSeq fp data i)), ?_⟩
  conv_lhs => unfold fragmentLoop
  simp only [hi, if_false, hnext]

/-- `q` is `p` after commands of type `ty` were stored under the numbers `seqs`
of channel `ch`.  Their record says `fresh` when none of the numbers was in use. -/
structure Creates (ch ty : U8) (seqs : List U16) (p q : PeerEntry) : Prop where
  keys : ∀ k : U8 × U16, k ∈ q.outgoingReliable ↔ k ∈ p.outgoingReliable ∨ ∃ s ∈ seqs, k = (ch, s)
  history : ∃ es : List PeerEvent, q.history = p.history ++ es
    ∧ (∀ e ∈ es, ∃ s fresh, e = .create ty ch s fresh)
    ∧ ((∀ s ∈ seqs, (ch, s) ∉ p.outgoingReliable) → seqs.Nodup →
      ∀ e ∈ es, ∃ s, e = .create ty ch s true)

namespace Creates

variable {ch ty : U8} {r : PeerEntry} {xs ys : List U16}

theorem of_same (hout : q.outgoingReliable = p.outgoingReliable) (hh : q.history = p.history) :
    Creates ch ty [] p q :=
  ⟨by simp [hout], [], by simp [hh], by simp, by simp⟩

theorem trans (h₁ : Creates ch ty xs p q) (h₂ : Creates ch ty ys q r) :
    Creates ch ty (xs ++ ys) p r := by
  obtain ⟨es₁, hh₁, hty₁, hf₁⟩ := h₁.history
  obtain ⟨es₂, hh₂, hty₂, hf₂⟩ := h₂.history
  refine ⟨fun k => ?_, es₁ ++ es₂, by rw [hh₂, hh₁, List.append_assoc], ?_, ?_⟩
  · rw [h₂.keys, h₁.keys]
    simp only [List.mem_append, or_and_right, exists_or, or_assoc]
  · intro e he
    exact (List.mem_append.mp he).elim (hty₁ e) (hty₂ e)
  · intro hnew hnodup e he
    obtain ⟨hx, hy, hdisj⟩ := List.nodup_append.mp hnodup
    rcases List.mem_append.mp he with he | he
    · exact hf₁ (fun s hs => hnew s (List.mem_append_left _ hs)) hx e he
    · refine hf₂ (fun s hs => ?_) hy e he
      -- not stored before, and not by the first part either
      rw [h₁.keys]
      rintro (hold | ⟨s', hs', heq⟩)
      · exact hnew s (List.mem_append_right _ hs) hold
      · cases heq
        exact hdisj s hs' s hs rfl

theorem track (p : PeerEntry) (ch ty : U8) (seq : U16) (cmd : Bytes) (nowMs : U32) :
    Creates ch ty [seq] p (p.track ch seq ty cmd nowMs) := by
  refine ⟨fun k => ?_, _, rfl, ?_, ?_⟩
  · show k ∈ p.outgoingReliable.insert (ch, seq) _ ↔ _
    rw [Std.ExtTreeMap.mem_insert, Std.LawfulEqCmp.compare_eq_iff_eq]
    simp [eq_comm, or_comm]
  · intro e he
    exact ⟨seq, _, List.mem_singleton.mp he⟩
  · intro hnew _ e he
    have hno : p.outgoingReliable.contains (ch, seq) = false :=
      Bool.eq_false_iff.mpr fun hc =>
        hnew seq (List.mem_singleton_self seq) (Std.ExtTreeMap.contains_iff_mem.mp hc)
    refine ⟨seq, ?_⟩
    rw [List.mem_singleton.mp he, hno]
    rfl

/-- The fragments after the first. -/
theorem fragmentLoop (ch : U8) (startSeq : U16) (fp : Nat) (data : Bytes) (nowMs : U32) :
    ∀ (n i : Nat) (p : PeerEntry) (c : Channel), i ≠ 0 → p.channels[ch.toNat]? = some c →
      Creates ch cmdSendFragment (Serial.block (c.outgoingReliableSeq + 1) n) p
        (PeerEntry.fragmentLoop ch startSeq fp data nowMs n i p).1 := by
  intro n
  induction n with
  | zero =>
      intro i p c _ _
      exact of_same rfl rfl
  | succ n ih =>
      intro i p c hi hc
      obtain ⟨cmd, hloop⟩ := fragmentLoop_next ch startSeq fp data nowMs n hi hc
      rw [hloop]
      have hlt := (List.getElem?_eq_some_iff.mp hc).1
      have htaken : Creates ch cmdSendFragment [] p
          { p with channels := p.channels.set ch.toNat c.nextReliableSeq } := of_same rfl rfl
      exact (htaken.trans (track _ _ _ _ _ _)).trans (ih (i + 1) _ c.nextReliableSeq
        (Nat.succ_ne_zero i) (List.getElem?_set_self hlt))

end Creates

/-- The packet `pkt` was given `n` numbers of its channel `c`. -/
structure Numbers (p : PeerEntry) (c : Channel) (pkt : Packet) (n : Nat) (q : PeerEntry) :
    Prop where
  on : NumberedOn pkt.channel p q
  channels : q.channels = p.channels.modify pkt.channel.toNat (·.advance n)
  numberings : q.numberings = p.numberings ++ [(pkt, c.outgoingReliableSeq + 1, n)]
  submitted : q.submitted = p.submitted
  pending : q.pendingSend = p.pendingSend
  creates : ∃ ty r, (ty = cmdSendReliable ∨ ty = cmdSendFragment)
    ∧ Creates pkt.channel ty (Serial.block (c.outgoingReliableSeq + 1) n) p r
    ∧ q.outgoingReliable = r.outgoingReliable
    ∧ q.history = r.history ++ [.number pkt pkt.channel (c.outgoingReliableSeq + 1) n]

theorem Numbers.numbered {n : Nat} (hn : Numbers p c pkt n q) : q.numbered = p.numbered ++ [pkt] := by
  simp [PeerEntry.numbered, hn.numberings]

theorem numberWhole_numbers (nowMs : U32) (hr : InRange p) (hsend : PeerOp.Sendable p pkt c) :
    Numbers p c pkt 1 (p.numberWhole pkt nowMs).1 := by
  have hch := hsend.channel_ne hr.channels.2
  have hseq := nextReliableSeq_snd hsend.2.2
  obtain ⟨hnum, hsub, hpend⟩ := log_number (makeReliable_packets p pkt.channel cmdSendReliable 0
    nowMs (be16 (BitVec.ofNat 16 pkt.data.length) ++ pkt.data)) pkt pkt.channel
    (p.nextReliableSeq pkt.channel).2 1
  refine ⟨.numberWhole p pkt nowMs hch, numberWhole_channels p pkt nowMs hch, ?_, hsub, hpend,
    cmdSendReliable, (p.makeReliable pkt.channel cmdSendReliable 0 nowMs
      (be16 (BitVec.ofNat 16 pkt.data.length) ++ pkt.data)).1, .inl rfl, ?_, rfl, ?_⟩
  · rw [← hseq]
    exact hnum
  · have htake : p.takeSeq pkt.channel = p.nextReliableSeq pkt.channel := if_neg hch
    have htaken : Creates pkt.channel cmdSendReliable [] p (p.takeSeq pkt.channel).1 := by
      rw [htake]
      exact .of_same (nextReliableSeq_outgoing p pkt.channel) (nextReliableSeq_history p pkt.channel)
    have hone : Serial.block (c.outgoingReliableSeq + 1) 1 = [] ++ [(p.takeSeq pkt.channel).2] := by
      rw [htake, hseq]
      rfl
    rw [hone]
    exact htaken.trans (.track _ _ _ _ _ _)
  · rw [← hseq]
    rfl

theorem numberFragments_numbers (nowMs : U32) {fp : Nat} (hpos : 0 < fragCount fp pkt.data)
    (hsend : PeerOp.Sendable p pkt c) :
    Numbers p c pkt (fragCount fp pkt.data) (p.numberFragments pkt fp nowMs).1 := by
  have hchan := numberFragments_channels p pkt fp nowMs
  rw [Nat.sub_add_cancel hpos] at hchan
  have hseq := nextReliableSeq_snd hsend.2.2
  obtain ⟨hnum, hsub, hpend⟩ := log_number (.trans (nextReliableSeq_packets p pkt.channel)
    (fragmentLoop_packets pkt.channel (p.nextReliableSeq pkt.channel).2 fp pkt.data nowMs
      (fragCount fp pkt.data) 0 _)) pkt pkt.channel (p.nextReliableSeq pkt.channel).2
    (fragCount fp pkt.data)
  refine ⟨.numberFragments p pkt _ nowMs, hchan, ?_, hsub, hpend, cmdSendFragment,
    (fragmentLoop pkt.channel (p.nextReliableSeq pkt.channel).2 fp pkt.data nowMs
      (fragCount fp pkt.data) 0 (p.nextReliableSeq pkt.channel).1).1, .inr rfl, ?_, rfl, ?_⟩
  · rw [← hseq]
    exact hnum
  · -- the first fragment uses the number taken before the loop
    obtain ⟨m, hm⟩ := Nat.exists_eq_succ_of_ne_zero hpos.ne'
    have htaken : Creates pkt.channel cmdSendFragment [] p (p.nextReliableSeq pkt.channel).1 :=
      .of_same (nextReliableSeq_outgoing p pkt.channel) (nextReliableSeq_history p pkt.channel)
    rw [hm, ← hseq]
    unfold fragmentLoop
    simp only [if_true]
    have hc' := nextReliableSeq_channel hsend.2.2
    have hblock : Serial.block (p.nextReliableSeq pkt.channel).2 (m + 1)
        = ([] ++ [(p.nextReliableSeq pkt.channel).2])
          ++ Serial.block (c.nextReliableSeq.outgoingReliableSeq + 1) m := by
      rw [hseq]
      rfl
    rw [Nat.succ_eq_add_one, hblock]
    exact (htaken.trans (.track _ _ _ _ _ _)).trans
      (.fragmentLoop _ _ _ _ _ m 1 _ c.nextReliableSeq (by decide) hc')
  · rw [← hseq]
    rfl

/-- A packet too long for one command has at least one fragment. -/
theorem fragCount_pos_of_big (hr : InRange p)
    (hbig : maxReliablePayload p.mtu.toNat ck < pkt.data.length) :
    0 < fragCount (fragPayload p.mtu.toNat ck) pkt.data :=
  fragCount_pos (fragPayload_pos hr.mtu ck) (by omega)

/-- The window is open: the packet is numbered. -/
theorem sendStep_open (ck : Bool) (nowMs : U32) (hr : InRange p) (hsend : PeerOp.Sendable p pkt c)
    (hw : p.windowOpen pkt.channel c = true) :
    ∃ n, Numbers p c pkt n (p.sendStep ck c pkt nowMs) := by
  simp only [sendStep, hw, Bool.not_true, Bool.false_eq_true, if_false]
  split
  · exact ⟨_, numberWhole_numbers nowMs hr hsend⟩
  · next hbig =>
    exact ⟨_, numberFragments_numbers nowMs (fragCount_pos_of_big hr (Nat.lt_of_not_le hbig)) hsend⟩

/-- The window is closed: the packet waits, if there is room. -/
theorem sendStep_closed (hw : p.windowOpen pkt.channel c = false) :
    p.sendStep ck c pkt nowMs = p.queuePending pkt := by
  simp [sendStep, hw]

theorem queuePending_of_room (hroom : p.pendingSend.length < maxPendingSend) :
    p.queuePending pkt = { p with pendingSend := p.pendingSend ++ [pkt] } := if_pos hroom

theorem queuePending_of_full (hfull : ¬ p.pendingSend.length < maxPendingSend) :
    p.queuePending pkt = p := if_neg hfull

/-- An accepted packet that cannot go out at once finds room to wait. -/
theorem hasRoom_of_accepts (hsend : PeerOp.Sendable p pkt c) (hacc : p.acceptsReliable pkt = true)
    (hw : p.windowOpen pkt.channel c = false) : p.pendingSend.length < maxPendingSend := by
  simp only [acceptsReliable, hsend.2.2, Bool.and_eq_true, hw, Bool.false_or,
    decide_eq_true_eq] at hacc
  exact hacc.2

/-- One packet through `send_packet`: it joins the numbered or the waiting
packets at the end. -/
structure Joins (p : PeerEntry) (pkt : Packet) (q : PeerEntry) : Prop where
  state : q.state = p.state
  keyed : WellKeyed p.outgoingReliable → WellKeyed q.outgoingReliable
  length : q.channels.length = p.channels.length
  submitted : q.submitted = p.submitted
  pending : q.pendingSend = p.pendingSend ∨ q.pendingSend = p.pendingSend ++ [pkt]
  fits : p.pendingSend.length ≤ maxPendingSend → q.pendingSend.length ≤ maxPendingSend
  kept : (q.numbered ++ q.pendingSend).Perm (p.numbered ++ p.pendingSend ++ [pkt])

/-- **One packet joins**: with an open window it is numbered, with a closed one it waits;
either way the packets numbered or waiting are those of before and this one. -/
theorem sendStep_joins {t : U32} (hr : InRange p) (hsend : PeerOp.Sendable p pkt c)
    (hroom : p.windowOpen pkt.channel c = false → p.pendingSend.length < maxPendingSend) :
    Joins p pkt { p.sendStep ck c pkt nowMs with lastSendTime := t } := by
  cases hw : p.windowOpen pkt.channel c with
  | false =>
      rw [sendStep_closed hw, queuePending_of_room (hroom hw)]
      refine ⟨rfl, id, rfl, rfl, .inr rfl, fun _ => ?_, ?_⟩
      · show (p.pendingSend ++ [pkt]).length ≤ maxPendingSend
        rw [List.length_append, List.length_singleton]
        exact hroom hw
      · show (p.numbered ++ (p.pendingSend ++ [pkt])).Perm _
        rw [List.append_assoc]
  | true =>
      obtain ⟨n, hn⟩ := sendStep_open ck nowMs hr hsend hw
      refine ⟨hn.on.frame.get (·.state), hn.on.keyed, hn.on.length, hn.submitted, .inl hn.pending,
        fun hfits => hn.pending ▸ hfits, ?_⟩
      show ((p.sendStep ck c pkt nowMs).numbered ++ (p.sendStep ck c pkt nowMs).pendingSend).Perm _
      rw [hn.numbered, hn.pending, List.append_assoc, List.append_assoc]
      exact List.perm_append_comm.append_left _

end SendStep

end PeerEntry

/-! ## §2. What waits in `pending_send`. -/

namespace PeerEntry

variable {p q : PeerEntry} {pkt : Packet} {pkts : List Packet}

/-- The waiting packet `w` can be sent once its window opens. -/
def Waiting (p : PeerEntry) (w : Packet) : Prop :=
  w.mode = .reliable ∧ w.channel.toNat < p.channels.length

/-- Between packets: everything that waits can be sent, there are at most 1024
such packets, and none before the connection is established. -/
structure Held (p : PeerEntry) : Prop where
  waiting : ∀ w ∈ p.pendingSend, p.Waiting w
  room : p.pendingSend.length ≤ maxPendingSend
  early : p.state = .connecting ∨ p.state = .acknowledgingConnect →
    p.submitted = [] ∧ p.numbered = [] ∧ p.pendingSend = []

/-- During a drain, `pkts` still to go. -/
structure HeldBack (p : PeerEntry) (pkts : List Packet) : Prop where
  connected : p.state = .connected
  waiting : ∀ w ∈ p.pendingSend ++ pkts, p.Waiting w
  room : p.pendingSend.length + pkts.length ≤ maxPendingSend

theorem Held.of_starts (hs : Starts p) : Held p := by
  obtain ⟨ty, hh, -⟩ := hs.history
  refine ⟨by simp [hs.pending], by simp [hs.pending], fun _ => ⟨?_, ?_, hs.pending⟩⟩
  · rw [submitted, hh]
    rfl
  · rw [numbered, numberings, hh]
    rfl

/-- An operation that moves no packet keeps what waits: it touches none of the three
lists, and it never leads back to a state before the connection. -/
theorem Held.op {h : HostTask} {nowMs : U32} {o : PeerOp} (hp : Held p) (hr : InRange p)
    (hg : o.Guard h p) (ho : ¬ o.Moves) : Held (o.apply nowMs p) := by
  have hsame := PeerOp.packets ho nowMs p
  refine ⟨fun w hw => ?_, by rw [hsame.pending]; exact hp.room, fun hearly => ?_⟩
  · rw [hsame.pending] at hw
    obtain ⟨hmode, hlt⟩ := hp.waiting w hw
    exact ⟨hmode, by rw [PeerOp.channels_length nowMs hg hr.channels.2]; exact hlt⟩
  · rw [hsame.submitted, hsame.numbered, hsame.pending]
    rcases PeerOp.state_cases nowMs hg with hst | ⟨-, hst⟩ | ⟨data, hst⟩ | hst
    · exact hp.early (by rw [← hst]; exact hearly)
    all_goals simp [hst] at hearly

theorem Joins.waiting (hj : Joins p pkt q) (hw : ∀ w ∈ p.pendingSend ++ pkt :: pkts, p.Waiting w) :
    ∀ w ∈ q.pendingSend ++ pkts, q.Waiting w := by
  intro w hmem
  have hp : p.Waiting w := by
    refine hw w ?_
    rcases hj.pending with hpend | hpend <;> rw [hpend] at hmem <;>
      simp only [List.mem_append, List.mem_cons, List.not_mem_nil, or_false] at hmem ⊢ <;> tauto
  exact ⟨hp.1, by rw [hj.length]; exact hp.2⟩

/-- A submission. -/
theorem Held.send {c : Channel} (hp : Held p) (hsend : PeerOp.Sendable p pkt c)
    (hj : Joins (p.log (.submit pkt)) pkt q) : Held q := by
  have hwait : ∀ w ∈ (p.log (.submit pkt)).pendingSend ++ [pkt], (p.log (.submit pkt)).Waiting w := by
    intro w hw
    rcases List.mem_append.mp hw with hold | hnew
    · exact hp.waiting w hold
    · obtain rfl : w = pkt := by simpa using hnew
      exact ⟨hsend.2.1, (List.getElem?_eq_some_iff.mp hsend.2.2).1⟩
  refine ⟨fun w hw => hj.waiting hwait w (List.mem_append_left _ hw), hj.fits hp.room, ?_⟩
  intro hearly
  rw [hj.state] at hearly
  simp [log, hsend.1] at hearly

theorem Held.clear (hp : Held p) : Held { p with pendingSend := [] } :=
  { waiting := by simp
    room := by simp
    early := fun hearly => ⟨(hp.early hearly).1, (hp.early hearly).2.1, rfl⟩ }

/-- The drain starts with every waiting packet taken out of `pending_send`. -/
theorem Held.start (hp : Held p) (hst : p.state = .connected) :
    HeldBack { p with pendingSend := [] } p.pendingSend :=
  { connected := hst
    waiting := fun w hw => hp.waiting w (by simpa using hw)
    room := by simpa using hp.room }

theorem HeldBack.ready (hd : HeldBack p (pkt :: pkts)) : ∃ c, PeerOp.Sendable p pkt c := by
  obtain ⟨hmode, hlt⟩ := hd.waiting pkt (by simp)
  exact ⟨_, hd.connected, hmode, List.getElem?_eq_getElem hlt⟩

theorem HeldBack.hasRoom (hd : HeldBack p (pkt :: pkts)) :
    p.pendingSend.length < maxPendingSend := by
  have := hd.room
  simp only [List.length_cons] at this
  omega

/-- A packet that the drain sends is numbered or waits again; it has its place, since it
was counted among those still to go. -/
theorem HeldBack.next (hd : HeldBack p (pkt :: pkts)) (hj : Joins p pkt q) : HeldBack q pkts := by
  refine ⟨hj.state.trans hd.connected, hj.waiting hd.waiting, ?_⟩
  have hroom := hd.room
  rw [List.length_cons] at hroom
  rcases hj.pending with hpend | hpend
  · rw [hpend]
    omega
  · rw [hpend, List.length_append, List.length_singleton]
    omega

/-- With none left to go, the entry is as it is between packets. -/
theorem HeldBack.done (hd : HeldBack p []) : Held p :=
  { waiting := fun w hw => hd.waiting w (by simpa using hw)
    room := by simpa using hd.room
    early := fun hearly => by simp [hd.connected] at hearly }

end PeerEntry

end EnetRs
