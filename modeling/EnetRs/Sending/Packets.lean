/-
  EnetRs.Sending.Packets — reliable packets from submission to numbering.

  The history of an entry tells which reliable packets were accepted
  (`submitted`) and which were given numbers (`numberings`); in between a
  packet waits in `pendingSend`.

  Main results:
    * `PeerOp.packets` — nothing but `send_packet` and the drain touches the
      three lists.
    * `NumberedOn.windowOpen_eq` — numbering on one channel leaves the windows
      of the others as they were.
    * `IsNewEntry.starts`, `PeerOp.keyed`, `PeerOp.state_cases` — what every
      invariant of the sending side starts from.
-/
import EnetRs.Host.Bounds
import EnetRs.Host.Ownership

namespace EnetRs

open MachineInt

/-! ## §1. Submitted, waiting, numbered. -/

namespace PeerEvent

def asSubmit : PeerEvent → Option Packet
  | .submit pkt => some pkt
  | _ => none

def asNumber : PeerEvent → Option (Packet × U16 × Nat)
  | .number pkt _ seq count => some (pkt, seq, count)
  | _ => none

end PeerEvent

namespace PeerEntry

variable {p q r : PeerEntry}

/-- The reliable packets `send_packet` has accepted, in order. -/
def submitted (p : PeerEntry) : List Packet := p.history.filterMap PeerEvent.asSubmit

/-- The packets that were given sequence numbers, in order, each with the first
of its numbers and how many it took. -/
def numberings (p : PeerEntry) : List (Packet × U16 × Nat) :=
  p.history.filterMap PeerEvent.asNumber

def numbered (p : PeerEntry) : List Packet := p.numberings.map (·.1)

/-- The three lists are the same in `p` and `q`. -/
structure SamePackets (p q : PeerEntry) : Prop where
  submitted : q.submitted = p.submitted
  numberings : q.numberings = p.numberings
  pending : q.pendingSend = p.pendingSend

theorem SamePackets.numbered (hs : SamePackets p q) : q.numbered = p.numbered := by
  rw [PeerEntry.numbered, hs.numberings]
  rfl

@[simp] theorem submitted_log_submit (p : PeerEntry) (pkt : Packet) :
    (p.log (.submit pkt)).submitted = p.submitted ++ [pkt] := by
  simp [submitted, log, PeerEvent.asSubmit]

@[simp] theorem numberings_log_submit (p : PeerEntry) (pkt : Packet) :
    (p.log (.submit pkt)).numberings = p.numberings := by
  simp [numberings, log, PeerEvent.asNumber]

@[simp] theorem numbered_log_submit (p : PeerEntry) (pkt : Packet) :
    (p.log (.submit pkt)).numbered = p.numbered := by
  rw [numbered, numberings_log_submit, numbered]

namespace SamePackets

theorem trans (h₁ : SamePackets p q) (h₂ : SamePackets q r) : SamePackets p r :=
  ⟨h₂.submitted.trans h₁.submitted, h₂.numberings.trans h₁.numberings,
    h₂.pending.trans h₁.pending⟩

/-- Events that are about no packet of ours may be added to the history. -/
theorem of_history {es : List PeerEvent} (hh : q.history = p.history ++ es)
    (hp : q.pendingSend = p.pendingSend) (hs : es.filterMap PeerEvent.asSubmit = [])
    (hn : es.filterMap PeerEvent.asNumber = []) : SamePackets p q := by
  refine ⟨?_, ?_, hp⟩
  · rw [PeerEntry.submitted, hh, List.filterMap_append, hs, List.append_nil]
    rfl
  · rw [PeerEntry.numberings, hh, List.filterMap_append, hn, List.append_nil]
    rfl

/-- What arrives adds deliveries only. -/
theorem of_delivers {pkts : List Packet} (hh : q.history = p.history ++ pkts.map .deliver)
    (hf : p.Received q) : SamePackets p q := by
  refine of_history hh (hf.get (·.pendingSend)) ?_ ?_ <;>
    simp [List.filterMap_map, Function.comp_def, PeerEvent.asSubmit, PeerEvent.asNumber]

end SamePackets

/-! Histories of the operations. -/

/-- Handing messages over adds one delivery for each of them to the history. -/
theorem deliverAll_delivers (ch : U8) (mode : SendMode) (ready : List Bytes)
    (hh : q.history = p.history) :
    ∃ pkts : List Packet, (q.deliverAll ch mode ready).history = p.history ++ pkts.map .deliver :=
  ⟨ready.map fun data => ⟨data, ch, mode⟩, by rw [deliverAll_eq]; simp [hh]⟩

/-- A reliable command adds deliveries only, and none on a channel that does not
exist. -/
theorem onSendReliable_delivers (ch : U8) (seq : U16) (data : Bytes) (nowMs : U32) :
    ∃ pkts : List Packet,
      (p.onSendReliable ch seq data nowMs).history = p.history ++ pkts.map .deliver := by
  unfold onSendReliable
  simp only
  split
  · exact ⟨[], (List.append_nil _).symm⟩
  · exact deliverAll_delivers _ _ _ rfl

/-- An unreliable command adds at most its own delivery: a stale one adds nothing. -/
theorem onSendUnreliable_delivers (ch : U8) (rseq useq : U16) (data : Bytes) (nowMs : U32) :
    ∃ pkts : List Packet,
      (p.onSendUnreliable ch rseq useq data nowMs).history = p.history ++ pkts.map .deliver := by
  unfold onSendUnreliable
  simp only
  split
  · exact ⟨[], (List.append_nil _).symm⟩
  · split
    · exact ⟨[], (List.append_nil _).symm⟩
    · exact deliverAll_delivers _ _ _ rfl

/-- An unsequenced packet is delivered once or, where its group was seen, not at all. -/
theorem onSendUnsequenced_delivers (group : U16) (data : Bytes) (nowMs : U32) :
    ∃ pkts : List Packet,
      (p.onSendUnsequenced group data nowMs).history = p.history ++ pkts.map .deliver := by
  unfold onSendUnsequenced
  simp only
  split
  · exact ⟨[⟨data, 0, .unsequenced⟩], rfl⟩
  · exact ⟨[], (List.append_nil _).symm⟩

/-- A fragment adds the deliveries that it completes; storing it adds none. -/
theorem onFragment_delivers (ch : U8) (sf : SendFragmentCmd) (reliable : Bool) (nowMs : U32) :
    ∃ pkts : List Packet,
      (p.onFragment ch sf reliable nowMs).history = p.history ++ pkts.map .deliver := by
  unfold onFragment
  split
  · exact ⟨[], (List.append_nil _).symm⟩
  · simp only
    split
    · exact ⟨[], (List.append_nil _).symm⟩
    · refine deliverAll_delivers _ _ _ ?_
      rw [storeFragment_eq]

/-- Taking a number writes a counter of the channel and leaves the history alone. -/
theorem nextReliableSeq_history (p : PeerEntry) (ch : U8) :
    (p.nextReliableSeq ch).1.history = p.history := by
  unfold nextReliableSeq
  split <;> rfl

/-- Taking a number leaves the outstanding commands alone. -/
theorem nextReliableSeq_outgoing (p : PeerEntry) (ch : U8) :
    (p.nextReliableSeq ch).1.outgoingReliable = p.outgoingReliable := by
  unfold nextReliableSeq
  split <;> rfl

theorem takeSeq_history (p : PeerEntry) (ch : U8) : (p.takeSeq ch).1.history = p.history := by
  unfold takeSeq
  split
  · rfl
  · exact nextReliableSeq_history p ch

/-- Creating a command is about no packet. -/
theorem track_packets (p : PeerEntry) (ch : U8) (seq : U16) (cmdType : U8) (cmd : Bytes)
    (nowMs : U32) : SamePackets p (p.track ch seq cmdType cmd nowMs) :=
  .of_history rfl rfl rfl rfl

/-- Taking a number concerns no packet. -/
theorem nextReliableSeq_packets (p : PeerEntry) (ch : U8) :
    SamePackets p (p.nextReliableSeq ch).1 :=
  .of_history (show _ = p.history ++ [] by rw [nextReliableSeq_history, List.append_nil])
    ((nextReliableSeq_numbered ch).get (·.pendingSend)) rfl rfl

/-- A command that is made from its parts, such as a ping, concerns no packet: a
number is taken and the command is stored. -/
theorem makeReliable_packets (p : PeerEntry) (ch cmdType flags : U8) (nowMs : U32) (body : Bytes) :
    SamePackets p (p.makeReliable ch cmdType flags nowMs body).1 := by
  refine .trans (q := (p.takeSeq ch).1) ?_ (track_packets _ _ _ _ _ _)
  exact .of_history (show _ = p.history ++ [] by rw [takeSeq_history, List.append_nil])
    ((takeSeq_numbered ch).get (·.pendingSend)) rfl rfl

/-- Cutting a message into fragments concerns no packet by itself; the one numbering
is logged by the caller, after the loop. -/
theorem fragmentLoop_packets (ch : U8) (startSeq : U16) (fp : Nat) (data : Bytes) (nowMs : U32)
    (n i : Nat) (p : PeerEntry) : SamePackets p (fragmentLoop ch startSeq fp data nowMs n i p).1 :=
  fragmentLoop_rel (R := SamePackets) (fun _ => ⟨rfl, rfl, rfl⟩) SamePackets.trans
    (fun p => nextReliableSeq_packets p ch) (fun p _ _ => track_packets p _ _ _ _ _) _ _ _ _ _ _

/-- Numbering a packet appends it to `numberings`. -/
theorem log_number (hs : SamePackets p q) (pkt : Packet) (ch : U8) (seq : U16) (n : Nat) :
    (q.log (.number pkt ch seq n)).numberings = p.numberings ++ [(pkt, seq, n)]
      ∧ (q.log (.number pkt ch seq n)).submitted = p.submitted
      ∧ (q.log (.number pkt ch seq n)).pendingSend = p.pendingSend := by
  refine ⟨?_, ?_, hs.pending⟩
  · rw [← hs.numberings]
    simp [numberings, log, PeerEvent.asNumber]
  · rw [← hs.submitted]
    simp [submitted, log, PeerEvent.asSubmit]

end PeerEntry

/-- The operations of `send_packet` and of the drain on reliable packets. -/
def PeerOp.Moves : PeerOp → Prop
  | .submit _ | .clearPending | .queue _ | .numberWhole _ | .numberFragments _ _ => True
  | _ => False

/-- A quiet action moves no packet of ours. -/
theorem HostTask.Quiet.not_moves {k : PeerKey} {o : PeerOp} (hq : HostTask.Quiet (.op k o)) :
    ¬ o.Moves := by
  cases o with
  | submit | queue | numberWhole | numberFragments | clearPending => exact hq.elim
  | _ => exact id

/-- A quiet action is not the caller's request to disconnect; a deferred one that
fires is quiet. -/
theorem HostTask.Quiet.not_requested {k : PeerKey} {o : PeerOp} (hq : HostTask.Quiet (.op k o)) :
    ¬ HostTask.Requested o := by
  cases o with
  | deferDisconnect data => exact hq.elim
  | beginDisconnect deferred =>
      cases deferred with
      | false => exact hq.elim
      | true => exact id
  | _ => exact id

/-- A request to disconnect moves no packet. -/
theorem HostTask.Requested.not_moves {o : PeerOp} (hr : HostTask.Requested o) : ¬ o.Moves := by
  cases o with
  | submit | queue | numberWhole | numberFragments | clearPending => exact hr.elim
  | _ => exact id

/-- **No other operation touches the three lists.**  What arrives adds deliveries to
the history, an ACK adds acknowledgements, a control command its creation; none of
these is about a packet of ours. -/
theorem PeerOp.packets {o : PeerOp} (ho : ¬ o.Moves) (nowMs : U32) (p : PeerEntry) :
    p.SamePackets (o.apply nowMs p) := by
  cases o with
  | submit | queue | numberWhole | numberFragments | clearPending => exact absurd trivial ho
  | recvReliable ch seq data =>
      obtain ⟨pkts, hh⟩ := PeerEntry.onSendReliable_delivers (p := p) ch seq data nowMs
      exact .of_delivers hh (PeerEntry.onSendReliable_received ch seq data nowMs).1
  | recvUnreliable ch rseq useq data =>
      obtain ⟨pkts, hh⟩ := PeerEntry.onSendUnreliable_delivers (p := p) ch rseq useq data nowMs
      exact .of_delivers hh (PeerEntry.onSendUnreliable_received ch rseq useq data nowMs).1
  | recvFragment ch sf reliable =>
      obtain ⟨pkts, hh⟩ := PeerEntry.onFragment_delivers (p := p) ch sf reliable nowMs
      exact .of_delivers hh (PeerEntry.onFragment_received ch sf reliable nowMs).1
  | recvUnsequenced group data =>
      obtain ⟨pkts, hh⟩ := PeerEntry.onSendUnsequenced_delivers (p := p) group data nowMs
      exact .of_delivers hh (PeerEntry.onSendUnsequenced_received group data nowMs).1
  | ack ch a =>
      exact .of_history (PeerEntry.applyAck_eq p ch a nowMs).2
        ((PeerEntry.applyAck_acked ch a nowMs).get (·.pendingSend)) rfl rfl
  | connectionCmd cmdType body => exact PeerEntry.makeReliable_packets p _ _ _ _ _
  | take ch seq => exact .of_history rfl rfl rfl rfl
  | recvBandwidthLimit bl =>
      simp only [PeerOp.apply, PeerEntry.onBandwidthLimit]
      split <;> exact ⟨rfl, rfl, rfl⟩
  | _ => exact ⟨rfl, rfl, rfl⟩

/-! ## §2. The outstanding commands of one channel. -/

/-- Every outstanding command carries the channel and number it is stored under. -/
def WellKeyed (m : OutgoingReliable) : Prop :=
  ∀ (k : U8 × U16) (r : OutstandingReliable), m[k]? = some r →
    r.channelId = k.1 ∧ r.reliableSeq = k.2

namespace WellKeyed

variable {m : OutgoingReliable}

/-- A command that is stored under its own channel and number keeps the keys right. -/
theorem insert (hm : WellKeyed m) {k : U8 × U16} {r : OutstandingReliable}
    (hr : r.channelId = k.1 ∧ r.reliableSeq = k.2) : WellKeyed (m.insert k r) := by
  intro k' r' hk'
  rw [Std.ExtTreeMap.getElem?_insert] at hk'
  split at hk'
  · next heq =>
    cases hk'
    rw [← Std.LawfulEqCmp.eq_of_compare heq]
    exact hr
  · exact hm k' r' hk'

/-- Removing a command leaves the others under their keys. -/
theorem erase (hm : WellKeyed m) (k : U8 × U16) : WellKeyed (m.erase k) :=
  fun k' r' hk' => hm k' r' (Collections.getElem?_of_erase hk')

/-- Retransmission keeps channel and number: it stores each command again under the
key it was found at.  The induction is on the snapshot, whose commands are well
keyed themselves. -/
theorem retransmitLoop (nowMs : U32) :
    ∀ (es : List ((U8 × U16) × OutstandingReliable)) (m : OutgoingReliable), WellKeyed m →
      (∀ e ∈ es, e.2.channelId = e.1.1 ∧ e.2.reliableSeq = e.1.2) →
      WellKeyed (EnetRs.retransmitLoop nowMs es m).2.1 := by
  intro es
  induction es with
  | nil =>
      intro m hm _
      exact hm
  | cons e es ih =>
      intro m hm hes
      obtain ⟨k, r⟩ := e
      have hrest := fun e he => hes e (List.mem_cons_of_mem _ he)
      unfold EnetRs.retransmitLoop
      split
      · exact ih m hm hrest
      · split
        · exact hm
        · exact ih _ (hm.insert (hes (k, r) List.mem_cons_self)) hrest

end WellKeyed

namespace PeerEntry

variable {p q : PeerEntry}

/-- The outstanding numbers of a channel, read from the keys. -/
theorem outstandingSeqs_eq (hw : WellKeyed p.outgoingReliable) (ch : U8) :
    p.outstandingSeqs ch
      = (p.outgoingReliable.toList.filter fun e => e.1.1 == ch).map (·.1.2) := by
  have hmem : ∀ e ∈ p.outgoingReliable.toList,
      e.2.channelId = e.1.1 ∧ e.2.reliableSeq = e.1.2 := fun e he =>
    hw e.1 e.2 (Std.ExtTreeMap.mem_toList_iff_getElem?_eq_some.mp he)
  unfold outstandingSeqs
  rw [List.filter_map, List.map_map]
  have hfilter : p.outgoingReliable.toList.filter ((·.channelId == ch) ∘ (·.2))
      = p.outgoingReliable.toList.filter fun e => e.1.1 == ch :=
    List.filter_congr fun e he => by simp [(hmem e he).1]
  rw [hfilter]
  refine List.map_congr_left fun e he => ?_
  exact (hmem e (List.mem_filter.mp he).1).2

/-- The outstanding numbers of a channel depend on its own commands only. -/
theorem outstandingSeqs_congr {ch : U8} (hp : WellKeyed p.outgoingReliable)
    (hq : WellKeyed q.outgoingReliable)
    (heq : ∀ seq : U16, q.outgoingReliable[(ch, seq)]? = p.outgoingReliable[(ch, seq)]?) :
    q.outstandingSeqs ch = p.outstandingSeqs ch := by
  rw [outstandingSeqs_eq hp, outstandingSeqs_eq hq]
  congr 1
  refine Collections.filter_toList_congr (P := fun k : U8 × U16 => k.1 == ch) fun k hk => ?_
  obtain ⟨c, seq⟩ := k
  obtain rfl : c = ch := by simpa using hk
  exact heq seq

/-- `q` is `p` after numbers of channel `ch` were used: the commands and the
counters of the other channels are as before. -/
structure NumberedOn (ch : U8) (p q : PeerEntry) : Prop where
  frame : Numbered p q
  keyed : WellKeyed p.outgoingReliable → WellKeyed q.outgoingReliable
  others : ∀ (ch' : U8) (seq : U16), ch' ≠ ch →
    q.outgoingReliable[(ch', seq)]? = p.outgoingReliable[(ch', seq)]?
  channels : ∀ i, i ≠ ch.toNat → q.channels[i]? = p.channels[i]?
  length : q.channels.length = p.channels.length

namespace NumberedOn

variable {ch : U8} {r : PeerEntry}

theorem refl (p : PeerEntry) : NumberedOn ch p p :=
  ⟨rfl, id, fun _ _ _ => rfl, fun _ _ => rfl, rfl⟩

theorem trans (h₁ : NumberedOn ch p q) (h₂ : NumberedOn ch q r) : NumberedOn ch p r :=
  { frame := h₁.frame.trans h₂.frame
    keyed := fun hp => h₂.keyed (h₁.keyed hp)
    others := fun ch' seq hne => (h₂.others ch' seq hne).trans (h₁.others ch' seq hne)
    channels := fun i hi => (h₂.channels i hi).trans (h₁.channels i hi)
    length := h₂.length.trans h₁.length }

/-- Taking a number of `ch` writes that channel's counter and no outstanding command. -/
theorem next (ch : U8) (p : PeerEntry) : NumberedOn ch p (p.nextReliableSeq ch).1 := by
  have hout := nextReliableSeq_outgoing p ch
  refine ⟨nextReliableSeq_numbered ch, fun hp => by rw [hout]; exact hp,
    fun _ _ _ => by rw [hout], fun i hi => ?_, ?_⟩
  · rw [nextReliableSeq_channels]
    simp [Ne.symm hi]
  · rw [nextReliableSeq_channels, List.length_modify]

/-- Storing a command under `ch` leaves the keys of the other channels alone. -/
theorem track (p : PeerEntry) (seq : U16) (cmdType : U8) (cmd : Bytes) (nowMs : U32) :
    NumberedOn ch p (p.track ch seq cmdType cmd nowMs) := by
  refine ⟨track_numbered _ _ _ _ _, fun hp => hp.insert ⟨rfl, rfl⟩, fun ch' s hne => ?_,
    fun _ _ => rfl, rfl⟩
  have hcmp : compare (ch, seq) (ch', s) ≠ .eq := fun heq =>
    hne (congrArg Prod.fst (Std.LawfulEqCmp.eq_of_compare heq)).symm
  exact (Std.ExtTreeMap.getElem?_insert ..).trans (if_neg hcmp)

/-- A packet in one piece uses one number of its channel.  The connection channel is
excluded because its counter is not among the channels. -/
theorem numberWhole (p : PeerEntry) (pkt : Packet) (nowMs : U32)
    (hch : pkt.channel ≠ channelIdConnection) :
    NumberedOn pkt.channel p (p.numberWhole pkt nowMs).1 := by
  have htake : p.takeSeq pkt.channel = p.nextReliableSeq pkt.channel := if_neg hch
  have hnext : NumberedOn pkt.channel p (p.takeSeq pkt.channel).1 := by
    rw [htake]
    exact next pkt.channel p
  have hall : NumberedOn pkt.channel p (p.makeReliable pkt.channel cmdSendReliable 0 nowMs
      (be16 (BitVec.ofNat 16 pkt.data.length) ++ pkt.data)).1 := hnext.trans (track _ _ _ _ _)
  exact ⟨hall.frame.trans rfl, hall.keyed, hall.others, hall.channels, hall.length⟩

/-- A packet in fragments uses the start number and then one for each further piece,
all of its channel. -/
theorem numberFragments (p : PeerEntry) (pkt : Packet) (fp : Nat) (nowMs : U32) :
    NumberedOn pkt.channel p (p.numberFragments pkt fp nowMs).1 := by
  have hall := (next pkt.channel p).trans (fragmentLoop_rel (R := NumberedOn pkt.channel) refl trans
    (next pkt.channel) (fun p seq cmd => track p seq _ cmd nowMs)
    (p.nextReliableSeq pkt.channel).2 fp pkt.data (fragCount fp pkt.data) 0 _)
  exact ⟨hall.frame.trans rfl, hall.keyed, hall.others, hall.channels, hall.length⟩

/-- **The windows of the other channels** are as they were: whether one is open depends
on the channel's own outstanding numbers and on the size of the window. -/
theorem windowOpen_eq (hn : NumberedOn ch p q) (hp : WellKeyed p.outgoingReliable) {ch' : U8}
    (hne : ch' ≠ ch) (c : Channel) : q.windowOpen ch' c = p.windowOpen ch' c := by
  have hseqs : q.outstandingSeqs ch' = p.outstandingSeqs ch' :=
    outstandingSeqs_congr hp (hn.keyed hp) fun seq => hn.others ch' seq hne
  have hwin : q.effectiveWindow = p.effectiveWindow := hn.frame.get effectiveWindow
  unfold windowOpen
  rw [hseqs, hwin]

end NumberedOn

end PeerEntry

/-- **A new entry**: its one command, CONNECT or VERIFY_CONNECT, has number 1
on the connection's own channel, and no packet has been submitted. -/
structure Starts (p : PeerEntry) : Prop where
  state : p.state = .connecting ∨ p.state = .acknowledgingConnect
  pending : p.pendingSend = []
  channels : ∃ n, p.channels = List.replicate n Channel.new
  counter : p.outgoingReliableSeq = 1
  history : ∃ ty, p.history = [.create ty channelIdConnection 1 true]
    ∧ (ty = cmdConnect ∨ ty = cmdVerifyConnect)
  outgoing : ∃ r : OutstandingReliable,
    p.outgoingReliable = (∅ : OutgoingReliable).insert (channelIdConnection, 1) r
      ∧ r.channelId = channelIdConnection ∧ r.reliableSeq = 1

/-- Both ways to build an entry start it: `begin_connect` with its CONNECT and
`on_connect` with its VERIFY_CONNECT. -/
theorem IsNewEntry.starts {h : HostTask} {slot : PeerKey} {nowMs : U32} {p : PeerEntry}
    (hn : IsNewEntry h slot nowMs p) : Starts p := by
  have hfresh : ∀ k : U8 × U16, (!(∅ : OutgoingReliable).contains k) = true := by simp
  rcases hn with ⟨addr, channelCount, userData, reply, connectId, rfl⟩ | ⟨connect, hdr, src, rfl⟩
  · refine ⟨.inl rfl, rfl, ⟨_, rfl⟩, rfl, ⟨cmdConnect, ?_, .inl rfl⟩, ⟨_, rfl, rfl, rfl⟩⟩
    exact congrArg (fun b => [PeerEvent.create cmdConnect channelIdConnection 1 b]) (hfresh _)
  · refine ⟨.inr rfl, rfl, ⟨_, rfl⟩, rfl, ⟨cmdVerifyConnect, ?_, .inr rfl⟩, ⟨_, rfl, rfl, rfl⟩⟩
    exact congrArg (fun b => [PeerEvent.create cmdVerifyConnect channelIdConnection 1 b]) (hfresh _)

/-- The one command of a new entry is stored under its own number. -/
theorem Starts.keyed {p : PeerEntry} (hs : Starts p) : WellKeyed p.outgoingReliable := by
  obtain ⟨r, hr, hch, hseq⟩ := hs.outgoing
  have hempty : WellKeyed ∅ := by
    intro k r hk
    simp at hk
  rw [hr]
  exact hempty.insert ⟨hch, hseq⟩

namespace PeerOp

variable {h : HostTask} {p : PeerEntry} {o : PeerOp}

/-- The operations that number no packet keep the keys right, too: they erase a
command, store a control command, or write the retransmitted ones back. -/
theorem keyed (ho : ¬ o.Moves) (nowMs : U32) (hp : WellKeyed p.outgoingReliable) :
    WellKeyed (o.apply nowMs p).outgoingReliable := by
  by_cases htouch : o.TouchesOutgoing
  · cases o with
    | numberWhole | numberFragments => exact absurd trivial ho
    | ack ch a =>
        show WellKeyed (p.applyAck ch a nowMs).outgoingReliable
        rw [(PeerEntry.applyAck_eq p ch a nowMs).1]
        exact hp.erase _
    | verify hostMtu vc hdr => exact hp.erase _
    | connectionCmd cmdType body => exact hp.insert ⟨rfl, rfl⟩
    | retransmit =>
        refine hp.retransmitLoop nowMs _ _ fun e he => ?_
        exact hp e.1 e.2 (Std.ExtTreeMap.mem_toList_iff_getElem?_eq_some.mp he)
    | _ => exact htouch.elim
  · rw [outgoingReliable_apply htouch]
    exact hp

/-- Only queueing adds a packet to `pending_send`. -/
theorem eq_queue_of_mem {nowMs : U32} {w : Packet}
    (hw : w ∈ (o.apply nowMs p).pendingSend) : w ∈ p.pendingSend ∨ o = .queue w := by
  by_cases hmoves : o.Moves
  · cases o with
    | queue pkt =>
        simp only [apply, PeerEntry.queuePending] at hw
        split at hw
        · rcases List.mem_append.mp hw with hw | hw
          · exact .inl hw
          · rw [List.mem_singleton.mp hw]
            exact .inr rfl
        · exact .inl hw
    | clearPending => cases hw
    | submit pkt => exact .inl hw
    | numberWhole pkt =>
        have hsame := (PeerEntry.numberWhole_numbered (p := p) pkt nowMs).get (·.pendingSend)
        exact .inl (hsame ▸ hw)
    | numberFragments pkt fp =>
        have hsame := (PeerEntry.numberFragments_numbered (p := p) pkt fp nowMs).get (·.pendingSend)
        exact .inl (hsame ▸ hw)
    | _ => exact hmoves.elim
  · rw [(packets hmoves nowMs p).pending] at hw
    exact .inl hw

/-- How the state of an entry can change: it is established once, a disconnection is
deferred, or it begins.  Every other operation leaves the state alone. -/
theorem state_cases (nowMs : U32) (hg : o.Guard h p) :
    (o.apply nowMs p).state = p.state
      ∨ (p.state = .connecting ∨ p.state = .acknowledgingConnect)
        ∧ (o.apply nowMs p).state = .connected
      ∨ (∃ data, (o.apply nowMs p).state = .disconnectLater data)
      ∨ (o.apply nowMs p).state = .disconnecting := by
  by_cases hlife : o.Lifecycle
  · cases o with
    | accept rx => exact .inr (.inl ⟨.inr hg.2.1, rfl⟩)
    | establish => exact .inr (.inl ⟨.inr hg.1, rfl⟩)
    | verify hostMtu vc hdr => exact .inr (.inl ⟨.inl hg.2.1, rfl⟩)
    | deferDisconnect data => exact .inr (.inr (.inl ⟨data, rfl⟩))
    | beginDisconnect deferred => exact .inr (.inr (.inr rfl))
    | _ => exact hlife.elim
  · exact .inl (PeerOp.samePhase nowMs p hlife).state

end PeerOp

end EnetRs
