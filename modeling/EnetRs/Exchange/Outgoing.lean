/-
  EnetRs.Exchange.Outgoing — the stream of one channel while it grows.

  The packets that an entry has numbered on a channel are a `Traffic`.  Each packet
  that is numbered extends it, and what was on the wire before stays a command of
  the extended traffic.

  Main results:
    * `Traffic.Extends.said` — a command of a stream is one of its extensions.
    * `Traffic.SentBy.op` — one operation of the sender extends the stream by the
      packet it numbers, and what it stores are commands of the extension.
    * `Traffic.Says.carries` — what a receiver does with a command that was said.
-/
import EnetRs.Exchange.Utterance
import EnetRs.Exchange.Routing
import EnetRs.Reassembly.Commands
import EnetRs.Reassembly.Prefix
import EnetRs.Sending.Order
import EnetRs.Sending.Window

namespace EnetRs

open MachineInt

namespace PeerEntry

variable {p q : PeerEntry} {ch : U8} {seq : U16}

/-- The number is outstanding, or an ACK naming it was processed. -/
def Accounts (p : PeerEntry) (ch : U8) (seq : U16) : Prop :=
  (ch, seq) ∈ p.outgoingReliable ∨ .ack ch seq ∈ p.history

/-- Numbers that are given to a packet leave the others alone. -/
theorem Accounts.numbers {c : Channel} {pkt : Packet} {n : Nat} (ha : p.Accounts ch seq)
    (hn : Numbers p c pkt n q) : q.Accounts ch seq := by
  obtain ⟨ty, r, -, hc, hout, hh⟩ := hn.creates
  obtain ⟨es, hes, -⟩ := hc.history
  refine ha.imp (fun hkey => ?_) fun hack => ?_
  · rw [hout]
    exact (hc.keys _).mpr (.inl hkey)
  · rw [hh, hes]
    exact List.mem_append_left _ (List.mem_append_left _ hack)

/-- **A number stops being outstanding by its ACK**, once the handshake is over. -/
theorem Accounts.op {h : HostTask} {o : PeerOp} (nowMs : U32) (ha : p.Accounts ch seq)
    (hg : o.Guard h p) (hst : p.state ≠ .connecting) : (o.apply nowMs p).Accounts ch seq := by
  by_cases ho : o.Creating
  · obtain ⟨⟨es, hes, -⟩, hkeys⟩ := PeerOp.stores ho nowMs p
    refine ha.imp (hkeys _) fun hack => ?_
    rw [hes]
    exact List.mem_append_left _ hack
  · obtain ⟨es, hes, -, hkeys⟩ := PeerOp.history_of_not_creating ho nowMs hg
    rcases ha with hkey | hack
    · rcases hkeys _ hkey with hkey | hack | ⟨hconn, -⟩
      · exact .inl hkey
      · exact .inr (hes ▸ List.mem_append_right _ hack)
      · exact absurd hconn hst
    · exact .inr (hes ▸ List.mem_append_left _ hack)

/-- **An ACK is recorded when it is processed**, and not otherwise. -/
theorem ack_of_apply {h : HostTask} {o : PeerOp} {nowMs : U32} (hr : InRange p) (hg : o.Guard h p)
    (hack : .ack ch seq ∈ (o.apply nowMs p).history) :
    .ack ch seq ∈ p.history ∨ ∃ a, o = .ack ch a ∧ a.receivedReliableSeq = seq := by
  have hother : ∀ {es : List PeerEvent}, (o.apply nowMs p).history = p.history ++ es →
      .ack ch seq ∉ es → .ack ch seq ∈ p.history := by
    intro es hes hno
    rw [hes] at hack
    exact (List.mem_append.mp hack).resolve_right hno
  have hdelivers :
      (∃ pkts : List Packet, (o.apply nowMs p).history = p.history ++ pkts.map .deliver) →
        .ack ch seq ∈ p.history := by
    rintro ⟨pkts, hes⟩
    exact hother hes (by simp)
  have hnumbers : ∀ {c : Channel} {pkt : Packet} {n : Nat}, Numbers p c pkt n (o.apply nowMs p) →
      .ack ch seq ∈ p.history := by
    intro c pkt n hn
    obtain ⟨ty, r, -, hc, -, hh⟩ := hn.creates
    obtain ⟨es, hes, hall, -⟩ := hc.history
    rw [hes, List.append_assoc] at hh
    refine hother hh fun hmem => ?_
    rcases List.mem_append.mp hmem with hmem | hmem
    · obtain ⟨s, fresh, heq⟩ := hall _ hmem
      cases heq
    · cases List.mem_singleton.mp hmem
  cases o with
  | ack ch' a =>
      rw [show ((PeerOp.ack ch' a).apply nowMs p).history = _ from
        (PeerEntry.applyAck_eq p ch' a nowMs).2] at hack
      rcases List.mem_append.mp hack with hold | hnew
      · exact .inl hold
      · cases List.mem_singleton.mp hnew
        exact .inr ⟨a, rfl, rfl⟩
  | numberWhole pkt =>
      obtain ⟨c, hsend, -⟩ := hg
      exact .inl (hnumbers (numberWhole_numbers nowMs hr hsend))
  | numberFragments pkt fp =>
      obtain ⟨c, hsend, -, hbig, rfl⟩ := hg
      exact .inl (hnumbers (numberFragments_numbers nowMs (fragCount_pos_of_big hr hbig) hsend))
  | recvReliable ch' seq' data =>
      exact .inl (hdelivers (onSendReliable_delivers ch' seq' data nowMs))
  | recvUnreliable ch' rseq useq data =>
      exact .inl (hdelivers (onSendUnreliable_delivers ch' rseq useq data nowMs))
  | recvFragment ch' sf reliable =>
      exact .inl (hdelivers (onFragment_delivers ch' sf reliable nowMs))
  | recvUnsequenced group data =>
      exact .inl (hdelivers (onSendUnsequenced_delivers group data nowMs))
  | connectionCmd cmdType body => exact .inl (hother rfl (by simp))
  | take ch' seq' => exact .inl (hother rfl (by simp))
  | submit pkt => exact .inl (hother rfl (by simp))
  | queue pkt =>
      simp only [PeerOp.apply, queuePending] at hack
      split at hack <;> exact .inl hack
  | recvBandwidthLimit bl =>
      simp only [PeerOp.apply, onBandwidthLimit] at hack
      split at hack <;> exact .inl hack
  | _ => exact .inl hack

end PeerEntry

namespace Traffic

variable {tr tr' tr'' : Traffic} {x : Piece} {i : Nat} {alone : Prop}

/-! ## §1. Extensions. -/

/-- `tr'` has the messages of `tr` and perhaps more. -/
structure Extends (tr tr' : Traffic) : Prop where
  ch : tr'.ch = tr.ch
  sender : tr.msgs ≠ [] → tr'.sender = tr.sender
  msgs : tr.msgs <+: tr'.msgs

namespace Extends

theorem refl (tr : Traffic) : tr.Extends tr := ⟨rfl, fun _ => rfl, List.prefix_refl _⟩

theorem trans (he : tr.Extends tr') (he' : tr'.Extends tr'') : tr.Extends tr'' := by
  refine ⟨he'.ch.trans he.ch, fun hne => ?_, he.msgs.trans he'.msgs⟩
  rw [he'.sender fun hnil => hne (List.prefix_nil.mp (hnil ▸ he.msgs)), he.sender hne]

variable (he : tr.Extends tr') (hi : i < tr.msgs.length)

include he hi

theorem lt : i < tr'.msgs.length := Nat.lt_of_lt_of_le hi he.msgs.length_le

theorem sender_eq : tr'.sender = tr.sender := he.sender (List.ne_nil_of_length_pos (by omega))

theorem msg : tr'.msgs[i]? = tr.msgs[i]? := by
  obtain ⟨rest, hrest⟩ := he.msgs
  rw [← hrest, List.getElem?_append_left hi]

theorem reliableBefore : tr'.reliableBefore i = tr.reliableBefore i := by
  obtain ⟨rest, hrest⟩ := he.msgs
  rw [Traffic.reliableBefore, Traffic.reliableBefore, he.sender_eq hi, ← hrest,
    List.take_append_of_le_length (Nat.le_of_lt hi)]

theorem unreliableBefore : tr'.unreliableBefore i = tr.unreliableBefore i := by
  obtain ⟨rest, hrest⟩ := he.msgs
  rw [Traffic.unreliableBefore, Traffic.unreliableBefore, ← hrest,
    List.take_append_of_le_length (Nat.le_of_lt hi)]

theorem reliable : tr'.reliable i = tr.reliable i := by
  rw [Traffic.reliable, Traffic.reliable, he.msg hi]

theorem data : tr'.data i = tr.data i := by
  rw [Traffic.data, Traffic.data, he.msg hi]

theorem whole : tr'.whole i = tr.whole i := by
  rw [Traffic.whole, Traffic.whole, he.msg hi, he.sender_eq hi]

theorem start : tr'.start i = tr.start i := by
  rw [Traffic.start, Traffic.start, he.reliableBefore hi, he.unreliableBefore hi, he.reliable hi]

theorem pieces : tr'.pieces i = tr.pieces i := by
  rw [Traffic.pieces, Traffic.pieces, he.msg hi, he.sender_eq hi]

end Extends

/-- The sequence number of a command of the stream. -/
def number (tr : Traffic) (x : Piece) : U16 := BitVec.ofNat 16 (tr.start x.msg + x.part)

/-- **A command of a stream is one of its extensions.** -/
theorem Extends.command (he : tr.Extends tr') (hv : tr.Valid x) :
    tr'.Valid x ∧ tr'.number x = tr.number x ∧ tr'.command x = tr.command x := by
  have hi := hv.1
  refine ⟨⟨he.lt hi, by rw [he.pieces hi]; exact hv.2⟩, by rw [number, he.start hi, number], ?_⟩
  simp only [Traffic.command, fragment, key, he.ch, he.start hi, he.whole hi, he.reliable hi,
    he.data hi, he.reliableBefore hi, he.sender_eq hi]

/-! ## §2. What is said on the channel. -/

/-- **What may be on the wire**: on the stream's channel, only commands of the
stream and commands that ask for no ACK; where the stream is `alone` on its
channel, these are ACKs and unsequenced packets. -/
def Says (tr : Traffic) (alone : Prop) (cmd : Command) : Prop :=
  cmd.header.channelId = tr.ch →
    (cmd.header.hasAckFlag = false
        ∧ (alone → cmd.header.commandType = cmdAcknowledge
          ∨ cmd.header.commandType = cmdSendUnsequenced))
      ∨ ∃ x, tr.Valid x ∧ cmd = tr.command x

theorem Extends.said (he : tr.Extends tr') {cmd : Command} (hs : tr.Says alone cmd) :
    tr'.Says alone cmd := by
  intro hch
  refine (hs (hch.trans he.ch)).imp_right ?_
  rintro ⟨x, hv, rfl⟩
  obtain ⟨hv', -, hcmd⟩ := he.command hv
  exact ⟨x, hv', hcmd.symm⟩

theorem says_of_channel {cmd : Command} (hch : cmd.header.channelId ≠ tr.ch) :
    tr.Says alone cmd :=
  fun heq => absurd heq hch

section Commands

variable (hrel : tr.AllReliable) (hv : tr.Valid x)

include hrel hv

/-- A command of a reliable stream in one piece. -/
theorem command_whole (hw : tr.whole x.msg = true) :
    tr.command x = .tracked tr.ch (tr.key x.msg) (.sendReliable (tr.data x.msg)) := by
  rw [command, if_pos (hrel.reliable hv.1), if_pos hw]
  rfl

/-- A fragment of a reliable stream. -/
theorem command_cut (hw : tr.whole x.msg = false) :
    tr.command x = .tracked tr.ch (tr.number x) (.sendFragment (tr.fragment x)) := by
  rw [command, if_pos (hrel.reliable hv.1), if_neg (by rw [hw]; exact Bool.false_ne_true)]
  rfl

theorem command_header :
    (tr.command x).header.channelId = tr.ch
      ∧ (tr.command x).header.reliableSeq = tr.number x := by
  cases hw : tr.whole x.msg with
  | true =>
      have hpart : x.part = 0 := by
        have hlt := hv.2
        rw [pieces_of_whole hw] at hlt
        omega
      rw [command_whole hrel hv hw, number, hpart]
      exact ⟨rfl, rfl⟩
  | false =>
      rw [command_cut hrel hv hw]
      exact ⟨rfl, rfl⟩

end Commands

/-- **What a receiver does with a command that was said.** -/
theorem Says.carries {cmd : Command} {o : PeerOp} (hs : tr.Says alone cmd) (halone : alone)
    (hrel : tr.AllReliable) (ho : cmd.Receives o) : tr.Carries o := by
  -- on the channel, a command of one of these types is a command of the stream
  have hpiece : cmd.header.channelId = tr.ch → cmd.header.commandType ≠ cmdAcknowledge →
      cmd.header.commandType ≠ cmdSendUnsequenced → ∃ x, tr.Valid x ∧ cmd = tr.command x := by
    intro hch hack huns
    rcases hs hch with ⟨-, hty⟩ | hx
    · exact ((hty halone).elim hack huns).elim
    · exact hx
  cases o with
  | recvReliable ch seq data =>
      intro hch
      obtain ⟨hty, hb, rfl, rfl⟩ := ho
      obtain ⟨x, hv, rfl⟩ := hpiece hch (by rw [hty]; decide) (by rw [hty]; decide)
      cases hw : tr.whole x.msg with
      | true =>
          rw [command_whole hrel hv hw] at hb ⊢
          cases hb
          exact ⟨x, hv, hw, rfl, rfl⟩
      | false =>
          rw [command_cut hrel hv hw] at hb
          cases hb
  | recvFragment ch sf reliable =>
      intro hch
      cases reliable with
      | true =>
          obtain ⟨hty, hb, rfl⟩ := ho
          obtain ⟨x, hv, rfl⟩ := hpiece hch (by rw [hty]; decide) (by rw [hty]; decide)
          cases hw : tr.whole x.msg with
          | true =>
              rw [command_whole hrel hv hw] at hb
              cases hb
          | false =>
              rw [command_cut hrel hv hw] at hb
              cases hb
              exact ⟨rfl, x, hv, hw, rfl⟩
      | false =>
          obtain ⟨hty, hb, rfl⟩ := ho
          obtain ⟨x, hv, rfl⟩ := hpiece hch (by rw [hty]; decide) (by rw [hty]; decide)
          cases hw : tr.whole x.msg with
          | true =>
              rw [command_whole hrel hv hw] at hb
              cases hb
          | false =>
              rw [command_cut hrel hv hw] at hb
              cases hb
  | recvUnreliable ch rseq useq data =>
      rintro rfl
      obtain ⟨hty, hb, hch, -⟩ := ho
      obtain ⟨x, hv, rfl⟩ := hpiece hch.symm (by rw [hty]; decide) (by rw [hty]; decide)
      cases hw : tr.whole x.msg with
      | true =>
          rw [command_whole hrel hv hw] at hb
          cases hb
      | false =>
          rw [command_cut hrel hv hw] at hb
          cases hb
  | _ => trivial

/-! ## §3. The sender. -/

/-- The stream is what the entry has numbered on the channel, and the entry accounts
for every number of it. -/
structure SentBy (tr : Traffic) (useChecksum : Bool) (p : PeerEntry) : Prop where
  msgs : onChannel tr.ch p.numbered = tr.msgs
  reliable : tr.AllReliable
  checksum : tr.sender.useChecksum = useChecksum
  mtu : tr.msgs ≠ [] → tr.sender.mtu = p.mtu ∧ p.state ≠ .connecting
  total : blockTotal (p.blocks tr.ch) = tr.total
  counter : ∀ c, p.channels[tr.ch.toNat]? = some c →
    c.outgoingReliableSeq = BitVec.ofNat 16 tr.total
  settled : ∀ x, tr.Valid x → p.Accounts tr.ch (tr.number x)

/-- The stream with one more packet, numbered by an entry with this MTU. -/
def push (tr : Traffic) (mtu : U32) (hmtu : mtuMin ≤ mtu) (pkt : Packet)
    (hch : pkt.channel = tr.ch) (hmode : pkt.mode = .reliable)
    (hsize : pkt.data.length ≤ maxPacketSize) : Traffic where
  sender := ⟨mtu, tr.sender.useChecksum, hmtu⟩
  ch := tr.ch
  msgs := tr.msgs ++ [pkt]
  channel m hm := by
    rcases List.mem_append.mp hm with hold | hnew
    · exact tr.channel m hold
    · rw [List.mem_singleton.mp hnew]
      exact hch
  mode m hm := by
    rcases List.mem_append.mp hm with hold | hnew
    · exact tr.mode m hold
    · rw [List.mem_singleton.mp hnew, hmode]
      decide
  length m hm := by
    rcases List.mem_append.mp hm with hold | hnew
    · exact tr.length m hold
    · rw [List.mem_singleton.mp hnew]
      unfold maxPacketSize at hsize
      omega

section Push

variable {mtu : U32} {hmtu : mtuMin ≤ mtu} {pkt : Packet} {hch : pkt.channel = tr.ch}
  {hmode : pkt.mode = .reliable} {hsize : pkt.data.length ≤ maxPacketSize}

theorem push_reliable (hrel : tr.AllReliable) :
    (tr.push mtu hmtu pkt hch hmode hsize).AllReliable := by
  intro m hm
  rcases List.mem_append.mp hm with hold | hnew
  · exact hrel m hold
  · rw [List.mem_singleton.mp hnew]
    exact hmode

theorem extends_push (hsame : tr.msgs ≠ [] → tr.sender.mtu = mtu) :
    tr.Extends (tr.push mtu hmtu pkt hch hmode hsize) := by
  refine ⟨rfl, fun hne => ?_, List.prefix_append _ _⟩
  obtain ⟨⟨mtu', ck, hge⟩, _⟩ := tr
  cases hsame hne
  rfl

theorem push_last : (tr.push mtu hmtu pkt hch hmode hsize).msgs[tr.msgs.length]? = some pkt :=
  List.getElem?_concat_length

variable (hsame : tr.msgs ≠ [] → tr.sender.mtu = mtu)

include hsame

/-- The new packet takes the numbers after all others. -/
theorem push_reliableBefore :
    (tr.push mtu hmtu pkt hch hmode hsize).reliableBefore tr.msgs.length = tr.total := by
  have htake : (tr.push mtu hmtu pkt hch hmode hsize).msgs.take tr.msgs.length = tr.msgs :=
    List.take_left
  rw [reliableBefore, htake, total, reliableBefore, List.take_length]
  cases hnil : tr.msgs with
  | nil => rfl
  | cons m ms =>
      rw [(extends_push hsame).sender (by rw [hnil]; exact List.cons_ne_nil m ms)]

theorem push_start (hrel : tr.AllReliable) :
    (tr.push mtu hmtu pkt hch hmode hsize).start tr.msgs.length = tr.total + 1 := by
  have hlt : tr.msgs.length < (tr.push mtu hmtu pkt hch hmode hsize).msgs.length := by
    show tr.msgs.length < (tr.msgs ++ [pkt]).length
    simp
  rw [start_of_reliable ((push_reliable hrel).reliable hlt), push_reliableBefore hsame]

theorem push_number (hrel : tr.AllReliable) (j : Nat) :
    (tr.push mtu hmtu pkt hch hmode hsize).number ⟨tr.msgs.length, j⟩
      = BitVec.ofNat 16 (tr.total + 1) + BitVec.ofNat 16 j := by
  rw [number, push_start hsame hrel, BitVec.ofNat_add]

theorem push_total :
    (tr.push mtu hmtu pkt hch hmode hsize).total
      = tr.total + (tr.push mtu hmtu pkt hch hmode hsize).sender.pieces pkt := by
  have hlen : (tr.push mtu hmtu pkt hch hmode hsize).msgs.length = tr.msgs.length + 1 :=
    List.length_append
  rw [total, hlen, reliableBefore_succ, push_reliableBefore hsame, reliable_eq push_last, hmode,
    pieces_eq push_last]
  rfl

end Push

namespace SentBy

variable {p q : PeerEntry} {ck : Bool}

/-- What leaves the numbered packets, the counters and the MTU alone. -/
theorem congr (hs : tr.SentBy ck p) (hn : q.numberings = p.numberings)
    (hc : q.channels.map (·.outgoingReliableSeq) = p.channels.map (·.outgoingReliableSeq))
    (hmtu : tr.msgs ≠ [] → q.mtu = p.mtu ∧ q.state ≠ .connecting)
    (hacc : tr.msgs ≠ [] → ∀ seq, p.Accounts tr.ch seq → q.Accounts tr.ch seq) :
    tr.SentBy ck q := by
  refine ⟨?_, hs.reliable, hs.checksum, fun hne => ?_, ?_, fun c hq => ?_, fun x hv => ?_⟩
  · rw [← hs.msgs, PeerEntry.numbered, hn]
    rfl
  · obtain ⟨hq, hst⟩ := hmtu hne
    exact ⟨(hs.mtu hne).1.trans hq.symm, hst⟩
  · rw [← hs.total, PeerEntry.blocks, hn]
    rfl
  · have hget := congrArg (fun l : List U16 => l[tr.ch.toNat]?) hc
    simp only [List.getElem?_map, hq, Option.map_some] at hget
    obtain ⟨c', hc', heq⟩ := Option.map_eq_some_iff.mp hget.symm
    exact heq.symm.trans (hs.counter c' hc')
  · exact hacc (List.ne_nil_of_length_pos (Nat.zero_lt_of_lt hv.1)) _ (hs.settled x hv)

/-- A packet on another channel is numbered. -/
theorem elsewhere {c : Channel} {pkt : Packet} {n : Nat} (hs : tr.SentBy ck p)
    (hn : PeerEntry.Numbers p c pkt n q) (hch : pkt.channel ≠ tr.ch) : tr.SentBy ck q := by
  refine ⟨?_, hs.reliable, hs.checksum, fun hne => ?_, ?_, fun c' hc' => ?_,
    fun x hv => (hs.settled x hv).numbers hn⟩
  · have hnil : onChannel tr.ch [pkt] = [] := by simp [onChannel, hch]
    rw [hn.numbered, onChannel_append, hnil, List.append_nil, hs.msgs]
  · rw [hn.on.frame.get (·.mtu), hn.on.frame.get (·.state)]
    exact hs.mtu hne
  · rw [← hs.total, PeerEntry.blocks, hn.numberings]
    simp [PeerEntry.blocks, hch]
  · have hne : tr.ch.toNat ≠ pkt.channel.toNat := fun heq => hch (BitVec.eq_of_toNat_eq heq).symm
    rw [hn.on.channels _ hne] at hc'
    exact hs.counter c' hc'

/-- A packet on the channel is numbered. -/
theorem push {c : Channel} {pkt : Packet} {n : Nat} (hs : tr.SentBy ck p)
    (hsend : PeerOp.Sendable p pkt c) (hmtu : mtuMin ≤ p.mtu) (hn : PeerEntry.Numbers p c pkt n q)
    (hch : pkt.channel = tr.ch) (hsize : pkt.data.length ≤ maxPacketSize)
    (hpieces : (tr.push p.mtu hmtu pkt hch hsend.2.1 hsize).sender.pieces pkt = n) :
    (tr.push p.mtu hmtu pkt hch hsend.2.1 hsize).SentBy ck q := by
  have hsame : tr.msgs ≠ [] → tr.sender.mtu = p.mtu := fun hne => (hs.mtu hne).1
  have htotal : (tr.push p.mtu hmtu pkt hch hsend.2.1 hsize).total = tr.total + n := by
    rw [push_total hsame, hpieces]
  have hcount : c.outgoingReliableSeq = BitVec.ofNat 16 tr.total :=
    hs.counter c (hch ▸ hsend.2.2)
  refine ⟨?_, push_reliable hs.reliable, hs.checksum, fun _ => ⟨?_, ?_⟩, ?_, fun c' hc' => ?_,
    fun x hv => ?_⟩
  · show onChannel tr.ch q.numbered = tr.msgs ++ [pkt]
    have hself : onChannel tr.ch [pkt] = [pkt] := by simp [onChannel, hch]
    rw [hn.numbered, onChannel_append, hself, hs.msgs]
  · exact (hn.on.frame.get (·.mtu)).symm
  · have hst : q.state = .connected := (hn.on.frame.get (·.state)).trans hsend.1
    rw [hst]
    exact PeerState.noConfusion
  · rw [htotal, ← hs.total]
    show blockTotal (q.blocks tr.ch) = _
    rw [PeerEntry.blocks, PeerEntry.blocks, hn.numberings]
    simp [blockTotal, hch]
  · have hc' : q.channels[pkt.channel.toNat]? = some c' := hch ▸ hc'
    rw [hn.channels, Collections.modify_of_getElem? _ hsend.2.2, List.getElem?_set_self
      (List.getElem?_eq_some_iff.mp hsend.2.2).1] at hc'
    cases hc'
    show c.outgoingReliableSeq + BitVec.ofNat 16 n = _
    rw [htotal, hcount, BitVec.ofNat_add]
  · by_cases hold : x.msg < tr.msgs.length
    · have he : tr.Extends (tr.push p.mtu hmtu pkt hch hsend.2.1 hsize) := extends_push hsame
      have hv' : tr.Valid x := ⟨hold, by rw [← he.pieces hold]; exact hv.2⟩
      rw [(he.command hv').2.1]
      exact (hs.settled x hv').numbers hn
    · -- a number of the new packet has just become outstanding
      obtain ⟨msg, part⟩ := x
      obtain rfl : msg = tr.msgs.length := by
        have hlt : msg < (tr.msgs ++ [pkt]).length := hv.1
        rw [List.length_append, List.length_singleton] at hlt
        exact Nat.le_antisymm (Nat.lt_succ_iff.mp hlt) (Nat.not_lt.mp hold)
      have hpart : part < n := by
        have hlt := hv.2
        rw [pieces_eq push_last, hpieces] at hlt
        exact hlt
      obtain ⟨ty, r, -, hc, hout, -⟩ := hn.creates
      refine .inl ?_
      rw [hout]
      refine (hc.keys _).mpr (.inr ⟨_, Serial.mem_block.mpr ⟨part, hpart, rfl⟩, ?_⟩)
      rw [push_number hsame hs.reliable, BitVec.ofNat_add, ← hcount]
      exact congrArg (·, _) hch.symm

/-- The operations that number a packet. -/
def Numbering : PeerOp → Prop
  | .numberWhole _ | .numberFragments _ _ => True
  | _ => False

variable {h : HostTask} {o : PeerOp} {nowMs : U32}

/-- Every other operation leaves the stream alone. -/
theorem quiet (hs : tr.SentBy ck p) (hr : InRange p) (hg : o.Guard h p) (ho : ¬ Numbering o) :
    tr.SentBy ck (o.apply nowMs p) := by
  have hw : ∀ pkt, o ≠ .numberWhole pkt := by
    rintro pkt rfl
    exact ho trivial
  have hf : ∀ pkt fp, o ≠ .numberFragments pkt fp := by
    rintro pkt fp rfl
    exact ho trivial
  have hnum : (o.apply nowMs p).numberings = p.numberings := by
    by_cases hm : o.Moves
    · cases o with
      | submit pkt => exact PeerEntry.numberings_log_submit p pkt
      | queue pkt =>
          simp only [PeerOp.apply, PeerEntry.queuePending]
          split <;> rfl
      | clearPending => rfl
      | numberWhole pkt => exact absurd rfl (hw pkt)
      | numberFragments pkt fp => exact absurd rfl (hf pkt fp)
      | _ => exact hm.elim
    · exact (PeerOp.packets hm nowMs p).numberings
  refine hs.congr hnum (PeerOp.map_channels (·.outgoingReliableSeq) nowMs
    (fun c => PeerOp.channelStep_outgoing p c hw hf) hg hr.channels.2) (fun hne => ?_)
    fun hne seq ha => ha.op nowMs hg (hs.mtu hne).2
  obtain ⟨-, hst⟩ := hs.mtu hne
  -- VERIFY_CONNECT changes the MTU, but only before anything is numbered
  refine ⟨(o.get_apply (·.mtu) nowMs p).trans ?_, PeerOp.state_ne_connecting hst⟩
  cases o with
  | verify hostMtu vc hdr => exact absurd hg.2.1 hst
  | _ => rfl

section Numbers

variable {c : Channel} {pkt : Packet} (hs : tr.SentBy ck p) (hsend : PeerOp.Sendable p pkt c)
  (hr : InRange p) (hch : pkt.channel = tr.ch) (hsize : pkt.data.length ≤ maxPacketSize)

include hs

/-- The last message is in one piece: its command. -/
theorem says_whole
    (hw : (tr.push p.mtu hr.mtu pkt hch hsend.2.1 hsize).sender.whole pkt = true) :
    (tr.push p.mtu hr.mtu pkt hch hsend.2.1 hsize).Says alone
      (.tracked pkt.channel (c.outgoingReliableSeq + 1) (.sendReliable pkt.data)) := by
  intro _
  have hsame : tr.msgs ≠ [] → tr.sender.mtu = p.mtu := fun hne => (hs.mtu hne).1
  have hlast : (tr.push p.mtu hr.mtu pkt hch hsend.2.1 hsize).msgs[tr.msgs.length]? = some pkt :=
    push_last
  have hlt := (List.getElem?_eq_some_iff.mp hlast).1
  have hv : (tr.push p.mtu hr.mtu pkt hch hsend.2.1 hsize).Valid ⟨tr.msgs.length, 0⟩ :=
    ⟨hlt, pieces_pos hlt⟩
  refine .inr ⟨⟨tr.msgs.length, 0⟩, hv, ?_⟩
  rw [command_whole (push_reliable hs.reliable) hv ((whole_eq hlast).trans hw), data_eq hlast, key,
    push_start hsame hs.reliable, BitVec.ofNat_add, ← hs.counter c (hch ▸ hsend.2.2)]
  exact congrArg (fun ch => Command.tracked ch _ _) hch

/-- The last message is in fragments: one of them. -/
theorem says_cut (hw : (tr.push p.mtu hr.mtu pkt hch hsend.2.1 hsize).sender.whole pkt = false)
    {j : Nat} (hj : j < fragCount (fragPayload p.mtu.toNat ck) pkt.data) :
    (tr.push p.mtu hr.mtu pkt hch hsend.2.1 hsize).Says alone
      (.tracked pkt.channel (c.outgoingReliableSeq + 1 + BitVec.ofNat 16 j)
        (.sendFragment (fragmentOf (c.outgoingReliableSeq + 1) (fragPayload p.mtu.toNat ck)
          pkt.data j))) := by
  intro _
  have hsame : tr.msgs ≠ [] → tr.sender.mtu = p.mtu := fun hne => (hs.mtu hne).1
  have hlast : (tr.push p.mtu hr.mtu pkt hch hsend.2.1 hsize).msgs[tr.msgs.length]? = some pkt :=
    push_last
  have hlt := (List.getElem?_eq_some_iff.mp hlast).1
  have hfp : (tr.push p.mtu hr.mtu pkt hch hsend.2.1 hsize).sender.fp
      = fragPayload p.mtu.toNat ck := by
    rw [← hs.checksum]
    rfl
  have hv : (tr.push p.mtu hr.mtu pkt hch hsend.2.1 hsize).Valid ⟨tr.msgs.length, j⟩ := by
    refine ⟨hlt, ?_⟩
    rw [pieces_eq hlast, Sender.pieces_of_cut _ _ hw, hfp]
    exact hj
  have hseq : c.outgoingReliableSeq + 1 = BitVec.ofNat 16 (tr.total + 1) := by
    rw [hs.counter c (hch ▸ hsend.2.2), BitVec.ofNat_add]
    rfl
  refine .inr ⟨⟨tr.msgs.length, j⟩, hv, ?_⟩
  rw [command_cut (push_reliable hs.reliable) hv ((whole_eq hlast).trans hw), fragment, key,
    data_eq hlast, hfp, push_start hsame hs.reliable, push_number hsame hs.reliable, ← hseq]
  exact congrArg (fun ch => Command.tracked ch _ _) hch

end Numbers

/-- **One operation of the sender.**  The stream is extended by the packet that is
numbered, if any, and what is stored for it are commands of the extension. -/
theorem op (nowMs : U32) {k : PeerKey} (hs : tr.SentBy ck p) (hk : h.peer k = some p)
    (hck : h.useChecksum = ck) (hr : InRange p) (hg : o.Guard h p)
    (hsize : ∀ pkt, (o = .numberWhole pkt ∨ ∃ fp, o = .numberFragments pkt fp) →
      pkt.data.length ≤ maxPacketSize) :
    ∃ tr' : Traffic, tr.Extends tr' ∧ tr'.SentBy ck (o.apply nowMs p)
      ∧ (Label.op k o).Numbers (tr'.Says alone) h := by
  by_cases ho : Numbering o
  · cases o with
    | numberWhole pkt =>
        obtain ⟨c, hsend, -, hlen⟩ := hg
        have hn := PeerEntry.numberWhole_numbers nowMs hr hsend
        by_cases hch : pkt.channel = tr.ch
        · have hsz := hsize pkt (.inl rfl)
          have hw : (tr.push p.mtu hr.mtu pkt hch hsend.2.1 hsz).sender.whole pkt = true := by
            rw [Sender.whole, if_pos hsend.2.1, decide_eq_true_eq]
            show pkt.data.length ≤ maxReliablePayload p.mtu.toNat tr.sender.useChecksum
            rw [hs.checksum, ← hck]
            exact hlen
          refine ⟨_, extends_push fun hne => (hs.mtu hne).1,
            hs.push hsend hr.mtu hn hch hsz (by rw [Sender.pieces, if_pos hw]), ?_⟩
          intro p' c' hp' hc'
          cases hk.symm.trans hp'
          cases hsend.2.2.symm.trans hc'
          exact hs.says_whole hsend hr hch hsz hw
        · refine ⟨tr, .refl tr, hs.elsewhere hn hch, fun _ _ _ _ => says_of_channel hch⟩
    | numberFragments pkt fp =>
        obtain ⟨c, hsend, -, hbig, rfl⟩ := hg
        have hn := PeerEntry.numberFragments_numbers nowMs (PeerEntry.fragCount_pos_of_big hr hbig)
          hsend
        by_cases hch : pkt.channel = tr.ch
        · have hsz := hsize pkt (.inr ⟨_, rfl⟩)
          have hw : (tr.push p.mtu hr.mtu pkt hch hsend.2.1 hsz).sender.whole pkt = false := by
            rw [Sender.whole, if_pos hsend.2.1, decide_eq_false_iff_not, Nat.not_le]
            show maxReliablePayload p.mtu.toNat tr.sender.useChecksum < pkt.data.length
            rw [hs.checksum, ← hck]
            exact hbig
          have hpieces : (tr.push p.mtu hr.mtu pkt hch hsend.2.1 hsz).sender.pieces pkt
              = fragCount (fragPayload p.mtu.toNat h.useChecksum) pkt.data := by
            rw [Sender.pieces_of_cut _ _ hw, hck, ← hs.checksum]
            rfl
          refine ⟨_, extends_push fun hne => (hs.mtu hne).1,
            hs.push hsend hr.mtu hn hch hsz hpieces, ?_⟩
          intro p' c' hp' hc' j hj
          cases hk.symm.trans hp'
          cases hsend.2.2.symm.trans hc'
          rw [hck] at hj ⊢
          exact hs.says_cut hsend hr hch hsz hw hj
        · exact ⟨tr, .refl tr, hs.elsewhere hn hch, fun _ _ _ _ _ _ => says_of_channel hch⟩
    | _ => exact ho.elim
  · refine ⟨tr, .refl tr, hs.quiet hr hg ho, ?_⟩
    cases o with
    | numberWhole pkt => exact absurd trivial ho
    | numberFragments pkt fp => exact absurd trivial ho
    | _ => trivial

end SentBy

/-- Nothing is numbered yet. -/
def empty (mtu : U32) (hmtu : mtuMin ≤ mtu) (useChecksum : Bool) (ch : U8) : Traffic where
  sender := ⟨mtu, useChecksum, hmtu⟩
  ch := ch
  msgs := []
  channel _ hm := absurd hm List.not_mem_nil
  mode _ hm := absurd hm List.not_mem_nil
  length _ hm := absurd hm List.not_mem_nil

theorem sentBy_empty {p : PeerEntry} (hr : InRange p) (hs : Starts p) (useChecksum : Bool)
    (ch : U8) : (empty p.mtu hr.mtu useChecksum ch).SentBy useChecksum p := by
  obtain ⟨ty, hh, -⟩ := hs.history
  have hnum : p.numberings = [] := by rw [PeerEntry.numberings, hh]; rfl
  have hc := PeerEntry.Counted.of_starts hs
  have hblocks : p.blocks ch = [] := by rw [PeerEntry.blocks, hnum]; rfl
  refine ⟨?_, fun _ hm => absurd hm List.not_mem_nil, rfl, fun hne => absurd rfl hne, ?_, ?_,
    fun x hv => absurd hv.1 (Nat.not_lt_zero _)⟩
  · show onChannel ch p.numbered = []
    rw [PeerEntry.numbered, hnum]
    rfl
  · show blockTotal (p.blocks ch) = 0
    rw [hblocks]
    rfl
  · intro c hcc
    rw [hc.counter ch c hcc, hblocks]
    rfl

end Traffic

end EnetRs
