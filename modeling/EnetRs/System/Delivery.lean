/-
  EnetRs.System.Delivery — what the server's application gets is what the client
  numbered, and nothing is lost in silence.

  The network loses, repeats and reorders the datagrams in both directions, both
  hosts retransmit, and either may drop the connection.

  Main results:
    * `Config.delivered_in_order` — each entry of the server has delivered the first
      packets of the channel, in order and once each.
    * `Config.outstanding_or_heard` — every command of every numbered packet is still
      outstanding at the client, or the server has processed it.
-/
import EnetRs.System.Link

namespace EnetRs

open MachineInt

namespace Traffic

variable {tr : Traffic} {x y : Piece}

/-- A number belongs to one command. -/
theorem AllReliable.eq_of_add_eq (hrel : tr.AllReliable) (hx : tr.Valid x) (hy : tr.Valid y)
    (heq : tr.start x.msg + x.part = tr.start y.msg + y.part) : x = y := by
  -- the numbers of a message lie before those of the next one
  have hbefore : ∀ {x y : Piece}, tr.Valid x → tr.Valid y → x.msg < y.msg →
      tr.start x.msg + x.part < tr.start y.msg + y.part := by
    intro x y hx hy hlt
    have hpart := hx.2
    have hmono := tr.reliableBefore_mono (Nat.succ_le_of_lt hlt)
    rw [Nat.succ_eq_add_one, hrel.succ hx.1] at hmono
    rw [start_of_reliable (hrel.reliable hx.1), start_of_reliable (hrel.reliable hy.1)]
    omega
  obtain ⟨i, j⟩ := x
  obtain ⟨i', j'⟩ := y
  rcases Nat.lt_trichotomy i i' with hlt | rfl | hgt
  · have hne := hbefore hx hy hlt
    omega
  · exact congrArg (Piece.mk i) (Nat.add_left_cancel heq)
  · have hne := hbefore hy hx hgt
    omega

/-- A sequence number belongs to one command, as long as they do not wrap around. -/
theorem AllReliable.eq_of_number_eq (hrel : tr.AllReliable) (hsmall : tr.total < 65536)
    (hx : tr.Valid x) (hy : tr.Valid y) (heq : tr.number x = tr.number y) : x = y := by
  have hxle := hrel.start_add_part_le hx
  have hyle := hrel.start_add_part_le hy
  refine hrel.eq_of_add_eq hx hy ?_
  have hnat := congrArg BitVec.toNat heq
  rwa [number, number, BitVec.toNat_ofNat, BitVec.toNat_ofNat, Nat.mod_eq_of_lt (by omega),
    Nat.mod_eq_of_lt (by omega)] at hnat

/-- What is said with a flagged header on the channel is the command of that number. -/
theorem Says.eq_command {alone : Prop} {cmd : Command} (hs : tr.Says alone cmd) (hrel : tr.AllReliable)
    (hsmall : tr.total < 65536) (hch : cmd.header.channelId = tr.ch)
    (hflag : cmd.header.hasAckFlag = true) (hx : tr.Valid x)
    (hseq : cmd.header.reliableSeq = tr.number x) : cmd = tr.command x := by
  rcases hs hch with ⟨hno, -⟩ | ⟨y, hy, rfl⟩
  · rw [hno] at hflag
    cases hflag
  · rw [(command_header hrel hy).2] at hseq
    rw [hrel.eq_of_number_eq hsmall hy hx hseq]

end Traffic

namespace Config

/-- **In order and once each.**  What an entry of the server has delivered on a
channel are the first packets that the client numbered on it, whatever the network
did with the datagrams. -/
theorem delivered_in_order (cfg : Config) (ch : U8) (hch : ch ≠ channelIdConnection)
    (moves : List Move) (hp : ∀ m ∈ moves, Polite ch m) (s : Client × Server)
    (hrun : cfg.run moves = some s) (hsmall : blockTotal (s.1.last.blocks ch) < 32768)
    (k : PeerKey) (q : PeerEntry) (hq : s.2.task.peer k = some q) :
    q.deliveredOn ch <+: onChannel ch s.1.last.numbered := by
  obtain ⟨tr, rfl, hl⟩ := linked True hch
    (fun m hm => ⟨(hp m hm).modest, fun _ => hp m hm⟩) hrun
  rw [hl.sent.total] at hsmall
  rw [hl.sent.msgs]
  exact ((hl.receives trivial).receiving tr (.refl tr) hl.sent.reliable hsmall k q hq).delivered_first

/-- Two packets that arrive in the wrong order. -/
theorem delivered_in_order_twoPackets :
    ∃ s q, aliceToBob.run twoPackets = some s ∧ s.2.task.peer 0 = some q
      ∧ (q.deliveredOn 0).length = 2 ∧ q.deliveredOn 0 <+: onChannel 0 s.1.last.numbered := by
  have hrun : (aliceToBob.run twoPackets).any (fun s =>
      (s.2.task.peer 0).any (fun q => decide ((q.deliveredOn 0).length = 2))
        && decide (blockTotal (s.1.last.blocks 0) < 32768)) = true := by decide +kernel
  obtain ⟨s, hs, hrest⟩ := (Option.any_eq_true _ _).mp hrun
  simp only [Bool.and_eq_true, Option.any_eq_true, decide_eq_true_eq] at hrest
  obtain ⟨⟨q, hq, hlen⟩, hsmall⟩ := hrest
  refine ⟨s, q, hs, hq, hlen, delivered_in_order aliceToBob 0 (by decide) twoPackets ?_ s hs hsmall
    0 q hq⟩
  simp [twoPackets, Polite, Packet.Fits, maxPacketSize]

/-- **Nothing is lost in silence.**  The packets that the client has numbered on a
channel, as it cuts them, are a stream whose commands are each outstanding at the
client or were processed by the server. -/
theorem outstanding_or_heard (cfg : Config) (ch : U8) (hch : ch ≠ channelIdConnection)
    (moves : List Move) (hp : ∀ m ∈ moves, Modest m) (s : Client × Server)
    (hrun : cfg.run moves = some s) (hsmall : blockTotal (s.1.last.blocks ch) < 65536) :
    ∃ tr : Traffic, tr.ch = ch ∧ tr.msgs = onChannel ch s.1.last.numbered
      ∧ tr.sender.useChecksum = false ∧ (tr.msgs ≠ [] → tr.sender.mtu = s.1.last.mtu)
      ∧ ∀ x, tr.Valid x →
        (ch, tr.number x) ∈ s.1.last.outgoingReliable ∨ tr.command x ∈ s.2.heard := by
  obtain ⟨tr, rfl, hl⟩ := linked False hch (fun m hm => ⟨hp m hm, False.elim⟩) hrun
  rw [hl.sent.total] at hsmall
  refine ⟨tr, rfl, hl.sent.msgs.symm, hl.sent.checksum, fun hne => (hl.sent.mtu hne).1,
    fun x hx => (hl.sent.settled x hx).imp_right fun hack => ?_⟩
  -- the ACK answers a command that the server has heard, and the number names it
  obtain ⟨cmd, hcmd, hflag, hon, hseq⟩ := hl.entry.acked tr.ch (tr.number x) hch hack
  rwa [← (hl.stream cmd hcmd).eq_command hl.sent.reliable hsmall hon hflag hx hseq]

/-- One packet was acknowledged; the ACK of the other one is lost. -/
theorem outstanding_or_heard_twoPackets :
    ∃ s, aliceToBob.run (twoPackets ++ [.toLeft 70 3]) = some s
      ∧ (onChannel 0 s.1.last.numbered).length = 2 ∧ s.1.last.outgoingReliable.size = 1
      ∧ ∃ tr : Traffic, tr.msgs = onChannel 0 s.1.last.numbered
        ∧ ∀ x, tr.Valid x →
          (0, tr.number x) ∈ s.1.last.outgoingReliable ∨ tr.command x ∈ s.2.heard := by
  have hrun : (aliceToBob.run (twoPackets ++ [.toLeft 70 3])).any (fun s =>
      decide ((onChannel 0 s.1.last.numbered).length = 2 ∧ s.1.last.outgoingReliable.size = 1)
        && decide (blockTotal (s.1.last.blocks 0) < 65536)) = true := by decide +kernel
  obtain ⟨s, hs, hrest⟩ := (Option.any_eq_true _ _).mp hrun
  simp only [Bool.and_eq_true, decide_eq_true_eq] at hrest
  obtain ⟨tr, -, hmsgs, -, -, hall⟩ := outstanding_or_heard aliceToBob 0 (by decide) _
    (by simp [twoPackets, Modest, Packet.Fits, maxPacketSize]) s hs hrest.2
  exact ⟨s, hs, hrest.1.1, hrest.1.2, tr, hmsgs, hall⟩

end Config

end EnetRs
