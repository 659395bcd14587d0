/-
  EnetRs.Sending.Carried — what `send_packet` makes of any packet.

  The application may hand in a packet of any length, in any mode, for any
  channel.  What goes out should say exactly what was handed in: every command
  parses, the payloads make up the packet, and the lengths, offsets and
  numbers in the fragments are the true ones.  A packet for a channel the peer
  does not have should do nothing at all.

  Main results:
    * `carries_fragments_iff` — fragments describe a packet if its length fits
      in the 32-bit fields.
    * `send_packet_completes_iff` — exactly which packets `send_packet`
      deals with in this way.
    * `send_packet_crashes` — three that it does not.
-/
import EnetRs.Exchange.Datagram
import EnetRs.Reassembly.Buffer
import EnetRs.Safety.Limits

namespace EnetRs

open MachineInt Slices

/-! ## §1. Commands that carry a packet. -/

/-- What a command says about its place among the `count` commands of a packet:
a fragment gives its number, its offset and the length of the whole; any other
command is alone. -/
def CommandBody.Describes (i count offset total : Nat) : CommandBody → Prop
  | .sendFragment f | .sendUnreliableFragment f =>
      f.fragmentNumber.toNat = i ∧ f.fragmentCount.toNat = count
        ∧ f.fragmentOffset.toNat = offset ∧ f.totalLength.toNat = total
  | _ => count = 1

/-- The payloads of some commands, one after the other. -/
def payloads (cmds : List Command) : Bytes := cmds.flatMap (·.body.payload)

/-- The commands parse, each to its last byte, and carry `data`. -/
def Carries (data : Bytes) (cmds : List Bytes) : Prop :=
  ∃ parsed : List Command, cmds.map Command.parse = parsed.map (fun cmd => some (cmd, []))
    ∧ payloads parsed = data
    ∧ ∀ (i : Nat) (cmd : Command), parsed[i]? = some cmd → cmd.body.Describes i parsed.length
        (payloads (parsed.take i)).length data.length

/-- A command that is written parses to itself and nothing else. -/
theorem carries_write_iff {data : Bytes} {cmds : List Command} (hw : ∀ cmd ∈ cmds, cmd.WellFormed) :
    Carries data (cmds.map Command.write) ↔ payloads cmds = data
      ∧ ∀ (i : Nat) (cmd : Command), cmds[i]? = some cmd → cmd.body.Describes i cmds.length
        (payloads (cmds.take i)).length data.length := by
  have hparse : (cmds.map Command.write).map Command.parse
      = cmds.map (fun cmd => some (cmd, [])) := by
    rw [List.map_map]
    refine List.map_congr_left fun cmd hcmd => ?_
    have hone := Command.parse_write (hw cmd hcmd) []
    rwa [List.append_nil] at hone
  constructor
  · rintro ⟨parsed, hmap, hrest⟩
    rw [hparse] at hmap
    obtain rfl : cmds = parsed := by
      refine List.map_injective_iff.mpr ?_ hmap
      intro a b hab
      exact congrArg Prod.fst (Option.some.inj hab)
    exact hrest
  · rintro ⟨hpay, hall⟩
    exact ⟨cmds, hparse, hpay, hall⟩

/-- A packet in one command. -/
theorem carries_whole (cmd : Command) (hw : cmd.WellFormed)
    (hone : ∀ offset total, cmd.body.Describes 0 1 offset total) :
    Carries cmd.body.payload [cmd.write] := by
  have hall : ∀ c ∈ [cmd], c.WellFormed := by
    intro c hc
    rw [List.mem_singleton.mp hc]
    exact hw
  refine (carries_write_iff hall).mpr ⟨List.append_nil _, ?_⟩
  intro i c hi
  cases i with
  | zero =>
      cases hi
      exact hone _ _
  | succ i => cases hi

/-- What comes out of the parser fits in its length field. -/
theorem Carries.length_lt {data b : Bytes} (hc : Carries data [b]) : data.length < 65536 := by
  obtain ⟨parsed, hmap, hpay, -⟩ := hc
  cases parsed with
  | nil => cases hmap
  | cons cmd rest =>
      obtain ⟨hcmd, hrest⟩ := List.cons.inj hmap
      obtain rfl := List.map_eq_nil_iff.mp hrest.symm
      obtain ⟨-, -, hlen⟩ := Command.parse_eq_some hcmd
      rw [← hpay]
      simpa [payloads] using hlen

/-- **A packet in fragments** is described by them if its length fits. -/
theorem carries_fragments_iff {data : Bytes} {fp : Nat} {startSeq : U16}
    {hdr : Nat → CommandHeader} {body : SendFragmentCmd → CommandBody} (hfp : 0 < fp)
    (hsmall : fp < 65536) (hdata : 0 < data.length)
    (hty : ∀ i f, (hdr i).commandType = (body f).commandType) (hpay : ∀ f, (body f).payload = f.data)
    (hdesc : ∀ f i count offset total, (body f).Describes i count offset total
      ↔ f.fragmentNumber.toNat = i ∧ f.fragmentCount.toNat = count
        ∧ f.fragmentOffset.toNat = offset ∧ f.totalLength.toNat = total) :
    Carries data ((List.range (fragCount fp data)).map fun i =>
      Command.write ⟨hdr i, body (fragmentOf startSeq fp data i)⟩) ↔ data.length < 2 ^ 32 := by
  let cmd : Nat → Command := fun i => ⟨hdr i, body (fragmentOf startSeq fp data i)⟩
  have hpayload : ∀ i, (cmd i).body.payload = piece fp data i := fun i => hpay _
  have hw : ∀ c ∈ (List.range (fragCount fp data)).map cmd, c.WellFormed := by
    intro c hc
    obtain ⟨i, -, rfl⟩ := List.mem_map.mp hc
    refine ⟨hty i _, ?_⟩
    rw [hpayload]
    exact Nat.lt_of_le_of_lt piece_le hsmall
  -- the payloads of the first `n` fragments are the first `n · fp` bytes
  have hfirst : ∀ n, payloads ((List.range n).map cmd) = data.take (n * fp) := by
    intro n
    rw [payloads, List.flatMap_map, ← flatMap_piece]
    exact List.flatMap_congr fun i _ => hpayload i
  have hcover : ¬ fragCount fp data * fp < data.length := fun hlt =>
    Nat.lt_irrefl _ ((lt_fragCount_iff hfp).mpr hlt)
  have hmap : ((List.range (fragCount fp data)).map fun i =>
      Command.write ⟨hdr i, body (fragmentOf startSeq fp data i)⟩)
        = ((List.range (fragCount fp data)).map cmd).map Command.write := by
    rw [List.map_map]
    rfl
  rw [hmap, carries_write_iff hw]
  constructor
  · rintro ⟨-, hall⟩
    have hpos := (lt_fragCount_iff hfp).mpr (by rw [Nat.zero_mul]; exact hdata : 0 * fp < data.length)
    have hzero := hall 0 (cmd 0) (by simp [hpos])
    have htotal := ((hdesc _ _ _ _ _).mp hzero).2.2.2
    rw [← htotal]
    exact BitVec.isLt _
  · intro hlen
    have hs : Sized fp data := ⟨hfp, hlen⟩
    refine ⟨?_, fun i c hi => ?_⟩
    · rw [hfirst, List.take_of_length_le (Nat.le_of_not_lt hcover)]
    · obtain ⟨j, hj, rfl⟩ : ∃ j, (List.range (fragCount fp data))[i]? = some j ∧ cmd j = c := by
        simpa using hi
      obtain ⟨hlt, rfl⟩ : i < fragCount fp data ∧ i = j := by
        simpa using List.getElem?_eq_some_iff.mp hj
      refine (hdesc _ _ _ _ _).mpr ⟨hs.number hlt _, ?_, ?_, hs.total _⟩
      · rw [hs.count, List.length_map, List.length_range]
      · have hbefore := (lt_fragCount_iff hfp).mp hlt
        rw [hs.offset hlt, ← List.map_take, List.take_range, Nat.min_eq_left (Nat.le_of_lt hlt),
          hfirst, List.length_take, Nat.min_eq_left (Nat.le_of_lt hbefore)]

/-! ## §2. What goes out. -/

/-- The commands among some events, in the order in which they are sent. -/
def sentCommands (es : List Event) : List Bytes :=
  es.flatMap fun
    | .sent _ cmds _ => cmds
    | _ => []

namespace HostTask

variable {h : HostTask} {key : PeerKey} {p : PeerEntry}

theorem emitByKey_sent (hp : h.peer key = some p) {cmds : List Bytes} (hne : cmds ≠ [])
    (nowMs : U32) :
    ∃ es, (h.emitByKey key cmds nowMs).trace = h.trace ++ es ∧ sentCommands es = cmds := by
  rw [emitByKey_of_some hp hne]
  exact ⟨_, rfl, List.append_nil _⟩

/-- `flush_batch` sends what it is given, in order. -/
theorem flushBatch_sent (hp : h.peer key = some p) (cmds : List Bytes) (nowMs : U32) :
    ∃ es, (h.flushBatch key cmds nowMs).trace = h.trace ++ es ∧ sentCommands es = cmds := by
  refine ⟨_, flushBatch_groups hp cmds nowMs, ?_⟩
  rw [sentCommands, List.flatMap_map, List.flatMap_id']
  exact groups_flatten h.useChecksum p cmds

end HostTask

namespace PeerEntry

/-- The fragments as the loop writes them, whatever numbers it takes. -/
theorem fragmentLoop_writes (ch : U8) (startSeq : U16) (fp : Nat) (data : Bytes) (nowMs : U32) :
    ∀ (n i : Nat) (p : PeerEntry), ∃ seq : Nat → U16,
      (fragmentLoop ch startSeq fp data nowMs n i p).2 = (List.range' i n).map fun j =>
        Command.write ⟨⟨cmdSendFragment ||| commandFlagAcknowledge, ch, seq j⟩,
          .sendFragment (fragmentOf startSeq fp data j)⟩ := by
  intro n
  induction n with
  | zero => exact fun _ _ => ⟨fun _ => 0, rfl⟩
  | succ n ih =>
      intro i p
      unfold fragmentLoop
      generalize (if i = 0 then (p, startSeq) else p.nextReliableSeq ch) = taken
      obtain ⟨q, first⟩ := taken
      obtain ⟨seq, hseq⟩ := ih (i + 1) (q.track ch first cmdSendFragment (encodeCommand
        cmdSendFragment commandFlagAcknowledge ch first
        (fragmentBody (fragmentOf startSeq fp data i))) nowMs)
      refine ⟨Function.update seq i first, ?_⟩
      simp only [hseq]
      rw [List.range'_succ, List.map_cons, Function.update_self]
      refine congrArg₂ List.cons rfl (List.map_congr_left fun j hj => ?_)
      have hij := (List.mem_range'_1.mp hj).1
      rw [Function.update_of_ne (by omega)]

theorem numberFragments_writes (p : PeerEntry) (pkt : Packet) (fp : Nat) (nowMs : U32) :
    ∃ (startSeq : U16) (seq : Nat → U16), (p.numberFragments pkt fp nowMs).2
      = (List.range (fragCount fp pkt.data)).map fun j =>
        Command.write ⟨⟨cmdSendFragment ||| commandFlagAcknowledge, pkt.channel, seq j⟩,
          .sendFragment (fragmentOf startSeq fp pkt.data j)⟩ := by
  obtain ⟨seq, hseq⟩ := fragmentLoop_writes pkt.channel (p.nextReliableSeq pkt.channel).2 fp
    pkt.data nowMs (fragCount fp pkt.data) 0 (p.nextReliableSeq pkt.channel).1
  refine ⟨(p.nextReliableSeq pkt.channel).2, seq, ?_⟩
  rw [List.range_eq_range']
  exact hseq

end PeerEntry

/-! ## §3. Any packet. -/

namespace HostTask

variable {h h' : HostTask} {key : PeerKey} {p : PeerEntry} {pkt : Packet} {nowMs : U32}

/-- `send_packet` completes, what it sends carries the packet, and a packet for
a channel that the peer does not have changes no entry. -/
def SendsWell (h : HostTask) (key : PeerKey) (pkt : Packet) (nowMs : U32) : Prop :=
  ∃ h' es, h.sendPacket key pkt nowMs = some h' ∧ h'.trace = h.trace ++ es
    ∧ (sentCommands es ≠ [] → Carries pkt.data (sentCommands es))
    ∧ ∀ p, h.peer key = some p → p.channels[pkt.channel.toNat]? = none →
      ∀ k, h'.peer k = h.peer k

/-- What a packet must meet for the entry `p`, mode by mode: one that is cut
must have a length of 32 bits, one that goes out whole of 16; an unreliable
packet must name a channel of the peer. -/
def Takes (p : PeerEntry) (pkt : Packet) (nowMs : U32) : Prop :=
  match pkt.mode with
  | .reliable => ∀ c, p.channels[pkt.channel.toNat]? = some c →
      p.windowOpen pkt.channel c = true → pkt.data.length < 2 ^ 32
  | .unreliable => p.channels[pkt.channel.toNat]? ≠ none ∧ pkt.data.length < 2 ^ 32
  | .unsequenced => pkt.data.length < 2 ^ 16
      ∧ (p.channels[pkt.channel.toNat]? ≠ none ∨ p.lastSendTime = nowMs)

/-- What a packet must meet in the state in which `send_packet` gets it. -/
def PacketOk (h : HostTask) (key : PeerKey) (pkt : Packet) (nowMs : U32) : Prop :=
  ∀ p, h.peer key = some p → p.state = .connected → Takes p pkt nowMs

/-- Once it is known what is sent. -/
theorem sendsWell_iff_of_sent (hs : h.sendPacket key pkt nowMs = some h') (hp : h.peer key = some p)
    {cmds : List Bytes} (hsent : ∃ es, h'.trace = h.trace ++ es ∧ sentCommands es = cmds) :
    h.SendsWell key pkt nowMs ↔ (cmds ≠ [] → Carries pkt.data cmds)
      ∧ (p.channels[pkt.channel.toNat]? = none → ∀ k, h'.peer k = h.peer k) := by
  obtain ⟨es, htr, rfl⟩ := hsent
  constructor
  · rintro ⟨h₁, es₁, hs₁, htr₁, hcarries, hsame⟩
    obtain rfl : h' = h₁ := Option.some.inj (hs.symm.trans hs₁)
    obtain rfl : es = es₁ := List.append_cancel_left (htr.symm.trans htr₁)
    exact ⟨hcarries, hsame p hp⟩
  · rintro ⟨hcarries, hsame⟩
    refine ⟨h', es, hs, htr, hcarries, fun q hq => ?_⟩
    cases hp.symm.trans hq
    exact hsame

/-- Nothing is sent, and a packet for an unknown channel changes nothing. -/
theorem sendsWell_of_silent (hs : h.sendPacket key pkt nowMs = some h') (hp : h.peer key = some p)
    (htr : h'.trace = h.trace) (hsame : p.channels[pkt.channel.toNat]? = none → h' = h) :
    h.SendsWell key pkt nowMs := by
  refine (sendsWell_iff_of_sent hs hp ⟨[], by rw [htr, List.append_nil], rfl⟩).mpr ⟨nofun, ?_⟩
  intro hc k
  rw [hsame hc]

/-- Something is sent on a channel that exists. -/
theorem sendsWell_iff_carries (hs : h.sendPacket key pkt nowMs = some h') (hp : h.peer key = some p)
    (hc : p.channels[pkt.channel.toNat]? ≠ none) {cmds : List Bytes} (hne : cmds ≠ [])
    (hsent : ∃ es, h'.trace = h.trace ++ es ∧ sentCommands es = cmds) :
    h.SendsWell key pkt nowMs ↔ Carries pkt.data cmds := by
  rw [sendsWell_iff_of_sent hs hp hsent]
  exact ⟨fun hw => hw.1 hne, fun hcarries => ⟨fun _ => hcarries, fun hnone => absurd hnone hc⟩⟩

section Connected

variable (hp : h.peer key = some p) (hst : p.state = .connected) (hr : InRange p)
  (hmtu : p.mtu ≤ mtuDefault)

include hr hmtu in
/-- What the fragments of a packet say, whichever of the two commands carries them. -/
theorem carries_cut_iff {data : Bytes} (hdata : 0 < data.length) (useChecksum : Bool)
    (startSeq : U16) (hdr : Nat → CommandHeader) (body : SendFragmentCmd → CommandBody)
    (hbody : (body = .sendFragment ∧ ∀ i, (hdr i).commandType = cmdSendFragment)
      ∨ (body = .sendUnreliableFragment ∧ ∀ i, (hdr i).commandType = cmdSendUnreliableFragment)) :
    let fp := fragPayload p.mtu.toNat useChecksum
    let cmds := (List.range (fragCount fp data)).map fun i =>
      Command.write ⟨hdr i, body (fragmentOf startSeq fp data i)⟩
    cmds ≠ [] ∧ (Carries data cmds ↔ data.length < 2 ^ 32) := by
  have hmax : p.mtu.toNat ≤ 1392 := hmtu
  have hfp := fragPayload_pos hr.mtu useChecksum
  have hsmall : fragPayload p.mtu.toNat useChecksum < 65536 := by
    unfold fragPayload
    omega
  refine ⟨?_, ?_⟩
  · have hpos := fragCount_pos hfp hdata
    simp only [ne_eq, List.map_eq_nil_iff, List.range_eq_nil]
    omega
  · rcases hbody with ⟨rfl, hty⟩ | ⟨rfl, hty⟩
    · exact carries_fragments_iff hfp hsmall hdata (fun i _ => hty i) (fun _ => rfl)
        fun _ _ _ _ _ => Iff.rfl
    · exact carries_fragments_iff hfp hsmall hdata (fun i _ => hty i) (fun _ => rfl)
        fun _ _ _ _ _ => Iff.rfl

include hmtu in
/-- A reliable packet in one piece. -/
theorem carries_numberWhole
    (hlen : pkt.data.length ≤ maxReliablePayload p.mtu.toNat h.useChecksum) :
    Carries pkt.data [(p.numberWhole pkt nowMs).2] := by
  have hmax : p.mtu.toNat ≤ 1392 := hmtu
  refine carries_whole ⟨⟨cmdSendReliable ||| (commandFlagAcknowledge ||| 0), pkt.channel,
    (p.takeSeq pkt.channel).2⟩, .sendReliable pkt.data⟩ ⟨?_, ?_⟩ fun _ _ => rfl
  · show (cmdSendReliable ||| (commandFlagAcknowledge ||| 0)) &&& commandMask = cmdSendReliable
    decide
  · show pkt.data.length < 65536
    unfold maxReliablePayload at hlen
    omega

include hr hmtu in
/-- A reliable packet in fragments. -/
theorem carries_numberFragments_iff (hdata : 0 < pkt.data.length) (useChecksum : Bool)
    (nowMs : U32) :
    let cmds := (p.numberFragments pkt (fragPayload p.mtu.toNat useChecksum) nowMs).2
    cmds ≠ [] ∧ (Carries pkt.data cmds ↔ pkt.data.length < 2 ^ 32) := by
  obtain ⟨startSeq, seq, hwrites⟩ := p.numberFragments_writes pkt
    (fragPayload p.mtu.toNat useChecksum) nowMs
  rw [hwrites]
  refine carries_cut_iff hr hmtu hdata useChecksum startSeq _ .sendFragment (.inl ⟨rfl, fun j => ?_⟩)
  show (cmdSendFragment ||| commandFlagAcknowledge) &&& commandMask = cmdSendFragment
  decide

include hp hst

theorem sendsWell_unsequenced_iff (hmode : pkt.mode = .unsequenced) :
    h.SendsWell key pkt nowMs ↔ pkt.data.length < 2 ^ 16
      ∧ (p.channels[pkt.channel.toNat]? ≠ none ∨ p.lastSendTime = nowMs) := by
  have hs : h.sendPacket key pkt nowMs = some (h.sendUnsequenced key p pkt nowMs) := by
    simp [sendPacket, hp, hst, hmode]
  have hself : ∀ q, (h.setPeer key q).peer key = some q := fun q =>
    peer_setPeer_self (lt_of_peer_eq_some hp)
  have hcarries : ∀ group : U16, Carries pkt.data [encodeCommand cmdSendUnsequenced
      commandFlagUnsequenced pkt.channel 0
      (be16 group ++ be16 (BitVec.ofNat 16 pkt.data.length) ++ pkt.data)]
        ↔ pkt.data.length < 2 ^ 16 := by
    intro group
    refine ⟨Carries.length_lt, fun hlen => ?_⟩
    refine carries_whole ⟨⟨cmdSendUnsequenced ||| commandFlagUnsequenced, pkt.channel, 0⟩,
      .sendUnsequenced group pkt.data⟩ ⟨?_, hlen⟩ fun _ _ => rfl
    show (cmdSendUnsequenced ||| commandFlagUnsequenced) &&& commandMask = cmdSendUnsequenced
    decide
  unfold sendUnsequenced at hs
  cases hc : p.channels[pkt.channel.toNat]? with
  | some c =>
      have hchan : p.channels[pkt.channel.toNat]? ≠ none := by simp [hc]
      rw [hc] at hs
      simp only at hs
      rw [sendsWell_iff_carries hs hp hchan (by simp) (emitByKey_sent (hself _) (by simp) nowMs),
        hcarries]
      simp
  | none =>
      rw [hc] at hs
      simp only at hs
      rw [sendsWell_iff_of_sent hs hp (emitByKey_sent (hself _) (by simp) nowMs), hcarries,
        setPeer_self hp]
      have hpeer := peer_emitByKey h key (List.cons_ne_nil (encodeCommand cmdSendUnsequenced
        commandFlagUnsequenced pkt.channel 0
        (be16 0 ++ be16 (BitVec.ofNat 16 pkt.data.length) ++ pkt.data)) []) nowMs
      constructor
      · rintro ⟨hlen, hsame⟩
        refine ⟨hlen (by simp), .inr ?_⟩
        have hkey := hsame hc key
        rw [hpeer, if_pos rfl, hp] at hkey
        exact (congrArg PeerEntry.lastSendTime (Option.some.inj hkey)).symm
      · rintro ⟨hlen, hnone | rfl⟩
        · exact absurd rfl hnone
        · refine ⟨fun _ => hlen, fun _ k => ?_⟩
          rw [hpeer]
          split
          · next heq => rw [heq, hp, Option.map_some]
          · rfl

include hr hmtu

theorem sendsWell_reliable_iff (hmode : pkt.mode = .reliable) :
    h.SendsWell key pkt nowMs ↔ ∀ c, p.channels[pkt.channel.toNat]? = some c →
      p.windowOpen pkt.channel c = true → pkt.data.length < 2 ^ 32 := by
  have hmax : p.mtu.toNat ≤ 1392 := hmtu
  have hge : 576 ≤ p.mtu.toNat := hr.mtu
  have hs : h.sendPacket key pkt nowMs = some (h.sendReliable key p pkt nowMs) := by
    simp [sendPacket, hp, hst, hmode]
  have hself : ∀ q, (h.setPeer key q).peer key = some q := fun q =>
    peer_setPeer_self (lt_of_peer_eq_some hp)
  unfold sendReliable at hs
  cases hc : p.channels[pkt.channel.toNat]? with
  | none =>
      rw [hc] at hs
      exact iff_of_true (sendsWell_of_silent hs hp rfl fun _ => rfl) nofun
  | some c =>
      have hchan : p.channels[pkt.channel.toNat]? ≠ none := by simp [hc]
      rw [hc] at hs
      simp only at hs
      split at hs
      · next hclosed =>
        refine iff_of_true (sendsWell_of_silent hs hp rfl fun hnone => absurd hnone hchan) ?_
        rintro c' ⟨⟩ hopen
        simp [hopen] at hclosed
      · next hopen =>
        have honly : (∀ c', some c = some c' → p.windowOpen pkt.channel c' = true →
            pkt.data.length < 2 ^ 32) ↔ pkt.data.length < 2 ^ 32 := by
          refine ⟨fun hall => hall c rfl (by simpa using hopen), ?_⟩
          exact fun hlen _ _ _ => hlen
        rw [honly]
        split at hs
        · next hlen =>
          rw [sendsWell_iff_carries hs hp hchan (by simp) (emitByKey_sent (hself _) (by simp) nowMs)]
          refine iff_of_true (carries_numberWhole hmtu hlen) ?_
          unfold maxReliablePayload at hlen
          omega
        · next hlen =>
          have hdata : 0 < pkt.data.length := by omega
          obtain ⟨hne, hiff⟩ := carries_numberFragments_iff hr hmtu hdata h.useChecksum nowMs
          rw [← hiff]
          exact sendsWell_iff_carries hs hp hchan hne (flushBatch_sent (hself _) _ nowMs)

theorem sendsWell_unreliable_iff (hmode : pkt.mode = .unreliable) :
    h.SendsWell key pkt nowMs
      ↔ p.channels[pkt.channel.toNat]? ≠ none ∧ pkt.data.length < 2 ^ 32 := by
  have hmax : p.mtu.toNat ≤ 1392 := hmtu
  have hge : 576 ≤ p.mtu.toNat := hr.mtu
  have hs : h.sendPacket key pkt nowMs = h.sendUnreliable key p pkt nowMs := by
    simp [sendPacket, hp, hst, hmode]
  have hself : ∀ q, (h.setPeer key q).peer key = some q := fun q =>
    peer_setPeer_self (lt_of_peer_eq_some hp)
  unfold sendUnreliable at hs
  cases hc : p.channels[pkt.channel.toNat]? with
  | none =>
      -- the index panic
      rw [hc] at hs
      refine iff_of_false ?_ (by simp)
      rintro ⟨h', es, hsome, -⟩
      cases hs.symm.trans hsome
  | some c =>
      have hchan : p.channels[pkt.channel.toNat]? ≠ none := by simp [hc]
      rw [hc] at hs
      simp only at hs
      simp only [ne_eq, reduceCtorEq, not_false_eq_true, true_and]
      split at hs
      · next hlen =>
        change pkt.data.length ≤ maxUnreliablePayload p.mtu.toNat h.useChecksum at hlen
        unfold maxUnreliablePayload at hlen
        rw [sendsWell_iff_carries hs hp hchan (by simp) (emitByKey_sent (hself _) (by simp) nowMs)]
        refine iff_of_true ?_ (by omega)
        refine carries_whole ⟨⟨cmdSendUnreliable ||| 0, pkt.channel, _⟩,
          .sendUnreliable _ pkt.data⟩ ⟨?_, ?_⟩ fun _ _ => rfl
        · show (cmdSendUnreliable ||| 0) &&& commandMask = cmdSendUnreliable
          decide
        · show pkt.data.length < 65536
          omega
      · next hlen =>
        have hdata : 0 < pkt.data.length := by omega
        obtain ⟨hne, hiff⟩ := carries_cut_iff hr hmtu hdata h.useChecksum
          c.nextUnreliableSeq.outgoingUnreliableSeq
          (fun _ => ⟨cmdSendUnreliableFragment ||| 0, pkt.channel,
            c.nextUnreliableSeq.outgoingReliableSeq⟩) .sendUnreliableFragment
          (.inr ⟨rfl, fun _ => by
            show (cmdSendUnreliableFragment ||| 0) &&& commandMask = cmdSendUnreliableFragment
            decide⟩)
        rw [← hiff]
        exact sendsWell_iff_carries hs hp hchan hne (flushBatch_sent (hself _) _ nowMs)

end Connected

/-- **Exactly the packets that meet the condition are dealt with.** -/
theorem sendsWell_iff (hi : h.AllLimited) :
    h.SendsWell key pkt nowMs ↔ h.PacketOk key pkt nowMs := by
  cases hp : h.peer key with
  | none =>
      have hs : h.sendPacket key pkt nowMs = some h := by simp [sendPacket, hp]
      refine iff_of_true ⟨h, [], hs, (List.append_nil _).symm, nofun, ?_⟩ ?_
      · exact fun _ _ _ _ => rfl
      · intro p hp'
        cases hp.symm.trans hp'
  | some p =>
      have hlim := hi.2 key p hp
      have hmtu : p.mtu ≤ mtuDefault := hi.1 ▸ hlim.mtu_le
      by_cases hst : p.state = .connected
      · have hok : h.PacketOk key pkt nowMs ↔ Takes p pkt nowMs := by
          refine ⟨fun hall => hall p hp hst, fun htakes q hq _ => ?_⟩
          cases hp.symm.trans hq
          exact htakes
        rw [hok, Takes]
        cases hmode : pkt.mode with
        | reliable => exact sendsWell_reliable_iff hp hst hlim.toInRange hmtu hmode
        | unreliable => exact sendsWell_unreliable_iff hp hst hlim.toInRange hmtu hmode
        | unsequenced => exact sendsWell_unsequenced_iff hp hst hmode
      · have hs : h.sendPacket key pkt nowMs = some h := by simp [sendPacket, hp, hst]
        refine iff_of_true (sendsWell_of_silent hs hp rfl fun _ => rfl) ?_
        intro q hq hqst
        cases hp.symm.trans hq
        exact absurd hqst hst

/-- **No packet crashes the task, none is cut off, and none for an unknown
channel leaves a mark**, exactly if it meets the condition: in every state that
the task passes through, so for the packets of the application and for those
that a tick takes out of `pending_send`. -/
theorem send_packet_completes_iff (h₀ h : HostTask) (key : PeerKey) (pkt : Packet) (nowMs : U32)
    (hr : h₀.Reachable) (e : Exec nowMs (fun _ _ => True) h₀ h) :
    h.SendsWell key pkt nowMs ↔ h.PacketOk key pkt nowMs :=
  sendsWell_iff (e.invariant AllLimited (fun _ _ hi hg _ => hi.label hg) hr.limited)

/-- A packet on Alice's second channel, unreliable, in three fragments. -/
theorem send_packet_completes_iff_alice :
    ∃ h, (bind 4 false 0 0).run (aliceConnects 10) = some h
      ∧ h.SendsWell 0 ⟨List.replicate 3000 7, 1, .unreliable⟩ 30 := by
  have hrun : ((bind 4 false 0 0).run (aliceConnects 10)).any (fun h =>
      (h.peer 0).any fun p => decide (p.channels.length = 2)) = true := by
    decide +kernel
  obtain ⟨h, hh, hrest⟩ := (Option.any_eq_true _ _).mp hrun
  simp only [Option.any_eq_true, decide_eq_true_eq] at hrest
  obtain ⟨p, hp, hlen⟩ := hrest
  refine ⟨h, hh, ?_⟩
  refine (send_packet_completes_iff h h 0 ⟨List.replicate 3000 7, 1, .unreliable⟩ 30
    ⟨_, _, _, _, _, _, hh⟩ .refl).mpr ?_
  intro q hq _
  cases hp.symm.trans hq
  refine ⟨?_, ?_⟩
  · show p.channels[1]? ≠ none
    simp [hlen]
  · show (List.replicate 3000 (7 : U8)).length < 2 ^ 32
    rw [List.length_replicate]
    decide

/-- Alice has two channels.  An unreliable packet on a third crashes the task;
an unsequenced one still goes out and touches her entry; and the length of an
unsequenced packet of 65536 bytes does not fit in its field. -/
theorem send_packet_crashes :
    ∃ h p, (bind 4 false 0 0).run (aliceConnects 10) = some h ∧ h.peer 0 = some p
      ∧ p.channels.length = 2 ∧ h.sendPacket 0 ⟨[1], 2, .unreliable⟩ 30 = none
      ∧ ¬ h.SendsWell 0 ⟨[1], 2, .unsequenced⟩ 30
      ∧ ¬ h.SendsWell 0 ⟨List.replicate 65536 0, 0, .unsequenced⟩ 30 := by
  have hrun : ((bind 4 false 0 0).run (aliceConnects 10)).any (fun h =>
      (h.peer 0).any fun p => decide (p.channels.length = 2 ∧ p.state = .connected
        ∧ p.lastSendTime ≠ 30 ∧ (h.sendPacket 0 ⟨[1], 2, .unreliable⟩ 30).isNone)) = true := by
    decide +kernel
  obtain ⟨h, hh, hrest⟩ := (Option.any_eq_true _ _).mp hrun
  simp only [Option.any_eq_true, decide_eq_true_eq, Option.isNone_iff_eq_none] at hrest
  obtain ⟨p, hp, hlen, hst, htime, hnone⟩ := hrest
  refine ⟨h, p, hh, hp, hlen, hnone, ?_, ?_⟩
  · intro hw
    obtain ⟨-, hchan | heq⟩ := (sendsWell_unsequenced_iff hp hst rfl).mp hw
    · apply hchan
      show p.channels[2]? = none
      simp [hlen]
    · exact htime heq
  · intro hw
    have hlt := ((sendsWell_unsequenced_iff hp hst rfl).mp hw).1
    simp only [List.length_replicate] at hlt
    exact absurd hlt (by decide)

end HostTask

end EnetRs
