/-
  EnetRs.Reassembly.Commands — the commands of a traffic on both ends.

  `Traffic.command` is a command of the traffic as it stands on the wire.  The
  sender's `send_packet` puts exactly these commands out, message by message,
  and the receiver's `on_command` does with them what `Traffic.onPiece` says.

  Main results:
    * `Traffic.sendPacket_commands` — the sender.
    * `Traffic.dispatch_command` — the receiver.
-/
import EnetRs.Reassembly.Reception
import EnetRs.Safety.Acknowledge

namespace EnetRs

open MachineInt

namespace Traffic

variable (tr : Traffic)

/-! ## §1. Commands. -/

/-- The fragment that a piece is, if its message is cut. -/
def fragment (x : Piece) : SendFragmentCmd :=
  fragmentOf (tr.key x.msg) tr.sender.fp (tr.data x.msg) x.part

/-- A command of the traffic. -/
def command (x : Piece) : Command :=
  if tr.reliable x.msg then
    if tr.whole x.msg then
      ⟨⟨cmdSendReliable ||| commandFlagAcknowledge, tr.ch, tr.key x.msg⟩,
        .sendReliable (tr.data x.msg)⟩
    else
      ⟨⟨cmdSendFragment ||| commandFlagAcknowledge, tr.ch,
          BitVec.ofNat 16 (tr.start x.msg + x.part)⟩, .sendFragment (tr.fragment x)⟩
  else
    if tr.whole x.msg then
      ⟨⟨cmdSendUnreliable, tr.ch, BitVec.ofNat 16 (tr.reliableBefore x.msg)⟩,
        .sendUnreliable (tr.key x.msg) (tr.data x.msg)⟩
    else
      ⟨⟨cmdSendUnreliableFragment, tr.ch, BitVec.ofNat 16 (tr.reliableBefore x.msg)⟩,
        .sendUnreliableFragment (tr.fragment x)⟩

/-- The commands of message `i`. -/
def commands (i : Nat) : List Command := (List.range (tr.pieces i)).map fun j => tr.command ⟨i, j⟩

variable {tr}

/-! ## §2. The sender. -/

/-- The sender's entry when the first `i` messages have been sent. -/
structure SentUpTo (tr : Traffic) (i : Nat) (p : PeerEntry) : Prop where
  mtu : p.mtu = tr.sender.mtu
  channel : ∃ c, p.channels[tr.ch.toNat]? = some c
    ∧ c.outgoingReliableSeq = BitVec.ofNat 16 (tr.reliableBefore i)
    ∧ c.outgoingUnreliableSeq = BitVec.ofNat 16 (tr.unreliableBefore i)

end Traffic

namespace PeerEntry

/-- The fragments after the first are numbered one after the other. -/
theorem fragmentLoop_commands (ch : U8) (startSeq : U16) (fp : Nat) (data : Bytes) (nowMs : U32) :
    ∀ (n i T : Nat) (p : PeerEntry) (c : Channel), i ≠ 0 → p.channels[ch.toNat]? = some c →
      c.outgoingReliableSeq = BitVec.ofNat 16 T →
      (fragmentLoop ch startSeq fp data nowMs n i p).2
        = (List.range' i n).map fun j =>
          Command.write ⟨⟨cmdSendFragment ||| commandFlagAcknowledge, ch,
            BitVec.ofNat 16 (T + 1 + j - i)⟩, .sendFragment (fragmentOf startSeq fp data j)⟩ := by
  intro n
  induction n with
  | zero => exact fun _ _ _ _ _ _ _ => rfl
  | succ n ih =>
      intro i T p c hi hc hT
      have hlt := (List.getElem?_eq_some_iff.mp hc).1
      have hnext : p.nextReliableSeq ch
          = ({ p with channels := p.channels.set ch.toNat c.nextReliableSeq },
              BitVec.ofNat 16 (T + 1)) := by
        simp only [nextReliableSeq, hc, Channel.nextReliableSeq, hT, BitVec.ofNat_add]
        rfl
      have hT' : c.nextReliableSeq.outgoingReliableSeq = BitVec.ofNat 16 (T + 1) := by
        rw [Channel.nextReliableSeq, hT, BitVec.ofNat_add]
        rfl
      unfold fragmentLoop
      simp only [hi, if_false, hnext]
      rw [List.range'_succ, List.map_cons]
      refine congrArg₂ List.cons ?_ ?_
      · rw [Nat.add_sub_cancel]
        rfl
      · rw [ih (i + 1) (T + 1) _ c.nextReliableSeq (Nat.succ_ne_zero i)
          (List.getElem?_set_self hlt) hT']
        refine List.map_congr_left fun j hj => ?_
        have hij := (List.mem_range'_1.mp hj).1
        rw [show T + 1 + 1 + j - (i + 1) = T + 1 + j - i by omega]

/-- The commands of a reliable message in fragments. -/
theorem numberFragments_cmds {p : PeerEntry} {c : Channel} {m : Packet} {fp T : Nat}
    (hc : p.channels[m.channel.toNat]? = some c)
    (hT : c.outgoingReliableSeq = BitVec.ofNat 16 T) (nowMs : U32) :
    (p.numberFragments m fp nowMs).2
      = (List.range (fragCount fp m.data)).map fun j =>
        Command.write ⟨⟨cmdSendFragment ||| commandFlagAcknowledge, m.channel,
          BitVec.ofNat 16 (T + 1 + j)⟩,
          .sendFragment (fragmentOf (BitVec.ofNat 16 (T + 1)) fp m.data j)⟩ := by
  have hseq : c.nextReliableSeq.outgoingReliableSeq = BitVec.ofNat 16 (T + 1) := by
    rw [Channel.nextReliableSeq, hT, BitVec.ofNat_add]
    rfl
  have hnext : p.nextReliableSeq m.channel
      = ({ p with channels := p.channels.set m.channel.toNat c.nextReliableSeq },
          BitVec.ofNat 16 (T + 1)) := by
    simp only [nextReliableSeq, hc, hseq]
  have hlt := (List.getElem?_eq_some_iff.mp hc).1
  simp only [numberFragments, hnext]
  cases fragCount fp m.data with
  | zero => rfl
  | succ n =>
      rw [List.range_eq_range', List.range'_succ, List.map_cons]
      unfold fragmentLoop
      simp only [if_true]
      -- the first fragment has the number taken before the loop
      refine congrArg₂ List.cons rfl ?_
      rw [fragmentLoop_commands m.channel _ fp m.data nowMs n 1 (T + 1) _ c.nextReliableSeq
        (by decide) (List.getElem?_set_self hlt) hseq]
      refine List.map_congr_left fun j hj => ?_
      rw [show T + 1 + 1 + j - 1 = T + 1 + j by omega]

end PeerEntry

namespace Traffic

section Sender

variable {tr : Traffic} {i : Nat} {m : Packet} {p : PeerEntry} {c : Channel} {nowMs : U32}
  (hm : tr.msgs[i]? = some m) (hc : p.channels[tr.ch.toNat]? = some c)
  (hR : c.outgoingReliableSeq = BitVec.ofNat 16 (tr.reliableBefore i))

theorem commands_of_whole (hw : tr.whole i = true) : tr.commands i = [tr.command ⟨i, 0⟩] := by
  rw [commands, pieces_of_whole hw]
  rfl

include hm hc hR

/-- A reliable message in one piece. -/
theorem numberWhole_command (hrel : tr.reliable i = true) (hw : tr.whole i = true)
    (hch : tr.ch ≠ channelIdConnection) :
    [(p.numberWhole m nowMs).2] = (tr.commands i).map Command.write := by
  have hmch := tr.channel m (List.mem_of_getElem? hm)
  have hseq : (p.nextReliableSeq tr.ch).2 = tr.key i := by
    simp only [PeerEntry.nextReliableSeq, hc, Channel.nextReliableSeq, hR, key,
      start_of_reliable hrel, BitVec.ofNat_add]
    rfl
  have htake : p.takeSeq tr.ch = p.nextReliableSeq tr.ch := if_neg hch
  rw [commands_of_whole hw, command, if_pos hrel, if_pos hw, data_eq hm]
  simp only [PeerEntry.numberWhole, PeerEntry.makeReliable, hmch, htake, hseq]
  rfl

/-- A reliable message in fragments. -/
theorem numberFragments_commands (hrel : tr.reliable i = true) (hw : tr.whole i = false) :
    (p.numberFragments m tr.sender.fp nowMs).2 = (tr.commands i).map Command.write := by
  have hi := (List.getElem?_eq_some_iff.mp hm).1
  have hmch := tr.channel m (List.mem_of_getElem? hm)
  have hpieces := pieces_of_cut hi hw
  rw [data_eq hm] at hpieces
  rw [PeerEntry.numberFragments_cmds (hmch ▸ hc) hR nowMs, commands, hpieces, List.map_map]
  refine List.map_congr_left fun j _ => ?_
  simp only [Function.comp_apply, command, fragment, hrel, hw, data_eq hm, hmch, key,
    start_of_reliable hrel, if_true, Bool.false_eq_true, if_false]

omit hc in
/-- Unreliable messages, in one piece or in fragments. -/
theorem unreliable_commands (hrel : tr.reliable i = false)
    (hU : c.nextUnreliableSeq.outgoingUnreliableSeq = tr.key i) :
    (tr.commands i).map Command.write
      = if tr.whole i then
          [encodeCommand cmdSendUnreliable 0 m.channel c.nextUnreliableSeq.outgoingReliableSeq
            (be16 c.nextUnreliableSeq.outgoingUnreliableSeq
              ++ be16 (BitVec.ofNat 16 m.data.length) ++ m.data)]
        else
          (List.range (fragCount tr.sender.fp m.data)).map fun j =>
            encodeCommand cmdSendUnreliableFragment 0 m.channel
              c.nextUnreliableSeq.outgoingReliableSeq
              (fragmentBody
                (fragmentOf c.nextUnreliableSeq.outgoingUnreliableSeq tr.sender.fp m.data j)) := by
  have hi := (List.getElem?_eq_some_iff.mp hm).1
  have hmch := tr.channel m (List.mem_of_getElem? hm)
  have hR' : c.nextUnreliableSeq.outgoingReliableSeq = BitVec.ofNat 16 (tr.reliableBefore i) := hR
  rw [hU, hR', hmch]
  cases hw : tr.whole i with
  | true =>
      rw [commands_of_whole hw]
      simp only [List.map_cons, List.map_nil, command, hrel, hw, data_eq hm, Bool.false_eq_true,
        if_true, if_false]
      rfl
  | false =>
      rw [commands, List.map_map, pieces_of_cut hi hw, data_eq hm]
      refine List.map_congr_left fun j _ => ?_
      simp only [Function.comp_apply, command, fragment, hrel, hw, data_eq hm, Bool.false_eq_true,
        if_false]
      rfl

end Sender

section SendPacket

variable {tr : Traffic} {i : Nat} {m : Packet} {h : HostTask} {k : PeerKey} {p : PeerEntry}
  (hm : tr.msgs[i]? = some m) (hck : h.useChecksum = tr.sender.useChecksum)
  (hs : tr.SentUpTo i p) (nowMs : U32)

/-- The host that puts the commands of message `i` out, from the entry `p`. -/
def puts (tr : Traffic) (i : Nat) (h : HostTask) (k : PeerKey) (p : PeerEntry) (nowMs : U32) :
    HostTask :=
  if tr.whole i then (h.setPeer k p).emitByKey k ((tr.commands i).map Command.write) nowMs
  else (h.setPeer k p).flushBatch k ((tr.commands i).map Command.write) nowMs

include hm hck hs

theorem sendReliable_commands (hch : tr.ch ≠ channelIdConnection) (hmode : m.mode = .reliable)
    (hopen : ∀ c, p.channels[tr.ch.toNat]? = some c → p.windowOpen tr.ch c = true) :
    ∃ p', tr.SentUpTo (i + 1) p' ∧ h.sendReliable k p m nowMs = tr.puts i h k p' nowMs := by
  obtain ⟨c, hc, hR, hU⟩ := hs.channel
  have hmch := tr.channel m (List.mem_of_getElem? hm)
  have hrel : tr.reliable i = true := by
    rw [reliable_eq hm, hmode]
    rfl
  have hRnext : tr.reliableBefore (i + 1) = tr.reliableBefore i + tr.pieces i := by
    rw [reliableBefore_succ, hrel, if_pos rfl]
  have hUnext : tr.unreliableBefore (i + 1) = tr.unreliableBefore i := by
    rw [unreliableBefore_succ hm, hrel]
    rfl
  -- the entry once the numbers of the message are taken
  have hafter : ∀ {q : PeerEntry}, PeerEntry.NumberedOn m.channel p q →
      q.channels = p.channels.modify m.channel.toNat (·.advance (tr.pieces i)) →
      tr.SentUpTo (i + 1) q := by
    intro q hn hq
    rw [hmch, Collections.modify_of_getElem? _ hc] at hq
    refine ⟨(hn.frame.get (·.mtu)).trans hs.mtu, _, Collections.getElem?_of_eq_set hc hq, ?_, ?_⟩
    · rw [Channel.advance, hR, hRnext, BitVec.ofNat_add]
    · rw [hUnext, ← hU]
      rfl
  have hwhole : (m.data.length ≤ maxReliablePayload p.mtu.toNat h.useChecksum)
      ↔ tr.whole i = true := by
    rw [whole_eq hm, Sender.whole, if_pos hmode, decide_eq_true_eq, hs.mtu, hck]
  simp only [HostTask.sendReliable, hmch, hc, hopen c hc, Bool.not_true, Bool.false_eq_true,
    if_false]
  by_cases hw : tr.whole i = true
  · refine ⟨_, hafter (.numberWhole p m nowMs (hmch ▸ hch)) ?_, ?_⟩
    · rw [pieces_of_whole hw]
      exact PeerEntry.numberWhole_channels p m nowMs (hmch ▸ hch)
    · rw [puts, if_pos (hwhole.mpr hw), if_pos hw, ← numberWhole_command hm hc hR hrel hw hch]
  · have hcut : tr.whole i = false := Bool.not_eq_true _ ▸ hw
    have hfp : fragPayload p.mtu.toNat h.useChecksum = tr.sender.fp := by
      rw [hs.mtu, hck]
      rfl
    have hi := (List.getElem?_eq_some_iff.mp hm).1
    have hpieces := pieces_of_cut hi hcut
    rw [data_eq hm] at hpieces
    refine ⟨_, hafter (.numberFragments p m tr.sender.fp nowMs) ?_, ?_⟩
    · rw [PeerEntry.numberFragments_channels, ← hpieces, Nat.sub_add_cancel (tr.pieces_pos hi)]
    · rw [puts, if_neg (mt hwhole.mp hw), if_neg hw, hfp,
        ← numberFragments_commands hm hc hR hrel hcut]

theorem sendUnreliable_commands (hmode : m.mode = .unreliable) :
    ∃ p', tr.SentUpTo (i + 1) p'
      ∧ h.sendUnreliable k p m nowMs = some (tr.puts i h k p' nowMs) := by
  obtain ⟨c, hc, hR, hU⟩ := hs.channel
  have hmch := tr.channel m (List.mem_of_getElem? hm)
  have hrel : tr.reliable i = false := by
    rw [reliable_eq hm, hmode]
    rfl
  have hRnext : tr.reliableBefore (i + 1) = tr.reliableBefore i := by
    rw [reliableBefore_succ, hrel]
    rfl
  have hUnext : tr.unreliableBefore (i + 1) = tr.unreliableBefore i + 1 := by
    rw [unreliableBefore_succ hm, hrel]
    rfl
  have hkey : c.nextUnreliableSeq.outgoingUnreliableSeq = tr.key i := by
    rw [key, start_of_unreliable hrel, Channel.nextUnreliableSeq, hU, BitVec.ofNat_add]
    rfl
  have hwhole : (m.data.length ≤ maxUnreliablePayload p.mtu.toNat h.useChecksum)
      ↔ tr.whole i = true := by
    rw [whole_eq hm, Sender.whole, if_neg (by rw [hmode]; decide), decide_eq_true_eq, hs.mtu, hck]
  have hfp : fragPayload p.mtu.toNat h.useChecksum = tr.sender.fp := by
    rw [hs.mtu, hck]
    rfl
  refine ⟨{ p with channels := p.channels.set tr.ch.toNat c.nextUnreliableSeq },
    ⟨hs.mtu, _, Collections.getElem?_of_eq_set hc rfl, ?_, ?_⟩, ?_⟩
  · rw [hRnext]
    exact hR
  · rw [hkey, key, start_of_unreliable hrel, hUnext]
  · rw [puts, unreliable_commands hm hR hrel hkey]
    have hck' : (h.setPeer k
        { p with channels := p.channels.set tr.ch.toNat c.nextUnreliableSeq }).useChecksum
        = h.useChecksum := rfl
    simp only [HostTask.sendUnreliable, hmch, hc, hck', hfp]
    by_cases hw : tr.whole i = true
    · simp only [hw, if_true, if_pos (hwhole.mpr hw)]
    · simp only [hw, Bool.false_eq_true, if_false, if_neg (mt hwhole.mp hw)]

/-- **`send_packet` puts out the commands of the traffic.** -/
theorem sendPacket_commands (hp : h.peer k = some p) (hstate : p.state = .connected)
    (hch : tr.ch ≠ channelIdConnection)
    (hopen : m.mode = .reliable →
      ∀ c, p.channels[tr.ch.toNat]? = some c → p.windowOpen tr.ch c = true) :
    ∃ p', tr.SentUpTo (i + 1) p'
      ∧ h.sendPacket k m nowMs = some (tr.puts i h k p' nowMs) := by
  simp only [HostTask.sendPacket, hp, hstate, ne_eq, not_true_eq_false, if_false]
  cases hmode : m.mode with
  | reliable =>
      obtain ⟨p', hs', heq⟩ := sendReliable_commands hm hck hs nowMs hch hmode (hopen hmode)
        (k := k)
      exact ⟨p', hs', congrArg some heq⟩
  | unreliable => exact sendUnreliable_commands hm hck hs nowMs hmode
  | unsequenced => exact absurd hmode (tr.mode m (List.mem_of_getElem? hm))

end SendPacket

/-! ## §3. The receiver. -/

section Receive

variable {tr : Traffic} {x : Piece} {h : HostTask} {k : PeerKey} {p : PeerEntry}

/-- The entries agree on the channels and on what was delivered. -/
def SameReception (tr : Traffic) (p q : PeerEntry) : Prop :=
  q.channels = p.channels ∧ q.deliveredOn tr.ch = p.deliveredOn tr.ch

theorem noteTake_sameReception {h h₀ : HostTask} {q : PeerEntry} (hq : h.peer k = some q)
    (ch : U8) (seq : U16) (d : ReliableData) :
    ∃ q', (h.noteTake h₀ k ch seq d).peer k = some q' ∧ tr.SameReception q q' := by
  unfold HostTask.noteTake
  split
  · refine ⟨q.log (.take ch seq), ?_, rfl, ?_⟩
    · rw [HostTask.peer_updatePeer, if_pos rfl, hq]
      rfl
    · simp [PeerEntry.deliveredOn, PeerEntry.log, PeerEvent.asDelivery]
  · exact ⟨q, hq, rfl, rfl⟩

theorem dispatch_sendUnreliable {cmd : Command} {useq : U16} {data : Bytes}
    (hty : cmd.header.commandType = cmdSendUnreliable) (hb : cmd.body = .sendUnreliable useq data)
    (sentTime : Option U16) (src : SocketAddr) (nowMs : U32) :
    h.dispatch (some k) sentTime cmd src nowMs
      = h.updatePeer k fun p => p.onSendUnreliable cmd.header.channelId cmd.header.reliableSeq useq
        data nowMs := by
  simp only [HostTask.dispatch, hty, hb]
  rw [if_neg (by decide), if_neg (by decide), if_neg (by decide), if_neg (by decide),
    if_neg (by decide), if_neg (by decide), if_pos trivial]

theorem dispatch_sendUnreliableFragment {cmd : Command} {sf : SendFragmentCmd}
    (hty : cmd.header.commandType = cmdSendUnreliableFragment)
    (hb : cmd.body = .sendUnreliableFragment sf) (sentTime : Option U16) (src : SocketAddr)
    (nowMs : U32) :
    h.dispatch (some k) sentTime cmd src nowMs
      = h.updatePeer k fun p => p.onFragment cmd.header.channelId sf false nowMs := by
  simp only [HostTask.dispatch, hty, hb]
  rw [if_neg (by decide), if_neg (by decide), if_neg (by decide), if_neg (by decide),
    if_neg (by decide), if_neg (by decide), if_neg (by decide), if_neg (by decide), if_pos trivial]
  rfl

/-- **`on_command` does with a command of the traffic what `onPiece` says.** -/
theorem dispatch_command (hp : h.peer k = some p) (sentTime : Option U16) (src : SocketAddr)
    (nowMs : U32) :
    ∃ q, (h.dispatch (some k) sentTime (tr.command x) src nowMs).peer k = some q
      ∧ tr.SameReception (tr.onPiece nowMs p x) q := by
  have hupdate : ∀ f : PeerEntry → PeerEntry, (h.updatePeer k f).peer k = some (f p) := by
    intro f
    rw [HostTask.peer_updatePeer, if_pos rfl, hp]
    rfl
  cases hrel : tr.reliable x.msg with
  | true =>
      cases hw : tr.whole x.msg with
      | true =>
          have hd : (tr.command x).reliableData = some (.whole (tr.data x.msg)) := by
            simp only [command, hrel, hw, if_true]
            exact if_pos (by decide : (cmdSendReliable ||| commandFlagAcknowledge) &&& commandMask
              = cmdSendReliable)
          rw [HostTask.dispatch_data hd]
          simp only [command, onPiece, hrel, hw, if_true]
          exact noteTake_sameReception (hupdate _) _ _ _
      | false =>
          have hd : (tr.command x).reliableData = some (.fragment (tr.fragment x)) := by
            simp only [command, hrel, hw, if_true, Bool.false_eq_true, if_false]
            exact if_pos (by decide : (cmdSendFragment ||| commandFlagAcknowledge) &&& commandMask
              = cmdSendFragment)
          rw [HostTask.dispatch_data hd]
          simp only [command, onPiece, hrel, hw, if_true, Bool.false_eq_true, if_false]
          exact noteTake_sameReception (hupdate _) _ _ _
  | false =>
      cases hw : tr.whole x.msg with
      | true =>
          have hb : (tr.command x).body = .sendUnreliable (tr.key x.msg) (tr.data x.msg) := by
            simp only [command, hrel, hw, if_true, Bool.false_eq_true, if_false]
          have hty : (tr.command x).header.commandType = cmdSendUnreliable := by
            simp only [command, hrel, hw, if_true, Bool.false_eq_true, if_false]
            exact (by decide : cmdSendUnreliable &&& commandMask = cmdSendUnreliable)
          rw [dispatch_sendUnreliable hty hb]
          simp only [command, onPiece, hrel, hw, if_true, Bool.false_eq_true, if_false]
          exact ⟨_, hupdate _, rfl, rfl⟩
      | false =>
          have hb : (tr.command x).body = .sendUnreliableFragment (tr.fragment x) := by
            simp only [command, hrel, hw, Bool.false_eq_true, if_false]
          have hty : (tr.command x).header.commandType = cmdSendUnreliableFragment := by
            simp only [command, hrel, hw, Bool.false_eq_true, if_false]
            exact (by decide :
              cmdSendUnreliableFragment &&& commandMask = cmdSendUnreliableFragment)
          rw [dispatch_sendUnreliableFragment hty hb]
          simp only [command, onPiece, hrel, hw, Bool.false_eq_true, if_false]
          exact ⟨_, hupdate _, rfl, rfl⟩

end Receive

end Traffic

end EnetRs
