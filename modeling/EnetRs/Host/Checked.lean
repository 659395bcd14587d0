/-
  EnetRs.Host.Checked — the task with every access checked.

  What the task does with a datagram, once more, with each index, slice, copy,
  `unwrap` and unsigned subtraction of `src/channel.rs` and `src/task.rs` as an
  operation that can fail: `none` is a panic.  The tick follows in
  `Safety.Panics`.

  Main results: each function is `some` of the one in `Channel`, `Peer` or
  `Host`, under the one thing it relies on, if it relies on anything
  (`checkAndSet_eq` and, through it, `dispatch_eq` and `onDatagram_eq` on 32
  words in the window).
-/
import EnetRs.Host.Bounds
import EnetRs.Host.Deliveries
import EnetRs.Protocol.Checked

namespace EnetRs.Checked

open MachineInt Panic

/-! ## §1. `src/channel.rs`. -/

/-- `FragmentBuffer::receive`. -/
def FragmentBuffer.receive (b : FragmentBuffer) (fragmentNumber : U32) (offset : Nat)
    (data : Bytes) : Option (FragmentBuffer × Bool) :=
  let word := fragmentNumber.toNat / 64
  let bit : U64 := 1#64 <<< (fragmentNumber.toNat % 64)
  if b.mask.length ≤ word then some (b, false)
  else do
    let w ← index b.mask word
    if w &&& bit != 0#64 then return (b, false)
    else if b.buf.length < offset + data.length then return (b, false)
    else
      let mask ← store b.mask word (w ||| bit)
      let buf ← copyInto b.buf offset (offset + data.length) data
      let b' : FragmentBuffer := { b with mask := mask, received := b.received + 1, buf := buf }
      return (b', b'.received == b'.fragmentCount)

/-- `receive` is safe on every input: the word of the mask is compared with its length,
and the end of the piece with that of the buffer, before either is indexed. -/
theorem FragmentBuffer.receive_eq (b : FragmentBuffer) (fragmentNumber : U32) (offset : Nat)
    (data : Bytes) :
    FragmentBuffer.receive b fragmentNumber offset data
      = some (b.receive fragmentNumber offset data) := by
  refine ite_eq_some (fun _ => rfl) fun hword => ?_
  have hlt : fragmentNumber.toNat / 64 < b.mask.length := Nat.lt_of_not_le hword
  rw [index_of_lt hlt 0, Option.bind_eq_bind, Option.bind_some]
  refine ite_eq_some (fun _ => rfl) fun _ => ite_eq_some (fun _ => rfl) fun hlen => ?_
  simp only [store_of_lt hlt, copyInto_of_le rfl (Nat.le_of_not_lt hlen), Option.bind_some,
    Option.bind_eq_bind]
  rfl

/-- `self.window[idx / 32] &= !(1 << (idx % 32))`. -/
def clearBit (window : List U32) (i : Nat) : Option (List U32) := do
  let w ← index window (i / 32)
  store window (i / 32) (w &&& ~~~ (1#32 <<< (i % 32)))

/-- The part of `check_and_set` that moves the high-water mark forward. -/
def UnsequencedWindow.advanceTo (win : UnsequencedWindow) (group : U16) (advance : Nat) :
    Option UnsequencedWindow := do
  let clear (acc : List U32) (i : Nat) : Option (List U32) :=
    clearBit acc (UnsequencedWindow.idx (win.group + BitVec.ofNat 16 (i + 1)))
  let window ←
    if 1024 ≤ advance then some (List.replicate 32 0)
    else (List.range advance).foldlM clear win.window
  return { window := window, group := group }

/-- `UnsequencedWindow::check_and_set`. -/
def UnsequencedWindow.checkAndSet (win : UnsequencedWindow) (group : U16) :
    Option (UnsequencedWindow × Bool) :=
  let diff := (group - win.group).toInt
  let word := UnsequencedWindow.idx group / 32
  let bit : U32 := 1#32 <<< (UnsequencedWindow.idx group % 32)
  if diff < 0 ∧ 1024 ≤ -diff then some (win, false)
  else do
    let win' ← (if 0 < diff then UnsequencedWindow.advanceTo win group diff.toNat else some win)
    let w ← index win'.window word
    if w &&& bit != 0#32 then return (win', false)
    else
      let window ← store win'.window word (w ||| bit)
      return ({ win' with window := window }, true)

section Window

variable {win : UnsequencedWindow} {group : U16}

theorem idx_word (group : U16) : UnsequencedWindow.idx group / 32 < 32 := by
  unfold UnsequencedWindow.idx
  omega

/-- Clearing a bit needs nothing but the 32 words. -/
theorem clearBit_eq {window : List U32} (hlen : window.length = 32) (group : U16) :
    clearBit window (UnsequencedWindow.idx group)
      = some (BitArray.clearBit window (UnsequencedWindow.idx group)) := by
  have hlt : UnsequencedWindow.idx group / 32 < window.length := by
    rw [hlen]
    exact idx_word group
  rw [clearBit, index_of_lt hlt 0, Option.bind_eq_bind, Option.bind_some, store_of_lt hlt]
  rfl

/-- Moving the high-water mark clears one bit after the other; each clearing keeps the
32 words, which is what the next one needs. -/
theorem advanceTo_eq (hlen : win.window.length = 32) (group : U16) (advance : Nat) :
    UnsequencedWindow.advanceTo win group advance = some (win.advanceTo group advance)
      ∧ (win.advanceTo group advance).window.length = 32 := by
  have hstep : ∀ (acc : List U32) (i : Nat), acc.length = 32 →
      clearBit acc (UnsequencedWindow.idx (win.group + BitVec.ofNat 16 (i + 1)))
        = some (BitArray.clearBit acc (UnsequencedWindow.idx (win.group + BitVec.ofNat 16 (i + 1))))
      ∧ (BitArray.clearBit acc
          (UnsequencedWindow.idx (win.group + BitVec.ofNat 16 (i + 1)))).length = 32 := by
    intro acc i hacc
    exact ⟨clearBit_eq hacc _, by rw [BitArray.clearBit_length, hacc]⟩
  have hloop := foldlM_of_step (I := fun acc => acc.length = 32) hstep (List.range advance)
    win.window hlen
  constructor
  · unfold UnsequencedWindow.advanceTo EnetRs.UnsequencedWindow.advanceTo
    by_cases hreset : 1024 ≤ advance
    · simp only [if_pos hreset]
      rfl
    · simp only [if_neg hreset, hloop]
      rfl
  · simp only [EnetRs.UnsequencedWindow.advanceTo]
    split
    · rw [List.length_replicate]
    · exact List.foldlRecOn (motive := fun acc => acc.length = 32) (List.range advance) _ hlen
        fun acc hacc i _ => (hstep acc i hacc).2

/-- `check_and_set` needs its 32 words, and keeps them: both where the mark moves and
where it does not, the bit is looked up in a window of 32 words. -/
theorem checkAndSet_eq (hlen : win.window.length = 32) (group : U16) :
    UnsequencedWindow.checkAndSet win group = some (win.checkAndSet group)
      ∧ (win.checkAndSet group).1.window.length = 32 := by
  -- the window in which the bit of the group is looked up
  obtain ⟨win', hwin', hlen'⟩ : ∃ win', win' = (if 0 < (group - win.group).toInt
      then win.advanceTo group (group - win.group).toInt.toNat else win)
      ∧ win'.window.length = 32 := by
    refine ⟨_, rfl, ?_⟩
    split
    · exact (advanceTo_eq hlen _ _).2
    · exact hlen
  have hchecked : (if 0 < (group - win.group).toInt
      then UnsequencedWindow.advanceTo win group (group - win.group).toInt.toNat else some win)
        = some win' := by
    rw [hwin']
    exact ite_eq_some (fun _ => (advanceTo_eq hlen _ _).1) fun _ => rfl
  have hlt : UnsequencedWindow.idx group / 32 < win'.window.length := by
    rw [hlen']
    exact idx_word group
  constructor
  · unfold UnsequencedWindow.checkAndSet EnetRs.UnsequencedWindow.checkAndSet
    simp only [hchecked, ← hwin']
    refine ite_eq_some (fun _ => rfl) fun _ => ?_
    simp only [Option.bind_eq_bind, Option.bind_some, index_of_lt hlt 0]
    refine ite_eq_some (fun _ => rfl) fun _ => ?_
    rw [store_of_lt hlt]
    rfl
  · simp only [EnetRs.UnsequencedWindow.checkAndSet, ← hwin']
    split
    · exact hlen
    · split
      · exact hlen'
      · rw [BitArray.setBit_length, hlen']

end Window

/-! ## §2. Handlers that touch one entry. -/

namespace PeerEntry

open EnetRs.PeerEntry (fragmentMalformed fragmentRefused fragmentBufferFor releaseAssembled)

/-- CMD_SEND_RELIABLE. -/
def onSendReliable (p : PeerEntry) (ch : U8) (seq : U16) (data : Bytes) (nowMs : U32) :
    Option PeerEntry :=
  let p := { p with lastReceiveTime := nowMs }
  if p.channels.length ≤ ch.toNat then some p
  else do
    let c ← index p.channels ch.toNat
    let (c', ready) := c.receiveReliable seq data
    let channels ← store p.channels ch.toNat c'
    return { p with channels := channels }.deliverAll ch .reliable ready

/-- CMD_SEND_UNRELIABLE. -/
def onSendUnreliable (p : PeerEntry) (ch : U8) (reliableSeqInCmd unreliableSeq : U16)
    (data : Bytes) (nowMs : U32) : Option PeerEntry :=
  let p := { p with lastReceiveTime := nowMs }
  if p.channels.length ≤ ch.toNat then some p
  else do
    let c ← index p.channels ch.toNat
    if seqLt reliableSeqInCmd c.incomingReliableSeq then return p
    else
      let c ← index p.channels ch.toNat
      let (c', accepted) := c.receiveUnreliable unreliableSeq data
      let channels ← store p.channels ch.toNat c'
      return { p with channels := channels }.deliverAll ch .unreliable accepted.toList

/-- CMD_SEND_UNSEQUENCED. -/
def onSendUnsequenced (p : PeerEntry) (group : U16) (data : Bytes) (nowMs : U32) :
    Option PeerEntry := do
  let p := { p with lastReceiveTime := nowMs }
  let (win, accepted) ← UnsequencedWindow.checkAndSet p.unsequencedWindow group
  let p := { p with unsequencedWindow := win }
  return if accepted then p.deliver { data := data, channel := 0, mode := .unsequenced } else p

/-- The body of `on_fragment` once the malformed fragments are out and the
channel exists: the buffer is inserted, written, and removed once complete. -/
def storeFragment (p : PeerEntry) (ch : U8) (sf : SendFragmentCmd) (reliable : Bool) :
    Option (PeerEntry × List Bytes) := do
  let c ← index p.channels ch.toNat
  if fragmentRefused p c sf then return (p, [])
  else
    let charged :=
      if c.fragmentBuffers.contains sf.startSeq then p.fragmentBytesInFlight
      else p.fragmentBytesInFlight + sf.totalLength.toNat
    let c ← index p.channels ch.toNat
    let (buf, done) ← FragmentBuffer.receive (fragmentBufferFor c sf) sf.fragmentNumber
      sf.fragmentOffset.toNat sf.data
    let channels ← store p.channels ch.toNat
      { c with fragmentBuffers := c.fragmentBuffers.insert sf.startSeq buf }
    if done then
      let c ← index channels ch.toNat
      -- `fragment_buffers.remove(&start_seq).unwrap()`
      let buf ← c.fragmentBuffers[sf.startSeq]?
      let (c', ready) := releaseAssembled
        { c with fragmentBuffers := c.fragmentBuffers.erase sf.startSeq } sf reliable buf.finish
      let channels ← store channels ch.toNat c'
      return ({ p with
        fragmentBytesInFlight := charged - sf.totalLength.toNat
        channels := channels }, ready)
    else return ({ p with fragmentBytesInFlight := charged, channels := channels }, [])

/-- `HostTask::on_fragment` on this entry. -/
def onFragment (p : PeerEntry) (ch : U8) (sf : SendFragmentCmd) (reliable : Bool)
    (nowMs : U32) : Option PeerEntry :=
  if fragmentMalformed sf then some p
  else
    let p := { p with lastReceiveTime := nowMs }
    if p.channels.length ≤ ch.toNat then some p
    else do
      let (p', ready) ← storeFragment p ch sf reliable
      return p'.deliverAll ch (if reliable then .reliable else .unreliable) ready

variable {p : PeerEntry} {ch : U8}

/-- The channel is compared with the number of channels before it is indexed, so no
hypothesis is needed. -/
theorem onSendReliable_eq (p : PeerEntry) (ch : U8) (seq : U16) (data : Bytes) (nowMs : U32) :
    onSendReliable p ch seq data nowMs = some (p.onSendReliable ch seq data nowMs) := by
  refine (index_guarded _ _ _ _).trans ?_
  simp only [EnetRs.PeerEntry.onSendReliable]
  cases hc : p.channels[ch.toNat]? with
  | none => rfl
  | some c =>
      simp only [store_of_getElem? hc, Option.bind_eq_bind, Option.bind_some]
      rfl

/-- The same guard; the second access to the channel finds it in the vector still. -/
theorem onSendUnreliable_eq (p : PeerEntry) (ch : U8) (reliableSeqInCmd unreliableSeq : U16)
    (data : Bytes) (nowMs : U32) :
    onSendUnreliable p ch reliableSeqInCmd unreliableSeq data nowMs
      = some (p.onSendUnreliable ch reliableSeqInCmd unreliableSeq data nowMs) := by
  refine (index_guarded _ _ _ _).trans ?_
  simp only [EnetRs.PeerEntry.onSendUnreliable]
  cases hc : p.channels[ch.toNat]? with
  | none => rfl
  | some c =>
      refine ite_eq_some (fun _ => rfl) fun _ => ?_
      simp only [index, hc, store_of_getElem? hc, Option.bind_eq_bind, Option.bind_some]
      rfl

/-- An unsequenced packet indexes the window and nothing else. -/
theorem onSendUnsequenced_eq (hlen : p.unsequencedWindow.window.length = 32) (group : U16)
    (data : Bytes) (nowMs : U32) :
    onSendUnsequenced p group data nowMs = some (p.onSendUnsequenced group data nowMs) := by
  simp only [onSendUnsequenced, (checkAndSet_eq hlen group).1, Option.bind_eq_bind,
    Option.bind_some]
  rfl

/-- The buffer that `unwrap` expects has just been inserted, and the channel it is
looked up in is the one that was found before. -/
theorem storeFragment_eq {c : Channel} (hc : p.channels[ch.toNat]? = some c) (sf : SendFragmentCmd)
    (reliable : Bool) :
    storeFragment p ch sf reliable = some (p.storeFragment ch c sf reliable) := by
  simp only [storeFragment, index, hc, Option.bind_eq_bind, Option.bind_some,
    FragmentBuffer.receive_eq, store_of_getElem? hc]
  refine ite_eq_some (fun _ => rfl) fun _ => ite_eq_some (fun _ => ?_) fun _ => rfl
  have hlt : ch.toNat < p.channels.length := (List.getElem?_eq_some_iff.mp hc).1
  have herase : ∀ (m : Std.ExtTreeMap U16 FragmentBuffer) (b : FragmentBuffer),
      (m.insert sf.startSeq b).erase sf.startSeq = m.erase sf.startSeq := by
    intro m b
    apply Std.ExtTreeMap.ext_getElem?
    intro k
    simp only [Std.ExtTreeMap.getElem?_erase, Std.ExtTreeMap.getElem?_insert]
    split <;> rfl
  simp only [List.getElem?_set_self hlt, Option.bind_some, Std.ExtTreeMap.getElem?_insert_self,
    herase, store, List.length_set, if_pos hlt, List.set_set]
  rfl

/-- A fragment for a channel that does not exist is dropped before anything of it is
stored. -/
theorem onFragment_eq (p : PeerEntry) (ch : U8) (sf : SendFragmentCmd) (reliable : Bool)
    (nowMs : U32) :
    onFragment p ch sf reliable nowMs = some (p.onFragment ch sf reliable nowMs) := by
  refine ite_eq_some (fun _ => rfl) fun _ => ?_
  simp only
  cases hc : p.channels[ch.toNat]? with
  | none => rw [if_pos (List.getElem?_eq_none_iff.mp hc)]
  | some c =>
      have hlt : ch.toNat < p.channels.length := (List.getElem?_eq_some_iff.mp hc).1
      have hstore := storeFragment_eq (p := { p with lastReceiveTime := nowMs }) hc sf reliable
      rw [if_neg (Nat.not_le.mpr hlt), hstore]
      rfl

end PeerEntry

/-! ## §3. Datagrams out. -/

namespace PeerEntry

/-- `channels[ch].next_reliable_seq()`. -/
def nextReliableSeq (p : PeerEntry) (ch : U8) : Option (PeerEntry × U16) := do
  let c ← index p.channels ch.toNat
  let channels ← store p.channels ch.toNat c.nextReliableSeq
  return ({ p with channels := channels }, c.nextReliableSeq.outgoingReliableSeq)

/-- The number `make_reliable` takes. -/
def takeSeq (p : PeerEntry) (channelId : U8) : Option (PeerEntry × U16) :=
  if channelId = channelIdConnection then
    some (p.nextConnectSeq, p.nextConnectSeq.outgoingReliableSeq)
  else nextReliableSeq p channelId

/-- `HostTask::make_reliable`. -/
def makeReliable (p : PeerEntry) (channelId cmdType extraFlags : U8) (nowMs : U32)
    (body : Bytes) : Option (PeerEntry × Bytes) := do
  let (p', seq) ← takeSeq p channelId
  let cmd := encodeCommand cmdType (commandFlagAcknowledge ||| extraFlags) channelId seq body
  return (p'.track channelId seq cmdType cmd nowMs, cmd)

variable {p : PeerEntry} {ch : U8}

/-- Taking a number is the one place that indexes the channels without looking at
their length: the caller has to. -/
theorem nextReliableSeq_eq (hlt : ch.toNat < p.channels.length) :
    nextReliableSeq p ch = some (p.nextReliableSeq ch) := by
  have hc := List.getElem?_eq_getElem hlt
  simp only [nextReliableSeq, EnetRs.PeerEntry.nextReliableSeq, index, hc, Option.bind_eq_bind,
    Option.bind_some, store_of_lt hlt]
  rfl

/-- On the connection channel no vector is indexed, so the control commands need no
hypothesis. -/
theorem makeReliable_eq (hch : ch ≠ channelIdConnection → ch.toNat < p.channels.length)
    (cmdType extraFlags : U8) (nowMs : U32) (body : Bytes) :
    makeReliable p ch cmdType extraFlags nowMs body
      = some (p.makeReliable ch cmdType extraFlags nowMs body) := by
  have htake : takeSeq p ch = some (p.takeSeq ch) :=
    ite_eq_some (fun _ => rfl) fun hne => nextReliableSeq_eq (hch hne)
  simp only [makeReliable, htake, Option.bind_eq_bind, Option.bind_some]
  rfl

end PeerEntry

namespace HostTask

open EnetRs.HostTask (Accepted hdrOverhead ack)

/-- `HostTask::make_datagram`: the checksum is written over the connect id. -/
def makeDatagram (useChecksum : Bool) (p : PeerEntry) (cmds : List Bytes) (nowMs : U32) :
    Option Bytes :=
  let peerIdRaw : U16 := headerFlagSentTime
    ||| ((p.outgoingSessionId.setWidth 16 &&& 0x3) <<< headerSessionShift)
    ||| (p.outgoingPeerId &&& 0x0FFF)
  let hdr := be16 peerIdRaw ++ be16 (nowMs.setWidth 16)
  if useChecksum then do
    let buf := hdr ++ be32 p.connectId ++ cmds.flatten
    let ck ← crc32 buf
    copyInto buf hdr.length (hdr.length + 4) (be32 ck)
  else some (hdr ++ cmds.flatten)

/-- `HostTask::emit_by_key`. -/
def emitByKey (h : HostTask) (key : PeerKey) (cmds : List Bytes) (nowMs : U32) : Option HostTask :=
  if cmds.isEmpty then some h
  else
    match h.peer key with
    | none => some h
    | some p => do
        let datagram ← makeDatagram h.useChecksum p cmds nowMs
        return (h.setPeer key { p with lastSendTime := nowMs }).note (.sent p.addr cmds datagram)

/-- The loop of `HostTask::flush_batch`. -/
def flushLoop (key : PeerKey) (nowMs : U32) (mtu hdr : Nat) :
    HostTask → List Bytes → List Bytes → Nat → Option HostTask
  | h, [], batch, _ => emitByKey h key batch nowMs
  | h, cmd :: cmds, batch, sz =>
      if mtu < sz + cmd.length ∧ batch ≠ [] then do
        let h' ← emitByKey h key batch nowMs
        flushLoop key nowMs mtu hdr h' cmds [cmd] (hdr + cmd.length)
      else flushLoop key nowMs mtu hdr h cmds (batch ++ [cmd]) (sz + cmd.length)

/-- `HostTask::flush_batch`. -/
def flushBatch (h : HostTask) (key : PeerKey) (cmds : List Bytes) (nowMs : U32) :
    Option HostTask :=
  match h.peer key with
  | none => some h
  | some p =>
      flushLoop key nowMs p.mtu.toNat (hdrOverhead h.useChecksum) h cmds []
        (hdrOverhead h.useChecksum)

/-- `make_reliable` on the connection channel followed by `emit_by_key`. -/
def sendConnectionCmd (h : HostTask) (key : PeerKey) (cmdType : U8) (body : Bytes)
    (nowMs : U32) : Option HostTask :=
  match h.peer key with
  | none => some h
  | some p => do
      let (p', cmd) ← PeerEntry.makeReliable p channelIdConnection cmdType 0 nowMs body
      emitByKey (h.setPeer key p') key [cmd] nowMs

variable {h : HostTask} {key : PeerKey}

/-- The four bytes of the checksum have been pushed before they are written over. -/
theorem makeDatagram_eq (useChecksum : Bool) (p : PeerEntry) (cmds : List Bytes) (nowMs : U32) :
    makeDatagram useChecksum p cmds nowMs
      = some (EnetRs.HostTask.makeDatagram useChecksum p cmds nowMs) := by
  refine ite_eq_some (fun _ => ?_) fun _ => rfl
  simp only [crc32_eq, Option.bind_eq_bind, Option.bind_some]
  exact copyInto_middle rfl rfl

theorem emitByKey_eq (h : HostTask) (key : PeerKey) (cmds : List Bytes) (nowMs : U32) :
    emitByKey h key cmds nowMs = some (h.emitByKey key cmds nowMs) := by
  refine ite_eq_some (fun _ => rfl) fun _ => ?_
  cases h.peer key with
  | none => rfl
  | some p =>
      simp only [makeDatagram_eq, Option.bind_eq_bind, Option.bind_some]
      rfl

/-- The loop of `flush_batch`, by induction on the commands: it sums sizes and never
subtracts one. -/
theorem flushLoop_eq (key : PeerKey) (nowMs : U32) (mtu hdr : Nat) (cmds : List Bytes) :
    ∀ (h : HostTask) (batch : List Bytes) (sz : Nat),
      flushLoop key nowMs mtu hdr h cmds batch sz
        = some (EnetRs.HostTask.flushLoop key nowMs mtu hdr h cmds batch sz) := by
  induction cmds with
  | nil => exact fun h batch _ => emitByKey_eq h key batch nowMs
  | cons cmd cmds ih =>
      intro h batch sz
      refine ite_eq_some (fun _ => ?_) fun _ => ih h _ _
      rw [emitByKey_eq, Option.bind_eq_bind, Option.bind_some]
      exact ih _ _ _

theorem flushBatch_eq (h : HostTask) (key : PeerKey) (cmds : List Bytes) (nowMs : U32) :
    flushBatch h key cmds nowMs = some (h.flushBatch key cmds nowMs) := by
  unfold flushBatch EnetRs.HostTask.flushBatch
  cases h.peer key with
  | none => rfl
  | some p => exact flushLoop_eq key nowMs _ _ cmds h [] _

/-- A control command takes its number from the entry's own counter. -/
theorem sendConnectionCmd_eq (h : HostTask) (key : PeerKey) (cmdType : U8) (body : Bytes)
    (nowMs : U32) :
    sendConnectionCmd h key cmdType body nowMs
      = some (h.sendConnectionCmd key cmdType body nowMs) := by
  unfold sendConnectionCmd EnetRs.HostTask.sendConnectionCmd
  cases h.peer key with
  | none => rfl
  | some p =>
      simp only [PeerEntry.makeReliable_eq (p := p) (fun hne => absurd rfl hne), emitByKey_eq,
        Option.bind_eq_bind, Option.bind_some]

/-! ## §4. Commands. -/

/-- The entry and the VERIFY_CONNECT command `on_connect` makes for a slot. -/
def serverHandshake (h : HostTask) (slot : PeerKey) (connect : ConnectCmd) (hdr : CommandHeader)
    (src : SocketAddr) (nowMs : U32) : Option (PeerEntry × Bytes) := do
  let entry := h.serverEntry connect hdr src nowMs
  let (entry, verify) ← PeerEntry.makeReliable entry channelIdConnection cmdVerifyConnect 0 nowMs
    (h.verifyBody slot entry (EnetRs.HostTask.negotiateChannels connect))
  return ({ entry with connectSeq := entry.outgoingReliableSeq }, verify)

/-- `addr_map.insert(addr, key); peers[slot] = Some(entry)`. -/
def install (h : HostTask) (slot : PeerKey) (entry : PeerEntry) : Option HostTask := do
  let peers ← store h.peers slot (some entry)
  return { h with
    addrMap := Function.update h.addrMap entry.addr (some slot)
    peers := peers
    nextConn := h.nextConn + 1 }

/-- `HostTask::on_connect`. -/
def onConnect (h : HostTask) (connect : ConnectCmd) (hdr : CommandHeader)
    (sentTime : Option U16) (src : SocketAddr) (nowMs : U32) : Option HostTask :=
  let h := h.evictAddr src
  match h.allocSlot with
  | none => some (h.sendRawDisconnect connect src nowMs)
  | some slot => do
      let (entry, verify) ← serverHandshake h slot connect hdr src nowMs
      let ackOpt := sentTime.map fun st => ack channelIdConnection hdr.reliableSeq st
      let h' ← install h slot entry
      emitByKey h' slot (ackOpt.toList ++ [verify]) nowMs

/-- CMD_DISCONNECT for a resolved peer. -/
def onDisconnect (h : HostTask) (key : PeerKey) (hdr : CommandHeader) (sentTime : Option U16)
    (data : U32) (nowMs : U32) : Option HostTask :=
  if (h.peer key).map (·.state) = some .acknowledgingConnect then some h
  else do
    let h ← match hdr.hasAckFlag, sentTime with
      | true, some st => emitByKey h key [ack hdr.channelId hdr.reliableSeq st] nowMs
      | _, _ => some h
    return (h.notifyDisconnect key (some data)).removePeer key

/-- `if let Some(p) = self.peer_mut(key) { … }`. -/
def updatePeer (h : HostTask) (key : PeerKey) (f : PeerEntry → Option PeerEntry) :
    Option HostTask :=
  match h.peer key with
  | some p => do
      let p' ← f p
      return h.setPeer key p'
  | none => some h

/-- The `match cmd_type` of `on_command`. -/
def dispatch (h : HostTask) (key : Option PeerKey) (sentTime : Option U16) (cmd : Command)
    (src : SocketAddr) (nowMs : U32) : Option HostTask :=
  let ty := cmd.header.commandType
  let ch := cmd.header.channelId
  let seq := cmd.header.reliableSeq
  if ty = cmdConnect then
    match cmd.body with
    | .connect c => onConnect h c cmd.header sentTime src nowMs
    | _ => some h
  else if ty = cmdVerifyConnect then
    match key, cmd.body with
    | some k, .verifyConnect vc => some (h.onVerifyConnect k vc cmd.header nowMs)
    | _, _ => some h
  else if ty = cmdAcknowledge then
    match key, cmd.body with
    | some k, .acknowledge a => some (h.onAck k ch a nowMs)
    | _, _ => some h
  else if ty = cmdDisconnect then
    match key, cmd.body with
    | some k, .disconnect data => onDisconnect h k cmd.header sentTime data nowMs
    | _, _ => some h
  else if ty = cmdPing then
    match key with
    | some k => some (h.updatePeer k fun p => p.onPing nowMs)
    | none => some h
  else if ty = cmdSendReliable then
    match key, cmd.body with
    | some k, .sendReliable data => do
        let h' ← updatePeer h k fun p => PeerEntry.onSendReliable p ch seq data nowMs
        return h'.noteTake h k ch seq (.whole data)
    | _, _ => some h
  else if ty = cmdSendUnreliable then
    match key, cmd.body with
    | some k, .sendUnreliable useq data =>
        updatePeer h k fun p => PeerEntry.onSendUnreliable p ch seq useq data nowMs
    | _, _ => some h
  else if ty = cmdSendFragment then
    match key, cmd.body with
    | some k, .sendFragment sf => do
        let h' ← updatePeer h k fun p => PeerEntry.onFragment p ch sf true nowMs
        return h'.noteTake h k ch seq (.fragment sf)
    | _, _ => some h
  else if ty = cmdSendUnreliableFragment then
    match key, cmd.body with
    | some k, .sendUnreliableFragment sf =>
        updatePeer h k fun p => PeerEntry.onFragment p ch sf false nowMs
    | _, _ => some h
  else if ty = cmdSendUnsequenced then
    match key, cmd.body with
    | some k, .sendUnsequenced group data =>
        updatePeer h k fun p => PeerEntry.onSendUnsequenced p group data nowMs
    | _, _ => some h
  else if ty = cmdBandwidthLimit then
    match key, cmd.body with
    | some k, .bandwidthLimit bl => some (h.updatePeer k fun p => p.onBandwidthLimit bl)
    | _, _ => some h
  else if ty = cmdThrottleConfigure then
    match key, cmd.body with
    | some k, .throttleConfigure tc => some (h.updatePeer k fun p => p.onThrottleConfigure tc)
    | _, _ => some h
  else some h

/-- The slot that is written has just been found free, so it lies in the vector; the
VERIFY_CONNECT takes its number from the connection channel. -/
theorem onConnect_eq (h : HostTask) (connect : ConnectCmd) (hdr : CommandHeader)
    (sentTime : Option U16) (src : SocketAddr) (nowMs : U32) :
    onConnect h connect hdr sentTime src nowMs
      = some (h.onConnect connect hdr sentTime src nowMs) := by
  simp only [onConnect, EnetRs.HostTask.onConnect]
  generalize h.evictAddr src = g
  cases hs : g.allocSlot with
  | none => rfl
  | some slot =>
      have hmake : serverHandshake g slot connect hdr src nowMs
          = some (g.serverHandshake slot connect hdr src nowMs) := by
        rw [serverHandshake, PeerEntry.makeReliable_eq fun hne => absurd rfl hne]
        rfl
      have hinstall : ∀ entry, install g slot entry = some (g.install slot entry) := by
        intro entry
        rw [install, store_of_lt (EnetRs.HostTask.allocSlot_lt hs)]
        rfl
      simp only [hmake, hinstall, emitByKey_eq, Option.bind_eq_bind, Option.bind_some]

/-- DISCONNECT sends at most its ACK and removes the entry by its key, which indexes
nothing. -/
theorem onDisconnect_eq (h : HostTask) (key : PeerKey) (hdr : CommandHeader)
    (sentTime : Option U16) (data : U32) (nowMs : U32) :
    onDisconnect h key hdr sentTime data nowMs
      = some (h.onDisconnect key hdr sentTime data nowMs) := by
  refine ite_eq_some (fun _ => rfl) fun _ => ?_
  cases hdr.hasAckFlag with
  | false => rfl
  | true =>
      cases sentTime with
      | none => rfl
      | some st =>
          simp only [emitByKey_eq, Option.bind_eq_bind, Option.bind_some]
          rfl

/-- A handler that works on one entry is safe if it is on the entry that is found. -/
theorem updatePeer_eq {g : PeerEntry → Option PeerEntry} {f : PeerEntry → PeerEntry}
    (hg : ∀ p, h.peer key = some p → g p = some (f p)) :
    updatePeer h key g = some (h.updatePeer key f) := by
  unfold updatePeer EnetRs.HostTask.updatePeer
  cases hp : h.peer key with
  | none => rfl
  | some p =>
      simp only [hg p hp, Option.bind_eq_bind, Option.bind_some]
      rfl

/-- Every entry's unsequenced window has its 32 words. -/
def AllWords (h : HostTask) : Prop :=
  ∀ k p, h.peer k = some p → p.unsequencedWindow.window.length = 32

/-- **One command**: whatever it says, no access of its handler is out of range.  Of
the state only the 32 words of the unsequenced windows are used. -/
theorem dispatch_eq (hw : AllWords h) (key : Option PeerKey) (sentTime : Option U16)
    (cmd : Command) (src : SocketAddr) (nowMs : U32) :
    dispatch h key sentTime cmd src nowMs = some (h.dispatch key sentTime cmd src nowMs) := by
  obtain ⟨hdr, body⟩ := cmd
  refine ite_eq_some (fun _ => ?connect) fun _ => ite_eq_some (fun _ => ?verify) fun _ =>
    ite_eq_some (fun _ => ?ack) fun _ => ite_eq_some (fun _ => ?disconnect) fun _ =>
    ite_eq_some (fun _ => ?ping) fun _ => ite_eq_some (fun _ => ?reliable) fun _ =>
    ite_eq_some (fun _ => ?unreliable) fun _ => ite_eq_some (fun _ => ?fragment) fun _ =>
    ite_eq_some (fun _ => ?unreliableFragment) fun _ =>
    ite_eq_some (fun _ => ?unsequenced) fun _ => ite_eq_some (fun _ => ?bandwidth) fun _ =>
    ite_eq_some (fun _ => ?throttle) fun _ => rfl
  case connect =>
    cases body with
    | connect c => exact onConnect_eq h c hdr sentTime src nowMs
    | _ => rfl
  -- without a resolved peer the command is dropped
  all_goals cases key with
    | none => rfl
    | some k => ?_
  case ping => rfl
  case verify | ack | bandwidth | throttle => cases body <;> rfl
  case disconnect =>
    cases body with
    | disconnect data => exact onDisconnect_eq h k hdr sentTime data nowMs
    | _ => rfl
  case reliable =>
    cases body with
    | sendReliable data =>
        show (updatePeer h k _).bind _ = _
        rw [updatePeer_eq fun p _ => PeerEntry.onSendReliable_eq p _ _ _ _]
        rfl
    | _ => rfl
  case unreliable =>
    cases body with
    | sendUnreliable useq data =>
        exact updatePeer_eq fun p _ => PeerEntry.onSendUnreliable_eq p _ _ _ _ _
    | _ => rfl
  case fragment =>
    cases body with
    | sendFragment sf =>
        show (updatePeer h k _).bind _ = _
        rw [updatePeer_eq fun p _ => PeerEntry.onFragment_eq p _ _ _ _]
        rfl
    | _ => rfl
  case unreliableFragment =>
    cases body with
    | sendUnreliableFragment sf => exact updatePeer_eq fun p _ => PeerEntry.onFragment_eq p _ _ _ _
    | _ => rfl
  case unsequenced =>
    cases body with
    | sendUnsequenced group data =>
        exact updatePeer_eq fun p hp => PeerEntry.onSendUnsequenced_eq (hw k p hp) _ _ _
    | _ => rfl

/-! ## §5. Datagrams in. -/

/-- `HostTask::on_command`. -/
def onCommand (h : HostTask) (key : Option PeerKey) (sentTime : Option U16) (cmd : Command)
    (src : SocketAddr) (nowMs : U32) (pendingAcks : List Bytes) :
    Option (HostTask × List Bytes) := do
  let h' ← dispatch h key sentTime cmd src nowMs
  return (h', pendingAcks ++ EnetRs.HostTask.ackFor key sentTime cmd.header)

/-- The command loop of `on_datagram`. -/
def onCommands (key : Option PeerKey) (sentTime : Option U16) (src : SocketAddr) (nowMs : U32) :
    HostTask → List Command → List Bytes → Option (HostTask × List Bytes)
  | h, [], acks => some (h, acks)
  | h, cmd :: cmds, acks => do
      let (h', acks') ← onCommand h key sentTime cmd src nowMs acks
      onCommands key sentTime src nowMs h' cmds acks'

/-- The checksum check: `some none` if the datagram fails. -/
def checkedPayload (h : HostTask) (raw slice : Bytes) (key : Option PeerKey) :
    Option (Option Bytes) :=
  if h.useChecksum then
    if slice.length < 4 then some none
    else do
      let stored ← readU32 slice 0
      let connectId := ((key.bind h.peer).map (·.connectId)).getD 0
      let hdrLen ← sub raw.length slice.length
      let front ← sliceTo raw hdrLen
      let rest ← sliceFrom slice 4
      let crc ← crc32 (front ++ be32 connectId ++ rest)
      if crc ≠ stored then return none
      else
        let rest ← sliceFrom slice 4
        return some rest
  else some (some slice)

/-- Everything `on_datagram` does before its command loop. -/
def acceptDatagram (h : HostTask) (raw : Bytes) (src : SocketAddr) : Option (Option Accepted) := do
  match ← ProtocolHeader.parse raw with
  | none => return none
  | some (hdr, slice) =>
      if hdr.isCompressed then return none
      else
        let key := h.resolveKey hdr src
        if !h.sessionOk hdr key slice then return none
        else
          match ← checkedPayload h raw slice key with
          | none => return none
          | some payload =>
              let cmds ← parseCommands payload
              return some { key := key, sentTime := hdr.sentTime, cmds := cmds }

/-- The batch of ACKs at the end of `on_datagram`. -/
def flushAcks (h : HostTask) (key : Option PeerKey) (src : SocketAddr) (acks : List Bytes)
    (nowMs : U32) : Option HostTask :=
  if acks.isEmpty then some h
  else
    match key.or (h.addrMap src) with
    | some k => flushBatch h k acks nowMs
    | none => some h

/-- `HostTask::on_datagram`. -/
def onDatagram (h : HostTask) (raw : Bytes) (src : SocketAddr) (nowMs : U32) :
    Option HostTask := do
  match ← acceptDatagram h raw src with
  | none => return h
  | some a =>
      let (h', acks) ← onCommands a.key a.sentTime src nowMs h a.cmds []
      flushAcks h' a.key src acks nowMs

/-- The header's length is found by a subtraction; it does not underflow because what
is left of the datagram is no longer than the datagram. -/
theorem checkedPayload_eq {raw slice : Bytes} (hle : slice.length ≤ raw.length)
    (key : Option PeerKey) :
    checkedPayload h raw slice key = some (h.checkedPayload raw slice key) := by
  refine ite_eq_some (fun _ => ite_eq_some (fun _ => rfl) fun hlen => ?_) fun _ => rfl
  simp (disch := omega) only [readU32_eq, sub_of_le, sliceTo_of_le, sliceFrom_of_le, crc32_eq,
    Option.bind_eq_bind, Option.bind_some]
  exact ite_eq_some (fun _ => rfl) fun _ => rfl

/-- The header is taken off the front, so what is left is no longer than what came. -/
theorem length_le_of_parse {raw slice : Bytes} {hdr : ProtocolHeader}
    (hparse : EnetRs.ProtocolHeader.parse raw = some (hdr, slice)) :
    slice.length ≤ raw.length := by
  unfold EnetRs.ProtocolHeader.parse at hparse
  split at hparse
  · cases hparse
  · simp only at hparse
    split at hparse
    · split at hparse
      · cases hparse
      · cases hparse
        simp only [List.length_drop]
        omega
    · cases hparse
      simp only [List.length_drop]
      omega

/-- What decides whether a datagram is read at all: each of its parts is safe, and the
subtraction between them is by `length_le_of_parse`. -/
theorem acceptDatagram_eq (h : HostTask) (raw : Bytes) (src : SocketAddr) :
    acceptDatagram h raw src = some (h.acceptDatagram raw src) := by
  unfold acceptDatagram EnetRs.HostTask.acceptDatagram
  rw [ProtocolHeader.parse_eq]
  cases hparse : EnetRs.ProtocolHeader.parse raw with
  | none => rfl
  | some parsed =>
      obtain ⟨hdr, slice⟩ := parsed
      refine ite_eq_some (fun _ => rfl) fun _ => ite_eq_some (fun _ => rfl) fun _ => ?_
      simp only [checkedPayload_eq (length_le_of_parse hparse), parseCommands_eq,
        Option.bind_eq_bind, Option.bind_some]
      cases h.checkedPayload raw slice (h.resolveKey hdr src) <;> rfl

theorem flushAcks_eq (h : HostTask) (key : Option PeerKey) (src : SocketAddr) (acks : List Bytes)
    (nowMs : U32) : flushAcks h key src acks nowMs = some (h.flushAcks key src acks nowMs) := by
  refine ite_eq_some (fun _ => rfl) fun _ => ?_
  cases key.or (h.addrMap src) with
  | none => rfl
  | some k => exact flushBatch_eq h k acks nowMs

/-- The words of a window are written, never added or taken away, so every execution
keeps them: an arriving unsequenced packet is the only operation that writes any. -/
theorem AllWords.exec {nowMs : U32} {C : Cond} {h' : HostTask} (e : Exec nowMs C h h')
    (hw : AllWords h) : AllWords h' := by
  refine e.entries (I := fun p => p.unsequencedWindow.window.length = 32) ?_ ?_ hw
  · intro h slot entry hnew
    rcases hnew with ⟨addr, count, data, reply, id, rfl⟩ | ⟨c, hdr, src, rfl⟩ <;> rfl
  · intro h k p o _ hp _ _
    by_cases ho : ∃ group data, o = .recvUnsequenced group data
    · obtain ⟨group, data, rfl⟩ := ho
      have hkept := (checkAndSet_eq hp group).2
      simp only [PeerOp.apply, EnetRs.PeerEntry.onSendUnsequenced]
      split <;> exact hkept
    · rw [PeerOp.apply_unsequencedWindow nowMs p fun group data heq => ho ⟨group, data, heq⟩]
      exact hp

/-- The command loop, by induction on the commands; each of them leaves the windows
with the 32 words that the next one needs. -/
theorem onCommands_eq (key : Option PeerKey) (sentTime : Option U16) (src : SocketAddr)
    (nowMs : U32) (cmds : List Command) :
    ∀ (h : HostTask) (acks : List Bytes), AllWords h →
      onCommands key sentTime src nowMs h cmds acks
        = some (EnetRs.HostTask.onCommands key sentTime src nowMs h cmds acks) := by
  induction cmds with
  | nil => exact fun _ _ _ => rfl
  | cons cmd cmds ih =>
      intro h acks hw
      simp only [onCommands, onCommand, dispatch_eq hw, Option.bind_eq_bind, Option.bind_some,
        Option.pure_def]
      exact ih _ _ (hw.exec (EnetRs.HostTask.dispatch_exec nowMs h key sentTime cmd src))

/-- **A datagram**: whatever its bytes and its source are, nothing of it is indexed or
sliced out of range. -/
theorem onDatagram_eq (hw : AllWords h) (raw : Bytes) (src : SocketAddr) (nowMs : U32) :
    onDatagram h raw src nowMs = some (h.onDatagram raw src nowMs) := by
  unfold onDatagram EnetRs.HostTask.onDatagram
  rw [acceptDatagram_eq]
  cases h.acceptDatagram raw src with
  | none => rfl
  | some a =>
      simp only [onCommands_eq a.key a.sentTime src nowMs a.cmds h [] hw, flushAcks_eq,
        Option.bind_eq_bind, Option.bind_some]

end HostTask

end EnetRs.Checked
