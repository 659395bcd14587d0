/-
  EnetRs.Exchange.Checksum — which seed sender and receiver use.

  `make_datagram` seeds the checksum with the connect id of the sending entry;
  `on_datagram` seeds it with the connect id of the entry the header leads to,
  or with 0 if there is none.  A CONNECT reaches a server that has no entry
  yet, so the two differ (`connect_fails_checksum`); and the bare DISCONNECT
  of `send_raw_disconnect` carries no checksum at all.

  Main results:
    * `passesChecksum_makeDatagram`, `passesChecksum_rawDisconnect` — when a
      datagram passes.
    * `checksum_agrees_iff` — the two cases cover everything a host sends.
    * `burst_detected` — damage within four consecutive bytes of the command
      region does not go unnoticed.
-/
import EnetRs.Exchange.Datagram
import EnetRs.Protocol.Crc
import EnetRs.Host.Steps

namespace EnetRs

open MachineInt

namespace HostTask

/-! ## §1. The receiver's test. -/

/-- The datagram passes the checksum test of `on_datagram`. -/
def passesChecksum (h : HostTask) (raw : Bytes) (src : SocketAddr) : Bool :=
  match ProtocolHeader.parse raw with
  | none => false
  | some (hdr, slice) => (h.checkedPayload raw slice (h.resolveKey hdr src)).isSome

/-- A datagram built for the entry `p` passes exactly where the seed is the
connect id of `p`. -/
theorem passesChecksum_makeDatagram (g : HostTask) (hck : g.useChecksum = true) (p : PeerEntry)
    (cmds : List Bytes) (nowMs : U32) (src : SocketAddr) :
    g.passesChecksum (makeDatagram true p cmds nowMs) src = true
      ↔ g.seedOf (g.resolveKey (p.datagramHeader nowMs) src) = p.connectId := by
  rw [passesChecksum, parse_makeDatagram]
  simp only [checkedPayload_makeDatagram _ hck, true_and, ne_eq, crc32_word_inj]
  split
  · next hne => simp [hne]
  · next heq => simpa using heq

/-- The datagram of `send_raw_disconnect`. -/
def rawDisconnect (outgoingPeerId : U16) (nowMs : U32) : Bytes :=
  be16 (headerFlagSentTime ||| (outgoingPeerId &&& 0x0FFF)) ++ be16 (nowMs.setWidth 16)
    ++ encodeCommand cmdDisconnect 0 channelIdConnection 0 (be32 0)

/-- The header of that datagram. -/
def rawHeader (outgoingPeerId : U16) (nowMs : U32) : ProtocolHeader :=
  { peerIdRaw := headerFlagSentTime ||| (outgoingPeerId &&& 0x0FFF)
    sentTime := some (nowMs.setWidth 16) }

theorem parse_rawDisconnect (outgoingPeerId : U16) (nowMs : U32) :
    ProtocolHeader.parse (rawDisconnect outgoingPeerId nowMs)
      = some (rawHeader outgoingPeerId nowMs, [0x04, 0xFF, 0, 0, 0, 0, 0, 0]) := by
  have hflag : (headerFlagSentTime ||| (outgoingPeerId &&& 0x0FFF)) &&& headerFlagSentTime
      = headerFlagSentTime := by
    ext i hi
    simp only [headerFlagSentTime]
    interval_cases i <;> simp
  have hset : ((headerFlagSentTime ||| (outgoingPeerId &&& 0x0FFF)) &&& headerFlagSentTime != 0)
      = true := by
    rw [hflag]
    rfl
  simp only [ProtocolHeader.parse, rawDisconnect, be16, List.cons_append, List.nil_append, u16At,
    u8At, List.getD_cons_zero, List.getD_cons_succ, be16_join, List.drop_succ_cons, List.drop_zero,
    hset, if_true, List.length_cons]
  rw [if_neg (by omega), if_neg (by omega)]
  rfl

/-- The receiver takes the command's own first bytes for the checksum. -/
theorem passesChecksum_rawDisconnect (g : HostTask) (hck : g.useChecksum = true)
    (outgoingPeerId : U16) (nowMs : U32) (src : SocketAddr) :
    g.passesChecksum (rawDisconnect outgoingPeerId nowMs) src = true
      ↔ crc32 (be16 (headerFlagSentTime ||| (outgoingPeerId &&& 0x0FFF)) ++ be16 (nowMs.setWidth 16)
          ++ be32 (g.seedOf (g.resolveKey (rawHeader outgoingPeerId nowMs) src)) ++ be32 0)
        = 0x04FF0000 := by
  rw [passesChecksum, parse_rawDisconnect]
  have hlen : (rawDisconnect outgoingPeerId nowMs).length = 12 := rfl
  have hhead : (rawDisconnect outgoingPeerId nowMs).take 4
      = be16 (headerFlagSentTime ||| (outgoingPeerId &&& 0x0FFF)) ++ be16 (nowMs.setWidth 16) := rfl
  have hstored : u32At [0x04, 0xFF, 0, 0, 0, 0, 0, 0] 0 = 0x04FF0000 := by decide
  have hrest : List.drop 4 [0x04, 0xFF, 0, 0, 0, 0, 0, (0 : U8)] = be32 0 := by decide
  simp only [checkedPayload, hck, if_true, hlen, hstored, hrest, List.length_cons, List.length_nil,
    Nat.reduceAdd, Nat.reduceSub, Nat.reduceLT, if_false, hhead]
  change Option.isSome (if crc32 (_ ++ be32 (g.seedOf _) ++ _) ≠ _ then _ else _) = true ↔ _
  split
  · next hne => simpa using hne
  · next heq => simpa using heq

/-! ## §2. Everything a host sends. -/

/-- What a `sent` event of a host with this checksum setting looks like. -/
def SentShape (useChecksum : Bool) (dest : SocketAddr) (cmds : List Bytes) (datagram : Bytes) :
    Prop :=
  (∃ (p : PeerEntry) (nowMs : U32), p.addr = dest ∧ datagram = makeDatagram useChecksum p cmds nowMs)
    ∨ ∃ outgoingPeerId nowMs, datagram = rawDisconnect outgoingPeerId nowMs

theorem Reachable.sent_shape {h : HostTask} (hr : h.Reachable) (dest : SocketAddr)
    (cmds : List Bytes) (datagram : Bytes) (hsent : .sent dest cmds datagram ∈ h.trace) :
    SentShape h.useChecksum dest cmds datagram := by
  let Inv : HostTask → Prop := fun h => ∀ dest cmds datagram, .sent dest cmds datagram ∈ h.trace →
    SentShape h.useChecksum dest cmds datagram
  suffices hinv : Inv h from hinv dest cmds datagram hsent
  refine hr.invariant Inv (fun _ _ _ _ _ _ _ _ hmem => nomatch hmem) ?_
  -- by induction over the changes of the run: only two of them emit a datagram
  intro nowMs h l hi hg dest cmds datagram hmem
  cases l with
  | op k o =>
      obtain ⟨p, hp, -⟩ := hg
      have hck : ((Label.op k o).apply nowMs h).useChecksum = h.useChecksum := by
        rw [Label.apply_op hp]
        rfl
      rw [Label.trace_apply_op hp] at hmem
      rw [hck]
      rcases List.mem_append.mp hmem with hold | hnew
      · exact hi dest cmds datagram hold
      · cases o with
        | emit cmds' =>
            -- `emit_by_key`
            obtain ⟨rfl, rfl, rfl⟩ := Event.sent.inj (List.mem_singleton.mp hnew)
            exact .inl ⟨p, nowMs, rfl, rfl⟩
        | verify hostMtu vc hdr =>
            simp only [PeerOp.events] at hnew
            split at hnew <;> simp at hnew
        | _ => simp [PeerOp.events] at hnew
  | raw connect addr =>
      rcases List.mem_append.mp (show _ ∈ h.trace ++ [_] from hmem) with hold | hnew
      · exact hi dest cmds datagram hold
      -- `send_raw_disconnect`
      · obtain ⟨-, -, rfl⟩ := Event.sent.inj (List.mem_singleton.mp hnew)
        exact .inr ⟨connect.outgoingPeerId, nowMs, rfl⟩
  | remove k => exact hi dest cmds datagram hmem
  | install slot entry => exact hi dest cmds datagram hmem
  | epoch => exact hi dest cmds datagram hmem
  | appAccept => exact hi dest cmds datagram hmem
  | appClose => exact hi dest cmds datagram hmem

/-- **Checksum seed agreement.**  Whatever a host with checksums sends is a
datagram of `make_datagram` or of `send_raw_disconnect`.  The first kind passes
the receiver's test exactly if the header leads there to an entry with the
sender's connect id, or to none while that id is 0; the second exactly if the
CRC happens to be the first bytes of the command. -/
theorem checksum_agrees_iff (h g : HostTask) (hr : h.Reachable) (hh : h.useChecksum = true)
    (hg : g.useChecksum = true) (dest : SocketAddr) (cmds : List Bytes) (datagram : Bytes)
    (hsent : .sent dest cmds datagram ∈ h.trace) (src : SocketAddr) :
    (∃ (p : PeerEntry) (nowMs : U32),
        p.addr = dest ∧ datagram = makeDatagram true p cmds nowMs
          ∧ (g.passesChecksum datagram src = true
            ↔ match (g.resolveKey (p.datagramHeader nowMs) src).bind g.peer with
              | some q => q.connectId = p.connectId
              | none => p.connectId = 0))
      ∨ ∃ (outgoingPeerId : U16) (nowMs : U32),
        datagram = rawDisconnect outgoingPeerId nowMs
          ∧ (g.passesChecksum datagram src = true
            ↔ crc32 (be16 (headerFlagSentTime ||| (outgoingPeerId &&& 0x0FFF))
                ++ be16 (nowMs.setWidth 16)
                ++ be32 (g.seedOf (g.resolveKey (rawHeader outgoingPeerId nowMs) src)) ++ be32 0)
              = 0x04FF0000) := by
  have hshape := hr.sent_shape dest cmds datagram hsent
  rw [hh] at hshape
  rcases hshape with ⟨p, nowMs, haddr, rfl⟩ | ⟨peerId, nowMs, rfl⟩
  · refine .inl ⟨p, nowMs, haddr, rfl, ?_⟩
    rw [passesChecksum_makeDatagram g hg, seedOf]
    cases (g.resolveKey (p.datagramHeader nowMs) src).bind g.peer with
    | none => exact eq_comm
    | some q => exact Iff.rfl
  · exact .inr ⟨peerId, nowMs, rfl, passesChecksum_rawDisconnect g hg peerId nowMs src⟩

/-- A client with checksums that has just asked for a connection to bob. -/
def connecting (connectId : U32) : List Timed := [(5, .connect bob 2 0 0 connectId)]

/-- The datagrams a run has sent. -/
def datagrams (h : HostTask) : List (SocketAddr × Bytes) :=
  h.trace.filterMap fun
    | .sent dest _ datagram => some (dest, datagram)
    | _ => none

/-- What a server without entries makes of the CONNECT of a client: whether it passes
the test, and that it was built by an entry whose connect id is 0 exactly if so. -/
def ConnectJudged (connectId : U32) (passes : Bool) : Prop :=
  ∃ h : HostTask, (HostTask.new 1 1 true 0 0).run (connecting connectId) = some h
    ∧ ∃ dest cmds datagram, .sent dest cmds datagram ∈ h.trace
      ∧ (bind 4 true 0 0).passesChecksum datagram alice = passes
      ∧ ∃ (p : PeerEntry) (nowMs : U32), p.addr = dest ∧ datagram = makeDatagram true p cmds nowMs
        ∧ ((bind 4 true 0 0).resolveKey (p.datagramHeader nowMs) alice).bind
            (bind 4 true 0 0).peer = none
        ∧ (p.connectId = 0 ↔ passes = true)

/-- With connect id 77 the CONNECT fails the test, with connect id 0 it passes. -/
theorem checksum_agrees_iff_connecting : ConnectJudged 77 false ∧ ConnectJudged 0 true := by
  have hjudged : ∀ (connectId : U32) (passes : Bool),
      ((HostTask.new 1 1 true 0 0).run (connecting connectId)).any (fun h => h.useChecksum
        && (datagrams h).any fun d => decide (d.2.length ≠ 12)
          && (bind 4 true 0 0).passesChecksum d.2 alice == passes) = true →
      ConnectJudged connectId passes := by
    intro connectId passes hrun
    obtain ⟨h, hh, hrest⟩ := (Option.any_eq_true _ _).mp hrun
    simp only [Bool.and_eq_true, List.any_eq_true, decide_eq_true_eq, beq_iff_eq] at hrest
    obtain ⟨hck, d, hd, hlong, hpasses⟩ := hrest
    obtain ⟨e, he, hdatagram⟩ := List.mem_filterMap.mp hd
    have hr : h.Reachable := ⟨1, 1, true, 0, 0, _, hh⟩
    cases e with
    | sent dest cmds datagram =>
        cases hdatagram
        refine ⟨h, hh, dest, cmds, datagram, he, hpasses, ?_⟩
        rcases checksum_agrees_iff h (bind 4 true 0 0) hr hck rfl dest cmds datagram he alice with
          ⟨p, nowMs, haddr, heq, hiff⟩ | ⟨peerId, nowMs, heq, -⟩
        · -- the server has no entry under any key
          have hnone : ((bind 4 true 0 0).resolveKey (p.datagramHeader nowMs) alice).bind
              (bind 4 true 0 0).peer = none := by simp [bind]
          rw [hnone] at hiff
          exact ⟨p, nowMs, haddr, heq, hnone, hiff.symm.trans (by rw [hpasses])⟩
        · -- the bare DISCONNECT has twelve bytes
          exact absurd (heq ▸ rfl) hlong
    | _ => cases hdatagram
  exact ⟨hjudged 77 false (by decide +kernel), hjudged 0 true (by decide +kernel)⟩

/-- **A CONNECT fails the test** at a server that has no entry yet; and the
DISCONNECT of a full server (here one without slots, asked by a client whose
connect id is 0) fails it at the client. -/
theorem connect_fails_checksum :
    (((HostTask.new 1 1 true 0 0).run (connecting 77)).any fun h =>
        (datagrams h).map (fun d => (bind 4 true 0 0).passesChecksum d.2 alice) == [false]) = true
      ∧ (((HostTask.new 1 1 true 0 0).run (connecting 0)).any fun h =>
        (datagrams h).any fun d =>
          (((bind 0 true 0 0).run [(6, .datagram d.2 alice)]).any fun g =>
            (datagrams g).map (fun d' => (d'.1 == alice, h.passesChecksum d'.2 bob))
              == [(true, false)])) = true := by
  decide +kernel

/-! ## §3. Damaged datagrams. -/

section Damaged

variable {h : HostTask} {raw slice : Bytes} {hdr : ProtocolHeader} {src : SocketAddr}

/-- What the test compares. -/
theorem passesChecksum_iff (hck : h.useChecksum = true)
    (hparse : ProtocolHeader.parse raw = some (hdr, slice)) :
    h.passesChecksum raw src = true ↔ 4 ≤ slice.length
      ∧ crc32 (hdr.write ++ be32 (h.seedOf (h.resolveKey hdr src)) ++ slice.drop 4)
        = u32At slice 0 := by
  have hhead : raw.take (raw.length - slice.length) = hdr.write := by
    rw [ProtocolHeader.write_of_parse hparse, List.length_append, Nat.add_sub_cancel]
    exact List.take_left
  simp only [passesChecksum, hparse, checkedPayload, hck, if_true, hhead]
  by_cases hshort : slice.length < 4
  · rw [if_pos hshort]
    exact iff_of_false Bool.false_ne_true fun hpass => absurd hpass.1 (Nat.not_le_of_lt hshort)
  · rw [if_neg hshort, and_iff_right (Nat.le_of_not_lt hshort)]
    show Option.isSome (if crc32 (_ ++ be32 (h.seedOf _) ++ _) ≠ _ then _ else _) = true ↔ _
    split
    · next hne => exact iff_of_false Bool.false_ne_true hne
    · next heq => exact iff_of_true rfl (not_not.mp heq)

/-- A datagram that fails the test changes nothing. -/
theorem onDatagram_of_fails (hfail : h.passesChecksum raw src = false) (nowMs : U32) :
    h.onDatagram raw src nowMs = h := by
  have hnone : h.acceptDatagram raw src = none := by
    unfold passesChecksum at hfail
    unfold acceptDatagram
    cases hparse : ProtocolHeader.parse raw with
    | none => rfl
    | some parsed =>
      rw [hparse] at hfail
      have hfails := Option.isNone_iff_eq_none.mp (Option.isSome_eq_false_iff.mp hfail)
      simp only [hfails, ite_self]
  simp [onDatagram, hnone]

end Damaged

/-- **Bursts are detected.**  Two different datagrams of one length, with the
same header and the same checksum field, whose command regions agree except
within four consecutive bytes: whatever the state of the host, at most one of
them passes the test, and the other one changes nothing. -/
theorem burst_detected (h : HostTask) (hck : h.useChecksum = true) (src : SocketAddr) (nowMs : U32)
    {raw raw' slice slice' : Bytes} {hdr : ProtocolHeader}
    (hparse : ProtocolHeader.parse raw = some (hdr, slice))
    (hparse' : ProtocolHeader.parse raw' = some (hdr, slice')) (hne : raw ≠ raw')
    (hlen : raw.length = raw'.length) (hfield : slice.take 4 = slice'.take 4) (i : Nat)
    (hburst : ∀ j, j < i ∨ i + 4 ≤ j → (slice.drop 4)[j]? = (slice'.drop 4)[j]?) :
    ¬ (h.passesChecksum raw src = true ∧ h.passesChecksum raw' src = true)
      ∧ (h.onDatagram raw src nowMs = h ∨ h.onDatagram raw' src nowMs = h) := by
  have hnot : ¬ (h.passesChecksum raw src = true ∧ h.passesChecksum raw' src = true) := by
    intro hboth
    obtain ⟨hlong, hcrc⟩ := (passesChecksum_iff hck hparse).mp hboth.1
    obtain ⟨hlong', hcrc'⟩ := (passesChecksum_iff hck hparse').mp hboth.2
    have hraw := ProtocolHeader.write_of_parse hparse
    have hraw' := ProtocolHeader.write_of_parse hparse'
    have hslices : slice.length = slice'.length := by
      rw [hraw, hraw', List.length_append, List.length_append] at hlen
      omega
    -- the two fields are one, and so are the two checksums
    have hstored : u32At slice 0 = u32At slice' 0 := by
      have hget : ∀ j, j < 4 → slice.getD j 0 = slice'.getD j 0 := by
        intro j hj
        have htake := congrArg (fun bs : Bytes => bs[j]?) hfield
        simp only [List.getElem?_take, if_pos hj] at htake
        rw [List.getD_eq_getElem?_getD, List.getD_eq_getElem?_getD, htake]
      simp only [u32At, u8At]
      rw [hget 0 (by omega), hget (0 + 1) (by omega), hget (0 + 2) (by omega), hget (0 + 3) (by omega)]
    -- what is before the burst, the burst, what is behind it
    have hbefore : (slice.drop 4).take i = (slice'.drop 4).take i := by
      apply List.ext_getElem?
      intro j
      rw [List.getElem?_take, List.getElem?_take]
      split
      · next hj => exact hburst j (.inl hj)
      · rfl
    have hbehind : (slice.drop 4).drop (i + 4) = (slice'.drop 4).drop (i + 4) := by
      apply List.ext_getElem?
      intro j
      have hj := hburst (i + 4 + j) (.inr (by omega))
      simp only [List.getElem?_drop] at hj ⊢
      exact hj
    have hcut : ∀ region : Bytes,
        region = region.take i ++ (region.drop i).take 4 ++ region.drop (i + 4) := by
      intro region
      rw [← List.drop_drop, List.append_assoc, List.take_append_drop, List.take_append_drop]
    rw [← hstored, ← hcrc, hcut (slice.drop 4), hcut (slice'.drop 4), hbefore, hbehind] at hcrc'
    simp only [← List.append_assoc] at hcrc'
    have hwidth : ((slice'.drop 4).drop i |>.take 4).length
        = ((slice.drop 4).drop i |>.take 4).length := by
      simp only [List.length_take, List.length_drop, hslices]
    have hmiddle := (crc32_burst_inj hwidth (List.length_take_le 4 _)).mp hcrc'
    apply hne
    rw [hraw, hraw', ← List.take_append_drop 4 slice, ← List.take_append_drop 4 slice', hfield,
      hcut (slice.drop 4), hcut (slice'.drop 4), hbefore, hbehind, hmiddle]
  refine ⟨hnot, ?_⟩
  cases hpass : h.passesChecksum raw src with
  | false => exact .inl (onDatagram_of_fails hpass nowMs)
  | true =>
      refine .inr (onDatagram_of_fails ?_ nowMs)
      exact Bool.eq_false_iff.mpr fun hpass' => hnot ⟨hpass, hpass'⟩

/-- A PING to a server that does not know the sender, under the checksum of
that PING; `last` is the last byte, 1 when the checksum was computed. -/
def pingUnder (last : U8) : Bytes :=
  [0x8F, 0xFF, 0, 7] ++ be32 (crc32 [0x8F, 0xFF, 0, 7, 0, 0, 0, 0, 0x85, 0xFF, 0, 1])
    ++ [0x85, 0xFF, 0, last]

theorem burst_detected_ping :
    (bind 4 true 0 0).passesChecksum (pingUnder 1) alice = true
      ∧ (bind 4 true 0 0).passesChecksum (pingUnder 2) alice = false := by
  have hpass : (bind 4 true 0 0).passesChecksum (pingUnder 1) alice = true := by decide +kernel
  refine ⟨hpass, Bool.eq_false_iff.mpr fun hpass' => ?_⟩
  have hregion : ∀ j, j < 0 ∨ 0 + 4 ≤ j →
      ([0x85, 0xFF, 0, 1] : Bytes)[j]? = ([0x85, 0xFF, 0, 2] : Bytes)[j]? := by
    intro j hj
    rw [List.getElem?_eq_none (by simp; omega), List.getElem?_eq_none (by simp; omega)]
  have hparse : ProtocolHeader.parse (pingUnder 1)
      = some (⟨0x8FFF, some 7⟩, (pingUnder 1).drop 4) := rfl
  have hparse' : ProtocolHeader.parse (pingUnder 2)
      = some (⟨0x8FFF, some 7⟩, (pingUnder 2).drop 4) := rfl
  have hne : pingUnder 1 ≠ pingUnder 2 := by decide +kernel
  exact (burst_detected (bind 4 true 0 0) rfl alice 0 hparse hparse' hne rfl rfl 0 hregion).1
    ⟨hpass, hpass'⟩

end HostTask

end EnetRs
