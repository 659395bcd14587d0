/-
  EnetRs.Safety.Handles — what a message sent through a handle can reach.

  A handle is a bare slot number; slots are reused.  A message sent through a
  handle of a connection that is gone reaches whoever is in the slot now, and
  is harmless exactly when the slot is empty or its entry ignores the message.
-/
import EnetRs.Host.Ownership
import EnetRs.Host.Bounds
import EnetRs.Safety.Address

namespace EnetRs

open MachineInt

/-! ## §1. Messages and what they should touch. -/

/-- The messages a `PeerSender` sends; its `Drop` sends the second one. -/
inductive UserMsg where
  | send (pkt : Packet)
  | disconnect (data : U32)

/-- The message as the task receives it, under the handle's slot number. -/
def UserMsg.input (k : PeerKey) : UserMsg → Input
  | send pkt => .send k pkt
  | disconnect data => .disconnect k data

/-- The step from `h` to `h'` affected connection `c` only; if `c` was gone
already, it changed no entry and let nothing out of the task. -/
def AffectsOnly (h h' : HostTask) (c : Nat) : Prop :=
  (∀ j p, h.peer j = some p → p.conn ≠ c → h'.peer j = some p)
    ∧ ((∀ j p, h.peer j = some p → p.conn ≠ c) →
        (∀ j, h'.peer j = h.peer j) ∧ h'.trace = h.trace)

/-- The entry ignores the message: `send_packet` returns at its state check or
drops the packet, `send_disconnect` returns at one of its state checks. -/
def Ignores (q : PeerEntry) : UserMsg → Prop
  | .send pkt =>
      q.state ≠ .connected ∨ (pkt.mode = .reliable ∧ q.acceptsReliable pkt = false)
  | .disconnect _ => q.state ≠ .connecting ∧ q.state ≠ .connected

instance (q : PeerEntry) : (m : UserMsg) → Decidable (Ignores q m)
  | .send pkt => inferInstanceAs (Decidable
      (q.state ≠ .connected ∨ (pkt.mode = .reliable ∧ q.acceptsReliable pkt = false)))
  | .disconnect _ => inferInstanceAs (Decidable (q.state ≠ .connecting ∧ q.state ≠ .connected))

/-! ## §2. A message touches one slot. -/

namespace HostTask

variable {nowMs : U32} {h h' : HostTask} {k : PeerKey}

theorem peer_of_exec_op (e : Exec nowMs (fun _ l => ∃ o, l = .op k o) h h') (j : PeerKey)
    (hjk : j ≠ k) : h'.peer j = h.peer j := by
  refine e.invariant (fun h' => h'.peer j = h.peer j) ?_ rfl
  rintro h₁ l ih hg ⟨o, rfl⟩
  obtain ⟨q, hq, _⟩ := hg
  rw [Label.peer_apply_op hq, if_neg hjk, ih]

theorem peer_step_ne (m : UserMsg) (hs : h.step nowMs (m.input k) = some h') (j : PeerKey)
    (hjk : j ≠ k) : h'.peer j = h.peer j := by
  refine peer_of_exec_op (?_ : Exec nowMs _ h h') j hjk
  cases m with
  | send pkt =>
      refine (noteSubmit_exec pkt ⟨_, rfl⟩).trans ((sendPacket_exec pkt hs).mono ?_)
      rintro h₁ (⟨k', o⟩ | _ | _ | _ | _ | _ | _) hl
      · have hk : k' = k := by
          cases o <;> exact hl.1
        exact ⟨o, by rw [hk]⟩
      all_goals exact hl.elim
  | disconnect data =>
      cases hs
      exact sendDisconnect_exec data (fun _ o _ _ _ => ⟨o, rfl⟩) ⟨_, rfl⟩ ⟨_, rfl⟩

theorem step_of_empty (m : UserMsg) (hp : h.peer k = none)
    (hs : h.step nowMs (m.input k) = some h') : h' = h := by
  cases m with
  | send pkt =>
      have hn : h.noteSubmit k pkt = h := updatePeer_of_none hp
      simp only [UserMsg.input, step, hn, sendPacket, hp] at hs
      exact (Option.some.inj hs).symm
  | disconnect data =>
      simp only [UserMsg.input, step, sendDisconnect, hp] at hs
      exact (Option.some.inj hs).symm

/-- A message the entry ignores changes nothing at all. -/
theorem step_of_ignores {q : PeerEntry} (m : UserMsg) (hq : h.peer k = some q) (hi : Ignores q m)
    (hs : h.step nowMs (m.input k) = some h') : h' = h := by
  cases m with
  | send pkt =>
      -- nothing is accepted, so nothing is logged either
      have hacc : q.acceptsReliable pkt = false := by
        rcases hi with hst | ⟨_, hacc⟩
        · simp [PeerEntry.acceptsReliable, hst]
        · exact hacc
      have hn : h.noteSubmit k pkt = h := by
        simp only [noteSubmit, updatePeer_of_some hq, hacc, Bool.false_eq_true, if_false]
        exact setPeer_self hq
      simp only [UserMsg.input, step, hn, sendPacket, hq] at hs
      split at hs
      · exact (Option.some.inj hs).symm
      · next hst =>
        rw [ne_eq, not_not] at hst
        obtain ⟨hmode, _⟩ := hi.resolve_left (fun hne => hne hst)
        simp only [hmode, sendReliable] at hs
        simp only [PeerEntry.acceptsReliable, hst, hmode, decide_true, Bool.true_and] at hacc
        cases hc : q.channels[pkt.channel.toNat]? with
        | none =>
            simp only [hc] at hs
            exact (Option.some.inj hs).symm
        | some c =>
            simp only [hc, Bool.or_eq_false_iff, decide_eq_false_iff_not] at hs hacc
            simp only [hacc.1, Bool.not_false, if_true, PeerEntry.queuePending, hacc.2, if_false,
              setPeer_self hq] at hs
            exact (Option.some.inj hs).symm
  | disconnect data =>
      simp only [UserMsg.input, step, sendDisconnect, hq] at hs
      cases hst : q.state with
      | connecting => exact absurd hst hi.1
      | connected => exact absurd hst hi.2
      | acknowledgingConnect => simpa [hst] using hs.symm
      | disconnectLater d => simpa [hst] using hs.symm
      | disconnecting => simpa [hst] using hs.symm

/-! ## §3. A message that is not ignored leaves a mark. -/

theorem emitByKey_trace_lt {p : PeerEntry} (hp : h.peer k = some p) {cmds : List Bytes}
    (hc : cmds ≠ []) : h.trace.length < (h.emitByKey k cmds nowMs).trace.length := by
  rw [emitByKey_of_some hp hc]
  simp

theorem flushLoop_trace_lt (mtu hdr : Nat) :
    ∀ (cmds batch : List Bytes) (h : HostTask) (sz : Nat) (p : PeerEntry), h.peer k = some p →
      (cmds ≠ [] ∨ batch ≠ []) →
      h.trace.length < (flushLoop k nowMs mtu hdr h cmds batch sz).trace.length := by
  intro cmds
  induction cmds with
  | nil =>
      intro batch h sz p hp hne
      exact emitByKey_trace_lt hp (hne.resolve_left fun hcmds => hcmds rfl)
  | cons cmd cmds ih =>
      intro batch h sz p hp _
      unfold flushLoop
      split
      · next hfull =>
        have h₁ : h.trace.length < (h.emitByKey k batch nowMs).trace.length :=
          emitByKey_trace_lt hp hfull.2
        have hp₁ : (h.emitByKey k batch nowMs).peer k = some { p with lastSendTime := nowMs } := by
          rw [peer_emitByKey h k hfull.2, if_pos rfl, hp]
          rfl
        exact Nat.lt_trans h₁ (ih [cmd] _ _ _ hp₁ (.inr (by simp)))
      · exact ih _ _ _ _ hp (.inr (by simp))

theorem flushBatch_trace_lt {p : PeerEntry} (hp : h.peer k = some p) {cmds : List Bytes}
    (hc : cmds ≠ []) : h.trace.length < (h.flushBatch k cmds nowMs).trace.length := by
  simp only [flushBatch, hp]
  exact flushLoop_trace_lt _ _ _ _ _ _ _ hp (.inl hc)

end HostTask

theorem PeerEntry.fragmentLoop_cmds_length (ch : U8) (startSeq : U16) (fp : Nat) (data : Bytes)
    (nowMs : U32) :
    ∀ (n i : Nat) (p : PeerEntry),
      (fragmentLoop ch startSeq fp data nowMs n i p).2.length = n := by
  intro n
  induction n with
  | zero =>
      intro i p
      rfl
  | succ n ih =>
      intro i p
      unfold fragmentLoop
      simp only [List.length_cons, ih]

namespace HostTask

variable {nowMs : U32} {h h' : HostTask} {k : PeerKey}

/-- A packet the entry does not ignore goes out, or waits in `pending_send`. -/
theorem send_noticed {q : PeerEntry} (hin : InRange q) (pkt : Packet) (hq : h.peer k = some q)
    (hn : ¬ Ignores q (.send pkt)) (hs : h.sendPacket k pkt nowMs = some h') :
    h.trace.length < h'.trace.length
      ∨ ∃ q', h'.peer k = some q' ∧ q'.pendingSend = q.pendingSend ++ [pkt] := by
  simp only [Ignores, not_or, not_and, ne_eq, not_not, Bool.not_eq_false] at hn
  obtain ⟨hst, hacc⟩ := hn
  have hlt := lt_of_peer_eq_some hq
  have hfp := fragPayload_pos hin.mtu h.useChecksum
  simp only [sendPacket, hq, hst, ne_eq, not_true_eq_false, if_false] at hs
  cases hmode : pkt.mode with
  | reliable =>
      have hacc := hacc hmode
      simp only [PeerEntry.acceptsReliable, hst, hmode, decide_true, Bool.true_and] at hacc
      simp only [hmode, sendReliable] at hs
      cases hc : q.channels[pkt.channel.toNat]? with
      | none => simp [hc] at hacc
      | some c =>
          simp only [hc] at hs hacc
          cases hw : q.windowOpen pkt.channel c with
          | false =>
              simp only [hw, Bool.false_or, decide_eq_true_eq] at hacc
              simp only [hw, Bool.not_false, if_true] at hs
              cases hs
              refine .inr ⟨q.queuePending pkt, peer_setPeer_self hlt, ?_⟩
              simp [PeerEntry.queuePending, hacc]
          | true =>
              simp only [hw, Bool.not_true, Bool.false_eq_true, if_false] at hs
              split at hs
              · cases hs
                exact .inl (emitByKey_trace_lt (h := h.setPeer k _) (peer_setPeer_self hlt) (by simp))
              · next hbig =>
                cases hs
                refine .inl (flushBatch_trace_lt (h := h.setPeer k _) (peer_setPeer_self hlt) ?_)
                apply List.ne_nil_of_length_pos
                simp only [PeerEntry.numberFragments, PeerEntry.fragmentLoop_cmds_length]
                exact fragCount_pos hfp (by omega)
  | unreliable =>
      simp only [hmode, sendUnreliable] at hs
      cases hc : q.channels[pkt.channel.toNat]? with
      | none => simp [hc] at hs
      | some c =>
          simp only [hc] at hs
          split at hs
          · cases hs
            exact .inl (emitByKey_trace_lt (h := h.setPeer k _) (peer_setPeer_self hlt) (by simp))
          · next hbig =>
            cases hs
            refine .inl (flushBatch_trace_lt (h := h.setPeer k _) (peer_setPeer_self hlt) ?_)
            apply List.ne_nil_of_length_pos
            simp only [List.length_map, List.length_range]
            exact fragCount_pos hfp (by omega)
  | unsequenced =>
      simp only [hmode, sendUnsequenced] at hs
      cases hs
      exact .inl (emitByKey_trace_lt (h := h.setPeer k _) (peer_setPeer_self hlt) (by simp))

/-- A message the entry does not ignore changes the entry or leaves the task. -/
theorem step_noticed {q : PeerEntry} (hin : InRange q) (m : UserMsg) (hq : h.peer k = some q)
    (hn : ¬ Ignores q m) (hs : h.step nowMs (m.input k) = some h') :
    h'.trace ≠ h.trace ∨ h'.peer k ≠ some q := by
  have hlt := lt_of_peer_eq_some hq
  cases m with
  | send pkt =>
      -- the ghost log of the submission changes neither the range nor the decision
      obtain ⟨q₁, hq₁, hin₁, hign, hpend⟩ : ∃ q₁, (h.noteSubmit k pkt).peer k = some q₁
          ∧ InRange q₁ ∧ ¬ Ignores q₁ (.send pkt) ∧ q₁.pendingSend = q.pendingSend := by
        rw [noteSubmit, peer_updatePeer, if_pos rfl, hq]
        refine ⟨_, rfl, ?_⟩
        dsimp only
        split
        · exact ⟨⟨hin.mtu, hin.window, hin.channels⟩, hn, rfl⟩
        · exact ⟨hin, hn, rfl⟩
      rcases send_noticed hin₁ pkt hq₁ hign hs with hlen | ⟨q', hq', hpend'⟩
      · refine .inl fun htr => ?_
        rw [htr, noteSubmit, updatePeer_trace] at hlen
        exact Nat.lt_irrefl _ hlen
      · refine .inr fun hsame => ?_
        cases hq'.symm.trans hsame
        rw [hpend] at hpend'
        simp at hpend'
  | disconnect data =>
      right
      simp only [UserMsg.input, step, sendDisconnect, hq] at hs
      -- either way the state changes: to DisconnectLater or to Disconnecting
      have hcase : q.state = .connecting ∨ q.state = .connected →
          some (if !q.outgoingReliable.isEmpty then
              h.setPeer k { q with state := .disconnectLater data }
            else (h.setPeer k { q with state := .disconnecting }).sendConnectionCmd k
              cmdDisconnect (be32 data) nowMs) = some h' → h'.peer k ≠ some q := by
        intro hst hs hsame
        cases hs
        split at hsame
        · rw [peer_setPeer_self hlt] at hsame
          have := congrArg PeerEntry.state (Option.some.inj hsame)
          rcases hst with hst | hst <;> simp [hst] at this
        · simp only [sendConnectionCmd, peer_setPeer_self hlt] at hsame
          rw [peer_emitByKey _ _ (by simp), if_pos rfl, peer_setPeer_self (by simpa using hlt)]
            at hsame
          have hnum := PeerEntry.makeReliable_numbered (p := { q with state := .disconnecting })
            channelIdConnection cmdDisconnect 0 nowMs (be32 data)
          rw [Option.map_some, Option.some.injEq] at hsame
          have hstate := congrArg PeerEntry.state hsame
          have hdisc : PeerState.disconnecting = q.state :=
            (hnum.get PeerEntry.state).symm.trans hstate
          rcases hst with hst | hst <;> rw [hst] at hdisc <;> cases hdisc
      simp only [Ignores, not_and_or, ne_eq, not_not] at hn
      rcases hn with hst | hst
      · exact hcase (.inl hst) (by simpa [hst] using hs)
      · exact hcase (.inr hst) (by simpa [hst] using hs)

/-! ## §4. Handles across slot reuse. -/

/-- Alice connects in slot 0 and disconnects; Bob's CONNECT takes the slot. -/
def slotReuse : List Timed :=
  [(10, .datagram (connectDatagram 77 2 1392) alice),
   (20, .datagram (peerDatagram 0 9 [ack channelIdConnection 1 10]) alice),
   (30, .datagram (peerDatagram 0 9
      [encodeCommand cmdDisconnect commandFlagAcknowledge channelIdConnection 2 (be32 5)]) alice),
   (40, .datagram (connectDatagram 78 2 1392) bob)]

/-- Bob completes the handshake in Alice's old slot. -/
def slotReused : List Timed :=
  slotReuse ++ [(50, .datagram (peerDatagram 0 9 [ack channelIdConnection 1 40]) bob)]

end HostTask

end EnetRs
