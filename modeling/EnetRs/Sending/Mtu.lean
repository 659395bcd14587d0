/-
  EnetRs.Sending.Mtu — no datagram is longer than the peer's mtu allows.

  Reliable and unreliable packets are cut to the mtu, acknowledgements and
  retransmissions are collected by `flush_batch` up to it, and everything else
  is short.  An unsequenced packet is neither cut nor compared with the mtu.

  Main results:
    * `Reachable.allFit` — every outstanding command fits in a datagram, also
      after the handshake has lowered the mtu.
    * `datagrams_within_mtu` — every datagram of a step from a reachable state
      respects the mtu of the entry it is built from, if the unsequenced
      packets fit.
    * `unsequenced_exceeds_mtu` — one that does not fit.
-/
import EnetRs.Exchange.Datagram
import EnetRs.Safety.Limits
import EnetRs.Sending.Pending

namespace EnetRs

open MachineInt

/-! ## §1. The outstanding commands. -/

namespace PeerEntry

/-- Every command outstanding in `q` was so in `p`, with the same bytes, or is
no longer than `n`. -/
def AddsUpTo (n : Nat) (p q : PeerEntry) : Prop :=
  ∀ (key : U8 × U16) (r : OutstandingReliable), q.outgoingReliable[key]? = some r →
    (∃ r₀, p.outgoingReliable[key]? = some r₀ ∧ r.packetBytes = r₀.packetBytes)
      ∨ r.packetBytes.length ≤ n

namespace AddsUpTo

variable {n : Nat} {p q s : PeerEntry} {nowMs : U32}

theorem of_same (hout : q.outgoingReliable = p.outgoingReliable) : AddsUpTo n p q := by
  intro key r hr
  rw [hout] at hr
  exact .inl ⟨r, hr, rfl⟩

theorem trans (hpq : AddsUpTo n p q) (hqs : AddsUpTo n q s) : AddsUpTo n p s := by
  intro key r hr
  rcases hqs key r hr with ⟨r₁, hr₁, hbytes⟩ | hlen
  · rw [hbytes]
    exact hpq key r₁ hr₁
  · exact .inr hlen

theorem track (ch : U8) (seq : U16) (cmdType : U8) {cmd : Bytes} (hcmd : cmd.length ≤ n)
    (p : PeerEntry) : AddsUpTo n p (p.track ch seq cmdType cmd nowMs) := by
  intro key r hr
  simp only [PeerEntry.track] at hr
  rw [Std.ExtTreeMap.getElem?_insert] at hr
  split at hr
  · cases hr
    exact .inr hcmd
  · exact .inl ⟨r, hr, rfl⟩

theorem next (ch : U8) (p : PeerEntry) : AddsUpTo n p (p.nextReliableSeq ch).1 := by
  refine of_same ?_
  unfold PeerEntry.nextReliableSeq
  split <;> rfl

theorem makeReliable (ch ty flags : U8) {body : Bytes} (hbody : 4 + body.length ≤ n)
    (p : PeerEntry) : AddsUpTo n p (p.makeReliable ch ty flags nowMs body).1 := by
  refine trans (q := (p.takeSeq ch).1) ?_ (track _ _ _ ?_ _)
  · unfold PeerEntry.takeSeq
    split
    · exact of_same rfl
    · exact next ch p
  · rw [encodeCommand_length]
    exact hbody

theorem numberWhole {pkt : Packet} (hlen : 6 + pkt.data.length ≤ n) (p : PeerEntry) :
    AddsUpTo n p (p.numberWhole pkt nowMs).1 := by
  refine (makeReliable pkt.channel cmdSendReliable 0 ?_ p).trans (of_same rfl)
  rw [List.length_append, be16_length]
  omega

theorem numberFragments (pkt : Packet) {fp : Nat} (hfp : 24 + fp ≤ n) (p : PeerEntry) :
    AddsUpTo n p (p.numberFragments pkt fp nowMs).1 := by
  refine (next pkt.channel p).trans (trans ?_ (of_same rfl))
  refine PeerEntry.fragmentLoop_rel_of (R := AddsUpTo n) (fun _ => of_same rfl) trans
    (next pkt.channel) (fun p seq i => track _ _ _ ?_ p) _ _ _
  exact Nat.le_trans (HostTask.fragment_length ..) hfp

theorem erase {key : U8 × U16} (hout : q.outgoingReliable = p.outgoingReliable.erase key) :
    AddsUpTo n p q := by
  intro k r hr
  rw [hout] at hr
  exact .inl ⟨r, Collections.getElem?_of_erase hr, rfl⟩

theorem retransmit (p : PeerEntry) : AddsUpTo n p (PeerOp.retransmit.apply nowMs p) := by
  intro key r hr
  rcases retransmitLoop_toList nowMs p.outgoingReliable key with ⟨-, hnone⟩ | ⟨r₀, r', hr₀, hr', hres, -⟩
  · cases hnone.symm.trans hr
  · obtain rfl : r' = r := Option.some.inj (hr'.symm.trans hr)
    exact .inl ⟨r₀, hr₀, hres.packetBytes⟩

end AddsUpTo

/-- The outstanding commands fit in a datagram.  What a Connecting entry has
sent must fit whatever mtu is still to be negotiated. -/
def Fits (useChecksum : Bool) (p : PeerEntry) : Prop :=
  ∀ (key : U8 × U16) (r : OutstandingReliable), p.outgoingReliable[key]? = some r →
    HostTask.hdrOverhead useChecksum + r.packetBytes.length ≤ mtuMin.toNat
      ∨ p.state ≠ .connecting
        ∧ HostTask.hdrOverhead useChecksum + r.packetBytes.length ≤ p.mtu.toNat

/-- An operation keeps the commands fitting: what it adds fits, and the mtu
does not change any more once the entry has left the state Connecting. -/
theorem Fits.of_adds {useChecksum : Bool} {p q : PeerEntry} {n : Nat} (hadds : AddsUpTo n p q)
    (hn : HostTask.hdrOverhead useChecksum + n ≤ mtuMin.toNat
      ∨ q.state ≠ .connecting ∧ HostTask.hdrOverhead useChecksum + n ≤ q.mtu.toNat)
    (hkeep : p.state ≠ .connecting → q.state ≠ .connecting ∧ q.mtu = p.mtu)
    (hf : p.Fits useChecksum) : q.Fits useChecksum := by
  intro key r hr
  rcases hadds key r hr with ⟨r₀, hr₀, hbytes⟩ | hlen
  · rw [hbytes]
    rcases hf key r₀ hr₀ with hmin | ⟨hst, hfits⟩
    · exact .inl hmin
    · obtain ⟨hst', hmtu⟩ := hkeep hst
      rw [hmtu]
      exact .inr ⟨hst', hfits⟩
  · rcases hn with hmin | ⟨hst, hfits⟩
    · left
      omega
    · right
      exact ⟨hst, by omega⟩

/-- A batch fits if the outstanding commands do. -/
theorem Batch.fits {useChecksum : Bool} {p : PeerEntry} {cmds : List Bytes}
    (hb : p.Batch useChecksum cmds) (hr : InRange p) (hf : p.Fits useChecksum) :
    HostTask.hdrOverhead useChecksum + cmds.flatten.length ≤ p.mtu.toNat := by
  have hmin : mtuMin.toNat ≤ p.mtu.toNat := hr.mtu
  have hge : 576 ≤ p.mtu.toNat := hr.mtu
  have hhdr := HostTask.hdrOverhead_le useChecksum
  rcases hb.size with hone | hshort | hfits
  · -- a single command: short, or outstanding
    obtain ⟨b, rfl⟩ := List.length_eq_one_iff.mp hone
    rw [List.flatten_singleton]
    rcases hb.each b (List.mem_singleton_self b) with hshort | ⟨key, r, hout, rfl⟩
    · omega
    · rcases hf key r hout with hlen | ⟨-, hlen⟩
      · exact Nat.le_trans hlen hmin
      · exact hlen
  · omega
  · exact hfits

end PeerEntry

namespace PeerOp

variable {h : HostTask} {nowMs : U32} {p : PeerEntry} {o : PeerOp}

/-- The mtu is settled when the entry leaves the state Connecting. -/
theorem apply_mtu_settled (nowMs : U32) (hg : o.Guard h p) (hst : p.state ≠ .connecting) :
    (o.apply nowMs p).state ≠ .connecting ∧ (o.apply nowMs p).mtu = p.mtu := by
  by_cases hlife : o.Lifecycle
  · cases o with
    | verify hostMtu vc hdr => exact absurd hg.2.1 hst
    | accept | establish | deferDisconnect | beginDisconnect => exact ⟨nofun, rfl⟩
    | _ => exact hlife.elim
  · have hsame := PeerOp.samePhase nowMs p hlife
    rw [hsame.state]
    exact ⟨hst, hsame.mtu⟩

theorem apply_fits (hr : InRange p) (hg : o.Guard h p) (hf : p.Fits h.useChecksum) :
    (o.apply nowMs p).Fits h.useChecksum := by
  have hge : 576 ≤ p.mtu.toNat := hr.mtu
  have hhdr := HostTask.hdrOverhead_le h.useChecksum
  have hshort : HostTask.hdrOverhead h.useChecksum + 12 ≤ mtuMin.toNat := by
    show _ ≤ 576
    omega
  have hadds : ∀ {n : Nat}, PeerEntry.AddsUpTo n p (o.apply nowMs p) →
      (HostTask.hdrOverhead h.useChecksum + n ≤ mtuMin.toNat ∨ p.state ≠ .connecting
        ∧ HostTask.hdrOverhead h.useChecksum + n ≤ p.mtu.toNat) →
      (o.apply nowMs p).Fits h.useChecksum := by
    intro n hadds hn
    have hkeep := fun hst => apply_mtu_settled (o := o) nowMs hg hst
    refine .of_adds hadds (hn.imp_right fun hn => ?_) hkeep hf
    obtain ⟨hst, hmtu⟩ := hkeep hn.1
    rw [hmtu]
    exact ⟨hst, hn.2⟩
  by_cases ho : o.TouchesOutgoing
  · cases o with
    | ack ch a => exact hadds (.erase (PeerEntry.applyAck_eq p ch a nowMs).1) (.inl hshort)
    | verify hostMtu vc hdr => exact hadds (.erase rfl) (.inl hshort)
    | retransmit => exact hadds (.retransmit p) (.inl hshort)
    | connectionCmd cmdType body =>
        refine hadds (.makeReliable _ _ _ ?_ p) (.inl hshort)
        have hbody := hg.1
        omega
    | numberWhole pkt =>
        obtain ⟨c, hsend, -, hlen⟩ := hg
        refine hadds (.numberWhole (Nat.le_refl _) p) (.inr ⟨?_, ?_⟩)
        · rw [hsend.1]
          nofun
        · unfold maxReliablePayload at hlen
          omega
    | numberFragments pkt fp =>
        obtain ⟨c, hsend, -, -, rfl⟩ := hg
        refine hadds (.numberFragments pkt (Nat.le_refl _) p) (.inr ⟨?_, ?_⟩)
        · rw [hsend.1]
          nofun
        · unfold fragPayload
          omega
    | _ => exact ho.elim
  · exact hadds (.of_same (outgoingReliable_apply ho nowMs p)) (.inl hshort)

end PeerOp

/-- A new entry has sent its part of the handshake. -/
theorem IsNewEntry.fits {h : HostTask} {slot : PeerKey} {nowMs : U32} {entry : PeerEntry}
    (hn : IsNewEntry h slot nowMs entry) : entry.Fits h.useChecksum := by
  have hfirst : ∀ (p : PeerEntry) (cmdType : U8) (body : Bytes), p.outgoingReliable = ∅ →
      body.length ≤ 44 →
      (p.makeReliable channelIdConnection cmdType 0 nowMs body).1.Fits h.useChecksum := by
    intro p cmdType body hout hbody key r hr
    have hadds : PeerEntry.AddsUpTo 48 p
        (p.makeReliable channelIdConnection cmdType 0 nowMs body).1 :=
      .makeReliable channelIdConnection cmdType 0 (by omega) p
    rcases hadds key r hr with ⟨r₀, hr₀, -⟩ | hlen
    · simp [hout] at hr₀
    · have hhdr := HostTask.hdrOverhead_le h.useChecksum
      left
      show _ ≤ 576
      omega
  rcases hn with ⟨addr, channelCount, userData, reply, connectId, rfl⟩ | ⟨c, hdr, src, rfl⟩
  · refine hfirst _ cmdConnect (h.connectBody slot (umax channelCount 1) connectId userData) rfl ?_
    simp only [HostTask.connectBody, List.length_append, be16_length, be32_length,
      List.length_cons, List.length_nil]
    omega
  · refine hfirst (h.serverEntry c hdr src nowMs) cmdVerifyConnect _ rfl ?_
    simp only [HostTask.verifyBody, List.length_append, be16_length, be32_length, List.length_cons,
      List.length_nil]
    omega

namespace HostTask

variable {h h' : HostTask} {nowMs : U32}

/-- The entries are in range, and what they have outstanding fits. -/
def AllFit (h : HostTask) : Prop :=
  h.AllInRange ∧ ∀ k p, h.peer k = some p → p.Fits h.useChecksum

theorem AllFit.label {l : Label} (hi : h.AllFit) (hg : l.Guard nowMs h) :
    (l.apply nowMs h).AllFit := by
  refine ⟨Label.apply_inRange hi.1 hg, ?_⟩
  rw [Label.useChecksum_apply]
  exact Label.entries hg (fun _ _ _ hn => hn.fits)
    (fun k p _ _ hp hf hgo => PeerOp.apply_fits (hi.1.2 k p hp) hgo hf) hi.2

/-- **What is outstanding in a reachable state fits in a datagram.** -/
theorem Reachable.allFit (hr : h.Reachable) : h.AllFit :=
  hr.invariant AllFit (fun cap n ck ib ob => ⟨inRange_new cap n ck ib ob, by simp⟩)
    fun _ _ _ hi hg => hi.label hg

end HostTask

/-! ## §2. Where a datagram is sent. -/

/-- A change lets out at most one event. -/
theorem Label.trace_apply {nowMs : U32} {h : HostTask} {l : Label} (hg : l.Guard nowMs h) :
    (l.apply nowMs h).trace = h.trace ∨ ∃ ev, (l.apply nowMs h).trace = h.trace ++ [ev] := by
  cases l with
  | op k o =>
      obtain ⟨p, hp, -⟩ := hg
      rw [trace_apply_op hp]
      cases o with
      | emit | notify | accept => exact .inr ⟨_, rfl⟩
      | verify hostMtu vc hdr =>
          simp only [PeerOp.events]
          split
          · exact .inr ⟨_, rfl⟩
          · exact .inl (List.append_nil _)
      | _ => exact .inl (List.append_nil _)
  | raw connect addr => exact .inr ⟨_, rfl⟩
  | remove | install | epoch | appAccept | appClose => exact .inl rfl

/-- On its way from `h` to `h'` the task makes the change `l` in the state `h₁`,
after it has let out the events `es`. -/
structure Passes (nowMs : U32) (C : Cond) (h h' : HostTask) (es : List Event) (h₁ : HostTask)
    (l : Label) : Prop where
  before : Exec nowMs C h h₁
  trace : h₁.trace = h.trace ++ es
  guard : l.Guard nowMs h₁
  meets : C h₁ l
  after : Exec nowMs C (l.apply nowMs h₁) h'

namespace Exec

variable {nowMs : U32} {C : Cond} {h h' : HostTask}

/-- What was let out stays on record. -/
theorem trace_extends (e : Exec nowMs C h h') : ∃ es, h'.trace = h.trace ++ es := by
  induction e with
  | refl => exact ⟨[], (List.append_nil _).symm⟩
  | step l _ hg _ ih =>
      obtain ⟨es, hes⟩ := ih
      rcases Label.trace_apply hg with hsame | ⟨ev, hev⟩
      · exact ⟨es, by rw [hsame, hes]⟩
      · exact ⟨es ++ [ev], by rw [hev, hes, List.append_assoc]⟩

/-- **Every event comes from one change.** -/
theorem event (e : Exec nowMs C h h') {es₁ : List Event} {ev : Event} :
    ∀ {es₂ : List Event}, h'.trace = h.trace ++ (es₁ ++ ev :: es₂) →
      ∃ h₁ l, Passes nowMs C h h' es₁ h₁ l ∧ (l.apply nowMs h₁).trace = h₁.trace ++ [ev] := by
  induction e with
  | refl =>
      intro es₂ htr
      have hlen := congrArg List.length htr
      simp at hlen
  | @step h₁ l e hg hc ih =>
      intro es₂ htr
      have hearlier : ∀ es : List Event, h₁.trace = h.trace ++ (es₁ ++ ev :: es) →
          ∃ h₂ l₂, Passes nowMs C h (l.apply nowMs h₁) es₁ h₂ l₂
            ∧ (l₂.apply nowMs h₂).trace = h₂.trace ++ [ev] := by
        intro es hes
        obtain ⟨h₂, l₂, hpass, hev⟩ := ih hes
        exact ⟨h₂, l₂, { hpass with after := .step l hpass.after hg hc }, hev⟩
      rcases Label.trace_apply hg with hsame | ⟨ev', hev⟩
      · exact hearlier es₂ (hsame.symm.trans htr)
      · -- the event is the one of this change, or an earlier one
        rw [hev] at htr
        rcases List.eq_nil_or_concat es₂ with rfl | ⟨es, last, rfl⟩
        · rw [← List.append_assoc] at htr
          obtain ⟨htr₁, hlast⟩ := List.append_inj' htr rfl
          cases hlast
          exact ⟨h₁, l, ⟨e, htr₁, hg, hc, .refl⟩, hev⟩
        · refine hearlier es ?_
          have hsplit : h₁.trace ++ [ev'] = (h.trace ++ (es₁ ++ ev :: es)) ++ [last] := by
            simpa using htr
          exact (List.append_inj' hsplit rfl).1

end Exec

/-! ## §3. Every step. -/

namespace HostTask

variable {h h' : HostTask} {nowMs : U32}

/-- An unsequenced packet for a Connected peer fits in one datagram. -/
def UnsequencedFits (h : HostTask) : Input → Prop
  | .send key pkt => ∀ p, h.peer key = some p → p.state = .connected → pkt.mode = .unsequenced →
      hdrOverhead h.useChecksum + 8 + pkt.data.length ≤ p.mtu.toNat
  | _ => True

/-- Between `h` and `h'`, after the events `es`, a datagram goes out to an entry
whose mtu it respects. -/
def SentWithin (nowMs : U32) (h h' : HostTask) (es : List Event) (dest : SocketAddr)
    (cmds : List Bytes) (datagram : Bytes) : Prop :=
  ∃ h₁ k p, Passes nowMs (fun _ _ => True) h h' es h₁ (.op k (.emit cmds))
    ∧ h₁.peer k = some p ∧ dest = p.addr
    ∧ datagram = makeDatagram h.useChecksum p cmds nowMs ∧ datagram.length ≤ p.mtu.toNat

/-- Between `h` and `h'`, after the events `es`, a CONNECT is refused because
there is no slot: the answer belongs to no entry. -/
def Refuses (nowMs : U32) (h h' : HostTask) (es : List Event) (dest : SocketAddr)
    (datagram : Bytes) : Prop :=
  ∃ h₁ connect, Passes nowMs (fun _ _ => True) h h' es h₁ (.raw connect dest)
    ∧ h₁.allocSlot = none ∧ datagram.length = 12

/-- Every datagram that is sent between `h` and `h'` respects the mtu of the
entry it is sent to. -/
def RespectsMtu (nowMs : U32) (h h' : HostTask) : Prop :=
  ∃ es, h'.trace = h.trace ++ es ∧ ∀ es₁ dest cmds datagram es₂,
    es = es₁ ++ .sent dest cmds datagram :: es₂ →
      SentWithin nowMs h h' es₁ dest cmds datagram ∨ Refuses nowMs h h' es₁ dest datagram

/-- What the change emits, if anything, is a batch or was cut to the mtu. -/
def EmitsFitting (h : HostTask) (l : Label) : Prop :=
  ∀ k cmds, l = .op k (.emit cmds) → ∃ p, h.peer k = some p ∧ (p.Batch h.useChecksum cmds
    ∨ (mtuMin ≤ p.mtu → hdrOverhead h.useChecksum + cmds.flatten.length ≤ p.mtu.toNat))

theorem Emits.fitting {k : PeerKey} {cmds : List Bytes} (hb : h.Emits k cmds) :
    ∃ p, h.peer k = some p ∧ (p.Batch h.useChecksum cmds
      ∨ (mtuMin ≤ p.mtu → hdrOverhead h.useChecksum + cmds.flatten.length ≤ p.mtu.toNat)) := by
  obtain ⟨p, hp, hb⟩ := hb
  exact ⟨p, hp, .inl hb⟩

/-- What goes out for a packet that is no unsequenced one, or that fits. -/
theorem emitsFitting_of_send {key : PeerKey} {pkt : Packet} {h₁ : HostTask} {l : Label}
    (hfits : h.UnsequencedFits (.send key pkt)) (hl : SendMakes h key pkt h₁ l) :
    EmitsFitting h₁ l := by
  rintro k cmds rfl
  obtain ⟨rfl, p, q, hp, hst, hq, hmtu, hck, hlen⟩ := hl
  refine ⟨q, hq, .inr ?_⟩
  rw [hmtu, hck]
  split at hlen
  · next hmode =>
    have hle := hfits p hp hst hmode
    intro _
    omega
  · exact hlen

/-- What a step sends, if it is a packet that fits or no packet. -/
theorem step_exec_fitting {i : Input} (hi : h.AllWaiting) (hfits : h.UnsequencedFits i)
    (hs : h.step nowMs i = some h') : Exec nowMs EmitsFitting h h' := by
  by_cases hsend : ∃ key pkt, i = .send key pkt
  · obtain ⟨key, pkt, rfl⟩ := hsend
    refine (noteSubmit_exec pkt nofun).trans ((sendPacket_exec pkt hs).mono fun h₁ l hl => ?_)
    refine emitsFitting_of_send ?_ hl
    by_cases hmode : pkt.mode = .reliable
    · intro p _ _ hun
      cases hmode.symm.trans hun
    · rw [noteSubmit_of_mode hmode]
      exact hfits
  · push Not at hsend
    refine step_exec_of_app i (stepMeets_reliable hi hsend) ?_ ?_ ?_ ?_ ?_ ?_ ?_ ?_ hs
    · rintro h key src cmd h₁ l - hl k cmds rfl
      exact hl.2.fitting
    · intro h key pkt h₁ l hmode hl
      refine emitsFitting_of_send (fun p _ _ hun => ?_) hl
      cases hmode.symm.trans hun
    · rintro h l hl - k cmds rfl
      exact hl.fitting
    · rintro h k o ho k' cmds ⟨⟩
      exact ho.elim
    · rintro addr count data reply id - slot k cmds ⟨⟩
    · rintro key - k cmds ⟨⟩
    · rintro key - k cmds ⟨⟩
    · exact fun _ => ⟨nofun, nofun⟩

/-- Changes that emit what fits respect the mtu. -/
theorem respectsMtu_of_exec (hi : h.AllFit) (e : Exec nowMs EmitsFitting h h') :
    RespectsMtu nowMs h h' := by
  obtain ⟨es, hes⟩ := e.trace_extends
  refine ⟨es, hes, ?_⟩
  intro es₁ dest cmds datagram es₂ heq
  rw [heq] at hes
  obtain ⟨h₁, l, hpass, hev⟩ := e.event hes
  have hfit : h₁.AllFit := hpass.before.invariant AllFit (fun _ _ hi hg _ => hi.label hg) hi
  have hck : h₁.useChecksum = h.useChecksum :=
    hpass.before.invariant (fun h₂ => h₂.useChecksum = h.useChecksum)
      (fun _ l hsame _ _ => (Label.useChecksum_apply l).trans hsame) rfl
  have hpass' : Passes nowMs (fun _ _ => True) h h' es₁ h₁ l :=
    ⟨hpass.before.mono fun _ _ _ => trivial, hpass.trace, hpass.guard, trivial,
      hpass.after.mono fun _ _ _ => trivial⟩
  cases l with
  | op k o =>
      obtain ⟨p, hp, hg⟩ := hpass.guard
      rw [Label.trace_apply_op hp, List.append_cancel_left_eq] at hev
      cases o with
      | emit cmds' =>
          cases hev
          obtain ⟨q, hq, hfits⟩ := hpass.meets k cmds rfl
          cases hp.symm.trans hq
          refine .inl ⟨h₁, k, p, hpass', hp, rfl, by rw [hck], ?_⟩
          rw [makeDatagram_length]
          rcases hfits with hb | hfits
          · exact hb.fits (hfit.1.2 k p hp) (hfit.2 k p hp)
          · exact hfits (hfit.1.2 k p hp).mtu
      | verify hostMtu vc hdr =>
          simp only [PeerOp.events] at hev
          split at hev <;> cases hev
      | _ => cases hev
  | raw connect addr =>
      cases List.append_cancel_left hev
      exact .inr ⟨h₁, connect, hpass', hpass.guard, rfl⟩
  | remove | install | epoch | appAccept | appClose =>
      exact absurd (congrArg List.length hev) (by simp [Label.apply, install])

/-- **Every datagram of a step respects the mtu** of the entry it is built from:
from every reachable state and for every input, as long as the input is no
unsequenced packet that is too long for one datagram. -/
theorem datagrams_within_mtu (h h' : HostTask) (i : Timed) (hr : h.Reachable)
    (hfits : h.UnsequencedFits i.2) (hs : h.timedStep i = some h') : RespectsMtu i.1 h h' :=
  respectsMtu_of_exec hr.allFit (step_exec_fitting hr.waiting hfits hs)

/-- An unsequenced packet of `n` zeros on channel 0. -/
def zerosPacket (n : Nat) : Packet := ⟨List.replicate n 0, 0, .unsequenced⟩

theorem zerosPacket_length (n : Nat) : (zerosPacket n).data.length = n := List.length_replicate

/-- 1380 bytes are the most that fit for Alice. -/
theorem datagrams_within_mtu_alice :
    ∃ h h' p, (bind 4 false 0 0).run (aliceConnects 10) = some h
      ∧ h.timedStep (30, .send 0 (zerosPacket 1380)) = some h'
      ∧ h.peer 0 = some p ∧ p.state = .connected ∧ h'.trace.length = h.trace.length + 1
      ∧ RespectsMtu 30 h h' := by
  have hrun : ((bind 4 false 0 0).run (aliceConnects 10)).any (fun h =>
      (h.timedStep (30, .send 0 (zerosPacket 1380))).any fun h' => (h.peer 0).any fun p =>
        decide (p.state = .connected ∧ h'.trace.length = h.trace.length + 1
          ∧ p.mtu = 1392 ∧ h.useChecksum = false)) = true := by
    decide +kernel
  obtain ⟨h, hh, hrest⟩ := (Option.any_eq_true _ _).mp hrun
  simp only [Option.any_eq_true, decide_eq_true_eq] at hrest
  obtain ⟨h', hh', p, hp, hst, hlen, hmtu, hck⟩ := hrest
  refine ⟨h, h', p, hh, hh', hp, hst, hlen, ?_⟩
  refine datagrams_within_mtu h h' (30, .send 0 (zerosPacket 1380)) ⟨_, _, _, _, _, _, hh⟩ ?_ hh'
  intro q hq _ _
  cases hp.symm.trans hq
  rw [hmtu, hck, zerosPacket_length]
  decide

/-- No entry has an mtu over 1392. -/
theorem not_respectsMtu (hi : h.AllLimited) {dest : SocketAddr} {cmds : List Bytes}
    {datagram : Bytes} (htr : h'.trace = h.trace ++ [.sent dest cmds datagram])
    (hlen : 1392 < datagram.length) : ¬ RespectsMtu nowMs h h' := by
  rintro ⟨es, hes, hall⟩
  obtain rfl : es = [.sent dest cmds datagram] := List.append_cancel_left (hes.symm.trans htr)
  rcases hall [] dest cmds datagram [] rfl with ⟨h₁, k, p, hpass, hp, -, -, hle⟩ | ⟨_, _, -, -, hle⟩
  · have hlim : h₁.AllLimited := hpass.before.invariant AllLimited (fun _ _ hi hg _ => hi.label hg) hi
    have hmtu : p.mtu.toNat ≤ h₁.hostMtu.toNat := (hlim.2 k p hp).mtu_le
    rw [hlim.1] at hmtu
    have hdefault : mtuDefault.toNat = 1392 := rfl
    omega
  · omega

/-- The command that carries it, in group 1. -/
def zerosCommand (n : Nat) : Bytes :=
  encodeCommand cmdSendUnsequenced commandFlagUnsequenced 0 0
    (be16 1 ++ be16 (BitVec.ofNat 16 n) ++ List.replicate n 0)

/-- One byte more, and the datagram is longer than the mtu. -/
theorem unsequenced_exceeds_mtu :
    ∃ h h' p datagram, (bind 4 false 0 0).run (aliceConnects 10) = some h
      ∧ h.timedStep (30, .send 0 (zerosPacket 1381)) = some h'
      ∧ h.peer 0 = some p ∧ p.addr = alice ∧ p.mtu = 1392
      ∧ h'.trace = h.trace ++ [.sent alice [zerosCommand 1381] datagram]
      ∧ datagram.length = 1393 ∧ ¬ RespectsMtu 30 h h' := by
  have hrun : ((bind 4 false 0 0).run (aliceConnects 10)).any (fun h =>
      (h.timedStep (30, .send 0 (zerosPacket 1381))).any fun h' => (h.peer 0).any fun p =>
        decide (p.addr = alice ∧ p.mtu = 1392 ∧ h'.trace = h.trace ++ [.sent alice
          [zerosCommand 1381] (makeDatagram false p [zerosCommand 1381] 30)])) = true := by
    decide +kernel
  obtain ⟨h, hh, hrest⟩ := (Option.any_eq_true _ _).mp hrun
  simp only [Option.any_eq_true, decide_eq_true_eq] at hrest
  obtain ⟨h', hh', p, hp, haddr, hmtu, htr⟩ := hrest
  have hr : h.Reachable := ⟨_, _, _, _, _, _, hh⟩
  have hsize : (makeDatagram false p [zerosCommand 1381] 30).length = 1393 := by
    rw [makeDatagram_length, List.flatten_singleton, zerosCommand, encodeCommand_length]
    simp only [List.length_append, be16_length, List.length_replicate]
    rfl
  refine ⟨h, h', p, _, hh, hh', hp, haddr, hmtu, htr, hsize, ?_⟩
  exact not_respectsMtu hr.limited htr (by rw [hsize]; decide)

end HostTask

end EnetRs
