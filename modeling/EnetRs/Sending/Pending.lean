/-
  EnetRs.Sending.Pending — what waits in `pending_send`, in every reachable state.

  Only `send_packet` puts packets into `pending_send`, and only reliable ones
  for a channel of the peer.  So a tick never sends a packet of another mode:
  the counters of unreliable and unsequenced packets move only with a packet
  that the user sends.

  Main results:
    * `HostTask.Reachable.waiting` — every waiting packet can be sent.
    * `HostTask.step_exec_mode` — which step moves an unsequenced counter.
-/
import EnetRs.Sending.Numbering

namespace EnetRs

open MachineInt

/-! ## §1. One operation. -/

namespace PeerOp

variable {h : HostTask} {nowMs : U32} {p : PeerEntry} {o : PeerOp}

/-- A packet that waits was waiting before, or could have been sent. -/
theorem mem_pendingSend (hg : o.Guard h p) {w : Packet} (hw : w ∈ (o.apply nowMs p).pendingSend) :
    w ∈ p.pendingSend ∨ ∃ c, Sendable p w c := by
  rcases eq_queue_of_mem hw with hold | rfl
  · exact .inl hold
  · obtain ⟨c, hsend, -⟩ := hg
    exact .inr ⟨c, hsend⟩

theorem apply_waiting (hg : o.Guard h p) (hr : InRange p) (hall : ∀ w ∈ p.pendingSend, p.Waiting w) :
    ∀ w ∈ (o.apply nowMs p).pendingSend, (o.apply nowMs p).Waiting w := by
  intro w hw
  have hlen := channels_length nowMs hg hr.channels.2
  rcases mem_pendingSend hg hw with hold | ⟨c, hsend⟩
  · exact ⟨(hall w hold).1, by rw [hlen]; exact (hall w hold).2⟩
  · exact ⟨hsend.2.1, by rw [hlen]; exact (List.getElem?_eq_some_iff.mp hsend.2.2).1⟩

end PeerOp

/-! ## §2. Reachable states. -/

namespace HostTask

variable {h h' : HostTask} {nowMs : U32}

/-- The entries are in range, and what waits in them can be sent. -/
def AllWaiting (h : HostTask) : Prop :=
  h.AllInRange ∧ ∀ k p, h.peer k = some p → ∀ w ∈ p.pendingSend, p.Waiting w

theorem AllWaiting.label {l : Label} (hi : h.AllWaiting) (hg : l.Guard nowMs h) :
    (l.apply nowMs h).AllWaiting := by
  refine ⟨Label.apply_inRange hi.1 hg, Label.entries (I := fun p => ∀ w ∈ p.pendingSend, p.Waiting w)
    hg (fun slot entry _ hn => ?_) ?_ hi.2⟩
  · rcases hn with ⟨addr, count, data, reply, id, rfl⟩ | ⟨c, hdr, src, rfl⟩ <;> exact nofun
  · intro k p o _ hp hall hgo
    exact PeerOp.apply_waiting hgo (hi.1.2 k p hp) hall

/-- **What waits in a reachable state is reliable, and for a channel that exists.** -/
theorem Reachable.waiting (hr : h.Reachable) : h.AllWaiting :=
  hr.invariant AllWaiting (fun cap n ck ib ob => ⟨inRange_new cap n ck ib ob, by simp⟩)
    fun _ _ _ hi hg => hi.label hg

/-- Every packet that a tick takes out of `pending_send` is reliable. -/
theorem serviceMeets_reliable (keys : List PeerKey) :
    ∀ h : HostTask, h.AllWaiting →
      ServiceMeets (fun _ _ pkt => pkt.mode = .reliable) nowMs h keys := by
  have hexec : ∀ {C : Cond} {h h' : HostTask}, Exec nowMs C h h' → h.AllWaiting → h'.AllWaiting :=
    fun e => e.invariant AllWaiting fun _ _ hi hg _ => hi.label hg
  have hsends : ∀ (key : PeerKey) (pkts : List Packet) (h : HostTask),
      (∀ w ∈ pkts, w.mode = .reliable) →
      SendsMeet (fun _ _ pkt => pkt.mode = .reliable) key nowMs h pkts := by
    intro key pkts
    induction pkts with
    | nil => exact fun _ _ => trivial
    | cons pkt pkts ih =>
        intro h hall
        exact ⟨hall pkt List.mem_cons_self,
          fun h' _ => ih h' fun w hw => hall w (List.mem_cons_of_mem _ hw)⟩
  induction keys with
  | nil => exact fun _ _ => trivial
  | cons key keys ih =>
      intro h hi
      constructor
      · intro p hp q hq
        have e : Exec nowMs (fun _ _ => True) h (h.serviceChecks key p nowMs).1 :=
          serviceChecks_exec hp (fun _ _ _ _ _ => trivial) fun _ _ => ⟨trivial, trivial⟩
        have hchecked := hexec e hi
        exact hsends key _ _ fun w hw => (hchecked.2 key q hq w hw).1
      · intro h' hs
        exact ih h' (hexec (serviceOne_exec_true hs) hi)

/-- A step without a packet of the user sends reliable packets only. -/
theorem stepMeets_reliable {i : Input} (hi : h.AllWaiting) (hsend : ∀ key pkt, i ≠ .send key pkt) :
    StepMeets (fun _ _ _ _ => True) (fun _ _ pkt => pkt.mode = .reliable) h (nowMs, i) := by
  cases i with
  | datagram raw src => exact fun a _ => commandsMeet_true _ _ _ _ _ _
  | send key pkt => exact absurd rfl (hsend key pkt)
  | tick => exact serviceMeets_reliable _ h hi
  | _ => trivial

/-- A step without a packet of the user moves no unsequenced counter. -/
theorem step_exec_unsent {i : Input} (hi : h.AllWaiting) (hsend : ∀ key pkt, i ≠ .send key pkt)
    (hs : h.step nowMs i = some h') :
    Exec nowMs (fun _ l => ∀ k ch c, l ≠ .op k (.nextUnsequenced ch c)) h h' := by
  refine step_exec i (stepMeets_reliable hi hsend) ?_ ?_ ?_ ?_ ?_ hs
  · rintro h key src cmd h₁ l - hl k ch c rfl
    exact hl.2.2
  · rintro h key pkt h₁ l hmode hl k ch c rfl
    exact hl.2.2.2 hmode
  · rintro h l hl k ch c rfl
    exact hl
  · rintro h k o ho k' ch c ⟨⟩
    exact ho
  · rintro addr count data reply id - slot k ch c ⟨⟩

/-- **Only an unsequenced packet of the user moves an unsequenced counter.** -/
theorem step_exec_mode {i : Input} (hi : h.AllWaiting) (hs : h.step nowMs i = some h') :
    Exec nowMs (fun _ l => ∀ k ch c, l = .op k (.nextUnsequenced ch c) →
      ∃ pkt, i = .send k pkt ∧ pkt.mode = .unsequenced) h h' := by
  by_cases hsend : ∃ key pkt, i = .send key pkt
  · obtain ⟨key, pkt, rfl⟩ := hsend
    refine (noteSubmit_exec pkt nofun).trans ((sendPacket_exec_mode pkt hs).mono ?_)
    rintro h₁ l ⟨hl, hmode⟩ k ch c rfl
    exact ⟨pkt, by rw [hl.1], hmode k _ rfl⟩
  · push Not at hsend
    exact (step_exec_unsent hi hsend hs).mono fun _ l hl k ch c heq => absurd heq (hl k ch c)

end HostTask

end EnetRs
