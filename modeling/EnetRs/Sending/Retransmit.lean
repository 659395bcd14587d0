/-
  EnetRs.Sending.Retransmit — retransmission and timeout of reliable commands.

  Each outstanding command keeps three counters: the number of attempts, the
  current timeout and the time of the last transmission.  They move together,
  and only when the command is due; so the number of transmissions and the
  earliest time of a timeout follow from the doubling.  Times are read on a
  clock that does not run backwards and spans less than 2³² ms.

  Main results:
    * `Paced.resend` — one more transmission keeps the discipline; the sixth is
      the last one.
    * `retransmission_discipline` — it holds of every outstanding command in
      every run, and a peer is given up after 12.6 s at the earliest.
-/
import EnetRs.Host.Outstanding
import EnetRs.Host.Steps
import Mathlib.Tactic.IntervalCases

namespace EnetRs

open MachineInt

/-! ## §1. The clock. -/

/-- Milliseconds since `base`. -/
def since (base t : U32) : Nat := (t - base).toNat

/-- On a clock that has not run backwards, differences are those of the readings. -/
theorem toNat_sub_eq_since {base s t : U32} (hle : since base s ≤ since base t) :
    (t - s).toNat = since base t - since base s := by
  unfold since at *
  bv_omega

/-! ## §2. The discipline of one command. -/

/-- The command was retransmitted `n` times, at the pace that its first timeout
sets; times are read from `base`. -/
structure Paced (base : U32) (n : Nat) (r : OutstandingReliable) : Prop where
  initial : 200 ≤ r.initialTimeout.toNat
  length : r.transmissions.length = n + 1
  few : n ≤ 5
  first : r.transmissions.head? = some r.originalSentTime
  last : r.transmissions.getLast? = some r.sentTime
  attempts : r.sendAttempts.toNat = n + 1
  timeout : r.rttTimeout.toNat = r.initialTimeout.toNat * 2 ^ n
  /-- The waits add up to a geometric sum. -/
  age : since base r.originalSentTime + r.initialTimeout.toNat * 2 ^ n
    ≤ since base r.sentTime + r.initialTimeout.toNat
  spaced : ∀ (j : Nat) (s t : U32), r.transmissions[j]? = some s → r.transmissions[j + 1]? = some t →
    since base s + r.initialTimeout.toNat * 2 ^ j ≤ since base t

namespace Paced

variable {base nowMs : U32} {n : Nat} {r : OutstandingReliable}

theorem of_justSent (hr : JustSent nowMs r) (base : U32) : Paced base 0 r := by
  refine ⟨hr.initial, by simp [hr.transmissions], by omega, ?_, ?_, ?_, ?_, ?_, ?_⟩
  · rw [hr.transmissions, hr.original]
    rfl
  · rw [hr.transmissions, hr.sent]
    rfl
  · rw [hr.attempts]
    rfl
  · rw [hr.timeout, Nat.pow_zero, Nat.mul_one]
  · rw [hr.original, hr.sent, Nat.pow_zero, Nat.mul_one]
  · intro j s t _ ht
    simp [hr.transmissions] at ht

/-- What it means that the command is due. -/
theorem due (hr : Paced base n r) (hle : since base r.sentTime ≤ since base nowMs)
    (hdue : r.waiting nowMs = false) :
    since base r.sentTime + r.initialTimeout.toNat * 2 ^ n ≤ since base nowMs := by
  have hge : r.rttTimeout.toNat ≤ (nowMs - r.sentTime).toNat := by
    simp only [OutstandingReliable.waiting, decide_eq_false_iff_not, BitVec.not_lt] at hdue
    exact hdue
  rw [hr.timeout, toNat_sub_eq_since hle] at hge
  omega

theorem original_le (hr : Paced base n r) :
    since base r.originalSentTime ≤ since base r.sentTime := by
  have hpow : r.initialTimeout.toNat ≤ r.initialTimeout.toNat * 2 ^ n :=
    Nat.le_mul_of_pos_right _ (Nat.two_pow_pos n)
  have hage := hr.age
  omega

/-- How long the command has been unacknowledged when it is due. -/
theorem elapsed (hr : Paced base n r) (hle : since base r.sentTime ≤ since base nowMs)
    (hdue : r.waiting nowMs = false) :
    r.initialTimeout.toNat * 2 ^ (n + 1)
      ≤ (nowMs - r.originalSentTime).toNat + r.initialTimeout.toNat := by
  have hdue := hr.due hle hdue
  have hage := hr.age
  rw [toNat_sub_eq_since (Nat.le_trans hr.original_le hle), Nat.pow_succ, ← Nat.mul_assoc]
  omega

/-- After the sixth transmission a command that is due has expired. -/
theorem attempts_over (hr : Paced base 5 r) (hle : since base r.sentTime ≤ since base nowMs)
    (hdue : r.waiting nowMs = false) : r.expired nowMs = true := by
  have helapsed := hr.elapsed hle hdue
  have hinitial := hr.initial
  have hattempts : r.sendAttempts = 6 := BitVec.eq_of_toNat_eq hr.attempts
  have hmin : timeoutMinimumMs ≤ nowMs - r.originalSentTime := by
    show timeoutMinimumMs.toNat ≤ (nowMs - r.originalSentTime).toNat
    have hlimit : timeoutMinimumMs.toNat = 5000 := rfl
    omega
  have hover : timeoutLimit ≤ (1 : U32) <<< (umin (satSub r.sendAttempts 1) 31).toNat := by
    rw [hattempts]
    decide
  simp only [OutstandingReliable.expired, hover, hmin, decide_true, Bool.and_self, Bool.or_true]

/-- **One more transmission.**  The command was due and had not expired; so it
was not the sixth time, and no counter overflows. -/
theorem resend (hr : Paced base n r) (hle : since base r.sentTime ≤ since base nowMs)
    (hdue : r.waiting nowMs = false) (hlive : r.expired nowMs = false) :
    Paced base (n + 1) (r.retransmit nowMs) := by
  have hfew : n < 5 := by
    refine Nat.lt_of_le_of_ne hr.few ?_
    rintro rfl
    rw [hr.attempts_over hle hdue] at hlive
    cases hlive
  have hwait := hr.due hle hdue
  have hyoung : (nowMs - r.originalSentTime).toNat < 30000 := by
    simp only [OutstandingReliable.expired, Bool.or_eq_false_iff, decide_eq_false_iff_not,
      BitVec.not_le] at hlive
    exact hlive.1
  -- the current timeout is below the 30 s limit, so doubling it does not saturate
  have hsmall : r.rttTimeout.toNat < 30000 := by
    have hle' := Nat.le_trans hr.original_le hle
    have hsent := hr.original_le
    rw [toNat_sub_eq_since hle'] at hyoung
    rw [hr.timeout]
    omega
  refine ⟨hr.initial, ?_, hfew, ?_, ?_, ?_, ?_, ?_, ?_⟩
  · simp [OutstandingReliable.retransmit, hr.length]
  · simp [OutstandingReliable.retransmit, List.head?_append, hr.first]
  · simp [OutstandingReliable.retransmit]
  · have hattempts := hr.attempts
    show (r.sendAttempts + 1).toNat = n + 1 + 1
    bv_omega
  · show (satMul r.rttTimeout 2).toNat = r.initialTimeout.toNat * 2 ^ (n + 1)
    rw [toNat_satMul_of_lt (by show r.rttTimeout.toNat * 2 < 2 ^ 32; omega), hr.timeout,
      Nat.pow_succ, Nat.mul_assoc]
    rfl
  · have hage := hr.age
    show since base r.originalSentTime + r.initialTimeout.toNat * 2 ^ (n + 1)
      ≤ since base nowMs + r.initialTimeout.toNat
    rw [Nat.pow_succ, ← Nat.mul_assoc]
    omega
  · intro j s t hs ht
    change (r.transmissions ++ [nowMs])[j]? = some s at hs
    change (r.transmissions ++ [nowMs])[j + 1]? = some t at ht
    have hlen := hr.length
    by_cases hj : j + 1 < r.transmissions.length
    · rw [List.getElem?_append_left hj] at ht
      rw [List.getElem?_append_left (by omega)] at hs
      exact hr.spaced j s t hs ht
    · -- the new transmission, after the last one
      have hjn : j = n := by
        have hbound := (List.getElem?_eq_some_iff.mp ht).1
        simp only [List.length_append, List.length_singleton] at hbound
        omega
      subst hjn
      have hlast : r.transmissions[j]? = some r.sentTime := by
        rw [← hr.last, List.getLast?_eq_getElem?, hlen, Nat.add_sub_cancel]
      rw [List.getElem?_append_left (by omega), hlast] at hs
      rw [List.getElem?_append_right (by omega), hlen, Nat.sub_self] at ht
      cases hs
      cases ht
      exact hwait

end Paced

/-! ## §3. All commands, in every run. -/

/-- Every outstanding command of the entry keeps the discipline, and none was
sent after `nowMs`. -/
def PeerEntry.PacedAt (base nowMs : U32) (p : PeerEntry) : Prop :=
  ∀ (key : U8 × U16) (r : OutstandingReliable), p.outgoingReliable[key]? = some r →
    ∃ n, Paced base n r ∧ since base r.sentTime ≤ since base nowMs

namespace PeerEntry.PacedAt

variable {base nowMs : U32} {p : PeerEntry}

theorem mono {t : U32} (hp : p.PacedAt base nowMs) (hle : since base nowMs ≤ since base t) :
    p.PacedAt base t := by
  intro key r hr
  obtain ⟨n, hpaced, hsent⟩ := hp key r hr
  exact ⟨n, hpaced, Nat.le_trans hsent hle⟩

/-- A command that was just sent is at the start of its schedule. -/
theorem justSent {r : OutstandingReliable} (hr : JustSent nowMs r) :
    ∃ n, Paced base n r ∧ since base r.sentTime ≤ since base nowMs :=
  ⟨0, .of_justSent hr base, by rw [hr.sent]⟩

theorem op (hp : p.PacedAt base nowMs) (o : PeerOp) : (o.apply nowMs p).PacedAt base nowMs := by
  intro key r' hr'
  rcases PeerOp.outgoing_of_apply o nowMs p hr' with hnew | ⟨r, hr, rfl | ⟨hdue, hlive, rfl⟩⟩
  · exact justSent hnew
  · exact hp key _ hr
  · obtain ⟨n, hpaced, hsent⟩ := hp key r hr
    exact ⟨n + 1, hpaced.resend hsent hdue hlive, Nat.le_refl _⟩

end PeerEntry.PacedAt

/-- The one command of a new entry was just sent. -/
theorem IsNewEntry.justSent {h : HostTask} {slot : PeerKey} {nowMs : U32} {entry : PeerEntry}
    (hn : IsNewEntry h slot nowMs entry) (key : U8 × U16) (r : OutstandingReliable)
    (hr : entry.outgoingReliable[key]? = some r) : JustSent nowMs r := by
  rcases hn with ⟨addr, channelCount, userData, reply, connectId, rfl⟩ | ⟨c, hdr, src, rfl⟩
  · refine (SendsFrom.makeReliable channelIdConnection cmdConnect 0 _ _ key r hr).resolve_left ?_
    exact nofun
  · refine (SendsFrom.makeReliable channelIdConnection cmdVerifyConnect 0 _ _ key r hr).resolve_left
      ?_
    exact nofun

namespace HostTask

variable {base : U32} {h h' : HostTask}

/-- **One change** at time `nowMs`. -/
theorem pacedAt_exec {nowMs : U32} {C : Cond} (e : Exec nowMs C h h')
    (hp : ∀ k p, h.peer k = some p → p.PacedAt base nowMs) :
    ∀ k p, h'.peer k = some p → p.PacedAt base nowMs :=
  e.entries (fun _ _ _ hn key r hr => PeerEntry.PacedAt.justSent (hn.justSent key r hr))
    (fun _ _ _ o _ hp _ _ => hp.op o) hp

/-- **Every run** whose clock does not run backwards. -/
theorem pacedAt_run :
    ∀ (is : List Timed) (h h' : HostTask) (t₀ t : U32),
      (t₀ :: is.map Prod.fst).Pairwise (fun s t => since base s ≤ since base t) →
      (∀ s ∈ t₀ :: is.map Prod.fst, since base s ≤ since base t) →
      (∀ k p, h.peer k = some p → p.PacedAt base t₀) → h.run is = some h' →
      ∀ k p, h'.peer k = some p → p.PacedAt base t := by
  intro is
  induction is with
  | nil =>
      intro h h' t₀ t _ hbound hp hrun k p hk
      obtain rfl : h = h' := by simpa [run] using hrun
      exact (hp k p hk).mono (hbound t₀ List.mem_cons_self)
  | cons i is ih =>
      intro h h' t₀ t hmono hbound hp hrun
      obtain ⟨h₁, hs, hrun⟩ := Transition.run_cons_eq_some.mp hrun
      obtain ⟨hfirst, hrest⟩ := List.pairwise_cons.mp hmono
      -- the clock advances to the time of the input, and the step is taken then
      have hnow : ∀ k p, h.peer k = some p → p.PacedAt base i.1 := fun k p hk =>
        (hp k p hk).mono (hfirst i.1 List.mem_cons_self)
      exact ih h₁ h' i.1 t hrest (fun s hs => hbound s (List.mem_cons_of_mem _ hs))
        (pacedAt_exec (step_exec_true hs) hnow) hrun

/-! ## §4. Giving up. -/

/-- The loop breaks off at a command that is due and has expired. -/
theorem exists_expired_of_retransmitLoop (nowMs : U32) :
    ∀ (es : List ((U8 × U16) × OutstandingReliable)) (m : OutgoingReliable),
      (retransmitLoop nowMs es m).1 = true →
      ∃ e ∈ es, e.2.waiting nowMs = false ∧ e.2.expired nowMs = true := by
  intro es
  induction es with
  | nil => exact fun m hm => nomatch hm
  | cons e es ih =>
      intro m hm
      obtain ⟨k, r⟩ := e
      unfold retransmitLoop at hm
      split at hm
      · obtain ⟨e, he, hrest⟩ := ih m hm
        exact ⟨e, List.mem_cons_of_mem _ he, hrest⟩
      · next hwaiting =>
        split at hm
        · next hexpired => exact ⟨(k, r), List.mem_cons_self, by simpa using hwaiting, hexpired⟩
        · obtain ⟨e, he, hrest⟩ := ih _ hm
          exact ⟨e, List.mem_cons_of_mem _ he, hrest⟩

end HostTask

/-- A command that is due and has expired was first sent 12.6 s ago or earlier. -/
theorem Paced.expired_elapsed {base nowMs : U32} {n : Nat} {r : OutstandingReliable}
    (hr : Paced base n r) (hle : since base r.sentTime ≤ since base nowMs)
    (hdue : r.waiting nowMs = false) (hexpired : r.expired nowMs = true) :
    12600 ≤ (nowMs - r.originalSentTime).toNat := by
  simp only [OutstandingReliable.expired, Bool.or_eq_true, Bool.and_eq_true,
    decide_eq_true_eq] at hexpired
  rcases hexpired with hmax | ⟨hover, -⟩
  · have hmax' : 30000 ≤ (nowMs - r.originalSentTime).toNat := hmax
    omega
  · -- 2^n reaches the limit of 32 only with the sixth transmission
    have hfive : n = 5 := by
      refine Nat.le_antisymm hr.few (Nat.not_lt.mp fun hlt => ?_)
      have hattempts : r.sendAttempts = BitVec.ofNat 32 (n + 1) := by
        rw [← hr.attempts, BitVec.ofNat_toNat, BitVec.setWidth_eq]
      rw [hattempts] at hover
      interval_cases n <;> exact absurd hover (by decide)
    subst hfive
    have helapsed := hr.elapsed hle hdue
    have hinitial := hr.initial
    omega

/-! ## §5. The discipline of every run. -/

/-- A command that was sent `n + 1` times: its counters, and the times between
the transmissions. -/
structure Disciplined (n : Nat) (r : OutstandingReliable) : Prop where
  initial : 200 ≤ r.initialTimeout.toNat
  length : r.transmissions.length = n + 1
  atMostSix : r.transmissions.length ≤ 6
  first : r.transmissions.head? = some r.originalSentTime
  last : r.transmissions.getLast? = some r.sentTime
  attempts : r.sendAttempts.toNat = n + 1
  timeout : r.rttTimeout.toNat = r.initialTimeout.toNat * 2 ^ n
  age : r.initialTimeout.toNat * (2 ^ n - 1) ≤ (r.sentTime - r.originalSentTime).toNat
  spaced : ∀ (j : Nat) (s t : U32), r.transmissions[j]? = some s → r.transmissions[j + 1]? = some t →
    r.initialTimeout.toNat * 2 ^ j ≤ (t - s).toNat

theorem Paced.disciplined {base : U32} {n : Nat} {r : OutstandingReliable} (hr : Paced base n r) :
    Disciplined n r := by
  refine ⟨hr.initial, hr.length, ?_, hr.first, hr.last, hr.attempts, hr.timeout, ?_, ?_⟩
  · have hlen := hr.length
    have hfew := hr.few
    omega
  · have hage := hr.age
    have hpow : r.initialTimeout.toNat ≤ r.initialTimeout.toNat * 2 ^ n :=
      Nat.le_mul_of_pos_right _ (Nat.two_pow_pos n)
    rw [toNat_sub_eq_since hr.original_le, Nat.mul_sub, Nat.mul_one]
    omega
  · intro j s t hs ht
    have hgap := hr.spaced j s t hs ht
    have hle : since base s ≤ since base t := by omega
    rw [toNat_sub_eq_since hle]
    omega

namespace HostTask

variable {h : HostTask}

theorem timedOut_of_serviceChecks {key : PeerKey} {p : PeerEntry} {nowMs : U32}
    (hstop : (h.serviceChecks key p nowMs).2 = false) :
    (retransmitLoop nowMs p.outgoingReliable.toList p.outgoingReliable).1 = true := by
  unfold serviceChecks at hstop
  generalize retransmitLoop nowMs p.outgoingReliable.toList p.outgoingReliable = r at hstop ⊢
  obtain ⟨timedOut, outgoing, retransmits⟩ := r
  cases timedOut with
  | true => rfl
  | false => simp at hstop

/-- **Retransmission and timeout.**  In every run on a clock that does not run
backwards and spans less than 2³² ms, every outstanding command was sent at most
six times, at doubling intervals of at least 200 ms, and its counters say so;
and a tick at a later time gives a peer up only if one of its commands has been
unacknowledged for 12.6 s.  Each of the times is that of a datagram with the
command's bytes (`HostTask.transmissions_emitted`). -/
theorem retransmission_discipline (acceptCapacity maxPeers : Nat) (useChecksum : Bool) (ib ob : U32)
    (base : U32) (is : List Timed)
    (hclock : (is.map Prod.fst).Pairwise fun s t => since base s ≤ since base t)
    (hrun : (HostTask.new acceptCapacity maxPeers useChecksum ib ob).run is = some h) :
    (∀ k p (key : U8 × U16) r, h.peer k = some p → p.outgoingReliable[key]? = some r →
        ∃ n, Disciplined n r)
      ∧ ∀ (nowMs : U32) (keys : List PeerKey) h₁ k p,
        (∀ i ∈ is, since base i.1 ≤ since base nowMs) → serviceEach nowMs h keys = some h₁ →
        h₁.peer k = some p → (h₁.serviceChecks k p nowMs).2 = false →
        ∃ (key : U8 × U16) (r : OutstandingReliable), p.outgoingReliable[key]? = some r
          ∧ 12600 ≤ (nowMs - r.originalSentTime).toNat := by
  have hzero : ∀ t : U32, since base base ≤ since base t := by
    intro t
    simp [since]
  have hpaced : ∀ t : U32, (∀ i ∈ is, since base i.1 ≤ since base t) →
      ∀ k p, h.peer k = some p → p.PacedAt base t := by
    intro t ht
    refine pacedAt_run is (HostTask.new acceptCapacity maxPeers useChecksum ib ob) h base t
      (List.pairwise_cons.mpr ⟨fun s _ => hzero s, hclock⟩) ?_ (by simp) hrun
    intro s hs
    rcases List.mem_cons.mp hs with rfl | hs
    · exact hzero t
    · obtain ⟨i, hi, rfl⟩ := List.mem_map.mp hs
      exact ht i hi
  refine ⟨fun k p key r hk hr => ?_, fun nowMs keys h₁ k p hlate hserved hk hstop => ?_⟩
  · -- any reading of the clock from the last input on will do
    obtain ⟨n, hn, -⟩ := hpaced (base - 1) (fun i _ => by unfold since; bv_omega) k p hk key r hr
    exact ⟨n, hn.disciplined⟩
  · have e : Exec nowMs (fun _ _ => True) h h₁ :=
      serviceEach_exec (Q := fun _ _ _ => True) (fun _ _ _ _ _ _ _ => trivial)
        (fun _ _ _ _ => trivial) (fun _ _ _ _ => trivial) keys h h₁ (serviceMeets_true nowMs keys h)
        hserved
    have hp := pacedAt_exec e (hpaced nowMs hlate) k p hk
    obtain ⟨⟨key, r⟩, he, hdue, hexpired⟩ :=
      exists_expired_of_retransmitLoop nowMs _ _ (timedOut_of_serviceChecks hstop)
    have hr := Std.ExtTreeMap.mem_toList_iff_getElem?_eq_some.mp he
    obtain ⟨n, hn, hsent⟩ := hp key r hr
    exact ⟨key, r, hr, hn.expired_elapsed hsent hdue hexpired⟩

/-- Alice's packet, not acknowledged: sent at 30 ms, again at 5 s and at 8 s. -/
theorem retransmission_discipline_alice :
    ∃ (h : HostTask) (p : PeerEntry) (r : OutstandingReliable), (HostTask.new 64 4 false 0 0).run
        (aliceConnects 10 ++ [(30, .send 0 (bytePacket 7)), (5000, .tick), (8000, .tick)]) = some h
      ∧ h.peer 0 = some p ∧ p.outgoingReliable[((0, 1) : U8 × U16)]? = some r
      ∧ r.transmissions = [30, 5000, 8000] ∧ ∃ n, Disciplined n r := by
  have hrun : ((HostTask.new 64 4 false 0 0).run
      (aliceConnects 10 ++ [(30, .send 0 (bytePacket 7)), (5000, .tick), (8000, .tick)])).any
      (fun h => (h.peer 0).any fun p => (p.outgoingReliable[((0, 1) : U8 × U16)]?).any fun r =>
        decide (r.transmissions = [30, 5000, 8000])) = true := by decide +kernel
  obtain ⟨h, hh, hrest⟩ := (Option.any_eq_true _ _).mp hrun
  simp only [Option.any_eq_true, decide_eq_true_eq] at hrest
  obtain ⟨p, hp, r, hr, htimes⟩ := hrest
  refine ⟨h, p, r, hh, hp, hr, htimes, ?_⟩
  exact (retransmission_discipline 64 4 false 0 0 0 _ (by decide) hh).1 0 p (0, 1) r hp hr

end HostTask

end EnetRs
