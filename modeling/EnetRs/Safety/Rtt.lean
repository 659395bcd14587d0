/-
  EnetRs.Safety.Rtt — the round-trip estimator.

  An ACK echoes the low 16 bits of a send time.  `on_ack` completes them from
  its own clock, takes the difference as a sample, and `update_rtt` moves the
  estimate towards it.  The remote chooses the echo freely, so the bounds hold
  for any echo and any clock; how good the guess of the high half is, is the
  second question.

  Main results:
    * `rttSample_toNat` — the sample, in plain arithmetic.
    * `rtt_estimator_bounded` — estimate, variance and timeout stay in range, and no
      operation on the way overflows or saturates.
    * `sample_exact_iff` — the echo of a datagram sent `d ≤ 32768` ms ago gives
      the sample `max d 1` exactly if the 32-bit clock has not wrapped since.
-/
import EnetRs.Exchange.Datagram
import EnetRs.Host.Frames
import EnetRs.Host.Steps

namespace EnetRs

open MachineInt

/-! ## §1. The sample. -/

/-- The send time as `on_ack` reconstructs it at `nowMs` from its 16-bit echo. -/
def echoTime (receivedSentTime : U16) (nowMs : U32) : U32 :=
  let t32 := receivedSentTime.setWidth 32 ||| (nowMs &&& 0xFFFF0000)
  if (nowMs &&& 0x8000) < (t32 &&& 0x8000) then t32 - 0x10000 else t32

/-- The sample `on_ack` takes, if it takes one. -/
def rttSample (receivedSentTime : U16) (nowMs : U32) : Option U32 :=
  if echoTime receivedSentTime nowMs ≤ nowMs then
    some (umax (nowMs - echoTime receivedSentTime nowMs) 1)
  else none

theorem PeerEntry.sampleRtt_eq (p : PeerEntry) (receivedSentTime : U16) (nowMs : U32) :
    p.sampleRtt receivedSentTime nowMs = (rttSample receivedSentTime nowMs).elim p p.updateRtt := by
  show (if echoTime receivedSentTime nowMs ≤ nowMs then _ else _) = _
  unfold rttSample
  split <;> rfl

/-- **The sample, in plain arithmetic**: the distance of the low halves if the
echo is not ahead of the clock, the distance around the half if it is ahead
across the middle and the clock has a half to give back, and nothing otherwise. -/
theorem rttSample_toNat (receivedSentTime : U16) (nowMs : U32) :
    (rttSample receivedSentTime nowMs).map BitVec.toNat
      = if receivedSentTime.toNat ≤ nowMs.toNat % 65536 then
          some (max (nowMs.toNat % 65536 - receivedSentTime.toNat) 1)
        else if nowMs.toNat % 65536 < 32768 ∧ 32768 ≤ receivedSentTime.toNat ∧ 65536 ≤ nowMs.toNat then
          some (nowMs.toNat % 65536 + 65536 - receivedSentTime.toNat)
        else none := by
  have hecho : receivedSentTime.toNat < 65536 := receivedSentTime.isLt
  have hnow : nowMs.toNat < 4294967296 := nowMs.isLt
  have hmax : ∀ x : U32, (umax x 1).toNat = max x.toNat 1 := by
    intro x
    unfold umax
    split <;> bv_omega
  generalize hjoin : receivedSentTime.setWidth 32 ||| (nowMs &&& 0xFFFF0000) = t32
  have ht := toNat_or_high receivedSentTime nowMs
  rw [hjoin] at ht
  have hlow : t32.toNat % 65536 = receivedSentTime.toNat := by omega
  unfold rttSample echoTime
  simp only [hjoin, and_bit15_lt_iff, hlow]
  by_cases hcorrect : nowMs.toNat % 65536 < 32768 ∧ 32768 ≤ receivedSentTime.toNat
  · -- the echo is taken from the half before
    rw [if_pos hcorrect, if_neg (by omega : ¬ receivedSentTime.toNat ≤ nowMs.toNat % 65536)]
    have hback : (t32 - 0x10000).toNat = (t32.toNat + (4294967296 - 65536)) % 4294967296 := by
      rw [BitVec.toNat_sub, Nat.add_comm]
      rfl
    by_cases hhigh : 65536 ≤ nowMs.toNat
    · have hle : t32 - 0x10000 ≤ nowMs := by
        rw [BitVec.le_def]
        omega
      rw [if_pos hle, if_pos (And.intro hcorrect.1 ⟨hcorrect.2, hhigh⟩), Option.map_some, hmax,
        BitVec.toNat_sub_of_le hle]
      congr 1
      omega
    · -- below 65536 there is no half before: the subtraction wraps past the clock
      have hgt : ¬ t32 - 0x10000 ≤ nowMs := by
        rw [BitVec.le_def]
        omega
      rw [if_neg hgt, if_neg fun hall => hhigh hall.2.2]
      rfl
  · rw [if_neg hcorrect]
    by_cases hle : receivedSentTime.toNat ≤ nowMs.toNat % 65536
    · have hle' : t32 ≤ nowMs := by
        rw [BitVec.le_def]
        omega
      rw [if_pos hle, if_pos hle', Option.map_some, hmax, BitVec.toNat_sub_of_le hle']
      congr 2
      omega
    · have hgt : ¬ t32 ≤ nowMs := by
        rw [BitVec.le_def]
        omega
      rw [if_neg hle, if_neg hgt, if_neg fun hall => hcorrect ⟨hall.1, hall.2.1⟩]
      rfl

theorem rttSample_bounds {receivedSentTime : U16} {nowMs sample : U32}
    (hs : rttSample receivedSentTime nowMs = some sample) : 1 ≤ sample.toNat ∧ sample.toNat ≤ 65535 := by
  have hecho : receivedSentTime.toNat < 65536 := receivedSentTime.isLt
  have hnat := rttSample_toNat receivedSentTime nowMs
  rw [hs, Option.map_some] at hnat
  split at hnat
  · have := Option.some.inj hnat
    omega
  · split at hnat
    · have := Option.some.inj hnat
      omega
    · cases hnat

/-! ## §2. The estimate. -/

/-- The estimate of an entry is in range. -/
structure RttInRange (p : PeerEntry) : Prop where
  rtt : 1 ≤ p.rtt.toNat ∧ p.rtt.toNat ≤ 65535
  var : p.rttVar.toNat ≤ 65535

namespace PeerEntry

/-- `update_rtt` with every operation checked, the saturating ones included. -/
def updateRttChecked (p : PeerEntry) (sample : U32) : Option PeerEntry :=
  if !p.rttInitialized then
    some { p with
      rtt := sample
      rttVar := BitVec.ofNat 32 (divCeil sample.toNat 2)
      rttInitialized := true }
  else do
    let rttVar ← checkedSub p.rttVar (p.rttVar / 4)
    if p.rtt ≤ sample then
      let diff ← checkedSub sample p.rtt
      let rttVar ← checkedAdd rttVar (diff / 4)
      let rtt ← checkedAdd p.rtt (diff / 8)
      return { p with rttVar := rttVar, rtt := rtt }
    else
      let diff ← checkedSub p.rtt sample
      let rttVar ← checkedAdd rttVar (diff / 4)
      let rtt ← checkedSub p.rtt (diff / 8)
      return { p with rttVar := rttVar, rtt := rtt }

/-- `initial_rtt_timeout` with every operation checked. -/
def initialRttTimeoutChecked (p : PeerEntry) : Option U32 := do
  let spread ← checkedMul p.rttVar 4
  let timeout ← checkedAdd p.rtt spread
  return umax timeout 200

/-- The RTT part of `on_ack` with every operation checked but the wrapping
subtraction of 0x10000, which is meant to wrap. -/
def sampleRttChecked (p : PeerEntry) (receivedSentTime : U16) (nowMs : U32) : Option PeerEntry :=
  if echoTime receivedSentTime nowMs ≤ nowMs then do
    let elapsed ← checkedSub nowMs (echoTime receivedSentTime nowMs)
    p.updateRttChecked (umax elapsed 1)
  else some p

variable {p : PeerEntry} {sample : U32}

/-- The variance after a sample whose distance from the estimate is `diff`:
65535 is the largest value it can keep. -/
theorem rttVar_step {rttVar diff : U32} (hvar : rttVar.toNat ≤ 65535) (hdiff : diff.toNat ≤ 65535) :
    checkedSub rttVar (rttVar / 4) = some (satSub rttVar (rttVar / 4))
      ∧ checkedAdd (satSub rttVar (rttVar / 4)) (diff / 4)
        = some (satSub rttVar (rttVar / 4) + diff / 4)
      ∧ (satSub rttVar (rttVar / 4) + diff / 4).toNat ≤ 65535 := by
  have hquarter : (rttVar / 4).toNat = rttVar.toNat / 4 := BitVec.toNat_udiv
  have hpart : (diff / 4).toNat = diff.toNat / 4 := BitVec.toNat_udiv
  have hle : (rttVar / 4).toNat ≤ rttVar.toNat := by omega
  have hsub : (satSub rttVar (rttVar / 4)).toNat = rttVar.toNat - rttVar.toNat / 4 := by
    rw [satSub, if_pos (BitVec.le_def.mpr hle), BitVec.toNat_sub_of_le (BitVec.le_def.mpr hle),
      hquarter]
  refine ⟨checkedSub_eq_satSub hle, checkedAdd_of_lt (by omega), ?_⟩
  rw [BitVec.toNat_add, hsub, hpart]
  omega

/-- **One sample**: nothing overflows, the estimate stays in range, and it moves
towards the sample without passing it. -/
theorem updateRtt_spec (hp : RttInRange p) (hs : 1 ≤ sample.toNat ∧ sample.toNat ≤ 65535) :
    p.updateRttChecked sample = some (p.updateRtt sample) ∧ RttInRange (p.updateRtt sample)
      ∧ min p.rtt.toNat sample.toNat ≤ (p.updateRtt sample).rtt.toNat
      ∧ (p.updateRtt sample).rtt.toNat ≤ max p.rtt.toNat sample.toNat := by
  obtain ⟨⟨hlo, hhi⟩, hvar⟩ := hp
  unfold updateRttChecked updateRtt
  cases p.rttInitialized with
  | false =>
      -- the first sample is the estimate
      refine ⟨rfl, ⟨hs, ?_⟩, Nat.min_le_right _ _, Nat.le_max_right _ _⟩
      show (BitVec.ofNat 32 (divCeil sample.toNat 2)).toNat ≤ 65535
      rw [BitVec.toNat_ofNat, divCeil]
      omega
  | true =>
      by_cases hup : p.rtt ≤ sample
      · have hle : p.rtt.toNat ≤ sample.toNat := hup
        have hdiff : (sample - p.rtt).toNat = sample.toNat - p.rtt.toNat := BitVec.toNat_sub_of_le hup
        have heighth : ((sample - p.rtt) / 8).toNat = (sample.toNat - p.rtt.toNat) / 8 := by
          rw [← hdiff]
          exact BitVec.toNat_udiv
        obtain ⟨hsub, hadd, hbound⟩ := rttVar_step hvar (show (sample - p.rtt).toNat ≤ 65535 by omega)
        have hrtt : (p.rtt + (sample - p.rtt) / 8).toNat
            = p.rtt.toNat + (sample.toNat - p.rtt.toNat) / 8 := by
          rw [BitVec.toNat_add, heighth]
          omega
        simp only [Bool.not_true, Bool.false_eq_true, if_false, if_pos hup, hsub, hadd,
          Option.bind_eq_bind, Option.bind_some,
          checkedSub_of_le hle, checkedAdd_of_lt (show p.rtt.toNat + ((sample - p.rtt) / 8).toNat
            < 2 ^ 32 by omega)]
        refine ⟨rfl, ⟨?_, hbound⟩, ?_⟩
        · show 1 ≤ (p.rtt + (sample - p.rtt) / 8).toNat ∧ (p.rtt + (sample - p.rtt) / 8).toNat ≤ 65535
          omega
        · omega
      · have hlt : sample.toNat < p.rtt.toNat := by
          rw [BitVec.le_def] at hup
          omega
        have hdown : sample ≤ p.rtt := BitVec.le_def.mpr hlt.le
        have hdiff : (p.rtt - sample).toNat = p.rtt.toNat - sample.toNat :=
          BitVec.toNat_sub_of_le hdown
        have heighth : ((p.rtt - sample) / 8).toNat = (p.rtt.toNat - sample.toNat) / 8 := by
          rw [← hdiff]
          exact BitVec.toNat_udiv
        obtain ⟨hsub, hadd, hbound⟩ := rttVar_step hvar (show (p.rtt - sample).toNat ≤ 65535 by omega)
        have hpart : ((p.rtt - sample) / 8).toNat ≤ p.rtt.toNat := by omega
        have hrtt : (satSub p.rtt ((p.rtt - sample) / 8)).toNat
            = p.rtt.toNat - (p.rtt.toNat - sample.toNat) / 8 := by
          rw [satSub, if_pos (BitVec.le_def.mpr hpart),
            BitVec.toNat_sub_of_le (BitVec.le_def.mpr hpart), heighth]
        simp only [Bool.not_true, Bool.false_eq_true, if_false, if_neg hup, hsub, hadd,
          Option.bind_eq_bind, Option.bind_some,
          checkedSub_of_le hlt.le, checkedSub_eq_satSub hpart]
        refine ⟨rfl, ⟨?_, hbound⟩, ?_⟩
        · show 1 ≤ (satSub p.rtt ((p.rtt - sample) / 8)).toNat
            ∧ (satSub p.rtt ((p.rtt - sample) / 8)).toNat ≤ 65535
          omega
        · omega

theorem initialRttTimeout_spec (hp : RttInRange p) :
    p.initialRttTimeoutChecked = some p.initialRttTimeout
      ∧ 200 ≤ p.initialRttTimeout.toNat ∧ p.initialRttTimeout.toNat ≤ 327675 := by
  obtain ⟨⟨-, hhi⟩, hvar⟩ := hp
  have hspread : p.rttVar.toNat * (4 : U32).toNat < 2 ^ 32 := by
    show p.rttVar.toNat * 4 < _
    omega
  have hmul : (satMul p.rttVar 4).toNat = p.rttVar.toNat * 4 := toNat_satMul_of_lt hspread
  have hsum : p.rtt.toNat + (satMul p.rttVar 4).toNat < 2 ^ 32 := by omega
  have hadd : (satAdd p.rtt (satMul p.rttVar 4)).toNat = p.rtt.toNat + p.rttVar.toNat * 4 := by
    rw [satAdd, if_pos hsum, BitVec.toNat_add, hmul]
    omega
  refine ⟨?_, ?_⟩
  · simp only [initialRttTimeoutChecked, checkedMul_eq_satMul hspread, Option.bind_eq_bind,
      Option.bind_some, checkedAdd_eq_satAdd hsum]
    rfl
  · unfold initialRttTimeout umax
    split
    · decide
    · next hge =>
      rw [BitVec.lt_def, Nat.not_lt] at hge
      exact ⟨hge, by omega⟩

theorem sampleRtt_spec (hp : RttInRange p) (receivedSentTime : U16) (nowMs : U32) :
    p.sampleRttChecked receivedSentTime nowMs = some (p.sampleRtt receivedSentTime nowMs)
      ∧ RttInRange (p.sampleRtt receivedSentTime nowMs) := by
  rw [sampleRtt_eq, sampleRttChecked]
  by_cases hle : echoTime receivedSentTime nowMs ≤ nowMs
  · have hs : rttSample receivedSentTime nowMs
        = some (umax (nowMs - echoTime receivedSentTime nowMs) 1) := if_pos hle
    have hspec := updateRtt_spec hp (rttSample_bounds hs)
    rw [if_pos hle, checkedSub_of_le hle, hs]
    exact ⟨hspec.1, hspec.2.1⟩
  · have hs : rttSample receivedSentTime nowMs = none := if_neg hle
    rw [if_neg hle, hs]
    exact ⟨rfl, hp⟩

/-- What the estimator has of an entry. -/
def estimate (p : PeerEntry) : U32 × U32 × Bool := (p.rtt, p.rttVar, p.rttInitialized)

theorem estimate_updateRtt {q : PeerEntry} (hpq : p.estimate = q.estimate) (sample : U32) :
    (p.updateRtt sample).estimate = (q.updateRtt sample).estimate := by
  obtain ⟨hrtt, hvar, hinit⟩ : p.rtt = q.rtt ∧ p.rttVar = q.rttVar
      ∧ p.rttInitialized = q.rttInitialized := by
    simpa only [estimate, Prod.mk.injEq] using hpq
  unfold updateRtt
  simp only [hrtt, hvar, hinit]
  repeat' split
  all_goals rfl

/-- What an ACK does to the estimate is what its sample does. -/
theorem estimate_applyAck (p : PeerEntry) (ch : U8) (a : AcknowledgeCmd) (nowMs : U32) :
    (p.applyAck ch a nowMs).estimate = (p.sampleRtt a.receivedSentTime nowMs).estimate := by
  have hthrottle : ∀ q : PeerEntry, (q.adjustThrottle nowMs).estimate = q.estimate := by
    intro q
    unfold adjustThrottle
    simp only
    repeat' split
    all_goals rfl
  show ((({ p with lastReceiveTime := nowMs } : PeerEntry).sampleRtt a.receivedSentTime
    nowMs).adjustThrottle nowMs).estimate = _
  rw [hthrottle, sampleRtt_eq, sampleRtt_eq]
  cases rttSample a.receivedSentTime nowMs with
  | none => rfl
  | some sample =>
      have hsame : ({ p with lastReceiveTime := nowMs } : PeerEntry).estimate = p.estimate := rfl
      exact estimate_updateRtt hsame sample

end PeerEntry

/-! ## §3. Every reachable state. -/

theorem RttInRange.congr {p q : PeerEntry} (hpq : q.estimate = p.estimate) (hp : RttInRange p) :
    RttInRange q := by
  have hrtt : q.rtt = p.rtt := congrArg (·.1) hpq
  have hvar : q.rttVar = p.rttVar := congrArg (·.2.1) hpq
  exact ⟨by rw [hrtt]; exact hp.rtt, by rw [hvar]; exact hp.var⟩

/-- Only an ACK touches the estimate. -/
theorem PeerOp.apply_rttInRange {p : PeerEntry} (hp : RttInRange p) (nowMs : U32) (o : PeerOp) :
    RttInRange (o.apply nowMs p) := by
  suffices hsame : (∀ ch a, o ≠ .ack ch a) → (o.apply nowMs p).estimate = p.estimate by
    by_cases hack : ∀ ch a, o ≠ .ack ch a
    · exact .congr (hsame hack) hp
    · simp only [not_forall, not_not] at hack
      obtain ⟨ch, a, rfl⟩ := hack
      exact .congr (p.estimate_applyAck ch a nowMs) (PeerEntry.sampleRtt_spec hp _ nowMs).2
  intro hack
  refine (o.get_apply (·.estimate) nowMs p).trans ?_
  cases o with
  | ack ch a => exact (hack ch a rfl).elim
  | _ => rfl

theorem IsNewEntry.rttInRange {h : HostTask} {slot : PeerKey} {nowMs : U32} {entry : PeerEntry}
    (hn : IsNewEntry h slot nowMs entry) : RttInRange entry := by
  have hfresh : entry.estimate = (defaultRttMs, defaultRttMs / 2, false) := by
    rcases hn with ⟨addr, channelCount, userData, reply, connectId, rfl⟩ | ⟨c, hdr, src, rfl⟩
    · rfl
    · rfl
  have hrtt : entry.rtt = defaultRttMs := congrArg (·.1) hfresh
  have hvar : entry.rttVar = defaultRttMs / 2 := congrArg (·.2.1) hfresh
  refine ⟨?_, ?_⟩
  · rw [hrtt]
    decide
  · rw [hvar]
    decide

theorem HostTask.Reachable.rttInRange {h : HostTask} (hr : h.Reachable) :
    ∀ k p, h.peer k = some p → RttInRange p := by
  refine hr.invariant (fun h => ∀ k p, h.peer k = some p → RttInRange p) (by simp) ?_
  intro nowMs h l hi hg
  exact Label.entries hg (fun _ _ _ hn => hn.rttInRange)
    (fun _ _ o _ _ hp _ => PeerOp.apply_rttInRange hp nowMs o) hi

/-- The entry after the RTT part of `on_ack` for each of these echoes and times. -/
def PeerEntry.sampleAll (p : PeerEntry) (echoes : List (U16 × U32)) : PeerEntry :=
  echoes.foldl (fun q e => q.sampleRtt e.1 e.2) p

theorem PeerEntry.sampleAll_inRange {p : PeerEntry} (hp : RttInRange p)
    (echoes : List (U16 × U32)) : RttInRange (p.sampleAll echoes) := by
  induction echoes generalizing p with
  | nil => exact hp
  | cons e echoes ih => exact ih (sampleRtt_spec hp e.1 e.2).2

/-- **The estimator is bounded.**  Take any entry of a reachable state and any
number of samples, of whatever echoes at whatever times: estimate, variance
and initial timeout are in range.  The next sample is between 1 and 65535, the
estimate stays between its old value and the sample, and no operation on the
way overflows, underflows or saturates. -/
theorem rtt_estimator_bounded {h : HostTask} (hr : h.Reachable) {k : PeerKey} {p : PeerEntry}
    (hp : h.peer k = some p) (echoes : List (U16 × U32)) (receivedSentTime : U16) (nowMs : U32) :
    (1 ≤ (p.sampleAll echoes).rtt.toNat ∧ (p.sampleAll echoes).rtt.toNat ≤ 65535)
      ∧ (p.sampleAll echoes).rttVar.toNat ≤ 65535
      ∧ (200 ≤ (p.sampleAll echoes).initialRttTimeout.toNat
        ∧ (p.sampleAll echoes).initialRttTimeout.toNat ≤ 327675)
      ∧ (p.sampleAll echoes).initialRttTimeoutChecked = some (p.sampleAll echoes).initialRttTimeout
      ∧ (p.sampleAll echoes).sampleRttChecked receivedSentTime nowMs
        = some ((p.sampleAll echoes).sampleRtt receivedSentTime nowMs)
      ∧ ∀ sample, rttSample receivedSentTime nowMs = some sample →
        (1 ≤ sample.toNat ∧ sample.toNat ≤ 65535)
          ∧ (p.sampleAll echoes).sampleRtt receivedSentTime nowMs = (p.sampleAll echoes).updateRtt sample
          ∧ min (p.sampleAll echoes).rtt.toNat sample.toNat
            ≤ ((p.sampleAll echoes).updateRtt sample).rtt.toNat
          ∧ ((p.sampleAll echoes).updateRtt sample).rtt.toNat
            ≤ max (p.sampleAll echoes).rtt.toNat sample.toNat := by
  have hq : RttInRange (p.sampleAll echoes) := p.sampleAll_inRange (hr.rttInRange k p hp) echoes
  obtain ⟨hchecked, hlo, hhi⟩ := PeerEntry.initialRttTimeout_spec hq
  refine ⟨hq.rtt, hq.var, ⟨hlo, hhi⟩, hchecked, (PeerEntry.sampleRtt_spec hq _ _).1, ?_⟩
  intro sample hs
  have hbounds := rttSample_bounds hs
  obtain ⟨-, -, hbetween⟩ := PeerEntry.updateRtt_spec hq hbounds
  refine ⟨hbounds, ?_, hbetween⟩
  rw [PeerEntry.sampleRtt_eq, hs]
  rfl

theorem rtt_estimator_bounded_alice :
    ∃ (h : HostTask) (p : PeerEntry), h.Reachable ∧ h.peer 0 = some p ∧ p.rttInitialized = true
      ∧ 1 ≤ (p.sampleAll [(0, 40000)]).rtt.toNat ∧ (p.sampleAll [(0, 40000)]).rtt.toNat ≤ 65535 := by
  have hrun : ((HostTask.bind 4 false 0 0).run (HostTask.aliceConnects 0)).any (fun h =>
      (h.peer 0).any fun p => p.rttInitialized) = true := by decide +kernel
  obtain ⟨h, hh, hrest⟩ := (Option.any_eq_true _ _).mp hrun
  obtain ⟨p, hp, hinit⟩ := (Option.any_eq_true _ _).mp hrest
  have hr : h.Reachable := ⟨_, _, _, _, _, _, hh⟩
  have hbounded := rtt_estimator_bounded hr hp [(0, 40000)] 0 0
  exact ⟨h, p, hr, hp, hinit, hbounded.1⟩

/-! ## §4. How good the reconstruction is. -/

/-- The sample of a delay `d` below a half, in plain arithmetic. -/
theorem rttSample_of_delay (s : U32) {d : Nat} (hd : d ≤ 65535) :
    (rttSample (s.setWidth 16) (s + BitVec.ofNat 32 d)).map BitVec.toNat
      = if s.toNat + d < 2 ^ 32 ∧ (d ≤ 32768 ∨ s.toNat % 65536 + d < 65536
          ∨ (32768 ≤ s.toNat % 65536 ∧ (s.toNat + d) % 65536 < 32768)) then some (max d 1)
        else none := by
  have hs : s.toNat < 4294967296 := s.isLt
  have hecho : (s.setWidth 16).toNat = s.toNat % 65536 := BitVec.toNat_setWidth 16 s
  have hnow : (s + BitVec.ofNat 32 d).toNat = (s.toNat + d) % 4294967296 := by
    rw [BitVec.toNat_add, BitVec.toNat_ofNat]
    omega
  rw [rttSample_toNat, hecho, hnow]
  by_cases hwrap : s.toNat + d < 2 ^ 32
  · have hmod : (s.toNat + d) % 4294967296 = s.toNat + d := Nat.mod_eq_of_lt hwrap
    rw [hmod]
    by_cases hhalf : s.toNat % 65536 + d < 65536
    · -- the clock is in the same half as the send time
      rw [if_pos (by omega), if_pos ⟨hwrap, .inr (.inl hhalf)⟩]
      congr 2
      omega
    · rw [if_neg (by omega)]
      by_cases hmid : 32768 ≤ s.toNat % 65536 ∧ (s.toNat + d) % 65536 < 32768
      · rw [if_pos ⟨hmid.2, hmid.1, by omega⟩, if_pos ⟨hwrap, .inr (.inr hmid)⟩]
        congr 1
        omega
      · rw [if_neg (by omega), if_neg (by omega)]
  · -- the clock has wrapped: the half before the send time's is not there
    rw [if_neg (by omega), if_neg (by omega), if_neg fun hall => hwrap hall.1]

/-- The sample a delay of `d` ms should give: exact up to 32768 ms, exact or none
up to 65535 ms. -/
def SampleExact (d : Nat) (sample : Option U32) : Prop :=
  (d ≤ 32768 → sample = some (BitVec.ofNat 32 (max d 1)))
    ∧ (32768 < d → sample = some (BitVec.ofNat 32 d) ∨ sample = none)

theorem map_toNat_eq_some {sample : Option U32} {n : Nat} (hn : n < 2 ^ 32) :
    sample.map BitVec.toNat = some n ↔ sample = some (BitVec.ofNat 32 n) := by
  rw [Option.map_eq_some_iff]
  constructor
  · rintro ⟨x, rfl, rfl⟩
    rw [BitVec.ofNat_toNat, BitVec.setWidth_eq]
  · rintro rfl
    exact ⟨_, rfl, by rw [BitVec.toNat_ofNat, Nat.mod_eq_of_lt hn]⟩

theorem sampleExact_iff (s : U32) {d : Nat} (hd : d ≤ 65535) :
    SampleExact d (rttSample (s.setWidth 16) (s + BitVec.ofNat 32 d))
      ↔ (d ≤ 32768 → s.toNat + d < 2 ^ 32) := by
  have hsample := rttSample_of_delay s hd
  have hsmall : max d 1 < 2 ^ 32 := by omega
  unfold SampleExact
  rw [← map_toNat_eq_some hsmall, ← map_toNat_eq_some (by omega : d < 2 ^ 32), hsample]
  constructor
  · intro hexact hle
    have hsome := hexact.1 hle
    split at hsome
    · next hall => exact hall.1
    · cases hsome
  · intro hwrap
    refine ⟨fun hle => if_pos ⟨hwrap hle, .inl hle⟩, fun hgt => ?_⟩
    split
    · left
      congr 1
      omega
    · next hnot =>
      right
      rw [if_neg hnot, Option.map_eq_none_iff] at hsample
      exact hsample

/-- **Timestamp reconstruction.**  A datagram is built at time `s`, the ACK of
one of its commands echoes the send time of its header, and `on_ack` processes
that ACK `d` ms later.  The sample is right exactly if the 32-bit clock has not
wrapped in between, where `d ≤ 32768`; beyond that it is right in every case. -/
theorem sample_exact_iff (useChecksum : Bool) (q : PeerEntry) (cmds : List Bytes) (s : U32) (d : Nat)
    (hd : d ≤ 65535) (ch : U8) (seq : U16) (p : PeerEntry) :
    ∃ hdr slice t chdr a,
      ProtocolHeader.parse (HostTask.makeDatagram useChecksum q cmds s) = some (hdr, slice)
        ∧ hdr.sentTime = some t
        ∧ Command.parse (HostTask.ack ch seq t) = some (⟨chdr, .acknowledge a⟩, [])
        ∧ (p.applyAck ch a (s + BitVec.ofNat 32 d)).estimate
          = ((rttSample a.receivedSentTime (s + BitVec.ofNat 32 d)).elim p p.updateRtt).estimate
        ∧ (SampleExact d (rttSample a.receivedSentTime (s + BitVec.ofNat 32 d))
          ↔ (d ≤ 32768 → s.toNat + d < 2 ^ 32)) := by
  have hack : Command.parse (HostTask.ack ch seq (s.setWidth 16))
      = some (⟨⟨cmdAcknowledge, ch, 0⟩, .acknowledge ⟨seq, s.setWidth 16⟩⟩, []) := by
    have hwf : Command.WellFormed
        ⟨⟨cmdAcknowledge, ch, 0⟩, .acknowledge ⟨seq, s.setWidth 16⟩⟩ := by
      refine ⟨?_, Nat.zero_lt_succ _⟩
      show cmdAcknowledge &&& commandMask = cmdAcknowledge
      decide
    have hwrite := Command.parse_write hwf []
    rw [List.append_nil] at hwrite
    exact hwrite
  refine ⟨_, _, s.setWidth 16, _, _, HostTask.parse_makeDatagram, rfl, hack, ?_, sampleExact_iff s hd⟩
  rw [PeerEntry.estimate_applyAck, PeerEntry.sampleRtt_eq]

/-- A delay of 25 ms, across the end of the 16-bit clock. -/
theorem sample_exact_iff_short :
    ∃ a : AcknowledgeCmd, SampleExact 25 (rttSample a.receivedSentTime (65530 + BitVec.ofNat 32 25)) := by
  let p := PeerEntry.fresh HostTask.alice 77 0 1392 2 0
  obtain ⟨_, _, _, _, a, -, -, -, -, hexact⟩ :=
    sample_exact_iff false p [] 65530 25 (by decide) 0 1 p
  exact ⟨a, hexact.mpr fun _ => by decide⟩

/-- **The sample lost at the end of the clock.**  VERIFY_CONNECT leaves at
0xFFFFFFFE, its ACK with the right echo arrives 3 ms later, at time 1: the
handshake is complete, and no sample has been taken. -/
theorem sample_lost_at_wrap :
    ∃ (h : HostTask) (p : PeerEntry),
      (HostTask.bind 4 false 0 0).run
          [(0xFFFFFFFE, .datagram (connectDatagram 77 2 1392) HostTask.alice),
           (0xFFFFFFFE + 3, .datagram (peerDatagram 0 9
             [HostTask.ack channelIdConnection 1 ((0xFFFFFFFE : U32).setWidth 16)]) HostTask.alice)]
          = some h
        ∧ h.peer 0 = some p ∧ p.state = .connected ∧ p.rttInitialized = false
        ∧ ¬ SampleExact 3 (rttSample ((0xFFFFFFFE : U32).setWidth 16) (0xFFFFFFFE + 3)) := by
  have hrun : ((HostTask.bind 4 false 0 0).run
      [(0xFFFFFFFE, .datagram (connectDatagram 77 2 1392) HostTask.alice),
       (0xFFFFFFFE + 3, .datagram (peerDatagram 0 9
         [HostTask.ack channelIdConnection 1 ((0xFFFFFFFE : U32).setWidth 16)]) HostTask.alice)]).any
      (fun h => (h.peer 0).any fun p => decide (p.state = .connected) && !p.rttInitialized) = true := by
    decide +kernel
  obtain ⟨h, hh, hrest⟩ := (Option.any_eq_true _ _).mp hrun
  obtain ⟨p, hp, hlost⟩ := (Option.any_eq_true _ _).mp hrest
  simp only [Bool.and_eq_true, decide_eq_true_eq, Bool.not_eq_true'] at hlost
  refine ⟨h, p, hh, hp, hlost.1, hlost.2, fun hexact => ?_⟩
  have hnone : rttSample ((0xFFFFFFFE : U32).setWidth 16) (0xFFFFFFFE + 3) = none := by decide
  rw [hnone] at hexact
  exact nomatch hexact.1 (by decide)

end EnetRs
