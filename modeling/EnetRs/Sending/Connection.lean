/-
  EnetRs.Sending.Connection — the numbers of the connection's own channel.

  No window guards the commands on channel 0xFF.  Their numbers do not collide
  because of time: PING and DISCONNECT are sent with nothing outstanding,
  BANDWIDTH_LIMIT at most once a second, and a command that is not
  acknowledged does not live through a tick once its age is over six minutes.
  A few hundred numbers are in use at most, of 65536.

  Main results:
    * `Aged.shift`, `SparseAt.recent_of_loop` — how old a command can get.
    * `Sparse.op`, `SparseAt.serviceOne` — how many numbers lie between a command
      and the counter.
    * `sparse_run` — in every run on a clock that does not run backwards, the
      numbers of channel 0xFF are new when they are used.
-/
import EnetRs.Safety.Rtt
import EnetRs.Sending.Budget
import EnetRs.Sending.Retransmit
import EnetRs.Sending.Window

namespace EnetRs

open MachineInt

/-! ## §1. The age of a command. -/

theorem since_self (t : U32) : since t t = 0 := by
  unfold since
  bv_omega

/-- The time that has passed adds up, as long as the clock does not get around. -/
theorem since_add {base s t : U32} (hlt : since base s + since s t < 2 ^ 32) :
    since base t = since base s + since s t := by
  unfold since at *
  bv_omega

theorem since_le (base s t : U32) : since base t ≤ since base s + since s t := by
  unfold since
  bv_omega

/-- The age at which the next tick ends a command's life at the latest: its
longest timeout, after its last transmission within 30 seconds. -/
def ageLimit : Nat := 357675

/-- At time `t` the command is at most `bound` ms old. -/
structure Aged (bound : Nat) (t : U32) (r : OutstandingReliable) : Prop where
  timeout : r.rttTimeout.toNat ≤ 327675
  sent : since r.sentTime t ≤ since r.originalSentTime t
  last : since r.originalSentTime t ≤ since r.sentTime t + 30000
  age : since r.originalSentTime t ≤ bound

namespace Aged

variable {bound : Nat} {t : U32} {r : OutstandingReliable}

theorem of_justSent (hr : JustSent t r) (ht : r.rttTimeout.toNat ≤ 327675) (bound : Nat) :
    Aged bound t r := by
  refine ⟨ht, ?_, ?_, ?_⟩
  · rw [hr.sent, hr.original]
  · rw [hr.sent, hr.original]
    omega
  · rw [hr.original, since_self]
    exact Nat.zero_le _

/-- Time passes. -/
theorem shift (hr : Aged bound t r) {t' : U32} (hlt : bound + since t t' < 2 ^ 32) :
    Aged (bound + since t t') t' r := by
  have hage := hr.age
  have hsent := hr.sent
  have hlast := hr.last
  have horiginal : since r.originalSentTime t' = since r.originalSentTime t + since t t' :=
    since_add (by omega)
  have hagain : since r.sentTime t' = since r.sentTime t + since t t' := since_add (by omega)
  refine ⟨hr.timeout, ?_, ?_, ?_⟩ <;> omega

theorem lt_of_live (hlive : r.expired t = false) : since r.originalSentTime t < 30000 := by
  simp only [OutstandingReliable.expired, Bool.or_eq_false_iff, decide_eq_false_iff_not,
    BitVec.not_le] at hlive
  exact hlive.1

/-- A command that is sent again. -/
theorem resend (hr : Aged bound t r) (hdue : r.waiting t = false) (hlive : r.expired t = false) :
    Aged bound t (r.retransmit t) := by
  have hyoung := lt_of_live hlive
  have hsent := hr.sent
  have hge : r.rttTimeout.toNat ≤ since r.sentTime t := by
    simp only [OutstandingReliable.waiting, decide_eq_false_iff_not, BitVec.not_lt] at hdue
    exact hdue
  refine ⟨?_, ?_, ?_, hr.age⟩
  · show (satMul r.rttTimeout 2).toNat ≤ 327675
    have hsmall : r.rttTimeout.toNat * (2 : U32).toNat < 2 ^ 32 := by
      show r.rttTimeout.toNat * 2 < 2 ^ 32
      omega
    rw [toNat_satMul_of_lt hsmall]
    show r.rttTimeout.toNat * 2 ≤ 327675
    omega
  · show since t t ≤ since r.originalSentTime t
    rw [since_self]
    exact Nat.zero_le _
  · show since r.originalSentTime t ≤ since t t + 30000
    omega

/-- **What a tick leaves alive is recent.** -/
theorem recent (hr : Aged bound t r) (hkept : r.waiting t = true ∨ r.expired t = false) :
    Aged ageLimit t r := by
  refine { hr with age := ?_ }
  have hlimit : ageLimit = 357675 := rfl
  rcases hkept with hwait | hlive
  · have hlt : since r.sentTime t < r.rttTimeout.toNat := of_decide_eq_true hwait
    have htimeout := hr.timeout
    have hlast := hr.last
    omega
  · have hyoung := lt_of_live hlive
    omega

end Aged

/-- A loop that was not broken off has left every command alive. -/
theorem retransmitLoop_alive (nowMs : U32) :
    ∀ (es : List ((U8 × U16) × OutstandingReliable)) (m : OutgoingReliable),
      (retransmitLoop nowMs es m).1 = false →
      ∀ e ∈ es, e.2.waiting nowMs = true ∨ e.2.expired nowMs = false := by
  intro es
  induction es with
  | nil => exact fun _ _ => nofun
  | cons e es ih =>
      intro m hm e' he'
      obtain ⟨k, r⟩ := e
      unfold retransmitLoop at hm
      split at hm
      · next hwait =>
        rcases List.mem_cons.mp he' with rfl | he'
        · exact .inl hwait
        · exact ih m hm e' he'
      · split at hm
        · cases hm
        · next hlive =>
          rcases List.mem_cons.mp he' with rfl | he'
          · exact .inr (Bool.eq_false_iff.mpr hlive)
          · exact ih _ hm e' he'

/-! ## §2. First timeouts. -/

/-- Every command outstanding in `q` is so in `p`, or was just sent with a
timeout in range. -/
def SendsTimely (nowMs : U32) (p q : PeerEntry) : Prop :=
  RttInRange p → RttInRange q ∧ ∀ (key : U8 × U16) (r : OutstandingReliable),
    q.outgoingReliable[key]? = some r →
      p.outgoingReliable[key]? = some r ∨ (JustSent nowMs r ∧ r.rttTimeout.toNat ≤ 327675)

namespace SendsTimely

variable {nowMs : U32} {p q s : PeerEntry}

theorem of_same (hest : q.estimate = p.estimate) (hout : q.outgoingReliable = p.outgoingReliable) :
    SendsTimely nowMs p q :=
  fun hp => ⟨.congr hest hp, fun key r hr => .inl (by rw [← hout]; exact hr)⟩

theorem trans (hpq : SendsTimely nowMs p q) (hqs : SendsTimely nowMs q s) :
    SendsTimely nowMs p s := by
  intro hp
  obtain ⟨hq, hold⟩ := hpq hp
  obtain ⟨hs, hnew⟩ := hqs hq
  refine ⟨hs, fun key r hr => ?_⟩
  rcases hnew key r hr with hr | hsent
  · exact hold key r hr
  · exact .inr hsent

theorem track (p : PeerEntry) (ch : U8) (seq : U16) (cmdType : U8) (cmd : Bytes) :
    SendsTimely nowMs p (p.track ch seq cmdType cmd nowMs) := by
  intro hp
  refine ⟨⟨hp.rtt, hp.var⟩, fun key r hr => ?_⟩
  rcases SendsFrom.track p ch seq cmdType cmd key r hr with hold | hnew
  · exact .inl hold
  · by_cases hkey : (ch, seq) = key
    · subst hkey
      have heq : (p.track ch seq cmdType cmd nowMs).outgoingReliable[(ch, seq)]? = some _ :=
        Std.ExtTreeMap.getElem?_insert_self
      cases heq.symm.trans hr
      exact .inr ⟨hnew, (PeerEntry.initialRttTimeout_spec hp).2.2⟩
    · left
      rw [← hr]
      exact ((Std.ExtTreeMap.getElem?_insert ..).trans
        (if_neg fun hcmp => hkey (Std.LawfulEqCmp.eq_of_compare hcmp))).symm

theorem next (ch : U8) (p : PeerEntry) : SendsTimely nowMs p (p.nextReliableSeq ch).1 :=
  of_same ((PeerEntry.nextReliableSeq_numbered ch).get (·.estimate))
    (PeerEntry.nextReliableSeq_outgoing p ch)

theorem makeReliable (ch ty flags : U8) (body : Bytes) (p : PeerEntry) :
    SendsTimely nowMs p (p.makeReliable ch ty flags nowMs body).1 := by
  refine trans (q := (p.takeSeq ch).1) ?_ (track _ _ _ _ _)
  unfold PeerEntry.takeSeq
  split
  · exact of_same rfl rfl
  · exact next ch p

end SendsTimely

theorem PeerOp.sendsTimely {o : PeerOp} (ho : o.Creating) (nowMs : U32) (p : PeerEntry) :
    SendsTimely nowMs p (o.apply nowMs p) := by
  cases o with
  | connectionCmd cmdType body => exact .makeReliable _ _ _ _ _
  | numberWhole pkt => exact (SendsTimely.makeReliable _ _ _ _ p).trans (.of_same rfl rfl)
  | numberFragments pkt fp =>
      have hloop := PeerEntry.fragmentLoop_rel (R := SendsTimely nowMs) (fun _ => .of_same rfl rfl)
        SendsTimely.trans (SendsTimely.next pkt.channel)
        (fun p seq cmd => .track p pkt.channel seq cmdSendFragment cmd)
        (p.nextReliableSeq pkt.channel).2 fp pkt.data (fragCount fp pkt.data) 0
        (p.nextReliableSeq pkt.channel).1
      exact ((SendsTimely.next pkt.channel p).trans hloop).trans (.of_same rfl rfl)
  | _ => exact ho.elim

/-! ## §3. The connection's counter. -/

section Counter

variable {h : HostTask} {p : PeerEntry} {o : PeerOp} {bound : Nat} {e t : U32}

theorem PeerEntry.nextReliableSeq_connection (p : PeerEntry) (ch : U8) :
    (p.nextReliableSeq ch).1.outgoingReliableSeq = p.outgoingReliableSeq := by
  unfold PeerEntry.nextReliableSeq
  split <;> rfl

/-- Only commands on channel 0xFF move the connection's counter. -/
theorem PeerOp.outgoingReliableSeq_apply (ho : ∀ cmdType body, o ≠ .connectionCmd cmdType body)
    (hg : o.Guard h p) (hr : InRange p) (nowMs : U32) :
    (o.apply nowMs p).outgoingReliableSeq = p.outgoingReliableSeq := by
  cases o with
  | connectionCmd cmdType body => exact absurd rfl (ho cmdType body)
  | numberWhole pkt =>
      obtain ⟨c, hsend, -⟩ := hg
      have htake : p.takeSeq pkt.channel = p.nextReliableSeq pkt.channel :=
        if_neg (hsend.channel_ne hr.channels.2)
      show (p.takeSeq pkt.channel).1.outgoingReliableSeq = p.outgoingReliableSeq
      rw [htake]
      exact p.nextReliableSeq_connection pkt.channel
  | numberFragments pkt fp =>
      refine Eq.trans ?_ (p.nextReliableSeq_connection pkt.channel)
      exact PeerEntry.fragmentLoop_rel
        (R := fun p q => q.outgoingReliableSeq = p.outgoingReliableSeq) (fun _ => rfl)
        (fun hpq hqr => hqr.trans hpq) (fun p => p.nextReliableSeq_connection pkt.channel)
        (fun _ _ _ => rfl) (p.nextReliableSeq pkt.channel).2 fp pkt.data (fragCount fp pkt.data) 0 _
  | _ => exact get_apply (·.outgoingReliableSeq) nowMs p _

/-- **The numbers of channel 0xFF are few.**  At time `t`, with the last
BANDWIDTH_LIMIT interval started at `e`: a command other than the last one is a
second old for every number after it but one, and for the time since `e`. -/
structure Sparse (bound : Nat) (e t : U32) (p : PeerEntry) : Prop where
  rtt : RttInRange p
  aged : ∀ (key : U8 × U16) (r : OutstandingReliable), p.outgoingReliable[key]? = some r →
    Aged bound t r
  spaced : ∀ (s : U16) (r : OutstandingReliable),
    p.outgoingReliable[(channelIdConnection, s)]? = some r →
      s = p.outgoingReliableSeq
        ∨ Serial.behind p.outgoingReliableSeq s * 1000 + since e t
          ≤ since r.originalSentTime t + 1000
  fresh : ∀ ty seq fresh, .create ty channelIdConnection seq fresh ∈ p.history → fresh = true

namespace Sparse

/-- Time passes. -/
theorem shift (hp : Sparse bound e t p) {t' : U32} (hlt : bound + since t t' < 2 ^ 32) :
    Sparse (bound + since t t') e t' p := by
  refine { hp with aged := fun key r hr => (hp.aged key r hr).shift hlt, spaced := fun s r hr => ?_ }
  have hage := (hp.aged _ r hr).age
  have hshift : since r.originalSentTime t' = since r.originalSentTime t + since t t' :=
    since_add (by omega)
  have hle := since_le e t t'
  rcases hp.spaced s r hr with heq | hspaced
  · exact .inl heq
  · right
    omega

theorem of_new {slot : PeerKey} (hn : IsNewEntry h slot t p) (bound : Nat) (e : U32) :
    Sparse bound e t p := by
  have htimely : ∀ (key : U8 × U16) (r : OutstandingReliable), p.outgoingReliable[key]? = some r →
      JustSent t r ∧ r.rttTimeout.toNat ≤ 327675 := by
    intro key r hr
    have hrange := hn.rttInRange
    rcases hn with ⟨addr, channelCount, userData, reply, connectId, rfl⟩ | ⟨c, hdr, src, rfl⟩
    · refine ((SendsTimely.makeReliable channelIdConnection cmdConnect 0 _ _ ?_).2 key r
        hr).resolve_left nofun
      exact ⟨hrange.rtt, hrange.var⟩
    · refine ((SendsTimely.makeReliable channelIdConnection cmdVerifyConnect 0 _ _ ?_).2 key r
        hr).resolve_left nofun
      exact ⟨hrange.rtt, hrange.var⟩
  refine ⟨hn.rttInRange, fun key r hr => ?_, fun s r hr => .inl ?_, fun ty seq fresh hm => ?_⟩
  · exact .of_justSent (htimely key r hr).1 (htimely key r hr).2 bound
  · obtain ⟨r₀, hout, -⟩ := hn.starts.outgoing
    rw [hout, Std.ExtTreeMap.getElem?_insert] at hr
    split at hr
    · next hkey =>
      rw [hn.starts.counter]
      exact (congrArg Prod.snd (Std.LawfulEqCmp.eq_of_compare hkey)).symm
    · simp at hr
  · obtain ⟨ty', hh, -⟩ := hn.starts.history
    rw [hh] at hm
    cases List.mem_singleton.mp hm
    rfl

/-- The operations that create nothing. -/
theorem not_creating (hp : Sparse bound e t p) (hr : InRange p) (hg : o.Guard h p)
    (ho : ¬ o.Creating) : Sparse bound e t (o.apply t p) := by
  have hseq : (o.apply t p).outgoingReliableSeq = p.outgoingReliableSeq := by
    refine PeerOp.outgoingReliableSeq_apply ?_ hg hr t
    rintro cmdType body rfl
    exact ho trivial
  refine ⟨PeerOp.apply_rttInRange hp.rtt t o, fun key r hr => ?_, fun s r hr => ?_,
    fun ty seq fresh hm => ?_⟩
  · obtain ⟨r', hr', rfl | ⟨hdue, hlive, rfl⟩⟩ := PeerOp.outgoing_of_not_creating ho t p hr
    · exact hp.aged key _ hr'
    · exact (hp.aged key r' hr').resend hdue hlive
  · -- another transmission does not change when the first one was
    obtain ⟨r', hr', rfl | ⟨-, -, rfl⟩⟩ := PeerOp.outgoing_of_not_creating ho t p hr
    · rw [hseq]
      exact hp.spaced s _ hr'
    · rw [hseq]
      exact hp.spaced s r' hr'
  · obtain ⟨es, hes, hno, -⟩ := PeerOp.history_of_not_creating ho t hg
    rw [hes] at hm
    rcases List.mem_append.mp hm with hm | hm
    · exact hp.fresh ty seq fresh hm
    · exact absurd hm (hno ty channelIdConnection seq fresh)

/-- What is outstanding after a creation, by its age. -/
theorem aged_of_timely {q : PeerEntry} (hp : Sparse bound e t p) (hq : SendsTimely t p q)
    (key : U8 × U16) (r : OutstandingReliable) (hr : q.outgoingReliable[key]? = some r) :
    Aged bound t r := by
  rcases (hq hp.rtt).2 key r hr with hold | ⟨hnew, htimeout⟩
  · exact hp.aged key r hold
  · exact .of_justSent hnew htimeout bound

/-- A packet does not touch the connection's own channel. -/
theorem numbers {q : PeerEntry} {c : Channel} {pkt : Packet} {n : Nat} (hp : Sparse bound e t p)
    (hch : pkt.channel ≠ channelIdConnection) (hn : PeerEntry.Numbers p c pkt n q)
    (htimely : SendsTimely t p q) (hseq : q.outgoingReliableSeq = p.outgoingReliableSeq) :
    Sparse bound e t q := by
  refine ⟨(htimely hp.rtt).1, hp.aged_of_timely htimely, fun s r hr => ?_,
    fun ty seq fresh hm => ?_⟩
  · rw [hn.on.others _ s hch.symm] at hr
    rw [hseq]
    exact hp.spaced s r hr
  · obtain ⟨ty', r, -, hcreates, -, hh⟩ := hn.creates
    obtain ⟨es, hes, hty, -⟩ := hcreates.history
    rw [hh, hes, List.append_assoc] at hm
    rcases List.mem_append.mp hm with hm | hm
    · exact hp.fresh ty seq fresh hm
    · have hm : PeerEvent.create ty channelIdConnection seq fresh ∈ es := by simpa using hm
      obtain ⟨s, b, heq⟩ := hty _ hm
      exact absurd (PeerEvent.create.inj heq).2.1.symm hch

/-- PING and DISCONNECT: nothing else is outstanding. -/
theorem alone (hp : Sparse bound e t p) (hempty : p.outgoingReliable.isEmpty = true) (cmdType : U8)
    (body : Bytes) : Sparse bound e t ((PeerOp.connectionCmd cmdType body).apply t p) := by
  have hnone : p.outgoingReliable = ∅ := Std.ExtTreeMap.isEmpty_iff.mp hempty
  have htimely := PeerOp.sendsTimely (o := .connectionCmd cmdType body) trivial t p
  refine ⟨(htimely hp.rtt).1, hp.aged_of_timely htimely, fun s r hr => .inl ?_,
    fun ty seq fresh hm => ?_⟩
  · rcases Std.ExtTreeMap.mem_insert.mp (Collections.mem_iff_exists.mpr ⟨r, hr⟩) with hkey | hin
    · exact (congrArg Prod.snd (Std.LawfulEqCmp.eq_of_compare hkey)).symm
    · change _ ∈ p.outgoingReliable at hin
      rw [hnone] at hin
      exact absurd hin Std.ExtTreeMap.not_mem_empty
  · rcases List.mem_append.mp hm with hm | hm
    · exact hp.fresh ty seq fresh hm
    · obtain ⟨-, -, -, rfl⟩ := PeerEvent.create.inj (List.mem_singleton.mp hm)
      show (!p.outgoingReliable.contains _) = true
      simp [hnone]

/-- **Every operation but BANDWIDTH_LIMIT.** -/
theorem op (hp : Sparse bound e t p) (hr : InRange p) (hg : o.Guard h p)
    (hcalm : ∀ body, o ≠ .connectionCmd cmdBandwidthLimit body) : Sparse bound e t (o.apply t p) := by
  by_cases ho : o.Creating
  · have htimely := PeerOp.sendsTimely ho t p
    cases o with
    | connectionCmd cmdType body =>
        rcases hg.2 with ⟨-, -, hempty⟩ | ⟨-, -, hempty⟩ | ⟨rfl, -⟩
        · exact hp.alone hempty cmdType body
        · exact hp.alone hempty cmdType body
        · exact absurd rfl (hcalm body)
    | numberWhole pkt =>
        have hseq := PeerOp.outgoingReliableSeq_apply (o := .numberWhole pkt) nofun hg hr t
        obtain ⟨c, hsend, -⟩ := hg
        exact hp.numbers (hsend.channel_ne hr.channels.2)
          (PeerEntry.numberWhole_numbers t hr hsend) htimely hseq
    | numberFragments pkt fp =>
        have hseq := PeerOp.outgoingReliableSeq_apply (o := .numberFragments pkt fp) nofun hg hr t
        obtain ⟨c, hsend, -, hbig, rfl⟩ := hg
        exact hp.numbers (hsend.channel_ne hr.channels.2)
          (PeerEntry.numberFragments_numbers t (PeerEntry.fragCount_pos_of_big hr hbig) hsend)
          htimely hseq
    | _ => exact ho.elim
  · exact hp.not_creating hr hg ho

/-- A new interval. -/
theorem epoch (hp : Sparse bound e t p) : Sparse bound t t p := by
  refine { hp with spaced := fun s r hr => ?_ }
  rcases hp.spaced s r hr with heq | hspaced
  · exact .inl heq
  · right
    rw [since_self]
    exact Nat.le_trans (Nat.add_le_add_left (Nat.zero_le _) _) hspaced

theorem setWindow (hp : Sparse bound e t p) (w : U32) : Sparse bound e t { p with windowSize := w } :=
  ⟨⟨hp.rtt.rtt, hp.rtt.var⟩, hp.aged, hp.spaced, hp.fresh⟩

/-- How many numbers lie between a command and the counter. -/
theorem few (hp : Sparse ageLimit e t p) (hdue : 1000 ≤ since e t) {s : U16}
    {r : OutstandingReliable} (hr : p.outgoingReliable[(channelIdConnection, s)]? = some r) :
    Serial.behind p.outgoingReliableSeq s ≤ 357 := by
  rcases hp.spaced s r hr with rfl | hspaced
  · unfold Serial.behind
    bv_omega
  · have hage : since r.originalSentTime t ≤ 357675 := (hp.aged _ r hr).age
    omega

/-- **BANDWIDTH_LIMIT**, a second or more after the last one: its number is new. -/
theorem limit (hp : Sparse ageLimit e t p) (hdue : 1000 ≤ since e t) (body : Bytes) :
    Sparse ageLimit t t (HostTask.withConnectionCmd cmdBandwidthLimit body t p) := by
  have htimely : SendsTimely t p (HostTask.withConnectionCmd cmdBandwidthLimit body t p) :=
    (SendsTimely.makeReliable channelIdConnection cmdBandwidthLimit 0 body p).trans (.of_same rfl rfl)
  refine ⟨(htimely hp.rtt).1, hp.aged_of_timely htimely, fun s r hr => ?_,
    fun ty seq fresh hm => ?_⟩
  · change s = p.outgoingReliableSeq + 1 ∨ Serial.behind (p.outgoingReliableSeq + 1) s * 1000
      + since t t ≤ since r.originalSentTime t + 1000
    have hr := Std.ExtTreeMap.getElem?_insert.symm.trans hr
    split at hr
    · next hkey =>
      exact .inl (congrArg Prod.snd (Std.LawfulEqCmp.eq_of_compare hkey)).symm
    · right
      have hfew := hp.few hdue hr
      have hnext : Serial.behind (p.outgoingReliableSeq + 1) s
          = Serial.behind p.outgoingReliableSeq s + 1 := Serial.behind_add (k := 1) (by omega)
      rw [hnext, since_self]
      rcases hp.spaced s r hr with heq | hspaced
      · have hself : Serial.behind p.outgoingReliableSeq s = 0 := by
          unfold Serial.behind
          rw [heq]
          bv_omega
        rw [hself]
        exact Nat.le_add_left 1000 _
      · rw [Nat.add_zero, Nat.succ_mul]
        exact Nat.le_trans (Nat.add_le_add_left hdue _) hspaced
  · rcases List.mem_append.mp hm with hm | hm
    · exact hp.fresh ty seq fresh hm
    · obtain ⟨-, -, -, rfl⟩ := PeerEvent.create.inj (List.mem_singleton.mp hm)
      show (!p.outgoingReliable.contains (channelIdConnection, p.outgoingReliableSeq + 1)) = true
      rw [Bool.not_eq_true', Bool.eq_false_iff]
      intro hin
      obtain ⟨r, hr⟩ := Collections.mem_iff_exists.mp (Std.ExtTreeMap.contains_iff_mem.mp hin)
      have hfew := hp.few hdue hr
      unfold Serial.behind at hfew
      bv_omega

end Sparse

end Counter

namespace HostTask

variable {h h' : HostTask} {t : U32}

/-! ## §4. The throttle. -/

/-- What the adjustment makes of an entry: a window, and a BANDWIDTH_LIMIT. -/
theorem throttlePeers_entry {keys : List PeerKey} (hnodup : keys.Nodup) {j : PeerKey} {q : PeerEntry}
    (hq : (h.throttlePeers keys t).peer j = some q) :
    ∃ p w, h.peer j = some p ∧ (q = { p with windowSize := w }
      ∨ ∃ body, q = withConnectionCmd cmdBandwidthLimit body t { p with windowSize := w }) := by
  unfold throttlePeers at hq
  extract_lets peerCount perPeer h₁ ib ob at hq
  have hwindow : ∀ q, h₁.peer j = some q →
      ∃ p w, h.peer j = some p ∧ q = { p with windowSize := w } := by
    intro q hq
    simp only [h₁] at hq
    split at hq
    · rw [peer_foldl (fun g k j => peer_updatePeer g k _ j) hnodup] at hq
      split at hq
      · obtain ⟨p, hp, rfl⟩ := Option.map_eq_some_iff.mp hq
        exact ⟨p, _, hp, rfl⟩
      · exact ⟨q, q.windowSize, hq, rfl⟩
    · exact ⟨q, q.windowSize, hq, rfl⟩
  split at hq
  · obtain ⟨p, w, hp, rfl⟩ := hwindow q hq
    exact ⟨p, w, hp, .inl rfl⟩
  · rw [peer_foldl (fun g k j => peer_sendConnectionCmd g k _ _ t j) hnodup] at hq
    split at hq
    · obtain ⟨q₁, hq₁, rfl⟩ := Option.map_eq_some_iff.mp hq
      obtain ⟨p, w, hp, rfl⟩ := hwindow q₁ hq₁
      exact ⟨p, w, hp, .inr ⟨_, rfl⟩⟩
    · obtain ⟨p, w, hp, rfl⟩ := hwindow q hq
      exact ⟨p, w, hp, .inl rfl⟩

theorem throttlePeers_epoch (keys : List PeerKey) (h : HostTask) :
    (h.throttlePeers keys t).bandwidthThrottleEpoch = h.bandwidthThrottleEpoch := by
  unfold throttlePeers
  extract_lets peerCount perPeer h₁ ib ob
  have hwindows : h₁.bandwidthThrottleEpoch = h.bandwidthThrottleEpoch := by
    simp only [h₁]
    split
    · refine List.foldlRecOn (motive := fun g : HostTask =>
        g.bandwidthThrottleEpoch = h.bandwidthThrottleEpoch) keys _ rfl fun g hg key _ => ?_
      unfold updatePeer
      split <;> exact hg
    · rfl
  split
  · exact hwindows
  · refine List.foldlRecOn (motive := fun g : HostTask =>
      g.bandwidthThrottleEpoch = h.bandwidthThrottleEpoch) keys _ hwindows fun g hg key _ => ?_
    unfold sendConnectionCmd emitByKey
    repeat' split
    all_goals exact hg

/-! ## §5. Whole tasks. -/

theorem epoch_apply {l : Label} (hl : l.Calm) (h : HostTask) :
    (l.apply t h).bandwidthThrottleEpoch = h.bandwidthThrottleEpoch := by
  cases l with
  | epoch => exact hl.elim
  | op k o =>
      simp only [Label.apply]
      split <;> rfl
  | _ => rfl

/-- Every entry is sparse at time `t`, the commands in slot `k` at most
`bound k` ms old. -/
structure SparseAt (bound : PeerKey → Nat) (t : U32) (h : HostTask) : Prop where
  range : h.AllInRange
  entries : ∀ k p, h.peer k = some p → Sparse (bound k) h.bandwidthThrottleEpoch t p

namespace SparseAt

variable {bound : PeerKey → Nat}

/-- **Every change outside `bandwidth_throttle`.** -/
theorem label {l : Label} (hi : SparseAt bound t h) (hg : l.Guard t h) (hl : l.Calm) :
    SparseAt bound t (l.apply t h) := by
  refine ⟨Label.apply_inRange hi.range hg, ?_⟩
  rw [epoch_apply hl]
  refine Label.entries_at (I := fun k p => Sparse (bound k) h.bandwidthThrottleEpoch t p) hg
    (fun slot _ _ hn => .of_new hn (bound slot) _) ?_ hi.entries
  rintro k p o rfl hp hs hgo
  refine hs.op (hi.range.2 k p hp) hgo ?_
  rintro body rfl
  exact hl rfl

theorem exec (hi : SparseAt bound t h) (e : Exec t (fun _ l => l.Calm) h h') :
    SparseAt bound t h' :=
  e.invariant (SparseAt bound t) (fun _ _ hi hg hl => hi.label hg hl) hi

/-- What a retransmission loop that was not broken off leaves is recent. -/
theorem recent_of_loop {p : PeerEntry} {b : Nat} {e : U32} (hp : Sparse b e t p)
    (hgo : (retransmitLoop t p.outgoingReliable.toList p.outgoingReliable).1 = false)
    (key : U8 × U16) (r : OutstandingReliable)
    (hr : (retransmitLoop t p.outgoingReliable.toList p.outgoingReliable).2.1[key]? = some r) :
    Aged ageLimit t r := by
  rcases retransmitLoop_toList t p.outgoingReliable key with ⟨-, hnone⟩ | ⟨r₀, r₁, hr₀, hr₁, hres, -⟩
  · cases hnone.symm.trans hr
  · obtain rfl : r₁ = r := Option.some.inj (hr₁.symm.trans hr)
    have halive := retransmitLoop_alive t _ _ hgo (key, r₀)
      (Std.ExtTreeMap.mem_toList_iff_getElem?_eq_some.mpr hr₀)
    have hrecent := (hp.aged key r₀ hr₀).recent halive
    rcases hres with rfl | ⟨hdue, hlive, rfl⟩
    · exact hrecent
    · exact hrecent.resend hdue hlive

/-- Packets are sent by changes outside `bandwidth_throttle`. -/
theorem calm_of_send {k : PeerKey} {pkt : Packet} {h₁ : HostTask} {l : Label}
    (hl : SendMakes h k pkt h₁ l) : l.Calm := by
  cases l with
  | op k' o =>
      cases o with
      | setWindow | connectionCmd => exact hl.2.2.elim
      | _ => trivial
  | epoch => exact hl.elim
  | _ => trivial

/-- **What a tick leaves in a slot is recent**: whatever was too old has ended
the connection. -/
theorem serviceOne {key : PeerKey} {keys : List PeerKey} {old : Nat}
    (hi : SparseAt (fun k => if k ∈ key :: keys then old else ageLimit) t h)
    (hs : h.serviceOne key t = some h') :
    SparseAt (fun k => if k ∈ keys then old else ageLimit) t h' := by
  -- the other slots have the bound they had
  have hother : ∀ {h₁ : HostTask},
      SparseAt (fun k => if k ∈ key :: keys then old else ageLimit) t h₁ →
      (∀ p, h₁.peer key = some p → Sparse ageLimit h₁.bandwidthThrottleEpoch t p) →
      SparseAt (fun k => if k ∈ keys then old else ageLimit) t h₁ := by
    intro h₁ hi₁ hkey
    refine ⟨hi₁.range, fun k p hp => ?_⟩
    have hp₁ := hi₁.entries k p hp
    by_cases hk : k ∈ keys
    · simpa only [List.mem_cons, hk, or_true, if_true] using hp₁
    · rw [if_neg hk]
      by_cases hkk : k = key
      · subst hkk
        exact hkey p hp
      · simpa only [List.mem_cons, hk, hkk, or_false, if_false] using hp₁
  unfold HostTask.serviceOne at hs
  cases hp : h.peer key with
  | none =>
      simp only [hp] at hs
      cases hs
      refine hother hi fun p hp' => ?_
      cases hp.symm.trans hp'
  | some p =>
      simp only [hp, serviceChecks] at hs
      have e : Exec t (fun _ l => l.Calm) h _ := .op .retransmit hp trivial trivial rfl rfl
      simp only [PeerOp.apply] at e
      have hi₁ := hi.exec e
      have hp₁ := peer_setPeer_self (q := { p with outgoingReliable :=
        (retransmitLoop t p.outgoingReliable.toList p.outgoingReliable).2.1 })
        (lt_of_peer_eq_some hp)
      have hout := retransmitLoop_outstanding t p
      have hrecent := recent_of_loop (hi.entries key p hp)
      rcases hloop : retransmitLoop t p.outgoingReliable.toList p.outgoingReliable
        with ⟨timedOut, outgoing, retransmits⟩
      simp only [hloop] at hs hi₁ hp₁ hout hrecent
      cases timedOut with
      | true =>
          simp only [if_true, Bool.false_eq_true, if_false, Option.some.injEq] at hs
          subst hs
          refine hother (hi₁.exec (notify_remove_exec none trivial fun _ _ => trivial)) fun p hp' => ?_
          rw [peer_removePeer, if_pos rfl] at hp'
          cases hp'
      | false =>
          simp only [Bool.false_eq_true, if_false, if_true] at hs
          have hi₂ := hother hi₁ fun q hq => by
            cases hp₁.symm.trans hq
            exact { hi₁.entries key _ hp₁ with aged := hrecent rfl }
          refine hi₂.exec ((serviceSends_exec hp₁ hout fun _ _ _ hcalm _ => hcalm).trans ?_)
          exact drainPending_exec (Q := fun _ _ _ => True) (fun _ _ _ _ _ _ hl => calm_of_send hl)
            (fun _ _ => trivial) (fun _ _ => sendsMeet_true key t _ _) hs

theorem serviceEach (old : Nat) :
    ∀ (keys : List PeerKey) (h h' : HostTask),
      SparseAt (fun k => if k ∈ keys then old else ageLimit) t h →
      HostTask.serviceEach t h keys = some h' → SparseAt (fun _ => ageLimit) t h' := by
  intro keys
  induction keys with
  | nil =>
      intro h h' hi hs
      cases hs
      exact ⟨hi.range, fun k p hp => by simpa using hi.entries k p hp⟩
  | cons key keys ih =>
      intro h h' hi hs
      obtain ⟨h₁, hs₁, hs⟩ := Option.bind_eq_some_iff.mp hs
      exact ih h₁ h' (hi.serviceOne hs₁) hs

/-- **The throttle**: at most one BANDWIDTH_LIMIT for each entry, and that a
second after the last. -/
theorem bandwidthThrottle (hi : SparseAt (fun _ => ageLimit) t h) :
    SparseAt (fun _ => ageLimit) t (h.bandwidthThrottle t) := by
  have e : Exec t (fun _ _ => True) h (h.bandwidthThrottle t) :=
    bandwidthThrottle_exec fun _ _ _ _ _ => trivial
  refine ⟨e.inRange hi.range, ?_⟩
  have hrest := hi.entries
  unfold HostTask.bandwidthThrottle
  split
  · exact hrest
  · next hint =>
    have hdue : 1000 ≤ since h.bandwidthThrottleEpoch t := BitVec.not_lt.mp hint
    have hepoch : ∀ k p, h.peer k = some p → Sparse ageLimit t t p := fun k p hp =>
      (hrest k p hp).epoch
    simp only
    split
    · exact hepoch
    · split
      · exact hepoch
      · rw [throttlePeers_epoch]
        intro j q hq
        obtain ⟨p, w, hp, rfl | ⟨body, rfl⟩⟩ :=
          throttlePeers_entry (HostTask.nodup_connectedKeys _) hq
        · exact (hepoch j p hp).setWindow w
        · exact ((hrest j p hp).setWindow w).limit hdue body

theorem serviceAll {old : Nat} (hi : SparseAt (fun _ => old) t h)
    (hs : h.serviceAll t = some h') : SparseAt (fun _ => ageLimit) t h' := by
  obtain ⟨h₁, hs₁, rfl⟩ := Option.map_eq_some_iff.mp hs
  refine bandwidthThrottle (serviceEach old _ h h₁ ?_ hs₁)
  refine ⟨hi.range, fun k p hp => ?_⟩
  have hmem : k ∈ h.keysWhere fun _ => true := by
    simp [keysWhere, hp, lt_of_peer_eq_some hp]
  rw [if_pos hmem]
  exact hi.entries k p hp

/-- **One step** at time `t`; a tick ends what is too old. -/
theorem step {old : Nat} {i : Input} (hi : SparseAt (fun _ => old) t h)
    (hs : h.step t i = some h') :
    SparseAt (fun _ => if i = .tick then ageLimit else old) t h' := by
  by_cases htick : i = .tick
  · subst htick
    rw [if_pos rfl]
    exact hi.serviceAll hs
  · rw [if_neg htick]
    refine hi.exec (step_exec_of_app i (stepMeets_true h (t, i)) ?_ ?_ ?_ ?_ ?_ ?_ ?_ ?_ hs)
    · intro h key src cmd h₁ l _ hl
      cases l with
      | op k o =>
          cases o with
          | setWindow | connectionCmd => exact hl.2.2.elim
          | _ => trivial
      | epoch => exact hl.elim
      | _ => trivial
    · exact fun _ _ _ _ _ _ hl => calm_of_send hl
    · exact fun _ _ _ hcalm => hcalm htick
    · intro h k o ho
      cases o with
      | setWindow | connectionCmd => exact ho.elim
      | _ => trivial
    · exact fun _ _ _ _ _ _ _ => trivial
    · exact fun _ _ => trivial
    · exact fun _ _ => trivial
    · exact fun _ => ⟨trivial, trivial⟩

/-- Time passes. -/
theorem shift {old : Nat} (hi : SparseAt (fun _ => old) t h) (t' : U32)
    (hlt : old + since t t' < 2 ^ 32) : SparseAt (fun _ => old + since t t') t' h :=
  ⟨hi.range, fun k p hp => (hi.entries k p hp).shift hlt⟩

end SparseAt

/-! ## §6. Runs. -/

/-- **The clock does not run backwards** and ticks come less than 2^31 ms apart.
`T` is the time of the last tick, `t` that of the last input. -/
def Clocked (T t : U32) : List Timed → Prop
  | [] => True
  | (s, i) :: is =>
      (since T t ≤ since T s ∧ since T s < 2 ^ 31) ∧ Clocked (if i = .tick then s else T) s is

instance decidableClocked : (T t : U32) → (is : List Timed) → Decidable (Clocked T t is)
  | _, _, [] => isTrue trivial
  | T, t, (s, i) :: is =>
      have := decidableClocked (if i = .tick then s else T) s is
      inferInstanceAs (Decidable ((since T t ≤ since T s ∧ since T s < 2 ^ 31) ∧ Clocked _ s is))

/-- **Every run** on such a clock. -/
theorem sparse_run :
    ∀ (is : List Timed) (h h' : HostTask) (T t : U32), Clocked T t is →
      SparseAt (fun _ => ageLimit + since T t) t h → h.run is = some h' →
      ∃ bound t', SparseAt (fun _ => bound) t' h' := by
  intro is
  induction is with
  | nil =>
      intro h h' T t _ hi hrun
      cases hrun
      exact ⟨_, t, hi⟩
  | cons i is ih =>
      intro h h' T t hclock hi hrun
      obtain ⟨s, i⟩ := i
      obtain ⟨⟨hle, hlt⟩, hclock⟩ := hclock
      obtain ⟨h₁, hs, hrun⟩ := Option.bind_eq_some_iff.mp hrun
      have hpast : since t s = since T s - since T t := toNat_sub_eq_since hle
      have hlimit : ageLimit = 357675 := rfl
      have hage : ageLimit + since T t + since t s = ageLimit + since T s := by omega
      have hshift := hi.shift s (by omega)
      rw [hage] at hshift
      have hstep := hshift.step hs
      refine ih h₁ h' _ s hclock ?_ hrun
      by_cases htick : i = .tick
      · simpa only [htick, if_true, since_self, Nat.add_zero] using hstep
      · simpa only [htick, if_false] using hstep

end HostTask

end EnetRs
