/-
  EnetRs.Host.Outstanding — what an operation does to the outstanding commands.

  `outgoing_reliable` changes in three ways only: a command that was just sent
  is stored, one that is due is marked as sent once more, and one leaves.

  Main results:
    * `retransmitLoop_getElem?` — the retransmission loop, command by command.
    * `PeerOp.outgoing_of_apply` — where a command that is outstanding after an
      operation comes from.
-/
import EnetRs.Lib.Collections
import EnetRs.Host.Frames

namespace EnetRs

open MachineInt

/-! ## §1. Operations that leave the outstanding commands alone. -/

/-- The operations that touch `outgoing_reliable`. -/
def PeerOp.TouchesOutgoing : PeerOp → Prop
  | .ack _ _ | .verify _ _ _ | .connectionCmd _ _ | .numberWhole _ | .numberFragments _ _
  | .retransmit => True
  | _ => False

theorem PeerOp.outgoingReliable_apply {o : PeerOp} (ho : ¬ o.TouchesOutgoing) (nowMs : U32)
    (p : PeerEntry) : (o.apply nowMs p).outgoingReliable = p.outgoingReliable := by
  refine (o.get_apply (·.outgoingReliable) nowMs p).trans ?_
  cases o with
  | ack | verify | connectionCmd | numberWhole | numberFragments | retransmit =>
      exact absurd trivial ho
  | _ => rfl

/-! ## §2. Sent for the first time. -/

/-- The command was stored just now, with its first timeout. -/
structure JustSent (nowMs : U32) (r : OutstandingReliable) : Prop where
  original : r.originalSentTime = nowMs
  sent : r.sentTime = nowMs
  attempts : r.sendAttempts = 1
  timeout : r.rttTimeout = r.initialTimeout
  initial : 200 ≤ r.initialTimeout
  transmissions : r.transmissions = [nowMs]

theorem PeerEntry.initialRttTimeout_ge (p : PeerEntry) : 200 ≤ p.initialRttTimeout := by
  unfold PeerEntry.initialRttTimeout umax
  split <;> bv_omega

/-- Every command outstanding in `q` is so in `p`, or was just sent. -/
def SendsFrom (nowMs : U32) (p q : PeerEntry) : Prop :=
  ∀ (key : U8 × U16) (r : OutstandingReliable), q.outgoingReliable[key]? = some r →
    p.outgoingReliable[key]? = some r ∨ JustSent nowMs r

namespace SendsFrom

variable {nowMs : U32} {p q s : PeerEntry}

theorem of_same (hout : q.outgoingReliable = p.outgoingReliable) : SendsFrom nowMs p q := by
  intro key r hr
  rw [hout] at hr
  exact .inl hr

theorem trans (hpq : SendsFrom nowMs p q) (hqs : SendsFrom nowMs q s) : SendsFrom nowMs p s := by
  intro key r hr
  rcases hqs key r hr with hr | hnew
  · exact hpq key r hr
  · exact .inr hnew

theorem track (p : PeerEntry) (ch : U8) (seq : U16) (cmdType : U8) (cmd : Bytes) :
    SendsFrom nowMs p (p.track ch seq cmdType cmd nowMs) := by
  intro key r hr
  simp only [PeerEntry.track] at hr
  rw [Std.ExtTreeMap.getElem?_insert] at hr
  split at hr
  · cases hr
    exact .inr ⟨rfl, rfl, rfl, rfl, p.initialRttTimeout_ge, rfl⟩
  · exact .inl hr

theorem next (ch : U8) (p : PeerEntry) : SendsFrom nowMs p (p.nextReliableSeq ch).1 := by
  refine of_same ?_
  unfold PeerEntry.nextReliableSeq
  split <;> rfl

theorem makeReliable (ch ty flags : U8) (body : Bytes) (p : PeerEntry) :
    SendsFrom nowMs p (p.makeReliable ch ty flags nowMs body).1 := by
  refine trans (q := (p.takeSeq ch).1) ?_ (track _ _ _ _ _)
  unfold PeerEntry.takeSeq
  split
  · exact of_same rfl
  · exact next ch p

theorem numberWhole (pkt : Packet) (p : PeerEntry) :
    SendsFrom nowMs p (p.numberWhole pkt nowMs).1 :=
  (makeReliable pkt.channel cmdSendReliable 0 _ p).trans (of_same rfl)

theorem numberFragments (pkt : Packet) (fp : Nat) (p : PeerEntry) :
    SendsFrom nowMs p (p.numberFragments pkt fp nowMs).1 := by
  refine (next pkt.channel p).trans (trans ?_ (of_same rfl))
  exact PeerEntry.fragmentLoop_rel (R := SendsFrom nowMs) (fun _ => of_same rfl) trans
    (next pkt.channel) (fun p seq cmd => track p pkt.channel seq cmdSendFragment cmd) _ _ _ _ _ _

end SendsFrom

/-! ## §3. Sent once more. -/

/-- The loop leaves alone what is not in its list. -/
theorem retransmitLoop_other (nowMs : U32) {key : U8 × U16} :
    ∀ (es : List ((U8 × U16) × OutstandingReliable)) (m : OutgoingReliable),
      (∀ e ∈ es, e.1 ≠ key) → (retransmitLoop nowMs es m).2.1[key]? = m[key]? := by
  intro es
  induction es with
  | nil => exact fun m _ => rfl
  | cons e es ih =>
      intro m hes
      obtain ⟨k, r⟩ := e
      have hrest : ∀ e ∈ es, e.1 ≠ key := fun e he => hes e (List.mem_cons_of_mem _ he)
      unfold retransmitLoop
      split
      · exact ih m hrest
      · split
        · rfl
        · rw [ih _ hrest, Std.ExtTreeMap.getElem?_insert, if_neg]
          exact fun hcmp => hes (k, r) List.mem_cons_self (Std.LawfulEqCmp.eq_of_compare hcmp)

/-- Whether `r'` is `r`, or `r` was due and is now sent once more. -/
def ResentFrom (nowMs : U32) (r r' : OutstandingReliable) : Prop :=
  r' = r ∨ r.waiting nowMs = false ∧ r.expired nowMs = false ∧ r' = r.retransmit nowMs

theorem ResentFrom.packetBytes {nowMs : U32} {r r' : OutstandingReliable}
    (hres : ResentFrom nowMs r r') : r'.packetBytes = r.packetBytes := by
  rcases hres with rfl | ⟨-, -, rfl⟩ <;> rfl

/-- What the loop sends again comes from its list. -/
theorem retransmitLoop_mem_cmds (nowMs : U32) :
    ∀ (es : List ((U8 × U16) × OutstandingReliable)) (m : OutgoingReliable),
      ∀ b ∈ (retransmitLoop nowMs es m).2.2, ∃ e ∈ es, e.2.packetBytes = b := by
  intro es
  induction es with
  | nil => exact fun _ => nofun
  | cons e es ih =>
      intro m b hb
      obtain ⟨k, r⟩ := e
      unfold retransmitLoop at hb
      split at hb
      · obtain ⟨e, he, heq⟩ := ih m b hb
        exact ⟨e, List.mem_cons_of_mem _ he, heq⟩
      · split at hb
        · cases hb
        · rcases List.mem_cons.mp hb with rfl | hb
          · exact ⟨(k, r), List.mem_cons_self, rfl⟩
          · obtain ⟨e, he, heq⟩ := ih _ b hb
            exact ⟨e, List.mem_cons_of_mem _ he, heq⟩

/-- **The retransmission loop, command by command.**  A command that it marks as
sent once more is among those that it sends. -/
theorem retransmitLoop_getElem? (nowMs : U32) {key : U8 × U16} {r : OutstandingReliable} :
    ∀ (es : List ((U8 × U16) × OutstandingReliable)) (m : OutgoingReliable),
      (∀ e ∈ es, m[e.1]? = some e.2) → es.Pairwise (fun e f => e.1 ≠ f.1) →
      m[key]? = some r →
      ∃ r', (retransmitLoop nowMs es m).2.1[key]? = some r' ∧ ResentFrom nowMs r r'
        ∧ (r' = r ∨ r.packetBytes ∈ (retransmitLoop nowMs es m).2.2) := by
  intro es
  induction es with
  | nil => exact fun m _ _ hr => ⟨r, hr, .inl rfl, .inl rfl⟩
  | cons e es ih =>
      intro m hes hne hr
      obtain ⟨k, s⟩ := e
      obtain ⟨hfirst, hrest⟩ := List.pairwise_cons.mp hne
      unfold retransmitLoop
      split
      · exact ih m (fun e he => hes e (List.mem_cons_of_mem _ he)) hrest hr
      · next hwaiting =>
        split
        · exact ⟨r, hr, .inl rfl, .inl rfl⟩
        · next hexpired =>
          by_cases hkey : k = key
          · -- the commands still to come are stored under other keys
            subst hkey
            obtain rfl : s = r := Option.some.inj ((hes (k, s) List.mem_cons_self).symm.trans hr)
            refine ⟨s.retransmit nowMs, ?_, .inr ⟨?_, ?_, rfl⟩, .inr List.mem_cons_self⟩
            · rw [retransmitLoop_other nowMs es _ fun e he => (hfirst e he).symm]
              exact Std.ExtTreeMap.getElem?_insert_self
            · simpa using hwaiting
            · simpa using hexpired
          · obtain ⟨r', hr', hres, hsent⟩ := ih (m.insert k (s.retransmit nowMs)) (fun e he => by
              rw [Std.ExtTreeMap.getElem?_insert, if_neg]
              · exact hes e (List.mem_cons_of_mem _ he)
              · exact fun hcmp => hfirst e he (Std.LawfulEqCmp.eq_of_compare hcmp)) hrest (by
              rw [Std.ExtTreeMap.getElem?_insert, if_neg, hr]
              exact fun hcmp => hkey (Std.LawfulEqCmp.eq_of_compare hcmp))
            exact ⟨r', hr', hres, hsent.imp_right (List.mem_cons_of_mem _)⟩

/-- The loop as `service_one` calls it. -/
theorem retransmitLoop_toList (nowMs : U32) (m : OutgoingReliable) (key : U8 × U16) :
    (m[key]? = none ∧ (retransmitLoop nowMs m.toList m).2.1[key]? = none)
      ∨ ∃ r r', m[key]? = some r ∧ (retransmitLoop nowMs m.toList m).2.1[key]? = some r'
        ∧ ResentFrom nowMs r r'
        ∧ (r' = r ∨ r.packetBytes ∈ (retransmitLoop nowMs m.toList m).2.2) := by
  have hmem : ∀ e ∈ m.toList, m[e.1]? = some e.2 := fun e he =>
    Std.ExtTreeMap.mem_toList_iff_getElem?_eq_some.mp he
  have hne : m.toList.Pairwise (fun e f => e.1 ≠ f.1) := by
    refine Std.ExtTreeMap.distinct_keys_toList.imp fun {e f} hcmp heq => hcmp ?_
    rw [heq]
    exact Std.ReflCmp.compare_self
  cases hr : m[key]? with
  | none =>
      refine .inl ⟨rfl, ?_⟩
      rw [retransmitLoop_other nowMs m.toList m, hr]
      rintro e he rfl
      rw [hmem e he] at hr
      cases hr
  | some r =>
      obtain ⟨r', hr', hres⟩ := retransmitLoop_getElem? nowMs m.toList m hmem hne hr
      exact .inr ⟨r, r', rfl, hr', hres⟩

/-! ## §4. Any operation. -/

/-- The operations that create a command. -/
def PeerOp.Creating : PeerOp → Prop
  | .connectionCmd _ _ | .numberWhole _ | .numberFragments _ _ => True
  | _ => False

/-- Nothing but a creation and the retransmission loop writes a command: an ACK and
VERIFY_CONNECT take one away, and what is left is as it was. -/
theorem PeerOp.outgoing_of_steady {o : PeerOp} (ho : ¬ o.Creating) (hre : o ≠ .retransmit)
    (nowMs : U32) (p : PeerEntry) {k : U8 × U16} {r : OutstandingReliable}
    (hr : (o.apply nowMs p).outgoingReliable[k]? = some r) : p.outgoingReliable[k]? = some r := by
  by_cases htouch : o.TouchesOutgoing
  · cases o with
    | connectionCmd | numberWhole | numberFragments => exact (ho trivial).elim
    | retransmit => exact absurd rfl hre
    | ack ch a =>
        change (p.applyAck ch a nowMs).outgoingReliable[k]? = some r at hr
        rw [(PeerEntry.applyAck_eq p ch a nowMs).1] at hr
        exact Collections.getElem?_of_erase hr
    | verify hostMtu vc hdr => exact Collections.getElem?_of_erase hr
    | _ => exact htouch.elim
  · rwa [outgoingReliable_apply htouch] at hr

/-- Without a creation, what is outstanding was so before. -/
theorem PeerOp.outgoing_of_not_creating {o : PeerOp} (ho : ¬ o.Creating) (nowMs : U32)
    (p : PeerEntry) {k : U8 × U16} {r : OutstandingReliable}
    (hr : (o.apply nowMs p).outgoingReliable[k]? = some r) :
    ∃ r', p.outgoingReliable[k]? = some r' ∧ ResentFrom nowMs r' r := by
  by_cases hre : o = .retransmit
  · subst hre
    rcases retransmitLoop_toList nowMs p.outgoingReliable k with
      ⟨-, hnone⟩ | ⟨r', s, hr', hs, hres, -⟩
    · cases hnone.symm.trans hr
    · obtain rfl : s = r := Option.some.inj (hs.symm.trans hr)
      exact ⟨r', hr', hres⟩
  · exact ⟨r, outgoing_of_steady ho hre nowMs p hr, .inl rfl⟩

/-- **Where an outstanding command comes from**: it was outstanding before, was
due and is sent once more, or was just sent for the first time. -/
theorem PeerOp.outgoing_of_apply (o : PeerOp) (nowMs : U32) (p : PeerEntry) {key : U8 × U16}
    {r' : OutstandingReliable} (hr : (o.apply nowMs p).outgoingReliable[key]? = some r') :
    JustSent nowMs r' ∨ ∃ r, p.outgoingReliable[key]? = some r ∧ ResentFrom nowMs r r' := by
  have hsends : ∀ {q : PeerEntry}, SendsFrom nowMs p q → q.outgoingReliable[key]? = some r' →
      JustSent nowMs r' ∨ ∃ r, p.outgoingReliable[key]? = some r ∧ ResentFrom nowMs r r' :=
    fun hs hr => (hs key r' hr).symm.imp_right fun hold => ⟨r', hold, .inl rfl⟩
  by_cases ho : o.Creating
  · cases o with
    | connectionCmd cmdType body => exact hsends (.makeReliable _ _ _ _ _) hr
    | numberWhole pkt => exact hsends (.numberWhole pkt p) hr
    | numberFragments pkt fp => exact hsends (.numberFragments pkt fp p) hr
    | _ => exact ho.elim
  · exact .inr (outgoing_of_not_creating ho nowMs p hr)

end EnetRs
