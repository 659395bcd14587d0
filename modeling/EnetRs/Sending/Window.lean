/-
  EnetRs.Sending.Window — the reliable send window, and what is in flight.

  The outstanding numbers of a channel lie behind its counter.  As long as they
  are less than half the number space behind it, `oldest` is the oldest of them
  and the next numbers are free.  The window is looked at once per packet,
  however many numbers the packet takes; `WindowFits` says how many there is room
  for.

  Main results:
    * `PeerOp.outstanding_cases` — what an operation creates and what it takes
      away.
    * `Windowed.numbers` — a packet there is room for keeps the window.
    * `oldest_outstanding` — the search for the oldest number, in any order.
    * `Kept.op` — a command leaves by its ACK, CONNECT also by VERIFY_CONNECT.
-/
import EnetRs.Sending.Teardown

namespace EnetRs

open MachineInt

/-! ## §1. What an operation creates and takes away. -/

section Shedding

variable {h : HostTask} {p : PeerEntry} {o : PeerOp}

/-- What an operation that creates nothing records, and how a command leaves. -/
theorem PeerOp.history_of_not_creating (ho : ¬ o.Creating) (nowMs : U32) (hg : o.Guard h p) :
    ∃ es, (o.apply nowMs p).history = p.history ++ es
      ∧ (∀ ty ch seq fresh, .create ty ch seq fresh ∉ es)
      ∧ ∀ k ∈ p.outgoingReliable, k ∈ (o.apply nowMs p).outgoingReliable ∨ .ack k.1 k.2 ∈ es
        ∨ (p.state = .connecting ∧ (o.apply nowMs p).state ≠ .connecting
          ∧ (o.apply nowMs p).toUserRx = none) := by
  by_cases hv : ∃ hostMtu vc hdr, o = .verify hostMtu vc hdr
  · obtain ⟨hostMtu, vc, hdr, rfl⟩ := hv
    refine ⟨[], (List.append_nil _).symm, by simp, fun k _ => .inr (.inr ⟨hg.2.1, ?_, rfl⟩)⟩
    exact PeerState.noConfusion
  · obtain ⟨es, hrec, hno⟩ := PeerOp.records_of_not_creating ho
      (fun hostMtu vc hdr heq => hv ⟨hostMtu, vc, hdr, heq⟩) nowMs p
    exact ⟨es, hrec.history, hno, fun k hk => (hrec.keys k hk).imp_right .inl⟩

end Shedding

/-- Commands were stored and none left: each command created between `p` and
`q` is outstanding in `q`. -/
structure Stores (p q : PeerEntry) : Prop where
  history : ∃ es, q.history = p.history ++ es
    ∧ ∀ ty ch seq fresh, .create ty ch seq fresh ∈ es → (ch, seq) ∈ q.outgoingReliable
  keys : ∀ k ∈ p.outgoingReliable, k ∈ q.outgoingReliable

namespace Stores

variable {p q r : PeerEntry}

theorem of_same (hh : q.history = p.history) (hout : q.outgoingReliable = p.outgoingReliable) :
    Stores p q :=
  ⟨⟨[], by rw [hh, List.append_nil], by simp⟩, fun k hk => by rw [hout]; exact hk⟩

theorem trans (hpq : Stores p q) (hqr : Stores q r) : Stores p r := by
  obtain ⟨es, hes, hin⟩ := hpq.history
  obtain ⟨fs, hfs, hin'⟩ := hqr.history
  refine ⟨⟨es ++ fs, by rw [hfs, hes, List.append_assoc], fun ty ch seq fresh hm => ?_⟩,
    fun k hk => hqr.keys k (hpq.keys k hk)⟩
  rcases List.mem_append.mp hm with hm | hm
  · exact hqr.keys _ (hin ty ch seq fresh hm)
  · exact hin' ty ch seq fresh hm

theorem track (p : PeerEntry) (ch : U8) (seq : U16) (ty : U8) (cmd : Bytes) (nowMs : U32) :
    Stores p (p.track ch seq ty cmd nowMs) := by
  refine ⟨⟨_, rfl, fun ty' ch' seq' fresh hm => ?_⟩, fun k hk => ?_⟩
  · cases List.mem_singleton.mp hm
    exact Std.ExtTreeMap.mem_insert_self
  · exact Std.ExtTreeMap.mem_insert.mpr (.inr hk)

theorem next (ch : U8) (p : PeerEntry) : Stores p (p.nextReliableSeq ch).1 :=
  of_same (PeerEntry.nextReliableSeq_history p ch) (PeerEntry.nextReliableSeq_outgoing p ch)

theorem makeReliable (p : PeerEntry) (ch ty flags : U8) (nowMs : U32) (body : Bytes) :
    Stores p (p.makeReliable ch ty flags nowMs body).1 := by
  refine trans (q := (p.takeSeq ch).1) ?_ (track _ _ _ _ _ _)
  unfold PeerEntry.takeSeq
  split
  · exact of_same rfl rfl
  · exact next ch p

theorem fragmentLoop (ch : U8) (startSeq : U16) (fp : Nat) (data : Bytes) (nowMs : U32) (n i : Nat)
    (p : PeerEntry) : Stores p (PeerEntry.fragmentLoop ch startSeq fp data nowMs n i p).1 :=
  PeerEntry.fragmentLoop_rel (R := Stores) (fun _ => of_same rfl rfl) trans (next ch)
    (fun p seq cmd => track p ch seq cmdSendFragment cmd nowMs) _ _ _ _ _ _

/-- Recording the numbers of a packet creates nothing. -/
theorem number (p : PeerEntry) (pkt : Packet) (ch : U8) (seq : U16) (n : Nat) :
    Stores p (p.log (.number pkt ch seq n)) :=
  ⟨⟨_, rfl, by simp⟩, fun _ hk => hk⟩

end Stores

/-- The operations that create a command store it, and take none away. -/
theorem PeerOp.stores {o : PeerOp} (ho : o.Creating) (nowMs : U32) (p : PeerEntry) :
    Stores p (o.apply nowMs p) := by
  cases o with
  | connectionCmd cmdType body => exact .makeReliable _ _ _ _ _ _
  | numberWhole pkt => exact (Stores.makeReliable _ _ _ _ _ _).trans (.number _ _ _ _ _)
  | numberFragments pkt fp =>
      exact (Stores.next pkt.channel p).trans ((Stores.fragmentLoop pkt.channel _ fp pkt.data nowMs
        (fragCount fp pkt.data) 0 _).trans (.number _ _ _ _ _))
  | _ => exact ho.elim

/-! ## §2. How a command leaves. -/

/-- Every command created in the history is still outstanding, was acknowledged
afterwards, or is a CONNECT that VERIFY_CONNECT has answered. -/
def Accounted (keys : U8 × U16 → Prop) (verified : Prop) : List PeerEvent → Prop
  | [] => True
  | .create ty ch seq _ :: rest =>
      (keys (ch, seq) ∨ .ack ch seq ∈ rest ∨ (ty = cmdConnect ∧ verified))
        ∧ Accounted keys verified rest
  | _ :: rest => Accounted keys verified rest

section Accounted

variable {keys keys' : U8 × U16 → Prop} {verified verified' : Prop} {hist es : List PeerEvent}

theorem accounted_of_stored
    (hin : ∀ ty ch seq fresh, .create ty ch seq fresh ∈ es → keys (ch, seq)) :
    Accounted keys verified es := by
  induction es with
  | nil => trivial
  | cons e es ih =>
      have hrest := ih fun ty ch seq fresh hm => hin ty ch seq fresh (List.mem_cons_of_mem _ hm)
      cases e with
      | create ty ch seq fresh => exact ⟨.inl (hin ty ch seq fresh List.mem_cons_self), hrest⟩
      | _ => exact hrest

theorem Accounted.append (ha : Accounted keys verified hist) (hes : Accounted keys' verified' es)
    (hv : verified → verified')
    (hk : ∀ ty ch seq fresh, .create ty ch seq fresh ∈ hist → keys (ch, seq) →
      keys' (ch, seq) ∨ .ack ch seq ∈ es ∨ (ty = cmdConnect ∧ verified')) :
    Accounted keys' verified' (hist ++ es) := by
  induction hist with
  | nil => exact hes
  | cons e hist ih =>
      have hrest := fun hacc => ih hacc fun ty ch seq fresh hm =>
        hk ty ch seq fresh (List.mem_cons_of_mem _ hm)
      cases e with
      | create ty ch seq fresh =>
          refine ⟨?_, hrest ha.2⟩
          rcases ha.1 with hkey | hack | ⟨hty, hver⟩
          · rcases hk ty ch seq fresh List.mem_cons_self hkey with hkey | hack | hver
            · exact .inl hkey
            · exact .inr (.inl (List.mem_append_right _ hack))
            · exact .inr (.inr hver)
          · exact .inr (.inl (List.mem_append_left _ hack))
          · exact .inr (.inr ⟨hty, hv hver⟩)
      | _ => exact hrest ha

end Accounted

/-- **No command is forgotten.**  Before VERIFY_CONNECT the only command is the
CONNECT itself. -/
structure Kept (p : PeerEntry) : Prop where
  accounted : Accounted (· ∈ p.outgoingReliable) (p.toUserRx = none) p.history
  connecting : p.state = .connecting →
    ∀ ty ch seq fresh, .create ty ch seq fresh ∈ p.history → ty = cmdConnect

namespace Kept

variable {h : HostTask} {p : PeerEntry} {o : PeerOp} {nowMs : U32}

theorem of_new {slot : PeerKey} (hn : IsNewEntry h slot nowMs p) : Kept p := by
  refine ⟨?_, fun hst ty ch seq fresh hm => ?_⟩
  · obtain ⟨ty, hh, -⟩ := hn.starts.history
    obtain ⟨r, hr, -⟩ := hn.starts.outgoing
    rw [hh, hr]
    exact ⟨.inl Std.ExtTreeMap.mem_insert_self, trivial⟩
  · rcases hn with ⟨addr, channelCount, userData, reply, connectId, rfl⟩ | ⟨c, hdr, src, rfl⟩
    · cases List.mem_singleton.mp hm
      rfl
    · cases hst

/-- Nothing is created before the connection is established. -/
theorem connecting_op (hp : Kept p) (hg : o.Guard h p)
    (hst : (o.apply nowMs p).state = .connecting) :
    ∀ ty ch seq fresh, .create ty ch seq fresh ∈ (o.apply nowMs p).history → ty = cmdConnect := by
  have hst₀ : p.state = .connecting := by
    rcases PeerOp.state_cases nowMs hg with heq | ⟨-, heq⟩ | ⟨data, heq⟩ | heq
    · exact heq.symm.trans hst
    all_goals cases heq.symm.trans hst
  obtain ⟨es, hes, hty⟩ := PeerOp.created nowMs hg
  intro ty ch seq fresh hm
  rw [hes] at hm
  rcases List.mem_append.mp hm with hm | hm
  · exact hp.connecting hst₀ ty ch seq fresh hm
  · rcases hty ty ch seq fresh hm with ⟨hconn, -⟩ | ⟨body, rfl⟩
    · cases hst₀.symm.trans hconn
    · rcases hg.2 with ⟨-, hconn, -⟩ | ⟨-, hdisc, -⟩ | ⟨-, hconn⟩
      · cases hst₀.symm.trans hconn
      · cases hst₀.symm.trans hdisc
      · cases hst₀.symm.trans hconn

/-- **How a command leaves**: by its own ACK, CONNECT also by VERIFY_CONNECT. -/
theorem op (hp : Kept p) (hg : o.Guard h p) : Kept (o.apply nowMs p) := by
  refine ⟨?_, hp.connecting_op hg⟩
  have hver : p.toUserRx = none → (o.apply nowMs p).toUserRx = none := by
    intro hnone
    exact (PeerOp.sameConnection nowMs p o).rx.elim (fun heq => heq.trans hnone) id
  by_cases ho : o.Creating
  · obtain ⟨⟨es, hes, hin⟩, hkeys⟩ := PeerOp.stores ho nowMs p
    rw [hes]
    exact hp.accounted.append (accounted_of_stored hin) hver
      fun ty ch seq fresh _ hkey => .inl (hkeys _ hkey)
  · obtain ⟨es, hes, hno, hkeys⟩ := PeerOp.history_of_not_creating ho nowMs hg
    rw [hes]
    refine hp.accounted.append (accounted_of_stored fun ty ch seq fresh hm =>
      absurd hm (hno ty ch seq fresh)) hver fun ty ch seq fresh hm hkey => ?_
    rcases hkeys _ hkey with hkey | hack | ⟨hst, -, hnone⟩
    · exact .inl hkey
    · exact .inr (.inl hack)
    · exact .inr (.inr ⟨hp.connecting hst ty ch seq fresh hm, hnone⟩)

end Kept

/-- **Every entry of a reachable state** accounts for its commands. -/
theorem HostTask.Reachable.kept {h : HostTask} (hr : h.Reachable) :
    ∀ k p, h.peer k = some p → Kept p := by
  refine hr.invariant (fun h => ∀ k p, h.peer k = some p → Kept p) (by simp) ?_
  intro nowMs h l hi hg
  exact Label.entries hg (fun _ _ _ hn => .of_new hn) (fun _ _ _ _ _ hp hgo => hp.op hgo) hi

/-! ## §3. The window. -/

/-- Half the number space: `FREE_RELIABLE_WINDOWS * RELIABLE_WINDOW_SIZE`. -/
def windowSpan : Nat := freeReliableWindows.toNat * reliableWindowSize.toNat

theorem windowSpan_eq : windowSpan = 32768 := rfl

namespace PeerEntry

variable {p q : PeerEntry} {ch : U8} {c : Channel} {pkt : Packet} {n : Nat}

/-- Whether the window has room for `n` more numbers of channel `c` (index `ch`). -/
def WindowFits (p : PeerEntry) (ch : U8) (c : Channel) (n : Nat) : Prop :=
  match oldestSeq (p.outstandingSeqs ch) with
  | none => n ≤ windowSpan
  | some oldest => (c.outgoingReliableSeq + 1 - oldest).toNat + n ≤ windowSpan

instance (p : PeerEntry) (ch : U8) (c : Channel) (n : Nat) : Decidable (p.WindowFits ch c n) :=
  match hold : oldestSeq (p.outstandingSeqs ch) with
  | none => decidable_of_iff (n ≤ windowSpan) (by simp [WindowFits, hold])
  | some oldest =>
      decidable_of_iff ((c.outgoingReliableSeq + 1 - oldest).toNat + n ≤ windowSpan)
        (by simp [WindowFits, hold])

/-- An open window has room for one number. -/
theorem windowFits_one (hw : p.windowOpen ch c = true) : p.WindowFits ch c 1 := by
  have hcap : p.effectiveWindow ≤ windowSpan := Nat.min_le_right _ _
  unfold windowOpen at hw
  unfold WindowFits
  split
  · decide
  · next oldest hold =>
    simp only [hold, decide_eq_true_eq] at hw
    omega

theorem mem_outstandingSeqs (hw : WellKeyed p.outgoingReliable) {s : U16} :
    s ∈ p.outstandingSeqs ch ↔ (ch, s) ∈ p.outgoingReliable := by
  rw [outstandingSeqs_eq hw, List.mem_map]
  constructor
  · rintro ⟨⟨⟨ch', s'⟩, r⟩, he, rfl⟩
    obtain ⟨hmem, hch⟩ := List.mem_filter.mp he
    obtain rfl : ch' = ch := by simpa using hch
    exact Collections.mem_iff_exists.mpr
      ⟨r, Std.ExtTreeMap.mem_toList_iff_getElem?_eq_some.mp hmem⟩
  · intro hmem
    obtain ⟨r, hr⟩ := Collections.mem_iff_exists.mp hmem
    exact ⟨((ch, s), r), List.mem_filter.mpr
      ⟨Std.ExtTreeMap.mem_toList_iff_getElem?_eq_some.mpr hr, by simp⟩, rfl⟩

/-- **The oldest number** is the one furthest behind, as long as all of them are
within half a turn. -/
theorem oldestSeq_spec {last o : U16} {seqs : List U16}
    (hnear : ∀ s ∈ seqs, Serial.behind last s < windowSpan) (ho : oldestSeq seqs = some o) :
    o ∈ seqs ∧ ∀ s ∈ seqs, Serial.behind last s ≤ Serial.behind last o := by
  have hlt : ∀ a ∈ seqs, ∀ b ∈ seqs,
      seqLt a b = true ↔ Serial.behind last b < Serial.behind last a := by
    intro a ha b hb
    have ha := hnear a ha
    have hb := hnear b hb
    rw [windowSpan_eq] at ha hb
    rw [seqLt, decide_eq_true_eq]
    exact Serial.toInt_sub_pos_iff (by omega) (by omega)
  -- the fold over the rest, from any of the numbers on
  have hfold : ∀ (rest : List U16) (a : U16), a ∈ seqs → (∀ s ∈ rest, s ∈ seqs) →
      rest.foldl (fun a b => if seqLt a b then a else b) a ∈ seqs
        ∧ ∀ s ∈ a :: rest, Serial.behind last s
          ≤ Serial.behind last (rest.foldl (fun a b => if seqLt a b then a else b) a) := by
    intro rest
    induction rest with
    | nil => exact fun a ha _ => ⟨ha, by simp⟩
    | cons b rest ih =>
        intro a ha hrest
        have hb := hrest b List.mem_cons_self
        rw [List.foldl_cons]
        have hrest := fun s hs => hrest s (List.mem_cons_of_mem _ hs)
        -- the further behind of the two goes on
        obtain ⟨x, hx, hxa, hxb, hxin⟩ : ∃ x, (if seqLt a b then a else b) = x
            ∧ Serial.behind last a ≤ Serial.behind last x
            ∧ Serial.behind last b ≤ Serial.behind last x ∧ x ∈ seqs := by
          by_cases hcmp : seqLt a b = true
          · exact ⟨a, if_pos hcmp, Nat.le_refl _, Nat.le_of_lt ((hlt a ha b hb).mp hcmp), ha⟩
          · have hge := Nat.le_of_not_lt fun hlt' => hcmp ((hlt a ha b hb).mpr hlt')
            exact ⟨b, if_neg hcmp, hge, Nat.le_refl _, hb⟩
        rw [hx]
        obtain ⟨hmem, hmax⟩ := ih x hxin hrest
        have hfar := hmax x List.mem_cons_self
        refine ⟨hmem, fun s hs => ?_⟩
        rcases List.mem_cons.mp hs with rfl | hs
        · exact Nat.le_trans hxa hfar
        · rcases List.mem_cons.mp hs with rfl | hs
          · exact Nat.le_trans hxb hfar
          · exact hmax s (List.mem_cons_of_mem _ hs)
  cases seqs with
  | nil => cases ho
  | cons s rest =>
      obtain ⟨hmem, hmax⟩ := hfold rest s List.mem_cons_self fun x hx => List.mem_cons_of_mem _ hx
      cases ho
      exact ⟨hmem, hmax⟩

/-- **Any order gives the same number**: the one all others are at most half a
turn ahead of. -/
theorem oldestSeq_eq {b : U16} {seqs : List U16} (hb : b ∈ seqs)
    (hahead : ∀ s ∈ seqs, (s - b).toNat ≤ 32767) : oldestSeq seqs = some b := by
  -- seen from the far end of that half turn
  have hfar : ∀ s ∈ seqs, Serial.behind (b + 32767) s = 32767 - (s - b).toNat := by
    intro s hs
    have := hahead s hs
    unfold Serial.behind
    bv_omega
  have hnear : ∀ s ∈ seqs, Serial.behind (b + 32767) s < windowSpan := by
    intro s hs
    rw [hfar s hs, windowSpan_eq]
    omega
  obtain ⟨o, ho⟩ : ∃ o, oldestSeq seqs = some o := by
    cases seqs with
    | nil => cases hb
    | cons s rest => exact ⟨_, rfl⟩
  obtain ⟨hin, hmax⟩ := oldestSeq_spec hnear ho
  have hlast := hmax b hb
  rw [hfar b hb, hfar o hin] at hlast
  have hle := hahead o hin
  rw [ho]
  congr 1
  bv_omega

/-- How far the window reaches: every outstanding number has room for the new
ones ahead of it. -/
theorem WindowFits.reach (hw : WellKeyed p.outgoingReliable)
    (hnear : ∀ s, (ch, s) ∈ p.outgoingReliable →
      Serial.behind c.outgoingReliableSeq s < windowSpan)
    (hfits : p.WindowFits ch c n) :
    n ≤ windowSpan ∧ ∀ s, (ch, s) ∈ p.outgoingReliable →
      Serial.behind c.outgoingReliableSeq s + n < windowSpan := by
  have hnear' : ∀ s ∈ p.outstandingSeqs ch, Serial.behind c.outgoingReliableSeq s < windowSpan :=
    fun s hs => hnear s ((mem_outstandingSeqs hw).mp hs)
  unfold WindowFits at hfits
  split at hfits
  · next hnone =>
    refine ⟨hfits, fun s hs => ?_⟩
    have hs := (mem_outstandingSeqs hw).mpr hs
    cases hseqs : p.outstandingSeqs ch with
    | nil => simp [hseqs] at hs
    | cons a rest => simp [hseqs, oldestSeq] at hnone
  · next oldest hold =>
    obtain ⟨hin, hmax⟩ := oldestSeq_spec hnear' hold
    have hoff := hnear' oldest hin
    have hnext : (c.outgoingReliableSeq + 1 - oldest).toNat
        = Serial.behind c.outgoingReliableSeq oldest + 1 := by
      refine Serial.behind_add (k := 1) ?_
      rw [windowSpan_eq] at hoff
      omega
    rw [hnext] at hfits
    refine ⟨by omega, fun s hs => ?_⟩
    have := hmax s ((mem_outstandingSeqs hw).mpr hs)
    omega

/-- **The window**: the outstanding numbers of a data channel are less than half
a turn behind its counter, and none was ever stored a second time. -/
structure Windowed (p : PeerEntry) : Prop where
  keyed : WellKeyed p.outgoingReliable
  near : ∀ (ch : U8) (s : U16), (ch, s) ∈ p.outgoingReliable → ch ≠ channelIdConnection →
    ∃ c, p.channels[ch.toNat]? = some c ∧ Serial.behind c.outgoingReliableSeq s < windowSpan
  fresh : ∀ ty ch seq fresh, .create ty ch seq fresh ∈ p.history → ch ≠ channelIdConnection →
    fresh = true

namespace Windowed

theorem of_starts (hs : Starts p) : Windowed p := by
  obtain ⟨ty, hh, -⟩ := hs.history
  obtain ⟨r, hr, -⟩ := hs.outgoing
  refine ⟨hs.keyed, fun ch s hin hch => ?_, fun ty' ch seq fresh hm hch => ?_⟩
  · rw [hr, Std.ExtTreeMap.mem_insert] at hin
    rcases hin with heq | hin
    · exact absurd (congrArg Prod.fst (Std.LawfulEqCmp.eq_of_compare heq)).symm hch
    · exact absurd hin Std.ExtTreeMap.not_mem_empty
  · rw [hh] at hm
    cases List.mem_singleton.mp hm
    rfl

/-- **A packet that fits** keeps the window: its numbers are new, and they are
within half a turn of what was outstanding before. -/
theorem numbers (hp : Windowed p) (hc : p.channels[pkt.channel.toNat]? = some c)
    (hch : pkt.channel ≠ channelIdConnection) (hfits : p.WindowFits pkt.channel c n)
    (hn : Numbers p c pkt n q) : Windowed q := by
  obtain ⟨hspan, hreach⟩ := hfits.reach hp.keyed fun s hs => by
    obtain ⟨c', hc', hnear⟩ := hp.near _ s hs hch
    cases hc.symm.trans hc'
    exact hnear
  obtain ⟨ty, r, -, hcreates, hout, hh⟩ := hn.creates
  have hc' : q.channels[pkt.channel.toNat]? = some (c.advance n) := by
    rw [hn.channels, List.getElem?_modify, hc]
    simp
  have hturn : n ≤ 2 ^ 16 := by
    rw [windowSpan_eq] at hspan
    omega
  refine ⟨hn.on.keyed hp.keyed, fun ch s hin hne => ?_, fun ty' ch seq fresh hm hne => ?_⟩
  · rw [hout, hcreates.keys] at hin
    rcases hin with hold | ⟨s', hs', heq⟩
    · by_cases hsame : ch = pkt.channel
      · subst hsame
        refine ⟨_, hc', ?_⟩
        have hroom := hreach s hold
        rw [windowSpan_eq] at hroom ⊢
        rw [Channel.advance, Serial.behind_add (by omega)]
        exact hroom
      · obtain ⟨c₀, hc₀, hnear⟩ := hp.near ch s hold hne
        refine ⟨c₀, ?_, hnear⟩
        rw [hn.on.channels _ fun heq => hsame (BitVec.eq_of_toNat_eq heq)]
        exact hc₀
    · cases heq
      obtain ⟨i, hi, rfl⟩ := Serial.mem_block.mp hs'
      refine ⟨_, hc', ?_⟩
      rw [Channel.advance, Serial.behind_block hi hturn]
      omega
  · -- a number in use is not among the next ones
    obtain ⟨es, hes, hty, hfresh⟩ := hcreates.history
    rw [hh, hes, List.append_assoc] at hm
    rcases List.mem_append.mp hm with hm | hm
    · exact hp.fresh ty' ch seq fresh hm hne
    · have hm : PeerEvent.create ty' ch seq fresh ∈ es := by simpa using hm
      have hnew : ∀ s ∈ Serial.block (c.outgoingReliableSeq + 1) n,
          (pkt.channel, s) ∉ p.outgoingReliable := by
        intro s hs hin
        obtain ⟨i, hi, rfl⟩ := Serial.mem_block.mp hs
        have hroom := hreach _ hin
        rw [windowSpan_eq] at hroom hspan
        rw [Serial.behind_next (by omega)] at hroom
        omega
      obtain ⟨s, heq⟩ := hfresh hnew (Serial.nodup_block _ hturn) _ hm
      cases heq
      rfl

/-- The operations that create nothing. -/
theorem not_creating {h : HostTask} {o : PeerOp} (hp : Windowed p) (hr : InRange p)
    (hg : o.Guard h p) (ho : ¬ o.Creating) (nowMs : U32) : Windowed (o.apply nowMs p) := by
  have hcounters : (o.apply nowMs p).channels.map (·.outgoingReliableSeq)
      = p.channels.map (·.outgoingReliableSeq) := by
    refine PeerOp.map_channels _ nowMs (fun c => PeerOp.channelStep_outgoing p c ?_ ?_) hg
      hr.channels.2
    · rintro pkt rfl
      exact ho trivial
    · rintro pkt fp rfl
      exact ho trivial
  refine ⟨fun k r hr => ?_, fun ch s hin hne => ?_, fun ty ch seq fresh hm hne => ?_⟩
  · obtain ⟨r', hr', hres⟩ := PeerOp.outgoing_of_not_creating ho nowMs p hr
    have hk := hp.keyed k r' hr'
    rcases hres with rfl | ⟨-, -, rfl⟩
    · exact hk
    · exact hk
  · obtain ⟨r, hr⟩ := Collections.mem_iff_exists.mp hin
    obtain ⟨r', hr', -⟩ := PeerOp.outgoing_of_not_creating ho nowMs p hr
    obtain ⟨c, hc, hnear⟩ := hp.near ch s (Collections.mem_iff_exists.mpr ⟨r', hr'⟩) hne
    obtain ⟨c', hc', hseq⟩ := Collections.getElem?_of_map_eq hcounters hc
    exact ⟨c', hc', by rw [hseq]; exact hnear⟩
  · obtain ⟨es, hes, hno, -⟩ := PeerOp.history_of_not_creating ho nowMs hg
    rw [hes] at hm
    rcases List.mem_append.mp hm with hm | hm
    · exact hp.fresh ty ch seq fresh hm hne
    · exact absurd hm (hno ty ch seq fresh)

/-- A command on the connection's own channel. -/
theorem connectionCmd (hp : Windowed p) (cmdType : U8) (body : Bytes) (nowMs : U32) :
    Windowed ((PeerOp.connectionCmd cmdType body).apply nowMs p) := by
  refine ⟨PeerOp.keyed id nowMs hp.keyed, fun ch s hin hne => ?_, fun ty ch seq fresh hm hne => ?_⟩
  · rcases Std.ExtTreeMap.mem_insert.mp hin with heq | hin
    · exact absurd (congrArg Prod.fst (Std.LawfulEqCmp.eq_of_compare heq)).symm hne
    · exact hp.near ch s hin hne
  · rcases List.mem_append.mp hm with hm | hm
    · exact hp.fresh ty ch seq fresh hm hne
    · cases List.mem_singleton.mp hm
      exact absurd rfl hne

/-- **Every operation keeps the window**, if a packet in fragments fits. -/
theorem op {h : HostTask} {o : PeerOp} (hp : Windowed p) (hr : InRange p) (hg : o.Guard h p)
    (hfits : ∀ pkt fp c, o = .numberFragments pkt fp → p.channels[pkt.channel.toNat]? = some c →
      p.WindowFits pkt.channel c (fragCount fp pkt.data)) (nowMs : U32) :
    Windowed (o.apply nowMs p) := by
  by_cases ho : o.Creating
  · cases o with
    | connectionCmd cmdType body => exact hp.connectionCmd cmdType body nowMs
    | numberWhole pkt =>
        obtain ⟨c, hsend, hopen, -⟩ := hg
        exact hp.numbers hsend.2.2 (hsend.channel_ne hr.channels.2) (windowFits_one hopen)
          (numberWhole_numbers nowMs hr hsend)
    | numberFragments pkt fp =>
        obtain ⟨c, hsend, hopen, hbig, rfl⟩ := hg
        exact hp.numbers hsend.2.2 (hsend.channel_ne hr.channels.2) (hfits _ _ c rfl hsend.2.2)
          (numberFragments_numbers nowMs (fragCount_pos_of_big hr hbig) hsend)
    | _ => exact ho.elim
  · exact hp.not_creating hr hg ho nowMs

end Windowed

/-! The span of the outstanding numbers. -/

/-- The distance from `b` to `next` covers `s` if `next` does not come before
`s`, counted from `b`. -/
theorem sub_le_sub_iff_ahead (next b s : U16) :
    (next - s).toNat ≤ (next - b).toNat ↔ s = b ∨ (s - b).toNat ≤ (next - b).toNat := by
  bv_omega

/-- In the window, no outstanding number lies beyond the next one. -/
theorem Windowed.ahead_le (hp : Windowed p) (hc : p.channels[ch.toNat]? = some c)
    (hch : ch ≠ channelIdConnection) {b s : U16} (hb : b ∈ p.outstandingSeqs ch)
    (hs : s ∈ p.outstandingSeqs ch) (hahead : (s - b).toNat ≤ 32767) :
    (s - b).toNat ≤ (c.outgoingReliableSeq + 1 - b).toNat := by
  have hnear : ∀ x ∈ p.outstandingSeqs ch, (c.outgoingReliableSeq - x).toNat < 32768 := by
    intro x hx
    obtain ⟨c', hc', hnear⟩ := hp.near ch x ((mem_outstandingSeqs hp.keyed).mp hx) hch
    cases hc.symm.trans hc'
    exact hnear
  have hb := hnear b hb
  have hs := hnear s hs
  bv_omega

/-- **The oldest outstanding number.**  Of a set of numbers that are all at most
32767 ahead of one of them, `send_packet` finds that one, in whatever order it
sees them.  So the window test compares `next_seq` with that number.  The
difference is the span of the outstanding numbers, that is, the largest of
their distances from `next_seq`, exactly when none of them lies beyond
`next_seq`, as in every entry that keeps its window. -/
theorem oldest_outstanding (S : Finset U16) (b : U16) (hb : b ∈ S)
    (hahead : ∀ s ∈ S, (s - b).toNat ≤ 32767) :
    (∀ order : List U16, order.toFinset = S → oldestSeq order = some b)
      ∧ ∀ (p : PeerEntry) (ch : U8) (c : Channel), (p.outstandingSeqs ch).toFinset = S →
        p.windowOpen ch c = decide ((c.outgoingReliableSeq + 1 - b).toNat < p.effectiveWindow)
          ∧ (IsGreatest (Set.image (fun s => (c.outgoingReliableSeq + 1 - s).toNat) S)
              (c.outgoingReliableSeq + 1 - b).toNat
            ↔ ∀ s ∈ S, (s - b).toNat ≤ (c.outgoingReliableSeq + 1 - b).toNat)
          ∧ (Windowed p → p.channels[ch.toNat]? = some c → ch ≠ channelIdConnection →
            ∀ s ∈ S, (s - b).toNat ≤ (c.outgoingReliableSeq + 1 - b).toNat) := by
  have hold : ∀ order : List U16, order.toFinset = S → oldestSeq order = some b := by
    intro order hset
    have hmem : ∀ s, s ∈ order ↔ s ∈ S := fun s => by rw [← hset, List.mem_toFinset]
    exact oldestSeq_eq ((hmem b).mpr hb) fun s hs => hahead s ((hmem s).mp hs)
  refine ⟨hold, fun p ch c hset => ⟨?_, ⟨?_, ?_⟩, ?_⟩⟩
  · unfold windowOpen
    rw [hold _ hset]
  · intro hgreatest s hs
    have hle := hgreatest.2 (Set.mem_image_of_mem _ hs)
    rcases (sub_le_sub_iff_ahead _ b s).mp hle with rfl | hle
    · simp
    · exact hle
  · intro hbefore
    refine ⟨Set.mem_image_of_mem _ hb, ?_⟩
    rintro d ⟨s, hs, rfl⟩
    exact (sub_le_sub_iff_ahead _ b s).mpr (.inr (hbefore s hs))
  · intro hw hc hch s hs
    have hmem : ∀ x ∈ S, x ∈ p.outstandingSeqs ch := fun x hx => by
      rw [← List.mem_toFinset, hset]
      exact hx
    exact hw.ahead_le hc hch (hmem b hb) (hmem s hs) (hahead s hs)

/-- An entry whose outstanding numbers on channel 0 have wrapped around: the map
lists them as 0, 1, 65534, 65535. -/
def wrappedEntry : PeerEntry :=
  [65534, 65535, 0, 1].foldl (fun p seq => p.track 0 seq cmdSendReliable [] 0)
    (fresh HostTask.alice 0 1 mtuDefault 1 0)

theorem oldest_outstanding_wrapped :
    oldestSeq [0, 1, 65534, 65535] = some 65534
      ∧ wrappedEntry.outstandingSeqs 0 = [0, 1, 65534, 65535]
      ∧ wrappedEntry.windowOpen 0 { Channel.new with outgoingReliableSeq := 1 }
        = decide ((1 + 1 - 65534 : U16).toNat < wrappedEntry.effectiveWindow) := by
  have hset : [0, 1, 65534, 65535].toFinset = ({0, 1, 65534, 65535} : Finset U16) := by
    simp
  have hahead : ∀ s ∈ ({0, 1, 65534, 65535} : Finset U16), (s - 65534).toNat ≤ 32767 := by
    simp
  have hall := oldest_outstanding {0, 1, 65534, 65535} 65534 (by simp) hahead
  have hseqs : wrappedEntry.outstandingSeqs 0 = [0, 1, 65534, 65535] := by decide +kernel
  refine ⟨hall.1 _ hset, hseqs, ?_⟩
  exact (hall.2 wrappedEntry 0 { Channel.new with outgoingReliableSeq := 1 } (hseqs ▸ hset)).1

end PeerEntry

/-! ## §4. Runs whose packets fit. -/

namespace HostTask

/-- **A packet in fragments fits the window**: when `send_packet` is about to
number it, the span from the oldest outstanding number of its channel (of
nothing, if none is) to its last fragment is at most half the number space. -/
def FitsWindow (h : HostTask) (key : PeerKey) (pkt : Packet) : Prop :=
  ∀ p, h.peer key = some p → ∀ c, p.channels[pkt.channel.toNat]? = some c →
    p.state = .connected → pkt.mode = .reliable → p.windowOpen pkt.channel c = true →
    maxReliablePayload p.mtu.toNat h.useChecksum < pkt.data.length →
    p.WindowFits pkt.channel c (fragCount (fragPayload p.mtu.toNat h.useChecksum) pkt.data)

instance (h : HostTask) (key : PeerKey) (pkt : Packet) : Decidable (h.FitsWindow key pkt) :=
  inferInstanceAs (Decidable (∀ p, h.peer key = some p → ∀ c,
    p.channels[pkt.channel.toNat]? = some c → p.state = .connected → pkt.mode = .reliable →
      p.windowOpen pkt.channel c = true →
      maxReliablePayload p.mtu.toNat h.useChecksum < pkt.data.length →
      p.WindowFits pkt.channel c (fragCount (fragPayload p.mtu.toNat h.useChecksum) pkt.data)))

/-- What the condition on packets says of the changes. -/
def NumbersFitting (h : HostTask) : Label → Prop
  | .op k (.numberFragments pkt _) => h.FitsWindow k pkt
  | _ => True

/-- **In a run whose packets fit, every entry keeps its windows.** -/
theorem windowed_run {acceptCapacity maxPeers : Nat} {useChecksum : Bool}
    {incomingBandwidth outgoingBandwidth : U32} {is : List Timed} {h : HostTask}
    (hrun : (HostTask.new acceptCapacity maxPeers useChecksum incomingBandwidth
      outgoingBandwidth).run is = some h)
    (hm : Transition.Meets timedStep (StepMeets (fun _ _ _ _ => True) FitsWindow)
      (HostTask.new acceptCapacity maxPeers useChecksum incomingBandwidth outgoingBandwidth) is) :
    ∀ k p, h.peer k = some p → p.Windowed := by
  refine run_entries (C := NumbersFitting) ?_ ?_ ?_ ?_ ?_ ?_ ?_ hrun hm
  · intro nowMs h key src cmd h' l _ hl
    cases l with
    | op k o =>
        cases o with
        | numberFragments => exact hl.2.2.elim
        | _ => trivial
    | _ => trivial
  · intro h key pkt h' l hfits hl
    cases l with
    | op k o =>
        cases o with
        | numberFragments pkt' fp =>
            obtain ⟨rfl, rfl, rfl⟩ := hl
            exact hfits
        | _ => trivial
    | _ => trivial
  · intro h l hl
    cases l with
    | op k o =>
        cases o with
        | numberFragments => exact hl.elim
        | _ => trivial
    | _ => trivial
  · intro h k o ho
    cases o with
    | numberFragments => exact ho.elim
    | _ => trivial
  · exact fun _ _ _ _ _ _ _ _ => trivial
  · exact fun nowMs h slot entry hg _ => .of_starts hg.2.starts
  · intro nowMs h k p o hp hr hI hg hc
    refine hI.op hr hg ?_ nowMs
    rintro pkt fp c rfl hchan
    obtain ⟨c', hsend, hopen, hbig, rfl⟩ := hg
    cases hchan.symm.trans hsend.2.2
    exact hc p hp c hchan hsend.1 hsend.2.1 hopen hbig

end HostTask

end EnetRs
