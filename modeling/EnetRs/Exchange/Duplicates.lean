/-
  EnetRs.Exchange.Duplicates — the duplicate window against exact detection.

  Groups are counted without end but sent modulo 2^16, and the window has 1024
  bits.  `Detector` is what it stands for: the largest group seen and the set of
  groups accepted.  As long as no arrival is further than half a turn from the
  largest group, the signed difference of the 16-bit groups is the true one, and
  a bit stands for the one group of the last 1024 that falls on it.

  Main results:
    * `Represents.arrive` — one arrival: the answer is the detector's, and the
      window stands for the detector afterwards.
    * `duplicates_exact` — any sequence of arrivals within half a turn.
-/
import EnetRs.Channel
import EnetRs.Lib.Serial

namespace EnetRs

open MachineInt

/-! ## §1. Exact detection. -/

/-- The largest group seen, and the groups accepted. -/
structure Detector where
  top : Int
  accepted : Finset Int

namespace Detector

/-- Before the first arrival. -/
def start : Detector := ⟨0, ∅⟩

/-- A group is new if it is the largest so far, or among the last 1024 and not
accepted yet. -/
def IsNew (d : Detector) (g : Int) : Prop := d.top < g ∨ (d.top - 1024 < g ∧ g ∉ d.accepted)

instance (d : Detector) (g : Int) : Decidable (d.IsNew g) := inferInstanceAs (Decidable (_ ∨ _))

/-- The detector after an arrival. -/
def arrive (d : Detector) (g : Int) : Detector :=
  ⟨max d.top g, if d.IsNew g then insert g d.accepted else d.accepted⟩

/-- The group is between 32768 behind and 32767 ahead of the largest one. -/
def InReach (d : Detector) (g : Int) : Prop := d.top - 32768 ≤ g ∧ g ≤ d.top + 32767

/-- Every arrival of a sequence is in reach when it comes. -/
def AllInReach : Detector → List Int → Prop
  | _, [] => True
  | d, g :: gs => d.InReach g ∧ AllInReach (d.arrive g) gs

/-- The detector after a sequence of arrivals. -/
def arriveAll (d : Detector) (gs : List Int) : Detector := gs.foldl arrive d

/-- Its answers, in order. -/
def answers : Detector → List Int → List Bool
  | _, [] => []
  | d, g :: gs => decide (d.IsNew g) :: answers (d.arrive g) gs

end Detector

namespace UnsequencedWindow

/-- A group as it is sent. -/
def wire (g : Int) : U16 := BitVec.ofInt 16 g

/-- The window after a sequence of arrivals. -/
def checkAll (win : UnsequencedWindow) (gs : List Int) : UnsequencedWindow :=
  gs.foldl (fun win g => (win.checkAndSet (wire g)).1) win

/-- What `check_and_set` answered, in order. -/
def answers : UnsequencedWindow → List Int → List Bool
  | _, [] => []
  | win, g :: gs => (win.checkAndSet (wire g)).2 :: answers (win.checkAndSet (wire g)).1 gs

/-! ## §2. The window stands for the detector. -/

/-- Of the last 1024 groups, those that were accepted have their bits set. -/
structure Represents (win : UnsequencedWindow) (d : Detector) : Prop where
  length : win.window.length = 32
  group : win.group = wire d.top
  bits : ∀ g, d.top - 1024 < g → g ≤ d.top →
    BitArray.testBit win.window (g % 1024).toNat = decide (g ∈ d.accepted)
  le : ∀ g ∈ d.accepted, g ≤ d.top

theorem represents_new : Represents new .start :=
  ⟨rfl, rfl, fun _ _ _ => BitArray.testBit_replicate_zero 32 _, nofun⟩

variable {win : UnsequencedWindow} {d : Detector} {g : Int}

theorem idx_wire (g : Int) : idx (wire g) = (g % 1024).toNat := by
  rw [idx, wire, BitVec.toNat_ofInt]
  omega

theorem wire_add (g : Int) (i : Nat) : wire g + BitVec.ofNat 16 i = wire (g + i) := by
  rw [wire, wire, BitVec.ofInt_add]
  rfl

/-- The signed difference of the 16-bit groups is the true one. -/
theorem Represents.diff (hw : Represents win d) (hreach : d.InReach g) :
    (wire g - win.group).toInt = g - d.top := by
  obtain ⟨hlo, hhi⟩ := hreach
  rw [hw.group]
  refine Serial.toInt_ofInt_sub ?_ ?_
  · show -(65536 / 2 : Int) ≤ _
    omega
  · show _ < ((65536 : Int) + 1) / 2
    omega

/-- The bits after the mark has moved: what was accepted among the last 1024
groups, now counted from the new mark. -/
theorem Represents.advanceTo (hw : Represents win d) (hahead : d.top < g) :
    Represents (win.advanceTo (wire g) (g - d.top).toNat) ⟨g, d.accepted⟩ := by
  have hle : ∀ x ∈ d.accepted, x ≤ g := fun x hx => (hw.le x hx).trans (Int.le_of_lt hahead)
  unfold UnsequencedWindow.advanceTo
  by_cases hfar : 1024 ≤ (g - d.top).toNat
  · -- everything accepted so far has left the window
    simp only [if_pos hfar]
    refine ⟨List.length_replicate, rfl, fun x hlo hhi => ?_, hle⟩
    have hout : x ∉ d.accepted := fun hx => by
      have hxle := hw.le x hx
      simp only at hlo
      omega
    rw [decide_eq_false hout]
    exact BitArray.testBit_replicate_zero 32 _
  · simp only [if_neg hfar]
    obtain ⟨hlen, hbits⟩ := BitArray.testBit_foldl_clearBit
      (fun i => idx (win.group + BitVec.ofNat 16 (i + 1))) (List.range (g - d.top).toNat) win.window
      (by decide) (fun i _ => by rw [hw.length]; unfold idx; omega)
    have hpos : ∀ i : Nat, idx (win.group + BitVec.ofNat 16 (i + 1))
        = ((d.top + ((i + 1 : Nat) : Int)) % 1024).toNat := by
      intro i
      rw [hw.group, wire_add, idx_wire]
    refine ⟨hlen.trans hw.length, rfl, fun x hlo hhi => ?_, hle⟩
    simp only at hlo hhi
    rw [hbits]
    by_cases hold : x ≤ d.top
    · -- a group behind the old mark: its bit is not among those recycled
      have hkeep : ∀ i ∈ List.range (g - d.top).toNat,
          (x % 1024).toNat ≠ idx (win.group + BitVec.ofNat 16 (i + 1)) := by
        intro i hi
        rw [hpos]
        rw [List.mem_range] at hi
        omega
      rw [decide_eq_true hkeep, Bool.true_and]
      exact hw.bits x (by omega) hold
    · have hcleared : ¬ ∀ i ∈ List.range (g - d.top).toNat,
          (x % 1024).toNat ≠ idx (win.group + BitVec.ofNat 16 (i + 1)) := by
        intro hall
        refine hall (x - d.top - 1).toNat (List.mem_range.mpr (by omega)) ?_
        rw [hpos]
        congr 2
        omega
      have hout : x ∉ d.accepted := fun hx => hold (hw.le x hx)
      rw [decide_eq_false hcleared, decide_eq_false hout, Bool.false_and]

/-- A group marked among the last 1024. -/
theorem Represents.setBit (hw : Represents win d) (hlo : d.top - 1024 < g) (hhi : g ≤ d.top) :
    Represents { win with window := BitArray.setBit win.window (idx (wire g)) }
      ⟨d.top, insert g d.accepted⟩ := by
  refine ⟨by simpa using hw.length, hw.group, fun x hxlo hxhi => ?_, fun x hx => ?_⟩
  · simp only at hxlo hxhi
    rw [idx_wire, BitArray.testBit_setBit _ _ _ (by decide) (by rw [hw.length]; omega),
      hw.bits x hxlo hxhi, Bool.eq_iff_iff]
    simp only [Bool.or_eq_true, decide_eq_true_eq, Finset.mem_insert]
    -- two groups of the last 1024 share a bit only if they are one
    have hsame : (x % 1024).toNat = (g % 1024).toNat ↔ x = g := by omega
    rw [hsame]
  · rcases Finset.mem_insert.mp hx with rfl | hx
    · exact hhi
    · exact hw.le x hx

/-- **One arrival.** -/
theorem Represents.arrive (hw : Represents win d) (hreach : d.InReach g) :
    (win.checkAndSet (wire g)).2 = decide (d.IsNew g)
      ∧ Represents (win.checkAndSet (wire g)).1 (d.arrive g) := by
  have hdiff := hw.diff hreach
  unfold checkAndSet
  simp only [hdiff]
  by_cases hold : g - d.top < 0 ∧ 1024 ≤ -(g - d.top)
  · -- too old
    have hnot : ¬ d.IsNew g := by
      unfold Detector.IsNew
      omega
    rw [if_pos hold, decide_eq_false hnot, Detector.arrive, if_neg hnot, max_eq_left (by omega)]
    exact ⟨rfl, hw⟩
  · rw [if_neg hold]
    -- the window in which the bit is looked up
    obtain ⟨win', hwin', hw'⟩ : ∃ win', win' = (if 0 < g - d.top then
        win.advanceTo (wire g) (g - d.top).toNat else win)
        ∧ Represents win' ⟨max d.top g, d.accepted⟩ := by
      refine ⟨_, rfl, ?_⟩
      by_cases hahead : 0 < g - d.top
      · rw [if_pos hahead, max_eq_right (by omega)]
        exact hw.advanceTo (by omega)
      · rw [if_neg hahead, max_eq_left (by omega)]
        exact hw
    rw [← hwin']
    have hlo : max d.top g - 1024 < g := by omega
    have hhi : g ≤ max d.top g := le_max_right _ _
    have hbit : BitArray.testBit win'.window (idx (wire g)) = decide (g ∈ d.accepted) := by
      rw [idx_wire]
      exact hw'.bits g hlo hhi
    have hnew : d.IsNew g ↔ g ∉ d.accepted := by
      unfold Detector.IsNew
      constructor
      · rintro (hahead | ⟨-, hout⟩)
        · exact fun hin => absurd (hw.le g hin) (by omega)
        · exact hout
      · intro hout
        by_cases hahead : d.top < g
        · exact .inl hahead
        · exact .inr ⟨by omega, hout⟩
    rw [hbit]
    by_cases hin : g ∈ d.accepted
    · have hnot : ¬ d.IsNew g := fun hyes => hnew.mp hyes hin
      rw [decide_eq_true hin, if_pos rfl, decide_eq_false hnot, Detector.arrive, if_neg hnot]
      exact ⟨rfl, hw'⟩
    · have hyes := hnew.mpr hin
      rw [decide_eq_false hin, if_neg (by decide), decide_eq_true hyes, Detector.arrive, if_pos hyes]
      exact ⟨rfl, hw'.setBit hlo hhi⟩

/-! ## §3. Sequences of arrivals. -/

theorem Represents.arriveAll (hw : Represents win d) {gs : List Int} (hreach : d.AllInReach gs) :
    win.answers gs = d.answers gs ∧ Represents (win.checkAll gs) (d.arriveAll gs) := by
  induction gs generalizing win d with
  | nil => exact ⟨rfl, hw⟩
  | cons g gs ih =>
      obtain ⟨hanswer, hnext⟩ := hw.arrive hreach.1
      obtain ⟨hanswers, hall⟩ := ih hnext hreach.2
      refine ⟨?_, hall⟩
      rw [answers, Detector.answers, hanswer, hanswers]

/-- The arrivals that were accepted, by the answers given. -/
def acceptedOf (gs : List Int) (answers : List Bool) : List Int :=
  ((gs.zip answers).filter (·.2)).map (·.1)

/-- The detector accepts no group twice. -/
theorem Detector.nodup_acceptedOf {d : Detector} (hle : ∀ x ∈ d.accepted, x ≤ d.top) (gs : List Int) :
    (acceptedOf gs (d.answers gs)).Nodup ∧ ∀ g ∈ acceptedOf gs (d.answers gs), g ∉ d.accepted := by
  induction gs generalizing d with
  | nil => exact ⟨List.nodup_nil, nofun⟩
  | cons g gs ih =>
      -- the highest group stays the highest
      have hle' : ∀ x ∈ (d.arrive g).accepted, x ≤ (d.arrive g).top := by
        intro x hx
        simp only [Detector.arrive] at hx ⊢
        split at hx
        · rcases Finset.mem_insert.mp hx with rfl | hx
          · exact le_max_right _ _
          · exact (hle x hx).trans (le_max_left _ _)
        · exact (hle x hx).trans (le_max_left _ _)
      obtain ⟨hnodup, hout⟩ := ih hle'
      by_cases hnew : d.IsNew g
      · have hcons : acceptedOf (g :: gs) (d.answers (g :: gs))
            = g :: acceptedOf gs ((d.arrive g).answers gs) := by
          simp [acceptedOf, Detector.answers, hnew]
        have hset : (d.arrive g).accepted = insert g d.accepted := if_pos hnew
        rw [hset] at hout
        -- a new group is ahead of all accepted ones, or not among them
        have hfirst : g ∉ d.accepted := by
          rcases hnew with hahead | ⟨-, hnot⟩
          · exact fun hin => absurd (hle g hin) (by omega)
          · exact hnot
        rw [hcons]
        refine ⟨List.nodup_cons.mpr ⟨fun hmem => hout g hmem (Finset.mem_insert_self _ _), hnodup⟩, ?_⟩
        intro x hx
        rcases List.mem_cons.mp hx with rfl | hx
        · exact hfirst
        · exact fun hin => hout x hx (Finset.mem_insert_of_mem hin)
      · have hskip : acceptedOf (g :: gs) (d.answers (g :: gs))
            = acceptedOf gs ((d.arrive g).answers gs) := by
          simp [acceptedOf, Detector.answers, hnew]
        have hset : (d.arrive g).accepted = d.accepted := if_neg hnew
        rw [hset] at hout
        rw [hskip]
        exact ⟨hnodup, hout⟩

/-- A set bit stands for exactly one accepted group of the last 1024. -/
theorem Represents.bit_unique (hw : Represents win d) {i : Nat} (hi : i < 1024)
    (hset : BitArray.testBit win.window i = true) :
    ∃! g, g ∈ d.accepted ∧ d.top - 1024 < g ∧ g ≤ d.top ∧ (g % 1024).toNat = i := by
  -- the group of the last 1024 that falls on bit `i`
  let g : Int := d.top - (d.top - i) % 1024
  have hlo : d.top - 1024 < g := by omega
  have hhi : g ≤ d.top := by omega
  have hbit : (g % 1024).toNat = i := by omega
  refine ⟨g, ⟨?_, hlo, hhi, hbit⟩, ?_⟩
  · have hmem := hw.bits g hlo hhi
    rw [hbit, hset] at hmem
    exact of_decide_eq_true hmem.symm
  · rintro x ⟨-, hxlo, hxhi, hx⟩
    omega

/-- **Exact duplicate detection.**  For every sequence of arrivals, each within
half a turn of the largest group seen when it comes, `check_and_set` accepts
exactly the groups that are larger than all before, or among the last 1024 and
not accepted yet.  No group is accepted twice, and a set bit stands for exactly
one accepted group of the last 1024. -/
theorem duplicates_exact (gs : List Int) (hreach : Detector.start.AllInReach gs) :
    new.answers gs = Detector.start.answers gs
      ∧ (acceptedOf gs (new.answers gs)).Nodup
      ∧ ∀ i < 1024, BitArray.testBit (new.checkAll gs).window i = true →
        ∃! g, g ∈ (Detector.start.arriveAll gs).accepted
          ∧ (Detector.start.arriveAll gs).top - 1024 < g ∧ g ≤ (Detector.start.arriveAll gs).top
          ∧ (g % 1024).toNat = i := by
  obtain ⟨hanswers, hw⟩ := represents_new.arriveAll hreach
  refine ⟨hanswers, ?_, fun i hi hset => hw.bit_unique hi hset⟩
  rw [hanswers]
  have hle : ∀ x ∈ Detector.start.accepted, x ≤ Detector.start.top :=
    fun x hx => absurd hx (Finset.notMem_empty x)
  exact (Detector.nodup_acceptedOf hle gs).1

/-- Ahead by 1023 and by 1024, a duplicate behind the mark, and one too old. -/
theorem duplicates_exact_jumps :
    new.answers [0, 1023, 0, 2047, 1024, 1023] = [true, true, false, true, true, false] := by
  have hreach : Detector.start.AllInReach [0, 1023, 0, 2047, 1024, 1023] := by
    simp only [Detector.AllInReach, Detector.InReach]
    decide
  rw [(duplicates_exact _ hreach).1]
  decide

end UnsequencedWindow

end EnetRs
