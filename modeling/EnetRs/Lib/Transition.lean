/-
  EnetRs.Lib.Transition — runs of a partial transition function.

  A system is a function `step : σ → ι → Option σ`; `none` means that the
  system stopped.  `run` consumes a list of inputs.  `Meets step C s is` says
  that every input of the list satisfies the condition `C` in the state in
  which it is consumed.

  The two rules proved here are the ones used everywhere else:
    * `run_invariant`        — an invariant kept by every step holds after a run;
    * `run_invariant_of_meets` — the same when only steps that meet `C` keep it.
-/
import Mathlib.Logic.Basic

namespace Transition

variable {σ ι : Type}

/-- Consume a list of inputs. -/
def run (step : σ → ι → Option σ) : σ → List ι → Option σ
  | s, [] => some s
  | s, i :: is => (step s i).bind fun s' => run step s' is

/-- Every input meets the condition in the state in which it is consumed. -/
def Meets (step : σ → ι → Option σ) (C : σ → ι → Prop) : σ → List ι → Prop
  | _, [] => True
  | s, i :: is => C s i ∧ ∀ s', step s i = some s' → Meets step C s' is

variable {step : σ → ι → Option σ}

@[simp] theorem run_nil (s : σ) : run step s [] = some s := rfl

theorem run_cons_eq_some {s s' : σ} {i : ι} {is : List ι} :
    run step s (i :: is) = some s' ↔ ∃ s₁, step s i = some s₁ ∧ run step s₁ is = some s' := by
  simp [run, Option.bind_eq_some_iff]

/-- A run is a run of its first part followed by a run of the rest. -/
theorem run_append {s s' : σ} {is js : List ι} :
    run step s (is ++ js) = some s' ↔
      ∃ s₁, run step s is = some s₁ ∧ run step s₁ js = some s' := by
  induction is generalizing s with
  | nil => simp
  | cons i is ih =>
      simp only [List.cons_append, run_cons_eq_some, ih]
      constructor
      · rintro ⟨t, ht, u, hu, hr⟩
        exact ⟨u, ⟨t, ht, hu⟩, hr⟩
      · rintro ⟨u, ⟨t, ht, hu⟩, hr⟩
        exact ⟨t, ht, u, hu, hr⟩

/-- Whether a run meets a decidable condition is decided by running it. -/
instance decidableMeets {C : σ → ι → Prop} [∀ s i, Decidable (C s i)] :
    (s : σ) → (is : List ι) → Decidable (Meets step C s is)
  | _, [] => isTrue trivial
  | s, i :: is =>
      match h : step s i with
      | none => decidable_of_iff (C s i) (by simp [Meets, h])
      | some s' =>
          have := decidableMeets (C := C) s' is
          decidable_of_iff (C s i ∧ Meets step C s' is) (by simp [Meets, h])

/-- The steps of a run that meets the condition meet it in each of its parts. -/
theorem Meets.append {C : σ → ι → Prop} {s : σ} {is js : List ι}
    (hm : Meets step C s (is ++ js)) :
    Meets step C s is ∧ ∀ s', run step s is = some s' → Meets step C s' js := by
  induction is generalizing s with
  | nil =>
      refine ⟨trivial, fun s' hs' => ?_⟩
      obtain rfl : s = s' := by simpa using hs'
      exact hm
  | cons i is ih =>
      refine ⟨⟨hm.1, fun s₁ hs₁ => (ih (hm.2 s₁ hs₁)).1⟩, fun s' hs' => ?_⟩
      obtain ⟨s₁, hs₁, hrun⟩ := run_cons_eq_some.mp hs'
      exact (ih (hm.2 s₁ hs₁)).2 s' hrun

/-- A condition on the inputs alone is met when every input meets it. -/
theorem meets_of_forall {D : ι → Prop} {s : σ} {is : List ι} (hd : ∀ i ∈ is, D i) :
    Meets step (fun _ i => D i) s is := by
  induction is generalizing s with
  | nil => trivial
  | cons i is ih =>
      refine ⟨hd i List.mem_cons_self, fun s₁ _ => ih fun j hj => ?_⟩
      exact hd j (List.mem_cons_of_mem _ hj)

theorem Meets.and {C D : σ → ι → Prop} {s : σ} {is : List ι} (hc : Meets step C s is)
    (hd : Meets step D s is) : Meets step (fun s i => C s i ∧ D s i) s is := by
  induction is generalizing s with
  | nil => trivial
  | cons i is ih =>
      exact ⟨⟨hc.1, hd.1⟩, fun s₁ hs₁ => ih (hc.2 s₁ hs₁) (hd.2 s₁ hs₁)⟩

/-- A condition on the inputs alone can be added to the condition on the steps. -/
theorem Meets.and_forall {C : σ → ι → Prop} {D : ι → Prop} {s : σ} {is : List ι}
    (hm : Meets step C s is) (hd : ∀ i ∈ is, D i) :
    Meets step (fun s i => D i ∧ C s i) s is := by
  induction is generalizing s with
  | nil => trivial
  | cons i is ih =>
      refine ⟨⟨hd i List.mem_cons_self, hm.1⟩, fun s₁ hs₁ => ih (hm.2 s₁ hs₁) fun j hj => ?_⟩
      exact hd j (List.mem_cons_of_mem _ hj)

/-- **Invariant rule under a condition on the steps.** -/
theorem run_invariant_of_meets {C : σ → ι → Prop} {I : σ → Prop}
    (hstep : ∀ s i s', I s → C s i → step s i = some s' → I s') :
    ∀ (is : List ι) (s s' : σ), I s → Meets step C s is → run step s is = some s' → I s' := by
  intro is
  induction is with
  | nil =>
      intro s s' hs _ hrun
      obtain rfl : s = s' := by simpa using hrun
      exact hs
  | cons i is ih =>
      intro s s' hs hmeet hrun
      obtain ⟨s₁, h₁, h₂⟩ := run_cons_eq_some.mp hrun
      exact ih s₁ s' (hstep s i s₁ hs hmeet.1 h₁) (hmeet.2 s₁ h₁) h₂

/-- **Invariant rule.** -/
theorem run_invariant {I : σ → Prop}
    (hstep : ∀ s i s', I s → step s i = some s' → I s')
    (is : List ι) (s s' : σ) (hs : I s) (hrun : run step s is = some s') : I s' := by
  induction is generalizing s with
  | nil =>
      obtain rfl : s = s' := by simpa using hrun
      exact hs
  | cons i is ih =>
      obtain ⟨s₁, h₁, h₂⟩ := run_cons_eq_some.mp hrun
      exact ih s₁ (hstep s i s₁ hs h₁) h₂

end Transition
