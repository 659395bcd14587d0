/-
  EnetRs.Lib.Network — two nodes and a network that loses, repeats and reorders.

  A node acts on its own, takes messages, and keeps everything it has sent.  The
  network hands any message that was ever sent to the other node, at any time and
  as often as it likes: a message that is never handed over is lost.

  Main results:
    * `step_cases` — what one move can do.
    * `run_invariant` — an invariant of the two nodes, over every run.
-/
import EnetRs.Lib.Transition

namespace Network

variable {σ ρ α β τ μ : Type}

/-- A node with local actions in `α`; it takes messages of `μ` at times of `τ`. -/
structure Node (σ α τ μ : Type) where
  act : σ → α → Option σ
  receive : σ → τ → μ → Option σ
  sent : σ → List μ

/-- One move of the system: a node acts, or message number `i` of one node is
handed to the other. -/
inductive Move (α β τ : Type) where
  | left (a : α)
  | right (b : β)
  | toLeft (t : τ) (i : Nat)
  | toRight (t : τ) (i : Nat)
  deriving DecidableEq, Repr

def step (L : Node σ α τ μ) (R : Node ρ β τ μ) (s : σ × ρ) : Move α β τ → Option (σ × ρ)
  | .left a => (L.act s.1 a).map fun l => (l, s.2)
  | .right b => (R.act s.2 b).map fun r => (s.1, r)
  | .toLeft t i => ((R.sent s.2)[i]?).bind fun m => (L.receive s.1 t m).map fun l => (l, s.2)
  | .toRight t i => ((L.sent s.1)[i]?).bind fun m => (R.receive s.2 t m).map fun r => (s.1, r)

/-- A finite run of the system. -/
def run (L : Node σ α τ μ) (R : Node ρ β τ μ) (s : σ × ρ) (ms : List (Move α β τ)) :
    Option (σ × ρ) :=
  Transition.run (step L R) s ms

variable {L : Node σ α τ μ} {R : Node ρ β τ μ} {s s' : σ × ρ}

/-- What one move can do. -/
theorem step_cases {m : Move α β τ} (hs : step L R s m = some s') :
    (∃ a l, m = .left a ∧ L.act s.1 a = some l ∧ s' = (l, s.2))
      ∨ (∃ b r, m = .right b ∧ R.act s.2 b = some r ∧ s' = (s.1, r))
      ∨ (∃ t x l, x ∈ R.sent s.2 ∧ L.receive s.1 t x = some l ∧ s' = (l, s.2))
      ∨ ∃ t x r, x ∈ L.sent s.1 ∧ R.receive s.2 t x = some r ∧ s' = (s.1, r) := by
  cases m with
  | left a =>
      obtain ⟨l, hl, rfl⟩ := Option.map_eq_some_iff.mp hs
      exact .inl ⟨a, l, rfl, hl, rfl⟩
  | right b =>
      obtain ⟨r, hr, rfl⟩ := Option.map_eq_some_iff.mp hs
      exact .inr (.inl ⟨b, r, rfl, hr, rfl⟩)
  | toLeft t i =>
      obtain ⟨x, hx, hs⟩ := Option.bind_eq_some_iff.mp hs
      obtain ⟨l, hl, rfl⟩ := Option.map_eq_some_iff.mp hs
      exact .inr (.inr (.inl ⟨t, x, l, List.mem_of_getElem? hx, hl, rfl⟩))
  | toRight t i =>
      obtain ⟨x, hx, hs⟩ := Option.bind_eq_some_iff.mp hs
      obtain ⟨r, hr, rfl⟩ := Option.map_eq_some_iff.mp hs
      exact .inr (.inr (.inr ⟨t, x, r, List.mem_of_getElem? hx, hr, rfl⟩))

/-- **The invariant rule.**  `D` is what is known of every move. -/
theorem run_invariant {I : σ × ρ → Prop} {D : Move α β τ → Prop}
    (hleft : ∀ s a l, I s → D (.left a) → L.act s.1 a = some l → I (l, s.2))
    (hright : ∀ s b r, I s → D (.right b) → R.act s.2 b = some r → I (s.1, r))
    (htoLeft : ∀ s t x l, I s → x ∈ R.sent s.2 → L.receive s.1 t x = some l → I (l, s.2))
    (htoRight : ∀ s t x r, I s → x ∈ L.sent s.1 → R.receive s.2 t x = some r → I (s.1, r))
    (ms : List (Move α β τ)) (hD : ∀ m ∈ ms, D m) (hs : I s) (hrun : run L R s ms = some s') :
    I s' := by
  refine Transition.run_invariant_of_meets (C := fun _ m => D m) (fun s m s' hi hd hs => ?_) ms s s'
    hs (Transition.meets_of_forall hD) hrun
  rcases step_cases hs with ⟨a, l, rfl, hl, rfl⟩ | ⟨b, r, rfl, hr, rfl⟩ | ⟨t, x, l, hx, hl, rfl⟩
    | ⟨t, x, r, hx, hr, rfl⟩
  · exact hleft s a l hi hd hl
  · exact hright s b r hi hd hr
  · exact htoLeft s t x l hi hx hl
  · exact htoRight s t x r hi hx hr

end Network
