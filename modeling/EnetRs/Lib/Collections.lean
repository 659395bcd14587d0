/-
  EnetRs.Lib.Collections — changing one element of a list or of an ordered map.

  What a change of one element does to a reading of all of them: to `map f` of
  a list, to the sum of a weight over a list, to the entries of a map under
  selected keys, and to `totalWeight f m`, the sum of a weight over the values
  of a map.
-/
import Mathlib.Algebra.BigOperators.Group.List.Basic
import Mathlib.Algebra.Ring.Nat
import Mathlib.Data.List.Nodup

namespace Collections

open Std (ExtTreeMap)

/-! ## §1. Lists with one element changed. -/

section Lists

variable {α β : Type}

theorem set_of_getElem? {l : List α} {i : Nat} {a : α} (hi : l[i]? = some a) : l.set i a = l := by
  obtain ⟨hlt, rfl⟩ := List.getElem?_eq_some_iff.mp hi
  exact List.set_getElem_self hlt

theorem modify_of_getElem? {l : List α} {i : Nat} {a : α} (g : α → α) (hi : l[i]? = some a) :
    l.modify i g = l.set i (g a) := by
  rw [List.modify_eq_set_getElem?, hi]
  rfl

/-- An element that was replaced. -/
theorem getElem?_of_eq_set {l l' : List α} {i : Nat} {a b : α} (hi : l[i]? = some a)
    (hl : l' = l.set i b) : l'[i]? = some b := by
  rw [hl]
  exact List.getElem?_set_self (List.getElem?_eq_some_iff.mp hi).1

/-- A reading that the change keeps reads the same everywhere. -/
theorem map_modify_of_eq (f : α → β) {g : α → α} (hf : ∀ a, f (g a) = f a) (i : Nat) (l : List α) :
    (l.modify i g).map f = l.map f := by
  apply List.ext_getElem?
  intro j
  rw [List.getElem?_map, List.getElem?_modify, List.getElem?_map]
  cases l[j]? with
  | none => rfl
  | some a =>
      show some (f (if i = j then g a else a)) = some (f a)
      split
      · rw [hf]
      · rfl

/-- Two lists that read the same read the same at each place. -/
theorem getElem?_of_map_eq {f : α → β} {l l' : List α} {i : Nat} {a : α}
    (heq : l'.map f = l.map f) (hi : l[i]? = some a) : ∃ b, l'[i]? = some b ∧ f b = f a := by
  have hread : (l'.map f)[i]? = some (f a) := by
    rw [heq, List.getElem?_map, hi]
    rfl
  rwa [List.getElem?_map, Option.map_eq_some_iff] at hread

/-- Changing an element shifts the sum by the difference of the weights. -/
theorem sum_map_modify (f : α → Nat) (g : α → α) {l : List α} {i : Nat} {a : α}
    (hi : l[i]? = some a) :
    ((l.modify i g).map f).sum + f a = (l.map f).sum + f (g a) := by
  induction l generalizing i with
  | nil => simp at hi
  | cons x l ih =>
      cases i with
      | zero =>
          simp only [List.getElem?_cons_zero, Option.some.injEq] at hi
          subst hi
          simp only [List.modify_zero_cons, List.map_cons, List.sum_cons]
          omega
      | succ i =>
          have hrest := ih (by simpa using hi)
          simp only [List.modify_succ_cons, List.map_cons, List.sum_cons]
          omega

end Lists

/-! ## §2. Ordered maps. -/

section Maps

variable {α β : Type} {cmp : α → α → Ordering} [Std.TransCmp cmp] [Std.LawfulEqCmp cmp]

/-- The sum of a weight over the values of a map. -/
def totalWeight (f : β → Nat) (m : ExtTreeMap α β cmp) : Nat :=
  (m.toList.map fun kv => f kv.2).sum

omit [Std.LawfulEqCmp cmp] in
theorem mem_iff_exists {m : ExtTreeMap α β cmp} {k : α} : k ∈ m ↔ ∃ v, m[k]? = some v := by
  rw [ExtTreeMap.mem_iff_isSome_getElem?, Option.isSome_iff_exists]

omit [Std.LawfulEqCmp cmp] in
/-- What is left after an erasure was there before. -/
theorem getElem?_of_erase {m : ExtTreeMap α β cmp} {k a : α} {v : β}
    (h : (m.erase k)[a]? = some v) : m[a]? = some v := by
  rw [ExtTreeMap.getElem?_erase] at h
  split at h
  · cases h
  · exact h

omit [Std.LawfulEqCmp cmp] in
theorem getElem?_of_size_zero {m : ExtTreeMap α β cmp} (hm : m.size = 0) (k : α) :
    m[k]? = none := by
  have hempty : m = ∅ := by
    refine ExtTreeMap.isEmpty_iff.mp ?_
    rw [ExtTreeMap.isEmpty_eq_size_beq_zero, hm]
    rfl
  rw [hempty]
  exact ExtTreeMap.getElem?_empty

omit [Std.LawfulEqCmp cmp] in
theorem size_erase_of_contains {m : ExtTreeMap α β cmp} {k : α} (hk : m.contains k = true) :
    (m.erase k).size + 1 = m.size := by
  have hpos : m.size ≠ 0 := by
    intro hzero
    rw [ExtTreeMap.contains_eq_isSome_getElem?, getElem?_of_size_zero hzero] at hk
    cases hk
  rw [ExtTreeMap.size_erase, if_pos hk]
  omega

omit [Std.LawfulEqCmp cmp] in
theorem size_erase_of_some {m : ExtTreeMap α β cmp} {k : α} {v : β} (hk : m[k]? = some v) :
    (m.erase k).size + 1 = m.size := by
  refine size_erase_of_contains ?_
  rw [ExtTreeMap.contains_eq_isSome_getElem?, hk]
  rfl

theorem nodup_toList (m : ExtTreeMap α β cmp) : m.toList.Nodup := by
  refine List.Pairwise.imp (fun {a b} hab => ?_) (ExtTreeMap.distinct_keys_toList (t := m))
  rintro rfl
  exact hab Std.ReflCmp.compare_self

/-- The entries of a map are one of them together with the rest. -/
theorem toList_perm_erase {m : ExtTreeMap α β cmp} {k : α} {v : β} (hk : m[k]? = some v) :
    m.toList.Perm ((k, v) :: (m.erase k).toList) := by
  have hnot : (k, v) ∉ (m.erase k).toList := by
    rw [ExtTreeMap.mem_toList_iff_getElem?_eq_some, ExtTreeMap.getElem?_erase_self]
    simp
  rw [List.perm_ext_iff_of_nodup (nodup_toList m)
    (List.nodup_cons.mpr ⟨hnot, nodup_toList _⟩)]
  rintro ⟨a, b⟩
  rw [List.mem_cons, ExtTreeMap.mem_toList_iff_getElem?_eq_some,
    ExtTreeMap.mem_toList_iff_getElem?_eq_some, ExtTreeMap.getElem?_erase, Prod.mk.injEq]
  by_cases hka : k = a
  · subst hka
    simp [hk, eq_comm]
  · have hne : cmp k a ≠ .eq := fun h => hka (Std.LawfulEqCmp.eq_of_compare h)
    simp [hne, Ne.symm hka]

theorem insert_erase (m : ExtTreeMap α β cmp) (k : α) (v : β) :
    (m.insert k v).erase k = m.erase k := by
  apply ExtTreeMap.ext_getElem?
  intro a
  rw [ExtTreeMap.getElem?_erase, ExtTreeMap.getElem?_erase, ExtTreeMap.getElem?_insert]
  split <;> rfl

theorem erase_of_none {m : ExtTreeMap α β cmp} {k : α} (hk : m[k]? = none) : m.erase k = m := by
  apply ExtTreeMap.ext_getElem?
  intro a
  rw [ExtTreeMap.getElem?_erase]
  split
  · next hka => rw [← ExtTreeMap.getElem?_congr hka, hk]
  · rfl

/-- The entries under selected keys depend on the map at those keys only. -/
theorem filter_toList_congr {m m' : ExtTreeMap α β cmp} {P : α → Bool}
    (heq : ∀ a, P a = true → m[a]? = m'[a]?) :
    (m.toList.filter fun e => P e.1) = m'.toList.filter fun e => P e.1 := by
  have hperm : (m.toList.filter fun e => P e.1).Perm (m'.toList.filter fun e => P e.1) := by
    rw [List.perm_ext_iff_of_nodup ((nodup_toList m).filter _) ((nodup_toList m').filter _)]
    rintro ⟨a, b⟩
    simp only [List.mem_filter, ExtTreeMap.mem_toList_iff_getElem?_eq_some]
    exact and_congr_left fun ha => by rw [heq a ha]
  -- both lists are sorted by key, strictly
  refine hperm.eq_of_pairwise (fun a b _ _ hab hba => ?_)
    (ExtTreeMap.ordered_keys_toList.filter _) (ExtTreeMap.ordered_keys_toList.filter _)
  rw [Std.OrientedCmp.gt_of_lt hab] at hba
  cases hba

theorem totalWeight_erase (f : β → Nat) {m : ExtTreeMap α β cmp} {k : α} {v : β}
    (hk : m[k]? = some v) : totalWeight f m = f v + totalWeight f (m.erase k) := by
  unfold totalWeight
  rw [((toList_perm_erase hk).map _).sum_eq, List.map_cons, List.sum_cons]

theorem totalWeight_insert (f : β → Nat) (m : ExtTreeMap α β cmp) (k : α) (v : β) :
    totalWeight f (m.insert k v) = f v + totalWeight f (m.erase k) := by
  rw [totalWeight_erase f (ExtTreeMap.getElem?_insert_self (t := m) (k := k) (v := v)),
    insert_erase]

omit [Std.LawfulEqCmp cmp] in
@[simp] theorem totalWeight_empty (f : β → Nat) :
    totalWeight f (∅ : ExtTreeMap α β cmp) = 0 := by
  rw [totalWeight, ExtTreeMap.toList_eq_nil_iff.mpr rfl]
  rfl

end Maps

end Collections
