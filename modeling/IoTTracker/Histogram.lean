import Mathlib.Data.Finmap
import Mathlib.Data.Nat.Cast.Defs
import Mathlib.Algebra.BigOperators.Group.Finset.Basic

/-!
# Histograms in finite maps

A histogram is built by counting one value after another into a finite map. The
counts live in any type with `0`, `1` and `+`, so a machine word serves as well
as a natural number. `IsHistogram m values` says what such a map holds without
saying how it was built: it determines the map, depends on `values` only up to
order, and is kept by each `count`.
-/

namespace Histogram

variable {κ R : Type*} [DecidableEq κ] [BEq κ] [LawfulBEq κ] [AddMonoidWithOne R]

def count (m : Finmap fun _ : κ => R) (k : κ) : Finmap fun _ : κ => R :=
  match m.lookup k with
  | some n => m.insert k (n + 1)
  | none => m.insert k 1

/-- `m` holds the multiplicity of every value of `values` and no other key. -/
def IsHistogram (m : Finmap fun _ : κ => R) (values : List κ) : Prop :=
  ∀ k, m.lookup k = if k ∈ values then some (values.count k : R) else none

theorem isHistogram_empty : IsHistogram (∅ : Finmap fun _ : κ => R) [] := by
  intro k
  simp

/-- **Counting keeps the histogram.** -/
theorem IsHistogram.count {m : Finmap fun _ : κ => R} {values : List κ}
    (hm : IsHistogram m values) (value : κ) :
    IsHistogram (count m value) (values ++ [value]) := by
  intro k
  have hvalue := hm value
  by_cases hk : k = value
  · subst hk
    by_cases hmem : k ∈ values
    · rw [if_pos hmem] at hvalue
      simp [Histogram.count, hvalue, Finmap.lookup_insert, List.count_append]
    · rw [if_neg hmem] at hvalue
      simp [Histogram.count, hvalue, Finmap.lookup_insert, List.count_append,
        List.count_eq_zero_of_not_mem hmem]
  · have hcount : (values ++ [value]).count k = values.count k := by
      simp [List.count_append, Ne.symm hk]
    have hlookup : (Histogram.count m value).lookup k = m.lookup k := by
      unfold Histogram.count
      split <;> exact Finmap.lookup_insert_of_ne _ hk
    rw [hlookup, hm k, hcount]
    simp [hk]

theorem IsHistogram.mem_iff {m : Finmap fun _ : κ => R} {values : List κ}
    (hm : IsHistogram m values) (k : κ) : k ∈ m ↔ k ∈ values := by
  rw [← Finmap.lookup_isSome, hm k]
  by_cases hk : k ∈ values <;> simp [hk]

theorem IsHistogram.keys_eq {m : Finmap fun _ : κ => R} {values : List κ}
    (hm : IsHistogram m values) : m.keys = values.toFinset := by
  ext k
  rw [Finmap.mem_keys, hm.mem_iff k, List.mem_toFinset]

/-- A histogram is determined by the values counted, in any order. -/
theorem IsHistogram.eq_of_perm {m m' : Finmap fun _ : κ => R} {values values' : List κ}
    (hm : IsHistogram m values) (hm' : IsHistogram m' values')
    (hperm : values.Perm values') : m = m' := by
  apply Finmap.ext_lookup
  intro k
  rw [hm k, hm' k, hperm.count_eq k]
  simp [hperm.mem_iff]

theorem IsHistogram.sum_count {m : Finmap fun _ : κ => R} {values : List κ}
    (hm : IsHistogram m values) : ∑ k ∈ m.keys, values.count k = values.length := by
  obtain rfl := lawful_beq_subsingleton ‹BEq κ› instBEqOfDecidableEq
  rw [hm.keys_eq]
  exact List.sum_toFinset_count_eq_length values

/-- Relabelling some items changes a multiplicity by at most their number. -/
theorem count_map_le_count_map_add {α κ : Type*} [DecidableEq κ] [BEq κ] (f g : α → κ)
    (items : List α) (k : κ) :
    (items.map f).count k ≤
      (items.map g).count k + items.countP fun item => decide (f item ≠ g item) := by
  induction items with
  | nil => simp
  | cons item items ih =>
      by_cases hsame : f item = g item
      · simp only [List.map_cons, List.count_cons, List.countP_cons, ne_eq, hsame,
          not_true_eq_false, decide_false, Bool.false_eq_true, if_false] at ih ⊢
        omega
      · have hle : (if (f item == k) = true then 1 else 0) ≤ 1 := by split <;> omega
        simp only [List.map_cons, List.count_cons, List.countP_cons, ne_eq, hsame,
          not_false_eq_true, decide_true, if_true] at ih ⊢
        omega

end Histogram
