import Mathlib.Data.Finmap
import Mathlib.Data.Finset.Sort

/-!
# The entries of a finite map in key order

A map that keeps its keys sorted is iterated in key order. `entries` is that
order for a finite map and `ofEntries` builds a map by inserting one entry after
another: they are inverse to each other on lists with increasing keys.
-/

namespace OrderedEntries

variable {κ β γ : Type*} [DecidableEq κ]

def ofEntries (list : List (κ × β)) : Finmap fun _ : κ => β :=
  list.foldl (fun m entry => m.insert entry.1 entry.2) ∅

theorem lookup_foldl_insert_of_notMem {k : κ} {list : List (κ × β)}
    (hk : k ∉ list.map Prod.fst) (m : Finmap fun _ : κ => β) :
    (list.foldl (fun m entry => m.insert entry.1 entry.2) m).lookup k = m.lookup k := by
  induction list generalizing m with
  | nil => rfl
  | cons entry list ih =>
      rw [List.map_cons, List.mem_cons, not_or] at hk
      rw [List.foldl_cons, ih hk.2, Finmap.lookup_insert_of_ne _ hk.1]

theorem lookup_foldl_insert_of_mem {k : κ} {value : β} {list : List (κ × β)}
    (hnodup : (list.map Prod.fst).Nodup) (hmem : (k, value) ∈ list)
    (m : Finmap fun _ : κ => β) :
    (list.foldl (fun m entry => m.insert entry.1 entry.2) m).lookup k = some value := by
  induction list generalizing m with
  | nil => cases hmem
  | cons entry list ih =>
      rw [List.map_cons, List.nodup_cons] at hnodup
      rw [List.foldl_cons]
      rcases List.mem_cons.mp hmem with rfl | hmem
      · rw [lookup_foldl_insert_of_notMem hnodup.1, Finmap.lookup_insert]
      · exact ih hnodup.2 hmem _

theorem lookup_ofEntries_of_mem {k : κ} {value : β} {list : List (κ × β)}
    (hnodup : (list.map Prod.fst).Nodup) (hmem : (k, value) ∈ list) :
    (ofEntries list).lookup k = some value :=
  lookup_foldl_insert_of_mem hnodup hmem ∅

theorem lookup_ofEntries_of_notMem {k : κ} {list : List (κ × β)}
    (hk : k ∉ list.map Prod.fst) : (ofEntries list).lookup k = none :=
  (lookup_foldl_insert_of_notMem hk ∅).trans (Finmap.lookup_empty k)

theorem keys_ofEntries {list : List (κ × β)} (hnodup : (list.map Prod.fst).Nodup) :
    (ofEntries list).keys = (list.map Prod.fst).toFinset := by
  ext k
  rw [Finmap.mem_keys, ← Finmap.lookup_isSome, List.mem_toFinset]
  constructor
  · intro hsome
    by_contra hk
    rw [lookup_ofEntries_of_notMem hk] at hsome
    cases hsome
  · intro hk
    obtain ⟨⟨k, value⟩, hmem, rfl⟩ := List.mem_map.mp hk
    rw [lookup_ofEntries_of_mem hnodup hmem]
    rfl

section Sorted

variable [LE κ] [DecidableLE κ] [IsTrans κ (· ≤ ·)] [Std.Antisymm (α := κ) (· ≤ ·)]
  [Std.Total (α := κ) (· ≤ ·)]

def entries (m : Finmap fun _ : κ => β) : List (κ × β) :=
  m.keys.sort.filterMap fun k => (m.lookup k).map fun value => (k, value)

theorem mem_entries_iff (m : Finmap fun _ : κ => β) (k : κ) (value : β) :
    (k, value) ∈ entries m ↔ m.lookup k = some value := by
  simp only [entries, List.mem_filterMap, Finset.mem_sort, Finmap.mem_keys,
    Option.map_eq_some_iff, Prod.mk.injEq]
  constructor
  · rintro ⟨k, -, value, hlookup, rfl, rfl⟩
    exact hlookup
  · intro hlookup
    exact ⟨k, Finmap.mem_of_lookup_eq_some hlookup, value, hlookup, rfl, rfl⟩

/-- The keys of the entries are all keys of the map, in increasing order. -/
theorem map_fst_entries (m : Finmap fun _ : κ => β) :
    (entries m).map Prod.fst = m.keys.sort := by
  have hkeys : ∀ k ∈ m.keys.sort,
      ((m.lookup k).map fun value => (k, value)).map Prod.fst = some k := by
    intro k hk
    rw [Finset.mem_sort, Finmap.mem_keys, Finmap.mem_iff] at hk
    obtain ⟨value, hvalue⟩ := hk
    rw [hvalue]
    rfl
  rw [entries, List.map_filterMap, List.filterMap_congr hkeys, List.filterMap_some]

theorem nodup_map_fst_entries (m : Finmap fun _ : κ => β) : ((entries m).map Prod.fst).Nodup := by
  rw [map_fst_entries]
  exact Finset.sort_nodup m.keys _

theorem ofEntries_entries (m : Finmap fun _ : κ => β) : ofEntries (entries m) = m := by
  apply Finmap.ext_lookup
  intro k
  rcases hvalue : m.lookup k with _ | value
  · apply lookup_ofEntries_of_notMem
    rw [map_fst_entries, Finset.mem_sort, Finmap.mem_keys]
    exact Finmap.lookup_eq_none.mp hvalue
  · exact lookup_ofEntries_of_mem (nodup_map_fst_entries m) ((mem_entries_iff m k value).mpr hvalue)

theorem entries_ofEntries {list : List (κ × β)} (hnodup : (list.map Prod.fst).Nodup)
    (hsorted : (list.map Prod.fst).Pairwise (· ≤ ·)) : entries (ofEntries list) = list := by
  have hlookup : ∀ entry ∈ list,
      ((ofEntries list).lookup entry.1).map (fun value => (entry.1, value)) = some entry :=
    fun entry hmem => congrArg _ (lookup_ofEntries_of_mem hnodup hmem)
  rw [entries, keys_ofEntries hnodup, (List.toFinset_sort _ hnodup).mpr hsorted,
    List.filterMap_map]
  exact (List.filterMap_congr hlookup).trans List.filterMap_some

theorem entries_injective :
    Function.Injective (entries : (Finmap fun _ : κ => β) → List (κ × β)) :=
  Function.LeftInverse.injective ofEntries_entries

/-- Rewriting each value leaves the order of the entries as it is. -/
theorem entries_ofEntries_map (f : β → γ) (m : Finmap fun _ : κ => β) :
    entries (ofEntries ((entries m).map fun entry => (entry.1, f entry.2))) =
      (entries m).map fun entry => (entry.1, f entry.2) := by
  have hkeys : ((entries m).map fun entry => (entry.1, f entry.2)).map Prod.fst =
      m.keys.sort := by
    rw [List.map_map]
    exact map_fst_entries m
  apply entries_ofEntries
  · rw [hkeys]
    exact Finset.sort_nodup m.keys _
  · rw [hkeys]
    exact Finset.pairwise_sort m.keys _

theorem entries_singleton (k : κ) (value : β) :
    entries (Finmap.singleton k value) = [(k, value)] := by
  rw [entries, Finmap.keys_singleton, Finset.sort_singleton]
  simp

end Sorted

end OrderedEntries
