import Mathlib.Data.List.Basic
import Mathlib.Logic.Function.Basic

/-!
# Keyed folds

A store that maps keys to values is updated by a sequence of events, each of
which reads and writes the entry of one key only. The entry of a key is then
the fold of that key's own events (`foldl_applyAt`): events of other keys can be
left out, and sequences that interleave the same owners' events differently build
the same store when no two owners share a key (`eventsOf_eq_of_owner`).
-/

namespace KeyedFold

variable {ε κ V : Type*} [DecidableEq κ] (key : ε → κ) (update : ε → Option V → V)

def applyEntry (entry : Option V) (event : ε) : Option V := some (update event entry)

/-- The store after one event: only the entry of the event's key is read, and
    only that entry is written. -/
def applyAt (view : κ → Option V) (event : ε) : κ → Option V :=
  Function.update view (key event) (applyEntry update (view (key event)) event)

def eventsOf (k : κ) (events : List ε) : List ε :=
  events.filter fun event => decide (key event = k)

@[simp] theorem applyAt_self (view : κ → Option V) (event : ε) :
    applyAt key update view event (key event) =
      some (update event (view (key event))) := by
  simp [applyAt, applyEntry]

theorem applyAt_of_ne (view : κ → Option V) {event : ε} {k : κ} (hkey : key event ≠ k) :
    applyAt key update view event k = view k := by
  simp [applyAt, Function.update_of_ne hkey.symm]

/-- **Each entry is the fold of its own events.** -/
theorem foldl_applyAt (events : List ε) (view : κ → Option V) (k : κ) :
    events.foldl (applyAt key update) view k =
      (eventsOf key k events).foldl (applyEntry update) (view k) := by
  induction events generalizing view with
  | nil => rfl
  | cons event events ih =>
      rw [List.foldl_cons, ih]
      by_cases hkey : key event = k
      · subst hkey
        simp [eventsOf, applyEntry]
      · simp [eventsOf, hkey, applyAt_of_ne key update view hkey]

/-- **Interleavings of owners.** If every key has one owner, sequences in which
    each owner's events are the same have the same events for each key. -/
theorem eventsOf_eq_of_owner {ι : Type*} [DecidableEq ι] (owner : ε → ι)
    {events others : List ε}
    (howner : ∀ event ∈ events, ∀ event' ∈ events, key event = key event' →
      owner event = owner event')
    (hsame : ∀ i, eventsOf owner i events = eventsOf owner i others) (k : κ) :
    eventsOf key k events = eventsOf key k others := by
  have hmem : ∀ event ∈ others, event ∈ events := by
    intro event hevent
    have hown : event ∈ eventsOf owner (owner event) others := by
      simpa [eventsOf] using hevent
    rw [← hsame] at hown
    exact List.mem_of_mem_filter hown
  by_cases hevent : ∃ event ∈ events, key event = k
  · obtain ⟨first, hfirst, rfl⟩ := hevent
    -- all events of this key are among those of its owner
    have hrestrict : ∀ list : List ε, (∀ event ∈ list, event ∈ events) →
        eventsOf key (key first) list =
          eventsOf key (key first) (eventsOf owner (owner first) list) := by
      intro list hlist
      rw [eventsOf, eventsOf, eventsOf, List.filter_filter]
      apply List.filter_congr
      intro event hmem
      by_cases hkey : key event = key first
      · simp [hkey, howner event (hlist event hmem) first hfirst hkey]
      · simp [hkey]
    rw [hrestrict events fun _ hmem => hmem, hrestrict others hmem, hsame]
  · have hnone : ∀ list : List ε, (∀ event ∈ list, event ∈ events) →
        eventsOf key k list = [] := by
      intro list hlist
      rw [eventsOf, List.filter_eq_nil_iff]
      intro event hmem hkey
      apply hevent
      exact ⟨event, hlist event hmem, of_decide_eq_true hkey⟩
    rw [hnone events fun _ hmem => hmem, hnone others hmem]

theorem isSome_foldl_applyEntry (events : List ε) (entry : Option V) :
    (events.foldl (applyEntry update) entry).isSome ↔ entry.isSome ∨ events ≠ [] := by
  induction events generalizing entry with
  | nil => simp
  | cons event events ih =>
      rw [List.foldl_cons, ih]
      simp [applyEntry]

/-- A summary of the entry that each event acts on through `image` alone is the
    fold of the summarised events. -/
theorem foldl_applyEntry_map {ε' W : Type*} (update' : ε' → Option W → W) (event' : ε → ε')
    (image : V → W)
    (hupdate : ∀ event entry, image (update event entry) =
      update' (event' event) (entry.map image))
    (events : List ε) (entry : Option V) :
    (events.foldl (applyEntry update) entry).map image =
      (events.map event').foldl (applyEntry update') (entry.map image) := by
  induction events generalizing entry with
  | nil => rfl
  | cons event events ih =>
      rw [List.foldl_cons, List.map_cons, List.foldl_cons, ih]
      simp [applyEntry, hupdate]

end KeyedFold
