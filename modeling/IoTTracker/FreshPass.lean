import IoTTracker.MetricsReport

/-!
# A pass with no reports

When no report comes in, ticks find the same records every time. A pass that
begins then publishes the histograms of the records as they are, whichever ticks
get the lock, and enough ticks complete it. The maps published depend on the
records only up to their order in the list.
-/

namespace IoTTracker.IoTServer

variable {recordsPerTick : Nat} {server now : IoTServer} {visited : List Visit}

def ticks (locks : List Bool) : List ServerEvent := locks.map .countMetrics

structure FreshInv (server now : IoTServer) : Prop where
  toRecordStore_eq : now.toRecordStore = server.toRecordStore
  underway : now.countMetricsStart = false →
    ∃ visited, Counted now visited ∧ ∀ visit ∈ visited, visit.2 = server.deref visit.1

theorem FreshInv.counted_tick (recordsPerTick : Nat) (hfresh : FreshInv server now)
    (hsize : now.size ≠ 0) :
    ∃ visited, Counted (now.countMetrics recordsPerTick true).1 visited ∧
      ∀ visit ∈ visited, visit.2 = server.deref visit.1 := by
  have hbegun : ∀ visit ∈ now.beginPass.visits recordsPerTick,
      visit.2 = server.deref visit.1 := by
    intro visit hvisit
    have hvalue := (visits_eq recordsPerTick _ visit hvisit).2
    rwa [toRecordStore_beginPass, hfresh.toRecordStore_eq] at hvalue
  by_cases hstart : now.countMetricsStart = true
  · have hnone : now.countMetricsStart = false → Counted now [] := fun hunder =>
      absurd hunder (by simp [hstart])
    have hcounted := counted_countMetrics recordsPerTick hsize hnone
    rw [if_pos hstart, List.nil_append] at hcounted
    exact ⟨_, hcounted, hbegun⟩
  · rcases hfresh.underway (Bool.eq_false_iff.mpr hstart) with ⟨visited, hbefore, hvisited⟩
    have hcounted := counted_countMetrics recordsPerTick hsize fun _ => hbefore
    rw [if_neg hstart] at hcounted
    refine ⟨_, hcounted, ?_⟩
    intro visit hvisit
    rcases List.mem_append.mp hvisit with hearlier | hnow
    · exact hvisited visit hearlier
    · exact hbegun visit hnow

theorem freshInv_countMetrics (recordsPerTick : Nat) (hfresh : FreshInv server now) (lock : Bool) :
    FreshInv server (now.countMetrics recordsPerTick lock).1 := by
  refine ⟨(toRecordStore_countMetrics _ _ _).trans hfresh.toRecordStore_eq, ?_⟩
  rcases now.idle_or_lock lock with hidle | ⟨hsize, rfl⟩
  · rw [countMetrics_of_idle recordsPerTick hidle]
    exact hfresh.underway
  · intro _
    exact hfresh.counted_tick recordsPerTick hsize

theorem run_ticks_concat (memory : Memory) (locks : List Bool) (lock : Bool) :
    (machine memory recordsPerTick).run server (ticks (locks ++ [lock])) =
      (((machine memory recordsPerTick).run server (ticks locks)).countMetrics
        recordsPerTick lock).1 := by
  rw [ticks, List.map_append, List.map_singleton, Machine.run_concat]
  rfl

theorem freshInv_ticks (memory : Memory) (recordsPerTick : Nat)
    (hstart : server.countMetricsStart = true) (locks : List Bool) :
    FreshInv server ((machine memory recordsPerTick).run server (ticks locks)) := by
  induction locks using List.reverseRecOn with
  | nil => exact ⟨rfl, fun hunder => absurd hunder (by simp [ticks, hstart])⟩
  | append_singleton locks lock ih =>
      rw [run_ticks_concat]
      exact freshInv_countMetrics recordsPerTick ih lock

/-- **A pass with no reports publishes the records as they are.** -/
theorem isHistogram_of_ticks (memory : Memory) (hstart : server.countMetricsStart = true)
    (locks : List Bool) (lock : Bool) {models versions : QMap}
    (hpublished : (((machine memory recordsPerTick).run server (ticks locks)).countMetrics
      recordsPerTick lock).2 = some (models, versions)) :
    Histogram.IsHistogram models (server.listed Record.model) ∧
      Histogram.IsHistogram versions (server.listed Record.version) := by
  obtain ⟨rfl, hsize, hend, rfl, rfl⟩ := countMetrics_eq_some hpublished
  have hfresh := freshInv_ticks memory recordsPerTick hstart locks
  rcases hfresh.counted_tick recordsPerTick hsize with ⟨visited, hcounted, hvisited⟩
  have hrecords := hcounted.records_eq_recordList hend
  rw [toRecordStore_countMetrics, hfresh.toRecordStore_eq] at hrecords
  have hlisted : ∀ field : Record → QString,
      server.listed field = visited.map fun visit => field visit.2 := by
    intro field
    rw [listed, ← hrecords, List.map_map]
    apply List.map_congr_left
    intro visit hvisit
    exact congrArg field (hvisited visit hvisit).symm
  rw [hlisted, hlisted]
  exact ⟨hcounted.models_eq, hcounted.versions_eq⟩

/-! ### A pass completes -/

/-- A tick that gets the lock publishes, or it has visited more records than
    before and there are more to visit. -/
theorem countMetrics_progress (hpositive : 0 < recordsPerTick) (hsize : server.size ≠ 0)
    (hcounted : server.countMetricsStart = false → Counted server visited) :
    (∃ maps, (server.countMetrics recordsPerTick true).2 = some maps) ∨
      (server.countMetrics recordsPerTick true).1.countMetricsStart = false ∧
        ∃ visited', Counted (server.countMetrics recordsPerTick true).1 visited' ∧
          (if server.countMetricsStart then 0 else visited.length) < visited'.length ∧
          visited'.length < server.recordList.length := by
  have hend := countMetricsStart_countMetrics_iff recordsPerTick hsize
  have hnext := counted_countMetrics recordsPerTick hsize hcounted
  by_cases hstart : (server.countMetrics recordsPerTick true).1.countMetricsStart = true
  · left
    rw [countMetrics_of_lock recordsPerTick hsize] at hstart ⊢
    exact ⟨_, if_pos hstart⟩
  · have hmore := hstart
    rw [hend, hnext.recIterator_eq_sentinel_iff, toRecordStore_countMetrics, Nat.not_le] at hmore
    refine .inr ⟨Bool.eq_false_iff.mpr hstart, _, hnext, ?_, hmore⟩
    -- with more to visit, the tick has visited as many as it may
    have hlength := length_visits_eq (counted_beginPass_of hcounted) recordsPerTick
    rw [toRecordStore_beginPass] at hlength
    rw [List.length_append, hlength, apply_ite List.length, List.length_nil] at hmore ⊢
    omega

/-- As long as nothing is published every tick finds another record to visit. -/
theorem visited_of_unpublished (memory : Memory) (hpositive : 0 < recordsPerTick)
    (hstart : server.countMetricsStart = true) (hsize : server.size ≠ 0)
    (hnone : ∀ locks maps, (((machine memory recordsPerTick).run server
      (ticks locks)).countMetrics recordsPerTick true).2 ≠ some maps) (n : Nat) :
    let now := (machine memory recordsPerTick).run server (ticks (List.replicate (n + 1) true))
    now.countMetricsStart = false ∧ ∃ visited, Counted now visited ∧
      n < visited.length ∧ visited.length < server.recordList.length := by
  intro now
  induction n with
  | zero =>
      have hcounted : server.countMetricsStart = false → Counted server [] := fun hunder =>
        absurd hunder (by simp [hstart])
      rcases countMetrics_progress hpositive hsize hcounted with
        ⟨maps, hmaps⟩ | ⟨hunder, visited, hnext, hmore, hlt⟩
      · exact absurd hmaps (hnone [] maps)
      · rw [if_pos hstart] at hmore
        exact ⟨hunder, visited, hnext, hmore, hlt⟩
  | succ n ih =>
      obtain ⟨hbefore, earlier, hcounted, hmany, -⟩ := ih
      have hstore := (freshInv_ticks memory recordsPerTick hstart
        (List.replicate (n + 1) true)).toRecordStore_eq
      have hnow : now = (((machine memory recordsPerTick).run server
          (ticks (List.replicate (n + 1) true))).countMetrics recordsPerTick true).1 := by
        rw [← run_ticks_concat, ← List.replicate_succ']
      rcases countMetrics_progress hpositive (hstore ▸ hsize) fun _ => hcounted with
        ⟨maps, hmaps⟩ | ⟨hunder, visited, hnext, hmore, hlt⟩
      · exact absurd hmaps (hnone _ maps)
      · rw [hbefore, if_neg Bool.false_ne_true] at hmore
        rw [hstore] at hlt
        rw [hnow]
        exact ⟨hunder, visited, hnext, by omega, hlt⟩

/-- **Enough ticks complete a pass.** -/
theorem exists_ticks_publish (memory : Memory) (hpositive : 0 < recordsPerTick)
    (hstart : server.countMetricsStart = true) (hsize : server.size ≠ 0) :
    ∃ locks maps, (((machine memory recordsPerTick).run server (ticks locks)).countMetrics
      recordsPerTick true).2 = some maps := by
  by_contra hnone
  have hunpublished : ∀ locks maps, (((machine memory recordsPerTick).run server
      (ticks locks)).countMetrics recordsPerTick true).2 ≠ some maps := fun locks maps hmaps =>
    hnone ⟨locks, maps, hmaps⟩
  rcases visited_of_unpublished memory hpositive hstart hsize hunpublished
    server.recordList.length with ⟨-, visited, -, hmany, hlt⟩
  omega

/-! ### The report of a store -/

/-- A pass that begins on the store and sees no report publishes these maps. -/
def PublishesFresh (recordsPerTick : Nat) (store : RecordStore) (maps : QMap × QMap) : Prop :=
  ∃ (memory : Memory) (fresh : IoTServer) (locks : List Bool) (lock : Bool),
    fresh.toRecordStore = store ∧ fresh.countMetricsStart = true ∧
      (((machine memory recordsPerTick).run fresh (ticks locks)).countMetrics
        recordsPerTick lock).2 = some maps

theorem exists_publishesFresh (hpositive : 0 < recordsPerTick) (hsize : server.size ≠ 0) :
    ∃ maps, PublishesFresh recordsPerTick server.toRecordStore maps := by
  let fresh : IoTServer := { server with countMetricsStart := true }
  have hstart : fresh.countMetricsStart = true := rfl
  obtain ⟨locks, maps, hmaps⟩ :=
    exists_ticks_publish (fun _ => ⟨0, 0, 0⟩) hpositive hstart hsize
  exact ⟨maps, fun _ => ⟨0, 0, 0⟩, fresh, locks, true, rfl, rfl, hmaps⟩

/-- **The order of the list does not show.** Stores whose keys lead to the same
    models and versions have the same report. -/
theorem publishesFresh_unique {store store' : RecordStore} (hinv : store.Inv)
    (hinv' : store'.Inv)
    (hmodels : store.observe (fun _ value => value.model) =
      store'.observe fun _ value => value.model)
    (hversions : store.observe (fun _ value => value.version) =
      store'.observe fun _ value => value.version)
    {recordsPerTick' : Nat} {maps maps' : QMap × QMap}
    (hmaps : PublishesFresh recordsPerTick store maps)
    (hmaps' : PublishesFresh recordsPerTick' store' maps') : maps = maps' := by
  rcases hmaps with ⟨memory, fresh, locks, lock, rfl, hstart, hpublished⟩
  obtain ⟨memory', fresh', locks', lock', rfl, hstart', hpublished'⟩ := hmaps'
  obtain ⟨hhistogram, hhistogramVersions⟩ :=
    isHistogram_of_ticks memory hstart locks lock hpublished
  obtain ⟨hhistogram', hhistogramVersions'⟩ :=
    isHistogram_of_ticks memory' hstart' locks' lock' hpublished'
  apply Prod.ext
  · apply hhistogram.eq_of_perm hhistogram'
    exact RecordStore.perm_of_observe_eq hinv hinv' Record.model hmodels
  · apply hhistogramVersions.eq_of_perm hhistogramVersions'
    exact RecordStore.perm_of_observe_eq hinv hinv' Record.version hversions

end IoTTracker.IoTServer
