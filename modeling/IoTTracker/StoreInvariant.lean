import IoTTracker.IoTServer

/-!
# Hash and list in every run

The invariant of the record store carried from single report handlers to all
interleavings of reports, counting ticks and the other slots of the main
thread: `records` and `recordList` hold the same records, each once, and
`recordList` only ever grows at its end.
-/

namespace IoTTracker.IoTServer

variable (memory : Memory) (recordsPerTick : Nat)

abbrev after (serves : BitVec 32) (events : List ServerEvent) : IoTServer :=
  (machine memory recordsPerTick).run (init serves) events

theorem inv_step {server : IoTServer} (hinv : server.Inv) (event : ServerEvent) :
    ((machine memory recordsPerTick).step server event).1.Inv := by
  rw [toRecordStore_step]
  cases event with
  | report report now => exact RecordStore.inv_handle hinv memory now report
  | countMetrics lock => exact hinv
  | measure => exact hinv
  | incomingConnection => exact hinv

theorem inv_after (serves : BitVec 32) (events : List ServerEvent) :
    (after memory recordsPerTick serves events).Inv :=
  (machine memory recordsPerTick).run_induction
    (P := fun server => server.Inv)
    (fun _ event hinv => inv_step memory recordsPerTick hinv event)
    (show (init serves).Inv from RecordStore.inv_empty) events

theorem recordList_prefix_step (server : IoTServer) (event : ServerEvent) :
    server.recordList <+:
      ((machine memory recordsPerTick).step server event).1.recordList := by
  rw [toRecordStore_step]
  cases event with
  | report report now => exact RecordStore.recordList_prefix_handle memory now report
  | countMetrics lock => exact List.prefix_rfl
  | measure => exact List.prefix_rfl
  | incomingConnection => exact List.prefix_rfl

theorem recordList_prefix_run (server : IoTServer) (events : List ServerEvent) :
    server.recordList <+: ((machine memory recordsPerTick).run server events).recordList :=
  (machine memory recordsPerTick).run_induction
    (P := fun next => server.recordList <+: next.recordList)
    (fun next event hgrows =>
      hgrows.trans (recordList_prefix_step memory recordsPerTick next event))
    List.prefix_rfl events

theorem deref_step {server : IoTServer} (hinv : server.Inv) (event : ServerEvent)
    {record : RecordPtr} (hrecord : record ∈ server.recordList) :
    ((machine memory recordsPerTick).step server event).1.deref record =
      match event with
      | .report report _ =>
          if server.records.lookup (idNumber report.id) = some record
          then report.update (server.deref record) else server.deref record
      | _ => server.deref record := by
  rw [toRecordStore_step]
  cases event with
  | report report now => exact RecordStore.deref_handle hinv memory now report hrecord
  | countMetrics lock => rfl
  | measure => rfl
  | incomingConnection => rfl

theorem identity_step {server : IoTServer} (hinv : server.Inv) (event : ServerEvent)
    {record : RecordPtr} (hrecord : record ∈ server.recordList) :
    let next := ((machine memory recordsPerTick).step server event).1
    (next.deref record).id = (server.deref record).id ∧
      (next.deref record).model = (server.deref record).model := by
  simp only [deref_step memory recordsPerTick hinv event hrecord]
  cases event with
  | report report now =>
      dsimp only
      split
      · exact ⟨report.id_update _, report.model_update _⟩
      · exact ⟨rfl, rfl⟩
  | countMetrics lock => exact ⟨rfl, rfl⟩
  | measure => exact ⟨rfl, rfl⟩
  | incomingConnection => exact ⟨rfl, rfl⟩

/-- **Hash and list stay in step.** In every reachable state the values of
    `records` are exactly the elements of `recordList`, each once, every record
    stored under `k` has id `k`, and both containers have the same size. Every
    step leaves the old list a prefix of the new one and keeps the id and the
    model of each listed record. -/
theorem records_recordList_in_step (serves : BitVec 32) (events : List ServerEvent)
    (event : ServerEvent) :
    let server := after memory recordsPerTick serves events
    let next := ((machine memory recordsPerTick).step server event).1
    (server.recordList.Nodup ∧
      server.records.entries.map Sigma.snd = (server.recordList : Multiset RecordPtr)) ∧
    (∀ k record, server.records.lookup k = some record → (server.deref record).id = k) ∧
    server.size = server.recordList.length ∧
    server.recordList <+: next.recordList ∧
    ∀ record ∈ server.recordList,
      (next.deref record).id = (server.deref record).id ∧
        (next.deref record).model = (server.deref record).model := by
  intro server next
  have hinv : server.Inv := inv_after memory recordsPerTick serves events
  exact ⟨⟨hinv.nodup, hinv.values_eq⟩, hinv.id_eq, hinv.size_eq,
    recordList_prefix_step memory recordsPerTick server event,
    fun record hrecord => identity_step memory recordsPerTick hinv event hrecord⟩

end IoTTracker.IoTServer
