import IoTTracker.StoreInvariant
import IoTTracker.KeyedFold

/-!
# Each record is a fold of its device's reports

The store is shared by all devices, but a report reads and writes the record of
one key only. `deviceStep` is what a report means for one device, with the boot
counter starting at zero; `view_after` shows that the faithful store, seen key
by key and relative to the memory its records were created in, runs
`deviceStep` on each key separately. `deviceSummary` then says outright what a
sequence of reports leaves behind: the first model, the latest version, whether
a daily report was seen, the number of boots.

From this follow which of the tracked metrics mean what they should in every
run and which depend on uninitialised memory or on the order of reports.
-/

namespace IoTTracker

abbrev HandledReport := Report × Nat

namespace HandledReport

def key (handled : HandledReport) : SizeT := idNumber handled.1.id

def isBoot (handled : HandledReport) : Bool := handled.1.kind = .boot

end HandledReport

def handledReports (events : List ServerEvent) : List HandledReport :=
  events.filterMap fun event =>
    match event with
    | .report report now => some (report, now)
    | _ => none

def handledFor (k : SizeT) (events : List ServerEvent) : List HandledReport :=
  KeyedFold.eventsOf HandledReport.key k (handledReports events)

/-- The allocations that the handled reports make: `new Record` is called once for
    each key that they carry. -/
def allocations (events : List ServerEvent) : Finset RecordPtr :=
  Finset.range ((handledReports events).map HandledReport.key).toFinset.card

/-! ### The abstract device -/

def Record.since (raw : RawRecord) (record : Record) : Record :=
  { record with totalBoots := record.totalBoots - raw.totalBoots }

/-- The record of each key, its boot counter relative to the memory it was
    created in. -/
def RecordStore.view (memory : Memory) (store : RecordStore) : SizeT → Option Record :=
  store.observe fun record value => value.since (memory record)

def deviceFresh (handled : HandledReport) : Record :=
  match handled.1.kind with
  | .boot =>
      { id := handled.key, totalBoots := 1, checkIn := 0, model := handled.1.model,
        version := handled.1.version, lastBoot := some handled.2 }
  | .hrs24 =>
      { id := handled.key, totalBoots := 0, checkIn := 1, model := handled.1.model,
        version := handled.1.version, lastBoot := none }

def deviceStep (handled : HandledReport) (entry : Option Record) : Record :=
  entry.elim (deviceFresh handled) handled.1.update

theorem since_update (report : Report) (raw : RawRecord) (record : Record) :
    (report.update record).since raw = report.update (record.since raw) := by
  unfold Report.update
  split
  · simp only [Record.since, add_sub_right_comm]
  · rfl

theorem since_update_create (memory : Memory) (now : Nat) (report : Report)
    (record : RecordPtr) :
    (report.update (report.create memory now record)).since (memory record) =
      deviceFresh (report, now) := by
  cases hkind : report.kind <;>
    simp [Report.update, Report.create, deviceFresh, hkind, Record.since, newRecord,
      HandledReport.key]

/-- **Refinement of one report.** On the view by keys the locked section of a
    report is a step of its own device. -/
theorem view_handle {store : RecordStore} (hinv : store.Inv) (memory : Memory) (now : Nat)
    (report : Report) :
    (report.handle memory now store).view memory =
      KeyedFold.applyAt HandledReport.key deviceStep (store.view memory) (report, now) := by
  rw [Report.handle_eq_upsert]
  exact RecordStore.observe_upsert _ hinv (deviceFresh (report, now)) report.update
    (fun record => since_update_create memory now report record)
    (fun record value => since_update report (memory record) value)

namespace IoTServer

variable (memory : Memory) (recordsPerTick : Nat) (serves : BitVec 32)

/-- **Refinement of a run.** The record of a key is the fold of the reports
    handled for that key. -/
theorem view_after (events : List ServerEvent) (k : SizeT) :
    (after memory recordsPerTick serves events).view memory k =
      (handledFor k events).foldl (KeyedFold.applyEntry deviceStep) none := by
  have hview : ∀ events, (after memory recordsPerTick serves events).view memory =
      (handledReports events).foldl
        (KeyedFold.applyAt HandledReport.key deviceStep) fun _ => none := by
    intro events
    induction events using List.reverseRecOn with
    | nil => rfl
    | append_singleton events event ih =>
        have hinv := inv_after memory recordsPerTick serves events
        rw [after, Machine.run_concat, toRecordStore_step, handledReports,
          List.filterMap_append, List.foldl_append]
        rw [handledReports] at ih
        cases event with
        | report report now =>
            dsimp only
            rw [view_handle hinv, ih]
            rfl
        | countMetrics lock => exact ih
        | measure => exact ih
        | incomingConnection => exact ih
  rw [hview, KeyedFold.foldl_applyAt]
  rfl

end IoTServer

/-! ### What a sequence of reports leaves behind -/

def bootCount (reports : List HandledReport) : Nat := reports.countP HandledReport.isBoot

def checkInMark (reports : List HandledReport) : SizeT :=
  if reports.all HandledReport.isBoot then 0 else 1

/-- The clock reading of the most recent boot report. -/
def lastBootClock (reports : List HandledReport) : Option Nat :=
  (reports.filter HandledReport.isBoot).getLast?.map Prod.snd

/-- The record that the reports of one device amount to. -/
def deviceSummary : List HandledReport → Option Record
  | [] => none
  | first :: rest =>
      some
        { id := first.key
          totalBoots := BitVec.ofNat 64 (bootCount (first :: rest))
          checkIn := checkInMark (first :: rest)
          model := first.1.model
          version := ((first :: rest).getLast (by simp)).1.version
          lastBoot := if first.isBoot then some first.2 else none }

theorem bootCount_concat (reports : List HandledReport) (handled : HandledReport) :
    bootCount (reports ++ [handled]) =
      if handled.isBoot then bootCount reports + 1 else bootCount reports := by
  by_cases hboot : handled.isBoot <;> simp [bootCount, hboot]

theorem checkInMark_concat (reports : List HandledReport) (handled : HandledReport) :
    checkInMark (reports ++ [handled]) =
      if handled.isBoot then checkInMark reports else 1 := by
  have hall : (reports ++ [handled]).all HandledReport.isBoot =
      (reports.all HandledReport.isBoot && handled.isBoot) := by
    rw [List.all_append, List.all_cons, List.all_nil, Bool.and_true]
  unfold checkInMark
  rw [hall]
  cases handled.isBoot
  · rw [Bool.and_false]
    rfl
  · rw [Bool.and_true]
    rfl

theorem checkInMark_ne_zero_iff (reports : List HandledReport) :
    checkInMark reports ≠ 0 ↔ ∃ handled ∈ reports, handled.1.kind = .hrs24 := by
  have hkind : ∀ handled : HandledReport, handled.isBoot = false ↔
      handled.1.kind = .hrs24 := by
    intro handled
    cases hkind : handled.1.kind <;> simp [HandledReport.isBoot, hkind]
  by_cases hall : reports.all HandledReport.isBoot
  · simp only [checkInMark, hall, if_true, ne_eq, not_true_eq_false, false_iff, not_exists,
      not_and]
    intro handled hmem hdaily
    have hboot := List.all_eq_true.mp hall handled hmem
    rw [(hkind handled).mpr hdaily] at hboot
    cases hboot
  · rw [checkInMark, if_neg hall]
    obtain ⟨handled, hmem, hboot⟩ := List.all_eq_false.mp (Bool.eq_false_iff.mpr hall)
    have hdaily := (hkind handled).mp (Bool.eq_false_iff.mpr hboot)
    simp only [show (1 : SizeT) ≠ 0 by decide, ne_eq, not_false_eq_true, true_iff]
    exact ⟨handled, hmem, hdaily⟩

theorem deviceSummary_concat {reports : List HandledReport} {summary : Record}
    (hsummary : deviceSummary reports = some summary) (handled : HandledReport) :
    deviceSummary (reports ++ [handled]) = some (handled.1.update summary) := by
  cases reports with
  | nil => cases hsummary
  | cons first rest =>
      obtain rfl := Option.some.inj hsummary
      have hcount := bootCount_concat (first :: rest) handled
      have hmark := checkInMark_concat (first :: rest) handled
      rw [List.cons_append] at hcount hmark ⊢
      simp only [deviceSummary, hcount, hmark]
      cases hkind : handled.1.kind <;>
        simp [Report.update, HandledReport.isBoot, hkind, BitVec.ofNat_add]

/-- **The fold of a device's reports in closed form.** -/
theorem foldl_deviceStep (reports : List HandledReport) :
    reports.foldl (KeyedFold.applyEntry deviceStep) none = deviceSummary reports := by
  induction reports using List.reverseRecOn with
  | nil => rfl
  | append_singleton reports handled ih =>
      rw [List.foldl_append, ih]
      rcases hsummary : deviceSummary reports with _ | summary
      · cases reports with
        | nil =>
            rcases handled with ⟨⟨kind, id, model, version⟩, now⟩
            cases kind <;> rfl
        | cons first rest => cases hsummary
      · rw [deviceSummary_concat hsummary]
        rfl

/-! ### The clock bears on the boot time only -/

def Record.timeless (record : Record) : Record := { record with lastBoot := none }

def timelessStep (report : Report) (entry : Option Record) : Record :=
  entry.elim (deviceFresh (report, 0)).timeless report.update

theorem timeless_deviceStep (handled : HandledReport) (entry : Option Record) :
    (deviceStep handled entry).timeless =
      timelessStep handled.1 (entry.map Record.timeless) := by
  obtain ⟨⟨kind, id, model, version⟩, now⟩ := handled
  cases entry <;> cases kind <;> rfl

namespace IoTServer

variable (memory : Memory) (recordsPerTick : Nat) (serves : BitVec 32)

theorem timeless_view_after (events : List ServerEvent) (k : SizeT) :
    ((after memory recordsPerTick serves events).view memory k).map Record.timeless =
      ((handledFor k events).map Prod.fst).foldl (KeyedFold.applyEntry timelessStep) none := by
  rw [view_after]
  exact KeyedFold.foldl_applyEntry_map deviceStep timelessStep Prod.fst Record.timeless
    timeless_deviceStep (handledFor k events) none

/-! ### The tracked metrics in every run -/

theorem view_after_eq_summary (events : List ServerEvent) (k : SizeT) :
    (after memory recordsPerTick serves events).view memory k =
      deviceSummary (handledFor k events) := by
  rw [view_after, foldl_deviceStep]

/-- The record under a key is the summary of the key's reports, its boot counter
    moved by what the memory held when the record was created. -/
theorem since_deref_eq_summary (events : List ServerEvent) {k : SizeT} {record : RecordPtr}
    (hlookup : (after memory recordsPerTick serves events).records.lookup k = some record) :
    deviceSummary (handledFor k events) =
      some (((after memory recordsPerTick serves events).deref record).since
        (memory record)) := by
  rw [← view_after_eq_summary memory recordsPerTick serves, RecordStore.view,
    RecordStore.observe, hlookup, Option.map_some]

theorem mem_records_iff (events : List ServerEvent) (k : SizeT) :
    k ∈ (after memory recordsPerTick serves events).records ↔ handledFor k events ≠ [] := by
  rw [← RecordStore.isSome_observe_iff fun record value => value.since (memory record)]
  change ((after memory recordsPerTick serves events).view memory k).isSome = true ↔ _
  rw [view_after, KeyedFold.isSome_foldl_applyEntry]
  simp

theorem mem_recordList_iff (events : List ServerEvent) (record : RecordPtr) :
    record ∈ (after memory recordsPerTick serves events).recordList ↔
      record ∈ allocations events := by
  have hinv := inv_after memory recordsPerTick serves events
  have hkeys : (after memory recordsPerTick serves events).records.keys =
      ((handledReports events).map HandledReport.key).toFinset := by
    ext k
    rw [Finmap.mem_keys, mem_records_iff, handledFor, KeyedFold.eventsOf, Ne,
      List.filter_eq_nil_iff]
    simp
  have hlength : (after memory recordsPerTick serves events).recordList.length =
      ((handledReports events).map HandledReport.key).toFinset.card := by
    rw [← hkeys, RecordStore.card_keys, hinv.size_eq]
  rw [allocations, ← hlength, Finset.mem_range, hinv.recordList_eq, List.length_range,
    List.mem_range]

/-- **The record store is a per-device fold.** After every run a key has a record
    iff a report was handled for it. The record then has that id, the model of
    the first of these reports, the version of the last one, and its check-in
    mark is set iff one of them was a daily report. -/
theorem records_per_device_fold (events : List ServerEvent) (k : SizeT) :
    let server := after memory recordsPerTick serves events
    let reports := (handledFor k events).map Prod.fst
    (k ∈ server.records ↔ reports ≠ []) ∧
    ∀ record, server.records.lookup k = some record →
      (server.deref record).id = k ∧
      reports.head?.map Report.model = some (server.deref record).model ∧
      reports.getLast?.map Report.version = some (server.deref record).version ∧
      ((server.deref record).checkIn ≠ 0 ↔ ∃ report ∈ reports, report.kind = .hrs24) := by
  intro server reports
  constructor
  · rw [mem_records_iff memory recordsPerTick serves]
    simp [reports]
  · intro record hlookup
    have hsummary := since_deref_eq_summary memory recordsPerTick serves events hlookup
    have hid := (inv_after memory recordsPerTick serves events).id_eq k record hlookup
    rcases hreports : handledFor k events with _ | ⟨first, rest⟩
    · rw [hreports] at hsummary
      cases hsummary
    · rw [hreports] at hsummary
      have hrecord := Option.some.inj hsummary
      have hmodel : first.1.model = (server.deref record).model :=
        congrArg Record.model hrecord
      have hversion : ((first :: rest).getLast (by simp)).1.version =
          (server.deref record).version := congrArg Record.version hrecord
      have hcheckIn : checkInMark (first :: rest) = (server.deref record).checkIn :=
        congrArg Record.checkIn hrecord
      refine ⟨hid, ?_, ?_, ?_⟩
      · simp [reports, hreports, hmodel]
      · rw [← hversion]
        simp only [reports, hreports, List.getLast?_map,
          List.getLast?_eq_some_getLast (List.cons_ne_nil first rest), Option.map_some]
      · rw [← hcheckIn, checkInMark_ne_zero_iff]
        simp [reports, hreports]

def bootThenDaily : List ServerEvent :=
  [.report ⟨.boot, QString.latin1 "7", QString.latin1 "A", QString.latin1 "1.0"⟩ 10,
    .countMetrics true,
    .report ⟨.hrs24, QString.latin1 "7", QString.latin1 "B", QString.latin1 "1.1"⟩ 20]

theorem records_per_device_fold_bootThenDaily :
    let server := after (fun _ => ⟨5, 6, 9⟩) recordsPerPeriodicTick 0 bootThenDaily
    (server.deref 0).id = 7 ∧ (server.deref 0).model = QString.latin1 "A" ∧
      (server.deref 0).version = QString.latin1 "1.1" ∧ (server.deref 0).checkIn ≠ 0 := by
  intro server
  obtain ⟨hid, hmodel, hversion, hcheckIn⟩ := (records_per_device_fold (fun _ => ⟨5, 6, 9⟩)
    recordsPerPeriodicTick 0 bootThenDaily 7).2 0 (by decide)
  exact ⟨hid, Option.some.inj (hmodel.symm.trans (by decide)),
    Option.some.inj (hversion.symm.trans (by decide)), hcheckIn.mpr (by decide)⟩

/-! ### The boot counter -/

def TotalBootsExact (events : List ServerEvent) : Prop :=
  let server := after memory recordsPerTick serves events
  ∀ k record, server.records.lookup k = some record →
    (server.deref record).totalBoots = BitVec.ofNat 64 (bootCount (handledFor k events))

theorem totalBoots_eq_iff (events : List ServerEvent) {k : SizeT} {record : RecordPtr}
    (hlookup : (after memory recordsPerTick serves events).records.lookup k = some record) :
    ((after memory recordsPerTick serves events).deref record).totalBoots =
        BitVec.ofNat 64 (bootCount (handledFor k events)) ↔
      (memory record).totalBoots = 0 := by
  have hsummary := since_deref_eq_summary memory recordsPerTick serves events hlookup
  rcases hreports : handledFor k events with _ | ⟨first, rest⟩
  · rw [hreports] at hsummary
    cases hsummary
  · rw [hreports] at hsummary
    have hcount := congrArg Record.totalBoots (Option.some.inj hsummary)
    simp only [Record.since] at hcount
    rw [hcount, eq_comm, sub_eq_self]

/-- **The boot counter is exact iff the memory was zero.** No path gives
    `totalBoots` a starting value, so the counts are right in exactly the runs
    in which every allocation was given memory that held zero there. -/
theorem totalBootsExact_iff (events : List ServerEvent) :
    TotalBootsExact memory recordsPerTick serves events ↔
      ∀ record ∈ allocations events, (memory record).totalBoots = 0 := by
  have hinv := inv_after memory recordsPerTick serves events
  simp only [← mem_recordList_iff memory recordsPerTick serves]
  constructor
  · intro hexact record hrecord
    rcases hinv.mem_recordList_iff.mp hrecord with ⟨k, hlookup⟩
    exact (totalBoots_eq_iff memory recordsPerTick serves events hlookup).mp
      (hexact k record hlookup)
  · intro hzero k record hlookup
    exact (totalBoots_eq_iff memory recordsPerTick serves events hlookup).mpr
      (hzero record (hinv.mem_recordList_iff.mpr ⟨k, hlookup⟩))

/-- One boot in memory that held 41: the counter says 42. -/
theorem not_totalBootsExact_usedMemory :
    ¬ TotalBootsExact (fun _ => ⟨0, 41, 0⟩) recordsPerPeriodicTick 0
      [.report ⟨.boot, QString.latin1 "7", QString.latin1 "A", QString.latin1 "1.0"⟩ 10] := by
  intro hexact
  have hcount := hexact 7 0 (by decide)
  revert hcount
  decide

/-! ### The time of the last boot -/

def LastBootCurrent (events : List ServerEvent) : Prop :=
  let server := after memory recordsPerTick serves events
  ∀ k clock, lastBootClock (handledFor k events) = some clock →
    ∃ record, server.records.lookup k = some record ∧
      (server.deref record).lastBoot = some clock

/-- The boot time of a record is set when a boot report creates it, and never
    again. -/
theorem lastBoot_eq (events : List ServerEvent) {k : SizeT} {record : RecordPtr}
    (hlookup : (after memory recordsPerTick serves events).records.lookup k = some record) :
    ((after memory recordsPerTick serves events).deref record).lastBoot =
      (handledFor k events).head?.bind fun first =>
        if first.isBoot then some first.2 else none := by
  have hsummary := since_deref_eq_summary memory recordsPerTick serves events hlookup
  rcases hreports : handledFor k events with _ | ⟨first, rest⟩
  · rw [hreports] at hsummary
    cases hsummary
  · rw [hreports] at hsummary
    exact (congrArg Record.lastBoot (Option.some.inj hsummary)).symm

/-- **The boot time is current iff the first report is as good as the last boot.**
    For every device that has booted, the first report handled must have been a
    boot report, made at the clock reading of the most recent one. -/
theorem lastBootCurrent_iff (events : List ServerEvent) :
    LastBootCurrent memory recordsPerTick serves events ↔
      ∀ k clock, lastBootClock (handledFor k events) = some clock →
        ∃ first, (handledFor k events).head? = some first ∧
          first.isBoot = true ∧ first.2 = clock := by
  have hrecord : ∀ k clock, lastBootClock (handledFor k events) = some clock →
      ∃ record, (after memory recordsPerTick serves events).records.lookup k =
        some record := by
    intro k clock hclock
    refine Finmap.mem_iff.mp ((mem_records_iff memory recordsPerTick serves events k).mpr ?_)
    intro hnil
    rw [hnil] at hclock
    cases hclock
  constructor
  · intro hcurrent k clock hclock
    obtain ⟨record, hlookup, hlast⟩ := hcurrent k clock hclock
    rw [lastBoot_eq memory recordsPerTick serves events hlookup] at hlast
    rcases Option.bind_eq_some_iff.mp hlast with ⟨first, hfirst, hboot⟩
    by_cases hkind : first.isBoot = true
    · rw [if_pos hkind] at hboot
      exact ⟨first, hfirst, hkind, Option.some.inj hboot⟩
    · rw [if_neg hkind] at hboot
      cases hboot
  · intro hcondition k clock hclock
    obtain ⟨record, hlookup⟩ := hrecord k clock hclock
    rcases hcondition k clock hclock with ⟨first, hfirst, hkind, hsame⟩
    refine ⟨record, hlookup, ?_⟩
    rw [lastBoot_eq memory recordsPerTick serves events hlookup, hfirst, Option.bind_some,
      if_pos hkind, hsame]

/-- Two boots of one device: the record keeps the time of the first. -/
theorem not_lastBootCurrent_two_boots :
    ¬ LastBootCurrent (fun _ => ⟨0, 0, 0⟩) recordsPerPeriodicTick 0
      [.report ⟨.boot, QString.latin1 "7", QString.latin1 "A", QString.latin1 "1.0"⟩ 10,
        .report ⟨.boot, QString.latin1 "7", QString.latin1 "A", QString.latin1 "1.0"⟩ 20] := by
  intro hcurrent
  obtain ⟨record, hlookup, hlast⟩ := hcurrent 7 20 (by decide)
  have hfirst : (after (fun _ => ⟨0, 0, 0⟩) recordsPerPeriodicTick 0
      [.report ⟨.boot, QString.latin1 "7", QString.latin1 "A", QString.latin1 "1.0"⟩ 10,
        .report ⟨.boot, QString.latin1 "7", QString.latin1 "A",
          QString.latin1 "1.0"⟩ 20]).records.lookup 7 = some 0 := by decide
  obtain rfl := Option.some.inj (hfirst.symm.trans hlookup)
  revert hlast
  decide

end IoTServer

end IoTTracker
