import IoTTracker.MetricsReport
import IoTTracker.ConnectionAccounting
import IoTTracker.DeviceIdentity

/-!
# Nothing is forgotten

The server never removes a record. Once a device is known its record stays under
its key, and later reports change what they are meant to and nothing else. So the
numbers told to the monitors only grow: the number of devices, read off any
message, and in the reports the count of each model.
-/

namespace IoTTracker

namespace RecordStore

variable {store : RecordStore} {idn k : SizeT} {create : RecordPtr → Record}
  {update : Record → Record} {record : RecordPtr}

theorem lookup_upsert (hlookup : store.records.lookup k = some record) :
    (store.upsert idn create update).records.lookup k = some record := by
  rcases hfound : store.records.lookup idn with _ | found
  · have hk : k ≠ idn := by
      rintro rfl
      rw [hlookup] at hfound
      cases hfound
    rw [upsert_of_new hfound]
    exact (Finmap.lookup_insert_of_ne _ hk).trans hlookup
  · rw [upsert_of_known hfound]
    exact hlookup

end RecordStore

namespace IoTServer

variable (memory : Memory) (recordsPerTick : Nat)

/-! ### A record after more events -/

theorem lookup_step {server : IoTServer} (event : ServerEvent) {k : SizeT} {record : RecordPtr}
    (hlookup : server.records.lookup k = some record) :
    ((machine memory recordsPerTick).step server event).1.records.lookup k = some record := by
  rw [toRecordStore_step]
  cases event with
  | report report now =>
      dsimp only
      rw [Report.handle_eq_upsert]
      exact RecordStore.lookup_upsert hlookup
  | countMetrics lock => exact hlookup
  | measure => exact hlookup
  | incomingConnection => exact hlookup

theorem mem_recordList_of_lookup {server : IoTServer} (hinv : server.Inv) {k : SizeT}
    {record : RecordPtr} (hlookup : server.records.lookup k = some record) :
    record ∈ server.recordList := hinv.mem_recordList_iff.mpr ⟨k, hlookup⟩

/-- A listed record after more events: the reports for its key, one after another. -/
theorem deref_run {k : SizeT} {record : RecordPtr} (later : List ServerEvent) :
    ∀ {server : IoTServer}, server.Inv → server.records.lookup k = some record →
      ((machine memory recordsPerTick).run server later).records.lookup k = some record ∧
        ((machine memory recordsPerTick).run server later).deref record =
          (handledFor k later).foldl (fun value handled => handled.1.update value)
            (server.deref record) := by
  induction later with
  | nil =>
      intro server _ hlookup
      exact ⟨hlookup, rfl⟩
  | cons event later ih =>
      intro server hinv hlookup
      have hmem := mem_recordList_of_lookup hinv hlookup
      have hderef := deref_step memory recordsPerTick hinv event hmem
      obtain ⟨hrun, hvalue⟩ := ih (inv_step memory recordsPerTick hinv event)
        (lookup_step memory recordsPerTick event hlookup)
      refine ⟨hrun, hvalue.trans ?_⟩
      rw [hderef]
      cases event with
      | report report now =>
          rw [handledFor_report_cons]
          by_cases hkey : HandledReport.key (report, now) = k
          · have hown : server.records.lookup (idNumber report.id) = some record := by
              rw [← hlookup, ← hkey]
              rfl
            rw [if_pos hkey, List.foldl_cons]
            simp only [if_pos hown]
          · have hother : server.records.lookup (idNumber report.id) ≠ some record := fun hown =>
              hkey (hinv.key_eq hown hlookup)
            rw [if_neg hkey]
            simp only [if_neg hother]
      | countMetrics lock => rfl
      | measure => rfl
      | incomingConnection => rfl

/-- What some reports leave of a record. -/
structure Continues (reports : List HandledReport) (before now : Record) : Prop where
  id_eq : now.id = before.id
  model_eq : now.model = before.model
  lastBoot_eq : now.lastBoot = before.lastBoot
  totalBoots_eq : now.totalBoots = before.totalBoots + BitVec.ofNat 64 (bootCount reports)
  checkIn_eq : now.checkIn = if reports.all HandledReport.isBoot then before.checkIn else 1
  version_eq : now.version = (reports.getLast?.map fun handled => handled.1.version).getD
    before.version

theorem continues_foldl (before : Record) (reports : List HandledReport) :
    Continues reports before
      (reports.foldl (fun value handled => handled.1.update value) before) := by
  induction reports using List.reverseRecOn with
  | nil => exact ⟨rfl, rfl, rfl, (BitVec.add_zero _).symm, rfl, rfl⟩
  | append_singleton reports handled ih =>
      rw [List.foldl_append, List.foldl_cons, List.foldl_nil]
      generalize reports.foldl (fun value handled => handled.1.update value) before = now at ih
      have hcount := bootCount_concat reports handled
      refine ⟨?_, ?_, ?_, ?_, ?_, ?_⟩
      · rw [Report.id_update, ih.id_eq]
      · rw [Report.model_update, ih.model_eq]
      · rw [← ih.lastBoot_eq]
        cases hkind : handled.1.kind <;> simp only [Report.update, hkind]
      · rw [hcount]
        cases hkind : handled.1.kind <;>
          simp [Report.update, HandledReport.isBoot, hkind, ih.totalBoots_eq, BitVec.ofNat_add,
            BitVec.add_assoc]
      · have hall : (reports ++ [handled]).all HandledReport.isBoot =
            (reports.all HandledReport.isBoot && handled.isBoot) := by
          rw [List.all_append, List.all_cons, List.all_nil, Bool.and_true]
        rw [hall]
        cases hkind : handled.1.kind with
        | boot =>
            have hboot : handled.isBoot = true := decide_eq_true hkind
            rw [hboot, Bool.and_true, ← ih.checkIn_eq]
            simp only [Report.update, hkind]
        | hrs24 =>
            have hboot : handled.isBoot = false := decide_eq_false (by simp [hkind])
            rw [hboot, Bool.and_false, if_neg Bool.false_ne_true]
            simp only [Report.update, hkind]
      · rw [Report.version_update, List.getLast?_concat]
        rfl

/-- **A record stays and later reports continue it.** From every reachable state,
    whatever happens next: a key keeps its record, and that record keeps its id, its
    model and its boot time, counts the boots that come in, has the version of the
    latest report, and its check-in mark is set by a daily report and never
    cleared. -/
theorem record_continues (serves : BitVec 32) (events later : List ServerEvent) {k : SizeT}
    {record : RecordPtr}
    (hlookup : (after memory recordsPerTick serves events).records.lookup k = some record) :
    let server := after memory recordsPerTick serves events
    let next := after memory recordsPerTick serves (events ++ later)
    next.records.lookup k = some record ∧
      Continues (handledFor k later) (server.deref record) (next.deref record) := by
  intro server next
  have hinv : server.Inv := inv_after memory recordsPerTick serves events
  obtain ⟨hrun, hvalue⟩ := deref_run memory recordsPerTick later hinv hlookup
  rw [← Machine.run_append] at hrun hvalue
  refine ⟨hrun, ?_⟩
  rw [show next.deref record = _ from hvalue]
  exact continues_foldl _ _

theorem record_continues_twoBoots :
    let later : List ServerEvent := [.measure,
      .report ⟨.hrs24, QString.latin1 "7", QString.latin1 "B", QString.latin1 "1.1"⟩ 20,
      .report ⟨.boot, QString.latin1 "7", QString.latin1 "A", QString.latin1 "2.0"⟩ 30]
    (after (fun _ => ⟨0, 0, 0⟩) 1 0 ([.report ⟨.boot, QString.latin1 "7", QString.latin1 "A",
      QString.latin1 "1.0"⟩ 10] ++ later)).records.lookup 7 = some 0 :=
  (record_continues (fun _ => ⟨0, 0, 0⟩) 1 0 [.report ⟨.boot, QString.latin1 "7",
    QString.latin1 "A", QString.latin1 "1.0"⟩ 10] _ (by decide)).1

/-! ### What the monitors are told -/

theorem size_le_step {server : IoTServer} (hinv : server.Inv) (event : ServerEvent) :
    server.size ≤ ((machine memory recordsPerTick).step server event).1.size := by
  rw [hinv.size_eq, (inv_step memory recordsPerTick hinv event).size_eq]
  exact (recordList_prefix_step memory recordsPerTick server event).length_le

/-- The numbers of devices that a message tells: the total, or the sums of the
    counts in a report. -/
def ServerOutput.totals : ServerOutput → List Int
  | .updateClientsCPS _ totalDevices => [totalDevices]
  | .buildJsonDoc models versions =>
      [((∑ m ∈ models.keys, models.countOf m : Nat) : Int),
        ((∑ v ∈ versions.keys, versions.countOf v : Nat) : Int)]
  | .newConnection _ => []

def toldTotals (outputs : List ServerOutput) : List Int :=
  outputs.flatMap ServerOutput.totals

theorem totals_step (serves : BitVec 32) (events : List ServerEvent) (event : ServerEvent) :
    ∀ total ∈ toldTotals ((machine memory recordsPerTick).step
      (after memory recordsPerTick serves events) event).2,
      total = (after memory recordsPerTick serves events).size := by
  have hinv : (after memory recordsPerTick serves events).Inv :=
    inv_after memory recordsPerTick serves events
  cases event with
  | report report now =>
      intro total htotal
      cases htotal
  | measure =>
      intro total htotal
      exact List.mem_singleton.mp htotal
  | incomingConnection =>
      intro total htotal
      cases htotal
  | countMetrics lock =>
      intro total htotal
      rcases hpublished : ((after memory recordsPerTick serves events).countMetrics
        recordsPerTick lock).2 with _ | ⟨models, versions⟩
      · simp only [machine, hpublished] at htotal
        cases htotal
      · have hreport := published_of_countMetrics memory recordsPerTick serves events lock
          hpublished
        simp only [machine, hpublished] at htotal
        have hsums : total = ((∑ m ∈ models.keys, models.countOf m : Nat) : Int) ∨
            total = ((∑ v ∈ versions.keys, versions.countOf v : Nat) : Int) := by
          simpa [toldTotals, ServerOutput.totals] using htotal
        rw [hreport.sum_models hinv, hreport.sum_versions hinv, ← hinv.size_eq] at hsums
        exact hsums.elim id id

/-- **The number of devices never goes down.** In every run the numbers of devices
    told to the monitors, by rate messages and by either half of the reports, in
    the order in which they are told, never decrease, and none is above the number
    of records there are. -/
theorem toldTotals_sorted (serves : BitVec 32) (events : List ServerEvent) :
    (toldTotals (outputsAfter memory recordsPerTick serves events)).Pairwise (· ≤ ·) ∧
      ∀ total ∈ toldTotals (outputsAfter memory recordsPerTick serves events),
        0 ≤ total ∧ total ≤ (after memory recordsPerTick serves events).size := by
  induction events using List.reverseRecOn with
  | nil => exact ⟨.nil, nofun⟩
  | append_singleton events event ih =>
      have hnow := totals_step memory recordsPerTick serves events event
      have hgrows : ((after memory recordsPerTick serves events).size : Int) ≤
          (after memory recordsPerTick serves (events ++ [event])).size := by
        rw [Int.ofNat_le, after, after, Machine.run_concat]
        exact size_le_step memory recordsPerTick
          (inv_after memory recordsPerTick serves events) event
      have htold : toldTotals (outputsAfter memory recordsPerTick serves (events ++ [event])) =
          toldTotals (outputsAfter memory recordsPerTick serves events) ++
            toldTotals ((machine memory recordsPerTick).step
              (after memory recordsPerTick serves events) event).2 := by
        rw [outputsAfter, Machine.outputs_concat, toldTotals, List.flatMap_append]
        rfl
      rw [htold]
      refine ⟨List.pairwise_append.mpr ⟨ih.1, ?_, ?_⟩, ?_⟩
      · apply List.pairwise_of_forall_mem_list
        intro total htotal total' htotal'
        rw [hnow total htotal, hnow total' htotal']
      · intro total htotal total' htotal'
        rw [hnow total' htotal']
        exact (ih.2 total htotal).2
      · intro total htotal
        rcases List.mem_append.mp htotal with hearlier | hlatest
        · exact ⟨(ih.2 total hearlier).1, (ih.2 total hearlier).2.trans hgrows⟩
        · rw [hnow total hlatest]
          exact ⟨Int.natCast_nonneg _, hgrows⟩

/-! ### The counts of the models -/

theorem listed_model_earlier (events later : List ServerEvent) (serves : BitVec 32) :
    (after memory recordsPerTick serves events).listed Record.model <+:
      (after memory recordsPerTick serves (events ++ later)).listed Record.model := by
  have hinv : (after memory recordsPerTick serves events).Inv :=
    inv_after memory recordsPerTick serves events
  have hgrows := recordList_prefix_run memory recordsPerTick
    (after memory recordsPerTick serves events) later
  rw [← Machine.run_append] at hgrows
  have hsame : (after memory recordsPerTick serves events).listed Record.model =
      (after memory recordsPerTick serves events).recordList.map fun record =>
        ((after memory recordsPerTick serves (events ++ later)).deref record).model := by
    apply List.map_congr_left
    intro record hrecord
    obtain ⟨k, hlookup⟩ := hinv.mem_recordList_iff.mp hrecord
    obtain ⟨-, hvalue⟩ := deref_run memory recordsPerTick later hinv hlookup
    rw [← Machine.run_append] at hvalue
    rw [show (after memory recordsPerTick serves (events ++ later)).deref record = _ from hvalue]
    exact (continues_foldl _ _).model_eq.symm
  rw [hsame]
  exact hgrows.map _

/-- **The count of a model only grows**, by the records of that model created since.
    Between any two reports of a run, whatever happens in between. -/
theorem models_grow (serves : BitVec 32) (events later : List ServerEvent) (lock lock' : Bool)
    {models versions models' versions' : QMap}
    (hpublished : ((after memory recordsPerTick serves events).countMetrics
      recordsPerTick lock).2 = some (models, versions))
    (hpublished' : ((after memory recordsPerTick serves (events ++ later)).countMetrics
      recordsPerTick lock').2 = some (models', versions')) :
    let server := after memory recordsPerTick serves events
    let next := after memory recordsPerTick serves (events ++ later)
    ∀ m, models'.countOf m = models.countOf m +
      ((next.recordList.drop server.recordList.length).map fun record =>
        (next.deref record).model).count m := by
  intro server next m
  have hinv : server.Inv := inv_after memory recordsPerTick serves events
  have hnext : next.Inv := inv_after memory recordsPerTick serves (events ++ later)
  have hhistogram := (published_of_countMetrics memory recordsPerTick serves events lock
    hpublished).isHistogram_models
  have hhistogram' := (published_of_countMetrics memory recordsPerTick serves (events ++ later)
    lock' hpublished').isHistogram_models
  have hlength : (server.listed Record.model).length ≤ 2 ^ 32 := by
    rw [length_listed]
    exact hinv.length_le
  have hlength' : (next.listed Record.model).length ≤ 2 ^ 32 := by
    rw [length_listed]
    exact hnext.length_le
  have hsplit := List.prefix_iff_eq_append.mp
    (listed_model_earlier memory recordsPerTick events later serves)
  rw [countOf_eq_count hhistogram hlength, countOf_eq_count hhistogram' hlength', ← hsplit,
    List.count_append, length_listed, List.map_drop]
  rfl

theorem models_grow_updatedDuringPass :
    ∃ models versions models' versions',
      ((after (fun _ => ⟨0, 0, 0⟩) 1 0 updatedDuringPass).countMetrics 1 true).2 =
          some (models, versions) ∧
        ((after (fun _ => ⟨0, 0, 0⟩) 1 0 (updatedDuringPass ++ ([.countMetrics true,
          .report ⟨.boot, QString.latin1 "5", QString.latin1 "A", []⟩ 50, .countMetrics true,
          .countMetrics true, .countMetrics true] : List ServerEvent))).countMetrics 1 true).2 =
            some (models', versions') ∧
        models'.countOf (QString.latin1 "A") = models.countOf (QString.latin1 "A") + 1 := by
  rcases hpublished : ((after (fun _ => ⟨0, 0, 0⟩) 1 0 updatedDuringPass).countMetrics
    1 true).2 with _ | ⟨models, versions⟩
  · exact absurd hpublished (by decide)
  · rcases hpublished' : ((after (fun _ => ⟨0, 0, 0⟩) 1 0 (updatedDuringPass ++
      ([.countMetrics true, .report ⟨.boot, QString.latin1 "5", QString.latin1 "A", []⟩ 50,
        .countMetrics true, .countMetrics true, .countMetrics true] :
          List ServerEvent))).countMetrics 1 true).2 with _ | ⟨models', versions'⟩
    · exact absurd hpublished' (by decide)
    · exact ⟨models, versions, models', versions', rfl, rfl,
        (models_grow (fun _ => ⟨0, 0, 0⟩) 1 0 _ _ true true hpublished hpublished' _).trans
          (congrArg _ (by decide))⟩

end IoTServer

end IoTTracker
