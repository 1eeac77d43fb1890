import IoTTracker.FreshPass
import IoTTracker.DeviceHistory

/-!
# Schedule independence

Connections are served by worker threads in whatever order their bytes arrive.
A schedule lets bytes arrive on any connection and lets `rx` of any connection
take its next line, whose report is handled at once; the workers' locked
sections can be ordered in no other way. What a connection reports depends on its
own bytes only, so if no two connections report the same key, any two schedules
of the same bytes build the same records, and a pass over either publishes the
same report.
-/

namespace IoTTracker

/-- One step of a schedule: bytes arrive, or `rx` takes a line and makes its
    report, if any, at clock reading `now`. -/
inductive ScheduleStep (ι : Type*) where
  | arrive (i : ι) (bytes : QByteArray)
  | readLine (i : ι) (now : Nat)

abbrev Connections (ι : Type*) := ι → IotClient × QByteArray

namespace Schedule

variable {ι : Type*} [DecidableEq ι] (codec : TextCodec)

def init : Connections ι := fun _ => (IotClient.init, [])

def connections : Machine (Connections ι) (ScheduleStep ι) (ι × HandledReport) where
  step connections event :=
    match event with
    | .arrive i bytes =>
        (Function.update connections i ((connections i).1, (connections i).2 ++ bytes), [])
    | .readLine i now =>
        match IotClient.rxStep codec (connections i).1 (connections i).2 with
        | none => (connections, [])
        | some o =>
            (Function.update connections i (o.state, o.buffer),
              o.emitted.map fun report => (i, report, now))

def received (i : ι) (schedule : List (ScheduleStep ι)) : QByteArray :=
  schedule.flatMap fun event =>
    match event with
    | .arrive j bytes => if j = i then bytes else []
    | .readLine _ _ => []

/-- The schedule delivers each connection's bytes in order, however cut and
    interleaved, and every `rx` has read all complete lines. -/
def Delivers (stream : ι → QByteArray) (schedule : List (ScheduleStep ι)) : Prop :=
  ∀ i, received i schedule = stream i ∧
    0x0a ∉ ((connections codec).run init schedule i).2

def handled (schedule : List (ScheduleStep ι)) : List (ι × HandledReport) :=
  (connections codec).outputs init schedule

def serverEvents (schedule : List (ScheduleStep ι)) : List ServerEvent :=
  (handled codec schedule).map fun entry => .report entry.2.1 entry.2.2

def reportsOf (i : ι) (entries : List (ι × HandledReport)) : List Report :=
  (entries.filter fun entry => decide (entry.1 = i)).map fun entry => entry.2.1

/-- The reports a whole stream makes on a connection of its own. -/
def streamReports (stream : QByteArray) : List Report :=
  (IotClient.init.rx codec stream).emitted

/-! ### Each connection runs its own loop -/

theorem reportsOf_append (i : ι) (first second : List (ι × HandledReport)) :
    reportsOf i (first ++ second) = reportsOf i first ++ reportsOf i second := by
  simp [reportsOf]

theorem reportsOf_map (i j : ι) (reports : List Report) (now : Nat) :
    reportsOf i (reports.map fun report => (j, report, now)) =
      if j = i then reports else [] := by
  by_cases hj : j = i <;> simp [reportsOf, List.filter_map, Function.comp_def, hj]

def Progress (i : ι) (connections : Connections ι) (bytes : QByteArray)
    (reports : List Report) : Prop :=
  (IotClient.rxLoop codec).Steps IotClient.init bytes
    ⟨(connections i).1, (connections i).2, reports⟩

theorem progress_arrive {i : ι} {state : Connections ι} {bytes : QByteArray}
    {reports : List Report} (hprogress : Progress codec i state bytes reports) (j : ι)
    (arrived : QByteArray) :
    Progress codec i ((connections codec).step state (.arrive j arrived)).1
      (bytes ++ if j = i then arrived else []) reports := by
  by_cases hj : j = i
  · subst hj
    simpa [Progress, connections] using hprogress.append arrived
  · simpa [Progress, connections, hj, Function.update_of_ne (Ne.symm hj)] using hprogress

theorem progress_readLine {i : ι} {state : Connections ι} {bytes : QByteArray}
    {reports : List Report} (hprogress : Progress codec i state bytes reports) (j : ι)
    (now : Nat) :
    Progress codec i ((connections codec).step state (.readLine j now)).1 bytes
      (reports ++ reportsOf i ((connections codec).step state (.readLine j now)).2) := by
  rcases hstep : IotClient.rxStep codec (state j).1 (state j).2 with _ | o
  · simpa [connections, hstep, reportsOf] using hprogress
  · simp only [connections, hstep, reportsOf_map]
    by_cases hj : j = i
    · subst hj
      rw [if_pos rfl, Progress, Function.update_self]
      exact hprogress.snoc hstep
    · simpa [Progress, hj, Function.update_of_ne (Ne.symm hj)] using hprogress

/-- **The connections do not disturb each other.** Whatever the schedule, each
    connection runs its own loop on the bytes it has received. -/
theorem progress_run (i : ι) (schedule : List (ScheduleStep ι)) :
    Progress codec i ((connections codec).run init schedule) (received i schedule)
      (reportsOf i (handled codec schedule)) := by
  induction schedule using List.reverseRecOn with
  | nil => exact .refl _ _
  | append_singleton schedule event ih =>
      rw [received, List.flatMap_append, handled, Machine.outputs_concat, Machine.run_concat,
        reportsOf_append]
      cases event with
      | arrive j arrived =>
          have hnext := progress_arrive codec ih j arrived
          simpa [received, handled, reportsOf, connections] using hnext
      | readLine j now =>
          have hnext := progress_readLine codec ih j now
          simpa [received, handled] using hnext

/-- **What a connection reports does not depend on the schedule.** -/
theorem reportsOf_handled {stream : ι → QByteArray} {schedule : List (ScheduleStep ι)}
    (hdelivers : Delivers codec stream schedule) (i : ι) :
    reportsOf i (handled codec schedule) = streamReports codec (stream i) := by
  rcases hdelivers i with ⟨hreceived, hrest⟩
  have hdrain := (progress_run codec i schedule).eq_drain
    ((IotClient.rxLoop_atRest_iff codec _ _).mpr hrest)
  rw [streamReports, IotClient.rx, ← hreceived, hdrain]

/-! ### Each key's reports -/

def untimed (entry : ι × HandledReport) : ι × Report := (entry.1, entry.2.1)

def entryKey (entry : ι × Report) : SizeT := idNumber entry.2.id

theorem reports_handledFor (k : SizeT) (schedule : List (ScheduleStep ι)) :
    (handledFor k (serverEvents codec schedule)).map Prod.fst =
      (KeyedFold.eventsOf entryKey k ((handled codec schedule).map untimed)).map Prod.snd := by
  have hreports : ∀ entries : List (ι × HandledReport),
      handledReports (entries.map fun entry => .report entry.2.1 entry.2.2) =
        entries.map Prod.snd := by
    intro entries
    rw [handledReports, List.filterMap_map]
    exact congrFun (List.filterMap_eq_map (f := Prod.snd)) entries
  rw [handledFor, serverEvents, hreports]
  simp only [KeyedFold.eventsOf, List.filter_map, List.map_map]
  rfl

theorem eventsOf_untimed (i : ι) (entries : List (ι × HandledReport)) :
    KeyedFold.eventsOf Prod.fst i (entries.map untimed) =
      (reportsOf i entries).map fun report => (i, report) := by
  simp only [KeyedFold.eventsOf, List.filter_map, reportsOf, List.map_map]
  apply List.map_congr_left
  intro entry hentry
  have howner : entry.1 = i := of_decide_eq_true (List.mem_filter.mp hentry).2
  simp [untimed, howner]

/-- No two connections report the same key. -/
def KeysDisjoint (stream : ι → QByteArray) : Prop :=
  ∀ i j, ∀ report ∈ streamReports codec (stream i), ∀ report' ∈ streamReports codec (stream j),
    idNumber report.id = idNumber report'.id → i = j

/-- **Each key sees the same reports in the same order.** -/
theorem reports_handledFor_eq {stream : ι → QByteArray} (hdisjoint : KeysDisjoint codec stream)
    {schedule schedule' : List (ScheduleStep ι)} (hdelivers : Delivers codec stream schedule)
    (hdelivers' : Delivers codec stream schedule') (k : SizeT) :
    (handledFor k (serverEvents codec schedule)).map Prod.fst =
      (handledFor k (serverEvents codec schedule')).map Prod.fst := by
  have hsame : ∀ i, KeyedFold.eventsOf Prod.fst i ((handled codec schedule).map untimed) =
      KeyedFold.eventsOf Prod.fst i ((handled codec schedule').map untimed) := by
    intro i
    rw [eventsOf_untimed, eventsOf_untimed, reportsOf_handled codec hdelivers,
      reportsOf_handled codec hdelivers']
  have hown : ∀ entry ∈ (handled codec schedule).map untimed,
      entry.2 ∈ streamReports codec (stream entry.1) := by
    intro entry hentry
    have hmem : entry ∈ KeyedFold.eventsOf Prod.fst entry.1
        ((handled codec schedule).map untimed) := List.mem_filter.mpr ⟨hentry, by simp⟩
    rw [eventsOf_untimed, reportsOf_handled codec hdelivers] at hmem
    obtain ⟨report, hreport, hentryEq⟩ := List.mem_map.mp hmem
    rw [← hentryEq]
    exact hreport
  rw [reports_handledFor, reports_handledFor,
    KeyedFold.eventsOf_eq_of_owner entryKey Prod.fst ?_ hsame k]
  intro entry hentry entry' hentry' hkey
  apply hdisjoint entry.1 entry'.1 entry.2 (hown entry hentry) entry'.2
  · exact hown entry' hentry'
  · exact hkey

theorem bootCount_eq (reports : List HandledReport) :
    bootCount reports =
      (reports.map Prod.fst).countP fun report => decide (report.kind = .boot) := by
  rw [bootCount, List.countP_map]
  rfl

end Schedule

/-! ### Stores that agree apart from the clock -/

/-- The same records under the same keys, the clock and the memory they were
    created in apart. -/
def RecordStore.Agree (memory : Memory) (store : RecordStore) (memory' : Memory)
    (store' : RecordStore) : Prop :=
  ∀ k, (store.view memory k).map Record.timeless = (store'.view memory' k).map Record.timeless

namespace RecordStore.Agree

variable {memory memory' : Memory} {store store' : RecordStore}

theorem fields_eq (hagree : Agree memory store memory' store') {k : SizeT}
    {record record' : RecordPtr} (hlookup : store.records.lookup k = some record)
    (hlookup' : store'.records.lookup k = some record') :
    (store.deref record).id = (store'.deref record').id ∧
      (store.deref record).model = (store'.deref record').model ∧
      (store.deref record).version = (store'.deref record').version ∧
      (store.deref record).checkIn = (store'.deref record').checkIn ∧
      (store.deref record).totalBoots - (memory record).totalBoots =
        (store'.deref record').totalBoots - (memory' record').totalBoots := by
  have hk := hagree k
  rw [RecordStore.view, RecordStore.view, RecordStore.observe, RecordStore.observe, hlookup,
    hlookup'] at hk
  have hrecord : ((store.deref record).since (memory record)).timeless =
      ((store'.deref record').since (memory' record')).timeless := Option.some.inj hk
  simp only [Record.since, Record.timeless, Record.mk.injEq] at hrecord
  rcases hrecord with ⟨hid, hboots, hcheckIn, hmodel, hversion, -⟩
  exact ⟨hid, hmodel, hversion, hcheckIn, hboots⟩

theorem observe_eq {β : Type*} (hagree : Agree memory store memory' store') (field : Record → β)
    (hfield : ∀ raw record, field (Record.timeless (Record.since raw record)) = field record) :
    store.observe (fun _ value => field value) = store'.observe fun _ value => field value := by
  have hview : ∀ (memory : Memory) (store : RecordStore) (k : SizeT),
      store.observe (fun _ value => field value) k =
        ((store.view memory k).map Record.timeless).map field := by
    intro memory store k
    simp only [RecordStore.view, RecordStore.observe, Option.map_map, Function.comp_def, hfield]
  funext k
  rw [hview memory store, hview memory' store', hagree k]

theorem mem_records (hagree : Agree memory store memory' store') (k : SizeT) :
    k ∈ store.records ↔ k ∈ store'.records := by
  have hview : ∀ (memory : Memory) (store : RecordStore), k ∈ store.records ↔
      ((store.view memory k).map Record.timeless).isSome = true := by
    intro memory store
    rw [Option.isSome_map, RecordStore.view, RecordStore.isSome_observe_iff]
  rw [hview memory store, hview memory' store', hagree k]

theorem publishesFresh_eq (hagree : Agree memory store memory' store') (hinv : store.Inv)
    (hinv' : store'.Inv) {recordsPerTick : Nat} {maps maps' : QMap × QMap}
    (hmaps : IoTServer.PublishesFresh recordsPerTick store maps)
    (hmaps' : IoTServer.PublishesFresh recordsPerTick store' maps') : maps = maps' :=
  IoTServer.publishesFresh_unique hinv hinv'
    (hagree.observe_eq Record.model fun _ _ => rfl)
    (hagree.observe_eq Record.version fun _ _ => rfl) hmaps hmaps'

theorem size_eq (hagree : Agree memory store memory' store') (hinv : store.Inv)
    (hinv' : store'.Inv) : store.size = store'.size := by
  have hperm := RecordStore.perm_of_observe_eq hinv hinv' Record.model
    (hagree.observe_eq Record.model fun _ _ => rfl)
  have hlength := hperm.length_eq
  rwa [List.length_map, List.length_map, ← hinv.size_eq, ← hinv'.size_eq] at hlength

end RecordStore.Agree

open Schedule in
/-- **Schedule independence.** If no two connections report the same key, any two
    schedules of the same bytes leave stores with the same keys that agree, key by
    key, on id, model, version, check-in mark and number of boots counted, and
    passes over the two that see no further report publish the same maps. -/
theorem schedule_independence {ι : Type*} [DecidableEq ι] (codec : TextCodec)
    (stream : ι → QByteArray) (hdisjoint : KeysDisjoint codec stream)
    (schedule schedule' : List (ScheduleStep ι)) (hdelivers : Delivers codec stream schedule)
    (hdelivers' : Delivers codec stream schedule') (memory memory' : Memory)
    (recordsPerTick : Nat) (serves serves' : BitVec 32) :
    let events := serverEvents codec schedule
    let events' := serverEvents codec schedule'
    let server := IoTServer.after memory recordsPerTick serves events
    let server' := IoTServer.after memory' recordsPerTick serves' events'
    (∀ k, (k ∈ server.records ↔ k ∈ server'.records) ∧
      bootCount (handledFor k events) = bootCount (handledFor k events') ∧
      ∀ record record', server.records.lookup k = some record →
        server'.records.lookup k = some record' →
        (server.deref record).id = (server'.deref record').id ∧
          (server.deref record).model = (server'.deref record').model ∧
          (server.deref record).version = (server'.deref record').version ∧
          (server.deref record).checkIn = (server'.deref record').checkIn ∧
          (server.deref record).totalBoots - (memory record).totalBoots =
            (server'.deref record').totalBoots - (memory' record').totalBoots) ∧
    (∀ maps maps', IoTServer.PublishesFresh recordsPerTick server.toRecordStore maps →
      IoTServer.PublishesFresh recordsPerTick server'.toRecordStore maps' → maps = maps') ∧
    (0 < recordsPerTick → server.size ≠ 0 →
      ∃ maps, IoTServer.PublishesFresh recordsPerTick server.toRecordStore maps ∧
        IoTServer.PublishesFresh recordsPerTick server'.toRecordStore maps) := by
  intro events events' server server'
  have hreports : ∀ k, (handledFor k events).map Prod.fst = (handledFor k events').map Prod.fst :=
    reports_handledFor_eq codec hdisjoint hdelivers hdelivers'
  have hagree : RecordStore.Agree memory server.toRecordStore memory' server'.toRecordStore := by
    intro k
    rw [IoTServer.timeless_view_after, IoTServer.timeless_view_after, hreports k]
  have hinv : server.Inv := IoTServer.inv_after memory recordsPerTick serves events
  have hinv' : server'.Inv := IoTServer.inv_after memory' recordsPerTick serves' events'
  refine ⟨fun k => ⟨?_, ?_, ?_⟩, fun maps maps' => hagree.publishesFresh_eq hinv hinv', ?_⟩
  · rw [IoTServer.mem_records_iff, IoTServer.mem_records_iff, Ne, Ne,
      ← List.map_eq_nil_iff (f := Prod.fst), hreports k, List.map_eq_nil_iff]
  · rw [bootCount_eq, bootCount_eq, hreports k]
  · intro record record' hlookup hlookup'
    exact hagree.fields_eq hlookup hlookup'
  · intro hpositive hsize
    obtain ⟨maps, hmaps⟩ := IoTServer.exists_publishesFresh hpositive hsize
    rw [hagree.size_eq hinv hinv'] at hsize
    rcases IoTServer.exists_publishesFresh hpositive hsize with ⟨maps', hmaps'⟩
    obtain rfl := hagree.publishesFresh_eq hinv hinv' hmaps hmaps'
    exact ⟨maps, hmaps, hmaps'⟩

def twoStreams (i : Bool) : QByteArray :=
  if i then QByteArray.latin1 "id=7\nmodel=A\nboot\n" else QByteArray.latin1 "id=8\n24hrs\n"

def inTurn : List (ScheduleStep Bool) :=
  [.arrive true (twoStreams true), .readLine true 1, .readLine true 2, .readLine true 3,
    .arrive false (twoStreams false), .readLine false 4, .readLine false 5]

def interleaved : List (ScheduleStep Bool) :=
  [.arrive false (QByteArray.latin1 "id=8\n24"), .arrive true (QByteArray.latin1 "id=7\nmod"),
    .readLine true 1, .readLine false 2, .arrive false (QByteArray.latin1 "hrs\n"),
    .readLine false 3, .arrive true (QByteArray.latin1 "el=A\nboot\n"), .readLine true 4,
    .readLine true 5]

/-- Device 7 has the first record of one store and the second of the other. Its fields
    are the same, its counter has been incremented once in both, and a tick publishes
    the same maps over either. -/
theorem schedule_independence_interleaved :
    let server := IoTServer.after (fun _ => ⟨0, 0, 0⟩) recordsPerPeriodicTick 0
      (Schedule.serverEvents TextCodec.latin1 inTurn)
    let server' := IoTServer.after (fun _ => ⟨9, 9, 9⟩) recordsPerPeriodicTick 0
      (Schedule.serverEvents TextCodec.latin1 interleaved)
    server.records.lookup 7 = some 0 ∧ server'.records.lookup 7 = some 1 ∧
      (server'.deref 1).model = QString.latin1 "A" ∧ (server'.deref 1).totalBoots - 9 = 1 ∧
      ∃ maps, (server.countMetrics recordsPerPeriodicTick true).2 = some maps ∧
        (server'.countMetrics recordsPerPeriodicTick true).2 = some maps ∧
        maps.1.countOf (QString.latin1 "A") = 1 := by
  intro server server'
  obtain ⟨hkeys, hmaps, -⟩ := schedule_independence TextCodec.latin1 twoStreams
    (by unfold Schedule.KeysDisjoint; decide) inTurn interleaved
    (by unfold Schedule.Delivers; decide) (by unfold Schedule.Delivers; decide)
    (fun _ => ⟨0, 0, 0⟩) (fun _ => ⟨9, 9, 9⟩) recordsPerPeriodicTick 0 0
  have hfirst : server.records.lookup 7 = some 0 := by decide
  have hsecond : server'.records.lookup 7 = some 1 := by decide
  obtain ⟨-, hmodel, -, -, hboots⟩ := (hkeys 7).2.2 0 1 hfirst hsecond
  obtain ⟨maps, hpublished⟩ := Option.ne_none_iff_exists'.mp
    (by decide : (server.countMetrics recordsPerPeriodicTick true).2 ≠ none)
  obtain ⟨maps', hpublished'⟩ := Option.ne_none_iff_exists'.mp
    (by decide : (server'.countMetrics recordsPerPeriodicTick true).2 ≠ none)
  have hsame : maps = maps' := hmaps maps maps'
    ⟨fun _ => ⟨0, 0, 0⟩, server, [], true, rfl, rfl, hpublished⟩
    ⟨fun _ => ⟨0, 0, 0⟩, server', [], true, rfl, rfl, hpublished'⟩
  refine ⟨hfirst, hsecond, hmodel.symm.trans (by decide), hboots.symm.trans (by decide), maps,
    hpublished, hsame ▸ hpublished', ?_⟩
  have hcount : (server.countMetrics recordsPerPeriodicTick true).2.map
      (fun maps => maps.1.countOf (QString.latin1 "A")) = some 1 := by decide
  rw [hpublished] at hcount
  exact Option.some.inj hcount

end IoTTracker
