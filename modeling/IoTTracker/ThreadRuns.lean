import IoTTracker.ThreadRefinement

/-!
# Runs of the threads

What the refinement says of whole runs: the locked sections of a run, performed one
at a time in the order in which they take effect, make the same server and the same
reports; no two threads are inside their sections at once and the containers are in
step whenever no worker is; each connection's lines are handled once, in order; and
neither the number of worker threads nor their timing shows in the records.
-/

namespace IoTTracker.ThreadState

variable {ι κ : Type*} [DecidableEq ι] [DecidableEq κ] (codec : TextCodec) (memory : Memory)
  (recordsPerTick : Nat) (owner : κ → ι) (serves : BitVec 32)

abbrev after (events : List (ThreadEvent ι κ)) : ThreadState ι κ :=
  (machine codec memory recordsPerTick owner).run (init serves) events

/-- The atomic steps of a run, in the order in which they take effect. -/
def performed (events : List (ThreadEvent ι κ)) : List (ScheduleStep κ ⊕ ServerEvent) :=
  (simulation codec memory recordsPerTick owner).matchedRun (init serves) events

abbrev atomicAfter (performed : List (ScheduleStep κ ⊕ ServerEvent)) :
    Connections κ × IoTServer :=
  (atomic codec memory recordsPerTick).run (Schedule.init, IoTServer.init serves) performed

theorem refines_after (events : List (ThreadEvent ι κ)) :
    Refines codec recordsPerTick owner (after codec memory recordsPerTick owner serves events)
      (atomicAfter codec memory recordsPerTick serves
        (performed codec memory recordsPerTick owner serves events)) :=
  (simulation codec memory recordsPerTick owner).rel_run
    (refines_init codec recordsPerTick owner serves) events

/-- The events of the server in a run of the atomic machine. -/
def serverEvents (performed : List (ScheduleStep κ ⊕ ServerEvent)) : List ServerEvent :=
  Machine.received (Schedule.connections codec) (fun entry => [.report entry.2.1 entry.2.2])
    Schedule.init performed

theorem atomicAfter_eq (performed : List (ScheduleStep κ ⊕ ServerEvent)) :
    atomicAfter codec memory recordsPerTick serves performed =
      ((Schedule.connections codec).run Schedule.init (Machine.upstream performed),
        IoTServer.after memory recordsPerTick serves (serverEvents codec performed)) :=
  Machine.run_feed _ _ _ _ _ _

/-! ### The locked sections -/

/-- **The locked sections are atomic.** Every run of the threads, in any order of
    their steps, has the outputs of the run that performs its sections one at a
    time, up to the report of a tick that has given the lock back. When no thread
    has the lock the server is the same, and the connections of an idle worker are
    the same. What has been performed is not undone by what the threads do later. -/
theorem sections_atomic (events : List (ThreadEvent ι κ)) :
    let s := after codec memory recordsPerTick owner serves events
    let done := performed codec memory recordsPerTick owner serves events
    let atomicState := atomicAfter codec memory recordsPerTick serves done
    (atomic codec memory recordsPerTick).outputs (Schedule.init, IoTServer.init serves) done =
        (machine codec memory recordsPerTick owner).outputs (init serves) events ++
          s.main.pending recordsPerTick s.server ∧
      (s.recordLocker = none → atomicState.2 = s.server) ∧
      (∀ c, s.workers (owner c) = .idle → atomicState.1 c = s.connections c) ∧
      ∀ later, done <+:
        performed codec memory recordsPerTick owner serves (events ++ later) := by
  intro s done atomicState
  have hrefines := refines_after codec memory recordsPerTick owner serves events
  refine ⟨?_, ?_, ?_, ?_⟩
  · exact (simulation codec memory recordsPerTick owner).outputs_run
      (refines_init codec recordsPerTick owner serves) events
  · intro hfree
    rw [hrefines.server_eq, settled, hfree]
  · intro c hidle
    have hlags := hrefines.connections_lag c
    rwa [hidle] at hlags
  · intro later
    rw [performed, Machine.Simulation.matchedRun, Machine.trace_append, List.flatMap_append]
    exact List.prefix_append _ _

/-! ### Mutual exclusion -/

omit [DecidableEq ι] [DecidableEq κ] in
theorem settled_toRecordStore {s : ThreadState ι κ} (hidle : ∀ i, ¬ (s.workers i).Inside) :
    (s.settled recordsPerTick).toRecordStore = s.server.toRecordStore := by
  unfold settled
  rcases s.recordLocker with _ | _ | i
  · rfl
  · cases s.main with
    | starting =>
        simp only [MainPc.settle, IoTServer.toRecordStore_endPass,
          IoTServer.toRecordStore_countRecords, IoTServer.toRecordStore_beginPass]
    | counting left =>
        simp only [MainPc.settle, IoTServer.toRecordStore_endPass,
          IoTServer.toRecordStore_countRecords]
    | ending => exact IoTServer.toRecordStore_endPass s.server
    | idle => rfl
    | trying => rfl
    | unlocking => rfl
    | reporting => rfl
  · exact WorkerPc.settle_of_not_inside (hidle i) _

theorem inv_settled (events : List (ThreadEvent ι κ)) :
    ((after codec memory recordsPerTick owner serves events).settled
      recordsPerTick).toRecordStore.Inv := by
  rw [← (refines_after codec memory recordsPerTick owner serves events).server_eq,
    atomicAfter_eq]
  exact IoTServer.inv_after memory recordsPerTick serves _

omit [DecidableEq κ] in
theorem toRecordStore_work {s : ThreadState ι κ} (hinv : s.Inv) (i : ι) (now : Nat)
    (hlock : s.recordLocker ≠ some (.worker i)) :
    (s.work memory i now).server.toRecordStore = s.server.toRecordStore := by
  have hinside : ¬ (s.workers i).Inside := fun hinside => hlock ((hinv.owns (.worker i)).mp hinside)
  change WorkerPc.Next.store _ = _
  rcases hpc : s.workers i with _ | ⟨c, report⟩ | _ | _ | _ | _ | _ | _
  · rfl
  · cases s.recordLocker <;> rfl
  all_goals exact absurd (hpc ▸ trivial) hinside

/-- Only a step of the worker that has the lock writes to the store. -/
theorem eq_work_of_toRecordStore_ne {s : ThreadState ι κ} (hinv : s.Inv)
    {event : ThreadEvent ι κ}
    (hchanged : ((machine codec memory recordsPerTick owner).step s event).1.server.toRecordStore ≠
      s.server.toRecordStore) :
    ∃ i now, event = .work i now ∧ s.recordLocker = some (.worker i) := by
  cases event with
  | arrive c bytes => exact absurd rfl hchanged
  | readLine c =>
      refine absurd ?_ hchanged
      simp only [machine, readLine]
      repeat' split
      all_goals rfl
  | work i now =>
      refine ⟨i, now, rfl, ?_⟩
      by_contra hlock
      exact hchanged (toRecordStore_work memory hinv i now hlock)
  | countMetrics =>
      refine absurd ?_ hchanged
      simp only [machine]
      split <;> rfl
  | measure =>
      refine absurd ?_ hchanged
      simp only [machine]
      split <;> rfl
  | incomingConnection =>
      refine absurd ?_ hchanged
      simp only [machine]
      split <;> rfl
  | main =>
      exact absurd (MainPc.toRecordStore_step recordsPerTick s.main s.recordLocker s.server)
        hchanged

omit [DecidableEq ι] [DecidableEq κ] in
/-- A worker has the record in the hash and not yet in the list, or the two have
    the same size. -/
theorem size_eq_of_settled {s : ThreadState ι κ} (hinv : s.Inv)
    (hsettled : (s.settled recordsPerTick).toRecordStore.Inv) :
    (∃ i report record, s.workers i = .appending report record) ∧
        s.server.size = s.server.recordList.length + 1 ∨
      (∀ i report record, s.workers i ≠ .appending report record) ∧
        s.server.size = s.server.recordList.length := by
  have hsize := hsettled.size_eq
  by_cases happending : ∃ i report record, s.workers i = .appending report record
  · refine .inl ⟨happending, ?_⟩
    obtain ⟨i, report, record, hpc⟩ := happending
    have hholder := (hinv.owns (.worker i)).mp (show (s.workers i).Inside from hpc ▸ trivial)
    simp only [settled, hholder, hpc, WorkerPc.settle, List.length_append,
      List.length_singleton] at hsize
    exact hsize
  · have hnone : ∀ i report record, s.workers i ≠ .appending report record :=
      fun i report record hpc => happending ⟨i, report, record, hpc⟩
    refine .inr ⟨hnone, ?_⟩
    by_cases hworker : ∃ i, (s.workers i).Inside
    · obtain ⟨i, hinside⟩ := hworker
      rw [settled, (hinv.owns (.worker i)).mp hinside] at hsize
      have hrecords := WorkerPc.records_settle (s.workers i) s.server.toRecordStore
      have hlist : ((s.workers i).settle s.server.toRecordStore).recordList =
          s.server.recordList := by
        rcases hpc : s.workers i with _ | _ | _ | _ | ⟨report, record⟩ | _ | _ | _
        case appending => exact absurd hpc (hnone i report record)
        all_goals rfl
      dsimp only at hsize
      rwa [hlist, RecordStore.size, hrecords] at hsize
    · rw [settled_toRecordStore recordsPerTick fun i hinside => hworker ⟨i, hinside⟩] at hsize
      exact hsize

/-- **Mutual exclusion.** In every run, in any order of the threads' steps, at most
    one thread is inside its section and only the worker that has the lock writes
    to the store. Whenever no worker is inside, hash and list are in step, so the
    main thread never walks a list that lacks a record. Read without the lock, the
    hash is at most one record ahead of the list. -/
theorem mutual_exclusion (events : List (ThreadEvent ι κ)) :
    let s := after codec memory recordsPerTick owner serves events
    (∀ t u, s.Inside t → s.Inside u → t = u) ∧
      (∀ event, ((machine codec memory recordsPerTick owner).step s event).1.server.toRecordStore ≠
          s.server.toRecordStore →
        ∃ i now, event = .work i now ∧ s.recordLocker = some (.worker i)) ∧
      ((∀ i, ¬ (s.workers i).Inside) → s.server.toRecordStore.Inv) ∧
      (s.main.Inside → s.server.toRecordStore.Inv) ∧
      ((∃ i report record, s.workers i = .appending report record) ∧
          s.server.size = s.server.recordList.length + 1 ∨
        (∀ i report record, s.workers i ≠ .appending report record) ∧
          s.server.size = s.server.recordList.length) := by
  intro s
  have hinv : s.Inv := inv_run codec memory recordsPerTick owner serves events
  have hsettled := inv_settled codec memory recordsPerTick owner serves events
  have hstep : (∀ i, ¬ (s.workers i).Inside) → s.server.toRecordStore.Inv := by
    intro hidle
    rwa [settled_toRecordStore recordsPerTick hidle] at hsettled
  refine ⟨fun t u => hinv.owns.exclusive, ?_, hstep, ?_, ?_⟩
  · exact fun event => eq_work_of_toRecordStore_ne codec memory recordsPerTick owner hinv
  · intro hmain
    apply hstep
    intro i
    exact hinv.not_inside_worker ((hinv.owns .main).mp hmain) nofun
  · exact size_eq_of_settled recordsPerTick hinv hsettled

/-! ### Each connection's lines -/

/-- The bytes that have arrived on a connection. -/
def arrived (c : κ) (events : List (ThreadEvent ι κ)) : QByteArray :=
  events.flatMap fun event =>
    match event with
    | .arrive c' bytes => if c' = c then bytes else []
    | _ => []

omit [DecidableEq ι] in
theorem arrived_append (c : κ) {before later : List (ThreadEvent ι κ)}
    (hquiet : ∀ bytes, .arrive c bytes ∉ later) :
    arrived c (before ++ later) = arrived c before := by
  have hnone : arrived c later = [] := by
    refine List.flatMap_eq_nil_iff.mpr fun event hevent => ?_
    cases event with
    | arrive c' bytes =>
        refine if_neg ?_
        rintro rfl
        exact hquiet bytes hevent
    | readLine c' => rfl
    | work i now => rfl
    | countMetrics => rfl
    | measure => rfl
    | incomingConnection => rfl
    | main => rfl
  rw [arrived, List.flatMap_append]
  exact (congrArg _ hnone).trans (List.append_nil _)

/-- The reports that have taken effect, each with its connection and clock. -/
def handled (events : List (ThreadEvent ι κ)) : List (κ × HandledReport) :=
  Schedule.handled codec
    (Machine.upstream (performed codec memory recordsPerTick owner serves events))

omit [DecidableEq ι] in
theorem received_sections (s : ThreadState ι κ) (event : ThreadEvent ι κ) (c : κ) :
    Schedule.received c (Machine.upstream (s.sections codec owner event)) =
      arrived c [event] := by
  cases event with
  | arrive c' bytes => rfl
  | readLine c' =>
      simp only [sections]
      repeat' split
      all_goals rfl
  | work i now =>
      simp only [sections]
      split <;> rfl
  | countMetrics =>
      simp only [sections]
      split <;> rfl
  | measure =>
      simp only [sections]
      split <;> rfl
  | incomingConnection =>
      simp only [sections]
      split <;> rfl
  | main =>
      simp only [sections]
      split <;> rfl

theorem received_performed (events : List (ThreadEvent ι κ)) (c : κ) :
    Schedule.received c
        (Machine.upstream (performed codec memory recordsPerTick owner serves events)) =
      arrived c events := by
  induction events using List.reverseRecOn with
  | nil => rfl
  | append_singleton events event ih =>
      have hreceived : ∀ first second : List (ScheduleStep κ), Schedule.received c
          (first ++ second) = Schedule.received c first ++ Schedule.received c second :=
        fun _ _ => List.flatMap_append
      have harrived : arrived c (events ++ [event]) = arrived c events ++ arrived c [event] :=
        List.flatMap_append
      rw [performed, Machine.Simulation.matchedRun_concat, Machine.upstream_append, hreceived,
        harrived, ← ih]
      exact congrArg _ (received_sections codec owner _ event c)

omit [DecidableEq ι] in
/-- Only a connection makes reports. -/
theorem report_notMem_sections (s : ThreadState ι κ) (event : ThreadEvent ι κ)
    (report : Report) (now : Nat) :
    Sum.inr (.report report now) ∉ s.sections codec owner event := by
  cases event with
  | arrive c' bytes => simp [sections]
  | readLine c' =>
      simp only [sections]
      repeat' split
      all_goals simp
  | work i now =>
      simp only [sections]
      split <;> simp
  | countMetrics =>
      simp only [sections]
      split <;> simp
  | measure =>
      simp only [sections]
      split <;> simp
  | incomingConnection =>
      simp only [sections]
      split <;> simp
  | main =>
      simp only [sections]
      split <;> simp

omit [DecidableEq κ] in
theorem handledReports_flatMap (entries : List (κ × HandledReport)) :
    handledReports (entries.flatMap fun entry => [.report entry.2.1 entry.2.2]) =
      entries.map Prod.snd := by
  induction entries with
  | nil => rfl
  | cons entry entries ih =>
      rw [List.map_cons, ← ih]
      rfl

theorem handledReports_serverEvents (events : List (ThreadEvent ι κ)) :
    handledReports (serverEvents codec
        (performed codec memory recordsPerTick owner serves events)) =
      (handled codec memory recordsPerTick owner serves events).map Prod.snd := by
  rw [handledReports, serverEvents, Machine.filterMap_received]
  · exact handledReports_flatMap _
  · intro event hevent
    obtain ⟨step, -, hsection⟩ := List.mem_flatMap.mp hevent
    cases event with
    | report report now =>
        exact absurd hsection (report_notMem_sections codec owner step.1 step.2 report now)
    | countMetrics lock => rfl
    | measure => rfl
    | incomingConnection => rfl

/-- **Every line is handled once, in order.** In every run, the reports of a
    connection that have taken effect, and the one its worker has still to bring
    about, are those of the lines `rx` has read off the bytes that arrived on it, and
    each record of a settled store is what the reports for its key amount to. -/
theorem handled_once (events : List (ThreadEvent ι κ)) :
    let s := after codec memory recordsPerTick owner serves events
    let reports := handled codec memory recordsPerTick owner serves events
    (∀ c, (IotClient.rxLoop codec).Steps IotClient.init (arrived c events)
        ⟨(s.connections c).1, (s.connections c).2,
          Schedule.reportsOf c reports ++ ((s.workers (owner c)).owes c).toList⟩) ∧
      ((∀ i, ¬ (s.workers i).Inside) → ∀ k, s.server.view memory k =
        deviceSummary (KeyedFold.eventsOf HandledReport.key k (reports.map Prod.snd))) := by
  intro s reports
  have hrefines := refines_after codec memory recordsPerTick owner serves events
  constructor
  · intro c
    have hprogress := Schedule.progress_run codec c
      (Machine.upstream (performed codec memory recordsPerTick owner serves events))
    rw [received_performed, Schedule.Progress] at hprogress
    have hlags := hrefines.connections_lag c
    rw [atomicAfter_eq] at hlags
    rcases howes : (s.workers (owner c)).owes c with _ | report
    · rw [howes] at hlags
      rw [← show _ = s.connections c from hlags, Option.toList_none, List.append_nil]
      exact hprogress
    · rw [howes] at hlags
      exact hprogress.snoc hlags
  · intro hidle k
    rw [← settled_toRecordStore recordsPerTick hidle, ← hrefines.server_eq, atomicAfter_eq,
      IoTServer.view_after, foldl_deviceStep, handledFor, handledReports_serverEvents]

/-! ### Any number of threads -/

/-- The run delivers each connection's bytes and comes to an end of their lines: no
    complete line is unread and every worker is idle. -/
def Finishes (stream : κ → QByteArray) (events : List (ThreadEvent ι κ)) : Prop :=
  let s := after codec memory recordsPerTick owner serves events
  (∀ c, arrived c events = stream c ∧ 0x0a ∉ (s.connections c).2) ∧ ∀ i, s.workers i = .idle

variable {codec memory recordsPerTick owner serves} {stream : κ → QByteArray}
  {events : List (ThreadEvent ι κ)}

theorem Finishes.delivers
    (hfinishes : Finishes codec memory recordsPerTick owner serves stream events) :
    Schedule.Delivers codec stream
      (Machine.upstream (performed codec memory recordsPerTick owner serves events)) := by
  intro c
  obtain ⟨harrived, hrest⟩ := hfinishes.1 c
  have hlags := (refines_after codec memory recordsPerTick owner serves events).connections_lag c
  rw [hfinishes.2 (owner c), atomicAfter_eq] at hlags
  refine ⟨(received_performed codec memory recordsPerTick owner serves events c).trans harrived, ?_⟩
  rwa [← show _ = (after codec memory recordsPerTick owner serves events).connections c from hlags]
    at hrest

/-- The store of a finished run is that of a schedule of atomic reports. -/
theorem Finishes.toRecordStore_eq
    (hfinishes : Finishes codec memory recordsPerTick owner serves stream events) :
    (after codec memory recordsPerTick owner serves events).server.toRecordStore =
      (IoTServer.after memory recordsPerTick serves (serverEvents codec
        (performed codec memory recordsPerTick owner serves events))).toRecordStore := by
  have hserver := (refines_after codec memory recordsPerTick owner serves events).server_eq
  rw [atomicAfter_eq] at hserver
  dsimp only at hserver
  rw [hserver, settled_toRecordStore recordsPerTick]
  intro i hinside
  rw [hfinishes.2 i] at hinside
  exact hinside

theorem handledFor_serverEvents (k : SizeT) (events : List (ThreadEvent ι κ)) :
    handledFor k (serverEvents codec
        (performed codec memory recordsPerTick owner serves events)) =
      handledFor k (Schedule.serverEvents codec
        (Machine.upstream (performed codec memory recordsPerTick owner serves events))) := by
  have hschedule : handledReports (Schedule.serverEvents codec
      (Machine.upstream (performed codec memory recordsPerTick owner serves events))) =
      (handled codec memory recordsPerTick owner serves events).map Prod.snd := by
    rw [← handledReports_flatMap, ← List.map_eq_flatMap]
    rfl
  rw [handledFor, handledFor, handledReports_serverEvents, hschedule]

/-- **Neither the number of threads nor their timing shows.** Two servers may have
    different numbers of worker threads, other connections for each worker, other
    steps in between and ticks of other sizes. If no two connections report the same
    key and both have come to an end of the same bytes, their stores have the same
    keys and agree on id, model, version, check-in mark and number of boots counted,
    and a pass over either publishes the same maps. -/
theorem threads_independent {ι' : Type*} [DecidableEq ι'] {memory' : Memory}
    {recordsPerTick' : Nat} {owner' : κ → ι'} {serves' : BitVec 32}
    {events' : List (ThreadEvent ι' κ)} (hdisjoint : Schedule.KeysDisjoint codec stream)
    (hfinishes : Finishes codec memory recordsPerTick owner serves stream events)
    (hfinishes' : Finishes codec memory' recordsPerTick' owner' serves' stream events') :
    let store := (after codec memory recordsPerTick owner serves events).server.toRecordStore
    let store' :=
      (after codec memory' recordsPerTick' owner' serves' events').server.toRecordStore
    (∀ k, (k ∈ store.records ↔ k ∈ store'.records) ∧
      ∀ record record', store.records.lookup k = some record →
        store'.records.lookup k = some record' →
        (store.deref record).id = (store'.deref record').id ∧
          (store.deref record).model = (store'.deref record').model ∧
          (store.deref record).version = (store'.deref record').version ∧
          (store.deref record).checkIn = (store'.deref record').checkIn ∧
          (store.deref record).totalBoots - (memory record).totalBoots =
            (store'.deref record').totalBoots - (memory' record').totalBoots) ∧
      store.size = store'.size ∧
      ∀ maps maps', IoTServer.PublishesFresh recordsPerTick store maps →
        IoTServer.PublishesFresh recordsPerTick' store' maps' → maps = maps' := by
  intro store store'
  have hreports := fun k => Schedule.reports_handledFor_eq codec hdisjoint hfinishes.delivers
    hfinishes'.delivers k
  have hagree : RecordStore.Agree memory store memory' store' := by
    intro k
    simp only [store, store', hfinishes.toRecordStore_eq, hfinishes'.toRecordStore_eq]
    rw [IoTServer.timeless_view_after, IoTServer.timeless_view_after, handledFor_serverEvents,
      handledFor_serverEvents, hreports k]
  have hinv : store.Inv := by
    simp only [store, hfinishes.toRecordStore_eq]
    exact IoTServer.inv_after memory recordsPerTick serves _
  have hinv' : store'.Inv := by
    simp only [store', hfinishes'.toRecordStore_eq]
    exact IoTServer.inv_after memory' recordsPerTick' serves' _
  refine ⟨fun k => ⟨hagree.mem_records k, fun record record' => hagree.fields_eq⟩,
    hagree.size_eq hinv hinv', ?_⟩
  intro maps maps' hmaps hmaps'
  exact IoTServer.publishesFresh_unique hinv hinv'
    (hagree.observe_eq Record.model fun _ _ => rfl)
    (hagree.observe_eq Record.version fun _ _ => rfl) hmaps hmaps'

/-- The worker of connection `true` has the lock when the other one wants it. -/
def contended : List (ThreadEvent Bool Bool) :=
  [.arrive true (twoStreams true), .arrive false (twoStreams false),
    .readLine true, .readLine true, .readLine true, .work true 1, .work true 2,
    .readLine false, .readLine false, .work false 3, .work true 4, .work true 5, .work false 6,
    .work true 7, .work true 8, .work true 9, .work false 10, .work false 11, .work false 12,
    .work false 13, .work false 14, .work false 15, .work false 16]

def oneWorker : List (ThreadEvent Unit Bool) :=
  [.arrive false (twoStreams false), .readLine false, .readLine false] ++
    List.replicate 7 (.work () 1) ++
    [.arrive true (twoStreams true), .readLine true, .readLine true, .readLine true] ++
    List.replicate 7 (.work () 2)

theorem threads_independent_contended :
    (after TextCodec.latin1 (fun _ => ⟨0, 0, 0⟩) 1 id 0 contended).server.size =
      (after TextCodec.latin1 (fun _ => ⟨9, 9, 9⟩) 2 (fun _ => ()) 0 oneWorker).server.size :=
  (threads_independent
    (show Schedule.KeysDisjoint TextCodec.latin1 twoStreams by unfold Schedule.KeysDisjoint; decide)
    (by unfold Finishes; decide) (by unfold Finishes; decide)).2.1

end IoTTracker.ThreadState
