import IoTTracker.WorkerThreads
import IoTTracker.Simulation

/-!
# The locked sections are atomic

Whatever the threads do step by step, the server behaves as if each report and
each tick were one step. A report takes effect when its worker finds the record or
inserts a new one, a tick when the main thread gets the lock. `settled` is the
server as it will be when the thread inside its section has come to the end of it.
-/

namespace IoTTracker

/-! ### What a worker has still to do -/

namespace WorkerPc

variable {ι κ : Type*}

/-- The store at the end of the locked section. -/
def settle : WorkerPc κ → RecordStore → RecordStore
  | .appending report record, store =>
      { store.assign record report.update with recordList := store.recordList ++ [record] }
  | .updating report record, store => store.assign record report.update
  | .versioning report record, store => store.assign record report.setVersion
  | _, store => store

/-- The report read from connection `c` that has not taken effect. -/
def owes [DecidableEq κ] (c : κ) : WorkerPc κ → Option Report
  | .locking c' report | .searching c' report | .inserting c' report =>
      if c' = c then some report else none
  | _ => none

/-- The report that takes effect in the next step. -/
def commits (store : RecordStore) : WorkerPc κ → Option (κ × Report)
  | .searching c report => (store.records.lookup (idNumber report.id)).map fun _ => (c, report)
  | .inserting c report => some (c, report)
  | _ => none

variable {pc : WorkerPc κ} {store : RecordStore}

theorem settle_of_not_inside (hpc : ¬ pc.Inside) (store : RecordStore) :
    pc.settle store = store := by
  cases pc <;> first | rfl | exact absurd trivial hpc

theorem records_settle (pc : WorkerPc κ) (store : RecordStore) :
    (pc.settle store).records = store.records := by
  cases pc <;> rfl

variable (memory : Memory) (now : Nat) (i : ι) (recordLocker : Option (ThreadId ι))

/-- **One step of a section.** It leaves the settled store alone, or the whole
    report takes effect on it. -/
theorem settle_step (habsent : pc.Absent store) :
    let next := pc.step memory now i recordLocker store
    next.pc.settle next.store =
      match pc.commits store with
      | some (_, report) => report.handle memory now store
      | none => pc.settle store := by
  cases pc with
  | idle => rfl
  | locking c report => cases recordLocker <;> rfl
  | searching c report =>
      rcases hknown : store.records.lookup (idNumber report.id) with _ | record
      · simp only [step, commits, hknown, Option.map_none]
        rfl
      · simp only [step, commits, hknown, Option.map_some, Report.handle_eq_upsert,
          RecordStore.upsert_of_known hknown]
        rfl
  | inserting c report =>
      simp only [step, commits, settle, RecordStore.assign, Report.handle_eq_upsert,
        RecordStore.upsert_of_new (habsent c report rfl)]
      simp [List.modify_eq_take_drop]
  | appending report record => rfl
  | updating report record =>
      simp only [step, commits, settle, RecordStore.assign_assign, Report.setVersion_mark]
  | versioning report record => rfl
  | unlocking => rfl

theorem commits_of_not_inside (hpc : ¬ pc.Inside) (store : RecordStore) :
    pc.commits store = none := by
  cases pc <;> first | rfl | exact absurd trivial hpc

theorem settle_of_commits {entry : κ × Report} (hcommits : pc.commits store = some entry) :
    pc.settle store = store := by
  cases pc <;> first | rfl | cases hcommits

variable [DecidableEq κ]

theorem owes_of_commits {c : κ} {report : Report} (hcommits : pc.commits store = some (c, report))
    (c' : κ) : pc.owes c' = if c = c' then some report else none := by
  cases pc with
  | searching c₀ report₀ =>
      obtain ⟨record, -, hpair⟩ := Option.map_eq_some_iff.mp hcommits
      obtain ⟨rfl, rfl⟩ := Prod.mk.inj hpair
      rfl
  | inserting c₀ report₀ =>
      obtain ⟨rfl, rfl⟩ := Prod.mk.inj (Option.some.inj hcommits)
      rfl
  | idle => cases hcommits
  | locking c₀ report₀ => cases hcommits
  | appending report₀ record => cases hcommits
  | updating report₀ record => cases hcommits
  | versioning report₀ record => cases hcommits
  | unlocking => cases hcommits

theorem owes_step (pc : WorkerPc κ) (store : RecordStore) (c : κ) :
    (pc.step memory now i recordLocker store).pc.owes c =
      match pc.commits store with
      | some _ => none
      | none => pc.owes c := by
  cases pc with
  | locking c' report => cases recordLocker <;> rfl
  | searching c' report =>
      rcases hknown : store.records.lookup (idNumber report.id) with _ | record
      · simp only [step, commits, hknown, Option.map_none]
        rfl
      · simp only [step, commits, hknown, Option.map_some]
        rfl
  | idle => rfl
  | inserting c' report => rfl
  | appending report record => rfl
  | updating report record => rfl
  | versioning report record => rfl
  | unlocking => rfl

end WorkerPc

/-! ### What the main thread has still to do -/

theorem IoTServer.countMetrics_of_unlocked (server : IoTServer) (recordsPerTick : Nat) :
    server.countMetrics recordsPerTick false = (server, none) :=
  countMetrics_of_idle recordsPerTick (.inr rfl)

namespace MainPc

variable {ι : Type*} (recordsPerTick : Nat)

/-- The server at the end of the locked section of `countMetrics`. -/
def settle : MainPc → IoTServer → IoTServer
  | .starting, server => (server.beginPass.countRecords recordsPerTick).endPass
  | .counting left, server => (server.countRecords left).endPass
  | .ending, server => server.endPass
  | _, server => server

/-- The report the tick will make after it has given the lock back. -/
def pending (pc : MainPc) (server : IoTServer) : List ServerOutput :=
  match pc with
  | .idle | .trying => []
  | pc =>
      let counted := pc.settle recordsPerTick server
      if counted.countMetricsStart then [.buildJsonDoc counted.models counted.versions] else []

variable {pc : MainPc} {server : IoTServer}

theorem settle_of_not_inside (hpc : ¬ pc.Inside) (server : IoTServer) :
    pc.settle recordsPerTick server = server := by
  cases pc <;> first | rfl | exact absurd trivial hpc

/-- A tick in its section only goes on with what it had begun. -/
theorem settle_step (hpc : pc.Inside) (recordLocker : Option (ThreadId ι)) (server : IoTServer) :
    let next := pc.step recordsPerTick recordLocker server
    next.pc.settle recordsPerTick next.server = pc.settle recordsPerTick server ∧
      next.outputs = [] ∧
      next.pc.pending recordsPerTick next.server = pc.pending recordsPerTick server := by
  cases pc with
  | starting => exact ⟨rfl, rfl, rfl⟩
  | counting left =>
      cases left with
      | zero => exact ⟨rfl, rfl, rfl⟩
      | succ left =>
          rcases hrecord : server.recIterator.deref server.recordList with _ | record
          · simp only [step, hrecord, settle, pending, IoTServer.countRecords, and_self]
          · simp only [step, hrecord, settle, pending, IoTServer.countRecords, and_self]
  | ending => exact ⟨rfl, rfl, rfl⟩
  | unlocking => exact ⟨rfl, rfl, rfl⟩
  | idle => exact absurd hpc not_false
  | trying => exact absurd hpc not_false
  | reporting => exact absurd hpc not_false

theorem pending_starting (hsize : server.size ≠ 0) :
    MainPc.starting.pending recordsPerTick server =
      ((server.countMetrics recordsPerTick true).2.map fun maps =>
        .buildJsonDoc maps.1 maps.2).toList := by
  let counted := (server.beginPass.countRecords recordsPerTick).endPass
  have hpending : MainPc.starting.pending recordsPerTick server =
      if counted.countMetricsStart then [.buildJsonDoc counted.models counted.versions]
      else [] := rfl
  rw [IoTServer.countMetrics_of_lock recordsPerTick hsize, hpending]
  by_cases hend : counted.countMetricsStart = true
  · simp only [counted, if_pos hend]
    rfl
  · simp only [counted, if_neg hend]
    rfl

/-- Reports change nothing that a tick outside its section has still to read. -/
theorem pending_toRecordStore (hpc : ¬ pc.Inside) (server : IoTServer) (store : RecordStore) :
    pc.pending recordsPerTick { server with toRecordStore := store } =
      pc.pending recordsPerTick server := by
  cases pc <;> first | rfl | exact absurd trivial hpc

end MainPc

/-! ### The settled server -/

namespace ThreadState

section Settled

variable {ι κ : Type*} (recordsPerTick : Nat)

def settled (s : ThreadState ι κ) : IoTServer :=
  match s.recordLocker with
  | none => s.server
  | some .main => s.main.settle recordsPerTick s.server
  | some (.worker i) =>
      { s.server with toRecordStore := (s.workers i).settle s.server.toRecordStore }

variable {s : ThreadState ι κ}

theorem settled_of_worker (hinv : s.Inv) {i : ι}
    (hlock : s.recordLocker = none ∨ s.recordLocker = some (.worker i)) :
    s.settled recordsPerTick =
      { s.server with toRecordStore := (s.workers i).settle s.server.toRecordStore } := by
  rcases hlock with hfree | hown
  · have hinside : ¬ (s.workers i).Inside := fun hinside => by
      have hlocker := (hinv.owns (.worker i)).mp hinside
      rw [hfree] at hlocker
      cases hlocker
    rw [settled, hfree, WorkerPc.settle_of_not_inside hinside]
  · rw [settled, hown]

theorem settled_of_main (hinv : s.Inv)
    (hlock : s.recordLocker = none ∨ s.recordLocker = some .main) :
    s.settled recordsPerTick = s.main.settle recordsPerTick s.server := by
  rcases hlock with hfree | hown
  · have hinside : ¬ s.main.Inside := fun hinside => by
      have hlocker := (hinv.owns .main).mp hinside
      rw [hfree] at hlocker
      cases hlocker
    rw [settled, hfree, MainPc.settle_of_not_inside recordsPerTick hinside]
  · rw [settled, hown]

theorem settled_update_main (hlock : s.recordLocker ≠ some .main) (pc : MainPc) :
    settled recordsPerTick { s with main := pc } = s.settled recordsPerTick := by
  unfold settled
  rcases hholder : s.recordLocker with _ | _ | i
  · rfl
  · exact absurd hholder hlock
  · rfl

theorem Inv.recordLocker_ne (hinv : s.Inv) (hmain : ¬ s.main.Inside) :
    s.recordLocker ≠ some .main := fun hlock => hmain ((hinv.owns .main).mpr hlock)

/-- A slot that only writes what belongs to the main thread does the same to the
    settled server. -/
theorem settled_slot (hlock : s.recordLocker ≠ some .main) (slot : IoTServer → IoTServer)
    (hslot : ∀ server store, slot { server with toRecordStore := store } =
      { slot server with toRecordStore := store })
    (hstore : ∀ server, (slot server).toRecordStore = server.toRecordStore) :
    settled recordsPerTick { s with server := slot s.server } =
      slot (s.settled recordsPerTick) := by
  unfold settled
  rcases hholder : s.recordLocker with _ | _ | i
  · rfl
  · exact absurd hholder hlock
  · dsimp only
    rw [hstore]
    exact (hslot _ _).symm

/-- The hash as `measure` reads it, without the lock, is the hash of the settled
    server: a report takes effect when its record is inserted. -/
theorem measure_settled (hlock : s.recordLocker ≠ some .main) :
    (s.settled recordsPerTick).measure.2 = s.server.measure.2 := by
  unfold settled
  rcases hholder : s.recordLocker with _ | _ | i
  · rfl
  · exact absurd hholder hlock
  · simp only [IoTServer.measure, RecordStore.size, WorkerPc.records_settle]

theorem incomingConnection_settled (hlock : s.recordLocker ≠ some .main) :
    (s.settled recordsPerTick).incomingConnection.2 = s.server.incomingConnection.2 := by
  unfold settled
  rcases hholder : s.recordLocker with _ | _ | i
  · rfl
  · exact absurd hholder hlock
  · rfl

variable [DecidableEq ι]

theorem settled_update_worker (hinv : s.Inv) {i : ι} (hbefore : ¬ (s.workers i).Inside)
    (pc : WorkerPc κ) (connections : Connections κ) :
    settled recordsPerTick
        { s with workers := Function.update s.workers i pc, connections := connections } =
      s.settled recordsPerTick := by
  unfold settled
  rcases hlock : s.recordLocker with _ | _ | j
  · rfl
  · rfl
  · have hj : j ≠ i := fun hj => hbefore (hj ▸ (hinv.owns (.worker j)).mpr hlock)
    simp only [Function.update_of_ne hj]

/-- **A worker's step on the settled server.** -/
theorem settled_work (memory : Memory) (hinv : s.Inv) (i : ι) (now : Nat) :
    (s.work memory i now).settled recordsPerTick =
      match (s.workers i).commits s.server.toRecordStore with
      | some (_, report) =>
          { s.settled recordsPerTick with
            toRecordStore :=
              report.handle memory now (s.settled recordsPerTick).toRecordStore }
      | none => s.settled recordsPerTick := by
  by_cases hlock : s.recordLocker = none ∨ s.recordLocker = some (.worker i)
  · have hnext : (s.work memory i now).recordLocker = none ∨
        (s.work memory i now).recordLocker = some (.worker i) := by
      change WorkerPc.Next.recordLocker _ = none ∨ WorkerPc.Next.recordLocker _ = _
      rcases WorkerPc.recordLocker_step memory now i s.recordLocker (s.workers i)
        s.server.toRecordStore with ⟨hsame, -⟩ | ⟨-, htaken, -⟩ | ⟨-, hfree, -⟩
      · exact hsame.symm ▸ hlock
      · exact .inr htaken
      · exact .inl hfree
    have hstep := WorkerPc.settle_step memory now i s.recordLocker (hinv.absent i)
    rw [settled_of_worker recordsPerTick (inv_work memory hinv i now) hnext,
      settled_of_worker recordsPerTick hinv hlock]
    simp only [work, Function.update_self, hstep]
    rcases hcommits : (s.workers i).commits s.server.toRecordStore with _ | ⟨c, report⟩
    · rfl
    · simp only [WorkerPc.settle_of_commits hcommits]
  · obtain ⟨holder, hholder⟩ := Option.ne_none_iff_exists'.mp fun hfree => hlock (.inl hfree)
    have hother : holder ≠ .worker i := fun hown => hlock (.inr (hown ▸ hholder))
    rw [work_of_held memory hinv hholder hother,
      WorkerPc.commits_of_not_inside (hinv.not_inside_worker hholder hother)]

end Settled

/-! ### The simulation -/

variable {ι κ : Type*} [DecidableEq ι] [DecidableEq κ] (codec : TextCodec) (memory : Memory)
  (recordsPerTick : Nat) (owner : κ → ι)

/-- The server with every section in one step: what the connections report is
    handled at once. -/
def atomic : Machine (Connections κ × IoTServer) (ScheduleStep κ ⊕ ServerEvent) ServerOutput :=
  (Schedule.connections codec).feed (IoTServer.machine memory recordsPerTick) fun entry =>
    [.report entry.2.1 entry.2.2]

/-- The atomic steps that take effect in a step of the threads. -/
def sections (s : ThreadState ι κ) (event : ThreadEvent ι κ) :
    List (ScheduleStep κ ⊕ ServerEvent) :=
  match event with
  | .arrive c bytes => [.inl (.arrive c bytes)]
  | .readLine c =>
      if s.workers (owner c) = .idle then
        match IotClient.rxStep codec (s.connections c).1 (s.connections c).2 with
        | some ⟨_, _, []⟩ => [.inl (.readLine c 0)]
        | _ => []
      else []
  | .work i now =>
      match (s.workers i).commits s.server.toRecordStore with
      | some (c, _) => [.inl (.readLine c now)]
      | none => []
  | .countMetrics =>
      if s.main = .idle ∧ s.server.size = 0 then [.inr (.countMetrics false)] else []
  | .measure => if s.main = .idle then [.inr .measure] else []
  | .incomingConnection => if s.main = .idle then [.inr .incomingConnection] else []
  | .main =>
      if s.main = .trying then [.inr (.countMetrics s.recordLocker.isNone)] else []

/-- `later` has read the line whose report is owed, `earlier` has not. -/
def Lags (owed : Option Report) (earlier later : IotClient × QByteArray) : Prop :=
  match owed with
  | none => earlier = later
  | some report =>
      IotClient.rxStep codec earlier.1 earlier.2 = some ⟨later.1, later.2, [report]⟩

structure Refines (s : ThreadState ι κ) (a : Connections κ × IoTServer) : Prop where
  inv : s.Inv
  owner_eq : ∀ i c report, (s.workers i).owes c = some report → owner c = i
  server_eq : a.2 = s.settled recordsPerTick
  connections_lag : ∀ c, Lags codec ((s.workers (owner c)).owes c) (a.1 c) (s.connections c)

variable {codec memory recordsPerTick owner} {s : ThreadState ι κ} {a : Connections κ × IoTServer}

theorem Lags.append {owed : Option Report} {earlier later : IotClient × QByteArray}
    (hlags : Lags codec owed earlier later) (bytes : QByteArray) :
    Lags codec owed (earlier.1, earlier.2 ++ bytes) (later.1, later.2 ++ bytes) := by
  cases owed with
  | none => exact congrArg (fun connection => (connection.1, connection.2 ++ bytes)) hlags
  | some report => exact (IotClient.rxLoop codec).step_append hlags bytes

theorem refines_arrive (hrefines : Refines codec recordsPerTick owner s a) (c : κ)
    (bytes : QByteArray) :
    Refines codec recordsPerTick owner
      ((machine codec memory recordsPerTick owner).step s (.arrive c bytes)).1
      ((atomic codec memory recordsPerTick).run a [.inl (.arrive c bytes)]) where
  inv := inv_step codec memory recordsPerTick owner hrefines.inv (.arrive c bytes)
  owner_eq := hrefines.owner_eq
  server_eq := hrefines.server_eq
  connections_lag := by
    intro c'
    by_cases hc : c' = c
    · subst hc
      have hlags := (hrefines.connections_lag c').append bytes
      simpa [machine, atomic, Machine.feed, Machine.run, Schedule.connections] using hlags
    · have hlags := hrefines.connections_lag c'
      simpa [machine, atomic, Machine.feed, Machine.run, Schedule.connections, hc] using hlags

theorem emitted_handleLine (client : IotClient) (line : QString) :
    (client.handleLine line).2 = [] ∨ ∃ report, (client.handleLine line).2 = [report] := by
  unfold IotClient.handleLine
  split
  · exact .inl rfl
  · dsimp only
    repeat' split
    all_goals first | exact .inl rfl | exact .inr ⟨_, rfl⟩

theorem emitted_rxStep {client : IotClient} {socket : QByteArray}
    {o : Outcome IotClient UInt8 Report} (hstep : IotClient.rxStep codec client socket = some o) :
    o.emitted = [] ∨ ∃ report, o.emitted = [report] := by
  unfold IotClient.rxStep at hstep
  split at hstep
  · obtain rfl := Option.some.inj hstep
    exact emitted_handleLine _ _
  · cases hstep

theorem atomic_readLine {c : κ} {client : IotClient} {socket : QByteArray}
    (hstep : IotClient.rxStep codec (a.1 c).1 (a.1 c).2 = some ⟨client, socket, []⟩) (now : Nat) :
    (atomic codec memory recordsPerTick).step a (.inl (.readLine c now)) =
      ((Function.update a.1 c (client, socket), a.2), []) := by
  simp [atomic, Machine.feed, Schedule.connections, hstep, Machine.outputs]

theorem atomic_report {c : κ} {client : IotClient} {socket : QByteArray} {report : Report}
    (hstep : IotClient.rxStep codec (a.1 c).1 (a.1 c).2 = some ⟨client, socket, [report]⟩)
    (now : Nat) :
    (atomic codec memory recordsPerTick).step a (.inl (.readLine c now)) =
      ((Function.update a.1 c (client, socket),
        { a.2 with toRecordStore := report.handle memory now a.2.toRecordStore }), []) := by
  simp only [atomic, Machine.feed, Schedule.connections, hstep]
  rfl

/-- A connection of an idle worker reads a line: without a report at once, with one
    when the report takes effect. -/
theorem refines_readLine (hrefines : Refines codec recordsPerTick owner s a) (c : κ) :
    Refines codec recordsPerTick owner
      ((machine codec memory recordsPerTick owner).step s (.readLine c)).1
      ((atomic codec memory recordsPerTick).run a (s.sections codec owner (.readLine c))) := by
  have hinv := inv_step codec memory recordsPerTick owner hrefines.inv (.readLine c)
  by_cases hidle : s.workers (owner c) = .idle
  · have hsame : a.1 c = s.connections c := by
      have hlags := hrefines.connections_lag c
      rwa [hidle] at hlags
    rcases hstep : IotClient.rxStep codec (s.connections c).1 (s.connections c).2 with _ | o
    · simpa [machine, readLine, sections, hidle, hstep] using hrefines
    · obtain ⟨client, socket, emitted⟩ := o
      rcases emitted_rxStep hstep with hnone | ⟨report, hone⟩
      · obtain rfl : emitted = [] := hnone
        have hnext : IotClient.rxStep codec (a.1 c).1 (a.1 c).2 = some ⟨client, socket, []⟩ := by
          rw [hsame, hstep]
        have hworkers : Function.update s.workers (owner c) .idle = s.workers := by
          rw [← hidle, Function.update_eq_self]
        simp only [machine, readLine, sections, hidle, if_true, hstep, WorkerPc.call, hworkers]
          at hinv ⊢
        rw [Machine.run_singleton, atomic_readLine hnext]
        refine ⟨hinv, hrefines.owner_eq, hrefines.server_eq, ?_⟩
        intro c'
        by_cases hc : c' = c
        · subst hc
          simp only [Function.update_self, hidle]
          rfl
        · simpa only [Function.update_of_ne hc] using hrefines.connections_lag c'
      · obtain rfl : emitted = [report] := hone
        simp only [machine, readLine, sections, hidle, if_true, hstep, WorkerPc.call]
          at hinv ⊢
        have hsettled := settled_update_worker recordsPerTick hrefines.inv
          (i := owner c) (hidle ▸ not_false) (.locking c report)
          (Function.update s.connections c (client, socket))
        refine ⟨hinv, ?_, hrefines.server_eq.trans hsettled.symm, ?_⟩
        · intro i c' owed howes
          dsimp only at howes
          by_cases hi : i = owner c
          · subst hi
            rw [Function.update_self, WorkerPc.owes] at howes
            split at howes
            · rename_i hc
              rw [hc]
            · cases howes
          · rw [Function.update_of_ne hi] at howes
            exact hrefines.owner_eq i c' owed howes
        · intro c'
          have hlags := hrefines.connections_lag c'
          dsimp only
          by_cases hc : c' = c
          · subst hc
            simp only [Function.update_self, WorkerPc.owes, if_true]
            rw [Lags, Machine.run_nil, hsame, hstep]
          · rw [Machine.run_nil, Function.update_of_ne hc]
            by_cases howner : owner c' = owner c
            · rw [howner, hidle] at hlags
              rw [howner, Function.update_self, WorkerPc.owes, if_neg (Ne.symm hc)]
              exact hlags
            · rwa [Function.update_of_ne howner]
  · simpa [machine, readLine, sections, hidle] using hrefines

theorem owes_work (s : ThreadState ι κ) (i j : ι) (now : Nat) (c : κ) :
    ((s.work memory i now).workers j).owes c =
      if j = i ∧ ((s.workers i).commits s.server.toRecordStore).isSome then none
      else (s.workers j).owes c := by
  by_cases hj : j = i
  · subst hj
    simp only [work, Function.update_self, true_and]
    rw [WorkerPc.owes_step]
    cases (s.workers j).commits s.server.toRecordStore <;> rfl
  · simp only [work, Function.update_of_ne hj, hj, false_and, if_false]

theorem Refines.owner_eq_work (hrefines : Refines codec recordsPerTick owner s a) (i : ι)
    (now : Nat) (j : ι) (c : κ) (report : Report)
    (howes : ((s.work memory i now).workers j).owes c = some report) : owner c = j := by
  rw [owes_work] at howes
  split at howes
  · cases howes
  · exact hrefines.owner_eq j c report howes

/-- A worker's step is nothing to the atomic server, or it is the whole report. -/
theorem refines_work (hrefines : Refines codec recordsPerTick owner s a) (i : ι) (now : Nat) :
    Refines codec recordsPerTick owner (s.work memory i now)
      ((atomic codec memory recordsPerTick).run a
        (s.sections codec owner (.work i now))) := by
  have hsettled := settled_work recordsPerTick memory hrefines.inv i now
  have hinv := inv_work memory hrefines.inv i now
  rcases hcommits : (s.workers i).commits s.server.toRecordStore with _ | ⟨c, report⟩
  · simp only [sections, hcommits, Machine.run_nil] at hsettled ⊢
    refine ⟨hinv, hrefines.owner_eq_work i now, hrefines.server_eq.trans hsettled.symm, ?_⟩
    intro c
    rw [owes_work, hcommits, Option.isSome_none, if_neg (by simp)]
    exact hrefines.connections_lag c
  · have howes := WorkerPc.owes_of_commits hcommits
    have howner : owner c = i :=
      hrefines.owner_eq i c report ((howes c).trans (if_pos rfl))
    have hstep := hrefines.connections_lag c
    rw [howner, howes c, if_pos rfl] at hstep
    simp only [sections, hcommits] at hsettled ⊢
    rw [Machine.run_singleton, atomic_report hstep]
    refine ⟨hinv, hrefines.owner_eq_work i now, ?_, ?_⟩
    · rw [hsettled, hrefines.server_eq]
    · intro c'
      have hlags := hrefines.connections_lag c'
      change Lags codec _ _ (s.connections c')
      simp only [owes_work, hcommits, Option.isSome_some, and_true]
      by_cases hc : c' = c
      · subst hc
        rw [if_pos howner, Function.update_self]
        rfl
      · rw [Function.update_of_ne hc]
        by_cases hi : owner c' = i
        · rw [hi, howes c', if_neg (Ne.symm hc)] at hlags
          rw [if_pos hi]
          exact hlags
        · rw [if_neg hi]
          exact hlags

/-! ### The slots of the main thread -/

omit [DecidableEq ι] in
theorem Refines.of_server (hrefines : Refines codec recordsPerTick owner s a)
    {next : ThreadState ι κ} (hinv : next.Inv) (hworkers : next.workers = s.workers)
    (hconnections : next.connections = s.connections) {server : IoTServer}
    (hserver : server = next.settled recordsPerTick) :
    Refines codec recordsPerTick owner next (a.1, server) where
  inv := hinv
  owner_eq := hworkers ▸ hrefines.owner_eq
  server_eq := hserver
  connections_lag := by
    rw [hworkers, hconnections]
    exact hrefines.connections_lag

theorem refines_countMetrics (hrefines : Refines codec recordsPerTick owner s a) :
    Refines codec recordsPerTick owner
      ((machine codec memory recordsPerTick owner).step s .countMetrics).1
      ((atomic codec memory recordsPerTick).run a (s.sections codec owner .countMetrics)) := by
  have hinv := inv_step codec memory recordsPerTick owner hrefines.inv .countMetrics
  by_cases hidle : s.main = .idle
  · have hlock := hrefines.inv.recordLocker_ne (hidle ▸ not_false)
    by_cases hsize : s.server.size = 0
    · have hcounted := a.2.countMetrics_of_unlocked recordsPerTick
      simp only [machine, sections, hidle, hsize, ne_eq, not_true_eq_false, and_false, and_self,
        if_true, if_false] at hinv ⊢
      rw [Machine.run_singleton]
      exact hrefines.of_server hinv rfl rfl
        ((congrArg Prod.fst hcounted).trans hrefines.server_eq)
    · simp only [machine, sections, hidle, hsize, ne_eq, not_false_eq_true, and_false, and_self,
        if_true, if_false] at hinv ⊢
      exact hrefines.of_server hinv rfl rfl
        (hrefines.server_eq.trans (settled_update_main recordsPerTick hlock .trying).symm)
  · simpa [machine, sections, hidle] using hrefines

theorem refines_measure (hrefines : Refines codec recordsPerTick owner s a) :
    Refines codec recordsPerTick owner
      ((machine codec memory recordsPerTick owner).step s .measure).1
      ((atomic codec memory recordsPerTick).run a (s.sections codec owner .measure)) := by
  have hinv := inv_step codec memory recordsPerTick owner hrefines.inv .measure
  by_cases hidle : s.main = .idle
  · have hsettled := settled_slot recordsPerTick
      (hrefines.inv.recordLocker_ne (hidle ▸ not_false)) (fun server => server.measure.1)
      (fun _ _ => rfl) fun _ => rfl
    simp only [machine, sections, if_pos hidle] at hinv ⊢
    rw [Machine.run_singleton]
    refine hrefines.of_server hinv rfl rfl (Eq.trans ?_ hsettled.symm)
    rw [← hrefines.server_eq]
    rfl
  · simpa [machine, sections, hidle] using hrefines

theorem refines_incomingConnection (hrefines : Refines codec recordsPerTick owner s a) :
    Refines codec recordsPerTick owner
      ((machine codec memory recordsPerTick owner).step s .incomingConnection).1
      ((atomic codec memory recordsPerTick).run a
        (s.sections codec owner .incomingConnection)) := by
  have hinv := inv_step codec memory recordsPerTick owner hrefines.inv .incomingConnection
  by_cases hidle : s.main = .idle
  · have hsettled := settled_slot recordsPerTick
      (hrefines.inv.recordLocker_ne (hidle ▸ not_false))
      (fun server => server.incomingConnection.1) (fun _ _ => rfl) fun _ => rfl
    simp only [machine, sections, if_pos hidle] at hinv ⊢
    rw [Machine.run_singleton]
    refine hrefines.of_server hinv rfl rfl (Eq.trans ?_ hsettled.symm)
    rw [← hrefines.server_eq]
    rfl
  · simpa [machine, sections, hidle] using hrefines

theorem refines_main (hrefines : Refines codec recordsPerTick owner s a) :
    Refines codec recordsPerTick owner
      ((machine codec memory recordsPerTick owner).step s .main).1
      ((atomic codec memory recordsPerTick).run a (s.sections codec owner .main)) := by
  have hinv := inv_step codec memory recordsPerTick owner hrefines.inv .main
  by_cases hinside : s.main.Inside
  · have hlock := (hrefines.inv.owns .main).mp hinside
    have hsettled := settled_of_main recordsPerTick hrefines.inv (.inr hlock)
    have hnext := MainPc.settle_step recordsPerTick hinside s.recordLocker s.server
    have htrying : s.main ≠ .trying := fun htrying => by
      rw [htrying] at hinside
      exact hinside
    simp only [sections, if_neg htrying]
    refine hrefines.of_server hinv rfl rfl (hrefines.server_eq.trans ?_)
    rw [hsettled, ← hnext.1]
    refine (settled_of_main recordsPerTick hinv ?_).symm
    rcases MainPc.recordLocker_step recordsPerTick s.main s.recordLocker s.server with
      ⟨hsame, -⟩ | ⟨hfree, -, -⟩ | ⟨-, hfree, -⟩
    · exact .inr (hsame.trans hlock)
    · rw [hlock] at hfree
      cases hfree
    · exact .inl hfree
  · have hlock := hrefines.inv.recordLocker_ne hinside
    rcases hmain : s.main with _ | _ | _ | left | _ | _ | _
    · simp only [machine, sections, hmain, MainPc.step, reduceCtorEq, if_false] at hinv ⊢
      exact hrefines.of_server hinv rfl rfl
        (hrefines.server_eq.trans (settled_update_main recordsPerTick hlock .idle).symm)
    · simp only [machine, sections, hmain, MainPc.step, if_true] at hinv ⊢
      rw [Machine.run_singleton]
      rcases hholder : s.recordLocker with _ | holder
      · simp only [hholder] at hinv ⊢
        refine hrefines.of_server hinv rfl rfl ?_
        have hsettled : a.2 = s.server := by rw [hrefines.server_eq, settled, hholder]
        have hsize := hrefines.inv.nonempty (by simp [hmain])
        have hcounted := IoTServer.countMetrics_of_lock recordsPerTick hsize
        rw [hsettled]
        exact congrArg Prod.fst hcounted
      · simp only [hholder] at hinv ⊢
        refine hrefines.of_server hinv rfl rfl ?_
        have hcounted := a.2.countMetrics_of_unlocked recordsPerTick
        have hsettled := settled_update_main recordsPerTick hlock .idle
        rw [hholder] at hsettled
        exact (congrArg Prod.fst hcounted).trans (hrefines.server_eq.trans hsettled.symm)
    · exact absurd (hmain ▸ trivial) hinside
    · exact absurd (hmain ▸ trivial) hinside
    · exact absurd (hmain ▸ trivial) hinside
    · exact absurd (hmain ▸ trivial) hinside
    · simp only [machine, sections, hmain, MainPc.step, reduceCtorEq, if_false] at hinv ⊢
      exact hrefines.of_server hinv rfl rfl
        (hrefines.server_eq.trans (settled_update_main recordsPerTick hlock .idle).symm)

/-! ### What is put out -/

theorem outputs_schedule (a : Connections κ × IoTServer) (event : ScheduleStep κ) :
    ((atomic codec memory recordsPerTick).step a (.inl event)).2 = [] := by
  cases event with
  | arrive c bytes => rfl
  | readLine c now =>
      rcases hstep : IotClient.rxStep codec (a.1 c).1 (a.1 c).2 with _ | ⟨client, socket, emitted⟩
      · simp only [atomic, Machine.feed, Schedule.connections, hstep]
        rfl
      · rcases emitted_rxStep hstep with hnone | ⟨report, hone⟩
        · obtain rfl : emitted = [] := hnone
          rw [atomic_readLine hstep]
        · obtain rfl : emitted = [report] := hone
          rw [atomic_report hstep]

omit [DecidableEq κ] in
theorem pending_work (hinv : s.Inv) (i : ι) (now : Nat) :
    (s.work memory i now).main.pending recordsPerTick (s.work memory i now).server =
      s.main.pending recordsPerTick s.server := by
  by_cases hinside : s.main.Inside
  · rw [work_of_held memory hinv ((hinv.owns .main).mp hinside) nofun]
  · exact MainPc.pending_toRecordStore recordsPerTick hinside s.server _

omit [DecidableEq ι] in
theorem outputs_main (hrefines : Refines codec recordsPerTick owner s a) :
    let next := s.main.step recordsPerTick s.recordLocker s.server
    s.main.pending recordsPerTick s.server ++
        (atomic codec memory recordsPerTick).outputs a (s.sections codec owner .main) =
      next.outputs ++ next.pc.pending recordsPerTick next.server := by
  intro next
  by_cases hinside : s.main.Inside
  · have hnext := MainPc.settle_step recordsPerTick hinside s.recordLocker s.server
    have htrying : s.main ≠ .trying := fun htrying => by
      rw [htrying] at hinside
      exact hinside
    simp only [sections, if_neg htrying, next, hnext.2.1, hnext.2.2]
    exact List.append_nil _
  · rcases hmain : s.main with _ | _ | _ | left | _ | _ | _
    · simp only [next, sections, hmain, reduceCtorEq, if_false]
      rfl
    · simp only [next, sections, hmain, if_true]
      rw [Machine.outputs_singleton]
      rcases hholder : s.recordLocker with _ | holder
      · have hsettled : a.2 = s.server := by rw [hrefines.server_eq, settled, hholder]
        have hsize := hrefines.inv.nonempty (by simp [hmain])
        have hstarting := MainPc.pending_starting recordsPerTick hsize
        simp only [atomic, Machine.feed, IoTServer.machine, hsettled, Option.isNone_none]
        exact hstarting.symm
      · have hcounted := a.2.countMetrics_of_unlocked recordsPerTick
        simp only [atomic, Machine.feed, IoTServer.machine, Option.isNone_some, hcounted]
        rfl
    · exact absurd (hmain ▸ trivial) hinside
    · exact absurd (hmain ▸ trivial) hinside
    · exact absurd (hmain ▸ trivial) hinside
    · exact absurd (hmain ▸ trivial) hinside
    · simp only [next, sections, hmain, reduceCtorEq, if_false]
      rfl

variable (codec memory recordsPerTick owner)

theorem outputs_step (hrefines : Refines codec recordsPerTick owner s a)
    (event : ThreadEvent ι κ) :
    let o := (machine codec memory recordsPerTick owner).step s event
    s.main.pending recordsPerTick s.server ++
        (atomic codec memory recordsPerTick).outputs a (s.sections codec owner event) =
      o.2 ++ o.1.main.pending recordsPerTick o.1.server := by
  intro o
  cases event with
  | arrive c bytes => exact List.append_nil _
  | readLine c =>
      have hmain : o.1.main = s.main ∧ o.1.server = s.server := by
        simp only [o, machine, readLine]
        repeat' split
        all_goals exact ⟨rfl, rfl⟩
      have hnone : (atomic codec memory recordsPerTick).outputs a
          (s.sections codec owner (.readLine c)) = [] := by
        simp only [sections]
        repeat' split
        · exact (Machine.outputs_singleton _ _ _).trans (outputs_schedule a _)
        · rfl
        · rfl
      rw [hnone, hmain.1, hmain.2]
      exact List.append_nil _
  | work i now =>
      have hnone : (atomic codec memory recordsPerTick).outputs a
          (s.sections codec owner (.work i now)) = [] := by
        simp only [sections]
        split
        · exact (Machine.outputs_singleton _ _ _).trans (outputs_schedule a _)
        · rfl
      rw [hnone, List.append_nil]
      exact (pending_work hrefines.inv i now).symm
  | countMetrics =>
      have hcounted := a.2.countMetrics_of_unlocked recordsPerTick
      by_cases hidle : s.main = .idle
      · by_cases hsize : s.server.size = 0
        · simp only [o, machine, sections, hidle, hsize, ne_eq, not_true_eq_false, and_false,
            and_self, if_true, if_false]
          rw [Machine.outputs_singleton]
          simp only [atomic, Machine.feed, IoTServer.machine, hcounted]
          rfl
        · simp only [o, machine, sections, hidle, hsize, ne_eq, not_false_eq_true, and_false,
            and_self, if_true, if_false]
          rfl
      · simp only [o, machine, sections, hidle, false_and, if_false]
        exact List.append_nil _
  | measure =>
      by_cases hidle : s.main = .idle
      · have hsame : a.2.measure.2 = s.server.measure.2 := by
          rw [hrefines.server_eq]
          exact measure_settled recordsPerTick (hrefines.inv.recordLocker_ne (hidle ▸ not_false))
        simp only [o, machine, sections, hidle, if_true]
        rw [Machine.outputs_singleton]
        exact hsame.trans (List.append_nil _).symm
      · simp only [o, machine, sections, hidle, if_false]
        exact List.append_nil _
  | incomingConnection =>
      by_cases hidle : s.main = .idle
      · have hsame : a.2.incomingConnection.2 = s.server.incomingConnection.2 := by
          rw [hrefines.server_eq]
          exact incomingConnection_settled recordsPerTick
            (hrefines.inv.recordLocker_ne (hidle ▸ not_false))
        simp only [o, machine, sections, hidle, if_true]
        rw [Machine.outputs_singleton]
        exact hsame.trans (List.append_nil _).symm
      · simp only [o, machine, sections, hidle, if_false]
        exact List.append_nil _
  | main => exact outputs_main hrefines

theorem refines_step (hrefines : Refines codec recordsPerTick owner s a)
    (event : ThreadEvent ι κ) :
    Refines codec recordsPerTick owner
      ((machine codec memory recordsPerTick owner).step s event).1
      ((atomic codec memory recordsPerTick).run a (s.sections codec owner event)) := by
  cases event with
  | arrive c bytes => exact refines_arrive hrefines c bytes
  | readLine c => exact refines_readLine hrefines c
  | work i now => exact refines_work hrefines i now
  | countMetrics => exact refines_countMetrics hrefines
  | measure => exact refines_measure hrefines
  | incomingConnection => exact refines_incomingConnection hrefines
  | main => exact refines_main hrefines

/-- **The threads simulate the atomic server.** -/
def simulation : Machine.Simulation (machine codec memory recordsPerTick owner)
    (atomic codec memory recordsPerTick : Machine (Connections κ × IoTServer) _ _) where
  Rel := Refines codec recordsPerTick owner
  pending s := s.main.pending recordsPerTick s.server
  matched s event := s.sections codec owner event
  rel_step event hrefines := refines_step codec memory recordsPerTick owner hrefines event
  outputs_step event hrefines := outputs_step codec memory recordsPerTick owner hrefines event

omit [DecidableEq ι] in
theorem refines_init (serves : BitVec 32) :
    Refines codec recordsPerTick owner (init serves : ThreadState ι κ)
      (Schedule.init, IoTServer.init serves) where
  inv := inv_init serves
  owner_eq i c report howes := by cases howes
  server_eq := rfl
  connections_lag c := rfl

end ThreadState

end IoTTracker
