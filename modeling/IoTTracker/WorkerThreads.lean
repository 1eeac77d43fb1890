import IoTTracker.ScheduleIndependence
import IoTTracker.Mutex

/-!
# The threads of the server

The main thread runs the slots of the server one after another, each worker the
slots of its own connections. Here every statement that reads or writes what the
threads share is a step of its own, and the threads take steps in any order:
`reportBoot` and `report24hrs` are a walk through `WorkerPc`, `countMetrics` is one
through `MainPc`. `records.isEmpty()` and `records.size()` are read without the
lock, everything else that workers write is used under it.
-/

namespace IoTTracker

inductive ThreadId (ι : Type*) where
  | main
  | worker (i : ι)
deriving DecidableEq, Repr

/-- Where a worker stands in a call of `reportBoot` or `report24hrs` that `rx` of
    connection `c` makes. -/
inductive WorkerPc (κ : Type*) where
  | idle
  | locking (c : κ) (report : Report)
  | searching (c : κ) (report : Report)
  | inserting (c : κ) (report : Report)
  | appending (report : Report) (record : RecordPtr)
  | updating (report : Report) (record : RecordPtr)
  | versioning (report : Report) (record : RecordPtr)
  | unlocking
deriving DecidableEq, Repr

/-- Where the main thread stands in `countMetrics`. -/
inductive MainPc where
  | idle
  | trying
  | starting
  | counting (left : Nat)
  | ending
  | unlocking
  | reporting
deriving DecidableEq, Repr

namespace Report

/-- `record->totalBoots++` of `reportBoot`, `record->checkIn = true` of
    `report24hrs`. -/
def mark (report : Report) (record : Record) : Record :=
  match report.kind with
  | .boot => { record with totalBoots := record.totalBoots + 1 }
  | .hrs24 => { record with checkIn := 1 }

def setVersion (report : Report) (record : Record) : Record :=
  { record with version := report.version }

theorem setVersion_mark (report : Report) (record : Record) :
    report.setVersion (report.mark record) = report.update record := by
  cases hkind : report.kind <;> simp only [mark, update, setVersion, hkind]

end Report

namespace RecordStore

def assign (store : RecordStore) (record : RecordPtr) (change : Record → Record) :
    RecordStore :=
  { store with heap := store.heap.modify record change }

theorem assign_assign (store : RecordStore) (record : RecordPtr) (first second : Record → Record) :
    (store.assign record first).assign record second =
      store.assign record fun value => second (first value) := by
  simp only [assign, List.modify_modify_eq]
  rfl

end RecordStore

/-! ### The steps of a worker -/

namespace WorkerPc

variable {ι κ : Type*}

/-- Inside the scope of `QMutexLocker lock(&server.recordLocker)`. -/
def Inside : WorkerPc κ → Prop
  | .idle | .locking _ _ => False
  | _ => True

/-- The call of `rx` goes on with the report its line made, if any. -/
def call (c : κ) : List Report → WorkerPc κ
  | [] => .idle
  | report :: _ => .locking c report

/-- What a thread leaves behind: its program counter, the lock and the store. -/
structure Next (ι κ : Type*) where
  pc : WorkerPc κ
  recordLocker : Option (ThreadId ι)
  store : RecordStore

variable (memory : Memory) (now : Nat) (i : ι)

/-- The next statement of worker `i`. It waits while another thread has the lock. -/
def step (pc : WorkerPc κ) (recordLocker : Option (ThreadId ι)) (store : RecordStore) :
    Next ι κ :=
  match pc with
  | .idle => ⟨.idle, recordLocker, store⟩
  | .locking c report =>
      match recordLocker with
      | none => ⟨.searching c report, some (.worker i), store⟩
      | some holder => ⟨.locking c report, some holder, store⟩
  | .searching c report =>
      match store.records.lookup (idNumber report.id) with
      | none => ⟨.inserting c report, recordLocker, store⟩
      | some record => ⟨.updating report record, recordLocker, store⟩
  | .inserting _ report =>
      let record := store.heap.length
      ⟨.appending report record, recordLocker,
        { store with
          heap := store.heap ++ [report.create memory now record]
          records := store.records.insert (idNumber report.id) record }⟩
  | .appending report record =>
      ⟨.updating report record, recordLocker,
        { store with recordList := store.recordList ++ [record] }⟩
  | .updating report record =>
      ⟨.versioning report record, recordLocker, store.assign record report.mark⟩
  | .versioning report record =>
      ⟨.unlocking, recordLocker, store.assign record report.setVersion⟩
  | .unlocking => ⟨.idle, none, store⟩

end WorkerPc

/-! ### The steps of the main thread -/

namespace MainPc

variable {ι : Type*}

/-- Between a successful `tryLock` and `unlock`. -/
def Inside : MainPc → Prop
  | .starting | .counting _ | .ending | .unlocking => True
  | _ => False

structure Next (ι : Type*) where
  pc : MainPc
  recordLocker : Option (ThreadId ι)
  server : IoTServer
  outputs : List ServerOutput

/-- The next statement of `countMetrics`. `counting left` is the head of its loop,
    with `left` iterations allowed. -/
def step (recordsPerTick : Nat) (pc : MainPc) (recordLocker : Option (ThreadId ι))
    (server : IoTServer) : Next ι :=
  match pc with
  | .idle => ⟨.idle, recordLocker, server, []⟩
  | .trying =>
      match recordLocker with
      | none => ⟨.starting, some .main, server, []⟩
      | some holder => ⟨.idle, some holder, server, []⟩
  | .starting => ⟨.counting recordsPerTick, recordLocker, server.beginPass, []⟩
  | .counting 0 => ⟨.ending, recordLocker, server, []⟩
  | .counting (left + 1) =>
      match server.recIterator.deref server.recordList with
      | none => ⟨.ending, recordLocker, server, []⟩
      | some record => ⟨.counting left, recordLocker, server.countRecord record, []⟩
  | .ending => ⟨.unlocking, recordLocker, server.endPass, []⟩
  | .unlocking => ⟨.reporting, none, server, []⟩
  | .reporting =>
      ⟨.idle, recordLocker, server,
        if server.countMetricsStart then [.buildJsonDoc server.models server.versions] else []⟩

end MainPc

/-! ### All threads together -/

structure ThreadState (ι κ : Type*) where
  server : IoTServer
  recordLocker : Option (ThreadId ι)
  main : MainPc
  workers : ι → WorkerPc κ
  connections : Connections κ

/-- Bytes arrive, `rx` of a connection takes a line, a worker takes its next step;
    a timeout or a connection calls a slot of the main thread, or that thread takes
    the next step of the slot it is in. -/
inductive ThreadEvent (ι κ : Type*) where
  | arrive (c : κ) (bytes : QByteArray)
  | readLine (c : κ)
  | work (i : ι) (now : Nat)
  | countMetrics
  | measure
  | incomingConnection
  | main
deriving DecidableEq, Repr

namespace ThreadState

variable {ι κ : Type*} [DecidableEq ι] [DecidableEq κ]

def init (serves : BitVec 32) : ThreadState ι κ :=
  { server := IoTServer.init serves
    recordLocker := none
    main := .idle
    workers := fun _ => .idle
    connections := Schedule.init }

variable (codec : TextCodec) (memory : Memory) (recordsPerTick : Nat) (owner : κ → ι)

def readLine (c : κ) (s : ThreadState ι κ) : ThreadState ι κ :=
  if s.workers (owner c) = .idle then
    match IotClient.rxStep codec (s.connections c).1 (s.connections c).2 with
    | none => s
    | some o =>
        { s with
          connections := Function.update s.connections c (o.state, o.buffer)
          workers := Function.update s.workers (owner c) (.call c o.emitted) }
  else s

def work (i : ι) (now : Nat) (s : ThreadState ι κ) : ThreadState ι κ :=
  let next := (s.workers i).step memory now i s.recordLocker s.server.toRecordStore
  { s with
    server := { s.server with toRecordStore := next.store }
    recordLocker := next.recordLocker
    workers := Function.update s.workers i next.pc }

/-- A thread's turn when it cannot go on changes nothing. The connections of a
    worker take turns line by line; `rx` itself takes all its lines in one go. -/
def machine : Machine (ThreadState ι κ) (ThreadEvent ι κ) ServerOutput where
  step s event :=
    match event with
    | .arrive c bytes =>
        let connection := s.connections c
        ({ s with connections :=
            Function.update s.connections c (connection.1, connection.2 ++ bytes) }, [])
    | .readLine c => (s.readLine codec owner c, [])
    | .work i now => (s.work memory i now, [])
    | .countMetrics =>
        if s.main = .idle ∧ s.server.size ≠ 0 then ({ s with main := .trying }, []) else (s, [])
    | .measure =>
        if s.main = .idle then
          ({ s with server := s.server.measure.1 }, s.server.measure.2)
        else (s, [])
    | .incomingConnection =>
        if s.main = .idle then
          ({ s with server := s.server.incomingConnection.1 }, s.server.incomingConnection.2)
        else (s, [])
    | .main =>
        let next := s.main.step recordsPerTick s.recordLocker s.server
        ({ s with
            server := next.server, recordLocker := next.recordLocker, main := next.pc },
          next.outputs)

end ThreadState

/-! ### What a step does to the lock and to the hash -/

namespace WorkerPc

variable {ι κ : Type*} {pc : WorkerPc κ} {store : RecordStore}

/-- A record that is about to be inserted is not there. -/
def Absent (pc : WorkerPc κ) (store : RecordStore) : Prop :=
  ∀ c report, pc = .inserting c report → store.records.lookup (idNumber report.id) = none

variable (memory : Memory) (now : Nat) (i : ι) (recordLocker : Option (ThreadId ι))

/-- A step keeps the lock as it is, takes it when it is free, or gives it back. -/
theorem recordLocker_step (pc : WorkerPc κ) (store : RecordStore) :
    let next := pc.step memory now i recordLocker store
    (next.recordLocker = recordLocker ∧ (next.pc.Inside ↔ pc.Inside)) ∨
      (recordLocker = none ∧ next.recordLocker = some (.worker i) ∧ next.pc.Inside) ∨
      (pc.Inside ∧ next.recordLocker = none ∧ ¬ next.pc.Inside) := by
  cases pc with
  | locking c report =>
      cases recordLocker with
      | none => exact .inr (.inl ⟨rfl, rfl, trivial⟩)
      | some holder => exact .inl ⟨rfl, Iff.rfl⟩
  | searching c report =>
      left
      unfold step
      dsimp only
      split <;> exact ⟨rfl, Iff.rfl⟩
  | unlocking => exact .inr (.inr ⟨trivial, rfl, not_false⟩)
  | idle => exact .inl ⟨rfl, Iff.rfl⟩
  | inserting c report => exact .inl ⟨rfl, Iff.rfl⟩
  | appending report record => exact .inl ⟨rfl, Iff.rfl⟩
  | updating report record => exact .inl ⟨rfl, Iff.rfl⟩
  | versioning report record => exact .inl ⟨rfl, Iff.rfl⟩

/-- A worker outside its section waits for the lock as long as another has it. -/
theorem step_of_held (hpc : ¬ pc.Inside) (holder : ThreadId ι) (store : RecordStore) :
    pc.step memory now i (some holder) store = ⟨pc, some holder, store⟩ := by
  cases pc <;> first | rfl | exact absurd trivial hpc

theorem absent_step (pc : WorkerPc κ) (store : RecordStore) :
    (pc.step memory now i recordLocker store).pc.Absent
      (pc.step memory now i recordLocker store).store := by
  intro c report hinserting
  cases pc with
  | searching c' report' =>
      rcases hknown : store.records.lookup (idNumber report'.id) with _ | record
      · simp only [step, hknown] at hinserting ⊢
        obtain ⟨rfl, rfl⟩ := WorkerPc.inserting.inj hinserting
        exact hknown
      · simp only [step, hknown] at hinserting
        cases hinserting
  | locking c' report' => cases recordLocker <;> cases hinserting
  | idle => cases hinserting
  | inserting c' report' => cases hinserting
  | appending report' record => cases hinserting
  | updating report' record => cases hinserting
  | versioning report' record => cases hinserting
  | unlocking => cases hinserting

theorem size_step (habsent : pc.Absent store) (hsize : store.size ≠ 0) :
    (pc.step memory now i recordLocker store).store.size ≠ 0 := by
  cases pc with
  | inserting c report =>
      have hnew := Finmap.lookup_eq_none.mp (habsent c report rfl)
      simp [step, RecordStore.size, Finmap.entries_insert_of_notMem hnew]
  | locking c report => cases recordLocker <;> exact hsize
  | searching c report =>
      unfold step
      dsimp only
      split <;> exact hsize
  | idle => exact hsize
  | appending report record => exact hsize
  | updating report record => exact hsize
  | versioning report record => exact hsize
  | unlocking => exact hsize

end WorkerPc

namespace MainPc

variable {ι : Type*} (recordsPerTick : Nat) (pc : MainPc) (recordLocker : Option (ThreadId ι))
  (server : IoTServer)

theorem recordLocker_step :
    let next := pc.step recordsPerTick recordLocker server
    (next.recordLocker = recordLocker ∧ (next.pc.Inside ↔ pc.Inside)) ∨
      (recordLocker = none ∧ next.recordLocker = some .main ∧ next.pc.Inside) ∨
      (pc.Inside ∧ next.recordLocker = none ∧ ¬ next.pc.Inside) := by
  cases pc with
  | trying =>
      cases recordLocker with
      | none => exact .inr (.inl ⟨rfl, rfl, trivial⟩)
      | some holder => exact .inl ⟨rfl, Iff.rfl⟩
  | counting left =>
      left
      cases left with
      | zero => exact ⟨rfl, Iff.rfl⟩
      | succ left =>
          unfold step
          dsimp only
          split <;> exact ⟨rfl, Iff.rfl⟩
  | unlocking => exact .inr (.inr ⟨trivial, rfl, not_false⟩)
  | idle => exact .inl ⟨rfl, Iff.rfl⟩
  | starting => exact .inl ⟨rfl, Iff.rfl⟩
  | ending => exact .inl ⟨rfl, Iff.rfl⟩
  | reporting => exact .inl ⟨rfl, Iff.rfl⟩

/-- Only the end of `countMetrics` puts something out. -/
theorem pc_of_outputs_ne_nil
    (houtputs : (pc.step recordsPerTick recordLocker server).outputs ≠ []) :
    (pc.step recordsPerTick recordLocker server).pc = .idle := by
  cases pc with
  | reporting => rfl
  | trying => exact absurd (by cases recordLocker <;> rfl) houtputs
  | counting left =>
      refine absurd ?_ houtputs
      cases left with
      | zero => rfl
      | succ left =>
          unfold step
          dsimp only
          split <;> rfl
  | starting => exact absurd rfl houtputs
  | ending => exact absurd rfl houtputs
  | idle => exact absurd rfl houtputs
  | unlocking => exact absurd rfl houtputs

/-- The main thread does not write to the store. -/
theorem toRecordStore_step :
    (pc.step recordsPerTick recordLocker server).server.toRecordStore =
      server.toRecordStore := by
  cases pc with
  | trying => cases recordLocker <;> rfl
  | counting left =>
      cases left with
      | zero => rfl
      | succ left =>
          unfold step
          dsimp only
          split <;> rfl
  | starting => exact IoTServer.toRecordStore_beginPass server
  | ending => exact IoTServer.toRecordStore_endPass server
  | idle => rfl
  | unlocking => rfl
  | reporting => rfl

end MainPc

/-! ### The invariant of the threads -/

namespace ThreadState

variable {ι κ : Type*}

def Inside (s : ThreadState ι κ) : ThreadId ι → Prop
  | .main => s.main.Inside
  | .worker i => (s.workers i).Inside

/-- The lock is held by the thread inside its section. A record about to be
    inserted is not in the hash, and a tick has found the hash not empty. -/
structure Inv (s : ThreadState ι κ) : Prop where
  owns : Mutex.Owns s.Inside s.recordLocker
  absent : ∀ i, (s.workers i).Absent s.server.toRecordStore
  nonempty : s.main ≠ .idle → s.server.size ≠ 0

theorem inv_init (serves : BitVec 32) : (init serves : ThreadState ι κ).Inv where
  owns := Mutex.owns_none_iff.mpr fun t => by cases t <;> exact not_false
  absent i c report hinserting := by cases hinserting
  nonempty hmain := absurd rfl hmain

variable {s : ThreadState ι κ}

theorem Inv.recordLocker_eq_none (hinv : s.Inv) (hmain : ¬ s.main.Inside)
    (hworkers : ∀ i, s.workers i = .idle) : s.recordLocker = none := by
  refine hinv.owns.eq_none fun t => ?_
  cases t with
  | main => exact hmain
  | worker i =>
      change ¬ (s.workers i).Inside
      rw [hworkers i]
      exact not_false

theorem Inv.not_inside_worker (hinv : s.Inv) {holder : ThreadId ι} {i : ι}
    (hholder : s.recordLocker = some holder) (hother : holder ≠ .worker i) :
    ¬ (s.workers i).Inside := by
  intro hinside
  have hlocker := (hinv.owns (.worker i)).mp hinside
  rw [hholder] at hlocker
  exact hother (Option.some.inj hlocker)

theorem Inv.update_main (hinv : s.Inv) (hbefore : ¬ s.main.Inside) {pc : MainPc}
    (hafter : ¬ pc.Inside) {server : IoTServer}
    (hstore : server.toRecordStore = s.server.toRecordStore)
    (hsize : pc ≠ .idle → s.server.size ≠ 0) :
    Inv { s with server := server, main := pc } where
  owns := by
    refine hinv.owns.keep (t := .main) (iff_of_false hafter hbefore) ?_
    rintro (_ | j) ht
    · exact absurd rfl ht
    · exact Iff.rfl
  absent i := hstore ▸ hinv.absent i
  nonempty hmain := hstore ▸ hsize hmain

theorem inv_main (recordsPerTick : Nat) (hinv : s.Inv) :
    let next := s.main.step recordsPerTick s.recordLocker s.server
    Inv { s with
      server := next.server, recordLocker := next.recordLocker, main := next.pc } := by
  intro next
  have hstore : next.server.toRecordStore = s.server.toRecordStore :=
    MainPc.toRecordStore_step recordsPerTick s.main s.recordLocker s.server
  have hothers : ∀ t : ThreadId ι, t ≠ .main →
      (Inside { s with
        server := next.server, recordLocker := next.recordLocker, main := next.pc } t ↔
        s.Inside t) := by
    rintro (_ | j) ht
    · exact absurd rfl ht
    · exact Iff.rfl
  refine ⟨?_, fun i => hstore ▸ hinv.absent i, ?_⟩
  · rcases MainPc.recordLocker_step recordsPerTick s.main s.recordLocker s.server with
      ⟨hlock, hpc⟩ | ⟨hfree, hlock, hpc⟩ | ⟨hinside, hlock, hpc⟩
    · exact hlock.symm ▸ hinv.owns.keep (t := .main) hpc hothers
    · exact hlock.symm ▸ (hfree ▸ hinv.owns).acquire (t := ThreadId.main) hpc hothers
    · exact hlock.symm ▸ ((hinv.owns .main).mp hinside ▸ hinv.owns).release (t := .main) hpc
        hothers
  · intro hmain
    rw [hstore]
    apply hinv.nonempty
    rintro hidle
    apply hmain
    simp only [next, hidle, MainPc.step]

variable [DecidableEq ι]

theorem work_of_held (memory : Memory) (hinv : s.Inv) {holder : ThreadId ι} {i : ι}
    (hholder : s.recordLocker = some holder) (hother : holder ≠ .worker i) (now : Nat) :
    s.work memory i now = s := by
  have hstep := WorkerPc.step_of_held memory now i (hinv.not_inside_worker hholder hother)
    holder s.server.toRecordStore
  unfold work
  rw [hholder, hstep]
  simp only [Function.update_eq_self, ← hholder]

theorem inv_work (memory : Memory) (hinv : s.Inv) (i : ι) (now : Nat) :
    (s.work memory i now).Inv := by
  have hothers : ∀ t, t ≠ .worker i → ((s.work memory i now).Inside t ↔ s.Inside t) := by
    rintro (_ | j) ht
    · exact Iff.rfl
    · have hj : j ≠ i := fun hj => ht (congrArg ThreadId.worker hj)
      simp only [Inside, work, Function.update_of_ne hj]
  have hself : (s.work memory i now).Inside (.worker i) ↔
      ((s.workers i).step memory now i s.recordLocker s.server.toRecordStore).pc.Inside := by
    simp only [Inside, work, Function.update_self]
  refine ⟨?_, ?_, fun hmain => WorkerPc.size_step memory now i _ (hinv.absent i)
    (hinv.nonempty hmain)⟩
  · have howns := hinv.owns
    rcases WorkerPc.recordLocker_step memory now i s.recordLocker (s.workers i)
      s.server.toRecordStore with ⟨hlock, hpc⟩ | ⟨hfree, hlock, hpc⟩ | ⟨hinside, hlock, hpc⟩
    · change Mutex.Owns _ (WorkerPc.Next.recordLocker _)
      rw [hlock]
      exact howns.keep (hself.trans hpc) hothers
    · change Mutex.Owns _ (WorkerPc.Next.recordLocker _)
      rw [hlock]
      exact (hfree ▸ howns).acquire (hself.mpr hpc) hothers
    · change Mutex.Owns _ (WorkerPc.Next.recordLocker _)
      rw [hlock]
      exact ((howns (.worker i)).mp hinside ▸ howns).release (fun h => hpc (hself.mp h)) hothers
  · intro j
    by_cases hj : j = i
    · subst hj
      simp only [work, Function.update_self]
      exact WorkerPc.absent_step memory now j s.recordLocker _ _
    · intro c report hinserting
      -- another worker about to insert has the lock, so nothing has changed
      simp only [work, Function.update_of_ne hj] at hinserting
      have hinside : s.Inside (.worker j) := by
        simp only [Inside, hinserting, WorkerPc.Inside]
      have hholder := (hinv.owns (.worker j)).mp hinside
      rw [work_of_held memory hinv hholder (fun h => hj (ThreadId.worker.inj h))]
      exact hinv.absent j c report hinserting

/-- A worker that stands outside its section may go anywhere else outside it. -/
theorem Inv.update_worker (hinv : s.Inv) {i : ι} (hbefore : ¬ (s.workers i).Inside)
    {pc : WorkerPc κ} (hafter : ¬ pc.Inside) (connections : Connections κ) :
    Inv { s with workers := Function.update s.workers i pc, connections := connections } where
  owns := by
    refine hinv.owns.keep (t := .worker i) ?_ ?_
    · simp only [Inside, Function.update_self]
      exact iff_of_false hafter hbefore
    · rintro (_ | j) ht
      · exact Iff.rfl
      · have hj : j ≠ i := fun hj => ht (congrArg ThreadId.worker hj)
        simp only [Inside, Function.update_of_ne hj]
  absent := by
    intro j c report hinserting
    by_cases hj : j = i
    · subst hj
      simp only [Function.update_self] at hinserting
      exact absurd (hinserting ▸ trivial) hafter
    · simp only [Function.update_of_ne hj] at hinserting
      exact hinv.absent j c report hinserting
  nonempty := hinv.nonempty

variable [DecidableEq κ] (codec : TextCodec) (memory : Memory) (recordsPerTick : Nat)
  (owner : κ → ι)

theorem inv_step (hinv : s.Inv) (event : ThreadEvent ι κ) :
    ((machine codec memory recordsPerTick owner).step s event).1.Inv := by
  have hmain : s.main = .idle → ¬ s.main.Inside := fun hidle => hidle ▸ not_false
  cases event with
  | arrive c bytes => exact ⟨hinv.owns, hinv.absent, hinv.nonempty⟩
  | readLine c =>
      change (s.readLine codec owner c).Inv
      unfold readLine
      split
      · rename_i hidle
        split
        · exact hinv
        · rename_i o _
          refine hinv.update_worker (hidle ▸ not_false) ?_ _
          cases o.emitted <;> exact not_false
      · exact hinv
  | work i now => exact inv_work memory hinv i now
  | countMetrics =>
      unfold machine
      dsimp only
      split
      · rename_i hcalled
        have htrying : ¬ MainPc.trying.Inside := not_false
        exact hinv.update_main (hmain hcalled.1) htrying rfl fun _ => hcalled.2
      · exact hinv
  | measure =>
      unfold machine
      dsimp only
      split
      · rename_i hidle
        exact hinv.update_main (hmain hidle) (hmain hidle) rfl hinv.nonempty
      · exact hinv
  | incomingConnection =>
      unfold machine
      dsimp only
      split
      · rename_i hidle
        exact hinv.update_main (hmain hidle) (hmain hidle) rfl hinv.nonempty
      · exact hinv
  | main => exact inv_main recordsPerTick hinv

theorem inv_run (serves : BitVec 32) (events : List (ThreadEvent ι κ)) :
    ((machine codec memory recordsPerTick owner).run (init serves) events).Inv :=
  (machine codec memory recordsPerTick owner).run_induction
    (P := fun s => s.Inv)
    (fun _ event hinv => inv_step codec memory recordsPerTick owner hinv event)
    (inv_init serves) events

end ThreadState

end IoTTracker
