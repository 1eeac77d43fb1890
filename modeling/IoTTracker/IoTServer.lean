import IoTTracker.RecordStore
import IoTTracker.Histogram
import IoTTracker.Machine

/-!
# The IoT server

The main thread of the server accepts connections, reports their rate once a
second and counts the metrics of all records a few at a time. The worker threads
write to the record store under `recordLocker`. Every locked section and every
slot of the main thread is one atomic step of `IoTServer.machine`; its runs are
all interleavings of them.
-/

namespace IoTTracker

def recordsPerPeriodicTick : Nat := 100

def threads : SizeT := 2

abbrev QMap := Finmap fun _ : QString => SizeT

/-- A `QLinkedList` iterator. A node keeps its position as the list grows at its
    end; `end()` is the sentinel after the last node, wherever that is. -/
inductive ListIterator where
  | unset
  | node (position : Nat)
  | sentinel
deriving DecidableEq, Repr

namespace ListIterator

variable {α : Type*}

def atPosition (list : List α) (position : Nat) : ListIterator :=
  if position < list.length then .node position else .sentinel

def first (list : List α) : ListIterator := atPosition list 0

/-- `*it`, defined on nodes only -/
def deref (list : List α) : ListIterator → Option α
  | .node position => list[position]?
  | _ => none

def next (list : List α) : ListIterator → ListIterator
  | .node position => atPosition list (position + 1)
  | it => it

theorem deref_atPosition (list : List α) (position : Nat) :
    (atPosition list position).deref list = list[position]? := by
  unfold atPosition
  split
  · rfl
  · rename_i hend
    exact (List.getElem?_eq_none (Nat.le_of_not_lt hend)).symm

theorem mem_of_deref {list : List α} {it : ListIterator} {item : α}
    (hitem : it.deref list = some item) : item ∈ list := by
  cases it with
  | unset => cases hitem
  | node position => exact List.mem_of_getElem? hitem
  | sentinel => cases hitem

theorem next_atPosition {list : List α} {position : Nat} (hlt : position < list.length) :
    (atPosition list position).next list = atPosition list (position + 1) := by
  simp [atPosition, next, hlt]

theorem atPosition_eq_sentinel_iff {list : List α} {position : Nat} :
    atPosition list position = .sentinel ↔ list.length ≤ position := by
  unfold atPosition
  split
  · simp only [reduceCtorEq, false_iff]
    omega
  · simp only [true_iff]
    omega

end ListIterator

structure IoTServer extends RecordStore where
  dispatchId : SizeT
  serves : BitVec 32
  versions : QMap
  models : QMap
  recIterator : ListIterator
  countMetricsStart : Bool

inductive ServerOutput where
  | updateClientsCPS (cps totalDevices : Int)
  | buildJsonDoc (models versions : QMap)
  | newConnection (worker : SizeT)

/-- One locked section of a worker, or one slot of the main thread. `lock` tells
    whether `tryLock` succeeded. -/
inductive ServerEvent where
  | report (report : Report) (now : Nat)
  | countMetrics (lock : Bool)
  | measure
  | incomingConnection
deriving DecidableEq, Repr

namespace IoTServer

/-- The constructor sets `dispatchId` and `countMetricsStart`; `serves` is left
    as it was in memory. -/
def init (serves : BitVec 32) : IoTServer :=
  { RecordStore.empty with
    dispatchId := 0
    serves := serves
    versions := ∅
    models := ∅
    recIterator := .unset
    countMetricsStart := true }

def measure (server : IoTServer) : IoTServer × List ServerOutput :=
  ({ server with serves := 0 }, [.updateClientsCPS server.serves.toInt server.size])

def incomingConnection (server : IoTServer) : IoTServer × List ServerOutput :=
  let dispatchId := server.dispatchId + 1
  ({ server with
      serves := server.serves + 1
      dispatchId := if threads ≤ dispatchId then 0 else dispatchId },
    [.newConnection server.dispatchId])

/-! ### `IoTServer::countMetrics` -/

def countRecord (server : IoTServer) (record : RecordPtr) : IoTServer :=
  { server with
    models := Histogram.count server.models (server.deref record).model
    versions := Histogram.count server.versions (server.deref record).version
    recIterator := server.recIterator.next server.recordList }

def countRecords : Nat → IoTServer → IoTServer
  | 0, server => server
  | count + 1, server =>
      match server.recIterator.deref server.recordList with
      | none => server
      | some record => countRecords count (server.countRecord record)

def beginPass (server : IoTServer) : IoTServer :=
  if server.countMetricsStart then
    { server with
      countMetricsStart := false
      models := ∅
      versions := ∅
      recIterator := .first server.recordList }
  else server

def endPass (server : IoTServer) : IoTServer :=
  if server.recIterator = .sentinel then { server with countMetricsStart := true }
  else server

/-- `IoTServer::countMetrics`, for any number of records in a tick, with the maps
    it hands to `buildJsonDoc` when a pass completes. -/
def countMetrics (recordsPerTick : Nat) (lock : Bool) (server : IoTServer) :
    IoTServer × Option (QMap × QMap) :=
  if server.size = 0 then (server, none)
  else if lock = false then (server, none)
  else
    let server := (server.beginPass.countRecords recordsPerTick).endPass
    (server, if server.countMetricsStart then some (server.models, server.versions) else none)

/-- The server as a machine; the real one counts `recordsPerPeriodicTick` records
    in a tick. -/
def machine (memory : Memory) (recordsPerTick : Nat) :
    Machine IoTServer ServerEvent ServerOutput where
  step server event :=
    match event with
    | .report report now =>
        ({ server with toRecordStore := report.handle memory now server.toRecordStore }, [])
    | .countMetrics lock =>
        let counted := server.countMetrics recordsPerTick lock
        (counted.1, (counted.2.map fun maps => .buildJsonDoc maps.1 maps.2).toList)
    | .measure => server.measure
    | .incomingConnection => server.incomingConnection

/-! ### The two cases of a tick -/

variable {server : IoTServer}

theorem countMetrics_of_idle (recordsPerTick : Nat) {lock : Bool}
    (hidle : server.size = 0 ∨ lock = false) :
    server.countMetrics recordsPerTick lock = (server, none) := by
  unfold countMetrics
  rcases hidle with hsize | hlock
  · rw [if_pos hsize]
  · rw [if_pos hlock, ite_self]

theorem countMetrics_of_lock (recordsPerTick : Nat) (hsize : server.size ≠ 0) :
    server.countMetrics recordsPerTick true =
      let counted := (server.beginPass.countRecords recordsPerTick).endPass
      (counted, if counted.countMetricsStart then some (counted.models, counted.versions)
        else none) := by
  simp only [countMetrics, if_neg hsize, Bool.true_eq_false, if_false]

theorem idle_or_lock (server : IoTServer) (lock : Bool) :
    (server.size = 0 ∨ lock = false) ∨ (server.size ≠ 0 ∧ lock = true) := by
  by_cases hsize : server.size = 0
  · exact .inl (.inl hsize)
  · cases lock with
    | false => exact .inl (.inr rfl)
    | true => exact .inr ⟨hsize, rfl⟩

/-! ### What a tick leaves alone -/

theorem beginPass_frame (server : IoTServer) :
    ∃ models versions recIterator countMetricsStart, server.beginPass =
      { server with
        models := models
        versions := versions
        recIterator := recIterator
        countMetricsStart := countMetricsStart } := by
  unfold beginPass
  split
  · exact ⟨_, _, _, _, rfl⟩
  · exact ⟨server.models, server.versions, server.recIterator, server.countMetricsStart, rfl⟩

/-- The loop writes the maps and the iterator only. -/
theorem countRecords_frame (count : Nat) (server : IoTServer) :
    ∃ models versions recIterator, server.countRecords count =
      { server with models := models, versions := versions, recIterator := recIterator } := by
  induction count generalizing server with
  | zero => exact ⟨server.models, server.versions, server.recIterator, rfl⟩
  | succ count ih =>
      rw [countRecords]
      rcases server.recIterator.deref server.recordList with _ | record
      · exact ⟨server.models, server.versions, server.recIterator, rfl⟩
      · exact ih (server.countRecord record)

theorem endPass_frame (server : IoTServer) :
    ∃ countMetricsStart,
      server.endPass = { server with countMetricsStart := countMetricsStart } := by
  unfold endPass
  split
  · exact ⟨true, rfl⟩
  · exact ⟨server.countMetricsStart, rfl⟩

/-- **Frame of a tick.** It writes the maps, the iterator and the start mark only. -/
theorem countMetrics_frame (recordsPerTick : Nat) (lock : Bool) (server : IoTServer) :
    ∃ models versions recIterator countMetricsStart,
      (server.countMetrics recordsPerTick lock).1 =
        { server with
          models := models
          versions := versions
          recIterator := recIterator
          countMetricsStart := countMetricsStart } := by
  rcases server.idle_or_lock lock with hidle | ⟨hsize, rfl⟩
  · rw [countMetrics_of_idle recordsPerTick hidle]
    exact ⟨server.models, server.versions, server.recIterator, server.countMetricsStart, rfl⟩
  · obtain ⟨_, _, _, _, hbegin⟩ := server.beginPass_frame
    obtain ⟨_, _, _, hcounted⟩ := countRecords_frame recordsPerTick server.beginPass
    obtain ⟨_, hend⟩ := (server.beginPass.countRecords recordsPerTick).endPass_frame
    rw [countMetrics_of_lock recordsPerTick hsize]
    dsimp only
    rw [hend, hcounted, hbegin]
    exact ⟨_, _, _, _, rfl⟩

/-! ### The store is written by reports only -/

@[simp] theorem toRecordStore_countRecord (server : IoTServer) (record : RecordPtr) :
    (server.countRecord record).toRecordStore = server.toRecordStore := rfl

@[simp] theorem toRecordStore_countRecords (count : Nat) (server : IoTServer) :
    (server.countRecords count).toRecordStore = server.toRecordStore := by
  obtain ⟨_, _, _, hframe⟩ := countRecords_frame count server
  rw [hframe]

@[simp] theorem toRecordStore_beginPass (server : IoTServer) :
    server.beginPass.toRecordStore = server.toRecordStore := by
  obtain ⟨_, _, _, _, hframe⟩ := server.beginPass_frame
  rw [hframe]

@[simp] theorem toRecordStore_endPass (server : IoTServer) :
    server.endPass.toRecordStore = server.toRecordStore := by
  obtain ⟨_, hframe⟩ := server.endPass_frame
  rw [hframe]

@[simp] theorem toRecordStore_countMetrics (recordsPerTick : Nat) (lock : Bool)
    (server : IoTServer) :
    (server.countMetrics recordsPerTick lock).1.toRecordStore = server.toRecordStore := by
  obtain ⟨_, _, _, _, hframe⟩ := server.countMetrics_frame recordsPerTick lock
  rw [hframe]

theorem toRecordStore_step (memory : Memory) (recordsPerTick : Nat) (server : IoTServer)
    (event : ServerEvent) :
    ((machine memory recordsPerTick).step server event).1.toRecordStore =
      match event with
      | .report report now => report.handle memory now server.toRecordStore
      | _ => server.toRecordStore := by
  cases event with
  | report report now => rfl
  | countMetrics lock => exact toRecordStore_countMetrics recordsPerTick lock server
  | measure => rfl
  | incomingConnection => rfl

end IoTServer

end IoTTracker
