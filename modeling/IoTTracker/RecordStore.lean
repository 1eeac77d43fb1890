import IoTTracker.IotClient
import Mathlib.Data.Finmap
import Mathlib.Data.Int.Interval

/-!
# The record store

The records of all devices, guarded by `recordLocker`: `records` finds a record
by device id, `recordList` lists the same records in the order of creation for
the reports. Both hold pointers to records allocated by `new Record` and never
freed. The locked sections of `reportBoot` and `report24hrs` are the only code
that writes here; they share the shape `upsert` and differ in what they set when
they create a record and when they update one.
-/

namespace IoTTracker

abbrev QDateTime := Option Nat

structure Record where
  id : SizeT
  totalBoots : SizeT
  checkIn : SizeT
  model : QString
  version : QString
  lastBoot : QDateTime
deriving DecidableEq, Repr

/-- What the heap happened to hold in the members of a `Record` that have no
    default constructor. -/
structure RawRecord where
  id : SizeT
  totalBoots : SizeT
  checkIn : SizeT
deriving DecidableEq, Repr

/-- `new Record`: the integers keep whatever was in memory. -/
def newRecord (raw : RawRecord) : Record :=
  { id := raw.id, totalBoots := raw.totalBoots, checkIn := raw.checkIn,
    model := [], version := [], lastBoot := none }

instance : Inhabited Record := ⟨newRecord ⟨0, 0, 0⟩⟩

/-- A `Record *`: the number of allocations before this one. -/
abbrev RecordPtr := Nat

abbrev Memory := RecordPtr → RawRecord

structure RecordStore where
  heap : List Record
  records : Finmap fun _ : SizeT => RecordPtr
  recordList : List RecordPtr

namespace RecordStore

def empty : RecordStore := ⟨[], ∅, []⟩

def deref (store : RecordStore) (record : RecordPtr) : Record :=
  store.heap.getD record default

def size (store : RecordStore) : Nat := store.records.entries.card

def insertNew (store : RecordStore) (idn : SizeT) (create : RecordPtr → Record) :
    RecordPtr × RecordStore :=
  let record := store.heap.length
  (record,
    { heap := store.heap ++ [create record]
      records := store.records.insert idn record
      recordList := store.recordList ++ [record] })

/-- The common shape of the two locked sections: find the record of `idn` or
    create it, then update it. -/
def upsert (store : RecordStore) (idn : SizeT) (create : RecordPtr → Record)
    (update : Record → Record) : RecordStore :=
  let found :=
    match store.records.lookup idn with
    | none => store.insertNew idn create
    | some record => (record, store)
  { found.2 with heap := found.2.heap.modify found.1 update }

end RecordStore

/-- `static_cast<size_t>(id.toInt())` -/
def idNumber (id : QString) : SizeT := castSizeT (QString.toInt id)

namespace Report

/-- The locked section of `IotClient::reportBoot`. -/
def reportBoot (memory : Memory) (now : Nat) (client : Report) (store : RecordStore) :
    RecordStore :=
  let idn := idNumber client.id
  store.upsert idn
    (fun record =>
      { newRecord (memory record) with
        id := idn, checkIn := 0, model := client.model, lastBoot := some now })
    (fun record =>
      { record with totalBoots := record.totalBoots + 1, version := client.version })

/-- The locked section of `IotClient::report24hrs`. -/
def report24hrs (memory : Memory) (client : Report) (store : RecordStore) : RecordStore :=
  let idn := idNumber client.id
  store.upsert idn
    (fun record => { newRecord (memory record) with id := idn, model := client.model })
    (fun record => { record with checkIn := 1, version := client.version })

def handle (memory : Memory) (now : Nat) (report : Report) (store : RecordStore) :
    RecordStore :=
  match report.kind with
  | .boot => report.reportBoot memory now store
  | .hrs24 => report.report24hrs memory store

/-! ### Both handlers are upserts -/

def create (memory : Memory) (now : Nat) (report : Report) (record : RecordPtr) : Record :=
  match report.kind with
  | .boot =>
      { newRecord (memory record) with
        id := idNumber report.id, checkIn := 0, model := report.model, lastBoot := some now }
  | .hrs24 =>
      { newRecord (memory record) with id := idNumber report.id, model := report.model }

def update (report : Report) (record : Record) : Record :=
  match report.kind with
  | .boot => { record with totalBoots := record.totalBoots + 1, version := report.version }
  | .hrs24 => { record with checkIn := 1, version := report.version }

theorem handle_eq_upsert (memory : Memory) (now : Nat) (report : Report)
    (store : RecordStore) :
    report.handle memory now store =
      store.upsert (idNumber report.id) (report.create memory now) report.update := by
  cases hkind : report.kind <;>
    simp only [handle, hkind, reportBoot, report24hrs] <;>
    congr 1 <;> funext record <;> simp only [create, update, hkind]

@[simp] theorem id_create (memory : Memory) (now : Nat) (report : Report)
    (record : RecordPtr) : (report.create memory now record).id = idNumber report.id := by
  unfold create
  split <;> rfl

@[simp] theorem id_update (report : Report) (record : Record) :
    (report.update record).id = record.id := by
  unfold update
  split <;> rfl

@[simp] theorem model_update (report : Report) (record : Record) :
    (report.update record).model = record.model := by
  unfold update
  split <;> rfl

@[simp] theorem version_update (report : Report) (record : Record) :
    (report.update record).version = report.version := by
  unfold update
  split <;> rfl

end Report

namespace RecordStore

variable {store : RecordStore} {idn : SizeT} {create : RecordPtr → Record}
  {update : Record → Record}

/-! ### The two cases of an upsert -/

theorem upsert_of_new (hnew : store.records.lookup idn = none) :
    store.upsert idn create update =
      { heap := store.heap ++ [update (create store.heap.length)]
        records := store.records.insert idn store.heap.length
        recordList := store.recordList ++ [store.heap.length] } := by
  simp [upsert, hnew, insertNew, List.modify_eq_take_drop]

theorem upsert_of_known {record : RecordPtr} (hknown : store.records.lookup idn = some record) :
    store.upsert idn create update =
      { store with heap := store.heap.modify record update } := by
  simp [upsert, hknown]

/-! ### The invariant of the two containers -/

/-- Hash and list hold the same records, each once, under their own ids. -/
structure Inv (store : RecordStore) : Prop where
  recordList_eq : store.recordList = List.range store.heap.length
  values_eq : store.records.entries.map Sigma.snd = (store.recordList : Multiset RecordPtr)
  id_eq : ∀ k record, store.records.lookup k = some record → (store.deref record).id = k
  numeral : ∀ k record, store.records.lookup k = some record → ∃ text, idNumber text = k

theorem inv_empty : empty.Inv where
  recordList_eq := rfl
  values_eq := rfl
  id_eq k record hlookup := by simp [empty] at hlookup
  numeral k record hlookup := by simp [empty] at hlookup

theorem Inv.nodup (hinv : store.Inv) : store.recordList.Nodup := by
  rw [hinv.recordList_eq]
  exact List.nodup_range

theorem mem_entries_iff {k : SizeT} {record : RecordPtr} :
    (⟨k, record⟩ : (_ : SizeT) × RecordPtr) ∈ store.records.entries ↔
      store.records.lookup k = some record := by
  induction store.records using Finmap.induction_on with
  | H entries => exact (AList.mem_lookup_iff).symm

theorem Inv.mem_recordList_iff (hinv : store.Inv) {record : RecordPtr} :
    record ∈ store.recordList ↔ ∃ k, store.records.lookup k = some record := by
  rw [← Multiset.mem_coe, ← hinv.values_eq, Multiset.mem_map]
  constructor
  · rintro ⟨⟨k, record'⟩, hentry, rfl⟩
    exact ⟨k, mem_entries_iff.mp hentry⟩
  · rintro ⟨k, hlookup⟩
    exact ⟨⟨k, record⟩, mem_entries_iff.mpr hlookup, rfl⟩

theorem Inv.size_eq (hinv : store.Inv) : store.size = store.recordList.length := by
  have hcard := congrArg Multiset.card hinv.values_eq
  simpa [size] using hcard

theorem card_keys (store : RecordStore) : store.records.keys.card = store.size :=
  Multiset.card_map Sigma.fst _

theorem Inv.lt_length (hinv : store.Inv) {k : SizeT} {record : RecordPtr}
    (hlookup : store.records.lookup k = some record) : record < store.heap.length := by
  have hmem := hinv.mem_recordList_iff.mpr ⟨k, hlookup⟩
  rwa [hinv.recordList_eq, List.mem_range] at hmem

theorem Inv.key_eq (hinv : store.Inv) {k k' : SizeT} {record : RecordPtr}
    (hlookup : store.records.lookup k = some record)
    (hlookup' : store.records.lookup k' = some record) : k = k' :=
  (hinv.id_eq k record hlookup).symm.trans (hinv.id_eq k' record hlookup')

/-! ### What an upsert does to each record -/

theorem deref_append_of_lt {record : RecordPtr} (hlt : record < store.heap.length)
    (added : List Record) (records : Finmap fun _ : SizeT => RecordPtr)
    (recordList : List RecordPtr) :
    deref ⟨store.heap ++ added, records, recordList⟩ record = store.deref record := by
  simp [deref, List.getD_eq_getElem?_getD, List.getElem?_append_left hlt]

theorem deref_modify_self {record : RecordPtr} (hlt : record < store.heap.length) :
    deref { store with heap := store.heap.modify record update } record =
      update (store.deref record) := by
  simp [deref, List.getD_eq_getElem?_getD, List.getElem?_eq_getElem hlt]

theorem deref_modify_of_ne {record record' : RecordPtr} (hne : record ≠ record') :
    deref { store with heap := store.heap.modify record update } record' =
      store.deref record' := by
  simp [deref, List.getD_eq_getElem?_getD, List.getElem?_modify_ne _ _ hne]

def observe {β : Type*} (g : RecordPtr → Record → β) (store : RecordStore) (k : SizeT) :
    Option β :=
  (store.records.lookup k).map fun record => g record (store.deref record)

variable {β : Type*} (g : RecordPtr → Record → β)

theorem isSome_observe_iff {k : SizeT} :
    (store.observe g k).isSome ↔ k ∈ store.records := by
  rw [observe, Option.isSome_map, Finmap.lookup_isSome]

theorem Inv.map_observe_keys (hinv : store.Inv) (field : Record → β) :
    (store.records.keys.val.map (store.observe fun _ value => field value)) =
      ((store.recordList.map fun record => some (field (store.deref record)) :
        List (Option β)) : Multiset (Option β)) := by
  rw [← Multiset.map_coe, ← hinv.values_eq, Multiset.map_map]
  change (store.records.entries.map Sigma.fst).map _ = _
  rw [Multiset.map_map]
  apply Multiset.map_congr rfl
  rintro ⟨k, record⟩ hentry
  simp only [Function.comp_apply, observe, mem_entries_iff.mp hentry, Option.map_some]

theorem perm_of_observe_eq {store' : RecordStore} (hinv : store.Inv) (hinv' : store'.Inv)
    (field : Record → β)
    (hobserve : store.observe (fun _ value => field value) =
      store'.observe fun _ value => field value) :
    (store.recordList.map fun record => field (store.deref record)).Perm
      (store'.recordList.map fun record => field (store'.deref record)) := by
  have hkeys : store.records.keys = store'.records.keys := by
    ext k
    rw [Finmap.mem_keys, Finmap.mem_keys, ← isSome_observe_iff fun _ value => field value,
      ← isSome_observe_iff fun _ value => field value, hobserve]
  have hlists := hinv.map_observe_keys field
  rw [hkeys, hobserve, hinv'.map_observe_keys field, Multiset.coe_eq_coe] at hlists
  have hsome : ∀ store : RecordStore,
      (store.recordList.map fun record => some (field (store.deref record))) =
        (store.recordList.map fun record => field (store.deref record)).map some := by
    intro store
    rw [List.map_map]
    rfl
  rw [hsome, hsome] at hlists
  exact (List.map_perm_map_iff (Option.some_injective β)).mp hlists.symm

/-- **Frame.** Records under other keys are left alone. -/
theorem observe_upsert_of_ne (hinv : store.Inv) {k : SizeT} (hk : k ≠ idn) :
    (store.upsert idn create update).observe g k = store.observe g k := by
  rcases hfound : store.records.lookup idn with _ | record
  · rw [upsert_of_new hfound, observe, observe, Finmap.lookup_insert_of_ne _ hk]
    rcases hk' : store.records.lookup k with _ | record'
    · rfl
    · rw [Option.map_some, Option.map_some, deref_append_of_lt (hinv.lt_length hk')]
  · rw [upsert_of_known hfound, observe, observe]
    rcases hk' : store.records.lookup k with _ | record'
    · rfl
    · have hne : record ≠ record' := by
        rintro rfl
        apply hk
        exact hinv.key_eq hk' hfound
      rw [Option.map_some, Option.map_some, deref_modify_of_ne hne]

theorem observe_upsert_self (hinv : store.Inv) :
    (store.upsert idn create update).observe g idn =
      some (match store.records.lookup idn with
        | none => g store.heap.length (update (create store.heap.length))
        | some record => g record (update (store.deref record))) := by
  rcases hfound : store.records.lookup idn with _ | record
  · rw [upsert_of_new hfound, observe, Finmap.lookup_insert, Option.map_some]
    simp [deref]
  · rw [upsert_of_known hfound, observe, hfound, Option.map_some,
      deref_modify_self (hinv.lt_length hfound)]

/-- An observation that a creation and an update act on by themselves changes
    under `idn` alone, and there as a function of what it was. -/
theorem observe_upsert (hinv : store.Inv) (fresh : β) (change : β → β)
    (hcreate : ∀ record, g record (update (create record)) = fresh)
    (hupdate : ∀ record value, g record (update value) = change (g record value)) :
    (store.upsert idn create update).observe g =
      Function.update (store.observe g) idn
        (some ((store.observe g idn).elim fresh change)) := by
  funext k
  by_cases hk : k = idn
  · subst hk
    rw [observe_upsert_self g hinv, Function.update_self, observe]
    rcases store.records.lookup k with _ | record
    · simp [hcreate]
    · simp [hupdate]
  · rw [observe_upsert_of_ne g hinv hk, Function.update_of_ne hk]

/-! ### Upserts keep the invariant -/

theorem observe_id_upsert (hinv : store.Inv) (hcreate : ∀ record, (update (create record)).id = idn)
    (hupdate : ∀ value : Record, (update value).id = value.id) :
    (store.upsert idn create update).observe (fun _ value => value.id) =
      Function.update (store.observe fun _ value => value.id) idn
        (some ((store.observe (fun _ value => value.id) idn).elim idn id)) :=
  observe_upsert _ hinv idn id hcreate fun _ value => hupdate value

theorem inv_upsert (hinv : store.Inv) (hnumeral : ∃ text, idNumber text = idn)
    (hcreate : ∀ record, (update (create record)).id = idn)
    (hupdate : ∀ value : Record, (update value).id = value.id) :
    (store.upsert idn create update).Inv := by
  have hold : ∀ k id, store.observe (fun _ value => value.id) k = some id → id = k := by
    intro k id hobserve
    rcases Option.map_eq_some_iff.mp hobserve with ⟨record, hlookup, rfl⟩
    exact hinv.id_eq k record hlookup
  have hids : ∀ k record, (store.upsert idn create update).records.lookup k = some record →
      ((store.upsert idn create update).deref record).id = k := by
    intro k record hlookup
    have hobserve : (store.upsert idn create update).observe (fun _ value => value.id) k =
        some ((store.upsert idn create update).deref record).id := by
      rw [observe, hlookup, Option.map_some]
    rw [observe_id_upsert hinv hcreate hupdate] at hobserve
    by_cases hk : k = idn
    · subst hk
      rw [Function.update_self] at hobserve
      rw [← Option.some.inj hobserve]
      rcases hknown : store.observe (fun _ value => value.id) k with _ | id
      · rfl
      · exact hold k id hknown
    · rw [Function.update_of_ne hk] at hobserve
      exact hold k _ hobserve
  rcases hfound : store.records.lookup idn with _ | found
  · refine ⟨?_, ?_, hids, ?_⟩
    · rw [upsert_of_new hfound]
      simp [hinv.recordList_eq, List.range_succ]
    · rw [upsert_of_new hfound]
      have hnew : idn ∉ store.records := Finmap.lookup_eq_none.mp hfound
      rw [Finmap.entries_insert_of_notMem hnew, Multiset.map_cons, hinv.values_eq,
        ← Multiset.singleton_add, add_comm, ← Multiset.coe_singleton, Multiset.coe_add]
    · intro k record hlookup
      by_cases hk : k = idn
      · exact hk ▸ hnumeral
      · rw [upsert_of_new hfound, Finmap.lookup_insert_of_ne _ hk] at hlookup
        exact hinv.numeral k record hlookup
  · rw [upsert_of_known hfound] at hids ⊢
    refine ⟨?_, hinv.values_eq, hids, hinv.numeral⟩
    simpa using hinv.recordList_eq

theorem inv_handle (hinv : store.Inv) (memory : Memory) (now : Nat) (report : Report) :
    (report.handle memory now store).Inv := by
  rw [Report.handle_eq_upsert]
  exact inv_upsert hinv ⟨report.id, rfl⟩ (by simp) (by simp)

/-! ### The list grows at its end and records keep their identity -/

theorem recordList_prefix_upsert :
    store.recordList <+: (store.upsert idn create update).recordList := by
  rcases hfound : store.records.lookup idn with _ | found
  · rw [upsert_of_new hfound]
    exact List.prefix_append _ _
  · rw [upsert_of_known hfound]

theorem deref_upsert (hinv : store.Inv) {record : RecordPtr}
    (hrecord : record ∈ store.recordList) :
    (store.upsert idn create update).deref record =
      if store.records.lookup idn = some record then update (store.deref record)
      else store.deref record := by
  have hlt : record < store.heap.length := by
    rwa [hinv.recordList_eq, List.mem_range] at hrecord
  rcases hfound : store.records.lookup idn with _ | found
  · rw [upsert_of_new hfound, deref_append_of_lt hlt]
    simp
  · rw [upsert_of_known hfound]
    by_cases hsame : found = record
    · subst hsame
      rw [deref_modify_self hlt, if_pos rfl]
    · rw [deref_modify_of_ne hsame, if_neg (by simpa using hsame)]

theorem recordList_prefix_handle (memory : Memory) (now : Nat) (report : Report) :
    store.recordList <+: (report.handle memory now store).recordList := by
  rw [Report.handle_eq_upsert]
  exact recordList_prefix_upsert

theorem deref_handle (hinv : store.Inv) (memory : Memory) (now : Nat) (report : Report)
    {record : RecordPtr} (hrecord : record ∈ store.recordList) :
    (report.handle memory now store).deref record =
      if store.records.lookup (idNumber report.id) = some record
      then report.update (store.deref record) else store.deref record := by
  rw [Report.handle_eq_upsert]
  exact deref_upsert hinv hrecord

/-! ### There are at most `2 ^ 32` records -/

/-- Keys come from a 32-bit `int`, so the counters of the reports never wrap. -/
theorem Inv.length_le (hinv : store.Inv) : store.recordList.length ≤ 2 ^ 32 := by
  have hkeys : store.records.keys ⊆
      (Finset.Ico (-2 ^ 31 : Int) (2 ^ 31)).image castSizeT := by
    intro k hk
    obtain ⟨record, hlookup⟩ := Finmap.mem_iff.mp (Finmap.mem_keys.mp hk)
    rcases hinv.numeral k record hlookup with ⟨text, rfl⟩
    apply Finset.mem_image_of_mem
    exact Finset.mem_Ico.mpr (QString.toInt_range text)
  calc store.recordList.length = store.records.keys.card := by rw [card_keys, hinv.size_eq]
    _ ≤ ((Finset.Ico (-2 ^ 31 : Int) (2 ^ 31)).image castSizeT).card :=
        Finset.card_le_card hkeys
    _ ≤ (Finset.Ico (-2 ^ 31 : Int) (2 ^ 31)).card := Finset.card_image_le
    _ = 2 ^ 32 := by rw [Int.card_Ico]; decide

end RecordStore

end IoTTracker
