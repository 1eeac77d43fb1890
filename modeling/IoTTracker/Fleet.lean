import IoTTracker.ThreadRuns
import IoTTracker.DeviceIdentity

/-!
# A fleet phones home

Each phone-home client draws a number, keeps 17 bits of it and sends one boot on a
connection of its own. Once the worker threads have come to an end of all these
boots, in any order of their steps, the records are a census of the numbers kept:
one for each number, with the boots of the clients that share it, and a pass over
them publishes how many numbers there are of each model and version.
-/

namespace IoTTracker

/-- What a client of number `x` reports. -/
def bootReport (x : SizeT) : Report :=
  ⟨.boot, QString.decimal x.toNat, (modelAndVersion x).1, (modelAndVersion x).2⟩

theorem idNumber_bootReport (drawn : SizeT) :
    idNumber (bootReport (deviceNumber drawn)).id = deviceNumber drawn := by
  have hlt : (deviceNumber drawn).toNat < 2 ^ 31 := by
    rw [deviceNumber, BitVec.toNat_and]
    exact Nat.and_le_right.trans_lt (by decide)
  exact (recordKey_eq_self_iff _).mpr hlt

theorem asciiLine_modelAndVersion (x : SizeT) :
    (modelAndVersion x).1.AsciiLine ∧ (modelAndVersion x).2.AsciiLine := by
  unfold modelAndVersion
  split_ifs <;> decide

/-- The models and versions are sent as they are: none has an `=` in it. -/
theorem takeWhile_modelAndVersion (x : SizeT) :
    ((modelAndVersion x).1.takeWhile fun c => decide (c ≠ 0x3d)) = (modelAndVersion x).1 ∧
      ((modelAndVersion x).2.takeWhile fun c => decide (c ≠ 0x3d)) = (modelAndVersion x).2 := by
  unfold modelAndVersion
  split_ifs <;> decide

theorem streamReports_srvConnect {codec : TextCodec} (hcodec : codec.AsciiTransparent)
    (drawn : SizeT) :
    Schedule.streamReports codec (codec.toUtf8 (srvConnect drawn)) =
      [bootReport (deviceNumber drawn)] := by
  obtain ⟨hmodel, hversion⟩ := asciiLine_modelAndVersion (deviceNumber drawn)
  obtain ⟨hmodelSent, hversionSent⟩ := takeWhile_modelAndVersion (deviceNumber drawn)
  have hemitted := emitted_rx_phoneHome hcodec hmodel hversion IotClient.init
    (deviceNumber drawn) .boot
  rw [hmodelSent, hversionSent] at hemitted
  exact hemitted

/-! ### One report over and over -/

theorem deviceSummary_of_replicate {report : Report} (hboot : report.kind = .boot)
    {reports : List HandledReport} {count : Nat}
    (hreports : reports.map Prod.fst = List.replicate count report) {record : Record}
    (hsummary : deviceSummary reports = some record) :
    record.timeless =
      { id := idNumber report.id, totalBoots := BitVec.ofNat 64 count, checkIn := 0,
        model := report.model, version := report.version, lastBoot := none } := by
  obtain ⟨hcount, hsame⟩ := List.eq_replicate_iff.mp hreports
  have hreport : ∀ handled ∈ reports, handled.1 = report := fun handled hhandled =>
    hsame handled.1 (List.mem_map_of_mem hhandled)
  have hboots : ∀ handled ∈ reports, handled.isBoot = true := fun handled hhandled =>
    decide_eq_true ((congrArg Report.kind (hreport handled hhandled)).trans hboot)
  have htotal : bootCount reports = count := by
    rw [bootCount, List.countP_eq_length.mpr hboots, ← hcount, List.length_map]
  have hmark : checkInMark reports = 0 := if_pos (List.all_eq_true.mpr hboots)
  rcases reports with _ | ⟨first, rest⟩
  · cases hsummary
  · obtain rfl := Option.some.inj hsummary
    have hfirst := hreport first (List.mem_cons_self ..)
    have hlast := hreport _ (List.getLast_mem (List.cons_ne_nil first rest))
    simp only [Record.timeless, HandledReport.key, htotal, hmark, hfirst, hlast]

/-! ### The reports of a fleet -/

/-- A list that has every item once holds as many with a property as there are. -/
theorem countP_eq_card {κ : Type*} [Fintype κ] [DecidableEq κ] {items : List κ}
    (honce : ∀ c, items.count c = 1) (p : κ → Prop) [DecidablePred p] :
    items.countP (fun c => decide (p c)) = (Finset.univ.filter p).card := by
  have hall : (items : Multiset κ) = Finset.univ.val := by
    ext c
    rw [Multiset.coe_count, honce, Multiset.count_univ]
  calc items.countP (fun c => decide (p c)) = Multiset.countP p (items : Multiset κ) :=
        (Multiset.coe_countP p items).symm
    _ = Multiset.countP p Finset.univ.val := congrArg _ hall
    _ = (Finset.univ.filter p).card := Multiset.countP_eq_card_filter _ _

section Fleet

variable {κ : Type*} [Fintype κ] [DecidableEq κ] (drawn : κ → SizeT)

/-- The clients that keep the number `x`. -/
def clientsOf (x : SizeT) : Finset κ := Finset.univ.filter fun c => deviceNumber (drawn c) = x

/-- The numbers that some client keeps. -/
def numbers : Finset SizeT := Finset.univ.image fun c => deviceNumber (drawn c)

omit [DecidableEq κ] in
theorem mem_numbers_iff (x : SizeT) : x ∈ numbers drawn ↔ (clientsOf drawn x).card ≠ 0 := by
  rw [Finset.card_ne_zero]
  constructor
  · intro hx
    obtain ⟨c, -, hc⟩ := Finset.mem_image.mp hx
    exact ⟨c, Finset.mem_filter.mpr ⟨Finset.mem_univ c, hc⟩⟩
  · rintro ⟨c, hc⟩
    exact Finset.mem_image.mpr ⟨c, Finset.mem_univ c, (Finset.mem_filter.mp hc).2⟩

variable {drawn} {codec : TextCodec}

/-- **Each number's reports are the boots of its clients**, whatever the schedule. -/
theorem handledFor_fleet (hcodec : codec.AsciiTransparent) {schedule : List (ScheduleStep κ)}
    (hdelivers : Schedule.Delivers codec (fun c => codec.toUtf8 (srvConnect (drawn c))) schedule)
    (x : SizeT) :
    (handledFor x (Schedule.serverEvents codec schedule)).map Prod.fst =
      List.replicate (clientsOf drawn x).card (bootReport x) := by
  have hreports : ∀ c, Schedule.reportsOf c (Schedule.handled codec schedule) =
      [bootReport (deviceNumber (drawn c))] := fun c =>
    (Schedule.reportsOf_handled codec hdelivers c).trans (streamReports_srvConnect hcodec _)
  have hown : ∀ entry ∈ Schedule.handled codec schedule,
      entry.2.1 = bootReport (deviceNumber (drawn entry.1)) := by
    intro entry hentry
    have hmem : entry.2.1 ∈ Schedule.reportsOf entry.1 (Schedule.handled codec schedule) :=
      List.mem_map_of_mem (List.mem_filter.mpr ⟨hentry, decide_eq_true rfl⟩)
    rw [hreports] at hmem
    exact List.mem_singleton.mp hmem
  have honce : ∀ c, ((Schedule.handled codec schedule).map Prod.fst).count c = 1 := by
    intro c
    have hlength := congrArg List.length (hreports c)
    rw [Schedule.reportsOf, List.length_map, ← List.countP_eq_length_filter] at hlength
    rw [List.count, List.countP_map, ← List.length_singleton, ← hlength]
    exact List.countP_congr fun entry _ => by simp
  have hkey : ∀ entry ∈ Schedule.handled codec schedule,
      idNumber entry.2.1.id = deviceNumber (drawn entry.1) := by
    intro entry hentry
    rw [hown entry hentry, idNumber_bootReport]
  rw [Schedule.reports_handledFor, List.eq_replicate_iff]
  constructor
  · rw [clientsOf, ← countP_eq_card honce, List.countP_map, List.length_map, KeyedFold.eventsOf,
      ← List.countP_eq_length_filter, List.countP_map]
    apply List.countP_congr
    intro entry hentry
    simp only [Function.comp, Schedule.untimed, Schedule.entryKey, hkey entry hentry]
  · intro report hreport
    obtain ⟨entry, hentry, rfl⟩ := List.mem_map.mp hreport
    obtain ⟨huntimed, hentryKey⟩ := List.mem_filter.mp hentry
    obtain ⟨entry, hmem, rfl⟩ := List.mem_map.mp huntimed
    have hx : deviceNumber (drawn entry.1) = x :=
      (hkey entry hmem).symm.trans (of_decide_eq_true hentryKey)
    rw [← hx]
    exact hown entry hmem

/-! ### The census -/

/-- A field that the key determines, counted over the keys. -/
theorem count_listed_of_keys {β : Type*} [DecidableEq β] [BEq β] [LawfulBEq β]
    {store : RecordStore} (hinv : store.Inv) (field : Record → β) (ofKey : SizeT → β)
    (hfield : ∀ x record, store.records.lookup x = some record →
      field (store.deref record) = ofKey x) (value : β) :
    (store.recordList.map fun record => field (store.deref record)).count value =
      (store.records.keys.filter fun x => ofKey x = value).card := by
  obtain rfl := lawful_beq_subsingleton ‹BEq β› instBEqOfDecidableEq
  have hlisted : ((store.recordList.map fun record => field (store.deref record) :
      List β) : Multiset β) = store.records.keys.val.map ofKey := by
    rw [← Multiset.map_coe, ← hinv.values_eq, Multiset.map_map]
    change _ = (store.records.entries.map Sigma.fst).map ofKey
    rw [Multiset.map_map]
    apply Multiset.map_congr rfl
    rintro ⟨x, record⟩ hentry
    exact hfield x record (RecordStore.mem_entries_iff.mp hentry)
  rw [← Multiset.coe_count, hlisted, Multiset.count_map]
  simp only [eq_comm (a := value)]
  rfl

variable (drawn) in
/-- What a store has counted of a fleet, and what a pass over it publishes. -/
structure Census (memory : Memory) (recordsPerTick : Nat) (store : RecordStore) : Prop where
  mem_iff : ∀ x, x ∈ store.records ↔ x ∈ numbers drawn
  size_eq : store.size = (numbers drawn).card
  record_eq : ∀ x record, store.records.lookup x = some record →
    ((store.deref record).since (memory record)).timeless =
      { id := x, totalBoots := BitVec.ofNat 64 (clientsOf drawn x).card, checkIn := 0,
        model := (modelAndVersion x).1, version := (modelAndVersion x).2, lastBoot := none }
  published : ∀ models versions,
    IoTServer.PublishesFresh recordsPerTick store (models, versions) → ∀ text,
      models.countOf text =
          ((numbers drawn).filter fun x => (modelAndVersion x).1 = text).card ∧
        versions.countOf text =
          ((numbers drawn).filter fun x => (modelAndVersion x).2 = text).card

theorem timeless_since_of_handledFor (memory : Memory) (recordsPerTick : Nat)
    (serves : BitVec 32) {events : List ServerEvent} {x : SizeT} {count : Nat}
    (hreports : (handledFor x events).map Prod.fst = List.replicate count (bootReport x))
    (record : RecordPtr)
    (hlookup : (IoTServer.after memory recordsPerTick serves events).records.lookup x =
      some record) :
    (((IoTServer.after memory recordsPerTick serves events).deref record).since
      (memory record)).timeless =
      { id := x, totalBoots := BitVec.ofNat 64 count, checkIn := 0,
        model := (modelAndVersion x).1, version := (modelAndVersion x).2, lastBoot := none } := by
  have hvalue := deviceSummary_of_replicate rfl hreports
    (IoTServer.since_deref_eq_summary memory recordsPerTick serves events hlookup)
  have hkey : idNumber (bootReport x).id = x :=
    (congrArg Record.id hvalue).symm.trans
      ((IoTServer.inv_after memory recordsPerTick serves events).id_eq x record hlookup)
  rw [hkey] at hvalue
  exact hvalue

omit [DecidableEq κ] in
theorem census_of_handledFor (memory : Memory) (recordsPerTick : Nat) (serves : BitVec 32)
    {events : List ServerEvent}
    (hreports : ∀ x, (handledFor x events).map Prod.fst =
      List.replicate (clientsOf drawn x).card (bootReport x)) :
    Census drawn memory recordsPerTick
      (IoTServer.after memory recordsPerTick serves events).toRecordStore := by
  have hinv : (IoTServer.after memory recordsPerTick serves events).Inv :=
    IoTServer.inv_after memory recordsPerTick serves events
  have hrecord := fun x => timeless_since_of_handledFor memory recordsPerTick serves (hreports x)
  have hmem : ∀ x, x ∈ (IoTServer.after memory recordsPerTick serves events).records ↔
      x ∈ numbers drawn := by
    intro x
    rw [IoTServer.mem_records_iff, mem_numbers_iff, Ne, ← List.map_eq_nil_iff (f := Prod.fst),
      hreports, List.replicate_eq_nil_iff]
  have hkeys : (IoTServer.after memory recordsPerTick serves events).records.keys =
      numbers drawn := by
    ext x
    exact Finmap.mem_keys.trans (hmem x)
  refine ⟨hmem, ?_, hrecord, ?_⟩
  · rw [← hkeys]
    exact (RecordStore.card_keys _).symm
  · rintro models versions ⟨memory', fresh, locks, lock, hstore, hstart, hpublished⟩ text
    obtain ⟨hmodels, hversions⟩ := IoTServer.isHistogram_of_ticks memory' hstart locks lock
      hpublished
    have hlength : ∀ field, (fresh.listed field).length ≤ 2 ^ 32 := by
      intro field
      rw [IoTServer.length_listed, hstore]
      exact hinv.length_le
    rw [countOf_eq_count hmodels (hlength _), countOf_eq_count hversions (hlength _),
      IoTServer.listed, IoTServer.listed, hstore, ← hkeys]
    exact ⟨count_listed_of_keys hinv Record.model (fun x => (modelAndVersion x).1)
        (fun x record hlookup => congrArg Record.model (hrecord x record hlookup)) text,
      count_listed_of_keys hinv Record.version (fun x => (modelAndVersion x).2)
        (fun x record hlookup => congrArg Record.version (hrecord x record hlookup)) text⟩

theorem handledFor_finishes {ι : Type*} [DecidableEq ι] {memory : Memory} {recordsPerTick : Nat}
    {owner : κ → ι} {serves : BitVec 32} {events : List (ThreadEvent ι κ)}
    (hcodec : codec.AsciiTransparent)
    (hfinishes : ThreadState.Finishes codec memory recordsPerTick owner serves
      (fun c => codec.toUtf8 (srvConnect (drawn c))) events) (x : SizeT) :
    (handledFor x (ThreadState.serverEvents codec (ThreadState.performed codec memory
      recordsPerTick owner serves events))).map Prod.fst =
        List.replicate (clientsOf drawn x).card (bootReport x) := by
  rw [ThreadState.handledFor_serverEvents]
  exact handledFor_fleet hcodec hfinishes.delivers x

/-- **The census.** Any number of clients phone home at once. Once the worker threads
    have come to an end of what the clients sent, however many threads there are and in
    whatever order they took their steps, there is one record for each number kept, with
    a boot for each client that kept it and the number's model and version, and a pass
    that sees no further report publishes how many numbers have each model and version. -/
theorem fleet_census {ι : Type*} [DecidableEq ι] {memory : Memory} {recordsPerTick : Nat}
    {owner : κ → ι} {serves : BitVec 32} {events : List (ThreadEvent ι κ)}
    (hcodec : codec.AsciiTransparent)
    (hfinishes : ThreadState.Finishes codec memory recordsPerTick owner serves
      (fun c => codec.toUtf8 (srvConnect (drawn c))) events) :
    Census drawn memory recordsPerTick
      (ThreadState.after codec memory recordsPerTick owner serves
        events).server.toRecordStore := by
  rw [hfinishes.toRecordStore_eq]
  exact census_of_handledFor memory recordsPerTick serves (handledFor_finishes hcodec hfinishes)

end Fleet

/-- Two clients that keep the same number, served by workers of their own. -/
def sameNumber (c : Bool) : SizeT := if c then 131075 else 3

def phonesHome : List (ThreadEvent Bool Bool) :=
  [.arrive true (TextCodec.latin1.toUtf8 (srvConnect (sameNumber true))),
    .arrive false (TextCodec.latin1.toUtf8 (srvConnect (sameNumber false)))] ++
    List.replicate 4 (.readLine true) ++ List.replicate 4 (.readLine false) ++
    List.replicate 7 (.work true 1) ++ List.replicate 7 (.work false 2)

theorem fleet_census_phonesHome :
    (ThreadState.after TextCodec.latin1 (fun _ => ⟨0, 0, 0⟩) 1 id 0 phonesHome).server.size = 1 :=
  (fleet_census TextCodec.latin1_asciiTransparent
    (show ThreadState.Finishes TextCodec.latin1 (fun _ => ⟨0, 0, 0⟩) 1 id 0
      (fun c => TextCodec.latin1.toUtf8 (srvConnect (sameNumber c))) phonesHome by
        unfold ThreadState.Finishes; decide)).size_eq.trans (by decide)

end IoTTracker
