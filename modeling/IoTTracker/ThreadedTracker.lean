import IoTTracker.TrackerSystem
import IoTTracker.Fleet
import IoTTracker.Permanence

/-!
# The tracker with its threads

The remote monitors are served by the main thread, so a monitor connects when no
tick is under way. What the threads tell from then on is what the server of the
refinement tells in the sections performed since, and a monitor shows what the
records were in between, whatever the worker threads do. For a fleet that has
phoned home this is the census.
-/

namespace IoTTracker

namespace ThreadState

variable {ι κ : Type*} [DecidableEq ι] [DecidableEq κ] (codec : TextCodec) (memory : Memory)
  (recordsPerTick : Nat) (owner : κ → ι) (serves : BitVec 32)

/-! ### What the threads tell in a stretch of a run -/

/-- The atomic steps that the second of two stretches performs. -/
def performedLater (before later : List (ThreadEvent ι κ)) : List (ScheduleStep κ ⊕ ServerEvent) :=
  (simulation codec memory recordsPerTick owner).matchedRun
    (after codec memory recordsPerTick owner serves before) later

theorem performed_append (before later : List (ThreadEvent ι κ)) :
    performed codec memory recordsPerTick owner serves (before ++ later) =
      performed codec memory recordsPerTick owner serves before ++
        performedLater codec memory recordsPerTick owner serves before later := by
  rw [performed, Machine.Simulation.matchedRun, Machine.trace_append, List.flatMap_append]
  rfl

/-- The server's events in the second of two stretches. -/
def serverEventsLater (before later : List (ThreadEvent ι κ)) : List ServerEvent :=
  Machine.received (Schedule.connections codec) (fun entry => [.report entry.2.1 entry.2.2])
    ((Schedule.connections codec).run Schedule.init
      (Machine.upstream (performed codec memory recordsPerTick owner serves before)))
    (performedLater codec memory recordsPerTick owner serves before later)

theorem serverEvents_append (before later : List (ThreadEvent ι κ)) :
    serverEvents codec (performed codec memory recordsPerTick owner serves (before ++ later)) =
      serverEvents codec (performed codec memory recordsPerTick owner serves before) ++
        serverEventsLater codec memory recordsPerTick owner serves before later := by
  rw [performed_append, serverEvents, Machine.received_append]
  rfl

/-- **The threads tell what the server of the refinement tells**, between any two
    moments at which no tick is under way. -/
theorem told_threads {before later : List (ThreadEvent ι κ)}
    (hbefore : (after codec memory recordsPerTick owner serves before).main = .idle)
    (hafter : (after codec memory recordsPerTick owner serves (before ++ later)).main = .idle) :
    (machine codec memory recordsPerTick owner).outputs
        (after codec memory recordsPerTick owner serves before) later =
      IoTServer.told memory recordsPerTick serves
        (serverEvents codec (performed codec memory recordsPerTick owner serves before))
        (serverEventsLater codec memory recordsPerTick owner serves before later) := by
  have houtputs := (simulation codec memory recordsPerTick owner).outputs_run
    (refines_after codec memory recordsPerTick owner serves before) later
  have hpending : ∀ s : ThreadState ι κ, s.main = .idle →
      (simulation codec memory recordsPerTick owner).pending s = [] := by
    intro s hidle
    change s.main.pending recordsPerTick s.server = []
    rw [hidle]
    rfl
  rw [after, Machine.run_append] at hafter
  rw [hpending _ hbefore, hpending _ hafter, List.nil_append, List.append_nil,
    atomicAfter_eq] at houtputs
  exact houtputs.symm.trans (Machine.outputs_feed _ _ _ _ _ _)

/-- The main thread is in its event loop right after a step that has told something. -/
theorem main_of_outputs_ne_nil {s : ThreadState ι κ} {event : ThreadEvent ι κ}
    (htold : ((machine codec memory recordsPerTick owner).step s event).2 ≠ []) :
    ((machine codec memory recordsPerTick owner).step s event).1.main = .idle := by
  cases event with
  | arrive c bytes => exact absurd rfl htold
  | readLine c => exact absurd rfl htold
  | work i now => exact absurd rfl htold
  | countMetrics =>
      refine absurd ?_ htold
      simp only [machine]
      split <;> rfl
  | measure =>
      by_cases hidle : s.main = .idle
      · simp only [machine, hidle, if_true]
      · exact absurd (by simp only [machine, hidle, if_false]) htold
  | incomingConnection =>
      by_cases hidle : s.main = .idle
      · simp only [machine, hidle, if_true]
      · exact absurd (by simp only [machine, hidle, if_false]) htold
  | main => exact MainPc.pc_of_outputs_ne_nil recordsPerTick s.main s.recordLocker s.server htold

/-- The latest value of a kind was told at a moment at which no tick was under way. -/
theorem exists_idle_prefix {β : Type*} (kind : ServerOutput → Option β) {s : ThreadState ι κ}
    {later : List (ThreadEvent ι κ)} {value : β}
    (hlast : (((machine codec memory recordsPerTick owner).outputs s later).filterMap
      kind).getLast? = some value) :
    ∃ done, done <+: later ∧
      (((machine codec memory recordsPerTick owner).outputs s done).filterMap kind).getLast? =
        some value ∧
      ((machine codec memory recordsPerTick owner).run s done).main = .idle := by
  obtain ⟨earlier, event, rest, rfl, hvalue, -⟩ :=
    (machine codec memory recordsPerTick owner).exists_last_output kind hlast
  refine ⟨earlier ++ [event], ⟨rest, by simp⟩, ?_, ?_⟩
  · rw [Machine.outputs_concat, List.filterMap_append, List.getLast?_append, hvalue,
      Option.some_or]
  · rw [Machine.run_concat]
    apply main_of_outputs_ne_nil
    intro hnone
    rw [hnone] at hvalue
    cases hvalue

/-- **A monitor shows what the threads have done.** Of the sections performed before it
    connected and since, whatever the order of the threads' steps in between. -/
theorem monitor_shows_threads {json : JsonText} (hcodec : codec.AsciiTransparent)
    {before later : List (ThreadEvent ι κ ⊕ MonitorEvent)} {link : Link}
    {chunks : List QByteArray}
    (hwatches : Watches (machine codec memory recordsPerTick owner) codec json (init serves)
      before later link chunks)
    (hconnects : (after codec memory recordsPerTick owner serves
      (Machine.upstream before)).main = .idle)
    (hends : (after codec memory recordsPerTick owner serves
      (Machine.upstream before ++ Machine.upstream later)).main = .idle) :
    let past := serverEvents codec
      (performed codec memory recordsPerTick owner serves (Machine.upstream before))
    let recent := serverEventsLater codec memory recordsPerTick owner serves
      (Machine.upstream before) (Machine.upstream later)
    ∃ monitor : Monitor,
      (Monitor.machine codec json).run (some ⟨link, [], MonitorWindow.buildGui⟩)
          (chunks.map .readyRead) = some monitor ∧
        IoTServer.ShowsRate memory recordsPerTick serves past recent monitor.window ∧
        IoTServer.ShowsReport memory recordsPerTick serves past recent monitor.window := by
  intro past recent
  obtain ⟨next, -, hrun⟩ := hwatches.window hcodec
  have htold := told_threads codec memory recordsPerTick owner serves hconnects hends
  refine ⟨_, hrun, ?_, ?_⟩
  · rw [show _ = IoTServer.told memory recordsPerTick serves past recent from htold]
    exact IoTServer.showsRate_told memory recordsPerTick serves past recent _
  · rw [show _ = IoTServer.told memory recordsPerTick serves past recent from htold]
    exact IoTServer.showsReport_told memory recordsPerTick serves past recent _

/-- A pass and a measure after two clients have phoned home. -/
def passAndMeasure : List (ThreadEvent Bool Bool ⊕ MonitorEvent) :=
  .inl .countMetrics :: List.replicate 7 (.inl .main) ++ [.inl .measure]

theorem watches_passAndMeasure :
    let M := machine TextCodec.latin1 (fun _ => ⟨0, 0, 0⟩) 1 (id : Bool → Bool)
    Watches M TextCodec.latin1 (oneDevice "Model A" "2.4") (init 0)
      (phonesHome.map .inl) passAndMeasure ⟨-8, false⟩
      [writtenTo M TextCodec.latin1 (oneDevice "Model A" "2.4") (init 0)
        (phonesHome.map .inl) passAndMeasure] := by
  intro M
  refine ⟨by simp [SocketsOnly, passAndMeasure], by simp [passAndMeasure], ?_, rfl, by simp⟩
  exact carriesAll_oneDevice (by decide) (by decide) (by decide)

theorem number_ne_unknown (cps : Int) :
    QString.latin1 "CPS: " ++ QString.number cps ≠ QString.latin1 "CPS: ?" := by
  intro hlabel
  have hsplit : QString.latin1 "CPS: ?" = QString.latin1 "CPS: " ++ [0x3f] := rfl
  have hmark := List.append_cancel_left (hlabel.trans hsplit)
  rcases QString.mem_number (hmark ▸ List.mem_singleton_self _) with hsign | hdigit
  · exact absurd hsign (by decide)
  · exact absurd hdigit (by decide)

theorem monitor_shows_threads_phonesHome :
    let M := machine TextCodec.latin1 (fun _ => ⟨0, 0, 0⟩) 1 (id : Bool → Bool)
    ∃ monitor : Monitor,
      (Monitor.machine TextCodec.latin1 (oneDevice "Model A" "2.4")).run
          (some ⟨⟨-8, false⟩, [], MonitorWindow.buildGui⟩)
          ([writtenTo M TextCodec.latin1 (oneDevice "Model A" "2.4") (init 0)
            (phonesHome.map .inl) passAndMeasure].map .readyRead) = some monitor ∧
        monitor.window.cpsLabel ≠ QString.latin1 "CPS: ?" := by
  intro M
  obtain ⟨monitor, hrun, hrate, -⟩ := monitor_shows_threads TextCodec.latin1
    (fun _ => ⟨0, 0, 0⟩) 1 id 0 TextCodec.latin1_asciiTransparent watches_passAndMeasure
    (by decide) (by decide)
  refine ⟨monitor, hrun, ?_⟩
  rcases hrate with ⟨hnone, -⟩ | ⟨earlier, rest, hrecent, -, hcps, -⟩
  · exact absurd (by decide) hnone
  · rw [hcps]
    exact number_ne_unknown _

/-! ### When nothing more arrives -/

variable {codec memory recordsPerTick owner serves} {stream : κ → QByteArray}
  {before later : List (ThreadEvent ι κ)}

/-- **Finished is finished.** Once the workers have come to an end of what arrived, they
    handle no more reports until more arrives. -/
theorem Finishes.handled_append
    (hfinishes : Finishes codec memory recordsPerTick owner serves stream before)
    (hquiet : ∀ c bytes, .arrive c bytes ∉ later) :
    handled codec memory recordsPerTick owner serves (before ++ later) =
      handled codec memory recordsPerTick owner serves before := by
  obtain ⟨more, hmore⟩ : ∃ more, handled codec memory recordsPerTick owner serves
      (before ++ later) = handled codec memory recordsPerTick owner serves before ++ more := by
    rw [handled, performed_append, Machine.upstream_append, Schedule.handled,
      Machine.outputs_append]
    exact ⟨_, rfl⟩
  have hnone : ∀ c, Schedule.reportsOf c more = [] := by
    intro c
    have hall := Schedule.reportsOf_handled codec hfinishes.delivers c
    have hprogress := Schedule.progress_run codec c
      (Machine.upstream (performed codec memory recordsPerTick owner serves (before ++ later)))
    rw [received_performed, arrived_append c (hquiet c), (hfinishes.1 c).1,
      Schedule.Progress] at hprogress
    have hdrain := congrArg Outcome.emitted hprogress.drain_eq
    rw [Outcome.emitted_prepend] at hdrain
    have hreports : Schedule.reportsOf c (handled codec memory recordsPerTick owner serves
        (before ++ later)) = Schedule.streamReports codec (stream c) ++
          Schedule.reportsOf c more := by
      rw [hmore, Schedule.reportsOf_append, ← hall]
      rfl
    have hlength := congrArg List.length (hdrain.trans (congrArg (· ++ _) hreports))
    rw [List.length_append, List.length_append] at hlength
    have hsame : ((IotClient.rxLoop codec).drain IotClient.init (stream c)).emitted.length =
        (Schedule.streamReports codec (stream c)).length := rfl
    exact List.eq_nil_of_length_eq_zero (by omega)
  rcases more with _ | ⟨entry, more⟩
  · rw [hmore, List.append_nil]
  · have hentry : entry.2.1 ∈ Schedule.reportsOf entry.1 (entry :: more) :=
      List.mem_map_of_mem (List.mem_filter.mpr ⟨List.mem_cons_self .., decide_eq_true rfl⟩)
    rw [hnone] at hentry
    cases hentry

end ThreadState

/-! ### A pass over records whose versions do not change -/

namespace IoTServer

variable {memory : Memory} {recordsPerTick : Nat} {serves : BitVec 32}

/-- The steps of a pass are steps of the run. -/
theorem mem_latestPass {events : List ServerEvent} {step : ServerStep}
    (hstep : step ∈ latestPass memory recordsPerTick serves events) :
    ∃ done, done <+: events ∧ step.1 = after memory recordsPerTick serves done := by
  induction events using List.reverseRecOn with
  | nil => cases hstep
  | append_singleton events event ih =>
      have hcases : step ∈ latestPass memory recordsPerTick serves events ∨
          step = (after memory recordsPerTick serves events, event) := by
        rw [latestPass_concat, passSteps_concat] at hstep
        split at hstep
        · exact .inr (List.mem_singleton.mp hstep)
        · exact (List.mem_append.mp hstep).imp_right List.mem_singleton.mp
      rcases hcases with hearlier | rfl
      · obtain ⟨done, hdone, hserver⟩ := ih hearlier
        exact ⟨done, hdone.trans (List.prefix_append _ _), hserver⟩
      · exact ⟨events, List.prefix_append _ _, rfl⟩

theorem mem_recordList_of_mem_stepVisits {step : ServerStep} {visit : Visit}
    (hvisit : visit ∈ stepVisits recordsPerTick step) : visit.1 ∈ step.1.recordList := by
  unfold stepVisits at hvisit
  split at hvisit
  · split at hvisit
    · cases hvisit
    · have hmem := (visits_eq recordsPerTick _ visit hvisit).1
      rwa [toRecordStore_beginPass] at hmem
  · cases hvisit

/-- **A report of versions that do not change is exact.** -/
theorem Published.isHistogram_versions {events : List ServerEvent} {lock : Bool}
    {models versions : QMap}
    (hreport : Published recordsPerTick (after memory recordsPerTick serves events)
      (latestPass memory recordsPerTick serves (events ++ [.countMetrics lock])) models versions)
    {version : SizeT → QString}
    (hversion : ∀ done, done <+: events ++ [.countMetrics lock] → ∀ x record,
      (after memory recordsPerTick serves done).records.lookup x = some record →
        ((after memory recordsPerTick serves done).deref record).version = version x) :
    Histogram.IsHistogram versions
      ((after memory recordsPerTick serves events).listed Record.version) := by
  have hvisited : ∀ visit ∈ passVisits recordsPerTick
      (latestPass memory recordsPerTick serves (events ++ [.countMetrics lock])),
      ((after memory recordsPerTick serves events).deref visit.1).version = visit.2.version := by
    intro visit hvisit
    obtain ⟨step, hstep, hmem⟩ := List.mem_flatMap.mp hvisit
    obtain ⟨done, hdone, hserver⟩ := mem_latestPass hstep
    have hrecord := mem_recordList_of_mem_stepVisits hmem
    have hvalue := stepVisits_eq hmem
    rw [hserver] at hrecord hvalue
    have hinv : (after memory recordsPerTick serves done).Inv :=
      inv_after memory recordsPerTick serves done
    obtain ⟨x, hlookup⟩ := hinv.mem_recordList_iff.mp hrecord
    -- the record keeps its key, and the key its version, to the end of the pass
    obtain ⟨rest, hrest⟩ := hdone
    obtain ⟨hnow, -⟩ := deref_run memory recordsPerTick rest hinv hlookup
    rw [← Machine.run_append, hrest, Machine.run_concat] at hnow
    rw [toRecordStore_step] at hnow
    rw [hvalue, hversion events (List.prefix_append _ _) x visit.1 hnow,
      hversion done ⟨rest, hrest⟩ x visit.1 hlookup]
  have hlisted : (after memory recordsPerTick serves events).listed Record.version =
      (passVisits recordsPerTick (latestPass memory recordsPerTick serves
        (events ++ [.countMetrics lock]))).map fun visit => visit.2.version := by
    rw [hreport.listed_eq]
    exact List.map_congr_left hvisited
  rw [hlisted]
  exact hreport.versions_eq

end IoTServer

/-! ### A fleet on the screen -/

section Fleet

variable {κ : Type*} [Fintype κ] [DecidableEq κ] (drawn : κ → SizeT)

/-- A line for each text that some number of the fleet has, with how many have it. -/
def censusText (ofNumber : SizeT → QString) : QString :=
  ReportText.linesOf ((numbers drawn).image ofNumber)
    fun text => ((numbers drawn).filter fun x => ofNumber x = text).card

variable {drawn} in
omit [DecidableEq κ] in
theorem censusText_of_image_eq {ofNumber : SizeT → QString} {name : QString}
    (hname : (numbers drawn).image ofNumber = {name}) :
    censusText drawn ofNumber = QString.ofLines
      [ReportText.lineOf (name, ((numbers drawn).filter fun x => ofNumber x = name).card)] := by
  rw [censusText, hname, ReportText.linesOf, Finset.sort_singleton]
  rfl

/-- Every report handled is the boot of the number that is its key. -/
def OnlyBoots (events : List ServerEvent) : Prop :=
  ∀ handled ∈ handledReports events, handled.1 = bootReport handled.key

theorem OnlyBoots.of_prefix {events done : List ServerEvent} (hboots : OnlyBoots events)
    (hdone : done <+: events) : OnlyBoots done := fun handled hhandled =>
  hboots handled ((hdone.filterMap _).subset hhandled)

theorem OnlyBoots.fields_eq {events : List ServerEvent} (hboots : OnlyBoots events)
    {memory : Memory} {recordsPerTick : Nat} {serves : BitVec 32} {x : SizeT}
    {record : RecordPtr}
    (hlookup : (IoTServer.after memory recordsPerTick serves events).records.lookup x =
      some record) :
    ((IoTServer.after memory recordsPerTick serves events).deref record).model =
        (modelAndVersion x).1 ∧
      ((IoTServer.after memory recordsPerTick serves events).deref record).version =
        (modelAndVersion x).2 := by
  have hsummary := IoTServer.since_deref_eq_summary memory recordsPerTick serves events hlookup
  have hreport : ∀ handled ∈ handledFor x events, handled.1 = bootReport x := by
    intro handled hhandled
    obtain ⟨hmem, hkey⟩ := List.mem_filter.mp hhandled
    rw [hboots handled hmem, of_decide_eq_true hkey]
  rcases hreports : handledFor x events with _ | ⟨first, rest⟩
  · rw [hreports] at hsummary
    cases hsummary
  · rw [hreports] at hsummary hreport
    have hvalue := Option.some.inj hsummary
    have hfirst := hreport first (List.mem_cons_self ..)
    have hlast := hreport _ (List.getLast_mem (List.cons_ne_nil first rest))
    exact ⟨(congrArg Record.model hvalue).symm.trans (congrArg Report.model hfirst),
      (congrArg Record.version hvalue).symm.trans (congrArg Report.version hlast)⟩

/-- What is shown of a field that the key determines. -/
theorem shown_listed_of_keys {server : IoTServer} (hinv : server.Inv) {counts : QMap}
    {field : Record → QString} (hcounts : Histogram.IsHistogram counts (server.listed field))
    {ofKey : SizeT → QString}
    (hfield : ∀ x record, server.records.lookup x = some record →
      field (server.deref record) = ofKey x) :
    ReportText.shown IoTServer.sizeValue counts =
      ReportText.linesOf (server.records.keys.image ofKey)
        fun text => (server.records.keys.filter fun x => ofKey x = text).card := by
  have hcount : ∀ text, counts.countOf text =
      (server.records.keys.filter fun x => ofKey x = text).card := by
    intro text
    rw [← count_listed_of_keys hinv field ofKey hfield text]
    apply countOf_eq_count hcounts
    rw [IoTServer.length_listed]
    exact hinv.length_le
  have hkeys : counts.keys = server.records.keys.image ofKey := by
    ext text
    rw [hcounts.keys_eq, List.mem_toFinset, ← List.count_pos_iff, IoTServer.listed,
      count_listed_of_keys hinv field ofKey hfield, Finset.card_pos, Finset.mem_image]
    simp only [Finset.Nonempty, Finset.mem_filter]
  rw [ReportText.shown_eq_linesOf, hkeys, funext hcount]

variable {drawn}

omit [DecidableEq κ] in
/-- **A report on a fleet shows the census**, whenever the pass began. -/
theorem shown_of_census {memory : Memory} {recordsPerTick : Nat} {serves : BitVec 32}
    {events : List ServerEvent}
    (hreports : ∀ x, (handledFor x events).map Prod.fst =
      List.replicate (clientsOf drawn x).card (bootReport x))
    {lock : Bool} {models versions : QMap}
    (hpublished : ((IoTServer.after memory recordsPerTick serves events).countMetrics
      recordsPerTick lock).2 = some (models, versions)) :
    ReportText.shown IoTServer.sizeValue models =
        censusText drawn (fun x => (modelAndVersion x).1) ∧
      ReportText.shown IoTServer.sizeValue versions =
        censusText drawn (fun x => (modelAndVersion x).2) := by
  have hinv : (IoTServer.after memory recordsPerTick serves events).Inv :=
    IoTServer.inv_after memory recordsPerTick serves events
  have hcensus := census_of_handledFor memory recordsPerTick serves hreports
  have hkeys : (IoTServer.after memory recordsPerTick serves events).records.keys =
      numbers drawn := by
    ext x
    exact Finmap.mem_keys.trans (hcensus.mem_iff x)
  have hboots : OnlyBoots events := by
    intro handled hhandled
    have hmem : handled.1 ∈ (handledFor handled.key events).map Prod.fst :=
      List.mem_map_of_mem (List.mem_filter.mpr ⟨hhandled, decide_eq_true rfl⟩)
    rw [hreports] at hmem
    exact List.eq_of_mem_replicate hmem
  have hreport := IoTServer.published_of_countMetrics memory recordsPerTick serves events lock
    hpublished
  have hpass : OnlyBoots (events ++ [.countMetrics lock]) := by
    intro handled hhandled
    rw [handledReports, List.filterMap_append] at hhandled
    exact hboots handled (List.append_nil (handledReports events) ▸ hhandled)
  have hversions := hreport.isHistogram_versions fun done hdone x record hlookup =>
    ((hpass.of_prefix hdone).fields_eq hlookup).2
  rw [censusText, censusText, ← hkeys]
  exact ⟨shown_listed_of_keys hinv hreport.isHistogram_models
      fun x record hlookup => (hboots.fields_eq hlookup).1,
    shown_listed_of_keys hinv hversions fun x record hlookup => (hboots.fields_eq hlookup).2⟩

theorem handledFor_append_quiet {past recent earlier rest : List ServerEvent}
    (hquiet : handledReports (past ++ recent) = handledReports past)
    (hrecent : recent = earlier ++ rest) (x : SizeT) :
    handledFor x (past ++ earlier) = handledFor x past := by
  have hsplit : ∀ first second : List ServerEvent,
      handledReports (first ++ second) = handledReports first ++ handledReports second :=
    fun _ _ => List.filterMap_append
  rw [hrecent, hsplit, hsplit] at hquiet
  have hnone := List.append_eq_nil_iff.mp (List.append_right_eq_self.mp hquiet)
  rw [handledFor, handledFor, hsplit, hnone.1, List.append_nil]

/-- What is told of a fleet is its census. -/
structure CountsFleet (drawn : κ → SizeT) (told : List ServerOutput) : Prop where
  rate : ∀ rate, lastRate told = some rate → rate.2 = (numbers drawn).card
  models : ∀ maps, lastReport told = some maps →
    ReportText.shown IoTServer.sizeValue maps.1 = censusText drawn fun x => (modelAndVersion x).1
  versions : ∀ maps, lastReport told = some maps →
    ReportText.shown IoTServer.sizeValue maps.2 = censusText drawn fun x => (modelAndVersion x).2

/-- What the total and the areas show of a fleet: what `buildGui` has left there until a
    rate and a report have been told, the census from then on. -/
structure ShowsFleet (drawn : κ → SizeT) (told : List ServerOutput) (window : MonitorWindow) :
    Prop where
  totalDevices : window.totalDevicesLabel = QString.latin1 "Total Devices: " ++
    (lastRate told).elim (QString.latin1 "?") fun _ => QString.decimal (numbers drawn).card
  models : window.modelArea =
    (lastReport told).elim [] fun _ => censusText drawn fun x => (modelAndVersion x).1
  versions : window.versionArea =
    (lastReport told).elim [] fun _ => censusText drawn fun x => (modelAndVersion x).2

omit [DecidableEq κ] in
theorem CountsFleet.shows {told : List ServerOutput} (hcounts : CountsFleet drawn told) :
    ShowsFleet drawn told (.showing (lastRate told) (lastReport told)) := by
  refine ⟨?_, ?_, ?_⟩
  · rcases hrate : lastRate told with _ | rate
    · rfl
    · have htotal : QString.number rate.2 = QString.decimal (numbers drawn).card := by
        rw [hcounts.rate rate hrate]
        rfl
      exact congrArg (QString.latin1 "Total Devices: " ++ ·) htotal
  · rcases hreport : lastReport told with _ | maps
    · rfl
    · exact hcounts.models maps hreport
  · rcases hreport : lastReport told with _ | maps
    · rfl
    · exact hcounts.versions maps hreport

omit [DecidableEq κ] in
theorem ShowsFleet.areas_eq {told : List ServerOutput} {window : MonitorWindow}
    (hshows : ShowsFleet drawn told window) (hreport : lastReport told ≠ none) :
    (window.modelArea = censusText drawn fun x => (modelAndVersion x).1) ∧
      window.versionArea = censusText drawn fun x => (modelAndVersion x).2 := by
  obtain ⟨maps, hmaps⟩ := Option.ne_none_iff_exists'.mp hreport
  refine ⟨hshows.models.trans ?_, hshows.versions.trans ?_⟩
  · rw [hmaps]
    rfl
  · rw [hmaps]
    rfl

omit [DecidableEq κ] in
theorem countsFleet_told (memory : Memory) (recordsPerTick : Nat) (serves : BitVec 32)
    {past recent : List ServerEvent}
    (hreports : ∀ x, (handledFor x past).map Prod.fst =
      List.replicate (clientsOf drawn x).card (bootReport x))
    (hquiet : handledReports (past ++ recent) = handledReports past) :
    CountsFleet drawn (IoTServer.told memory recordsPerTick serves past recent) := by
  have hthen : ∀ earlier event rest, recent = earlier ++ event :: rest →
      ∀ x, (handledFor x (past ++ earlier)).map Prod.fst =
        List.replicate (clientsOf drawn x).card (bootReport x) := by
    intro earlier event rest hrecent x
    rw [handledFor_append_quiet hquiet hrecent, hreports]
  have hreport : ∀ maps,
      lastReport (IoTServer.told memory recordsPerTick serves past recent) = some maps →
      ReportText.shown IoTServer.sizeValue maps.1 =
          censusText drawn (fun x => (modelAndVersion x).1) ∧
        ReportText.shown IoTServer.sizeValue maps.2 =
          censusText drawn (fun x => (modelAndVersion x).2) := by
    intro maps hmaps
    obtain ⟨earlier, lock, rest, hrecent, -, hpublished⟩ := IoTServer.lastReport_eq_some hmaps
    exact shown_of_census (hthen _ _ _ hrecent) hpublished
  refine ⟨?_, fun maps hmaps => (hreport maps hmaps).1, fun maps hmaps => (hreport maps hmaps).2⟩
  intro rate hrate
  obtain ⟨earlier, rest, hrecent, -, rfl⟩ := IoTServer.lastRate_eq_some hrate
  have hcensus := census_of_handledFor memory recordsPerTick serves (hthen _ _ _ hrecent)
  exact congrArg Nat.cast hcensus.size_eq

section Threads

variable {ι : Type*} [DecidableEq ι] {codec : TextCodec} {memory : Memory} {recordsPerTick : Nat}
  {owner : κ → ι} {serves : BitVec 32} {before later : List (ThreadEvent ι κ)}

theorem countsFleet_idle (hcodec : codec.AsciiTransparent)
    (hfinishes : ThreadState.Finishes codec memory recordsPerTick owner serves
      (fun c => codec.toUtf8 (srvConnect (drawn c))) before)
    (hquiet : ∀ c bytes, .arrive c bytes ∉ later)
    (hconnects : (ThreadState.after codec memory recordsPerTick owner serves before).main = .idle)
    (hends : (ThreadState.after codec memory recordsPerTick owner serves
      (before ++ later)).main = .idle) :
    CountsFleet drawn ((ThreadState.machine codec memory recordsPerTick owner).outputs
      (ThreadState.after codec memory recordsPerTick owner serves before) later) := by
  have hnone : handledReports (ThreadState.serverEvents codec (ThreadState.performed codec
      memory recordsPerTick owner serves before) ++
        ThreadState.serverEventsLater codec memory recordsPerTick owner serves before later) =
      handledReports (ThreadState.serverEvents codec (ThreadState.performed codec memory
        recordsPerTick owner serves before)) := by
    rw [← ThreadState.serverEvents_append, ThreadState.handledReports_serverEvents,
      ThreadState.handledReports_serverEvents, hfinishes.handled_append hquiet]
  rw [ThreadState.told_threads codec memory recordsPerTick owner serves hconnects hends]
  exact countsFleet_told memory recordsPerTick serves (handledFor_finishes hcodec hfinishes) hnone

/-- Once the workers have come to an end of the boots of a fleet, what is told is its
    census, whatever the main thread is doing when one looks. -/
theorem countsFleet_threads (hcodec : codec.AsciiTransparent)
    (hfinishes : ThreadState.Finishes codec memory recordsPerTick owner serves
      (fun c => codec.toUtf8 (srvConnect (drawn c))) before)
    (hquiet : ∀ c bytes, .arrive c bytes ∉ later)
    (hconnects :
      (ThreadState.after codec memory recordsPerTick owner serves before).main = .idle) :
    CountsFleet drawn ((ThreadState.machine codec memory recordsPerTick owner).outputs
      (ThreadState.after codec memory recordsPerTick owner serves before) later) := by
  have hdone : ∀ done, done <+: later → ((ThreadState.machine codec memory recordsPerTick
      owner).run (ThreadState.after codec memory recordsPerTick owner serves before) done).main =
        .idle →
      CountsFleet drawn ((ThreadState.machine codec memory recordsPerTick owner).outputs
        (ThreadState.after codec memory recordsPerTick owner serves before) done) := by
    intro done hearlier hidle
    apply countsFleet_idle hcodec hfinishes
      (fun c bytes hmem => hquiet c bytes (hearlier.subset hmem)) hconnects
    rwa [ThreadState.after, Machine.run_append]
  -- the tick or slot that told the latest value has just ended
  refine ⟨fun rate hrate => ?_, fun maps hmaps => ?_, fun maps hmaps => ?_⟩
  · obtain ⟨done, hearlier, hlast, hidle⟩ := ThreadState.exists_idle_prefix codec memory
      recordsPerTick owner ServerOutput.rate? hrate
    exact (hdone done hearlier hidle).rate rate hlast
  · obtain ⟨done, hearlier, hlast, hidle⟩ := ThreadState.exists_idle_prefix codec memory
      recordsPerTick owner ServerOutput.report? hmaps
    exact (hdone done hearlier hidle).models maps hlast
  · obtain ⟨done, hearlier, hlast, hidle⟩ := ThreadState.exists_idle_prefix codec memory
      recordsPerTick owner ServerOutput.report? hmaps
    exact (hdone done hearlier hidle).versions maps hlast

end Threads

/-- **From the fleet to the screen.** Any number of phone-home clients have sent their
    boots and the worker threads have come to an end of them when a monitor connects,
    between two ticks. Whatever the threads do then while no more bytes arrive, the
    monitor shows whenever it has read what was written to it, in any chunks: as total
    the number of numbers kept once a rate has been told, and a line for each model and
    each version of the fleet with how many numbers have it once a report has been told. -/
theorem fleet_on_screen {ι : Type*} [DecidableEq ι] {codec : TextCodec}
    (hcodec : codec.AsciiTransparent) {json : JsonText} {memory : Memory} {recordsPerTick : Nat}
    {owner : κ → ι} {serves : BitVec 32} {before later : List (ThreadEvent ι κ ⊕ MonitorEvent)}
    {link : Link} {chunks : List QByteArray}
    (hwatches : Watches (ThreadState.machine codec memory recordsPerTick owner) codec json
      (ThreadState.init serves) before later link chunks)
    (hfinishes : ThreadState.Finishes codec memory recordsPerTick owner serves
      (fun c => codec.toUtf8 (srvConnect (drawn c))) (Machine.upstream before))
    (hquiet : ∀ c bytes, .arrive c bytes ∉ Machine.upstream later)
    (hconnects : (ThreadState.after codec memory recordsPerTick owner serves
      (Machine.upstream before)).main = .idle) :
    let told := (ThreadState.machine codec memory recordsPerTick owner).outputs
      (ThreadState.after codec memory recordsPerTick owner serves (Machine.upstream before))
      (Machine.upstream later)
    ∃ monitor : Monitor,
      (Monitor.machine codec json).run (some ⟨link, [], MonitorWindow.buildGui⟩)
          (chunks.map .readyRead) = some monitor ∧
        ShowsFleet drawn told monitor.window := by
  intro told
  obtain ⟨next, -, hrun⟩ := hwatches.window hcodec
  exact ⟨_, hrun, (countsFleet_threads hcodec hfinishes hquiet hconnects).shows⟩

end Fleet

theorem finishes_phonesHome :
    ThreadState.Finishes TextCodec.latin1 (fun _ => ⟨0, 0, 0⟩) 1 id 0
      (fun c => TextCodec.latin1.toUtf8 (srvConnect (sameNumber c)))
      (Machine.upstream (phonesHome.map .inl : List (ThreadEvent Bool Bool ⊕ MonitorEvent))) := by
  unfold ThreadState.Finishes
  decide

theorem fleet_on_screen_phonesHome :
    let M := ThreadState.machine TextCodec.latin1 (fun _ => ⟨0, 0, 0⟩) 1 (id : Bool → Bool)
    ∃ monitor : Monitor,
      (Monitor.machine TextCodec.latin1 (oneDevice "Model A" "2.4")).run
          (some ⟨⟨-8, false⟩, [], MonitorWindow.buildGui⟩)
          ([writtenTo M TextCodec.latin1 (oneDevice "Model A" "2.4") (ThreadState.init 0)
            (phonesHome.map .inl) ThreadState.passAndMeasure].map .readyRead) = some monitor ∧
        monitor.window.modelArea = QString.latin1 "Model A   1\n" ∧
        monitor.window.totalDevicesLabel = QString.latin1 "Total Devices: 1" := by
  intro M
  obtain ⟨monitor, hrun, hshows⟩ := fleet_on_screen TextCodec.latin1_asciiTransparent
    ThreadState.watches_passAndMeasure finishes_phonesHome
    (by simp [ThreadState.passAndMeasure, Machine.upstream]) (by decide)
  refine ⟨monitor, hrun, ?_, ?_⟩
  · have hmodels : (numbers sameNumber).image (fun x => (modelAndVersion x).1) =
        {QString.latin1 "Model A"} := by decide
    rw [(hshows.areas_eq (by decide)).1, censusText_of_image_eq hmodels]
    decide
  · rw [hshows.totalDevices]
    decide

end IoTTracker
