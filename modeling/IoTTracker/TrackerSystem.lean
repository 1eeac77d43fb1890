import IoTTracker.MonitorWindow
import IoTTracker.MonitorHistory
import IoTTracker.MetricsReport
import IoTTracker.Simulation

/-!
# The tracker as one system

The server feeds the remote monitor server, which writes to the monitors that are
connected, and each monitor reads what was written to it in chunks of its own. So a
monitor's window shows what the server has told since the monitor connected: the
rate and the number of devices at the latest `measure`, and the models and
versions that the latest completed pass has counted, a line for each.
-/

namespace IoTTracker

open RemoteMonitorServer (MonitorEvent.broadcast?)

/-! ### What is written to a live monitor -/

namespace RemoteMonitorServer

theorem mem_clients_step (codec : TextCodec) {server : RemoteMonitorServer} (hinv : server.Inv)
    {monitor : MonitorPtr} (hmonitor : monitor ∈ server.clients) {event : MonitorEvent}
    (hlive : event ≠ .disconnect monitor) :
    monitor ∈ ((machine codec).step server event).1.clients := by
  cases event with
  | incomingConnection => exact List.mem_append_left _ hmonitor
  | disconnect client =>
      change monitor ∈ (server.removeClient client).clients
      rw [clients_removeClient, hinv.nodup.mem_erase_iff]
      refine ⟨?_, hmonitor⟩
      rintro rfl
      exact hlive rfl
  | broadcast b =>
      change monitor ∈ (server.broadcast codec b).clients
      rwa [clients_broadcast]

theorem written_step (codec : TextCodec) {server : RemoteMonitorServer} (hinv : server.Inv)
    {monitor : MonitorPtr} (hmonitor : monitor ∈ server.clients) (event : MonitorEvent) :
    ((machine codec).step server event).1.written monitor =
      server.written monitor ++ (MonitorEvent.broadcast? event).toList.flatMap (frame codec) := by
  cases event with
  | incomingConnection => exact (List.append_nil _).symm
  | disconnect client => exact (List.append_nil _).symm
  | broadcast b =>
      have hframe := written_broadcast codec b hinv.nodup monitor
      rw [if_pos hmonitor] at hframe
      refine hframe.trans (congrArg _ ?_)
      exact (List.append_nil _).symm

/-- **A live monitor is sent every broadcast**, whatever monitors come and go. -/
theorem written_run_live (codec : TextCodec) {monitor : MonitorPtr} {events : List MonitorEvent}
    (hlive : .disconnect monitor ∉ events) : ∀ {server : RemoteMonitorServer}, server.Inv →
      monitor ∈ server.clients →
      ((machine codec).run server events).written monitor = server.written monitor ++
        (events.filterMap MonitorEvent.broadcast?).flatMap (frame codec) := by
  induction events with
  | nil =>
      intro server _ _
      exact (List.append_nil _).symm
  | cons event events ih =>
      intro server hinv hmonitor
      obtain ⟨hevent, hlater⟩ := not_or.mp (mt List.mem_cons.mpr hlive)
      have hstep := written_step codec hinv hmonitor event
      have hrun := ih hlater (inv_step codec hinv event)
        (mem_clients_step codec hinv hmonitor (Ne.symm hevent))
      rw [hstep, List.append_assoc, ← List.flatMap_append] at hrun
      refine hrun.trans ?_
      rcases hbroadcast : MonitorEvent.broadcast? event with _ | b <;>
        simp [hbroadcast]

end RemoteMonitorServer

/-! ### The server and its monitors -/

section System

variable {σ ε : Type*} (M : Machine σ ε ServerOutput) (codec : TextCodec) (json : JsonText)

def fed (output : ServerOutput) : List MonitorEvent :=
  (output.broadcasts json).map .broadcast

/-- A server of any kind with the remote monitor server it writes to. -/
def tracker : Machine (σ × RemoteMonitorServer) (ε ⊕ MonitorEvent) Empty :=
  M.feed (RemoteMonitorServer.machine codec) (fed json)

/-- Sockets connect and disconnect; only the server broadcasts. -/
def SocketsOnly (events : List (ε ⊕ MonitorEvent)) : Prop := ∀ b, .inr (.broadcast b) ∉ events

theorem disconnect_notMem_received (s : σ) {events : List (ε ⊕ MonitorEvent)}
    {monitor : MonitorPtr} (hlive : .inr (.disconnect monitor) ∉ events) :
    .disconnect monitor ∉ Machine.received M (fed json) s events := by
  intro hmem
  rcases Machine.mem_received M (fed json) s events hmem with hevent | ⟨output, hfed⟩
  · exact hlive hevent
  · obtain ⟨b, -, hb⟩ := List.mem_map.mp hfed
    cases hb

theorem broadcasts_received (s : σ) {events : List (ε ⊕ MonitorEvent)}
    (hsockets : SocketsOnly events) :
    (Machine.received M (fed json) s events).filterMap MonitorEvent.broadcast? =
      (M.outputs s (Machine.upstream events)).flatMap (ServerOutput.broadcasts json) := by
  rw [Machine.filterMap_received]
  · rw [List.filterMap_flatMap]
    congr 1
    funext output
    rw [fed, List.filterMap_map]
    exact List.filterMap_some
  · intro event hevent
    cases event with
    | broadcast b => exact absurd hevent (hsockets b)
    | incomingConnection => rfl
    | disconnect client => rfl

theorem inv_tracker (s : σ) (events : List (ε ⊕ MonitorEvent)) :
    ((tracker M codec json).run (s, RemoteMonitorServer.init) events).2.Inv := by
  rw [tracker, Machine.run_feed]
  exact RemoteMonitorServer.inv_after codec _

theorem run_tracker_fst (s : σ) (events : List (ε ⊕ MonitorEvent)) :
    ((tracker M codec json).run (s, RemoteMonitorServer.init) events).1 =
      M.run s (Machine.upstream events) := by
  rw [tracker, Machine.run_feed]

theorem written_connected (s : σ) {server : RemoteMonitorServer} (hinv : server.Inv)
    {later : List (ε ⊕ MonitorEvent)} (hsockets : SocketsOnly later)
    (hlive : .inr (.disconnect server.connected) ∉ later) :
    ((tracker M codec json).run (s, server.incomingConnection) later).2.written
        server.connected =
      ((M.outputs s (Machine.upstream later)).flatMap
        (ServerOutput.broadcasts json)).flatMap (RemoteMonitorServer.frame codec) := by
  have hconnected := RemoteMonitorServer.inv_step codec hinv .incomingConnection
  have hmember : server.connected ∈ server.incomingConnection.clients :=
    List.mem_append_right _ (List.mem_singleton_self _)
  have hempty : server.incomingConnection.written server.connected = [] :=
    hinv.written_eq server.connected le_rfl
  have hwritten := RemoteMonitorServer.written_run_live codec
    (disconnect_notMem_received M json s hlive) hconnected hmember
  rw [broadcasts_received M json s hsockets] at hwritten
  rw [tracker, Machine.run_feed]
  exact hwritten.trans (congrArg (· ++ _) hempty)

/-- The monitor that connects after some events of the tracker. -/
def nextMonitor (s : σ) (before : List (ε ⊕ MonitorEvent)) : MonitorPtr :=
  ((tracker M codec json).run (s, RemoteMonitorServer.init) before).2.connected

/-- The bytes written to a monitor that connects between two stretches of a run. -/
def writtenTo (s : σ) (before later : List (ε ⊕ MonitorEvent)) : QByteArray :=
  ((tracker M codec json).run (s, RemoteMonitorServer.init)
    (before ++ .inr .incomingConnection :: later)).2.written (nextMonitor M codec json s before)

/-- A monitor that connects between two stretches of a run and stays, its link in line
    mode, and has read in these chunks what was written to it. Only the server
    broadcasts, and the documents of the second stretch can be sent and read back. -/
structure Watches (s : σ) (before later : List (ε ⊕ MonitorEvent)) (link : Link)
    (chunks : List QByteArray) : Prop where
  sockets : SocketsOnly later
  live : .inr (.disconnect (nextMonitor M codec json s before)) ∉ later
  carries : json.CarriesAll
    (M.outputs (M.run s (Machine.upstream before)) (Machine.upstream later))
  lineMode : link.binaryMode = false
  read : chunks.flatten = writtenTo M codec json s before later

variable {M codec json}

/-- What was written to a monitor that watches are the frames of what was told. -/
theorem Watches.flatten_chunks {s : σ} {before later : List (ε ⊕ MonitorEvent)} {link : Link}
    {chunks : List QByteArray} (hwatches : Watches M codec json s before later link chunks) :
    chunks.flatten = ((M.outputs (M.run s (Machine.upstream before))
      (Machine.upstream later)).flatMap (ServerOutput.broadcasts json)).flatMap
        (RemoteMonitorServer.frame codec) := by
  have hwritten := written_connected M codec json
    ((tracker M codec json).run (s, RemoteMonitorServer.init) before).1
    (inv_tracker M codec json s before) hwatches.sockets hwatches.live
  have hrun : (tracker M codec json).run (s, RemoteMonitorServer.init)
      (before ++ .inr .incomingConnection :: later) = _ := Machine.run_append _ _ before _
  rw [run_tracker_fst] at hwritten
  rw [hwatches.read, writtenTo, hrun]
  refine Eq.trans ?_ hwritten
  rw [← run_tracker_fst M codec json]
  rfl

/-- **From the server to the window.** A monitor that watches a stretch of a run shows
    the latest rate and report that the server has told in it. -/
theorem Watches.window (hcodec : codec.AsciiTransparent) {s : σ}
    {before later : List (ε ⊕ MonitorEvent)} {link : Link} {chunks : List QByteArray}
    (hwatches : Watches M codec json s before later link chunks) :
    let told := M.outputs (M.run s (Machine.upstream before)) (Machine.upstream later)
    ∃ next : Link, next.binaryMode = false ∧
      (Monitor.machine codec json).run (some ⟨link, [], MonitorWindow.buildGui⟩)
          (chunks.map .readyRead) =
        some ⟨next, [], MonitorWindow.showing (lastRate told) (lastReport told)⟩ :=
  Monitor.run_told hcodec hwatches.carries hwatches.lineMode hwatches.flatten_chunks

end System

/-! ### What a report says -/

namespace ReportText

/-- A line for each of the values, in order, with how often it occurs. -/
def countedText (values : List QString) : QString := linesOf values.toFinset values.count

theorem shown_eq_linesOf (counts : QMap) :
    shown IoTServer.sizeValue counts = linesOf counts.keys counts.countOf := by
  have hnumbers : numbers IoTServer.sizeValue counts =
      counts.keys.sort.map fun name => (name, counts.countOf name) := by
    rw [numbers, OrderedEntries.entries, List.map_filterMap, ← List.filterMap_eq_map]
    apply List.filterMap_congr
    intro name hname
    obtain ⟨n, hn⟩ := Finmap.mem_iff.mp (Finmap.mem_keys.mp ((Finset.mem_sort _).mp hname))
    simp only [hn, QMap.countOf, Option.map_some, Option.getD_some, Function.comp]
    rfl
  rw [shown_eq_ofLines, hnumbers, List.map_map, linesOf]
  rfl

/-- **The text of a histogram** is a line for each value counted. -/
theorem shown_of_isHistogram {counts : QMap} {values : List QString}
    (hcounts : Histogram.IsHistogram counts values) (hlength : values.length ≤ 2 ^ 32) :
    shown IoTServer.sizeValue counts = countedText values := by
  have hcount : counts.countOf = values.count :=
    funext fun name => countOf_eq_count hcounts hlength name
  rw [shown_eq_linesOf, hcounts.keys_eq, hcount, countedText]

end ReportText

/-! ### What the window says about the server -/

namespace IoTServer

variable (memory : Memory) (recordsPerTick : Nat) (serves : BitVec 32)

/-- What the server tells in a stretch of a run. -/
abbrev told (past recent : List ServerEvent) : List ServerOutput :=
  (machine memory recordsPerTick).outputs (after memory recordsPerTick serves past) recent

theorem rate_step (server : IoTServer) (event : ServerEvent) :
    ((machine memory recordsPerTick).step server event).2.filterMap ServerOutput.rate? =
      if event = .measure then [(server.serves.toInt, (server.size : Int))] else [] := by
  cases event with
  | countMetrics lock =>
      change List.filterMap ServerOutput.rate? (Option.toList _) = []
      rcases (server.countMetrics recordsPerTick lock).2 with _ | maps <;> rfl
  | report report now => rfl
  | measure => rfl
  | incomingConnection => rfl

theorem report_step (server : IoTServer) (event : ServerEvent) :
    ((machine memory recordsPerTick).step server event).2.filterMap ServerOutput.report? =
      match event with
      | .countMetrics lock => (server.countMetrics recordsPerTick lock).2.toList
      | _ => [] := by
  cases event with
  | countMetrics lock =>
      change List.filterMap ServerOutput.report? (Option.toList _) = Option.toList _
      rcases (server.countMetrics recordsPerTick lock).2 with _ | maps <;> rfl
  | report report now => rfl
  | measure => rfl
  | incomingConnection => rfl

theorem rates_eq_nil_iff (server : IoTServer) (events : List ServerEvent) :
    ((machine memory recordsPerTick).outputs server events).filterMap ServerOutput.rate? = [] ↔
      .measure ∉ events := by
  induction events generalizing server with
  | nil => simp [Machine.outputs]
  | cons event events ih =>
      rw [Machine.outputs, List.filterMap_append, List.append_eq_nil_iff, ih, rate_step,
        List.mem_cons, not_or]
      refine and_congr_left fun _ => ?_
      by_cases hmeasure : event = .measure
      · simp [hmeasure]
      · simp [hmeasure, Ne.symm hmeasure]

/-- The labels show the latest `measure` of the stretch, if there was one. -/
def ShowsRate (past recent : List ServerEvent) (window : MonitorWindow) : Prop :=
  (.measure ∉ recent ∧ window.cpsLabel = QString.latin1 "CPS: ?" ∧
      window.totalDevicesLabel = QString.latin1 "Total Devices: ?") ∨
    ∃ earlier rest, recent = earlier ++ .measure :: rest ∧ .measure ∉ rest ∧
      let server := after memory recordsPerTick serves (past ++ earlier)
      window.cpsLabel = QString.latin1 "CPS: " ++ QString.number server.serves.toInt ∧
        window.totalDevicesLabel = QString.latin1 "Total Devices: " ++ QString.decimal server.size

/-- The areas show the latest pass completed in the stretch, if there was one: the
    models of all records of that time, the versions as the pass has found them. -/
def ShowsReport (past recent : List ServerEvent) (window : MonitorWindow) : Prop :=
  (lastReport (told memory recordsPerTick serves past recent) = none ∧
      window.modelArea = [] ∧ window.versionArea = []) ∨
    ∃ earlier lock rest, recent = earlier ++ .countMetrics lock :: rest ∧
      lastReport (told memory recordsPerTick serves (past ++ earlier ++ [.countMetrics lock])
        rest) = none ∧
      let server := after memory recordsPerTick serves (past ++ earlier)
      (server.countMetrics recordsPerTick lock).2.isSome = true ∧
        window.modelArea = ReportText.countedText (server.listed Record.model) ∧
        window.versionArea = ReportText.countedText ((passVisits recordsPerTick
          (latestPass memory recordsPerTick serves
            (past ++ earlier ++ [.countMetrics lock]))).map fun visit => visit.2.version)

variable {memory recordsPerTick serves} {past recent : List ServerEvent}

theorem lastRate_eq_some {rate : Int × Int}
    (hrate : lastRate (told memory recordsPerTick serves past recent) = some rate) :
    ∃ earlier rest, recent = earlier ++ .measure :: rest ∧ .measure ∉ rest ∧
      let server := after memory recordsPerTick serves (past ++ earlier)
      rate = (server.serves.toInt, (server.size : Int)) := by
  obtain ⟨earlier, event, rest, rfl, hvalue, hrest⟩ :=
    (machine memory recordsPerTick).exists_last_output ServerOutput.rate? hrate
  rw [rate_step] at hvalue
  by_cases hmeasure : event = .measure
  · subst hmeasure
    rw [if_pos rfl, ← Machine.run_append] at hvalue
    refine ⟨earlier, rest, rfl, ?_, (Option.some.inj hvalue).symm⟩
    exact (rates_eq_nil_iff memory recordsPerTick _ rest).mp hrest
  · rw [if_neg hmeasure] at hvalue
    cases hvalue

theorem lastReport_eq_some {maps : QMap × QMap}
    (hreport : lastReport (told memory recordsPerTick serves past recent) = some maps) :
    ∃ earlier lock rest, recent = earlier ++ .countMetrics lock :: rest ∧
      lastReport (told memory recordsPerTick serves (past ++ earlier ++ [.countMetrics lock])
        rest) = none ∧
      ((after memory recordsPerTick serves (past ++ earlier)).countMetrics
        recordsPerTick lock).2 = some maps := by
  obtain ⟨earlier, event, rest, rfl, hvalue, hrest⟩ :=
    (machine memory recordsPerTick).exists_last_output ServerOutput.report? hreport
  rw [report_step] at hvalue
  cases event with
  | countMetrics lock =>
      have hlast : ∀ o : Option (QMap × QMap), o.toList.getLast? = o := by
        rintro (_ | _) <;> rfl
      refine ⟨earlier, lock, rest, rfl, ?_, ?_⟩
      · rw [told, after, List.append_assoc, Machine.run_append]
        exact List.getLast?_eq_none_iff.mpr hrest
      · rw [after, Machine.run_append]
        exact (hlast _).symm.trans hvalue
  | report report now => cases hvalue
  | measure => cases hvalue
  | incomingConnection => cases hvalue

variable (memory recordsPerTick serves past recent)

theorem showsRate_told (report : Option (QMap × QMap)) :
    ShowsRate memory recordsPerTick serves past recent
      (.showing (lastRate (told memory recordsPerTick serves past recent)) report) := by
  rcases hrate : lastRate (told memory recordsPerTick serves past recent) with _ | rate
  · refine .inl ⟨?_, rfl, rfl⟩
    rw [← rates_eq_nil_iff memory recordsPerTick (after memory recordsPerTick serves past)]
    exact List.getLast?_eq_none_iff.mp hrate
  · obtain ⟨earlier, rest, hrecent, hrest, rfl⟩ := lastRate_eq_some hrate
    exact .inr ⟨earlier, rest, hrecent, hrest, rfl, rfl⟩

theorem showsReport_told (rate : Option (Int × Int)) :
    ShowsReport memory recordsPerTick serves past recent
      (.showing rate (lastReport (told memory recordsPerTick serves past recent))) := by
  rcases hreport : lastReport (told memory recordsPerTick serves past recent) with _ | maps
  · exact .inl ⟨hreport, rfl, rfl⟩
  · obtain ⟨earlier, lock, rest, hrecent, hrest, hpublished⟩ := lastReport_eq_some hreport
    have hinv : (after memory recordsPerTick serves (past ++ earlier)).Inv :=
      inv_after memory recordsPerTick serves (past ++ earlier)
    have hmaps := published_of_countMetrics memory recordsPerTick serves (past ++ earlier)
      lock hpublished
    refine .inr ⟨earlier, lock, rest, hrecent, hrest, ?_, ?_, ?_⟩
    · rw [hpublished]
      rfl
    · apply ReportText.shown_of_isHistogram hmaps.isHistogram_models
      rw [length_listed]
      exact hinv.length_le
    · apply ReportText.shown_of_isHistogram hmaps.versions_eq
      rw [List.length_map, hmaps.length_eq]
      exact hinv.length_le

end IoTServer

/-- **A monitor shows what the server knew.** Whatever happens to server and monitors,
    a monitor that connects at some time and stays, with its link in line mode, shows
    once it has read what was written to it, in any chunks: the rate and the number
    of records at the latest `measure` since, and a line for each model and each
    version counted by the latest pass completed since, the models exactly as they
    were in the records then. -/
theorem monitor_shows_server {codec : TextCodec} (hcodec : codec.AsciiTransparent)
    {json : JsonText} {memory : Memory} {recordsPerTick : Nat} {serves : BitVec 32}
    {before later : List (ServerEvent ⊕ MonitorEvent)} {link : Link} {chunks : List QByteArray}
    (hwatches : Watches (IoTServer.machine memory recordsPerTick) codec json
      (IoTServer.init serves) before later link chunks) :
    ∃ monitor : Monitor,
      (Monitor.machine codec json).run (some ⟨link, [], MonitorWindow.buildGui⟩)
          (chunks.map .readyRead) = some monitor ∧
        monitor.link.binaryMode = false ∧ monitor.server = [] ∧
        IoTServer.ShowsRate memory recordsPerTick serves (Machine.upstream before)
          (Machine.upstream later) monitor.window ∧
        IoTServer.ShowsReport memory recordsPerTick serves (Machine.upstream before)
          (Machine.upstream later) monitor.window := by
  obtain ⟨next, hnext, hrun⟩ := hwatches.window hcodec
  refine ⟨_, hrun, hnext, rfl, ?_, ?_⟩
  · exact IoTServer.showsRate_told memory recordsPerTick serves _ _ _
  · exact IoTServer.showsReport_told memory recordsPerTick serves _ _ _

/-- The text of the report on one device. -/
def oneDeviceText (model version : String) : QByteArray :=
  QByteArray.latin1 <|
    "\x7b\n    \"models\": \x7b\n        \"" ++ model ++ "\": \"1\"\n    \x7d,\n" ++
      "    \"versions\": \x7b\n        \"" ++ version ++ "\": \"1\"\n    \x7d\n\x7d\n"

/-- What Qt does with the report on one device. -/
def oneDevice (model version : String) : JsonText where
  toJson _ := oneDeviceText model version
  fromJson data :=
    if data = oneDeviceText model version then
      IoTServer.buildJsonDoc IoTServer.sizeValue (Finmap.singleton (QString.latin1 model) 1)
        (Finmap.singleton (QString.latin1 version) 1)
    else ∅

theorem carriesAll_oneDevice {model version : String} {told : List ServerOutput}
    (hreports : told.filterMap ServerOutput.report? =
      [(Finmap.singleton (QString.latin1 model) 1, Finmap.singleton (QString.latin1 version) 1)])
    (hlength : (oneDeviceText model version).length < 2 ^ 31)
    (hzero : 0 ∉ oneDeviceText model version) : (oneDevice model version).CarriesAll told := by
  intro maps hmaps
  obtain rfl := List.mem_singleton.mp (hreports ▸ hmaps)
  refine ⟨?_, hlength, hzero⟩
  simp only [oneDevice, if_true]

def oneBoot : List (ServerEvent ⊕ MonitorEvent) :=
  [.inl (.report ⟨.boot, QString.latin1 "7", QString.latin1 "A", QString.latin1 "1.0"⟩ 10),
    .inr .incomingConnection]

def measuredAndCounted : List (ServerEvent ⊕ MonitorEvent) :=
  [.inl .measure, .inr (.disconnect 0), .inl (.countMetrics true)]

/-- The second of two monitors, the first of which leaves. -/
theorem monitor_shows_server_oneDevice :
    let written := writtenTo (IoTServer.machine (fun _ => ⟨0, 0, 0⟩) 1) TextCodec.latin1
      (oneDevice "A" "1.0") (IoTServer.init 0) oneBoot measuredAndCounted
    ∃ monitor : Monitor,
      (Monitor.machine TextCodec.latin1 (oneDevice "A" "1.0")).run
          (some ⟨⟨-8, false⟩, [], MonitorWindow.buildGui⟩)
          ([written.take 30, written.drop 30].map .readyRead) = some monitor ∧
        IoTServer.ShowsReport (fun _ => ⟨0, 0, 0⟩) 1 0 (Machine.upstream oneBoot)
          (Machine.upstream measuredAndCounted) monitor.window := by
  intro written
  have hwatches : Watches (IoTServer.machine (fun _ => ⟨0, 0, 0⟩) 1) TextCodec.latin1
      (oneDevice "A" "1.0") (IoTServer.init 0) oneBoot measuredAndCounted ⟨-8, false⟩
      [written.take 30, written.drop 30] := by
    refine ⟨by simp [SocketsOnly, measuredAndCounted], ?_, ?_, rfl, by simp [written]⟩
    · have hnext : nextMonitor (IoTServer.machine (fun _ => ⟨0, 0, 0⟩) 1) TextCodec.latin1
          (oneDevice "A" "1.0") (IoTServer.init 0) oneBoot = 1 := by decide
      rw [hnext]
      simp [measuredAndCounted]
    · exact carriesAll_oneDevice (by decide) (by decide) (by decide)
  obtain ⟨monitor, hrun, -, -, -, hreport⟩ :=
    monitor_shows_server TextCodec.latin1_asciiTransparent hwatches
  exact ⟨monitor, hrun, hreport⟩

end IoTTracker
