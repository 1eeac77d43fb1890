import IoTTracker.MonitorProtocol
import IoTTracker.ReportText
import IoTTracker.IotClient

/-!
# The monitor's window

Each signal of the monitor's link has a slot that sets one part of the window, so
the window shows the latest rate and the latest report it was told, whatever came
before. Qt writes documents as text and reads them back; this stays a parameter
(`JsonText`), with what is needed of the documents that are sent.
-/

namespace IoTTracker

/-- `QJsonDocument::toJson` and `QJsonDocument::fromJson`, with the empty document
    for a text that is none. -/
structure JsonText where
  toJson : QJsonDocument → QByteArray
  fromJson : QByteArray → QJsonDocument

/-- The text of the document reads as the document, and can be sent. -/
structure JsonText.Carries (json : JsonText) (jDoc : QJsonDocument) : Prop where
  fromJson_toJson : json.fromJson (json.toJson jDoc) = jDoc
  length_lt : (json.toJson jDoc).length < 2 ^ 31
  zero : 0 ∉ json.toJson jDoc

structure MonitorWindow extends MainWindow where
  cpsLabel : QString
  totalDevicesLabel : QString

namespace MonitorWindow

/-- The window as `buildGui` leaves it. -/
def buildGui : MonitorWindow where
  modelArea := []
  versionArea := []
  cpsLabel := QString.latin1 "CPS: ?"
  totalDevicesLabel := QString.latin1 "Total Devices: ?"

def updateCps (cps : QString) (window : MonitorWindow) : MonitorWindow :=
  { window with cpsLabel := QString.latin1 "CPS: " ++ cps.trimmed }

def updateTotalDevices (cps : QString) (window : MonitorWindow) : MonitorWindow :=
  { window with totalDevicesLabel := QString.latin1 "Total Devices: " ++ cps.trimmed }

def update (json : JsonText) (data : QByteArray) (window : MonitorWindow) : MonitorWindow :=
  { window with toMainWindow := MainWindow.update (json.fromJson data) }

/-- The slot each signal is connected to. -/
def slot (json : JsonText) (window : MonitorWindow) : LinkSignal → MonitorWindow
  | .updateCps cps => window.updateCps cps
  | .updateTotalDevices totalDevices => window.updateTotalDevices totalDevices
  | .update jsonData => window.update json jsonData

end MonitorWindow

/-! ### The monitor as a program -/

structure Monitor where
  link : Link
  server : QByteArray
  window : MonitorWindow

/-- The program reads its socket as bytes arrive; `mainWindow::srvDisconnect` exits. -/
def Monitor.machine (codec : TextCodec) (json : JsonText) :
    Machine (Option Monitor) SocketEvent Empty where
  step monitor event :=
    match monitor, event with
    | some monitor, .readyRead chunk =>
        let o := monitor.link.rx codec (monitor.server ++ chunk)
        (some ⟨o.state, o.buffer, o.emitted.foldl (MonitorWindow.slot json) monitor.window⟩, [])
    | some _, .disconnected => (none, [])
    | none, _ => (none, [])

theorem Monitor.run_readyRead (codec : TextCodec) (json : JsonText) (chunks : List QByteArray) :
    ∀ (link : Link) (server : QByteArray) (window : MonitorWindow),
      (Monitor.machine codec json).run (some ⟨link, server, window⟩) (chunks.map .readyRead) =
        let o := (Link.rxLoop codec).receive chunks link server
        some ⟨o.state, o.buffer, o.emitted.foldl (MonitorWindow.slot json) window⟩ := by
  induction chunks with
  | nil =>
      intro link server window
      rfl
  | cons chunk chunks ih =>
      intro link server window
      have hrest := ih (link.rx codec (server ++ chunk)).state
        (link.rx codec (server ++ chunk)).buffer
        ((link.rx codec (server ++ chunk)).emitted.foldl (MonitorWindow.slot json) window)
      refine hrest.trans ?_
      simp only [ReceiveLoop.receive, Outcome.state_prepend, Outcome.buffer_prepend,
        Outcome.emitted_prepend, List.foldl_append]
      rfl

theorem Monitor.run_readyRead_eq_drain {codec : TextCodec} {json : JsonText} {link : Link}
    (hmode : link.binaryMode = false) (chunks : List QByteArray) :
    (Monitor.machine codec json).run (some ⟨link, [], MonitorWindow.buildGui⟩)
        (chunks.map .readyRead) =
      let o := (Link.rxLoop codec).drain link chunks.flatten
      some ⟨o.state, o.buffer,
        o.emitted.foldl (MonitorWindow.slot json) MonitorWindow.buildGui⟩ := by
  have hrest : (Link.rxLoop codec).AtRest link [] := by
    simp [Link.rxLoop_atRest_iff, hmode]
  rw [Monitor.run_readyRead, (Link.rxLoop codec).receive_eq_drain chunks hrest, List.nil_append]

/-! ### What the window shows -/

/-- What the server's outputs are to the remote monitor server. -/
def ServerOutput.broadcasts (json : JsonText) : ServerOutput → List Broadcast
  | .updateClientsCPS cps totalDevices => [.updateClientsCPS cps totalDevices]
  | .buildJsonDoc models versions =>
      [.updateClients (json.toJson (IoTServer.buildJsonDoc IoTServer.sizeValue models versions))]
  | .newConnection _ => []

def ServerOutput.rate? : ServerOutput → Option (Int × Int)
  | .updateClientsCPS cps totalDevices => some (cps, totalDevices)
  | _ => none

def ServerOutput.report? : ServerOutput → Option (QMap × QMap)
  | .buildJsonDoc models versions => some (models, versions)
  | _ => none

def lastRate (told : List ServerOutput) : Option (Int × Int) :=
  (told.filterMap ServerOutput.rate?).getLast?

def lastReport (told : List ServerOutput) : Option (QMap × QMap) :=
  (told.filterMap ServerOutput.report?).getLast?

theorem getLast?_filterMap_concat {α β : Type*} (f : α → Option β) (items : List α) (item : α) :
    ((items ++ [item]).filterMap f).getLast? = (f item).or (items.filterMap f).getLast? := by
  rw [List.filterMap_append]
  rcases hitem : f item with _ | value
  · rw [List.filterMap_cons_none hitem, List.filterMap_nil, List.append_nil, Option.none_or]
  · rw [List.filterMap_cons_some hitem, List.filterMap_nil, List.getLast?_concat,
      Option.some_or]

theorem lastRate_concat (told : List ServerOutput) (output : ServerOutput) :
    lastRate (told ++ [output]) = output.rate?.or (lastRate told) :=
  getLast?_filterMap_concat _ _ _

theorem lastReport_concat (told : List ServerOutput) (output : ServerOutput) :
    lastReport (told ++ [output]) = output.report?.or (lastReport told) :=
  getLast?_filterMap_concat _ _ _

/-- Every report told is a document that can be sent. -/
def JsonText.CarriesAll (json : JsonText) (told : List ServerOutput) : Prop :=
  ∀ maps ∈ told.filterMap ServerOutput.report?,
    json.Carries (IoTServer.buildJsonDoc IoTServer.sizeValue maps.1 maps.2)

theorem JsonText.CarriesAll.of_prefix {json : JsonText} {told done : List ServerOutput}
    (hcarries : json.CarriesAll told) (hdone : done <+: told) : json.CarriesAll done :=
  fun maps hmaps => hcarries maps ((hdone.filterMap _).subset hmaps)

namespace MonitorWindow

/-- The window that shows this rate and this report, where there is one. -/
def showing (rate : Option (Int × Int)) (report : Option (QMap × QMap)) : MonitorWindow where
  modelArea := report.elim [] fun maps => ReportText.shown IoTServer.sizeValue maps.1
  versionArea := report.elim [] fun maps => ReportText.shown IoTServer.sizeValue maps.2
  cpsLabel := QString.latin1 "CPS: " ++
    rate.elim (QString.latin1 "?") fun r => QString.number r.1
  totalDevicesLabel := QString.latin1 "Total Devices: " ++
    rate.elim (QString.latin1 "?") fun r => QString.number r.2

variable {json : JsonText}

theorem slots_updateClientsCPS (rate : Option (Int × Int)) (report : Option (QMap × QMap))
    (cps totalDevices : Int) :
    (Broadcast.updateClientsCPS cps totalDevices).signals.foldl (slot json)
        (showing rate report) = showing (some (cps, totalDevices)) report := by
  simp only [Broadcast.signals, List.foldl_cons, List.foldl_nil, slot, updateCps,
    updateTotalDevices, QString.trimmed_number]
  rfl

theorem slots_updateClients (rate : Option (Int × Int)) (report : Option (QMap × QMap))
    {models versions : QMap}
    (hcarries : json.Carries (IoTServer.buildJsonDoc IoTServer.sizeValue models versions)) :
    (Broadcast.updateClients (json.toJson
      (IoTServer.buildJsonDoc IoTServer.sizeValue models versions))).signals.foldl (slot json)
        (showing rate report) = showing rate (some (models, versions)) := by
  simp only [Broadcast.signals, List.foldl_cons, List.foldl_nil, slot, update,
    hcarries.fromJson_toJson, ReportText.update_buildJsonDoc]
  rfl

/-- **The window shows the latest of each**, whatever was told before. -/
theorem slots_told {told : List ServerOutput} (hcarries : json.CarriesAll told) :
    ((told.flatMap (ServerOutput.broadcasts json)).flatMap Broadcast.signals).foldl (slot json)
        buildGui = showing (lastRate told) (lastReport told) := by
  induction told using List.reverseRecOn with
  | nil => rfl
  | append_singleton told output ih =>
      have hbefore := hcarries.of_prefix (List.prefix_append told [output])
      simp only [List.flatMap_append, List.foldl_append, ih hbefore, lastRate_concat,
        lastReport_concat, List.flatMap_singleton]
      cases output with
      | updateClientsCPS cps totalDevices => exact slots_updateClientsCPS _ _ cps totalDevices
      | buildJsonDoc models versions =>
          apply slots_updateClients
          apply hcarries (models, versions)
          rw [List.filterMap_append]
          exact List.mem_append_right _ (List.mem_singleton_self _)
      | newConnection worker => rfl

end MonitorWindow

theorem sendable_of_mem_broadcasts {json : JsonText} {told : List ServerOutput}
    (hcarries : json.CarriesAll told) :
    ∀ b ∈ told.flatMap (ServerOutput.broadcasts json), b.Sendable := by
  intro b hb
  obtain ⟨output, houtput, hbroadcast⟩ := List.mem_flatMap.mp hb
  cases output with
  | updateClientsCPS cps totalDevices =>
      rw [List.mem_singleton.mp hbroadcast]
      trivial
  | buildJsonDoc models versions =>
      have hdocument := hcarries (models, versions)
        (List.mem_filterMap.mpr ⟨_, houtput, rfl⟩)
      rw [List.mem_singleton.mp hbroadcast]
      exact ⟨hdocument.length_lt, hdocument.zero⟩
  | newConnection worker => cases hbroadcast

/-- **From bytes to the window.** A monitor with its link in line mode that has
    received, in any chunks, what was broadcast of these outputs shows the latest
    rate and report of them. -/
theorem Monitor.run_told {codec : TextCodec} (hcodec : codec.AsciiTransparent) {json : JsonText}
    {told : List ServerOutput} (hcarries : json.CarriesAll told) {link : Link}
    (hmode : link.binaryMode = false) {chunks : List QByteArray}
    (hchunks : chunks.flatten = (told.flatMap (ServerOutput.broadcasts json)).flatMap
      (RemoteMonitorServer.frame codec)) :
    ∃ next : Link, next.binaryMode = false ∧
      (Monitor.machine codec json).run (some ⟨link, [], MonitorWindow.buildGui⟩)
          (chunks.map .readyRead) =
        some ⟨next, [], MonitorWindow.showing (lastRate told) (lastReport told)⟩ := by
  obtain ⟨next, hnext, hdrain⟩ := Link.drain_frames hcodec
    (sendable_of_mem_broadcasts hcarries) hmode
  refine ⟨next, hnext, ?_⟩
  rw [Monitor.run_readyRead_eq_drain hmode, hchunks, hdrain, ← MonitorWindow.slots_told hcarries]

end IoTTracker
