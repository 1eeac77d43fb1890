import IoTTracker.ReceiveLoop
import IoTTracker.Machine
import IoTTracker.QtText

/-!
# The device connection

A device sends newline-terminated lines `name=value`. The connection remembers
the latest `id`, `model` and `version`, and a `boot` or `24hrs` line makes one
report with them. `IotClient::rx` runs after every chunk of bytes and reads the
complete lines received so far.

The second half states what a connection means without reading it in chunks
(`meaning`: split the whole stream into lines, fold over them) and shows that
the receive loop computes exactly that, however the stream is cut.
-/

namespace IoTTracker

inductive ReportKind where
  | boot
  | hrs24
deriving DecidableEq, Repr

/-- One call of `reportBoot` or `report24hrs`, with the texts it uses. -/
structure Report where
  kind : ReportKind
  id : QString
  model : QString
  version : QString
deriving DecidableEq, Repr

structure IotClient where
  id : QString
  model : QString
  version : QString
deriving DecidableEq, Repr

namespace IotClient

def init : IotClient := ⟨[], [], []⟩

def report (client : IotClient) (kind : ReportKind) : Report :=
  ⟨kind, client.id, client.model, client.version⟩

def handleLine (client : IotClient) (line : QString) : IotClient × List Report :=
  if line = [] then (client, [])
  else
    let cmd := QString.section line 0x3d 0 0
    let value := QString.section line 0x3d 1 1
    if cmd = QString.latin1 "id" then ({ client with id := value }, [])
    else if cmd = QString.latin1 "version" then ({ client with version := value }, [])
    else if cmd = QString.latin1 "model" then ({ client with model := value }, [])
    else if cmd = QString.latin1 "boot" then (client, [client.report .boot])
    else if cmd = QString.latin1 "24hrs" then (client, [client.report .hrs24])
    else (client, []) -- qDebug() << cmd

def rxStep (codec : TextCodec) (client : IotClient) (socket : QByteArray) :
    Option (Outcome IotClient UInt8 Report) :=
  if QIODevice.canReadLine socket then
    let read := QIODevice.readLine socket
    let line := QString.chop (codec.fromByteArray read.1)
    let handled := client.handleLine line
    some ⟨handled.1, read.2, handled.2⟩
  else none

theorem rxStep_line (codec : TextCodec) (client : IotClient) {line : QByteArray}
    (hline : 0x0a ∉ line) (rest : QByteArray) :
    rxStep codec client (line ++ 0x0a :: rest) =
      let handled := client.handleLine
        (QString.chop (codec.fromByteArray (line ++ [0x0a])))
      some ⟨handled.1, rest, handled.2⟩ := by
  have hcan : QIODevice.canReadLine (line ++ 0x0a :: rest) = true := by
    simp [QIODevice.canReadLine_iff]
  simp only [rxStep, hcan, if_true, QIODevice.readLine_append hline]

theorem rxStep_eq_none_iff (codec : TextCodec) (client : IotClient) (socket : QByteArray) :
    rxStep codec client socket = none ↔ 0x0a ∉ socket := by
  simp [rxStep, QIODevice.canReadLine_iff]

/-- `IotClient::rx` as a receive loop: an iteration takes one line. -/
def rxLoop (codec : TextCodec) : ReceiveLoop IotClient UInt8 Report where
  step := rxStep codec
  weight _ socket := socket.length
  weight_lt := by
    intro client socket o hstep
    by_cases hnewline : 0x0a ∈ socket
    · rcases QIODevice.exists_line hnewline with ⟨line, rest, hline, rfl⟩
      rw [rxStep_line codec client hline] at hstep
      obtain rfl := Option.some.inj hstep
      simp only [List.length_append, List.length_cons]
      omega
    · rw [(rxStep_eq_none_iff codec client socket).mpr hnewline] at hstep
      cases hstep
  step_append := by
    intro client socket o hstep more
    by_cases hnewline : 0x0a ∈ socket
    · obtain ⟨line, rest, hline, rfl⟩ := QIODevice.exists_line hnewline
      rw [rxStep_line codec client hline] at hstep
      obtain rfl := Option.some.inj hstep
      rw [List.append_assoc, List.cons_append, rxStep_line codec client hline]
    · rw [(rxStep_eq_none_iff codec client socket).mpr hnewline] at hstep
      cases hstep

theorem rxLoop_atRest_iff (codec : TextCodec) (client : IotClient) (socket : QByteArray) :
    (rxLoop codec).AtRest client socket ↔ 0x0a ∉ socket :=
  rxStep_eq_none_iff codec client socket

def rx (codec : TextCodec) (client : IotClient) (socket : QByteArray) :
    Outcome IotClient UInt8 Report :=
  (rxLoop codec).drain client socket

end IotClient

/-! ### A whole connection -/

inductive SocketEvent where
  | readyRead (chunk : QByteArray)
  | disconnected
deriving DecidableEq, Repr

/-- The `IotClient` of a socket and the unread bytes; `none` once `disconnect`
    has deleted it. -/
abbrev DeviceConnection := Option (IotClient × QByteArray)

def DeviceConnection.machine (codec : TextCodec) :
    Machine DeviceConnection SocketEvent Report where
  step connection event :=
    match connection, event with
    | some (client, socket), .readyRead chunk =>
        let o := client.rx codec (socket ++ chunk)
        (some (o.state, o.buffer), o.emitted)
    | some _, .disconnected => (none, [])
    | none, _ => (none, [])

abbrev DeviceConnection.reports (codec : TextCodec) (connection : DeviceConnection)
    (events : List SocketEvent) : List Report :=
  (DeviceConnection.machine codec).outputs connection events

def DeviceConnection.init : DeviceConnection := some (IotClient.init, [])

/-! ### The meaning of a whole stream -/

namespace DeviceStream

variable (lineText : QByteArray → QString)

/-- The texts of the complete lines of a stream, empty ones dropped. What
    follows the last newline is no line. -/
def lines (stream : QByteArray) : List QString :=
  ((stream.splitOn 0x0a).dropLast.map lineText).filter fun text => decide (text ≠ [])

def name (text : QString) : QString := text.takeWhile fun c => decide (c ≠ 0x3d)

def value (text : QString) : QString :=
  ((text.dropWhile fun c => decide (c ≠ 0x3d)).drop 1).takeWhile fun c => decide (c ≠ 0x3d)

def lineMeaning (fields : IotClient) (text : QString) : IotClient × List Report :=
  if name text = QString.latin1 "id" then ({ fields with id := value text }, [])
  else if name text = QString.latin1 "version" then
    ({ fields with version := value text }, [])
  else if name text = QString.latin1 "model" then ({ fields with model := value text }, [])
  else if name text = QString.latin1 "boot" then
    (fields, [{ kind := .boot, id := fields.id, model := fields.model, version := fields.version }])
  else if name text = QString.latin1 "24hrs" then
    (fields, [{ kind := .hrs24, id := fields.id, model := fields.model,
                version := fields.version }])
  else (fields, [])

def foldLines : IotClient → List QString → List Report
  | _, [] => []
  | fields, text :: rest =>
      let handled := lineMeaning fields text
      handled.2 ++ foldLines handled.1 rest

/-- **The meaning of a device's whole byte stream**: the reports of its lines. -/
def meaning (stream : QByteArray) : List Report :=
  foldLines IotClient.init (lines lineText stream)

theorem lines_of_notMem {stream : QByteArray} (hnewline : 0x0a ∉ stream) :
    lines lineText stream = [] := by
  simp [lines, List.splitOn_eq_singleton hnewline]

theorem lines_append_cons {line : QByteArray} (hline : 0x0a ∉ line) (rest : QByteArray) :
    lines lineText (line ++ 0x0a :: rest) =
      if lineText line = [] then lines lineText rest
      else lineText line :: lines lineText rest := by
  have hne : rest.splitOn (0x0a : UInt8) ≠ [] := List.splitOn_ne_nil _ rest
  rw [lines, List.splitOn_append_cons_self_of_not_mem hline,
    List.dropLast_cons_of_ne_nil hne]
  by_cases hempty : lineText line = []
  · simp [lines, hempty]
  · simp [lines, hempty]

theorem foldLines_append_cons (fields : IotClient) {line : QByteArray}
    (hline : 0x0a ∉ line) (rest : QByteArray) :
    foldLines fields (lines lineText (line ++ 0x0a :: rest)) =
      (lineMeaning fields (lineText line)).2 ++
        foldLines (lineMeaning fields (lineText line)).1 (lines lineText rest) := by
  rw [lines_append_cons lineText hline rest]
  by_cases hempty : lineText line = []
  · rw [if_pos hempty, hempty]
    rfl
  · rw [if_neg hempty]
    rfl

theorem handleLine_eq_lineMeaning (fields : IotClient) (text : QString) :
    fields.handleLine text = lineMeaning fields text := by
  by_cases hempty : text = []
  · subst hempty
    rfl
  · simp only [IotClient.handleLine, if_neg hempty, QString.section_zero,
      QString.section_one]
    rfl

theorem chop_fromByteArray {codec : TextCodec} {lineText : QByteArray → QString}
    (hcodec : codec.DecodesLines lineText) {line : QByteArray}
    (hzero : 0 ∉ line) (hline : 0x0a ∉ line) :
    QString.chop (codec.fromByteArray (line ++ [0x0a])) = lineText line := by
  have hzeroLine : (0 : UInt8) ∉ line ++ [0x0a] := by
    simp [hzero]
  rw [codec.fromByteArray_of_notMem hzeroLine, hcodec line hzero hline]
  simp [QString.chop]

/-- **The loop of `rx` computes the meaning of the lines it reads.** -/
theorem emitted_drain (codec : TextCodec) (hcodec : codec.DecodesLines lineText)
    (fields : IotClient) (socket : QByteArray) :
    0 ∉ socket → ((IotClient.rxLoop codec).drain fields socket).emitted =
      foldLines fields (lines lineText socket) := by
  induction fields, socket using (IotClient.rxLoop codec).drain_induction with
  | hrest fields socket hrest =>
      intro _
      rw [(IotClient.rxLoop codec).drain_of_atRest hrest]
      rw [IotClient.rxLoop_atRest_iff] at hrest
      rw [lines_of_notMem lineText hrest]
      rfl
  | hstep fields socket o hstep ih =>
      intro hzero
      rw [(IotClient.rxLoop codec).drain_of_step hstep, Outcome.emitted_prepend]
      by_cases hnewline : 0x0a ∈ socket
      · rcases QIODevice.exists_line hnewline with ⟨line, rest, hline, rfl⟩
        have hzeroLine : 0 ∉ line := fun hmem => hzero (List.mem_append_left _ hmem)
        have hzeroRest : 0 ∉ rest := fun hmem =>
          hzero (List.mem_append_right _ (List.mem_cons_of_mem _ hmem))
        have hsome := (IotClient.rxStep_line codec fields hline rest).symm.trans hstep
        rw [chop_fromByteArray hcodec hzeroLine hline, handleLine_eq_lineMeaning] at hsome
        obtain rfl := Option.some.inj hsome
        rw [ih hzeroRest, foldLines_append_cons lineText fields hline rest]
      · have hrest := (IotClient.rxLoop_atRest_iff codec fields socket).mpr hnewline
        rw [show (IotClient.rxLoop codec).step fields socket = none from hrest] at hstep
        cases hstep

/-- **A message of whole lines is read line by line.** Each item is sent as
    `bytes` and a newline, and decoded as `text`. -/
theorem emitted_drain_lines (codec : TextCodec) {ι : Type*} (bytes : ι → QByteArray)
    (text : ι → QString) {items : List ι}
    (hitems : ∀ item ∈ items, 0x0a ∉ bytes item ∧
      QString.chop (codec.fromByteArray (bytes item ++ [0x0a])) = text item)
    (fields : IotClient) :
    ((IotClient.rxLoop codec).drain fields
        (items.flatMap fun item => bytes item ++ [0x0a])).emitted =
      foldLines fields (items.map text) := by
  induction items generalizing fields with
  | nil =>
      rw [(IotClient.rxLoop codec).drain_of_atRest
        ((IotClient.rxLoop_atRest_iff codec fields _).mpr (by simp))]
      rfl
  | cons item items ih =>
      obtain ⟨hline, htext⟩ := hitems item (by simp)
      have hstep := IotClient.rxStep_line codec fields hline
        (items.flatMap fun item => bytes item ++ [0x0a])
      rw [htext, handleLine_eq_lineMeaning] at hstep
      rw [List.flatMap_cons, List.append_assoc, List.singleton_append,
        (IotClient.rxLoop codec).drain_of_step hstep, Outcome.emitted_prepend,
        ih fun item hitem => hitems item (by simp [hitem])]
      rfl

end DeviceStream

theorem DeviceConnection.reports_readyRead (codec : TextCodec) (chunks : List QByteArray)
    (later : List SocketEvent) : ∀ (client : IotClient) (socket : QByteArray),
    DeviceConnection.reports codec (some (client, socket))
        (chunks.map .readyRead ++ later) =
      let o := (IotClient.rxLoop codec).receive chunks client socket
      o.emitted ++ DeviceConnection.reports codec (some (o.state, o.buffer)) later := by
  induction chunks with
  | nil =>
      intro client socket
      rfl
  | cons chunk chunks ih =>
      intro client socket
      have hrest := ih ((IotClient.rxLoop codec).drain client (socket ++ chunk)).state
        ((IotClient.rxLoop codec).drain client (socket ++ chunk)).buffer
      simp only [List.map_cons, List.cons_append, ReceiveLoop.receive,
        Outcome.emitted_prepend, Outcome.state_prepend, Outcome.buffer_prepend,
        List.append_assoc]
      rw [← hrest]
      rfl

/-- **A device connection means its whole stream.** However the bytes are cut
    into chunks, and whether or not the connection has ended, the reports made
    are those of the complete lines received, in order. -/
theorem deviceConnection_reports_eq_meaning (codec : TextCodec)
    (lineText : QByteArray → QString) (hcodec : codec.DecodesLines lineText)
    (chunks : List QByteArray) (hzero : 0 ∉ chunks.flatten) (closed : Bool) :
    DeviceConnection.init.reports codec
        (chunks.map .readyRead ++ if closed then [.disconnected] else []) =
      DeviceStream.meaning lineText chunks.flatten := by
  have hrest : (IotClient.rxLoop codec).AtRest IotClient.init [] := by
    rw [IotClient.rxLoop_atRest_iff]
    simp
  have hending : ∀ connection : DeviceConnection,
      connection.reports codec (if closed then [.disconnected] else []) = [] := by
    intro connection
    cases closed <;> cases connection <;> rfl
  simp only [DeviceConnection.init, DeviceConnection.reports_readyRead, hending,
    List.append_nil]
  rw [(IotClient.rxLoop codec).receive_eq_drain chunks hrest, List.nil_append,
    DeviceStream.emitted_drain lineText codec hcodec _ _ hzero]
  rfl

/-- Two chunks with the cut inside a line, then the end of the connection. -/
theorem deviceConnection_reports_two_chunks :
    DeviceConnection.init.reports TextCodec.latin1
        ([QByteArray.latin1 "id=7\nmodel=A\nversion=1.0\nbo",
            QByteArray.latin1 "ot\nid"].map .readyRead ++
          if true then [.disconnected] else []) =
      [⟨.boot, QString.latin1 "7", QString.latin1 "A", QString.latin1 "1.0"⟩] :=
  (deviceConnection_reports_eq_meaning TextCodec.latin1 _ TextCodec.latin1_decodesLines
    [QByteArray.latin1 "id=7\nmodel=A\nversion=1.0\nbo", QByteArray.latin1 "ot\nid"]
    (by decide) true).trans
    (by decide)

end IoTTracker
