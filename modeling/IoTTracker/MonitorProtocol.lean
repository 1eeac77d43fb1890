import IoTTracker.RemoteMonitorServer
import IoTTracker.MonitorLink

/-!
# The monitor protocol

Server and monitor are two programs that agree on a wire format. A broadcast of
the connection rate is two lines, a document is a header line and then its
bytes, taken by count: a document may contain newlines and text that looks like
a header. `drain_frame` shows that the link reads one frame as the signals of
its broadcast and is back in line mode after it; the theory of receive loops
carries this to whole streams in any chunks.
-/

namespace IoTTracker

def Broadcast.signals : Broadcast → List LinkSignal
  | .updateClientsCPS cps totalDevices =>
      [.updateCps (QString.number cps), .updateTotalDevices (QString.number totalDevices)]
  | .updateClients jsonDoc => [.update jsonDoc]

/-- A document that fits in an `int` and has no zero byte. -/
def Broadcast.Sendable : Broadcast → Prop
  | .updateClientsCPS _ _ => True
  | .updateClients jsonDoc => jsonDoc.length < 2 ^ 31 ∧ 0 ∉ jsonDoc

namespace Link

/-! ### Header lines -/

theorem handleLine_cps (link : Link) (cps : Int) :
    link.handleLine (QString.latin1 "cps=" ++ QString.number cps) =
      (link, [.updateCps (QString.number cps)]) := by
  simp only [handleLine, QString.section_zero, QString.section_one]
  exact congrArg (fun value => (link, [LinkSignal.updateCps value]))
    (QString.takeWhile_number cps)

theorem handleLine_totalDevices (link : Link) (totalDevices : Int) :
    link.handleLine (QString.latin1 "total_devices=" ++ QString.number totalDevices) =
      (link, [.updateTotalDevices (QString.number totalDevices)]) := by
  simp only [handleLine, QString.section_zero, QString.section_one]
  exact congrArg (fun value => (link, [LinkSignal.updateTotalDevices value]))
    (QString.takeWhile_number totalDevices)

theorem handleLine_update (link : Link) {size : Nat} (hsize : size < 2 ^ 31) :
    link.handleLine (QString.latin1 "update=" ++ QString.number size) =
      (⟨size, true⟩, []) := by
  have hvalue : QString.toInt ((QString.number size).takeWhile fun c => decide (c ≠ 0x3d)) =
      size := by
    rw [QString.takeWhile_number]
    exact (QString.toInt_decimal size).trans (if_pos hsize)
  simp only [handleLine, QString.section_zero, QString.section_one]
  exact congrArg (fun value => ((⟨value, true⟩ : Link), ([] : List LinkSignal))) hvalue

/-! ### Frames -/

variable {codec : TextCodec} {link : Link}

theorem drain_asciiLine (hcodec : codec.AsciiTransparent) (hmode : link.binaryMode = false)
    {line : QString} (hline : line.AsciiLine) (rest : QByteArray) :
    (rxLoop codec).drain link (line.map UInt16.toUInt8 ++ 0x0a :: rest) =
      ((rxLoop codec).drain (link.handleLine line).1 rest).prepend
        (link.handleLine line).2 := by
  have hstep := rxStep_line codec hmode (TextCodec.newline_notMem hline) rest
  rw [hcodec.chop_fromByteArray hline] at hstep
  exact (rxLoop codec).drain_of_step hstep

theorem drain_document (doc rest : QByteArray) :
    (rxLoop codec).drain ⟨doc.length, true⟩ (doc ++ rest) =
      ((rxLoop codec).drain ⟨doc.length, false⟩ rest).prepend [.update doc] := by
  have hmode : (⟨doc.length, true⟩ : Link).binaryMode = true := rfl
  have hlength : (⟨doc.length, true⟩ : Link).binaryLength ≤ (doc ++ rest).length := by
    simp
  have hstep := rxStep_binary codec hmode hlength
  rw [Int.toNat_natCast, List.drop_left, List.take_left] at hstep
  exact (rxLoop codec).drain_of_step hstep

theorem cString_toUtf8_ofLines (hcodec : codec.AsciiTransparent) {lines : List QString}
    (hlines : ∀ line ∈ lines, line.AsciiLine) :
    QByteArray.cString (codec.toUtf8 (QString.ofLines lines)) =
      lines.flatMap fun line => line.map UInt16.toUInt8 ++ [0x0a] := by
  rw [hcodec.toUtf8_ofLines hlines]
  apply QByteArray.cString_of_notMem
  simp only [List.mem_flatMap, List.mem_append, List.mem_singleton, not_exists, not_and]
  rintro line hline (hzero | hzero)
  · apply TextCodec.zero_notMem (hlines line hline)
    exact hzero
  · exact absurd hzero (by decide)

/-- **A frame is read as its broadcast.** In line mode, whatever follows. -/
theorem drain_frame (hcodec : codec.AsciiTransparent) {b : Broadcast} (hb : b.Sendable)
    (hmode : link.binaryMode = false) (rest : QByteArray) :
    ∃ next : Link, next.binaryMode = false ∧
      (rxLoop codec).drain link (RemoteMonitorServer.frame codec b ++ rest) =
        ((rxLoop codec).drain next rest).prepend b.signals := by
  cases b with
  | updateClientsCPS cps totalDevices =>
      have hcps : QString.AsciiLine (QString.latin1 "cps=" ++ QString.number cps) :=
        QString.AsciiLine.append (by decide) (QString.asciiLine_number cps)
      have htotal : QString.AsciiLine
          (QString.latin1 "total_devices=" ++ QString.number totalDevices) :=
        QString.AsciiLine.append (by decide) (QString.asciiLine_number totalDevices)
      refine ⟨link, hmode, ?_⟩
      rw [RemoteMonitorServer.frame, RemoteMonitorServer.cpsText,
        cString_toUtf8_ofLines hcodec (by simp [hcps, htotal])]
      simp only [List.flatMap_cons, List.flatMap_nil, List.append_assoc,
        List.append_nil, List.cons_append, List.nil_append]
      rw [drain_asciiLine hcodec hmode hcps, handleLine_cps,
        drain_asciiLine hcodec hmode htotal, handleLine_totalDevices, Outcome.prepend_prepend]
      rfl
  | updateClients doc =>
      rcases hb with ⟨hsize, hzero⟩
      have hheader : QString.AsciiLine
          (QString.latin1 "update=" ++ QString.number doc.length) :=
        QString.AsciiLine.append (by decide) (QString.asciiLine_number _)
      refine ⟨⟨doc.length, false⟩, rfl, ?_⟩
      rw [RemoteMonitorServer.frame, RemoteMonitorServer.updateText,
        cString_toUtf8_ofLines hcodec (by simp [hheader]), QByteArray.cString_of_notMem hzero]
      simp only [List.flatMap_cons, List.flatMap_nil, List.append_assoc,
        List.append_nil, List.cons_append, List.nil_append]
      rw [drain_asciiLine hcodec hmode hheader, handleLine_update link hsize,
        drain_document, Outcome.prepend_prepend]
      rfl

theorem drain_frames (hcodec : codec.AsciiTransparent) {broadcasts : List Broadcast}
    (hsendable : ∀ b ∈ broadcasts, b.Sendable) (hmode : link.binaryMode = false) :
    ∃ next : Link, next.binaryMode = false ∧
      (rxLoop codec).drain link (broadcasts.flatMap (RemoteMonitorServer.frame codec)) =
        ⟨next, [], broadcasts.flatMap Broadcast.signals⟩ := by
  induction broadcasts generalizing link with
  | nil =>
      refine ⟨link, hmode, ?_⟩
      rw [List.flatMap_nil, (rxLoop codec).drain_of_atRest]
      · rfl
      · rw [rxLoop_atRest_iff, hmode]
        simp
  | cons b broadcasts ih =>
      obtain ⟨middle, hmiddle, hfirst⟩ := drain_frame hcodec (hsendable b (by simp)) hmode
        (broadcasts.flatMap (RemoteMonitorServer.frame codec))
      obtain ⟨next, hnext, hrest⟩ := ih (fun b hb => hsendable b (by simp [hb])) hmiddle
      refine ⟨next, hnext, ?_⟩
      rw [List.flatMap_cons, hfirst, hrest]
      rfl

end Link

/-! ### The round trip -/

/-- The bytes written to a monitor that connects after `history`, by the
    broadcasts that follow. -/
def monitorStream (codec : TextCodec) (history : List MonitorEvent)
    (broadcasts : List Broadcast) : QByteArray :=
  let server := RemoteMonitorServer.after codec history
  ((RemoteMonitorServer.machine codec).run server.incomingConnection
    (broadcasts.map .broadcast)).written server.connected

theorem monitorStream_eq (codec : TextCodec) (history : List MonitorEvent)
    (broadcasts : List Broadcast) :
    monitorStream codec history broadcasts =
      broadcasts.flatMap (RemoteMonitorServer.frame codec) := by
  have hinv := RemoteMonitorServer.inv_after codec history
  have hconnected := RemoteMonitorServer.inv_step codec hinv .incomingConnection
  have hwritten := RemoteMonitorServer.written_run_broadcasts codec broadcasts
    (RemoteMonitorServer.after codec history).connected hconnected
    (List.mem_append_right _ (List.mem_singleton_self _))
  exact hwritten.trans (congrArg (· ++ _) (hinv.written_eq _ le_rfl))

/-- **Monitor protocol round trip.** A monitor that connects at any time, with a
    link in line mode, emits the signals of all broadcasts that follow, in order
    and once each, however its bytes are cut into chunks: a prefix of them after
    any prefix of the stream, and all of them after the whole stream, when the
    link is in line mode again with nothing left to read. -/
theorem monitor_signals_eq_broadcasts (codec : TextCodec) (hcodec : codec.AsciiTransparent)
    (history : List MonitorEvent) (broadcasts : List Broadcast)
    (hsendable : ∀ b ∈ broadcasts, b.Sendable) (binaryLength : Int)
    (chunks : List QByteArray) :
    let stream := monitorStream codec history broadcasts
    let o := (Link.rxLoop codec).receive chunks ⟨binaryLength, false⟩ []
    (chunks.flatten <+: stream → o.emitted <+: broadcasts.flatMap Broadcast.signals) ∧
      (chunks.flatten = stream →
        o.emitted = broadcasts.flatMap Broadcast.signals ∧
          o.state.binaryMode = false ∧ o.buffer = []) := by
  intro stream o
  have hstream : stream = broadcasts.flatMap (RemoteMonitorServer.frame codec) :=
    monitorStream_eq codec history broadcasts
  have hrest : (Link.rxLoop codec).AtRest ⟨binaryLength, false⟩ [] := by
    rw [Link.rxLoop_atRest_iff]
    simp
  have ho : o = (Link.rxLoop codec).drain ⟨binaryLength, false⟩ chunks.flatten :=
    (Link.rxLoop codec).receive_eq_drain chunks hrest
  have hmode : (⟨binaryLength, false⟩ : Link).binaryMode = false := rfl
  rcases Link.drain_frames hcodec hsendable hmode with ⟨next, hnext, hwhole⟩
  rw [← hstream] at hwhole
  constructor
  · rintro ⟨more, hmore⟩
    have hgrows := (Link.rxLoop codec).prefix_emitted_drain ⟨binaryLength, false⟩
      chunks.flatten more
    rwa [hmore, hwhole, ← ho] at hgrows
  · intro hall
    rw [ho, hall, hwhole]
    exact ⟨rfl, hnext, rfl⟩

/-- A document that imitates both headers, cut inside its header and its body. -/
theorem monitor_signals_eq_broadcasts_imitation :
    let chunks := [QByteArray.latin1 "cps=-1\ntotal_de", QByteArray.latin1 "vices=3\nupda",
      QByteArray.latin1 "te=15\ncps=1\nupd", QByteArray.latin1 "ate=5\n"]
    let o := (Link.rxLoop TextCodec.latin1).receive chunks ⟨-8, false⟩ []
    o.emitted = [.updateCps (QString.latin1 "-1"), .updateTotalDevices (QString.latin1 "3"),
        .update (QByteArray.latin1 "cps=1\nupdate=5\n")] ∧
      o.state.binaryMode = false ∧ o.buffer = [] :=
  (monitor_signals_eq_broadcasts TextCodec.latin1 TextCodec.latin1_asciiTransparent
    [.incomingConnection, .disconnect 0]
    [.updateClientsCPS (-1) 3, .updateClients (QByteArray.latin1 "cps=1\nupdate=5\n")]
    (by simp [Broadcast.Sendable]; decide) (-8)
    [QByteArray.latin1 "cps=-1\ntotal_de", QByteArray.latin1 "vices=3\nupda",
      QByteArray.latin1 "te=15\ncps=1\nupd", QByteArray.latin1 "ate=5\n"]).2 (by decide)

end IoTTracker
