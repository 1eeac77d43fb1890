import IoTTracker.DeviceHistory

/-!
# Device identity

A device is a `size_t`; its reports name it by a decimal numeral. The server
reads the numeral with `QString::toInt`, a 32-bit conversion that gives `0` for
what does not fit, and uses the result as the key. So a device has a record of
its own exactly when its number fits in a non-negative `int`, and all others
write to record `0`.
-/

namespace IoTTracker

/-! ### Messages of ASCII lines -/

/-- **A connection reads a message of ASCII lines line by line.** -/
theorem emitted_rx_ofLines {codec : TextCodec} (hcodec : codec.AsciiTransparent)
    {lines : List QString} (hlines : ∀ line ∈ lines, line.AsciiLine) (client : IotClient) :
    (client.rx codec (codec.toUtf8 (QString.ofLines lines))).emitted =
      DeviceStream.foldLines client lines := by
  rw [IotClient.rx, hcodec.toUtf8_ofLines hlines,
    DeviceStream.emitted_drain_lines codec _ id, List.map_id]
  intro line hline
  exact ⟨TextCodec.newline_notMem (hlines line hline),
    hcodec.chop_fromByteArray (hlines line hline)⟩

/-! ### The phone-home client -/

def ReportKind.action : ReportKind → QString
  | .boot => QString.latin1 "boot"
  | .hrs24 => QString.latin1 "24hrs"

/-- The text that the phone-home client makes of `"id=%1\nmodel=%2\nversion=%3\nboot\n"`,
    here for either action and for a model and version without a `%`, which a later
    `arg` could take for a place to fill. -/
def phoneHome (x : SizeT) (model version : QString) (kind : ReportKind) : QString :=
  QString.ofLines
    [QString.latin1 "id=" ++ QString.decimal x.toNat,
      QString.latin1 "model=" ++ model,
      QString.latin1 "version=" ++ version,
      kind.action]

def modelAndVersion (x : SizeT) : QString × QString :=
  if x &&& 1 ≠ 0 then (QString.latin1 "Model A", QString.latin1 "2.4")
  else if x &&& 2 ≠ 0 then (QString.latin1 "Model T", QString.latin1 "1.0")
  else if x &&& 4 ≠ 0 then (QString.latin1 "Model 3", QString.latin1 "2.1")
  else (QString.latin1 "Model F", QString.latin1 "1.5")

/-- The number a phone-home client keeps of the one it has drawn. -/
def deviceNumber (drawn : SizeT) : SizeT := drawn &&& 0x1ffff

/-- `Link::srvConnect` of the phone-home client, for the number it draws. -/
def srvConnect (drawn : SizeT) : QString :=
  let x := deviceNumber drawn
  phoneHome x (modelAndVersion x).1 (modelAndVersion x).2 .boot

namespace DeviceStream

theorem lineMeaning_id (fields : IotClient) (text : QString) :
    lineMeaning fields (QString.latin1 "id=" ++ text) =
      ({ fields with id := text.takeWhile fun c => decide (c ≠ 0x3d) }, []) := rfl

theorem lineMeaning_model (fields : IotClient) (text : QString) :
    lineMeaning fields (QString.latin1 "model=" ++ text) =
      ({ fields with model := text.takeWhile fun c => decide (c ≠ 0x3d) }, []) := rfl

theorem lineMeaning_version (fields : IotClient) (text : QString) :
    lineMeaning fields (QString.latin1 "version=" ++ text) =
      ({ fields with version := text.takeWhile fun c => decide (c ≠ 0x3d) }, []) := rfl

theorem lineMeaning_action (fields : IotClient) (kind : ReportKind) :
    lineMeaning fields kind.action = (fields, [fields.report kind]) := by
  cases kind <;> rfl

end DeviceStream

theorem foldLines_phoneHome (client : IotClient) (x : SizeT) (model version : QString)
    (kind : ReportKind) :
    DeviceStream.foldLines client
        [QString.latin1 "id=" ++ QString.decimal x.toNat, QString.latin1 "model=" ++ model,
          QString.latin1 "version=" ++ version, kind.action] =
      [⟨kind, QString.decimal x.toNat, model.takeWhile fun c => decide (c ≠ 0x3d),
        version.takeWhile fun c => decide (c ≠ 0x3d)⟩] := by
  have hid : ((QString.decimal x.toNat).takeWhile fun c => decide (c ≠ 0x3d)) =
      QString.decimal x.toNat := QString.takeWhile_number (Int.ofNat x.toNat)
  simp only [DeviceStream.foldLines, DeviceStream.lineMeaning_id, DeviceStream.lineMeaning_model,
    DeviceStream.lineMeaning_version, DeviceStream.lineMeaning_action, hid, List.nil_append,
    List.append_nil, IotClient.report]

theorem emitted_rx_phoneHome {codec : TextCodec} (hcodec : codec.AsciiTransparent)
    {model version : QString} (hmodel : model.AsciiLine) (hversion : version.AsciiLine)
    (client : IotClient) (x : SizeT) (kind : ReportKind) :
    (client.rx codec (codec.toUtf8 (phoneHome x model version kind))).emitted =
      [⟨kind, QString.decimal x.toNat, model.takeWhile fun c => decide (c ≠ 0x3d),
        version.takeWhile fun c => decide (c ≠ 0x3d)⟩] := by
  have hlines : ∀ line ∈ [QString.latin1 "id=" ++ QString.decimal x.toNat,
      QString.latin1 "model=" ++ model, QString.latin1 "version=" ++ version, kind.action],
      line.AsciiLine := by
    simp only [List.forall_mem_cons, List.not_mem_nil, false_implies, implies_true, and_true]
    refine ⟨?_, ?_, ?_, ?_⟩
    · apply QString.AsciiLine.append (by decide)
      exact QString.asciiLine_decimal _
    · apply QString.AsciiLine.append (by decide)
      exact hmodel
    · apply QString.AsciiLine.append (by decide)
      exact hversion
    · cases kind <;> decide
  rw [phoneHome, emitted_rx_ofLines hcodec hlines, foldLines_phoneHome]

/-! ### Which record a device's reports are for -/

def recordKey (x : SizeT) : SizeT := idNumber (QString.decimal x.toNat)

theorem recordKey_eq (x : SizeT) : recordKey x = if x.toNat < 2 ^ 31 then x else 0 := by
  rw [recordKey, idNumber, QString.toInt_decimal]
  split
  · rw [castSizeT, BitVec.ofInt_natCast, BitVec.ofNat_toNat, BitVec.setWidth_eq]
  · rfl

theorem recordKey_eq_self_iff (x : SizeT) : recordKey x = x ↔ x.toNat < 2 ^ 31 := by
  rw [recordKey_eq]
  split
  · simpa
  · rename_i hlarge
    simp only [hlarge, iff_false]
    rintro rfl
    exact hlarge (by decide)

/-- Handling the report reads and updates the record of key and id `x`, created
    if there is none, and leaves every other key alone. -/
def UpdatesExactly (memory : Memory) (now : Nat) (report : Report) (store : RecordStore)
    (x : SizeT) : Prop :=
  let next := report.handle memory now store
  (∃ record, next.records.lookup x = some record ∧ (next.deref record).id = x ∧
    next.deref record = report.update
      (match store.records.lookup x with
        | none => report.create memory now record
        | some record => store.deref record)) ∧
  ∀ k, k ≠ x → next.records.lookup k = store.records.lookup k ∧
    ∀ record, store.records.lookup k = some record → next.deref record = store.deref record

theorem updatesExactly_idNumber {store : RecordStore} (hinv : store.Inv) (memory : Memory)
    (now : Nat) (report : Report) :
    UpdatesExactly memory now report store (idNumber report.id) := by
  have hnext := RecordStore.inv_handle hinv memory now report
  unfold UpdatesExactly
  simp only [Report.handle_eq_upsert] at hnext ⊢
  constructor
  · have hself : (store.upsert (idNumber report.id) (report.create memory now)
        report.update).observe (fun record value => (record, value)) (idNumber report.id) = _ :=
      RecordStore.observe_upsert_self _ hinv
    obtain ⟨record, hlookup, hvalue⟩ := Option.map_eq_some_iff.mp hself
    refine ⟨record, hlookup, hnext.id_eq _ _ hlookup, ?_⟩
    rcases hfound : store.records.lookup (idNumber report.id) with _ | found
    · rw [hfound] at hvalue
      rcases Prod.ext_iff.mp hvalue with ⟨rfl, hrecord⟩
      exact hrecord
    · rw [hfound] at hvalue
      exact (Prod.ext_iff.mp hvalue).2
  · intro k hk
    have hother : (store.upsert (idNumber report.id) (report.create memory now)
        report.update).observe (fun record value => (record, value)) k = _ :=
      RecordStore.observe_upsert_of_ne _ hinv hk
    unfold RecordStore.observe at hother
    rcases hfound : store.records.lookup k with _ | record
    · rw [hfound] at hother
      simpa using hother
    · rw [hfound] at hother
      obtain ⟨record', hlookup, hvalue⟩ := Option.map_eq_some_iff.mp hother
      rcases Prod.mk.inj hvalue with ⟨rfl, hrecord⟩
      refine ⟨hlookup, fun record hsame => ?_⟩
      obtain rfl := Option.some.inj hsame
      exact hrecord

/-- The identity of device `x`: in every reachable state, what it sends is one
    report, and that report updates exactly the record of key and id `x`. -/
def DeviceIdentity (codec : TextCodec) (x : SizeT) : Prop :=
  ∀ (client : IotClient) (model version : QString) (kind : ReportKind),
    model.AsciiLine → version.AsciiLine →
    ∃ report : Report,
      (client.rx codec (codec.toUtf8 (phoneHome x model version kind))).emitted = [report] ∧
      report.kind = kind ∧
      ∀ memory recordsPerTick serves events now,
        UpdatesExactly memory now report
          (IoTServer.after memory recordsPerTick serves events).toRecordStore x

theorem deviceIdentity_iff_lt {codec : TextCodec} (hcodec : codec.AsciiTransparent)
    (x : SizeT) : DeviceIdentity codec x ↔ x.toNat < 2 ^ 31 := by
  constructor
  · intro hidentity
    obtain ⟨report, hreport, -, hupdates⟩ :=
      hidentity IotClient.init [] [] .boot (by decide) (by decide)
    rw [emitted_rx_phoneHome hcodec (by decide) (by decide)] at hreport
    obtain rfl := List.singleton_inj.mp hreport
    -- in an empty store the record of the report is the only one there is
    obtain ⟨record, hlookup, -⟩ := (hupdates (fun _ => ⟨0, 0, 0⟩) 1 0 [] 0).1
    by_contra hlarge
    have hkey : x ≠ recordKey x := fun hsame =>
      hlarge ((recordKey_eq_self_iff x).mp hsame.symm)
    have hother := ((updatesExactly_idNumber (IoTServer.inv_after (fun _ => ⟨0, 0, 0⟩) 1 0 [])
      (fun _ => ⟨0, 0, 0⟩) 0 ⟨.boot, QString.decimal x.toNat, [], []⟩).2 x hkey).1
    rw [show ([] : QString).takeWhile (fun c => decide (c ≠ 0x3d)) = [] from rfl] at hlookup
    rw [hother] at hlookup
    cases hlookup
  · intro hlt client model version kind hmodel hversion
    refine ⟨_, emitted_rx_phoneHome hcodec hmodel hversion client x kind, rfl, ?_⟩
    intro memory recordsPerTick serves events now
    have hupdates := updatesExactly_idNumber
      (IoTServer.inv_after memory recordsPerTick serves events) memory now
      ⟨kind, QString.decimal x.toNat, model.takeWhile fun c => decide (c ≠ 0x3d),
        version.takeWhile fun c => decide (c ≠ 0x3d)⟩
    have hkey : idNumber (QString.decimal x.toNat) = x := (recordKey_eq_self_iff x).mpr hlt
    rwa [hkey] at hupdates

/-! ### Devices that share a record -/

def Report.isOf (report : Report) (x : SizeT) : Bool :=
  decide (report.id = QString.decimal x.toNat)

def withoutReportsOf (x : SizeT) (events : List ServerEvent) : List ServerEvent :=
  events.filter fun event =>
    match event with
    | .report report _ => !report.isOf x
    | _ => true

/-- No report of device `a` bears on the record of device `b`, be it the record
    under key `b` or the one the reports of `b` are for: in every run with reports
    of these two devices, leaving out those of `a` leaves it as it is. -/
def KeptApart (a b : SizeT) : Prop :=
  ∀ memory recordsPerTick serves events,
    (∀ report now, .report report now ∈ events → report.isOf a ∨ report.isOf b) →
    ∀ k, k = b ∨ k = recordKey b →
      (IoTServer.after memory recordsPerTick serves events).view memory k =
        (IoTServer.after memory recordsPerTick serves (withoutReportsOf a events)).view memory k

theorem handledFor_report_cons (k : SizeT) (report : Report) (now : Nat)
    (events : List ServerEvent) :
    handledFor k (.report report now :: events) =
      if HandledReport.key (report, now) = k then (report, now) :: handledFor k events
      else handledFor k events := by
  simp [handledFor, handledReports, KeyedFold.eventsOf, List.filter_cons]

theorem handledFor_withoutReportsOf {a k : SizeT} (hk : recordKey a ≠ k)
    (events : List ServerEvent) :
    handledFor k (withoutReportsOf a events) = handledFor k events := by
  induction events with
  | nil => rfl
  | cons event events ih =>
      cases event with
      | report report now =>
          rw [handledFor_report_cons]
          by_cases hof : report.isOf a = true
          · have hkey : HandledReport.key (report, now) ≠ k := by
              rw [HandledReport.key, of_decide_eq_true hof]
              exact hk
            rw [if_neg hkey, withoutReportsOf, List.filter_cons_of_neg (by simpa using hof)]
            exact ih
          · rw [withoutReportsOf, List.filter_cons_of_pos (by simpa using hof),
              handledFor_report_cons]
            rw [withoutReportsOf] at ih
            rw [ih]
      | countMetrics lock => exact ih
      | measure => exact ih
      | incomingConnection => exact ih

def SharesRecordZero (x : SizeT) : Prop := x = 0 ∨ 2 ^ 31 ≤ x.toNat

theorem sharesRecordZero_iff (x : SizeT) : SharesRecordZero x ↔ recordKey x = 0 := by
  rw [recordKey_eq, SharesRecordZero]
  split
  · rename_i hlt
    exact or_iff_left (Nat.not_le_of_lt hlt)
  · rename_i hlarge
    exact iff_of_true (.inr (Nat.le_of_not_lt hlarge)) rfl

theorem recordKey_ne_iff {a b : SizeT} (hne : a ≠ b) :
    recordKey a ≠ b ∧ recordKey a ≠ recordKey b ↔
      ¬ (SharesRecordZero a ∧ SharesRecordZero b) := by
  rw [sharesRecordZero_iff, sharesRecordZero_iff]
  constructor
  · rintro ⟨-, hrecord⟩ ⟨ha, hb⟩
    exact hrecord (ha.trans hb.symm)
  · intro hzero
    have hlarge : ∀ x : SizeT, recordKey x ≠ x → recordKey x = 0 := by
      intro x hx
      rw [recordKey_eq, if_neg fun hlt => hx ((recordKey_eq_self_iff x).mpr hlt)]
    by_cases ha : recordKey a = a
    · rw [ha] at hzero ⊢
      refine ⟨hne, fun hb => ?_⟩
      have hkey := hlarge b fun hself => hne (hb.trans hself)
      exact hzero ⟨hb.trans hkey, hkey⟩
    · rw [hlarge a ha] at hzero ⊢
      refine ⟨?_, fun hb => hzero ⟨rfl, hb.symm⟩⟩
      rintro rfl
      exact hzero ⟨rfl, rfl⟩

theorem keptApart_iff {a b : SizeT} (hne : a ≠ b) :
    KeptApart a b ↔ ¬ (SharesRecordZero a ∧ SharesRecordZero b) := by
  rw [← recordKey_ne_iff hne]
  constructor
  · intro hapart
    -- a boot of `a` alone already shows which record it is for
    have hboot : ∀ k, k = b ∨ k = recordKey b → recordKey a ≠ k := by
      intro k hk hkey
      let boot : Report := ⟨.boot, QString.decimal a.toNat, [], []⟩
      have hwith : handledFor k [.report boot 0] = [(boot, 0)] :=
        (handledFor_report_cons k boot 0 []).trans (if_pos hkey)
      have hwithout : withoutReportsOf a [.report boot 0] = [] := by
        simp [withoutReportsOf, Report.isOf, boot]
      have hview := hapart (fun _ => ⟨0, 0, 0⟩) 1 0 [.report boot 0] (by
        simp [Report.isOf, boot]) k hk
      rw [IoTServer.view_after_eq_summary, IoTServer.view_after_eq_summary, hwith,
        hwithout] at hview
      cases hview
    exact ⟨hboot b (.inl rfl), hboot (recordKey b) (.inr rfl)⟩
  · rintro ⟨hkey, hrecord⟩ memory recordsPerTick serves events - k (rfl | rfl)
    · rw [IoTServer.view_after, IoTServer.view_after, handledFor_withoutReportsOf hkey]
    · rw [IoTServer.view_after, IoTServer.view_after, handledFor_withoutReportsOf hrecord]

/-- **Device identity holds below `2 ^ 31`.** A device has a record of its own iff
    its number is below `2 ^ 31`, and two devices are kept apart unless both
    numbers are `0` or too large. -/
theorem deviceIdentity_and_keptApart (codec : TextCodec) (hcodec : codec.AsciiTransparent) :
    (∀ x, DeviceIdentity codec x ↔ x.toNat < 2 ^ 31) ∧
      ∀ a b, a ≠ b → (KeptApart a b ↔ ¬ (SharesRecordZero a ∧ SharesRecordZero b)) :=
  ⟨deviceIdentity_iff_lt hcodec, fun _ _ hne => keptApart_iff hne⟩

theorem deviceIdentity_and_keptApart_latin1 :
    DeviceIdentity TextCodec.latin1 131071 ∧ KeptApart 7 8 :=
  have hlatin1 := deviceIdentity_and_keptApart TextCodec.latin1 TextCodec.latin1_asciiTransparent
  ⟨(hlatin1.1 131071).mpr (by decide),
    (hlatin1.2 7 8 (by decide)).mpr (by simp [SharesRecordZero])⟩

/-- The numeral of device `2 ^ 31` reads as `0`: its boot leaves no record for it,
    and it writes to the record of device `0`. -/
theorem not_deviceIdentity_large :
    ¬ DeviceIdentity TextCodec.latin1 2147483648 ∧ ¬ KeptApart 2147483648 0 := by
  constructor
  · rw [deviceIdentity_iff_lt TextCodec.latin1_asciiTransparent]
    decide
  · rw [keptApart_iff (by decide), not_not]
    exact ⟨.inr (by decide), .inl rfl⟩

end IoTTracker
