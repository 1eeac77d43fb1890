import IoTTracker.DeviceIdentity
import IoTTracker.Utf8

/-!
# Metric texts on the wire

The phone-home client puts a text after `model=` or `version=` as it is; the
server takes the section between the first and the second `=` of the line. So a
text comes back as far as its first `=`, and whole when it has none.
-/

namespace IoTTracker

open QString (LineText)

/-- The record of device `x`, once the server has handled the reports of what the
    device sends, has this model and this version. -/
def MetricsSurvive (codec : TextCodec) (client : IotClient) (chunks : List QByteArray)
    (memory : Memory) (now : Nat) (store : RecordStore) (x : SizeT) (model version : QString) :
    Prop :=
  let reports := DeviceConnection.reports codec (some (client, [])) (chunks.map .readyRead)
  let next := reports.foldl (fun store report => report.handle memory now store) store
  ∃ record, next.records.lookup x = some record ∧
    (next.deref record).model = model ∧ (next.deref record).version = version

theorem takeWhile_eq_self_iff_notMem (text : QString) :
    (text.takeWhile fun c => decide (c ≠ 0x3d)) = text ↔ 0x3d ∉ text := by
  rw [List.takeWhile_eq_self_iff]
  constructor
  · intro hall hmem
    exact of_decide_eq_true (hall _ hmem) rfl
  · intro hnot c hc
    apply decide_eq_true
    rintro rfl
    exact hnot hc

/-- The characters of a line, which does not begin with a byte order mark. -/
structure IsLine (chars : List Char) (line : QString) : Prop where
  utf16_eq : QString.utf16 chars = line
  newline : '\n' ∉ chars
  zero : '\x00' ∉ chars
  mark : chars.head? ≠ some '\ufeff'

/-- The characters that may stand before the text of a line, in ASCII. -/
def IsStart (chars : List Char) : Prop :=
  ∀ c ∈ chars, c.toNat < 0x80 ∧ c ≠ '\n' ∧ c ≠ '\x00'

instance (chars : List Char) : Decidable (IsStart chars) :=
  List.decidableBAll (fun c : Char => c.toNat < 0x80 ∧ c ≠ '\n' ∧ c ≠ '\x00') chars

theorem exists_isLine (start : List Char) {text : QString} (htext : LineText text)
    (hstart : IsStart start) (hne : start ≠ []) :
    ∃ chars : List Char, IsLine chars (QString.ofChars start ++ text) := by
  obtain ⟨chars, rfl, hnewline, hzero⟩ := htext
  refine ⟨start ++ chars, ?_, ?_, ?_, ?_⟩
  · rw [QString.utf16_append, QString.utf16_eq_ofChars]
    intro c hc
    exact (hstart c hc).1.trans (by decide)
  · intro hmem
    rcases List.mem_append.mp hmem with hc | hc
    · exact (hstart _ hc).2.1 rfl
    · exact hnewline hc
  · intro hmem
    rcases List.mem_append.mp hmem with hc | hc
    · exact (hstart _ hc).2.2 rfl
    · exact hzero hc
  · obtain ⟨c, rest, rfl⟩ := List.exists_cons_of_ne_nil hne
    intro hmark
    have hc := (hstart c (List.mem_cons_self ..)).1
    rw [List.cons_append, List.head?_cons, Option.some.injEq] at hmark
    rw [hmark] at hc
    exact absurd hc (by decide)

theorem emitted_drain_text {codec : TextCodec} (hcodec : codec.IsUtf8)
    {chars : List (List Char)} {lines : List QString} (hlines : List.Forall₂ IsLine chars lines)
    (client : IotClient) :
    ((IotClient.rxLoop codec).drain client (codec.toUtf8 (QString.ofLines lines))).emitted =
      DeviceStream.foldLines client lines := by
  have htexts : chars.map QString.utf16 = lines := by
    induction hlines with
    | nil => rfl
    | cons hline _ ih => rw [List.map_cons, hline.utf16_eq, ih]
  have hall : ∀ line ∈ chars, ∃ text, IsLine line text := by
    clear htexts
    induction hlines with
    | nil => simp
    | cons hline _ ih =>
        rw [List.forall_mem_cons]
        exact ⟨⟨_, hline⟩, ih⟩
  rw [← htexts, hcodec.toUtf8_ofLines,
    DeviceStream.emitted_drain_lines codec _ QString.utf16]
  intro line hmem
  obtain ⟨text, hline⟩ := hall line hmem
  exact ⟨newline_notMem_utf8 hline.newline, hcodec.chop_fromByteArray hline.zero hline.mark⟩

theorem lineText_decimal (n : Nat) : LineText (QString.decimal n) := by
  have hdigits : ∀ c ∈ Nat.toDigits 10 n, c.isDigit := fun c hc =>
    Nat.isDigit_of_mem_toDigits (by decide) (by decide) hc
  refine ⟨Nat.toDigits 10 n, ?_, ?_, ?_⟩
  · rw [QString.utf16_eq_ofChars]
    · rfl
    · intro c hc
      have hdigit := hdigits c hc
      simp only [Char.isDigit, ge_iff_le, Bool.and_eq_true, decide_eq_true_eq,
        UInt32.le_iff_toNat_le] at hdigit
      exact hdigit.2.trans_lt (by decide)
  · intro hnewline
    exact absurd (hdigits _ hnewline) (by decide)
  · intro hzero
    exact absurd (hdigits _ hzero) (by decide)

/-- **What a device sends is one report**, with its texts as far as their first
    `=`. -/
theorem reports_phoneHome {codec : TextCodec} (hcodec : codec.IsUtf8) (x : SizeT)
    {model version : QString} (hmodel : model.LineText) (hversion : version.LineText)
    {chunks : List QByteArray}
    (hchunks : chunks.flatten = codec.toUtf8 (phoneHome x model version .boot))
    (client : IotClient) :
    DeviceConnection.reports codec (some (client, [])) (chunks.map .readyRead) =
      [⟨.boot, QString.decimal x.toNat, model.takeWhile fun c => decide (c ≠ 0x3d),
        version.takeWhile fun c => decide (c ≠ 0x3d)⟩] := by
  have hboot : LineText [] := ⟨[], rfl, List.not_mem_nil, List.not_mem_nil⟩
  obtain ⟨idLine, hid⟩ := exists_isLine "id=".toList (lineText_decimal x.toNat)
    (by decide) (by decide)
  obtain ⟨modelLine, hmodelLine⟩ := exists_isLine "model=".toList hmodel (by decide) (by decide)
  obtain ⟨versionLine, hversionLine⟩ :=
    exists_isLine "version=".toList hversion (by decide) (by decide)
  obtain ⟨bootLine, hbootLine⟩ := exists_isLine "boot".toList hboot (by decide) (by decide)
  rw [List.append_nil] at hbootLine
  have hemitted := emitted_drain_text hcodec
    (.cons hid (.cons hmodelLine (.cons hversionLine (.cons hbootLine .nil)))) client
  have hrest : (IotClient.rxLoop codec).AtRest client [] := by
    rw [IotClient.rxLoop_atRest_iff]
    simp
  have hreports := DeviceConnection.reports_readyRead codec chunks [] client []
  rw [List.append_nil, (IotClient.rxLoop codec).receive_eq_drain chunks hrest, List.nil_append,
    hchunks] at hreports
  dsimp only at hreports
  rw [hreports, phoneHome]
  exact (List.append_nil _).trans
    (hemitted.trans (foldLines_phoneHome client x model version .boot))

/-- **Metric texts survive the wire** exactly when neither of them has an `=`. A
    device that the server does not know sends its id, model, version and a boot,
    in any chunks; the record created is compared with what it sent. -/
theorem metricsSurvive_iff (codec : TextCodec) (hcodec : codec.IsUtf8) (x : SizeT)
    (hx : x.toNat < 2 ^ 31) (model version : QString) (hmodel : model.LineText)
    (hversion : version.LineText) (chunks : List QByteArray)
    (hchunks : chunks.flatten = codec.toUtf8 (phoneHome x model version .boot))
    (client : IotClient) (memory : Memory) (recordsPerTick : Nat) (serves : BitVec 32)
    (events : List ServerEvent) (now : Nat)
    (hnew : (IoTServer.after memory recordsPerTick serves events).records.lookup x = none) :
    MetricsSurvive codec client chunks memory now
        (IoTServer.after memory recordsPerTick serves events).toRecordStore x model version ↔
      0x3d ∉ model ∧ 0x3d ∉ version := by
  have hreports := reports_phoneHome hcodec x hmodel hversion hchunks client
  have hinv : (IoTServer.after memory recordsPerTick serves events).Inv :=
    IoTServer.inv_after memory recordsPerTick serves events
  have hkey : idNumber (QString.decimal x.toNat) = x := (recordKey_eq_self_iff x).mpr hx
  have hupdates := (updatesExactly_idNumber hinv memory now
    ⟨.boot, QString.decimal x.toNat, model.takeWhile fun c => decide (c ≠ 0x3d),
      version.takeWhile fun c => decide (c ≠ 0x3d)⟩).1
  rw [hkey] at hupdates
  obtain ⟨record, hlookup, -, hrecord⟩ := hupdates
  rw [hnew] at hrecord
  rw [MetricsSurvive, hreports, List.foldl_cons, List.foldl_nil]
  simp only [hlookup, Option.some.injEq, exists_eq_left', hrecord, Report.model_update,
    Report.version_update]
  exact and_congr (takeWhile_eq_self_iff_notMem model) (takeWhile_eq_self_iff_notMem version)

theorem metricsSurvive_iff_modelT :
    MetricsSurvive TextCodec.utf8 IotClient.init
      [TextCodec.utf8.toUtf8 (phoneHome 7 (QString.latin1 "Model T") (QString.latin1 "1.0") .boot)]
      (fun _ => ⟨0, 0, 0⟩) 5 (IoTServer.after (fun _ => ⟨0, 0, 0⟩) 1 0 []).toRecordStore 7
      (QString.latin1 "Model T") (QString.latin1 "1.0") := by
  have hmodel : LineText (QString.latin1 "Model T") :=
    ⟨"Model T".toList, rfl, by decide, by decide⟩
  have hversion : LineText (QString.latin1 "1.0") := ⟨"1.0".toList, rfl, by decide, by decide⟩
  refine (metricsSurvive_iff TextCodec.utf8 TextCodec.utf8_isUtf8 7 (by decide) _ _ hmodel
    hversion _ (List.append_nil _) IotClient.init _ 1 0 [] 5 ?_).mpr ⟨by decide, by decide⟩
  rfl

/-- The record of a device of model `K=9` has model `K`. -/
theorem not_metricsSurvive_equals :
    ¬ MetricsSurvive TextCodec.utf8 IotClient.init
      [TextCodec.utf8.toUtf8 (phoneHome 7 (QString.latin1 "K=9") (QString.latin1 "1.0") .boot)]
      (fun _ => ⟨0, 0, 0⟩) 5 (IoTServer.after (fun _ => ⟨0, 0, 0⟩) 1 0 []).toRecordStore 7
      (QString.latin1 "K=9") (QString.latin1 "1.0") := by
  have hmodelText : LineText (QString.latin1 "K=9") := ⟨"K=9".toList, rfl, by decide, by decide⟩
  have hversion : LineText (QString.latin1 "1.0") := ⟨"1.0".toList, rfl, by decide, by decide⟩
  rintro ⟨record, hlookup, hmodel, -⟩
  rw [reports_phoneHome TextCodec.utf8_isUtf8 7 hmodelText hversion (List.append_nil _)]
    at hlookup hmodel
  obtain rfl : 0 = record := Option.some.inj hlookup
  exact absurd hmodel (by decide)

end IoTTracker
