import IoTTracker.DeviceIdentity

/-!
# Line ends and zero bytes

`IotClient::rx` strips the newline of a line by dropping the last character of
its text. Qt decodes a byte array up to its first zero byte, so when a line has
a zero byte the newline is not in the text, and what is dropped is the last
character before the zero byte. That can turn a line into another command, or
cut the last character off a value.
-/

namespace IoTTracker.IotClient

variable (codec : TextCodec)

/-- What a line says: its bytes before the newline and before any zero byte,
    decoded. -/
def lineText (line : QByteArray) : QString := codec.fromByteArray line

/-- The text `rx` handles for a line. -/
def strippedLine (line : QByteArray) : QString :=
  QString.chop (codec.fromByteArray (line ++ [0x0a]))

def Assigns (before after : QString) (name : String) (text : QString) : Prop :=
  after = before ∨
    DeviceStream.name text = QString.latin1 name ∧ after = DeviceStream.value text

/-- The line is read as it was written: only its newline is stripped, it makes a
    report only if that is what it says, and a field it assigns receives the whole
    value, whatever the connection has sent before and sends after it. -/
structure ReadAsWritten (line : QByteArray) : Prop where
  stripped : strippedLine codec line = lineText codec line
  reports : ∀ client rest o, rxStep codec client (line ++ 0x0a :: rest) = some o →
    ∀ report ∈ o.emitted, DeviceStream.name (lineText codec line) = report.kind.action
  assigns : ∀ client rest o, rxStep codec client (line ++ 0x0a :: rest) = some o →
    Assigns client.id o.state.id "id" (lineText codec line) ∧
      Assigns client.model o.state.model "model" (lineText codec line) ∧
      Assigns client.version o.state.version "version" (lineText codec line)

variable {codec} {line : QByteArray}

theorem cString_concat_of_mem (hzero : 0 ∈ line) (byte : UInt8) :
    QByteArray.cString (line ++ [byte]) = QByteArray.cString line := by
  rw [QByteArray.cString, QByteArray.cString, List.takeWhile_append, if_neg]
  intro hlength
  have hall := (List.takeWhile_prefix _).eq_of_length hlength
  rw [List.takeWhile_eq_self_iff] at hall
  exact of_decide_eq_true (hall 0 hzero) rfl

theorem chop_eq_self_iff (text : QString) : QString.chop text = text ↔ text = [] := by
  constructor
  · intro hsame
    have hlength := congrArg List.length hsame
    rw [QString.chop, List.length_dropLast] at hlength
    rw [← List.length_eq_zero_iff]
    omega
  · rintro rfl
    rfl

/-- `chop` removes the newline and nothing else iff there is no zero byte, or no
    text before it. -/
theorem strippedLine_eq_iff (hcodec : codec.DecodesLines codec.fromUtf8)
    (hline : 0x0a ∉ line) :
    strippedLine codec line = lineText codec line ↔ 0 ∉ line ∨ lineText codec line = [] := by
  by_cases hzero : 0 ∈ line
  · have hsame : codec.fromByteArray (line ++ [0x0a]) = lineText codec line :=
      congrArg codec.fromUtf8 (cString_concat_of_mem hzero 0x0a)
    rw [strippedLine, hsame, chop_eq_self_iff]
    simp [hzero]
  · have hchop := DeviceStream.chop_fromByteArray hcodec hzero hline
    rw [← codec.fromByteArray_of_notMem hzero] at hchop
    exact iff_of_true hchop (.inl hzero)

theorem reports_lineMeaning (client : IotClient) (text : QString) :
    ∀ report ∈ (DeviceStream.lineMeaning client text).2,
      DeviceStream.name text = report.kind.action := by
  intro report hreport
  unfold DeviceStream.lineMeaning at hreport
  split_ifs at hreport with hid hversion hmodel hboot hdaily
  · cases hreport
  · cases hreport
  · cases hreport
  · rw [List.mem_singleton.mp hreport]
    exact hboot
  · rw [List.mem_singleton.mp hreport]
    exact hdaily
  · cases hreport

theorem assigns_lineMeaning (client : IotClient) (text : QString) :
    Assigns client.id (DeviceStream.lineMeaning client text).1.id "id" text ∧
      Assigns client.model (DeviceStream.lineMeaning client text).1.model "model" text ∧
      Assigns client.version (DeviceStream.lineMeaning client text).1.version "version" text := by
  unfold DeviceStream.lineMeaning
  split_ifs with hid hversion hmodel hboot hdaily
  · exact ⟨.inr ⟨hid, rfl⟩, .inl rfl, .inl rfl⟩
  · exact ⟨.inl rfl, .inl rfl, .inr ⟨hversion, rfl⟩⟩
  · exact ⟨.inl rfl, .inr ⟨hmodel, rfl⟩, .inl rfl⟩
  · exact ⟨.inl rfl, .inl rfl, .inl rfl⟩
  · exact ⟨.inl rfl, .inl rfl, .inl rfl⟩
  · exact ⟨.inl rfl, .inl rfl, .inl rfl⟩

theorem ReadAsWritten.of_stripped (hline : 0x0a ∉ line)
    (hstripped : strippedLine codec line = lineText codec line) : ReadAsWritten codec line := by
  have hread : ∀ client rest o, rxStep codec client (line ++ 0x0a :: rest) = some o →
      o = ⟨(DeviceStream.lineMeaning client (lineText codec line)).1, rest,
        (DeviceStream.lineMeaning client (lineText codec line)).2⟩ := by
    intro client rest o hstep
    rw [rxStep_line codec client hline] at hstep
    change (let handled := client.handleLine (strippedLine codec line)
      some ⟨handled.1, rest, handled.2⟩) = some o at hstep
    rw [hstripped, DeviceStream.handleLine_eq_lineMeaning] at hstep
    exact (Option.some.inj hstep).symm
  refine ⟨hstripped, ?_, ?_⟩
  · intro client rest o hstep
    rw [hread client rest o hstep]
    exact reports_lineMeaning client _
  · intro client rest o hstep
    rw [hread client rest o hstep]
    exact assigns_lineMeaning client _

/-- **No line becomes another command** exactly when it has no zero byte, or
    nothing to read before its first one. -/
theorem readAsWritten_iff (codec : TextCodec) (hcodec : codec.DecodesLines codec.fromUtf8)
    (line : QByteArray) (hline : 0x0a ∉ line) :
    ReadAsWritten codec line ↔ 0 ∉ line ∨ codec.fromByteArray line = [] := by
  rw [← lineText, ← strippedLine_eq_iff hcodec hline]
  exact ⟨ReadAsWritten.stripped, ReadAsWritten.of_stripped hline⟩

theorem readAsWritten_iff_boot :
    ReadAsWritten TextCodec.latin1 (QByteArray.latin1 "boot") :=
  (readAsWritten_iff TextCodec.latin1 TextCodec.latin1_decodesLines
    (QByteArray.latin1 "boot") (by decide)).mpr (.inl (by decide))

/-- The line `bootX` with a zero byte after it is a boot report. -/
theorem not_readAsWritten_bootX :
    ¬ ReadAsWritten TextCodec.latin1 (QByteArray.latin1 "bootX" ++ [0]) := by
  intro hread
  have hreport := hread.reports init []
    ⟨init, [], [init.report .boot]⟩ (by decide) (init.report .boot) (List.mem_singleton_self _)
  exact absurd hreport (by decide)

end IoTTracker.IotClient
