import IoTTracker.DeviceIdentity

/-!
# Reports without a valid identity

A connection on which no id line has come, or whose latest id is no numeral,
still makes reports. The key of such a report is what `QString::toInt` gives for
a text it cannot convert, `0`, and the store handles it like any other: it
creates record `0` or changes it. Only a `24hrs` report that tells record `0`
nothing new leaves the store as it was.
-/

namespace IoTTracker

namespace QString

/-- A decimal integer numeral: digits after an optional sign, between blanks. -/
def IsNumeral (text : QString) : Prop :=
  ∃ sign digits, trimmed text = sign ++ digits ∧
    (sign = [] ∨ sign = [0x2d] ∨ sign = [0x2b]) ∧ digits ≠ [] ∧ ∀ c ∈ digits, IsDigit c

theorem isDigit_of_parseDigitsFrom {text : QString} :
    ∀ {value n : Nat}, parseDigitsFrom value text = some n → ∀ c ∈ text, IsDigit c := by
  induction text with
  | nil =>
      intro value n _ c hc
      cases hc
  | cons first text ih =>
      intro value n hparse c hc
      by_cases hdigit : IsDigit first
      · rw [parseDigitsFrom, digitValue, if_pos hdigit] at hparse
        rcases List.mem_cons.mp hc with rfl | hrest
        · exact hdigit
        · exact ih hparse c hrest
      · rw [parseDigitsFrom, digitValue, if_neg hdigit] at hparse
        cases hparse

theorem digits_of_parseDigits {text : QString} {value : Int}
    (hvalue : ((parseDigits text).bind fun n => some (n : Int)) = some value) :
    text ≠ [] ∧ ∀ c ∈ text, IsDigit c := by
  obtain ⟨n, hparse, -⟩ := Option.bind_eq_some_iff.mp hvalue
  unfold parseDigits at hparse
  split at hparse
  · cases hparse
  · rename_i hne
    exact ⟨hne, isDigit_of_parseDigitsFrom hparse⟩

theorem toInt_of_not_isNumeral {text : QString} (htext : ¬ text.IsNumeral) :
    toInt text = 0 := by
  have hnone : parseInteger (trimmed text) = none := by
    by_contra hsome
    obtain ⟨value, hvalue⟩ := Option.ne_none_iff_exists'.mp hsome
    apply htext
    unfold parseInteger at hvalue
    split at hvalue
    · rename_i digits hdigits
      obtain ⟨n, hparse, -⟩ := Option.map_eq_some_iff.mp hvalue
      exact ⟨[0x2d], digits, hdigits, .inr (.inl rfl), digits_of_parseDigits hparse⟩
    · rename_i digits hdigits
      obtain ⟨n, hparse, -⟩ := Option.map_eq_some_iff.mp hvalue
      exact ⟨[0x2b], digits, hdigits, .inr (.inr rfl), digits_of_parseDigits hparse⟩
    · obtain ⟨n, hparse, -⟩ := Option.map_eq_some_iff.mp hvalue
      exact ⟨[], trimmed text, rfl, .inl rfl, digits_of_parseDigits hparse⟩
  rw [toInt, hnone]

end QString

/-! ### The identity of a connection -/

namespace IotClient

variable (codec : TextCodec)

/-- The text of the line an iteration of `rx` reads, without its last character. -/
def rxLine (_ : IotClient) (socket : QByteArray) : QString :=
  QString.chop (codec.fromByteArray (QIODevice.readLine socket).1)

theorem rxLine_append {client : IotClient} {socket : QByteArray}
    {o : Outcome IotClient UInt8 Report} (hstep : rxStep codec client socket = some o)
    (more : QByteArray) :
    rxLine codec client (socket ++ more) = rxLine codec client socket := by
  by_cases hnewline : 0x0a ∈ socket
  · obtain ⟨line, rest, hline, rfl⟩ := QIODevice.exists_line hnewline
    rw [List.append_assoc, List.cons_append, rxLine, rxLine, QIODevice.readLine_append hline,
      QIODevice.readLine_append hline]
  · rw [(rxStep_eq_none_iff codec client socket).mpr hnewline] at hstep
    cases hstep

theorem rxStep_eq_some {client : IotClient} {socket : QByteArray}
    {o : Outcome IotClient UInt8 Report} (hstep : rxStep codec client socket = some o) :
    o.state = (client.handleLine (rxLine codec client socket)).1 := by
  unfold rxStep at hstep
  split at hstep
  · obtain rfl := Option.some.inj hstep
    rfl
  · cases hstep

/-- `IotClient::rx` with the text of each line it handles. -/
def loggedLoop : ReceiveLoop IotClient UInt8 (QString × List Report) :=
  (rxLoop codec).logged (rxLine codec) fun hstep more => rxLine_append codec hstep more

/-- The texts of the lines a new connection has handled. -/
def linesHandled (chunks : List QByteArray) : List QString :=
  ((loggedLoop codec).receive chunks init []).emitted.map Prod.fst

/-- The state of a new connection that has received `chunks`. -/
def received (chunks : List QByteArray) : IotClient :=
  ((rxLoop codec).receive chunks init []).state

/-- The value of the latest id line. -/
def latestId (lines : List QString) : Option QString :=
  lines.foldl (fun id line =>
    if QString.section line 0x3d 0 0 = QString.latin1 "id" then
      some (QString.section line 0x3d 1 1)
    else id) none

theorem latestId_concat (lines : List QString) (line : QString) :
    latestId (lines ++ [line]) =
      if QString.section line 0x3d 0 0 = QString.latin1 "id" then
        some (QString.section line 0x3d 1 1)
      else latestId lines := by
  simp [latestId, List.foldl_append]

theorem id_handleLine (client : IotClient) (line : QString) :
    (client.handleLine line).1.id =
      if QString.section line 0x3d 0 0 = QString.latin1 "id" then QString.section line 0x3d 1 1
      else client.id := by
  by_cases hempty : line = []
  · subst hempty
    rfl
  · by_cases hid : QString.section line 0x3d 0 0 = QString.latin1 "id"
    · simp [handleLine, hempty, hid]
    · simp only [handleLine, if_neg hempty, if_neg hid]
      split_ifs <;> rfl

theorem id_received (chunks : List QByteArray) :
    (received codec chunks).id = (latestId (linesHandled codec chunks)).getD [] := by
  let P : List (QString × List Report) → IotClient → Prop := fun log client =>
    client.id = (latestId (log.map Prod.fst)).getD []
  have hinit : P [] init := rfl
  have hrun := (loggedLoop codec).receive_induction (P := P) ?_ chunks hinit []
  · have hstate : ((loggedLoop codec).receive chunks init []).state = received codec chunks :=
      congrArg Outcome.state ((rxLoop codec).unlogged_receive (rxLine codec) _ chunks init [])
    rwa [hstate] at hrun
  · intro earlier client socket o hearlier hstep
    obtain ⟨next, hnext, rfl⟩ :=
      ((rxLoop codec).logged_step_eq_some_iff (rxLine codec) _).mp hstep
    change next.state.id = (latestId ((earlier ++ [_]).map Prod.fst)).getD []
    rw [rxStep_eq_some codec hnext, id_handleLine, List.map_append, List.map_singleton,
      latestId_concat]
    split
    · rfl
    · exact hearlier

/-- No id line has been handled, or the latest holds no numeral. -/
def NoIdentity (lines : List QString) : Prop :=
  ∀ id, latestId lines = some id → ¬ id.IsNumeral

theorem idNumber_received {chunks : List QByteArray}
    (hnone : NoIdentity (linesHandled codec chunks)) : idNumber (received codec chunks).id = 0 := by
  have htoInt : QString.toInt (received codec chunks).id = 0 := by
    rw [id_received]
    rcases hid : latestId (linesHandled codec chunks) with _ | id
    · rfl
    · exact QString.toInt_of_not_isNumeral (hnone id hid)
  rw [idNumber, htoInt]
  rfl

theorem handleLine_action (client : IotClient) {line : QString} {kind : ReportKind}
    (hline : QString.section line 0x3d 0 0 = kind.action) :
    (client.handleLine line).2 = [client.report kind] := by
  rw [DeviceStream.handleLine_eq_lineMeaning, DeviceStream.lineMeaning]
  rw [QString.section_zero] at hline
  simp only [DeviceStream.name, hline]
  cases kind <;> rfl

/-- Handling a line: the reports it makes are handled in the store. -/
def handleInStore (memory : Memory) (now : Nat) (client : IotClient) (line : QString)
    (store : RecordStore) : RecordStore :=
  (client.handleLine line).2.foldl (fun store report => report.handle memory now store) store

end IotClient

/-! ### What a report does to the store -/

theorem totalBoots_succ_ne (record : Record) : record.totalBoots + 1 ≠ record.totalBoots := by
  simp

/-- The update of a report changes a record unless it is a `24hrs` report that
    brings nothing new. -/
theorem Report.update_eq_self_iff (report : Report) (record : Record) :
    report.update record = record ↔
      report.kind = .hrs24 ∧ record.checkIn = 1 ∧ record.version = report.version := by
  unfold Report.update
  cases hkind : report.kind with
  | boot =>
      simp only [reduceCtorEq, false_and, iff_false]
      intro hsame
      exact totalBoots_succ_ne record (congrArg Record.totalBoots hsame)
  | hrs24 =>
      simp only [true_and]
      constructor
      · intro hsame
        exact ⟨(congrArg Record.checkIn hsame).symm, (congrArg Record.version hsame).symm⟩
      · rintro ⟨hcheckIn, hversion⟩
        rw [← hcheckIn, ← hversion]

theorem RecordStore.upsert_eq_self_iff {store : RecordStore} (hinv : store.Inv) (idn : SizeT)
    (create : RecordPtr → Record) (update : Record → Record) :
    store.upsert idn create update = store ↔
      ∃ record, store.records.lookup idn = some record ∧
        update (store.deref record) = store.deref record := by
  rcases hfound : store.records.lookup idn with _ | record
  · rw [RecordStore.upsert_of_new hfound]
    simp only [reduceCtorEq, false_and, exists_false, iff_false]
    intro hsame
    have hlength := congrArg (fun store => store.recordList.length) hsame
    simp at hlength
  · have hlt := hinv.lt_length hfound
    rw [RecordStore.upsert_of_known hfound]
    simp only [Option.some.injEq, exists_eq_left']
    constructor
    · intro hsame
      have hderef := congrArg (fun store => store.deref record) hsame
      rwa [RecordStore.deref_modify_self hlt] at hderef
    · intro hsame
      have hheap : store.heap.modify record update = store.heap := by
        apply List.ext_getElem?
        intro i
        rw [List.getElem?_modify]
        split
        · rename_i hi
          subst hi
          rw [List.getElem?_eq_getElem hlt] at *
          simpa [RecordStore.deref, List.getD_eq_getElem?_getD, List.getElem?_eq_getElem hlt]
            using hsame
        · simp
      rw [hheap]

/-- **Reports without a valid identity change the store.** On a connection with no
    valid identity, in any reachable store, a boot or 24hrs line leaves the store
    alone exactly when it is a 24hrs line, record `0` is there and checked in, and
    it has the version of the connection. -/
theorem store_unchanged_iff (codec : TextCodec) (chunks : List QByteArray)
    (hnone : IotClient.NoIdentity (IotClient.linesHandled codec chunks))
    (line : QString) (kind : ReportKind) (hline : QString.section line 0x3d 0 0 = kind.action)
    (memory : Memory) (recordsPerTick : Nat) (serves : BitVec 32) (events : List ServerEvent)
    (now : Nat) :
    let client := IotClient.received codec chunks
    let store := (IoTServer.after memory recordsPerTick serves events).toRecordStore
    client.handleInStore memory now line store = store ↔
      kind = .hrs24 ∧ ∃ record, store.records.lookup 0 = some record ∧
        (store.deref record).checkIn = 1 ∧ (store.deref record).version = client.version := by
  intro client store
  have hinv : store.Inv := IoTServer.inv_after memory recordsPerTick serves events
  have hkey : idNumber (client.report kind).id = 0 := IotClient.idNumber_received codec hnone
  rw [IotClient.handleInStore, IotClient.handleLine_action client hline, List.foldl_cons,
    List.foldl_nil, Report.handle_eq_upsert, RecordStore.upsert_eq_self_iff hinv, hkey]
  simp only [Report.update_eq_self_iff]
  constructor
  · rintro ⟨record, hlookup, hkind, hsame⟩
    exact ⟨hkind, record, hlookup, hsame⟩
  · rintro ⟨hkind, record, hlookup, hsame⟩
    exact ⟨record, hlookup, hkind, hsame⟩

/-- A daily line repeated on a connection that has sent nothing else. -/
theorem store_unchanged_iff_secondDaily :
    let store := (IoTServer.after (fun _ => ⟨0, 0, 0⟩) 1 0
      [.report ⟨.hrs24, [], [], []⟩ 0]).toRecordStore
    (IotClient.received TextCodec.latin1 []).handleInStore (fun _ => ⟨0, 0, 0⟩) 1
      (QString.latin1 "24hrs") store = store := by
  have hnone : IotClient.NoIdentity (IotClient.linesHandled TextCodec.latin1 []) := by
    intro id hid
    cases hid
  apply (store_unchanged_iff TextCodec.latin1 [] hnone (QString.latin1 "24hrs") .hrs24
    (by decide) (fun _ => ⟨0, 0, 0⟩) 1 0 [.report ⟨.hrs24, [], [], []⟩ 0] 1).mpr
  exact ⟨rfl, 0, by decide, by decide, by decide⟩

/-- A device that sends its model and version and boots, but no id: an empty
    server then has a record. -/
theorem not_store_unchanged_noId :
    let client := IotClient.received TextCodec.latin1 [QByteArray.latin1 "model=A\nversion=1\n"]
    let store := (IoTServer.after (fun _ => ⟨0, 0, 0⟩) 1 0 []).toRecordStore
    IotClient.NoIdentity (IotClient.linesHandled TextCodec.latin1
        [QByteArray.latin1 "model=A\nversion=1\n"]) ∧
      client.handleInStore (fun _ => ⟨0, 0, 0⟩) 0 (QString.latin1 "boot") store ≠ store := by
  constructor
  · intro id hid
    have hnone : IotClient.latestId (IotClient.linesHandled TextCodec.latin1
        [QByteArray.latin1 "model=A\nversion=1\n"]) = none := by decide
    rw [hnone] at hid
    cases hid
  · intro hsame
    have hlist := congrArg RecordStore.recordList hsame
    exact absurd hlist (by decide)

end IoTTracker
