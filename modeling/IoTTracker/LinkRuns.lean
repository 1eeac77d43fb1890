import IoTTracker.MonitorLink

/-!
# Runs of the monitor's link

`Link::rx` logged: each iteration takes a line or a document off the socket and
emits some signals. From the log one reads that every run of the loop ends at
rest with each byte taken once or left in order, and which documents were
announced by a header line. The constructor of `Link` sets neither of its two
members, so the last depends on the memory the object was constructed in.
-/

namespace IoTTracker

/-- What one iteration of `Link::rx` takes off the socket: a line with its
    newline, or a document. -/
inductive LinkRead where
  | line (bytes : QByteArray)
  | payload (jsonData : QByteArray)
deriving DecidableEq, Repr

def LinkRead.bytes : LinkRead → QByteArray
  | .line bytes => bytes
  | .payload jsonData => jsonData

namespace Link

def rxRead (link : Link) (server : QByteArray) : LinkRead :=
  if link.binaryMode then .payload (QIODevice.read server link.binaryLength).1
  else .line (QIODevice.readLine server).1

variable (codec : TextCodec) {link : Link} {server : QByteArray}

theorem rxRead_line (hmode : link.binaryMode = false) {line : QByteArray}
    (hline : 0x0a ∉ line) (rest : QByteArray) :
    rxRead link (line ++ 0x0a :: rest) = .line (line ++ [0x0a]) := by
  simp [rxRead, hmode, QIODevice.readLine_append hline]

theorem rxRead_binary (hmode : link.binaryMode = true) (server : QByteArray) :
    rxRead link server = .payload (server.take link.binaryLength.toNat) := by
  simp [rxRead, hmode, QIODevice.read, List.splitAt_eq]

theorem rxRead_append {o : Outcome Link UInt8 LinkSignal}
    (hstep : rxStep codec link server = some o) (more : QByteArray) :
    rxRead link (server ++ more) = rxRead link server := by
  rcases rxStep_cases codec hstep with ⟨hmode, line, rest, hline, rfl⟩ | ⟨hmode, hlength⟩
  · rw [List.append_assoc, List.cons_append, rxRead_line hmode hline, rxRead_line hmode hline]
  · have hle : link.binaryLength.toNat ≤ server.length := by omega
    rw [rxRead_binary hmode, rxRead_binary hmode, List.take_append_of_le_length hle]

/-- What an iteration read, and the signals it emitted. -/
abbrev LogEntry := LinkRead × List LinkSignal

def loggedLoop : ReceiveLoop Link UInt8 LogEntry :=
  (rxLoop codec).logged rxRead fun hstep more => rxRead_append codec hstep more

theorem bytes_append_buffer {o : Outcome Link UInt8 LinkSignal}
    (hstep : rxStep codec link server = some o) :
    (rxRead link server).bytes ++ o.buffer = server := by
  rcases rxStep_cases codec hstep with ⟨hmode, line, rest, hline, rfl⟩ | ⟨hmode, hlength⟩
  · rw [rxStep_line codec hmode hline] at hstep
    obtain rfl := Option.some.inj hstep
    simp [rxRead_line hmode hline, LinkRead.bytes]
  · rw [rxStep_binary codec hmode hlength] at hstep
    obtain rfl := Option.some.inj hstep
    rw [rxRead_binary hmode, LinkRead.bytes, List.take_append_drop]

/-! ### Rest -/

/-- **`Link::rx` always ends at rest.** No run of its loop is infinite; the one
    from any state takes the bytes of its log off the front of the buffer, in
    order and once each, and ends where no line or document is complete. -/
theorem rx_ends_at_rest (link : Link) (server : QByteArray) :
    let o := link.rx codec server
    let logged := (loggedLoop codec).drain link server
    (∀ run : Nat → Link × QByteArray, ¬ ∀ n, ∃ emitted,
      rxStep codec (run n).1 (run n).2 = some ⟨(run (n + 1)).1, (run (n + 1)).2, emitted⟩) ∧
    (rxLoop codec).Steps link server o ∧
    ReceiveLoop.unlogged logged = o ∧
    (logged.emitted.flatMap fun entry => entry.1.bytes) ++ o.buffer = server ∧
    (o.state.binaryMode = false ∧ 0x0a ∉ o.buffer ∨
      o.state.binaryMode = true ∧ (o.buffer.length : Int) < o.state.binaryLength) := by
  intro o logged
  have hlogged : ReceiveLoop.unlogged logged = o :=
    (rxLoop codec).unlogged_drain rxRead _ link server
  have hrest := (rxLoop codec).drain_atRest link server
  rw [rxLoop_atRest_iff] at hrest
  refine ⟨(rxLoop codec).not_infinite_run, (rxLoop codec).steps_drain link server, hlogged, ?_, ?_⟩
  · rw [← hlogged]
    refine (loggedLoop codec).drain_conserves (fun entry => entry.1.bytes) ?_ link server
    intro link server next hnext
    obtain ⟨next, hstep, rfl⟩ :=
      ((rxLoop codec).logged_step_eq_some_iff rxRead _).mp hnext
    simpa using bytes_append_buffer codec hstep
  · change if o.state.binaryMode then (o.buffer.length : Int) < o.state.binaryLength
      else 0x0a ∉ o.buffer at hrest
    cases hmode : o.state.binaryMode with
    | false => exact .inl ⟨rfl, by simpa [hmode] using hrest⟩
    | true => exact .inr ⟨rfl, by simpa [hmode] using hrest⟩

/-- **`Link::rx` does not depend on chunking.** Once it has run on what is
    buffered, any two ways of cutting what follows lead to the same signals, mode,
    length and unread bytes, from either mode and for any bytes. -/
theorem rx_independent_of_chunking (link : Link) (server : QByteArray)
    (chunks chunks' : List QByteArray) (hsame : chunks.flatten = chunks'.flatten) :
    let start := link.rx codec server
    (rxLoop codec).receive chunks start.state start.buffer =
      (rxLoop codec).receive chunks' start.state start.buffer := by
  intro start
  have hrest : (rxLoop codec).AtRest start.state start.buffer :=
    (rxLoop codec).drain_atRest link server
  rw [(rxLoop codec).receive_eq_drain chunks hrest,
    (rxLoop codec).receive_eq_drain chunks' hrest, hsame]

/-- A header with a negative length, cut after its newline and inside the next
    line, in a state with a line begun. -/
theorem rx_independent_of_chunking_negative :
    let start := rx TextCodec.latin1 ⟨7, false⟩ (QByteArray.latin1 "upd")
    (rxLoop TextCodec.latin1).receive
        [QByteArray.latin1 "ate=-1\n", QByteArray.latin1 "cp", QByteArray.latin1 "s=4\n"]
        start.state start.buffer =
      (rxLoop TextCodec.latin1).receive [QByteArray.latin1 "ate=-1\ncps=4\n"]
        start.state start.buffer :=
  rx_independent_of_chunking TextCodec.latin1 ⟨7, false⟩ (QByteArray.latin1 "upd")
    [QByteArray.latin1 "ate=-1\n", QByteArray.latin1 "cp", QByteArray.latin1 "s=4\n"]
    [QByteArray.latin1 "ate=-1\ncps=4\n"] (by decide)

/-! ### Documents and their headers -/

/-- `Link::Link()` sets neither member: both keep what was in memory. -/
def init (raw : Link) : Link := raw

/-- A line that announces a document of `length` bytes. -/
def Announces (text : QString) (length : Int) : Prop :=
  QString.section text 0x3d 0 0 = QString.latin1 "update" ∧
    QString.toInt (QString.section text 0x3d 1 1) = length

def IsHeader (entry : LogEntry) (length : Int) : Prop :=
  ∃ bytes, entry.1 = .line bytes ∧ Announces (QString.chop (codec.fromByteArray bytes)) length

/-- Binary mode means that the last thing read was a header, with the length that
    is awaited; a log begins with a line; and a document was emitted only right
    after a header, its own. -/
structure Headered (log : List LogEntry) (link : Link) : Prop where
  awaited : link.binaryMode = true →
    ∃ earlier header, log = earlier ++ [header] ∧ IsHeader codec header link.binaryLength
  line_first : ∀ entry later, log = entry :: later → ∃ bytes, entry.1 = .line bytes
  announced : ∀ earlier entry later, log = earlier ++ entry :: later →
    ∀ jsonData, .update jsonData ∈ entry.2 →
      ∃ earlier' header length, earlier = earlier' ++ [header] ∧ IsHeader codec header length

theorem handleLine_cases (link : Link) (text : QString) :
    (∃ length, Announces text length ∧ link.handleLine text = (⟨length, true⟩, [])) ∨
      (link.handleLine text).1 = link ∧
        ∀ jsonData, .update jsonData ∉ (link.handleLine text).2 := by
  unfold handleLine
  split
  · simp
  · dsimp only
    split
    · simp
    · split
      · simp
      · split
        · rename_i hupdate
          exact .inl ⟨_, ⟨hupdate, rfl⟩, rfl⟩
        · simp

/-- An entry added to a log stands after all the others. -/
theorem eq_or_eq_of_concat_eq {α : Type*} {log earlier later : List α} {entry added : α}
    (hsplit : log ++ [added] = earlier ++ entry :: later) :
    earlier = log ∧ entry = added ∨ ∃ later', log = earlier ++ entry :: later' := by
  rcases List.eq_nil_or_concat' later with rfl | ⟨later', last, rfl⟩
  · obtain ⟨hlog, hentry⟩ := List.append_inj' hsplit rfl
    exact .inl ⟨hlog.symm, (List.singleton_inj.mp hentry).symm⟩
  · rw [← List.cons_append, ← List.append_assoc] at hsplit
    exact .inr ⟨later', (List.append_inj' hsplit rfl).1⟩

variable {codec}

theorem Headered.concat {log : List LogEntry} {next : Link} {entry : LogEntry}
    (hlog : Headered codec log link)
    (hawaited : next.binaryMode = true → IsHeader codec entry next.binaryLength)
    (hfirst : log = [] → ∃ bytes, entry.1 = .line bytes)
    (hupdate : ∀ jsonData, .update jsonData ∈ entry.2 →
      ∃ earlier header length, log = earlier ++ [header] ∧ IsHeader codec header length) :
    Headered codec (log ++ [entry]) next := by
  refine ⟨fun hmode => ⟨log, entry, rfl, hawaited hmode⟩, ?_, ?_⟩
  · intro first later hsplit
    rw [← List.nil_append (first :: later)] at hsplit
    rcases eq_or_eq_of_concat_eq hsplit with ⟨hnil, rfl⟩ | ⟨later', hlater⟩
    · exact hfirst hnil.symm
    · exact hlog.line_first first later' hlater
  · intro earlier other later hsplit jsonData hjson
    rcases eq_or_eq_of_concat_eq hsplit with ⟨rfl, rfl⟩ | ⟨later', hlater⟩
    · exact hupdate jsonData hjson
    · exact hlog.announced earlier other later' hlater jsonData hjson

theorem headered_step {log : List LogEntry} {o : Outcome Link UInt8 LogEntry}
    (hlog : Headered codec log link) (hstep : (loggedLoop codec).step link server = some o) :
    Headered codec (log ++ o.emitted) o.state := by
  obtain ⟨next, hnext, rfl⟩ := ((rxLoop codec).logged_step_eq_some_iff rxRead _).mp hstep
  change rxStep codec link server = some next at hnext
  rcases rxStep_cases codec hnext with ⟨hmode, line, rest, hline, rfl⟩ | ⟨hmode, hlength⟩
  · rw [rxStep_line codec hmode hline] at hnext
    obtain rfl := Option.some.inj hnext
    rw [rxRead_line hmode hline]
    rcases link.handleLine_cases (QString.chop (codec.fromByteArray (line ++ [0x0a]))) with
      ⟨length, hannounces, hhandled⟩ | ⟨hsame, hnone⟩
    · rw [hhandled]
      apply hlog.concat
      · exact fun _ => ⟨_, rfl, hannounces⟩
      · exact fun _ => ⟨_, rfl⟩
      · intro jsonData hjson
        cases hjson
    · apply hlog.concat
      · dsimp only
        rw [hsame, hmode]
        intro hbinary
        cases hbinary
      · exact fun _ => ⟨_, rfl⟩
      · exact fun jsonData hjson => absurd hjson (hnone jsonData)
  · rw [rxStep_binary codec hmode hlength] at hnext
    obtain rfl := Option.some.inj hnext
    -- the header that led into binary mode is the last entry of the log
    obtain ⟨earlier, header, hearlier, hheader⟩ := hlog.awaited hmode
    apply hlog.concat
    · intro hbinary
      cases hbinary
    · intro hnil
      rw [hnil] at hearlier
      exact absurd hearlier.symm (by simp)
    · exact fun _ _ => ⟨earlier, header, _, hearlier, hheader⟩

variable (codec)

/-- What a new link does with the chunks it receives. -/
def PayloadAfterHeader (raw : Link) (chunks : List QByteArray) : Prop :=
  let o := (rxLoop codec).receive chunks (init raw) []
  let logged := (loggedLoop codec).receive chunks (init raw) []
  ReceiveLoop.unlogged logged = o ∧ Headered codec logged.emitted o.state

/-- **Payload mode only after a header**: in every state that a new link comes to,
    exactly when its constructor found `binaryMode` false in memory. -/
theorem payloadAfterHeader_iff (raw : Link) (chunks : List QByteArray) :
    (∀ received, received <+: chunks → PayloadAfterHeader codec raw received) ↔
      raw.binaryMode = false := by
  constructor
  · intro hruns
    by_contra hmode
    -- nothing has been read yet
    obtain ⟨earlier, header, hnil, -⟩ := (hruns [] List.nil_prefix).2.awaited
      (Bool.eq_true_of_not_eq_false hmode)
    exact absurd hnil.symm (by simp [ReceiveLoop.receive])
  · intro hmode received _
    have hlogged : ReceiveLoop.unlogged ((loggedLoop codec).receive received (init raw) []) =
        (rxLoop codec).receive received (init raw) [] :=
      (rxLoop codec).unlogged_receive rxRead _ received (init raw) []
    have hinit : Headered codec [] (init raw) := by
      refine ⟨fun hbinary => absurd hbinary (by simp [init, hmode]), ?_, ?_⟩
      · intro entry later hnil
        cases hnil
      · intro earlier entry later hnil
        exact absurd hnil.symm (by simp)
    have hrun := (loggedLoop codec).receive_induction (P := Headered codec)
      (fun _ _ _ _ hlog hstep => headered_step hlog hstep) received hinit []
    refine ⟨hlogged, ?_⟩
    rw [← hlogged]
    exact hrun

/-- In memory that held `true` and `4`, the link takes the first four bytes of
    its first line for a document. -/
theorem not_payloadAfterHeader_usedMemory :
    ¬ PayloadAfterHeader TextCodec.latin1 ⟨4, true⟩ [QByteArray.latin1 "cps=7\n"] := by
  rintro ⟨-, hlog⟩
  have hfirst := hlog.line_first
    (.payload (QByteArray.latin1 "cps="), [.update (QByteArray.latin1 "cps=")])
    [(.line (QByteArray.latin1 "7\n"), [])] (by decide)
  obtain ⟨bytes, hbytes⟩ := hfirst
  cases hbytes

end Link

end IoTTracker
