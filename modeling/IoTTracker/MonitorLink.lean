import IoTTracker.ReceiveLoop
import IoTTracker.QtText

/-!
# The monitor's link

`Link::rx` reads lines until an `update=` line announces a document, then waits
for that many bytes and takes them as they are. Either way one iteration of its
loop is possible on a buffer only if it is possible on every longer one, so it is
a receive loop.
-/

namespace IoTTracker

inductive LinkSignal where
  | updateCps (cps : QString)
  | updateTotalDevices (totalDevices : QString)
  | update (jsonData : QByteArray)
deriving DecidableEq, Repr

structure Link where
  binaryLength : Int
  binaryMode : Bool
deriving DecidableEq, Repr

namespace Link

def handleLine (link : Link) (line : QString) : Link × List LinkSignal :=
  if line = [] then (link, [])
  else
    let cmd := QString.section line 0x3d 0 0
    let value := QString.section line 0x3d 1 1
    if cmd = QString.latin1 "cps" then (link, [.updateCps value])
    else if cmd = QString.latin1 "total_devices" then (link, [.updateTotalDevices value])
    else if cmd = QString.latin1 "update" then
      ({ binaryLength := QString.toInt value, binaryMode := true }, [])
    else (link, []) -- qDebug() << cmd << cmd.size()

def rxStep (codec : TextCodec) (link : Link) (server : QByteArray) :
    Option (Outcome Link UInt8 LinkSignal) :=
  if (!link.binaryMode && QIODevice.canReadLine server) ||
      (link.binaryMode && decide (link.binaryLength ≤ server.length)) then
    if link.binaryMode then
      let read := QIODevice.read server link.binaryLength
      some ⟨{ link with binaryMode := false }, read.2, [.update read.1]⟩
    else
      let read := QIODevice.readLine server
      let line := QString.chop (codec.fromByteArray read.1)
      let handled := link.handleLine line
      some ⟨handled.1, read.2, handled.2⟩
  else none

variable (codec : TextCodec) {link : Link} {server : QByteArray}

/-! ### The two modes of an iteration -/

theorem rxStep_line (hmode : link.binaryMode = false) {line : QByteArray}
    (hline : 0x0a ∉ line) (rest : QByteArray) :
    rxStep codec link (line ++ 0x0a :: rest) =
      let handled := link.handleLine (QString.chop (codec.fromByteArray (line ++ [0x0a])))
      some ⟨handled.1, rest, handled.2⟩ := by
  have hcan : QIODevice.canReadLine (line ++ 0x0a :: rest) = true := by
    simp [QIODevice.canReadLine_iff]
  simp [rxStep, hmode, hcan, QIODevice.readLine_append hline]

theorem rxStep_binary (hmode : link.binaryMode = true)
    (hlength : link.binaryLength ≤ server.length) :
    rxStep codec link server =
      some ⟨{ link with binaryMode := false }, server.drop link.binaryLength.toNat,
        [.update (server.take link.binaryLength.toNat)]⟩ := by
  simp [rxStep, hmode, hlength, QIODevice.read, List.splitAt_eq]

theorem rxStep_eq_none_iff :
    rxStep codec link server = none ↔
      if link.binaryMode then (server.length : Int) < link.binaryLength
      else 0x0a ∉ server := by
  cases hmode : link.binaryMode <;> simp [rxStep, hmode, QIODevice.canReadLine_iff]

theorem rxStep_cases {o : Outcome Link UInt8 LinkSignal}
    (hstep : rxStep codec link server = some o) :
    (link.binaryMode = false ∧ ∃ line rest, 0x0a ∉ line ∧ server = line ++ 0x0a :: rest) ∨
      (link.binaryMode = true ∧ link.binaryLength ≤ server.length) := by
  have hsome : rxStep codec link server ≠ none := by simp [hstep]
  rw [Ne, rxStep_eq_none_iff] at hsome
  cases hmode : link.binaryMode with
  | false =>
      simp only [hmode, Bool.false_eq_true, if_false, not_not] at hsome
      exact .inl ⟨rfl, QIODevice.exists_line hsome⟩
  | true =>
      simp only [hmode, if_true, not_lt] at hsome
      exact .inr ⟨rfl, hsome⟩

/-- `Link::rx` as a receive loop: an iteration takes a line or a document. A
    document may be empty, but it ends the binary mode. -/
def rxLoop : ReceiveLoop Link UInt8 LinkSignal where
  step := rxStep codec
  weight link server := 2 * server.length + link.binaryMode.toNat
  weight_lt := by
    intro link server o hstep
    rcases rxStep_cases codec hstep with ⟨hmode, line, rest, hline, rfl⟩ | ⟨hmode, hlength⟩
    · rw [rxStep_line codec hmode hline] at hstep
      obtain rfl := Option.some.inj hstep
      have hle := Bool.toNat_le
        (link.handleLine (QString.chop (codec.fromByteArray (line ++ [0x0a])))).1.binaryMode
      simp only [List.length_append, List.length_cons]
      omega
    · rw [rxStep_binary codec hmode hlength] at hstep
      obtain rfl := Option.some.inj hstep
      simp only [hmode, List.length_drop, Bool.toNat_false, Bool.toNat_true]
      omega
  step_append := by
    intro link server o hstep more
    rcases rxStep_cases codec hstep with ⟨hmode, line, rest, hline, rfl⟩ | ⟨hmode, hlength⟩
    · rw [rxStep_line codec hmode hline] at hstep
      obtain rfl := Option.some.inj hstep
      rw [List.append_assoc, List.cons_append, rxStep_line codec hmode hline]
    · rw [rxStep_binary codec hmode hlength] at hstep
      obtain rfl := Option.some.inj hstep
      have hlonger : link.binaryLength ≤ (server ++ more).length := by
        rw [List.length_append]
        omega
      have hle : link.binaryLength.toNat ≤ server.length := by omega
      rw [rxStep_binary codec hmode hlonger, List.drop_append_of_le_length hle,
        List.take_append_of_le_length hle]

theorem rxLoop_atRest_iff :
    (rxLoop codec).AtRest link server ↔
      if link.binaryMode then (server.length : Int) < link.binaryLength
      else 0x0a ∉ server :=
  rxStep_eq_none_iff codec

def rx (link : Link) (server : QByteArray) : Outcome Link UInt8 LinkSignal :=
  (rxLoop codec).drain link server

end Link

end IoTTracker
