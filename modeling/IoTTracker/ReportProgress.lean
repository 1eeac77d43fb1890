import IoTTracker.ThreadedTracker
import IoTTracker.Turns

/-!
# A report is not long in coming

When all threads have come to rest and no more bytes arrive, each tick gets the
lock and counts the next records of the pass, so the pass completes and the monitors
are told a report within a bounded number of turns of the main thread. With this a
fleet that has phoned home is on the screen of each monitor that keeps reading.
-/

namespace IoTTracker

/-! ### The way to the next report -/

namespace IoTServer

variable {server : IoTServer}

/-- The number of records that a pass has still to count; the next pass counts all. -/
def uncounted (server : IoTServer) : Nat :=
  if server.countMetricsStart then server.recordList.length
  else
    match server.recIterator with
    | .node position => server.recordList.length - position
    | _ => 0

theorem uncounted_of_atPosition (hstart : server.countMetricsStart = false) {position : Nat}
    (hposition : server.recIterator = .atPosition server.recordList position) :
    server.uncounted = server.recordList.length - position := by
  rw [uncounted, hstart, hposition, ListIterator.atPosition]
  by_cases hend : position < server.recordList.length
  · rw [if_pos hend]
    rfl
  · rw [if_neg hend, Nat.sub_eq_zero_of_le (Nat.le_of_not_lt hend)]
    rfl

theorem uncounted_le (server : IoTServer) : server.uncounted ≤ server.recordList.length := by
  unfold uncounted
  repeat' split
  all_goals omega

theorem uncounted_beginPass (server : IoTServer) :
    server.beginPass.uncounted = server.uncounted := by
  have hbegun := countMetricsStart_beginPass server
  rcases hstart : server.countMetricsStart with _ | _
  · rw [beginPass, hstart]
    rfl
  · have hfirst : server.beginPass.recIterator = .atPosition server.beginPass.recordList 0 := by
      rw [beginPass, if_pos hstart]
      rfl
    rw [uncounted_of_atPosition hbegun hfirst, uncounted, if_pos hstart, toRecordStore_beginPass]
    rfl

end IoTServer

namespace MainPc

variable {ι : Type*} (recordsPerTick : Nat)

/-- The turns of the main thread in which ticks count this many records. -/
def countingTurns (records : Nat) : Nat :=
  ((records - 1) / recordsPerTick + 1) * (recordsPerTick + 7)

/-- The turns after a tick that leaves this many records uncounted. -/
def laterTurns (records : Nat) : Nat :=
  if records = 0 then 0 else countingTurns recordsPerTick records

/-- The turns to the next report. -/
def toReport (server : IoTServer) : MainPc → Nat
  | .idle => countingTurns recordsPerTick server.uncounted - 1
  | .trying => laterTurns recordsPerTick (server.uncounted - recordsPerTick) + recordsPerTick + 5
  | .starting => laterTurns recordsPerTick (server.uncounted - recordsPerTick) + recordsPerTick + 4
  | .counting left => laterTurns recordsPerTick (server.uncounted - left) + left + 3
  | .ending => laterTurns recordsPerTick server.uncounted + 2
  | .unlocking =>
      (if server.countMetricsStart then 0 else countingTurns recordsPerTick server.uncounted) + 1
  | .reporting =>
      if server.countMetricsStart then 0 else countingTurns recordsPerTick server.uncounted

variable {recordsPerTick}

theorem countingTurns_eq (htick : 0 < recordsPerTick) (records : Nat) :
    countingTurns recordsPerTick records =
      laterTurns recordsPerTick (records - recordsPerTick) + (recordsPerTick + 7) := by
  by_cases hlast : records ≤ recordsPerTick
  · have hone : (records - 1) / recordsPerTick = 0 := Nat.div_eq_of_lt (by omega)
    rw [countingTurns, hone, laterTurns, if_pos (Nat.sub_eq_zero_of_le hlast)]
    omega
  · have hmore : (records - 1) / recordsPerTick =
        (records - recordsPerTick - 1) / recordsPerTick + 1 := by
      rw [Nat.div_eq_sub_div htick (by omega), Nat.sub_right_comm]
    rw [countingTurns, hmore, laterTurns, if_neg (by omega), countingTurns, Nat.succ_mul]

theorem countingTurns_mono {records records' : Nat} (hle : records ≤ records') :
    countingTurns recordsPerTick records ≤ countingTurns recordsPerTick records' := by
  apply Nat.mul_le_mul_right
  apply Nat.succ_le_succ
  apply Nat.div_le_div_right
  omega

/-- In the loop of `countMetrics` or right after it. -/
def InPass : MainPc → Prop
  | .counting _ | .ending => True
  | _ => False

/-- The iterator of a pass is at some position of the list, and the pass goes on to
    the end of the tick. -/
structure OnTheWay (pc : MainPc) (server : IoTServer) : Prop where
  position : server.countMetricsStart = false →
    ∃ position, server.recIterator = .atPosition server.recordList position
  underway : pc.InPass → server.countMetricsStart = false

variable {server : IoTServer}

theorem OnTheWay.of_not_inPass {pc pc' : MainPc} (hway : OnTheWay pc server)
    (hpc : ¬ pc'.InPass) : OnTheWay pc' server :=
  ⟨hway.position, fun hpass => absurd hpass hpc⟩

theorem onTheWay_beginPass {pc : MainPc} (hway : OnTheWay pc server) (pc' : MainPc) :
    OnTheWay pc' server.beginPass := by
  rcases hstart : server.countMetricsStart with _ | _
  · rw [IoTServer.beginPass, hstart]
    exact ⟨hway.position, fun _ => hstart⟩
  · rw [IoTServer.beginPass, if_pos hstart]
    exact ⟨fun _ => ⟨0, rfl⟩, fun _ => rfl⟩

theorem onTheWay_countRecord {left : Nat} {record : RecordPtr}
    (hway : OnTheWay (.counting (left + 1)) server)
    (hrecord : server.recIterator.deref server.recordList = some record) :
    OnTheWay (.counting left) (server.countRecord record) ∧
      (server.countRecord record).uncounted + 1 = server.uncounted := by
  have hstart := hway.underway trivial
  obtain ⟨position, hposition⟩ := hway.position hstart
  rw [hposition, ListIterator.deref_atPosition] at hrecord
  obtain ⟨hlt, -⟩ := List.getElem?_eq_some_iff.mp hrecord
  have hnext : (server.countRecord record).recIterator =
      .atPosition (server.countRecord record).recordList (position + 1) := by
    change server.recIterator.next server.recordList = _
    rw [hposition, ListIterator.next_atPosition hlt]
    rfl
  refine ⟨⟨fun _ => ⟨position + 1, hnext⟩, fun _ => hstart⟩, ?_⟩
  have hcounted : (server.countRecord record).countMetricsStart = false := hstart
  rw [IoTServer.uncounted_of_atPosition hcounted hnext,
    IoTServer.uncounted_of_atPosition hstart hposition]
  change server.recordList.length - (position + 1) + 1 = _
  omega

theorem uncounted_eq_zero_iff {pc : MainPc} (hway : OnTheWay pc server) (hpass : pc.InPass) :
    server.uncounted = 0 ↔ server.recIterator = .sentinel := by
  obtain ⟨position, hposition⟩ := hway.position (hway.underway hpass)
  rw [IoTServer.uncounted_of_atPosition (hway.underway hpass) hposition, hposition,
    ListIterator.atPosition_eq_sentinel_iff, Nat.sub_eq_zero_iff_le]

theorem uncounted_of_deref {pc : MainPc} (hway : OnTheWay pc server) (hpass : pc.InPass)
    (hrecord : server.recIterator.deref server.recordList = none) : server.uncounted = 0 := by
  obtain ⟨position, hposition⟩ := hway.position (hway.underway hpass)
  rw [hposition, ListIterator.deref_atPosition, List.getElem?_eq_none_iff] at hrecord
  rw [IoTServer.uncounted_of_atPosition (hway.underway hpass) hposition]
  exact Nat.sub_eq_zero_of_le hrecord

theorem onTheWay_endPass (hway : OnTheWay .ending server) :
    OnTheWay .unlocking server.endPass ∧
      toReport recordsPerTick server.endPass .unlocking <
        toReport recordsPerTick server .ending := by
  have hend := uncounted_eq_zero_iff hway trivial
  by_cases hsentinel : server.recIterator = .sentinel
  · rw [IoTServer.endPass, if_pos hsentinel]
    refine ⟨⟨nofun, nofun⟩, ?_⟩
    simp only [toReport, if_true]
    omega
  · rw [IoTServer.endPass, if_neg hsentinel]
    refine ⟨hway.of_not_inPass not_false, ?_⟩
    have hstart : server.countMetricsStart = false := hway.underway trivial
    rw [toReport, toReport, hstart, laterTurns, if_neg (mt hend.mp hsentinel)]
    exact Nat.lt_succ_self _

/-- **The main thread is on its way.** A step that gets the lock when it tries puts out
    a report or is one step nearer to it. -/
theorem toReport_step (htick : 0 < recordsPerTick) {pc : MainPc} (hpc : pc ≠ .idle)
    {recordLocker : Option (ThreadId ι)} (hlock : pc = .trying → recordLocker = none)
    (hway : OnTheWay pc server) :
    let next := pc.step recordsPerTick recordLocker server
    (∃ output ∈ next.outputs, output.report? ≠ none) ∨
      OnTheWay next.pc next.server ∧
        next.pc.toReport recordsPerTick next.server < pc.toReport recordsPerTick server := by
  cases pc with
  | idle => exact absurd rfl hpc
  | trying =>
      rw [hlock rfl]
      exact .inr ⟨hway.of_not_inPass not_false, Nat.lt_succ_self _⟩
  | starting =>
      right
      refine ⟨onTheWay_beginPass hway _, ?_⟩
      simp only [step, toReport, IoTServer.uncounted_beginPass]
      omega
  | counting left =>
      right
      cases left with
      | zero => exact ⟨⟨hway.position, hway.underway⟩, Nat.lt_succ_self _⟩
      | succ left =>
          rcases hrecord : server.recIterator.deref server.recordList with _ | record
          · have hzero := uncounted_of_deref hway trivial hrecord
            simp only [step, hrecord]
            refine ⟨⟨hway.position, hway.underway⟩, ?_⟩
            rw [toReport, toReport, hzero, Nat.zero_sub]
            omega
          · obtain ⟨hnext, hless⟩ := onTheWay_countRecord hway hrecord
            simp only [step, hrecord]
            refine ⟨hnext, ?_⟩
            rw [toReport, toReport, ← hless, Nat.add_sub_add_right]
            omega
  | ending => exact .inr (onTheWay_endPass hway)
  | unlocking => exact .inr ⟨hway.of_not_inPass not_false, Nat.lt_succ_self _⟩
  | reporting =>
      rcases hstart : server.countMetricsStart with _ | _
      · right
        simp only [step, hstart]
        refine ⟨hway.of_not_inPass not_false, ?_⟩
        rw [toReport, toReport, hstart, countingTurns_eq htick]
        exact Nat.sub_lt (by omega) Nat.one_pos
      · left
        simp only [step, hstart]
        exact ⟨_, List.mem_singleton_self _, Option.some_ne_none _⟩

end MainPc

/-! ### Threads at rest -/

namespace ThreadState

variable {ι κ : Type*} [DecidableEq ι] [DecidableEq κ] (codec : TextCodec) (memory : Memory)
  (recordsPerTick : Nat) (owner : κ → ι)

/-- No report is under way, no line is unread, and there are records. -/
structure Resting (s : ThreadState ι κ) : Prop where
  inv : s.Inv
  workers : ∀ i, s.workers i = .idle
  lines : ∀ c, 0x0a ∉ (s.connections c).2
  size : s.server.size ≠ 0
  way : s.main.OnTheWay s.server

/-- The next timeout when the main thread is idle, its next step when it is not. -/
def helpful (s : ThreadState ι κ) : ThreadEvent ι κ :=
  if s.main = .idle then .countMetrics else .main

variable {codec memory recordsPerTick owner} {s : ThreadState ι κ}

theorem Resting.readLine_eq (hrests : s.Resting) (c : κ) : s.readLine codec owner c = s := by
  rw [readLine, if_pos (hrests.workers (owner c)),
    (IotClient.rxStep_eq_none_iff codec _ _).mpr (hrests.lines c)]

omit [DecidableEq κ] in
theorem Resting.work_eq (hrests : s.Resting) (i : ι) (now : Nat) : s.work memory i now = s := by
  have hworkers : Function.update s.workers i .idle = s.workers := by
    rw [← hrests.workers i, Function.update_eq_self]
  simp only [work, hrests.workers i, WorkerPc.step, hworkers]

/-- Nothing that matters to the pass has changed. -/
structure SamePass (server server' : IoTServer) : Prop where
  toRecordStore_eq : server'.toRecordStore = server.toRecordStore
  recIterator_eq : server'.recIterator = server.recIterator
  countMetricsStart_eq : server'.countMetricsStart = server.countMetricsStart

theorem SamePass.refl (server : IoTServer) : SamePass server server := ⟨rfl, rfl, rfl⟩

theorem SamePass.toReport_eq {server server' : IoTServer} (hsame : SamePass server server')
    (pc : MainPc) : pc.toReport recordsPerTick server' = pc.toReport recordsPerTick server := by
  have huncounted : server'.uncounted = server.uncounted := by
    rw [IoTServer.uncounted, hsame.toRecordStore_eq, hsame.recIterator_eq,
      hsame.countMetricsStart_eq, IoTServer.uncounted]
  cases pc <;> simp only [MainPc.toReport, huncounted, hsame.countMetricsStart_eq]

/-- An event that does not help changes nothing that matters to the pass. -/
theorem Resting.step_of_ne (hrests : s.Resting) {event : ThreadEvent ι κ}
    (hquiet : ∀ c bytes, event ≠ .arrive c bytes) (hother : event ≠ s.helpful) :
    ∃ server, ((machine codec memory recordsPerTick owner).step s event).1 =
      { s with server := server } ∧ SamePass s.server server := by
  unfold helpful at hother
  cases event with
  | arrive c bytes => exact absurd rfl (hquiet c bytes)
  | readLine c => exact ⟨s.server, hrests.readLine_eq c, .refl _⟩
  | work i now => exact ⟨s.server, hrests.work_eq i now, .refl _⟩
  | countMetrics =>
      have hmain : s.main ≠ .idle := fun hidle => hother (if_pos hidle).symm
      refine ⟨s.server, ?_, .refl _⟩
      simp only [machine, hmain, false_and, if_false]
  | measure =>
      by_cases hmain : s.main = .idle
      · refine ⟨s.server.measure.1, ?_, rfl, rfl, rfl⟩
        simp only [machine, hmain, if_true]
      · refine ⟨s.server, ?_, .refl _⟩
        simp only [machine, hmain, if_false]
  | incomingConnection =>
      by_cases hmain : s.main = .idle
      · refine ⟨s.server.incomingConnection.1, ?_, rfl, rfl, rfl⟩
        simp only [machine, hmain, if_true]
      · refine ⟨s.server, ?_, .refl _⟩
        simp only [machine, hmain, if_false]
  | main =>
      have hmain : s.main = .idle := by
        by_contra hbusy
        exact hother (if_neg hbusy).symm
      refine ⟨s.server, ?_, .refl _⟩
      simp only [machine, hmain, MainPc.step]

omit [DecidableEq ι] [DecidableEq κ] in
theorem Resting.of_samePass (hrests : s.Resting) {server : IoTServer}
    (hsame : SamePass s.server server) (hinv : ({ s with server := server } :
      ThreadState ι κ).Inv) : ({ s with server := server } : ThreadState ι κ).Resting where
  inv := hinv
  workers := hrests.workers
  lines := hrests.lines
  size := by
    change server.toRecordStore.size ≠ 0
    rw [hsame.toRecordStore_eq]
    exact hrests.size
  way := by
    constructor
    · rw [hsame.countMetricsStart_eq, hsame.recIterator_eq, hsame.toRecordStore_eq]
      exact hrests.way.position
    · rw [hsame.countMetricsStart_eq]
      exact hrests.way.underway

theorem Resting.step_helpful (htick : 0 < recordsPerTick) (hrests : s.Resting) :
    (∃ output ∈ ((machine codec memory recordsPerTick owner).step s s.helpful).2,
      output.report? ≠ none) ∨
      (((machine codec memory recordsPerTick owner).step s s.helpful).1.Resting ∧
        ((machine codec memory recordsPerTick owner).step s s.helpful).1.main.toReport
            recordsPerTick
            ((machine codec memory recordsPerTick owner).step s s.helpful).1.server <
          s.main.toReport recordsPerTick s.server) := by
  have hinv := inv_step codec memory recordsPerTick owner hrests.inv s.helpful
  by_cases hmain : s.main = .idle
  · have hhelpful : s.helpful = .countMetrics := if_pos hmain
    have hstep : (machine codec memory recordsPerTick owner).step s .countMetrics =
        ({ s with main := .trying }, []) := if_pos ⟨hmain, hrests.size⟩
    rw [hhelpful, hstep] at hinv ⊢
    refine .inr ⟨⟨hinv, hrests.workers, hrests.lines, hrests.size,
      hrests.way.of_not_inPass not_false⟩, ?_⟩
    simp only [hmain, MainPc.toReport, MainPc.countingTurns_eq htick]
    omega
  · have hhelpful : s.helpful = .main := if_neg hmain
    rw [hhelpful] at hinv ⊢
    have hlock : s.main = .trying → s.recordLocker = none := fun htrying =>
      hrests.inv.recordLocker_eq_none (by rw [htrying]; exact not_false) hrests.workers
    refine (MainPc.toReport_step htick hmain hlock hrests.way).imp_right ?_
    rintro ⟨hway, hless⟩
    refine ⟨⟨hinv, hrests.workers, hrests.lines, ?_, hway⟩, hless⟩
    change (s.main.step recordsPerTick s.recordLocker s.server).server.toRecordStore.size ≠ 0
    rw [MainPc.toRecordStore_step]
    exact hrests.size

theorem leadsTo_report (htick : 0 < recordsPerTick) :
    (machine codec memory recordsPerTick owner : Machine (ThreadState ι κ) _ _).LeadsTo Resting
      (fun s => s.main.toReport recordsPerTick s.server) helpful
      (fun event => ∀ c bytes, event ≠ .arrive c bytes) (fun output => output.report? ≠ none) where
  step := by
    intro s event hrests hquiet
    by_cases hother : event = s.helpful
    · subst hother
      exact (hrests.step_helpful htick).imp_right fun hnext => ⟨hnext.1, .inl hnext.2⟩
    · have hinv := inv_step codec memory recordsPerTick owner hrests.inv event
      obtain ⟨server, hstep, hsame⟩ := hrests.step_of_ne hquiet hother
      rw [hstep] at hinv ⊢
      exact .inr ⟨hrests.of_samePass hsame hinv,
        .inr ⟨hother, hsame.toReport_eq s.main, rfl⟩⟩

/-- Rounds in which no bytes arrive, the timer of `countMetrics` runs out and the main
    thread takes a step, in any order and with whatever else. -/
structure TickRounds (rounds : List (List (ThreadEvent ι κ))) : Prop where
  quiet : ∀ round ∈ rounds, ∀ c bytes, .arrive c bytes ∉ round
  ticks : ∀ round ∈ rounds, .countMetrics ∈ round
  steps : ∀ round ∈ rounds, .main ∈ round

theorem Resting.lastReport_ne_none (htick : 0 < recordsPerTick) (hrests : s.Resting)
    {rounds : List (List (ThreadEvent ι κ))} (hrounds : TickRounds rounds)
    (hlength : s.main.toReport recordsPerTick s.server < rounds.length) :
    lastReport ((machine codec memory recordsPerTick owner).outputs s rounds.flatten) ≠ none := by
  have hhelpful : ∀ round ∈ rounds, ∀ s : ThreadState ι κ, s.Resting → s.helpful ∈ round := by
    intro round hmem s _
    unfold helpful
    split
    · exact hrounds.ticks round hmem
    · exact hrounds.steps round hmem
  obtain ⟨output, houtput, hreport⟩ := (leadsTo_report htick).exists_output
    (fun round hmem event hevent c bytes heq => hrounds.quiet round hmem c bytes (heq ▸ hevent))
    hhelpful hrests hlength
  obtain ⟨maps, hmaps⟩ := Option.ne_none_iff_exists'.mp hreport
  intro hnone
  have hmem := List.mem_filterMap.mpr ⟨output, houtput, hmaps⟩
  rw [List.getLast?_eq_none_iff.mp hnone] at hmem
  cases hmem

variable (codec memory recordsPerTick owner) (serves : BitVec 32)

/-- All threads have come to rest: none is in a call and no line is unread. -/
structure AtRest (events : List (ThreadEvent ι κ)) : Prop where
  main : (after codec memory recordsPerTick owner serves events).main = .idle
  workers : ∀ i, (after codec memory recordsPerTick owner serves events).workers i = .idle
  lines : ∀ c, 0x0a ∉ ((after codec memory recordsPerTick owner serves events).connections c).2

variable {codec memory recordsPerTick owner serves} {events : List (ThreadEvent ι κ)}

theorem AtRest.server_eq (hrest : AtRest codec memory recordsPerTick owner serves events) :
    (after codec memory recordsPerTick owner serves events).server =
      IoTServer.after memory recordsPerTick serves
        (serverEvents codec (performed codec memory recordsPerTick owner serves events)) := by
  have hinv := inv_run codec memory recordsPerTick owner serves events
  have houtside :
      ¬ (after codec memory recordsPerTick owner serves events).main.Inside := by
    rw [hrest.main]
    exact not_false
  have hlock := hinv.recordLocker_eq_none houtside hrest.workers
  have hserver := (refines_after codec memory recordsPerTick owner serves events).server_eq
  rw [atomicAfter_eq, settled_of_main recordsPerTick hinv (.inl hlock), hrest.main] at hserver
  exact hserver.symm

theorem AtRest.resting (hrest : AtRest codec memory recordsPerTick owner serves events)
    (hsize : (after codec memory recordsPerTick owner serves events).server.size ≠ 0) :
    (after codec memory recordsPerTick owner serves events).Resting where
  inv := inv_run codec memory recordsPerTick owner serves events
  workers := hrest.workers
  lines := hrest.lines
  size := hsize
  way := by
    have hpass := IoTServer.passInv_after memory recordsPerTick serves
      (serverEvents codec (performed codec memory recordsPerTick owner serves events))
    rw [← hrest.server_eq] at hpass
    refine ⟨fun hstart => ⟨_, (hpass.underway hstart).1.recIterator_eq⟩, ?_⟩
    rw [hrest.main]
    exact False.elim

theorem AtRest.toReport_lt (hrest : AtRest codec memory recordsPerTick owner serves events) :
    (after codec memory recordsPerTick owner serves events).main.toReport recordsPerTick
        (after codec memory recordsPerTick owner serves events).server <
      MainPc.countingTurns recordsPerTick
        (after codec memory recordsPerTick owner serves events).server.size := by
  have hinv : (IoTServer.after memory recordsPerTick serves (serverEvents codec
      (performed codec memory recordsPerTick owner serves events))).Inv :=
    IoTServer.inv_after memory recordsPerTick serves _
  rw [hrest.main, MainPc.toReport, hrest.server_eq, hinv.size_eq]
  refine lt_of_lt_of_le (Nat.sub_lt ?_ Nat.one_pos)
    (MainPc.countingTurns_mono (IoTServer.uncounted_le _))
  exact Nat.mul_pos (Nat.succ_pos _) (Nat.succ_pos _)

/-- **A report is not long in coming.** When all threads have come to rest, there are
    records and nothing more arrives, rounds of ticks lead to a report: `recordsPerTick + 7`
    of them for each tick that it takes to count all records. -/
theorem report_comes (htick : 0 < recordsPerTick)
    (hrest : AtRest codec memory recordsPerTick owner serves events)
    (hsize : (after codec memory recordsPerTick owner serves events).server.size ≠ 0)
    {rounds : List (List (ThreadEvent ι κ))} (hrounds : TickRounds rounds)
    (hlength : MainPc.countingTurns recordsPerTick
      (after codec memory recordsPerTick owner serves events).server.size ≤ rounds.length) :
    lastReport ((machine codec memory recordsPerTick owner).outputs
      (after codec memory recordsPerTick owner serves events) rounds.flatten) ≠ none :=
  (hrest.resting hsize).lastReport_ne_none htick hrounds (hrest.toReport_lt.trans_le hlength)

/-- Eight rounds, each with a turn of the main thread before the timeout. -/
def eightRounds : List (List (ThreadEvent Bool Bool)) :=
  List.replicate 8 [.main, .countMetrics]

theorem tickRounds_eightRounds : TickRounds eightRounds :=
  ⟨by simp [eightRounds], by decide, by decide⟩

theorem report_comes_phonesHome :
    lastReport ((machine TextCodec.latin1 (fun _ => ⟨0, 0, 0⟩) 1 id).outputs
      (after TextCodec.latin1 (fun _ => ⟨0, 0, 0⟩) 1 id 0 phonesHome)
      eightRounds.flatten) ≠ none :=
  report_comes Nat.one_pos
    ⟨by decide, by decide, by decide⟩ (by decide) tickRounds_eightRounds (by decide)

end ThreadState

/-- **A fleet reaches the screen.** When the worker threads have come to an end of the
    boots of a fleet, a monitor that connects then and stays shows after enough rounds of
    ticks, once it has read what was written to it, a line for each model and each
    version of the fleet with how many numbers have it. -/
theorem fleet_reaches_screen {κ : Type*} [Fintype κ] [DecidableEq κ] [Nonempty κ]
    {drawn : κ → SizeT} {ι : Type*} [DecidableEq ι] {codec : TextCodec}
    (hcodec : codec.AsciiTransparent) {json : JsonText} {memory : Memory} {recordsPerTick : Nat}
    (htick : 0 < recordsPerTick) {owner : κ → ι} {serves : BitVec 32}
    {before later : List (ThreadEvent ι κ ⊕ MonitorEvent)} {link : Link}
    {chunks : List QByteArray}
    (hwatches : Watches (ThreadState.machine codec memory recordsPerTick owner) codec json
      (ThreadState.init serves) before later link chunks)
    (hfinishes : ThreadState.Finishes codec memory recordsPerTick owner serves
      (fun c => codec.toUtf8 (srvConnect (drawn c))) (Machine.upstream before))
    (hconnects : (ThreadState.after codec memory recordsPerTick owner serves
      (Machine.upstream before)).main = .idle)
    {rounds : List (List (ThreadEvent ι κ))} (hrounds : ThreadState.TickRounds rounds)
    (hlater : Machine.upstream later = rounds.flatten)
    (hlength : MainPc.countingTurns recordsPerTick (numbers drawn).card ≤ rounds.length) :
    ∃ monitor : Monitor,
      (Monitor.machine codec json).run (some ⟨link, [], MonitorWindow.buildGui⟩)
          (chunks.map .readyRead) = some monitor ∧
        (monitor.window.modelArea = censusText drawn fun x => (modelAndVersion x).1) ∧
        monitor.window.versionArea = censusText drawn fun x => (modelAndVersion x).2 := by
  have hrest : ThreadState.AtRest codec memory recordsPerTick owner serves
      (Machine.upstream before) :=
    ⟨hconnects, hfinishes.2, fun c => (hfinishes.1 c).2⟩
  have hsize : (ThreadState.after codec memory recordsPerTick owner serves
      (Machine.upstream before)).server.size = (numbers drawn).card := by
    rw [hrest.server_eq]
    exact (census_of_handledFor memory recordsPerTick serves
      (handledFor_finishes hcodec hfinishes)).size_eq
  have hquiet : ∀ c bytes, .arrive c bytes ∉ Machine.upstream later := by
    intro c bytes hmem
    rw [hlater] at hmem
    obtain ⟨round, hround, hmem⟩ := List.mem_flatten.mp hmem
    exact hrounds.quiet round hround c bytes hmem
  have hpos : (numbers drawn).card ≠ 0 :=
    Finset.card_ne_zero.mpr (Finset.image_nonempty.mpr Finset.univ_nonempty)
  have hreport : lastReport ((ThreadState.machine codec memory recordsPerTick owner).outputs
      (ThreadState.after codec memory recordsPerTick owner serves (Machine.upstream before))
      rounds.flatten) ≠ none :=
    (hrest.resting (hsize ▸ hpos)).lastReport_ne_none htick hrounds
      (hrest.toReport_lt.trans_le (hsize ▸ hlength))
  rw [← hlater] at hreport
  obtain ⟨next, -, hrun⟩ := hwatches.window hcodec
  have hshows := (countsFleet_threads hcodec hfinishes hquiet hconnects).shows
  exact ⟨_, hrun, hshows.areas_eq hreport⟩

theorem fleet_reaches_screen_phonesHome :
    let M := ThreadState.machine TextCodec.latin1 (fun _ => ⟨0, 0, 0⟩) 1 (id : Bool → Bool)
    ∃ monitor : Monitor,
      (Monitor.machine TextCodec.latin1 (oneDevice "Model A" "2.4")).run
          (some ⟨⟨-8, false⟩, [], MonitorWindow.buildGui⟩)
          ([writtenTo M TextCodec.latin1 (oneDevice "Model A" "2.4") (ThreadState.init 0)
            (phonesHome.map .inl) (ThreadState.eightRounds.flatten.map .inl)].map .readyRead) =
          some monitor ∧
        monitor.window.versionArea = QString.latin1 "2.4       1\n" := by
  intro M
  have hwatches : Watches M TextCodec.latin1 (oneDevice "Model A" "2.4") (ThreadState.init 0)
      (phonesHome.map .inl) (ThreadState.eightRounds.flatten.map .inl) ⟨-8, false⟩
      [writtenTo M TextCodec.latin1 (oneDevice "Model A" "2.4") (ThreadState.init 0)
        (phonesHome.map .inl) (ThreadState.eightRounds.flatten.map .inl)] := by
    refine ⟨by simp [SocketsOnly], by simp, ?_, rfl, by simp⟩
    exact carriesAll_oneDevice (by decide) (by decide) (by decide)
  obtain ⟨monitor, hrun, -, hversions⟩ := fleet_reaches_screen
    TextCodec.latin1_asciiTransparent Nat.one_pos hwatches finishes_phonesHome
    (by decide) ThreadState.tickRounds_eightRounds (by decide) (by decide)
  have hversion : (numbers sameNumber).image (fun x => (modelAndVersion x).2) =
      {QString.latin1 "2.4"} := by decide
  exact ⟨monitor, hrun, hversions.trans ((censusText_of_image_eq hversion).trans (by decide))⟩

end IoTTracker
