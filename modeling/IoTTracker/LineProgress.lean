import IoTTracker.ThreadProgress
import Mathlib.Algebra.BigOperators.Group.Finset.Piecewise

/-!
# What has arrived is handled

A line that is read puts a worker to work for at most seven steps, so an unread line
counts as eight: reading it is progress too. When no more bytes arrive and no tick
begins, enough rounds, in which each thread gets a turn and each connection a chance to
read a line, come to an end of all lines, whatever was under way.
-/

namespace IoTTracker.ThreadState

variable {ι κ : Type*} [DecidableEq ι] [DecidableEq κ] (codec : TextCodec) (memory : Memory)
  (recordsPerTick : Nat) (owner : κ → ι)

/-! ### Unread lines -/

/-- The number of complete lines that a connection has not read. -/
def unreadLines (s : ThreadState ι κ) (c : κ) : Nat := (s.connections c).2.count 0x0a

theorem count_rxStep {client : IotClient} {socket : QByteArray}
    {o : Outcome IotClient UInt8 Report} (hstep : IotClient.rxStep codec client socket = some o) :
    o.buffer.count 0x0a + 1 = socket.count 0x0a := by
  by_cases hnewline : 0x0a ∈ socket
  · obtain ⟨line, rest, hline, rfl⟩ := QIODevice.exists_line hnewline
    rw [IotClient.rxStep_line codec client hline] at hstep
    obtain rfl := Option.some.inj hstep
    rw [List.count_append, List.count_eq_zero.mpr hline, List.count_cons_self, Nat.zero_add]
  · rw [(IotClient.rxStep_eq_none_iff codec client socket).mpr hnewline] at hstep
    cases hstep

variable {codec owner} {s : ThreadState ι κ} {c : κ}

/-- Reading a line takes it off the buffer and may put its worker to work. -/
structure ReadsLine (owner : κ → ι) (s : ThreadState ι κ) (c : κ) (s' : ThreadState ι κ) :
    Prop where
  main_eq : s'.main = s.main
  workers_eq : ∀ i, i ≠ owner c → s'.workers i = s.workers i
  unreadLines_eq : ∀ d, d ≠ c → s'.unreadLines d = s.unreadLines d
  unreadLines_succ : s'.unreadLines c + 1 = s.unreadLines c

/-- Nothing is read when the worker is busy or there is no complete line. -/
theorem readLine_cases (c : κ) (s : ThreadState ι κ) :
    (s.readLine codec owner c = s ∧ (s.workers (owner c) = .idle → s.unreadLines c = 0)) ∨
      ReadsLine owner s c (s.readLine codec owner c) := by
  by_cases hidle : s.workers (owner c) = .idle
  · rcases hstep : IotClient.rxStep codec (s.connections c).1 (s.connections c).2 with _ | o
    · left
      refine ⟨by simp only [readLine, hstep, ite_self], fun _ => ?_⟩
      exact List.count_eq_zero.mpr ((IotClient.rxStep_eq_none_iff codec _ _).mp hstep)
    · right
      simp only [readLine, hidle, hstep, if_true]
      refine ⟨rfl, fun i hi => Function.update_of_ne hi _ _, fun d hd => ?_, ?_⟩
      · simp only [unreadLines, Function.update_of_ne hd]
      · simp only [unreadLines, Function.update_self]
        exact count_rxStep codec hstep
  · left
    refine ⟨?_, fun h => absurd h hidle⟩
    simp only [readLine, hidle, if_false]

/-! ### The work that is left -/

variable [Fintype ι] [Fintype κ]

/-- The steps to the end of all calls under way, and eight for each unread line. -/
def load (s : ThreadState ι κ) : Nat := s.rank recordsPerTick + ∑ c, 8 * s.unreadLines c

omit [DecidableEq ι] [DecidableEq κ] in
theorem load_eq_zero_iff :
    s.load recordsPerTick = 0 ↔
      s.main = .idle ∧ (∀ i, s.workers i = .idle) ∧ ∀ c, 0x0a ∉ (s.connections c).2 := by
  simp only [load, Nat.add_eq_zero_iff, rank_eq_zero_iff, Finset.sum_eq_zero_iff,
    Finset.mem_univ, true_imp_iff, Nat.mul_eq_zero, OfNat.ofNat_ne_zero, false_or,
    unreadLines, List.count_eq_zero, and_assoc]

theorem ReadsLine.load_lt {s' : ThreadState ι κ} (hreads : ReadsLine owner s c s') :
    s'.load recordsPerTick < s.load recordsPerTick := by
  have hworkers : ∑ i, (s'.workers i).rank ≤ ∑ i, (s.workers i).rank + 7 := by
    calc ∑ i, (s'.workers i).rank
        ≤ ∑ i, ((s.workers i).rank + if i = owner c then 7 else 0) :=
          Finset.sum_le_sum fun i _ => by
            by_cases hi : i = owner c
            · rw [if_pos hi]
              exact (WorkerPc.rank_le _).trans (Nat.le_add_left 7 _)
            · rw [hreads.workers_eq i hi]
              exact Nat.le_add_right _ _
      _ = ∑ i, (s.workers i).rank + 7 := by
          rw [Finset.sum_add_distrib, Finset.sum_ite_eq' Finset.univ, if_pos (Finset.mem_univ _)]
  have hlines : ∑ d, 8 * s'.unreadLines d + 8 = ∑ d, 8 * s.unreadLines d := by
    calc ∑ d, 8 * s'.unreadLines d + 8
        = ∑ d, (8 * s'.unreadLines d + if d = c then 8 else 0) := by
          rw [Finset.sum_add_distrib, Finset.sum_ite_eq' Finset.univ, if_pos (Finset.mem_univ _)]
      _ = ∑ d, 8 * s.unreadLines d :=
          Finset.sum_congr rfl fun d _ => by
            by_cases hd : d = c
            · subst hd
              rw [if_pos rfl, ← hreads.unreadLines_succ, Nat.mul_succ]
            · rw [if_neg hd, hreads.unreadLines_eq d hd, Nat.add_zero]
  have hmain := congrArg (MainPc.rank recordsPerTick) hreads.main_eq
  simp only [load, rank, hmain]
  omega

/-- A thread takes its next step, or a line of a connection is read. -/
def IsMove (event : ThreadEvent ι κ) : Prop := IsTurn event ∨ ∃ c, event = .readLine c

variable (codec owner)

omit [Fintype ι] [Fintype κ] in
theorem unreadLines_turn {event : ThreadEvent ι κ} (hturn : IsTurn event) (c : κ) :
    ((machine codec memory recordsPerTick owner).step s event).1.unreadLines c =
      s.unreadLines c := by
  rcases hturn with rfl | ⟨i, now, rfl⟩ <;> rfl

theorem load_turn_lt {event : ThreadEvent ι κ} (hturn : IsTurn event)
    (hlt : ((machine codec memory recordsPerTick owner).step s event).1.rank recordsPerTick <
      s.rank recordsPerTick) :
    ((machine codec memory recordsPerTick owner).step s event).1.load recordsPerTick <
      s.load recordsPerTick := by
  simp only [load, unreadLines_turn codec memory recordsPerTick owner hturn]
  exact Nat.add_lt_add_right hlt _

theorem moves : (machine codec memory recordsPerTick owner : Machine (ThreadState ι κ) _ _).Turns
    Inv (load recordsPerTick) IsMove where
  step_inv hinv _ := inv_step codec memory recordsPerTick owner hinv _
  step_rank := by
    rintro s event hinv (hturn | ⟨c, rfl⟩)
    · exact ((turns codec memory recordsPerTick owner).step_rank hinv hturn).imp_right
        (load_turn_lt codec memory recordsPerTick owner hturn)
    · exact (readLine_cases c s).imp And.left (ReadsLine.load_lt recordsPerTick)

/-- Each thread gets a turn, and each connection is asked for a line. -/
structure FairRound (round : List (ThreadEvent ι κ)) : Prop where
  moves : ∀ event ∈ round, IsMove event
  main : .main ∈ round
  worker : ∀ i, ∃ now, .work i now ∈ round
  line : ∀ c, .readLine c ∈ round

/-- **Some move can be made** while there is work left. -/
theorem exists_move {round : List (ThreadEvent ι κ)} (hround : FairRound round)
    (hinv : s.Inv) (hload : s.load recordsPerTick ≠ 0) :
    ∃ event ∈ round, ((machine codec memory recordsPerTick owner).step s event).1.load
      recordsPerTick < s.load recordsPerTick := by
  by_cases hrank : s.rank recordsPerTick = 0
  · rw [load, hrank, Nat.zero_add] at hload
    obtain ⟨c, -, hc⟩ := Finset.exists_ne_zero_of_sum_ne_zero hload
    have hworkers := ((rank_eq_zero_iff recordsPerTick).mp hrank).2
    have hreads : ReadsLine owner s c (s.readLine codec owner c) := by
      refine (readLine_cases c s).resolve_left fun hnone => hc ?_
      rw [hnone.2 (hworkers (owner c)), Nat.mul_zero]
    exact ⟨.readLine c, hround.line c, hreads.load_lt recordsPerTick⟩
  · obtain ⟨event, hmem, hturn, hlt⟩ := exists_turn codec memory recordsPerTick owner hround.main
      hround.worker hinv hrank
    exact ⟨event, hmem, load_turn_lt codec memory recordsPerTick owner hturn hlt⟩

/-- **What has arrived is handled.** From every state of every run, whatever the threads
    are doing, enough rounds of their turns come to an end of all lines that have arrived:
    all calls are finished, and what is left unread are incomplete lines. -/
theorem workers_finish (serves : BitVec 32) (events : List (ThreadEvent ι κ))
    {rounds : List (List (ThreadEvent ι κ))} (hrounds : ∀ round ∈ rounds, FairRound round)
    (hlength : recordsPerTick + 6 + 7 * Fintype.card ι +
      ∑ c, 8 * (after codec memory recordsPerTick owner serves events).unreadLines c ≤
        rounds.length) :
    Finishes codec memory recordsPerTick owner serves (fun c => arrived c events)
        (events ++ rounds.flatten) ∧
      (after codec memory recordsPerTick owner serves (events ++ rounds.flatten)).main =
        .idle := by
  have hzero : (after codec memory recordsPerTick owner serves
      (events ++ rounds.flatten)).load recordsPerTick = 0 := by
    rw [after, Machine.run_append]
    apply (moves codec memory recordsPerTick owner).rank_rounds
      (fun _ hround => FairRound.moves hround)
      (fun _ hround _ => exists_move codec memory recordsPerTick owner hround) hrounds
      (inv_run codec memory recordsPerTick owner serves events)
    exact (Nat.add_le_add_right
      (rank_le codec memory recordsPerTick owner serves events) _).trans hlength
  obtain ⟨hmain, hworkers, hlines⟩ := (load_eq_zero_iff recordsPerTick).mp hzero
  refine ⟨⟨fun c => ⟨arrived_append c ?_, hlines c⟩, hworkers⟩, hmain⟩
  intro bytes hmem
  obtain ⟨round, hround, hmem⟩ := List.mem_flatten.mp hmem
  rcases (hrounds round hround).moves _ hmem with (hturn | ⟨i, now, hturn⟩) | ⟨d, hread⟩
  · cases hturn
  · cases hturn
  · cases hread

def fiveMoves : List (ThreadEvent Bool Bool) :=
  [.main, .work false 1, .work true 2, .readLine false, .readLine true]

theorem fairRound_fiveMoves : FairRound fiveMoves := by
  refine ⟨?_, by decide, fun i => ?_, by decide⟩
  · intro event hevent
    simp only [fiveMoves, List.mem_cons, List.not_mem_nil, or_false] at hevent
    rcases hevent with rfl | rfl | rfl | rfl | rfl
    · exact .inl (.inl rfl)
    · exact .inl (.inr ⟨false, 1, rfl⟩)
    · exact .inl (.inr ⟨true, 2, rfl⟩)
    · exact .inr ⟨false, rfl⟩
    · exact .inr ⟨true, rfl⟩
  · cases i
    · exact ⟨1, by decide⟩
    · exact ⟨2, by decide⟩

/-- One worker has the lock, the other waits for it and has another line to read. -/
theorem workers_finish_contended :
    let begins := contended.take 9 ++ [.arrive false (QByteArray.latin1 "boot\n")]
    Finishes TextCodec.latin1 (fun _ => ⟨0, 0, 0⟩) 1 id 0 (fun c => arrived c begins)
      (begins ++ (List.replicate 29 fiveMoves).flatten) :=
  (workers_finish TextCodec.latin1 (fun _ => ⟨0, 0, 0⟩) 1 id 0
    (contended.take 9 ++ [.arrive false (QByteArray.latin1 "boot\n")])
    (fun _ hround => List.eq_of_mem_replicate hround ▸ fairRound_fiveMoves) (by decide)).1

end IoTTracker.ThreadState
