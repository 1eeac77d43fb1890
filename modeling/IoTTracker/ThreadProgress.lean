import IoTTracker.ThreadRuns
import IoTTracker.Turns
import Mathlib.Algebra.Order.BigOperators.Group.Finset

/-!
# The threads do not block each other

The main thread only ever tries to get the lock, so it comes back to its event loop
within a bounded number of its own steps, whatever the workers do. Workers wait for
the lock, but the thread that has it can always go on, so as long as each thread
gets its turns all calls under way are finished.
-/

namespace IoTTracker

namespace WorkerPc

variable {ι κ : Type*}

/-- The number of steps to the end of the report. -/
def rank : WorkerPc κ → Nat
  | .idle => 0
  | .locking _ _ => 7
  | .searching _ _ => 6
  | .inserting _ _ => 5
  | .appending _ _ => 4
  | .updating _ _ => 3
  | .versioning _ _ => 2
  | .unlocking => 1

theorem rank_eq_zero_iff {pc : WorkerPc κ} : pc.rank = 0 ↔ pc = .idle := by
  cases pc <;> simp [rank]

theorem rank_le (pc : WorkerPc κ) : pc.rank ≤ 7 := by
  cases pc <;> simp [rank]

/-- A worker goes on unless it waits for a lock that another thread has. -/
theorem rank_step_lt (memory : Memory) (now : Nat) (i : ι) {pc : WorkerPc κ}
    {recordLocker : Option (ThreadId ι)} (store : RecordStore) (hpc : pc ≠ .idle)
    (hlock : recordLocker = none ∨ pc.Inside) :
    (pc.step memory now i recordLocker store).pc.rank < pc.rank := by
  cases pc with
  | idle => exact absurd rfl hpc
  | locking c report =>
      rcases hlock with rfl | hinside
      · exact Nat.lt_succ_self 6
      · exact hinside.elim
  | searching c report =>
      rcases hknown : store.records.lookup (idNumber report.id) with _ | record
      · simp only [step, hknown, rank]
        omega
      · simp only [step, hknown, rank]
        omega
  | inserting c report => exact Nat.lt_succ_self 4
  | appending report record => exact Nat.lt_succ_self 3
  | updating report record => exact Nat.lt_succ_self 2
  | versioning report record => exact Nat.lt_succ_self 1
  | unlocking => exact Nat.lt_succ_self 0

end WorkerPc

namespace MainPc

variable {ι : Type*} (recordsPerTick : Nat)

def rank : MainPc → Nat
  | .idle => 0
  | .trying => recordsPerTick + 6
  | .starting => recordsPerTick + 5
  | .counting left => left + 4
  | .ending => 3
  | .unlocking => 2
  | .reporting => 1

theorem rank_eq_zero_iff {pc : MainPc} : pc.rank recordsPerTick = 0 ↔ pc = .idle := by
  cases pc <;> simp [rank]

/-- **The main thread never waits.** -/
theorem rank_step_lt {pc : MainPc} (hpc : pc ≠ .idle) (recordLocker : Option (ThreadId ι))
    (server : IoTServer) :
    (pc.step recordsPerTick recordLocker server).pc.rank recordsPerTick <
      pc.rank recordsPerTick := by
  cases pc with
  | idle => exact absurd rfl hpc
  | trying =>
      cases recordLocker with
      | none => exact Nat.lt_succ_self _
      | some holder => exact Nat.succ_pos _
  | starting => exact Nat.lt_succ_self _
  | counting left =>
      cases left with
      | zero => exact Nat.lt_succ_self 3
      | succ left =>
          rcases hrecord : server.recIterator.deref server.recordList with _ | record
          · simp only [step, hrecord, rank]
            omega
          · simp only [step, hrecord, rank]
            omega
  | ending => exact Nat.lt_succ_self 2
  | unlocking => exact Nat.lt_succ_self 1
  | reporting => exact Nat.lt_succ_self 0

end MainPc

namespace ThreadState

variable {ι κ : Type*} [DecidableEq ι] [DecidableEq κ] (codec : TextCodec) (memory : Memory)
  (recordsPerTick : Nat) (owner : κ → ι)

/-! ### The main thread -/

theorem main_step_of_ne {s : ThreadState ι κ} {event : ThreadEvent ι κ}
    (hidle : s.main ≠ .idle) (hevent : event ≠ .main) :
    ((machine codec memory recordsPerTick owner).step s event).1.main = s.main := by
  cases event with
  | arrive c bytes => rfl
  | readLine c =>
      simp only [machine, readLine]
      repeat' split
      all_goals rfl
  | work i now => rfl
  | countMetrics => simp only [machine, hidle, false_and, if_false]
  | measure => simp only [machine, hidle, if_false]
  | incomingConnection => simp only [machine, hidle, if_false]
  | main => exact absurd rfl hevent

theorem exists_prefix_idle (later : List (ThreadEvent ι κ)) : ∀ s : ThreadState ι κ,
    s.main.rank recordsPerTick ≤ later.count .main →
    ∃ done, done <+: later ∧ done.count .main ≤ s.main.rank recordsPerTick ∧
      ((machine codec memory recordsPerTick owner).run s done).main = .idle := by
  induction later with
  | nil =>
      intro s hrank
      refine ⟨[], List.prefix_rfl, Nat.zero_le _, ?_⟩
      exact (MainPc.rank_eq_zero_iff recordsPerTick).mp (Nat.eq_zero_of_le_zero hrank)
  | cons event later ih =>
      intro s hrank
      by_cases hidle : s.main = .idle
      · exact ⟨[], List.nil_prefix, Nat.zero_le _, hidle⟩
      · by_cases hevent : event = .main
        · subst hevent
          have hlt := MainPc.rank_step_lt recordsPerTick hidle s.recordLocker s.server
          rw [List.count_cons_self] at hrank
          obtain ⟨done, hdone, hcount, hrun⟩ :=
            ih ((machine codec memory recordsPerTick owner).step s .main).1 (by
              change (s.main.step recordsPerTick s.recordLocker s.server).pc.rank _ ≤ _
              omega)
          change done.count .main ≤
            (s.main.step recordsPerTick s.recordLocker s.server).pc.rank _ at hcount
          refine ⟨.main :: done, (List.prefix_cons_inj _).mpr hdone, ?_, hrun⟩
          rw [List.count_cons_self]
          omega
        · have hsame := main_step_of_ne codec memory recordsPerTick owner hidle hevent
          rw [List.count_cons_of_ne hevent] at hrank
          obtain ⟨done, hdone, hcount, hrun⟩ :=
            ih ((machine codec memory recordsPerTick owner).step s event).1 (hsame ▸ hrank)
          rw [hsame] at hcount
          refine ⟨event :: done, (List.prefix_cons_inj _).mpr hdone, ?_, hrun⟩
          rwa [List.count_cons_of_ne hevent]

theorem rank_main_le (serves : BitVec 32) (events : List (ThreadEvent ι κ)) :
    (after codec memory recordsPerTick owner serves events).main.rank recordsPerTick ≤
      recordsPerTick + 6 := by
  refine (machine codec memory recordsPerTick owner).run_induction
    (P := fun s => s.main.rank recordsPerTick ≤ recordsPerTick + 6) ?_ (Nat.zero_le _) events
  intro s event hrank
  by_cases hidle : s.main = .idle
  · cases event with
    | countMetrics =>
        simp only [machine]
        split
        · exact Nat.le_refl _
        · exact hrank
    | main =>
        simp only [machine, hidle, MainPc.step]
        exact Nat.zero_le _
    | arrive c bytes => exact hrank
    | readLine c =>
        simp only [machine, readLine]
        repeat' split
        all_goals exact hrank
    | work i now => exact hrank
    | measure =>
        simp only [machine]
        split <;> exact hrank
    | incomingConnection =>
        simp only [machine]
        split <;> exact hrank
  · by_cases hevent : event = .main
    · subst hevent
      exact (MainPc.rank_step_lt recordsPerTick hidle s.recordLocker s.server).le.trans hrank
    · rwa [main_step_of_ne codec memory recordsPerTick owner hidle hevent]

/-- **The main thread is soon back in its event loop.** From every state of every
    run, in any order of the threads' steps and whoever has the lock, at most
    `recordsPerTick + 6` steps of its own end the tick it is in. -/
theorem main_returns (serves : BitVec 32) (events later : List (ThreadEvent ι κ))
    (hcount : recordsPerTick + 6 ≤ later.count .main) :
    ∃ done, done <+: later ∧ done.count .main ≤ recordsPerTick + 6 ∧
      (after codec memory recordsPerTick owner serves (events ++ done)).main = .idle := by
  have hrank := rank_main_le codec memory recordsPerTick owner serves events
  obtain ⟨done, hdone, hle, hidle⟩ := exists_prefix_idle codec memory recordsPerTick owner later
    (after codec memory recordsPerTick owner serves events) (hrank.trans hcount)
  refine ⟨done, hdone, hle.trans hrank, ?_⟩
  rw [after, Machine.run_append]
  exact hidle

theorem main_returns_contended :
    ∃ done, done <+: List.replicate 7 (.main : ThreadEvent Bool Bool) ∧
      done.count .main ≤ 7 ∧ (after TextCodec.latin1 (fun _ => ⟨0, 0, 0⟩) 1 id 0
        (contended ++ [.countMetrics] ++ done)).main = .idle :=
  main_returns TextCodec.latin1 (fun _ => ⟨0, 0, 0⟩) 1 id 0 (contended ++ [.countMetrics])
    (List.replicate 7 .main) (by decide)

/-! ### All threads -/

variable [Fintype ι]

/-- The steps to the end of all calls under way. -/
def rank (s : ThreadState ι κ) : Nat :=
  s.main.rank recordsPerTick + ∑ i, (s.workers i).rank

/-- A thread takes its next step. -/
def IsTurn (event : ThreadEvent ι κ) : Prop :=
  event = .main ∨ ∃ i now, event = .work i now

omit [DecidableEq κ] in
theorem rank_work_lt {s : ThreadState ι κ} (i : ι) (now : Nat)
    (hlower : ((s.workers i).step memory now i s.recordLocker s.server.toRecordStore).pc.rank <
      (s.workers i).rank) :
    (s.work memory i now).rank recordsPerTick < s.rank recordsPerTick := by
  apply Nat.add_lt_add_left
  apply Finset.sum_lt_sum
  · intro j _
    by_cases hj : j = i
    · subst hj
      simp only [work, Function.update_self]
      exact hlower.le
    · simp only [work, Function.update_of_ne hj, le_refl]
  · refine ⟨i, Finset.mem_univ i, ?_⟩
    simpa only [work, Function.update_self] using hlower

theorem rank_main_lt {s : ThreadState ι κ} (hmain : s.main ≠ .idle) :
    ((machine codec memory recordsPerTick owner).step s .main).1.rank recordsPerTick <
      s.rank recordsPerTick :=
  Nat.add_lt_add_right
    (MainPc.rank_step_lt recordsPerTick hmain s.recordLocker s.server) _

theorem turns : (machine codec memory recordsPerTick owner : Machine (ThreadState ι κ) _ _).Turns
    Inv (rank recordsPerTick) IsTurn where
  step_inv hinv _ := inv_step codec memory recordsPerTick owner hinv _
  step_rank := by
    rintro s event hinv (rfl | ⟨i, now, rfl⟩)
    · by_cases hmain : s.main = .idle
      · left
        simp only [machine, hmain, MainPc.step]
        rw [← hmain]
      · exact .inr (rank_main_lt codec memory recordsPerTick owner hmain)
    · by_cases hpc : s.workers i = .idle
      · left
        have hworkers : Function.update s.workers i .idle = s.workers := by
          rw [← hpc, Function.update_eq_self]
        simp only [machine, work, hpc, WorkerPc.step, hworkers]
      · by_cases hlock : s.recordLocker = none ∨ (s.workers i).Inside
        · right
          exact rank_work_lt memory recordsPerTick i now
            (WorkerPc.rank_step_lt memory now i s.server.toRecordStore hpc hlock)
        · left
          obtain ⟨holder, hholder⟩ := Option.ne_none_iff_exists'.mp fun hfree =>
            hlock (.inl hfree)
          refine work_of_held memory hinv hholder ?_ now
          rintro rfl
          exact hlock (.inr ((hinv.owns (.worker i)).mpr hholder))

/-- Turns only, no line read and no tick begun, and each thread gets one. -/
structure Round (round : List (ThreadEvent ι κ)) : Prop where
  turns : ∀ event ∈ round, IsTurn event
  main : .main ∈ round
  worker : ∀ i, ∃ now, .work i now ∈ round

/-- **Some thread can go on**: the one that has the lock, or any with work left when
    the lock is free. -/
theorem exists_turn {round : List (ThreadEvent ι κ)} (hmainTurn : .main ∈ round)
    (hturns : ∀ i, ∃ now, .work i now ∈ round)
    {s : ThreadState ι κ} (hinv : s.Inv) (hrank : s.rank recordsPerTick ≠ 0) :
    ∃ event ∈ round, IsTurn event ∧
      ((machine codec memory recordsPerTick owner).step s event).1.rank recordsPerTick <
        s.rank recordsPerTick := by
  have hworker : ∀ i, s.workers i ≠ .idle → (s.recordLocker = none ∨ (s.workers i).Inside) →
      ∃ event ∈ round, IsTurn event ∧
        ((machine codec memory recordsPerTick owner).step s event).1.rank recordsPerTick <
          s.rank recordsPerTick := by
    intro i hpc hlock
    obtain ⟨now, hmem⟩ := hturns i
    exact ⟨_, hmem, .inr ⟨i, now, rfl⟩, rank_work_lt memory recordsPerTick i now
      (WorkerPc.rank_step_lt memory now i s.server.toRecordStore hpc hlock)⟩
  by_cases hmain : s.main = .idle
  · rcases hlock : s.recordLocker with _ | _ | i
    · rw [rank, hmain, MainPc.rank, Nat.zero_add] at hrank
      obtain ⟨i, -, hi⟩ := Finset.exists_ne_zero_of_sum_ne_zero hrank
      exact hworker i (fun hpc => hi (WorkerPc.rank_eq_zero_iff.mpr hpc)) (.inl hlock)
    · have hinside : s.main.Inside := (hinv.owns .main).mpr hlock
      rw [hmain] at hinside
      exact hinside.elim
    · have hinside : (s.workers i).Inside := (hinv.owns (.worker i)).mpr hlock
      refine hworker i (fun hpc => ?_) (.inr hinside)
      rw [hpc] at hinside
      exact hinside
  · exact ⟨.main, hmainTurn, .inl rfl,
      rank_main_lt codec memory recordsPerTick owner hmain⟩

omit [DecidableEq ι] [DecidableEq κ] in
/-- All calls are at an end exactly when no work is left. -/
theorem rank_eq_zero_iff {s : ThreadState ι κ} :
    s.rank recordsPerTick = 0 ↔ s.main = .idle ∧ ∀ i, s.workers i = .idle := by
  simp only [rank, Nat.add_eq_zero_iff, MainPc.rank_eq_zero_iff, Finset.sum_eq_zero_iff,
    WorkerPc.rank_eq_zero_iff, Finset.mem_univ, true_imp_iff]

theorem rank_le (serves : BitVec 32) (events : List (ThreadEvent ι κ)) :
    (after codec memory recordsPerTick owner serves events).rank recordsPerTick ≤
      recordsPerTick + 6 + 7 * Fintype.card ι := by
  apply Nat.add_le_add (rank_main_le codec memory recordsPerTick owner serves events)
  calc ∑ i, ((after codec memory recordsPerTick owner serves events).workers i).rank
      ≤ ∑ _i : ι, 7 := Finset.sum_le_sum fun i _ => WorkerPc.rank_le _
    _ = Fintype.card ι * 7 := Finset.sum_const_nat fun _ _ => rfl
    _ = 7 * Fintype.card ι := Nat.mul_comm _ _

/-- **No deadlock.** From every state of every run, rounds of turns in which each thread
    gets one, in any order and number, finish all reports and the tick under way: after
    `recordsPerTick + 6` rounds and `7` for each worker all threads are idle and the
    lock is free. -/
theorem threads_come_to_rest (serves : BitVec 32) (events : List (ThreadEvent ι κ))
    (rounds : List (List (ThreadEvent ι κ))) (hrounds : ∀ round ∈ rounds, Round round)
    (hlength : recordsPerTick + 6 + 7 * Fintype.card ι ≤ rounds.length) :
    let s := after codec memory recordsPerTick owner serves (events ++ rounds.flatten)
    s.main = .idle ∧ (∀ i, s.workers i = .idle) ∧ s.recordLocker = none := by
  intro s
  have hinv : s.Inv := inv_run codec memory recordsPerTick owner serves _
  have hzero : s.rank recordsPerTick = 0 := by
    simp only [s, Machine.run_append]
    apply (turns codec memory recordsPerTick owner).rank_rounds (fun _ hround => hround.turns)
      (fun _ hround _ hs hrank => ?_) hrounds
      (inv_run codec memory recordsPerTick owner serves events)
    · exact (rank_le codec memory recordsPerTick owner serves events).trans hlength
    · obtain ⟨event, hmem, -, hlt⟩ := exists_turn codec memory recordsPerTick owner hround.main
        hround.worker hs hrank
      exact ⟨event, hmem, hlt⟩
  obtain ⟨hmain, hworkers⟩ := (rank_eq_zero_iff recordsPerTick).mp hzero
  refine ⟨hmain, hworkers, hinv.recordLocker_eq_none ?_ hworkers⟩
  rw [hmain]
  exact not_false

/-- One worker has the lock and the other waits for it. -/
theorem threads_come_to_rest_contended :
    (after TextCodec.latin1 (fun _ => ⟨0, 0, 0⟩) 1 id 0 (contended.take 9 ++
      (List.replicate 21 [.main, .work false 1, .work true 2]).flatten)).recordLocker = none :=
  (threads_come_to_rest TextCodec.latin1 (fun _ => ⟨0, 0, 0⟩) 1 id 0 (contended.take 9)
    (List.replicate 21 [.main, .work false 1, .work true 2])
    (by
      intro round hround
      rw [List.eq_of_mem_replicate hround]
      refine ⟨?_, by decide, fun i => ?_⟩
      · intro event hevent
        simp only [List.mem_cons, List.not_mem_nil, or_false] at hevent
        rcases hevent with rfl | rfl | rfl
        · exact .inl rfl
        · exact .inr ⟨false, 1, rfl⟩
        · exact .inr ⟨true, 2, rfl⟩
      · cases i
        · exact ⟨1, by decide⟩
        · exact ⟨2, by decide⟩)
    (by decide)).2.2

end ThreadState

end IoTTracker
