import Diversity.Programs.Threads.CountThreshold

/-! @src pthread_wait/main.c | name:Wake-ups | scheme:monitor | family:concurrency

    That the program ends. Every move brings one thread nearer to its end and gives no other more to do:
    `watch_count` would go around its loop again only while `count` is below the limit, and after its first
    turn it is above. A state in which no thread can go on is then the last one: the only wait that could
    hold a thread up for ever is that of `watch_count`, and it would have missed no signal.

        no thread steps  →  mutex free  →  inc_count exited, 20 increments  →  12 was reached and signalled -/

namespace Diversity.PthreadWait
open Schemes Schemes.Monitor

variable {s s' : State Tid ℤ Line Loc} {j : Fin 2}

/-! ### Termination -/

/-- A bound on the moves a thread still makes. -/
def MainLoc.rank : MainLoc → ℕ
  | .create k => 2 * numThreads + 3 - k
  | .join i => numThreads + 3 - i
  | .report => 2
  | .exit => 1

def IncLoc.rank : IncLoc → ℕ
  | .lock i => 11 * (tcount - 1 - i) + 12
  | .add i => 11 * (tcount - 1 - i) + 11
  | .check i => 11 * (tcount - 1 - i) + 10
  | .signal i => 11 * (tcount - 1 - i) + 9
  | .reached i => 11 * (tcount - 1 - i) + 8
  | .printReached i _ => 11 * (tcount - 1 - i) + 7
  | .read i => 11 * (tcount - 1 - i) + 6
  | .printCount i _ => 11 * (tcount - 1 - i) + 5
  | .unlock i => 11 * (tcount - 1 - i) + 4
  | .sleep i => 11 * (tcount - 1 - i) + 3
  | .exit => 1

/-- The loop is entered again only while `count` is below the limit. -/
def WatchLoc.rank (st : Status) (c : ℤ) : WatchLoc → ℕ
  | .start => 14
  | .lock => 13
  | .test => if c < countLimit then 12 else 3
  | .wait => 11
  | .received => if st = .waiting then 10 else if st = .woken then 9 else 8
  | .add => 7
  | .read => 6
  | .printNow _ => 5
  | .unlock => 2
  | .exit => 1

def rank (st : Status) (c : ℤ) : ∀ t, Loc t → ℕ
  | .main, l => MainLoc.rank l
  | .watch, l => WatchLoc.rank st c l
  | .inc _, l => IncLoc.rank l

/-- The moves that are left; a thread that has exited makes none. -/
def movesLeft (s : State Tid ℤ Line Loc) : ℕ :=
  ∑ t, if s.status t = .exited then 0 else rank (s.status t) s.data t (s.loc t)

theorem rank_incNext (i : Fin tcount) : (incNext i).rank < 11 * (tcount - 1 - i) + 3 := by
  rw [incNext]
  split
  · next h =>
    simp only [IncLoc.rank]
    omega
  · simp only [IncLoc.rank]
    omega

theorem data_le {t : Tid} (h : Step program s t s') : s.data ≤ s'.data := by
  match t with
  | .main => rw [(main_effect h).1]
  | .inc j =>
    rcases inc_effect h with ⟨i, -, -, hdata, -⟩ | ⟨hdata, -⟩
    · omega
    · omega
  | .watch =>
    rcases h with ⟨-, h⟩ | ⟨-, -, rfl⟩
    swap
    · exact le_rfl
    cases hl : s.loc .watch with
    | lock | wait | unlock =>
      simp only [program, hl, watchCount, Does] at h
      obtain ⟨-, rfl⟩ := h
      exact le_rfl
    | add =>
      simp only [program, hl, watchCount, Does] at h
      subst h
      change s.data ≤ s.data + 125
      omega
    | _ =>
      simp only [program, hl, watchCount, Does] at h
      subst h
      exact le_rfl

/-- More increments, and a signal, do not give a thread more to do. -/
theorem rank_others {t u : Tid} (h : Step program s t s') (hu : u ≠ t) :
    (if s'.status u = .exited then 0 else rank (s'.status u) s'.data u (s'.loc u)) ≤
      if s.status u = .exited then 0 else rank (s.status u) s.data u (s.loc u) := by
  have hdata := data_le h
  obtain ⟨hloc, hstatus⟩ := h.frame hu
  have hmono : ∀ st, rank st s'.data u (s.loc u) ≤ rank st s.data u (s.loc u) := by
    intro st
    match u with
    | .main => exact le_rfl
    | .inc _ => exact le_rfl
    | .watch =>
      cases hl : s.loc .watch with
      | test =>
        simp only [rank, WatchLoc.rank]
        split_ifs <;> omega
      | _ => exact le_rfl
  rw [hloc]
  rcases hstatus with hsame | ⟨hwas, hnow, -⟩ | ⟨hwas, hnow, -⟩
  · rw [hsame]
    split
    · exact le_rfl
    · exact hmono _
  · rw [hwas, hnow]
    refine (hmono .woken).trans ?_
    match u with
    | .main => exact le_rfl
    | .inc _ => exact le_rfl
    | .watch => cases hl : s.loc .watch <;> simp [rank, WatchLoc.rank]
  · rw [hwas, hnow]
    refine (hmono .running).trans ?_
    match u with
    | .main => exact le_rfl
    | .inc _ => exact le_rfl
    | .watch => cases hl : s.loc .watch <;> simp [rank, WatchLoc.rank]

/-- A step brings a thread nearer to its end. -/
theorem rank_main (h : Step program s .main s') (hg : Guarded program holds s) :
    (if s'.status .main = .exited then 0 else MainLoc.rank (s'.loc .main)) < MainLoc.rank (s.loc .main) := by
  rcases h with ⟨hrun, h⟩ | ⟨hwoken, -⟩
  swap
  · simpa using (asleep_watch hg (Or.inr hwoken)).1
  cases hl : s.loc .main with
  | create k =>
    simp only [program, hl, mainThread, Does] at h
    obtain ⟨-, rfl⟩ := h
    have hne := thread_ne_main k
    have hk := k.isLt
    by_cases hlast : (k : ℕ) + 1 < numThreads <;>
      simp [State.mark, State.goto, hne.symm, hrun, MainLoc.rank, hlast] <;> omega
  | join i =>
    simp only [program, hl, mainThread, Does] at h
    obtain ⟨-, rfl⟩ := h
    have hi := i.isLt
    by_cases hlast : (i : ℕ) + 1 < numThreads <;>
      simp [State.goto, hrun, MainLoc.rank, hlast] <;> omega
  | report =>
    simp only [program, hl, mainThread, Does] at h
    subst h
    simp [State.goto, hrun, MainLoc.rank]
  | exit =>
    simp only [program, hl, mainThread, Does] at h
    subst h
    simp [State.mark, MainLoc.rank]

theorem rank_inc (h : Step program s (.inc j) s') (hg : Guarded program holds s) :
    (if s'.status (.inc j) = .exited then 0 else IncLoc.rank (s'.loc (.inc j))) <
      IncLoc.rank (s.loc (.inc j)) := by
  have hrun := inc_running hg h
  rcases h with ⟨-, h⟩ | ⟨hwoken, -⟩
  swap
  · simp [hrun] at hwoken
  cases hl : s.loc (.inc j) with
  | lock i | unlock i =>
    simp only [program, hl, incCount, Does] at h
    obtain ⟨-, rfl⟩ := h
    simp [State.goto, hrun, IncLoc.rank]
  | check i =>
    simp only [program, hl, incCount, Does] at h
    subst h
    by_cases hc : s.data = countLimit <;> simp [State.goto, hrun, IncLoc.rank, hc]
  | signal i =>
    simp only [program, hl, incCount, Does] at h
    obtain ⟨W, hW, -, rfl⟩ := h
    have hnot : Tid.inc j ∉ W := fun hmem => by simp [hW _ hmem] at hrun
    simp [State.goto, State.wake, hnot, hrun, IncLoc.rank]
  | sleep i =>
    simp only [program, hl, incCount, Does] at h
    subst h
    have hnext := rank_incNext i
    simp only [State.goto, hrun, Function.update_self]
    rw [if_neg (by simp)]
    exact hnext
  | exit =>
    simp only [program, hl, incCount, Does] at h
    subst h
    simp [State.mark, IncLoc.rank]
  | _ =>
    simp only [program, hl, incCount, Does] at h
    subst h
    simp [State.goto, hrun, IncLoc.rank]

theorem rank_watch (h : Step program s .watch s') (hg : Guarded program holds s)
    (hc : Counted (increments s) (s.loc .watch) s.data s.out) :
    (if s'.status .watch = .exited then 0 else WatchLoc.rank (s'.status .watch) s'.data (s'.loc .watch)) <
      WatchLoc.rank (s.status .watch) s.data (s.loc .watch) := by
  rcases h with ⟨hrun, h⟩ | ⟨hwoken, -, rfl⟩
  swap
  · have hl := (asleep_watch hg (Or.inr hwoken)).2
    simp [State.mark, hl, hwoken, WatchLoc.rank]
  cases hl : s.loc .watch with
  | lock =>
    simp only [program, hl, watchCount, Does] at h
    obtain ⟨-, rfl⟩ := h
    by_cases hlt : s.data < countLimit <;> simp [State.goto, hrun, WatchLoc.rank, hlt]
  | wait | unlock =>
    simp only [program, hl, watchCount, Does] at h
    obtain ⟨-, rfl⟩ := h
    simp [State.goto, State.mark, hrun, WatchLoc.rank]
  | test =>
    simp only [program, hl, watchCount, Does] at h
    subst h
    by_cases hlt : s.data < countLimit <;> simp [State.goto, hrun, WatchLoc.rank, hlt]
  | printNow c =>
    simp only [program, hl, watchCount, Does] at h
    subst h
    -- the 125 are in, so that the loop ends
    have hlt : ¬ s.data < countLimit := by
      have hcount := hc.count
      rw [hl, if_pos ⟨hc.behind (Or.inr (Or.inr ⟨c, hl⟩)), by simp⟩] at hcount
      rw [countLimit]
      omega
    simp [State.goto, hrun, WatchLoc.rank, hlt]
  | exit =>
    simp only [program, hl, watchCount, Does] at h
    subst h
    simp [State.mark, WatchLoc.rank]
  | _ =>
    simp only [program, hl, watchCount, Does] at h
    subst h
    simp [State.goto, hrun, WatchLoc.rank]

/-- STEP: every move is one of the moves left. -/
theorem movesLeft_lt (hI : Inv s) (h : Move program s s') : movesLeft s' < movesLeft s := by
  rcases h with ⟨t, h⟩ | ⟨t, hwait, rfl⟩
  · have hown : (if s'.status t = .exited then 0 else rank (s'.status t) s'.data t (s'.loc t)) <
        if s.status t = .exited then 0 else rank (s.status t) s.data t (s.loc t) := by
      have hnot : s.status t ≠ .exited := by
        rcases h.alive with halive | halive <;> simp [halive]
      rw [if_neg hnot]
      match t with
      | .main => exact rank_main h hI.guarded
      | .watch => exact rank_watch h hI.guarded hI.counted
      | .inc j => exact rank_inc h hI.guarded
    refine Finset.sum_lt_sum (fun u _ => ?_) ⟨t, Finset.mem_univ t, hown⟩
    by_cases hu : u = t
    · rw [hu]
      exact hown.le
    · exact rank_others h hu
  · obtain ⟨rfl, hl⟩ := asleep_watch hI.guarded (Or.inl hwait)
    refine Finset.sum_lt_sum (fun u _ => ?_) ⟨.watch, Finset.mem_univ _, ?_⟩
    · match u with
      | .watch => simp [State.mark, hwait, rank, hl, WatchLoc.rank]
      | .main => exact le_rfl
      | .inc _ => exact le_rfl
    · simp [State.mark, hwait, rank, hl, WatchLoc.rank]

/-! ### Results -/

/-- A thread of `inc_count` that has exited has incremented ten times. -/
theorem added_of_exited (hg : Guarded program holds s) (h : s.status (.inc j) = .exited) :
    IncLoc.added (s.loc (.inc j)) = tcount := by
  have hact := hg.exited _ h
  cases hl : s.loc (.inc j) with
  | exit => rfl
  | _ => simp [program, hl, incCount] at hact

theorem increments_of_exited (hg : Guarded program holds s) (h : ∀ j, s.status (.inc j) = .exited) :
    increments s = 20 := by
  rw [increments, Fin.sum_univ_two, added_of_exited hg (h 0), added_of_exited hg (h 1)]
  rfl

/-- Where no thread can step, the threads of `inc_count` have exited or are yet to be created. -/
theorem inc_of_stuck (hg : Guarded program holds s) (hstuck : ∀ t s', ¬ Step program s t s') (j : Fin 2) :
    s.status (.inc j) = .unborn ∨ s.status (.inc j) = .exited := by
  rcases hg.status_of_stuck disciplined hstuck (.inc j) with h | h | h | ⟨-, h⟩
  · exact Or.inl h
  · exact Or.inr h
  · simpa using (asleep_watch hg (Or.inl h)).1
  · cases hl : s.loc (.inc j) <;> simp [program, hl, incCount] at h

/-- The thread of `watch_count` does not wait for ever. -/
theorem watch_of_stuck (hI : Inv s) (hstuck : ∀ t s', ¬ Step program s t s')
    (hborn : ∀ m, s.status (thread m) ≠ .unborn) : s.status .watch = .exited := by
  have hexited : ∀ j, s.status (.inc j) = .exited := by
    intro j
    refine (inc_of_stuck hI.guarded hstuck j).resolve_left ?_
    obtain ⟨m, hm⟩ := exists_thread (t := .inc j) (by simp)
    rw [hm]
    exact hborn m
  rcases hI.guarded.status_of_stuck disciplined hstuck .watch with h | h | h | ⟨-, h⟩
  · exact absurd h (hborn 0)
  · exact h
  · rcases hI.waits h with hlt | ⟨j, hrun, -⟩
    · -- both have incremented ten times, which is past the limit
      have hcount := hI.counted.count
      rw [countLimit] at hlt
      rw [increments_of_exited hI.guarded hexited] at hcount
      split at hcount <;> omega
    · simp [hexited j] at hrun
  · cases hl : s.loc .watch <;> simp [program, hl, watchCount] at h

/-- STUCK: where no thread can step, all have exited, and `main` was the last to print. -/
theorem exited_of_stuck (hI : Inv s) (hstuck : ∀ t s', ¬ Step program s t s') :
    (∀ t, s.status t = .exited) ∧ s.out.getLast? = some (.waited numThreads) := by
  obtain ⟨hborn, hm⟩ := hI.main
  have hall : (∀ m, s.status (thread m) ≠ .unborn) → ∀ m, s.status (thread m) = .exited := by
    intro hthreads m
    match m with
    | 0 => exact watch_of_stuck hI hstuck hthreads
    | 1 => exact (inc_of_stuck hI.guarded hstuck 0).resolve_left (hthreads 1)
    | 2 => exact (inc_of_stuck hI.guarded hstuck 1).resolve_left (hthreads 2)
  rcases hI.guarded.status_of_stuck disciplined hstuck .main with h | h | h | ⟨-, h⟩
  · exact absurd h hborn
  · have hact := hI.guarded.exited _ h
    cases hl : s.loc .main with
    | exit =>
      rw [hl] at hm
      refine ⟨fun t => ?_, hm.2⟩
      by_cases ht : t = .main
      · rw [ht, h]
      · obtain ⟨m, rfl⟩ := exists_thread ht
        exact hm.1 m
    | _ => simp [program, hl, mainThread] at hact
  · simpa using (asleep_watch hI.guarded (Or.inl h)).1
  · cases hl : s.loc .main with
    | create k =>
      rw [hl] at hm
      simp [program, hl, mainThread, (hm k).1 le_rfl] at h
    | join i =>
      rw [hl] at hm
      simp [program, hl, mainThread, hall (fun m => (hm m).1) i] at h
    | _ => simp [program, hl, mainThread] at h

/-- The first moves: `main` creates the thread of `watch_count`, which prints and takes the mutex. -/
def created : State Tid ℤ Line Loc := (State.init.goto .main (.create ⟨1, by decide⟩)).mark .watch .running

def started : State Tid ℤ Line Loc := { created.goto .watch .lock with out := [.starting 1] }

def opening : ℕ → State Tid ℤ Line Loc
  | 0 => State.init
  | 1 => created
  | 2 => started
  | _ => { started.goto .watch .test with owner := some .watch }

theorem opening_steps : ∀ i < 3, ∃ t, Step program (opening i) t (opening (i + 1)) := by
  intro i hi
  match i with
  | 0 => exact ⟨.main, Or.inl (And.intro rfl (And.intro rfl rfl))⟩
  | 1 => exact ⟨.watch, Or.inl (And.intro rfl (Eq.refl started))⟩
  | 2 => exact ⟨.watch, Or.inl (And.intro rfl (And.intro rfl rfl))⟩

/-- RACE FREEDOM: in every state of a run, a thread that touches `count` has the mutex, and no other thread
    touches it. -/
theorem no_race (run : ℕ → State Tid ℤ Line Loc) (h0 : run 0 = State.init) (n : ℕ)
    (hrun : ∀ i < n, Move program (run i) (run (i + 1))) (t u : Tid) (f : ℤ → ℤ × Loc t) (g : ℤ → ℤ × Loc u)
    (ht : (run n).status t = .running) (hf : program.act t ((run n).loc t) = .access f)
    (hu : (run n).status u = .running) (hg : program.act u ((run n).loc u) = .access g) :
    (run n).owner = some t ∧ t = u := by
  obtain ⟨hI, -⟩ := run_bounded (fun s s' hI h => ⟨hI.move h, movesLeft_lt hI h⟩) run
    (by rw [h0]; exact inv_init) n hrun
  have hmine := hI.guarded.owner_of_access disciplined ht hf
  have htheirs := hI.guarded.owner_of_access disciplined hu hg
  refine ⟨hmine, ?_⟩
  rw [hmine] at htheirs
  exact Option.some.inj htheirs

theorem no_race_opening :
    opening 0 = State.init ∧ (∀ i < 3, Move program (opening i) (opening (i + 1))) ∧
      (opening 3).status .watch = .running ∧ (opening 3).owner = some .watch ∧ Tid.watch = Tid.watch :=
  ⟨rfl, fun i hi => Or.inl (opening_steps i hi), rfl,
    no_race opening rfl 3 (fun i hi => Or.inl (opening_steps i hi)) .watch .watch _ _ rfl rfl rfl rfl⟩

theorem movesLeft_init : movesLeft State.init = 245 := by decide

/-- ENDS: a run makes at most 245 moves, whichever threads make them and whenever the wait returns. Where
    no thread can go on, all have exited, `main` has printed the last line, and `count` is 145 if the
    thread of `watch_count` went through its wait, and 20 if not. No return of the wait without a signal is
    needed for that. -/
theorem counting_ends (run : ℕ → State Tid ℤ Line Loc) (h0 : run 0 = State.init) (n : ℕ)
    (hrun : ∀ i < n, Move program (run i) (run (i + 1))) :
    n ≤ 245 ∧ ((∀ t s', ¬ Step program (run n) t s') →
      (∀ t, (run n).status t = .exited) ∧ (run n).out.getLast? = some (.waited 3) ∧
        (run n).data = if Line.received 1 ∈ (run n).out then 145 else 20) := by
  obtain ⟨hI, hle⟩ := run_bounded (fun s s' hI h => ⟨hI.move h, movesLeft_lt hI h⟩) run
    (by rw [h0]; exact inv_init) n hrun
  rw [h0, movesLeft_init] at hle
  refine ⟨by omega, fun hstuck => ?_⟩
  obtain ⟨hexited, hlast⟩ := exited_of_stuck hI hstuck
  refine ⟨hexited, hlast, ?_⟩
  have hloc : (run n).loc .watch ≠ WatchLoc.add := by
    intro hl
    have hact := hI.guarded.exited _ (hexited .watch)
    simp [program, hl, watchCount] at hact
  rw [hI.counted.count, increments_of_exited hI.guarded fun j => hexited (.inc j)]
  simp only [hloc, ne_eq, not_false_eq_true, and_true]
  split <;> rfl

theorem counting_ends_opening :
    opening 0 = State.init ∧ (∀ i < 3, Move program (opening i) (opening (i + 1))) ∧
      3 ≤ 245 ∧ ((∀ t s', ¬ Step program (opening 3) t s') →
        (∀ t, (opening 3).status t = .exited) ∧ (opening 3).out.getLast? = some (.waited 3) ∧
          (opening 3).data = if Line.received 1 ∈ (opening 3).out then 145 else 20) :=
  ⟨rfl, fun i hi => Or.inl (opening_steps i hi),
    counting_ends opening rfl 3 fun i hi => Or.inl (opening_steps i hi)⟩

/-! ### Without returns for no reason -/

/-- Where a thread has been signalled, the limit was reached. -/
structure Reached (s : State Tid ℤ Line Loc) : Prop where
  signal : ∀ j i, s.loc (.inc j) = IncLoc.signal i → countLimit ≤ s.data
  behind : s.loc .watch = WatchLoc.received ∧ s.status .watch ≠ .waiting ∨ s.loc .watch = WatchLoc.add →
    countLimit ≤ s.data
  added : s.loc .watch = WatchLoc.read → countLimit + 125 ≤ s.data
  printing : ∀ c, s.loc .watch = WatchLoc.printNow c → countLimit + 125 ≤ c ∧ c ≤ 145
  printed : ∀ c, Line.now 1 c ∈ s.out → countLimit + 125 ≤ c ∧ c ≤ 145

end Diversity.PthreadWait
