import Diversity.Schemes.Monitor

/-! @src pthread_wait/main.c | name:Count threshold | scheme:monitor | family:concurrency

    Two threads add 1 to `count`, ten times each; a third waits until it is 12 and then adds 125.

        inc_count    lock; count++; if (count == 12) signal; print; unlock; sleep      ten times
        watch_count  lock; while (count < 12) { wait; print; count += 125; print }; unlock

    The addition stands inside the loop, behind the wait: the thread does not look at `count` again
    before it adds, so that a wait that returns for no reason makes it add too early. That changes what is
    printed, and not where the program ends: `count` is 20 if the limit was reached before the third thread
    got the mutex, and 145 otherwise. No signal is lost, as the thread that brings `count` to 12 signals
    before it gives the mutex back. -/

namespace Diversity.PthreadWait
open Schemes Schemes.Monitor

/-- `NUM_THREADS`, `TCOUNT` and `COUNT_LIMIT`. -/
abbrev numThreads : ℕ := 3

abbrev tcount : ℕ := 10

def countLimit : ℤ := 12

/-- The threads. -/
inductive Tid where
  | main
  | watch
  | inc (j : Fin 2)
  deriving DecidableEq, Fintype

/-- What is printed. -/
inductive Line where
  | reached (id : ℕ) (count : ℤ)
  | unlocking (id : ℕ) (count : ℤ)
  | starting (id : ℕ)
  | received (id : ℕ)
  | now (id : ℕ) (count : ℤ)
  | waited (n : ℕ)
  deriving DecidableEq

/-- The lines of `watch_count`. -/
def Line.OfWatch : Line → Prop
  | .starting _ | .received _ | .now _ _ => True
  | _ => False

/-! ### The programs -/

/-- Locations of `inc_count`, with its `i` and what it has read for a `printf`. -/
inductive IncLoc where
  | lock (i : Fin tcount)
  | add (i : Fin tcount)
  | check (i : Fin tcount)
  | signal (i : Fin tcount)
  | reached (i : Fin tcount)
  | printReached (i : Fin tcount) (c : ℤ)
  | read (i : Fin tcount)
  | printCount (i : Fin tcount) (c : ℤ)
  | unlock (i : Fin tcount)
  | sleep (i : Fin tcount)
  | exit

/-- `i++` and the test of the loop. -/
def incNext (i : Fin tcount) : IncLoc := if h : i + 1 < tcount then .lock ⟨i + 1, h⟩ else .exit

/-- `inc_count`. -/
def incCount (id : ℕ) : IncLoc → Act Tid ℤ Line IncLoc
  | .lock i => .lock (.add i)
  | .add i => .access fun c => (c + 1, .check i)
  | .check i => .access fun c => (c, if c = countLimit then .signal i else .read i)
  | .signal i => .signal (.reached i)
  | .reached i => .access fun c => (c, .printReached i c)
  | .printReached i c => .print (.reached id c) (.read i)
  | .read i => .access fun c => (c, .printCount i c)
  | .printCount i c => .print (.unlocking id c) (.unlock i)
  | .unlock i => .unlock (.sleep i)
  | .sleep i => .pause (incNext i)
  | .exit => .exit

/-- Locations of `watch_count`. -/
inductive WatchLoc where
  | start | lock | test | wait | received | add | read | printNow (c : ℤ) | unlock | exit
  deriving DecidableEq

/-- `watch_count`. -/
def watchCount (id : ℕ) : WatchLoc → Act Tid ℤ Line WatchLoc
  | .start => .print (.starting id) .lock
  | .lock => .lock .test
  | .test => .access fun c => (c, if c < countLimit then .wait else .unlock)
  | .wait => .wait .received
  | .received => .print (.received id) .add
  | .add => .access fun c => (c + 125, .read)
  | .read => .access fun c => (c, .printNow c)
  | .printNow c => .print (.now id c) .test
  | .unlock => .unlock .exit
  | .exit => .exit

/-- Locations of `main`. -/
inductive MainLoc where
  | create (k : Fin numThreads)
  | join (i : Fin numThreads)
  | report
  | exit
  deriving DecidableEq

/-- `threads[k]`. -/
def thread : Fin numThreads → Tid
  | 0 => .watch
  | 1 => .inc 0
  | 2 => .inc 1

/-- `main`. -/
def mainThread : MainLoc → Act Tid ℤ Line MainLoc
  | .create k => .spawn (thread k) (if h : k + 1 < numThreads then .create ⟨k + 1, h⟩ else .join 0)
  | .join i => .join (thread i) (if h : i + 1 < numThreads then .join ⟨i + 1, h⟩ else .report)
  | .report => .print (.waited numThreads) .exit
  | .exit => .exit

/-- Where a thread can be. -/
abbrev Loc : Tid → Type
  | .main => MainLoc
  | .watch => WatchLoc
  | .inc _ => IncLoc

/-- The three functions, with the numbers of their threads. -/
def program : Program Tid ℤ Line Loc where
  act
    | .main => mainThread
    | .watch => watchCount 1
    | .inc j => incCount (j + 2)
  start
    | .main => .create 0
    | .watch => .start
    | .inc _ => .lock ⟨0, by decide⟩

/-- `main` has started. -/
def State.init : State Tid ℤ Line Loc where
  data := 0
  out := []
  owner := none
  loc := program.start
  status := fun t => if t = .main then .running else .unborn

/-! ### Locking -/

/-- The locations between a lock and its unlock. -/
def IncLoc.holds : IncLoc → Bool
  | .lock _ | .sleep _ | .exit => false
  | _ => true

def WatchLoc.holds : WatchLoc → Bool
  | .start | .lock | .exit => false
  | _ => true

def holds : ∀ t, Loc t → Bool
  | .main => fun _ => false
  | .watch => WatchLoc.holds
  | .inc _ => IncLoc.holds

theorem disciplined : Disciplined program holds where
  start := by
    rintro (_ | _ | j) <;> rfl
  act := by
    rintro (_ | _ | j) l
    · cases l <;> simp [program, mainThread, Act.Respects, holds]
    · cases l with
      | test =>
        refine ⟨rfl, fun c => ?_⟩
        by_cases hc : c < countLimit <;> simp [hc, holds, WatchLoc.holds]
      | _ => simp [program, watchCount, Act.Respects, holds, WatchLoc.holds]
    · cases l with
      | check i =>
        refine ⟨rfl, fun c => ?_⟩
        by_cases hc : c = countLimit <;> simp [hc, holds, IncLoc.holds]
      | sleep i =>
        by_cases hi : (i : ℕ) + 1 < tcount <;>
          simp [program, incCount, Act.Respects, holds, IncLoc.holds, incNext, hi]
      | _ => simp [program, incCount, Act.Respects, holds, IncLoc.holds]

variable {s s' : State Tid ℤ Line Loc} {j : Fin 2}

/-- Only the thread of `watch_count` waits, in its loop. -/
theorem asleep_watch (hg : Guarded program holds s) {t : Tid}
    (h : s.status t = .waiting ∨ s.status t = .woken) : t = .watch ∧ s.loc .watch = .received := by
  obtain ⟨l, hl⟩ := hg.asleep t h
  match t with
  | .main => cases l <;> simp [program, mainThread] at hl
  | .watch =>
    cases l <;> simp [program, watchCount] at hl
    exact ⟨rfl, hl.symm⟩
  | .inc j => cases l <;> simp [program, incCount] at hl

/-- A thread of `inc_count` that takes a step is running. -/
theorem inc_running (hg : Guarded program holds s) (h : Step program s (.inc j) s') :
    s.status (.inc j) = .running := by
  refine h.alive.resolve_right fun hwoken => ?_
  simpa using (asleep_watch hg (Or.inr hwoken)).1

/-- Before its wait the thread of `watch_count` is running. -/
theorem watch_running (hg : Guarded program holds s) (hw : s.loc .watch = WatchLoc.wait) :
    s.status .watch = .running := by
  cases hst : s.status .watch with
  | running => rfl
  | unborn =>
    have hloc := hg.unborn _ hst
    simp [hw, program] at hloc
  | waiting =>
    have hloc := (asleep_watch hg (Or.inl hst)).2
    simp [hw] at hloc
  | woken =>
    have hloc := (asleep_watch hg (Or.inr hst)).2
    simp [hw] at hloc
  | exited =>
    have hact := hg.exited _ hst
    simp [hw, program, watchCount] at hact

/-! ### Counting -/

/-- How often a thread has incremented `count`. -/
def IncLoc.added : IncLoc → ℕ
  | .lock i | .add i => i
  | .check i | .signal i | .reached i | .printReached i _ | .read i | .printCount i _ | .unlock i
  | .sleep i => i + 1
  | .exit => tcount

/-- How often both have. -/
def increments (s : State Tid ℤ Line Loc) : ℕ := ∑ j, IncLoc.added (s.loc (.inc j))

theorem added_incNext (i : Fin tcount) : (incNext i).added = i + 1 := by
  rw [incNext]
  split
  · rfl
  · next h => exact (Nat.le_antisymm i.isLt (Nat.not_lt.mp h)).symm

/-- `count` is the number of increments, and 125 more once `watch_count` has added them; that it went
    through its wait can be read off the output. -/
structure Counted (n : ℕ) (w : WatchLoc) (c : ℤ) (out : List Line) : Prop where
  count : c = n + if Line.received 1 ∈ out ∧ w ≠ .add then 125 else 0
  before : w = .start ∨ w = .lock ∨ w = .wait ∨ w = .received → Line.received 1 ∉ out
  behind : w = .add ∨ w = .read ∨ (∃ c, w = .printNow c) → Line.received 1 ∈ out
  below : w = .wait → c < countLimit

/-- What a step of `inc_count` does: it is the increment, or `count` stays. -/
theorem inc_effect (h : Step program s (.inc j) s') :
    (∃ i, s.loc (.inc j) = IncLoc.add i ∧ s'.loc (.inc j) = IncLoc.check i ∧ s'.data = s.data + 1 ∧
      s'.out = s.out) ∨
    s'.data = s.data ∧ IncLoc.added (s'.loc (.inc j)) = IncLoc.added (s.loc (.inc j)) ∧
      ∃ lines, s'.out = s.out ++ lines ∧ ∀ line ∈ lines, ¬ line.OfWatch := by
  rcases h with ⟨-, h⟩ | ⟨-, -, rfl⟩
  swap
  · exact Or.inr ⟨rfl, rfl, [], (List.append_nil _).symm, by simp⟩
  cases hl : s.loc (.inc j) with
  | add i =>
    simp only [program, hl, incCount, Does] at h
    subst h
    exact Or.inl ⟨i, rfl, Function.update_self _ _ _, rfl, rfl⟩
  | lock i | unlock i =>
    simp only [program, hl, incCount, Does] at h
    obtain ⟨-, rfl⟩ := h
    refine Or.inr ⟨rfl, ?_, [], (List.append_nil _).symm, by simp⟩
    simp [State.goto, IncLoc.added]
  | check i =>
    simp only [program, hl, incCount, Does] at h
    subst h
    refine Or.inr ⟨rfl, ?_, [], (List.append_nil _).symm, by simp⟩
    by_cases hc : s.data = countLimit <;> simp [State.goto, IncLoc.added, hc]
  | signal i =>
    simp only [program, hl, incCount, Does] at h
    obtain ⟨W, -, -, rfl⟩ := h
    refine Or.inr ⟨rfl, ?_, [], (List.append_nil _).symm, by simp⟩
    simp [State.goto, State.wake, IncLoc.added]
  | reached i | read i =>
    simp only [program, hl, incCount, Does] at h
    subst h
    refine Or.inr ⟨rfl, ?_, [], (List.append_nil _).symm, by simp⟩
    simp [State.goto, IncLoc.added]
  | printReached i c | printCount i c =>
    simp only [program, hl, incCount, Does] at h
    subst h
    refine Or.inr ⟨rfl, ?_, [_], rfl, by simp [Line.OfWatch]⟩
    simp [State.goto, IncLoc.added]
  | sleep i =>
    simp only [program, hl, incCount, Does] at h
    subst h
    refine Or.inr ⟨rfl, ?_, [], (List.append_nil _).symm, by simp⟩
    simp only [State.goto, Function.update_self, added_incNext]
    rfl
  | exit =>
    simp only [program, hl, incCount, Does] at h
    subst h
    exact Or.inr ⟨rfl, by simp [State.mark, hl], [], (List.append_nil _).symm, by simp⟩

/-- What a step of `main` does to the data: nothing. -/
theorem main_effect (h : Step program s .main s') :
    s'.data = s.data ∧ ∃ lines, s'.out = s.out ++ lines ∧ ∀ line ∈ lines, ¬ line.OfWatch := by
  rcases h with ⟨-, h⟩ | ⟨-, -, rfl⟩
  swap
  · exact ⟨rfl, [], (List.append_nil _).symm, by simp⟩
  cases hl : s.loc .main with
  | create k | join k =>
    simp only [program, hl, mainThread, Does] at h
    obtain ⟨-, rfl⟩ := h
    exact ⟨rfl, [], (List.append_nil _).symm, by simp⟩
  | report =>
    simp only [program, hl, mainThread, Does] at h
    subst h
    exact ⟨rfl, [_], rfl, by simp [Line.OfWatch]⟩
  | exit =>
    simp only [program, hl, mainThread, Does] at h
    subst h
    exact ⟨rfl, [], (List.append_nil _).symm, by simp⟩

/-- Other lines do not matter. -/
theorem Counted.append {n : ℕ} {w : WatchLoc} {c : ℤ} {out lines : List Line} (h : Counted n w c out)
    (hlines : ∀ line ∈ lines, ¬ line.OfWatch) : Counted n w c (out ++ lines) := by
  have hmem : Line.received 1 ∈ out ++ lines ↔ Line.received 1 ∈ out := by
    rw [List.mem_append, or_iff_left fun h => hlines (.received 1) h trivial]
  exact ⟨by simp only [hmem]; exact h.count, fun hw => by rw [hmem]; exact h.before hw,
    fun hw => by rw [hmem]; exact h.behind hw, h.below⟩

/-- An increment, while `watch_count` is not about to wait. -/
theorem Counted.add {n : ℕ} {w : WatchLoc} {c : ℤ} {out : List Line} (h : Counted n w c out)
    (hw : w ≠ .wait) : Counted (n + 1) w (c + 1) out := by
  refine ⟨?_, h.before, h.behind, fun hwait => absurd hwait hw⟩
  rw [h.count]
  push_cast
  ring

/-- STEP: `watch_count` adds its 125 once. -/
theorem counted_watch (h : Step program s .watch s') {n : ℕ}
    (hc : Counted n (s.loc .watch) s.data s.out) : Counted n (s'.loc .watch) s'.data s'.out := by
  rcases h with ⟨-, h⟩ | ⟨-, -, rfl⟩
  swap
  · exact hc
  obtain ⟨hcount, hbefore, hbehind, hbelow⟩ := hc
  cases hl : s.loc .watch with
  | lock | wait | unlock =>
    simp only [program, hl, watchCount, Does] at h
    rw [hl] at hcount hbefore
    obtain ⟨-, rfl⟩ := h
    constructor <;> simp_all [State.goto, State.mark]
  | start | exit =>
    simp only [program, hl, watchCount, Does] at h
    rw [hl] at hcount hbefore
    subst h
    constructor <;> simp_all [State.goto, State.mark]
  | test =>
    simp only [program, hl, watchCount, Does] at h
    rw [hl] at hcount
    by_cases hlt : s.data < countLimit
    · rw [if_pos hlt] at h
      subst h
      -- the 125 are not in yet, as `count` is still below the limit
      have hno : Line.received 1 ∉ s.out := by
        intro hmem
        rw [if_pos ⟨hmem, by simp⟩] at hcount
        rw [countLimit] at hlt
        omega
      constructor <;> simp_all [State.goto]
    · rw [if_neg hlt] at h
      subst h
      constructor <;> simp_all [State.goto]
  | received | add | read | printNow c =>
    simp only [program, hl, watchCount, Does] at h
    rw [hl] at hcount hbefore hbehind
    subst h
    constructor <;> simp_all [State.goto]

/-- STEP: the count stays right. -/
theorem counted_step {t : Tid} (hg : Guarded program holds s) (h : Step program s t s')
    (hc : Counted (increments s) (s.loc .watch) s.data s.out) :
    Counted (increments s') (s'.loc .watch) s'.data s'.out := by
  match t with
  | .main =>
    have hsame : increments s' = increments s :=
      Finset.sum_congr rfl fun j _ => by rw [(h.frame (u := .inc j) (by simp)).1]
    obtain ⟨hdata, lines, hout, hlines⟩ := main_effect h
    rw [hsame, (h.frame (u := .watch) (by simp)).1, hdata, hout]
    exact hc.append hlines
  | .watch =>
    have hsame : increments s' = increments s :=
      Finset.sum_congr rfl fun j _ => by rw [(h.frame (u := .inc j) (by simp)).1]
    rw [hsame]
    exact counted_watch h hc
  | .inc j =>
    have hsum : increments s' + IncLoc.added (s.loc (.inc j)) =
        increments s + IncLoc.added (s'.loc (.inc j)) := by
      have hother : ∀ k ≠ j, s'.loc (.inc k) = s.loc (.inc k) := fun k hk => (h.frame (by simpa using hk)).1
      rw [increments, increments, Fin.sum_univ_two, Fin.sum_univ_two]
      match j with
      | 0 => rw [hother 1 (by decide)]; omega
      | 1 => rw [hother 0 (by decide)]; omega
    rw [(h.frame (u := .watch) (by simp)).1]
    rcases inc_effect h with ⟨i, hloc, hloc', hdata, hout⟩ | ⟨hdata, hadded, lines, hout, hlines⟩
    · have hn : increments s' = increments s + 1 := by
        rw [hloc, hloc'] at hsum
        simp only [IncLoc.added] at hsum
        omega
      -- whoever increments has the mutex, so that `watch_count` is not about to wait
      have hwait : s.loc .watch ≠ WatchLoc.wait := by
        intro hw
        have hmine : s.owner = some (.inc j) := (hg.owner _).mpr ⟨inc_running hg h, by rw [hloc]; rfl⟩
        have htheirs := (hg.owner .watch).mpr ⟨watch_running hg hw, by rw [hw]; rfl⟩
        simp [hmine] at htheirs
      rw [hn, hdata, hout]
      exact hc.add hwait
    · have hn : increments s' = increments s := by omega
      rw [hn, hdata, hout]
      exact hc.append hlines

/-! ### Signals -/

/-- This thread has brought `count` to the limit, and its signal is still to come. -/
def Signals (s : State Tid ℤ Line Loc) (j : Fin 2) : Prop :=
  s.status (.inc j) = .running ∧ ∃ i, s.loc (.inc j) = IncLoc.check i ∧ s.data = countLimit ∨
    s.loc (.inc j) = IncLoc.signal i

/-- No signal is lost: while a thread waits, the limit is not reached, or the signal is still to come. -/
def Waits (s : State Tid ℤ Line Loc) : Prop :=
  s.status .watch = .waiting → s.data < countLimit ∨ ∃ j, Signals s j

theorem Signals.owner (hg : Guarded program holds s) (h : Signals s j) : s.owner = some (.inc j) := by
  obtain ⟨hrun, i, ⟨hloc, -⟩ | hloc⟩ := h
  · exact (hg.owner _).mpr ⟨hrun, by rw [hloc]; rfl⟩
  · exact (hg.owner _).mpr ⟨hrun, by rw [hloc]; rfl⟩

/-- Steps of other threads leave a thread before its signal, if they leave `count`. -/
theorem Signals.frame {t : Tid} (h : Step program s t s') (ht : Tid.inc j ≠ t) (hdata : s'.data = s.data)
    (hs : Signals s j) : Signals s' j := by
  obtain ⟨hrun, i, hloc⟩ := hs
  obtain ⟨hloc', hsame | ⟨hwas, -⟩ | ⟨hwas, -⟩⟩ := h.frame ht
  · exact ⟨by rw [hsame, hrun], i, by rw [hloc', hdata]; exact hloc⟩
  all_goals simp [hrun] at hwas

/-- A thread that waits after the step of another waited before it. -/
theorem waiting_of_step {t : Tid} (h : Step program s t s') (ht : Tid.watch ≠ t)
    (hw : s'.status .watch = .waiting) : s.status .watch = .waiting := by
  obtain ⟨-, hsame | ⟨-, hnow, -⟩ | ⟨-, hnow, -⟩⟩ := h.frame ht
  · rwa [hsame] at hw
  all_goals simp [hnow] at hw

/-- STEP: the thread of `watch_count` waits only while `count` is below the limit. -/
theorem waits_watch (hc : Counted (increments s) (s.loc .watch) s.data s.out)
    (h : Step program s .watch s') : Waits s' := by
  intro hw
  rcases h with ⟨hrun, h⟩ | ⟨-, -, rfl⟩
  swap
  · simp [State.mark] at hw
  cases hl : s.loc .watch with
  | wait =>
    simp only [program, hl, watchCount, Does] at h
    obtain ⟨-, rfl⟩ := h
    exact Or.inl (hc.below hl)
  | lock | unlock =>
    simp only [program, hl, watchCount, Does] at h
    obtain ⟨-, rfl⟩ := h
    simp [State.goto, hrun] at hw
  | exit =>
    simp only [program, hl, watchCount, Does] at h
    subst h
    simp [State.mark] at hw
  | _ =>
    simp only [program, hl, watchCount, Does] at h
    subst h
    simp [State.goto, hrun] at hw

/-- STEP: the increment that reaches the limit is followed by a signal, and the signal wakes the thread
    that waits. -/
theorem waits_inc (hg : Guarded program holds s) (hW : Waits s) (h : Step program s (.inc j) s') :
    Waits s' := by
  intro hw
  have hrun := inc_running hg h
  have hwas := waiting_of_step h (by simp) hw
  rcases hW hwas with hlt | ⟨k, hk⟩
  · rcases inc_effect h with ⟨i, hloc, hloc', hdata, -⟩ | ⟨hdata, -⟩
    · by_cases hreach : s.data + 1 = countLimit
      · refine Or.inr ⟨j, ?_, i, Or.inl ⟨hloc', by rw [hdata, hreach]⟩⟩
        rcases h with ⟨-, h⟩ | ⟨hwoken, -⟩
        · simp only [program, hloc, incCount, Does] at h
          subst h
          exact hrun
        · simp [hrun] at hwoken
      · exact Or.inl (by rw [hdata]; omega)
    · exact Or.inl (by rw [hdata]; exact hlt)
  · by_cases hkj : k = j
    · subst hkj
      obtain ⟨-, i, ⟨hloc, hlimit⟩ | hloc⟩ := hk
      · rcases h with ⟨-, h⟩ | ⟨hwoken, -⟩
        · simp only [program, hloc, incCount, Does, if_pos hlimit] at h
          subst h
          exact Or.inr ⟨k, hrun, i, Or.inr (Function.update_self _ _ _)⟩
        · simp [hrun] at hwoken
      · rcases h with ⟨-, h⟩ | ⟨hwoken, -⟩
        · simp only [program, hloc, incCount, Does] at h
          obtain ⟨W, hwait, hone, rfl⟩ := h
          obtain ⟨u, hu⟩ := hone ⟨.watch, hwas⟩
          have hwatch : u = .watch := (asleep_watch hg (Or.inl (hwait u hu))).1
          subst hwatch
          simp [State.wake, hu] at hw
        · simp [hrun] at hwoken
    · have hdata : s'.data = s.data := by
        rcases inc_effect h with ⟨i, hloc, -⟩ | ⟨hdata, -⟩
        · have hmine : s.owner = some (.inc j) := (hg.owner _).mpr ⟨hrun, by rw [hloc]; rfl⟩
          rw [hk.owner hg] at hmine
          simp [hkj] at hmine
        · exact hdata
      exact Or.inr ⟨k, hk.frame h (by simpa using hkj) hdata⟩

/-- STEP: and `main` has no part in it. -/
theorem waits_main (hW : Waits s) (h : Step program s .main s') : Waits s' := by
  intro hw
  have hdata := (main_effect h).1
  rcases hW (waiting_of_step h (by simp) hw) with hlt | ⟨k, hk⟩
  · exact Or.inl (by rw [hdata]; exact hlt)
  · exact Or.inr ⟨k, hk.frame h (by simp) hdata⟩

/-! ### `main` -/

/-- `main` creates the threads in order, and joins them in order. -/
def MainOk (s : State Tid ℤ Line Loc) : Prop :=
  s.status .main ≠ .unborn ∧
    match (s.loc .main : MainLoc) with
    | .create k => ∀ m, (k ≤ m → s.status (thread m) = .unborn) ∧ (m < k → s.status (thread m) ≠ .unborn)
    | .join i => ∀ m, s.status (thread m) ≠ .unborn ∧ (m < i → s.status (thread m) = .exited)
    | .report => ∀ m, s.status (thread m) = .exited
    | .exit => (∀ m, s.status (thread m) = .exited) ∧ s.out.getLast? = some (.waited numThreads)

theorem thread_ne_main (m : Fin numThreads) : thread m ≠ .main := by
  fin_cases m <;> simp [thread]

theorem thread_inj {m k : Fin numThreads} (h : thread m = thread k) : m = k := by
  fin_cases m <;> fin_cases k <;> simp [thread] at h ⊢

theorem exists_thread {t : Tid} (h : t ≠ .main) : ∃ m, t = thread m := by
  match t with
  | .main => exact absurd rfl h
  | .watch => exact ⟨0, rfl⟩
  | .inc 0 => exact ⟨1, rfl⟩
  | .inc 1 => exact ⟨2, rfl⟩

/-- What `main` knows is about the threads that are created, and those that have exited. -/
theorem MainOk.of_agree (hm : MainOk s) (hloc : s'.loc .main = s.loc .main)
    (hborn : s'.status .main ≠ .unborn)
    (hunborn : ∀ m, s'.status (thread m) = .unborn ↔ s.status (thread m) = .unborn)
    (hexited : ∀ m, s.status (thread m) = .exited → s'.status (thread m) = .exited)
    (hout : (∀ m, s.status (thread m) = .exited) → s'.out = s.out) : MainOk s' := by
  obtain ⟨-, hm⟩ := hm
  refine ⟨hborn, ?_⟩
  rw [hloc]
  cases hl : s.loc .main with
  | create k =>
    rw [hl] at hm
    exact fun m => ⟨fun hkm => (hunborn m).mpr ((hm m).1 hkm), fun hmk hu => (hm m).2 hmk ((hunborn m).mp hu)⟩
  | join i =>
    rw [hl] at hm
    exact fun m => ⟨fun hu => (hm m).1 ((hunborn m).mp hu), fun hmi => hexited m ((hm m).2 hmi)⟩
  | report =>
    rw [hl] at hm
    exact fun m => hexited m (hm m)
  | exit =>
    rw [hl] at hm
    exact ⟨fun m => hexited m (hm.1 m), by rw [hout hm.1]; exact hm.2⟩

/-- STEP: the other threads leave what `main` knows. -/
theorem mainOk_others {t : Tid} (hg : Guarded program holds s) (ht : t ≠ .main) (h : Step program s t s')
    (hm : MainOk s) : MainOk s' := by
  obtain ⟨hloc, hstatus⟩ := h.frame ht.symm
  -- no thread but `main` creates one
  have hspawn : ∀ u l, program.act t (s.loc t) ≠ .spawn u l := by
    intro u l
    match t with
    | .main => exact absurd rfl ht
    | .watch => cases hl : s.loc .watch <;> simp [program, watchCount]
    | .inc j => cases hl : s.loc (.inc j) <;> simp [program, incCount]
  refine hm.of_agree hloc ?_ (fun m => ?_) (fun m => h.exited) fun hall => ?_
  · rcases hstatus with hsame | ⟨-, hnow, -⟩ | ⟨-, hnow, -⟩
    · rw [hsame]
      exact hm.1
    all_goals simp [hnow]
  · by_cases hmt : thread m = t
    · subst hmt
      have hwas : s.status (thread m) ≠ .unborn := by
        rcases h.alive with halive | halive <;> simp [halive]
      exact iff_of_false (h.own disciplined hg).2.2.2.1 hwas
    · obtain ⟨-, hsame | ⟨hwas, hnow, -⟩ | ⟨-, -, l, hl⟩⟩ := h.frame hmt
      · rw [hsame]
      · simp [hwas, hnow]
      · exact absurd hl (hspawn _ l)
  · -- after the last exit there is nobody to print
    obtain ⟨m, rfl⟩ := exists_thread ht
    rcases h.alive with halive | halive <;> simp [hall m] at halive

/-- STEP: `main` itself. -/
theorem mainOk_main (hg : Guarded program holds s) (h : Step program s .main s') (hm : MainOk s) :
    MainOk s' := by
  have hborn' := (h.own disciplined hg).2.2.2.1
  obtain ⟨-, hm⟩ := hm
  refine ⟨hborn', ?_⟩
  rcases h with ⟨-, h⟩ | ⟨hwoken, -⟩
  swap
  · simpa using (asleep_watch hg (Or.inr hwoken)).1
  cases hl : s.loc .main with
  | create k =>
    rw [hl] at hm
    simp only [program, hl, mainThread, Does] at h
    obtain ⟨-, rfl⟩ := h
    have hself : (Function.update s.status (thread k) .running) (thread k) = .running :=
      Function.update_self _ _ _
    have hother : ∀ m ≠ k, (Function.update s.status (thread k) .running) (thread m) = s.status (thread m) :=
      fun m hmk => Function.update_of_ne (fun heq => hmk (thread_inj heq)) _ _
    by_cases hk : (k : ℕ) + 1 < numThreads
    · simp only [State.mark, State.goto, Function.update_self, dif_pos hk]
      intro m
      refine ⟨fun hkm => ?_, fun hmk => ?_⟩
      · have hlt : k < m := Fin.lt_def.mpr (Nat.lt_of_succ_le (Fin.le_def.mp hkm))
        rw [hother m hlt.ne']
        exact (hm m).1 hlt.le
      · by_cases heq : m = k
        · rw [heq, hself]
          simp
        · rw [hother m heq]
          refine (hm m).2 (lt_of_le_of_ne (Fin.le_def.mpr (Nat.le_of_lt_succ (Fin.lt_def.mp hmk))) heq)
    · simp only [State.mark, State.goto, Function.update_self, dif_neg hk]
      intro m
      refine ⟨?_, fun hlt => absurd hlt (Fin.not_lt_zero m)⟩
      by_cases heq : m = k
      · rw [heq, hself]
        simp
      · rw [hother m heq]
        have hlt : m < k := by
          have := m.isLt
          refine lt_of_le_of_ne (Fin.le_def.mpr (by omega)) heq
        exact (hm m).2 hlt
  | join i =>
    rw [hl] at hm
    simp only [program, hl, mainThread, Does] at h
    obtain ⟨hexited, rfl⟩ := h
    have hall : ∀ m : Fin numThreads, (m : ℕ) < i + 1 → s.status (thread m) = .exited := by
      intro m hlt
      by_cases heq : m = i
      · rw [heq, hexited]
      · exact (hm m).2 (lt_of_le_of_ne (Fin.le_def.mpr (Nat.le_of_lt_succ hlt)) heq)
    by_cases hi : (i : ℕ) + 1 < numThreads
    · simp only [State.goto, Function.update_self, dif_pos hi]
      exact fun m => ⟨(hm m).1, fun hlt => hall m (Fin.lt_def.mp hlt)⟩
    · simp only [State.goto, Function.update_self, dif_neg hi]
      exact fun m => hall m (by have := m.isLt; omega)
  | report =>
    rw [hl] at hm
    simp only [program, hl, mainThread, Does] at h
    subst h
    simp only [State.goto, Function.update_self]
    exact ⟨hm, by simp⟩
  | exit =>
    rw [hl] at hm
    simp only [program, hl, mainThread, Does] at h
    subst h
    have hne : ∀ m, thread m ≠ .main := thread_ne_main
    simp only [State.mark, hl]
    exact ⟨fun m => by rw [Function.update_of_ne (hne m)]; exact hm.1 m, hm.2⟩

/-! ### The whole -/

/-- What holds of every state of a run. -/
structure Inv (s : State Tid ℤ Line Loc) : Prop where
  guarded : Guarded program holds s
  counted : Counted (increments s) (s.loc .watch) s.data s.out
  waits : Waits s
  main : MainOk s

theorem inv_init : Inv State.init where
  guarded :=
    { owner := fun t => by
        have hstart := disciplined.start t
        simp [State.init, hstart]
      asleep := fun t ht => by
        by_cases h : t = .main <;> simp [State.init, h] at ht
      unborn := fun _ _ => rfl
      exited := fun t ht => by
        by_cases h : t = .main <;> simp [State.init, h] at ht }
  counted := ⟨by rfl, fun _ => List.not_mem_nil, fun h => by simp [State.init, program] at h,
    fun h => by simp [State.init, program] at h⟩
  waits := fun h => by simp [State.init] at h
  main := ⟨by simp [State.init], fun m => ⟨fun _ => if_neg (thread_ne_main m), fun h => absurd h (Fin.not_lt_zero m)⟩⟩

/-- STEP: every move keeps the invariant. -/
theorem Inv.move (hI : Inv s) (h : Move program s s') : Inv s' := by
  obtain ⟨hg, hc, hW, hm⟩ := hI
  refine ⟨hg.move disciplined h, ?_, ?_, ?_⟩
  all_goals rcases h with ⟨t, h⟩ | ⟨t, hwait, rfl⟩
  · exact counted_step hg h hc
  · exact hc
  · match t with
    | .main => exact waits_main hW h
    | .watch => exact waits_watch hc h
    | .inc j => exact waits_inc hg hW h
  · obtain ⟨rfl, -⟩ := asleep_watch hg (Or.inl hwait)
    intro hw
    simp [State.mark] at hw
  · by_cases ht : t = .main
    · subst ht
      exact mainOk_main hg h hm
    · exact mainOk_others hg ht h hm
  · have hother : ∀ u, s.status u ≠ .waiting → (s.mark t .woken).status u = s.status u := by
      intro u hu
      refine Function.update_of_ne ?_ _ _
      rintro rfl
      exact hu hwait
    have ht : (s.mark t .woken).status t = .woken := Function.update_self _ _ _
    refine hm.of_agree rfl ?_ (fun m => ?_) (fun m hm => ?_) fun _ => rfl
    · obtain ⟨rfl, -⟩ := asleep_watch hg (Or.inl hwait)
      exact hm.1
    · by_cases hmt : thread m = t
      · rw [hmt, ht, hwait]
        simp
      · rw [show (s.mark t .woken).status (thread m) = s.status (thread m) from Function.update_of_ne hmt _ _]
    · rw [hother _ (by simp [hm]), hm]

end Diversity.PthreadWait
