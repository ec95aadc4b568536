import Mathlib

/-! @scheme monitor | name:Threads with a mutex and a condition variable | family:concurrency

    Threads that share data, one mutex and one condition variable, as POSIX has them. A thread is a
    program counter with the action it takes next; a step of the system is an action of one thread, and
    which thread moves next is open.

        running ──wait──► waiting ──signal──► woken ──mutex is free──► running
                              └───spuriously────┘

    `pthread_cond_signal` wakes at least one thread that waits, if there is one. A thread may also wake
    for no reason; nothing may rest on that, so that such moves are kept apart from the steps.

    When every thread takes the mutex before it touches the data (`Disciplined`, a condition on the
    program text), the owner of the mutex is the one thread that is where it holds it, so that no two
    accesses meet. -/

namespace Schemes.Monitor

variable {T D O : Type} {L : T → Type}

/-- What a thread does, and where it goes on. -/
inductive Act (T D O Loc : Type) where
  | lock (l : Loc)
  | unlock (l : Loc)
  | wait (l : Loc)
  | signal (l : Loc)
  | access (f : D → D × Loc)
  | print (o : O) (l : Loc)
  | pause (l : Loc)
  | spawn (t : T) (l : Loc)
  | join (t : T) (l : Loc)
  | exit

/-- The programs of all threads. -/
structure Program (T D O : Type) (L : T → Type) where
  act : ∀ t, L t → Act T D O (L t)
  start : ∀ t, L t

/-- How far a thread is. -/
inductive Status where
  | unborn | running | waiting | woken | exited
  deriving DecidableEq

/-- The shared data, what was printed, the owner of the mutex, and the threads. -/
structure State (T D O : Type) (L : T → Type) where
  data : D
  out : List O
  owner : Option T
  loc : ∀ t, L t
  status : T → Status

variable [DecidableEq T] {P : Program T D O L} {s s' : State T D O L} {t u : T}

/-- A thread goes on. -/
def State.goto (s : State T D O L) (t : T) (l : L t) : State T D O L :=
  { s with loc := Function.update s.loc t l }

/-- A thread changes its status. -/
def State.mark (s : State T D O L) (t : T) (st : Status) : State T D O L :=
  { s with status := Function.update s.status t st }

/-- The threads of `W` are woken. -/
def State.wake (s : State T D O L) (W : Finset T) : State T D O L :=
  { s with status := fun u => if u ∈ W then .woken else s.status u }

/-- The states that an action of thread `t` may lead to. -/
def Does (s : State T D O L) (t : T) : Act T D O (L t) → State T D O L → Prop
  | .lock l, s' => s.owner = none ∧ s' = { s.goto t l with owner := some t }
  | .unlock l, s' => s.owner = some t ∧ s' = { s.goto t l with owner := none }
  | .wait l, s' => s.owner = some t ∧ s' = { (s.goto t l).mark t .waiting with owner := none }
  | .signal l, s' => ∃ W : Finset T, (∀ u ∈ W, s.status u = .waiting) ∧
      ((∃ u, s.status u = .waiting) → W.Nonempty) ∧ s' = (s.goto t l).wake W
  | .access f, s' => s' = { s.goto t (f s.data).2 with data := (f s.data).1 }
  | .print o l, s' => s' = { s.goto t l with out := s.out ++ [o] }
  | .pause l, s' => s' = s.goto t l
  | .spawn u l, s' => s.status u = .unborn ∧ s' = (s.goto t l).mark u .running
  | .join u l, s' => s.status u = .exited ∧ s' = s.goto t l
  | .exit, s' => s' = s.mark t .exited

/-- A step of thread `t`: its next action, or its return from a wait. -/
def Step (P : Program T D O L) (s : State T D O L) (t : T) (s' : State T D O L) : Prop :=
  s.status t = .running ∧ Does s t (P.act t (s.loc t)) s' ∨
    s.status t = .woken ∧ s.owner = none ∧ s' = { s.mark t .running with owner := some t }

/-- A step, or a thread wakes for no reason. -/
def Move (P : Program T D O L) (s s' : State T D O L) : Prop :=
  (∃ t, Step P s t s') ∨ ∃ t, s.status t = .waiting ∧ s' = s.mark t .woken

/-! ### What a step leaves alone -/

/-- FRAME: another thread stays where it is; it may be woken or created. -/
theorem Step.frame (h : Step P s t s') (hu : u ≠ t) :
    s'.loc u = s.loc u ∧ (s'.status u = s.status u ∨
      (s.status u = .waiting ∧ s'.status u = .woken ∧ ∃ l, P.act t (s.loc t) = .signal l) ∨
      s.status u = .unborn ∧ s'.status u = .running ∧ ∃ l, P.act t (s.loc t) = .spawn u l) := by
  rcases h with ⟨-, h⟩ | ⟨-, -, rfl⟩
  swap
  · exact ⟨rfl, Or.inl (Function.update_of_ne hu _ _)⟩
  cases ha : P.act t (s.loc t) with
  | lock l | unlock l =>
    rw [ha] at h
    obtain ⟨-, rfl⟩ := h
    exact ⟨Function.update_of_ne hu _ _, Or.inl rfl⟩
  | wait l =>
    rw [ha] at h
    obtain ⟨-, rfl⟩ := h
    exact ⟨Function.update_of_ne hu _ _, Or.inl (Function.update_of_ne hu _ _)⟩
  | signal l =>
    rw [ha] at h
    obtain ⟨W, hW, -, rfl⟩ := h
    refine ⟨Function.update_of_ne hu _ _, ?_⟩
    by_cases hmem : u ∈ W
    · exact Or.inr (Or.inl ⟨hW u hmem, if_pos hmem, l, rfl⟩)
    · exact Or.inl (if_neg hmem)
  | access f | print o l | pause l =>
    rw [ha] at h
    subst h
    exact ⟨Function.update_of_ne hu _ _, Or.inl rfl⟩
  | spawn v l =>
    rw [ha] at h
    obtain ⟨hv, rfl⟩ := h
    refine ⟨Function.update_of_ne hu _ _, ?_⟩
    by_cases huv : u = v
    · subst huv
      exact Or.inr (Or.inr ⟨hv, Function.update_self u _ _, l, rfl⟩)
    · exact Or.inl (Function.update_of_ne huv _ _)
  | join v l =>
    rw [ha] at h
    obtain ⟨-, rfl⟩ := h
    exact ⟨Function.update_of_ne hu _ _, Or.inl rfl⟩
  | exit =>
    rw [ha] at h
    subst h
    exact ⟨rfl, Or.inl (Function.update_of_ne hu _ _)⟩

/-- Only a thread that is there and has not exited takes a step. -/
theorem Step.alive (h : Step P s t s') : s.status t = .running ∨ s.status t = .woken :=
  h.elim (fun h => Or.inl h.1) fun h => Or.inr h.1

theorem Step.exited (h : Step P s t s') (hu : s.status u = .exited) : s'.status u = .exited := by
  have hne : u ≠ t := by
    rintro rfl
    simpa [hu] using h.alive
  obtain ⟨-, hsame | ⟨hwas, -⟩ | ⟨hwas, -⟩⟩ := h.frame hne
  · rw [hsame, hu]
  all_goals simp [hu] at hwas

/-! ### Locking -/

/-- The action goes with a thread that holds the mutex at the locations that `holds` says. -/
def Act.Respects {Loc : Type} (holds : Loc → Bool) (l : Loc) : Act T D O Loc → Prop
  | .lock l' => holds l = false ∧ holds l' = true
  | .unlock l' => holds l = true ∧ holds l' = false
  | .wait l' => holds l = true ∧ holds l' = true
  | .access f => holds l = true ∧ ∀ d, holds (f d).2 = true
  | .signal l' | .print _ l' | .pause l' => holds l' = holds l
  | .spawn _ l' | .join _ l' => holds l = false ∧ holds l' = false
  | .exit => holds l = false

/-- Every thread takes the mutex before it touches the data, and gives it back before it creates or
    joins a thread and before it exits. -/
structure Disciplined (P : Program T D O L) (holds : ∀ t, L t → Bool) : Prop where
  start : ∀ t, holds t (P.start t) = false
  act : ∀ t l, (P.act t l).Respects (holds t) l

/-- The owner of the mutex is the thread that runs where it is held; a thread that sleeps is behind a wait,
    and one that has ended at its end. -/
structure Guarded (P : Program T D O L) (holds : ∀ t, L t → Bool) (s : State T D O L) : Prop where
  owner : ∀ t, s.owner = some t ↔ s.status t = .running ∧ holds t (s.loc t) = true
  asleep : ∀ t, s.status t = .waiting ∨ s.status t = .woken → ∃ l, P.act t l = .wait (s.loc t)
  unborn : ∀ t, s.status t = .unborn → s.loc t = P.start t
  exited : ∀ t, s.status t = .exited → P.act t (s.loc t) = .exit

variable {holds : ∀ t, L t → Bool}

omit [DecidableEq T] in
/-- A thread that sleeps will hold the mutex when it goes on. -/
theorem Guarded.holds_of_asleep (hd : Disciplined P holds) (hg : Guarded P holds s)
    (h : s.status t = .waiting ∨ s.status t = .woken) : holds t (s.loc t) = true := by
  obtain ⟨l, hl⟩ := hg.asleep t h
  have hact := hd.act t l
  rw [hl] at hact
  exact hact.2

/-- What a step does to the mutex, and to the thread that takes it. -/
theorem Step.own (hd : Disciplined P holds) (hg : Guarded P holds s) (h : Step P s t s') :
    (∀ u ≠ t, s'.owner = some u ↔ s.owner = some u) ∧
      (s'.owner = some t ↔ s'.status t = .running ∧ holds t (s'.loc t) = true) ∧
      (s'.status t = .waiting ∨ s'.status t = .woken → ∃ l, P.act t l = .wait (s'.loc t)) ∧
      s'.status t ≠ .unborn ∧ (s'.status t = .exited → P.act t (s'.loc t) = .exit) := by
  rcases h with ⟨hrun, h⟩ | ⟨hwoken, hfree, rfl⟩
  swap
  · have hheld := hg.holds_of_asleep hd (Or.inr hwoken)
    refine ⟨fun u hu => ?_, ?_, ?_, ?_, ?_⟩
    · simp [hfree, hu.symm]
    all_goals simp [State.mark, hheld]
  have howner := hg.owner t
  have hact := hd.act t (s.loc t)
  cases ha : P.act t (s.loc t) with
  | lock l =>
    rw [ha] at h hact
    obtain ⟨hfree, rfl⟩ := h
    refine ⟨fun u hu => ?_, ?_, ?_, ?_, ?_⟩
    · simp [hfree, hu.symm]
    all_goals simp [State.goto, hrun, hact.2]
  | unlock l =>
    rw [ha] at h hact
    obtain ⟨hmine, rfl⟩ := h
    refine ⟨fun u hu => ?_, ?_, ?_, ?_, ?_⟩
    · simp [hmine, hu.symm]
    all_goals simp [State.goto, hrun, hact.2]
  | wait l =>
    rw [ha] at h hact
    obtain ⟨hmine, rfl⟩ := h
    refine ⟨fun u hu => ?_, ?_, fun _ => ⟨s.loc t, ?_⟩, ?_, ?_⟩
    · simp [hmine, hu.symm]
    all_goals simp [State.goto, State.mark, ha]
  | signal l =>
    rw [ha] at h hact
    obtain ⟨W, hW, -, rfl⟩ := h
    have hnot : t ∉ W := fun hmem => by simp [hW t hmem] at hrun
    refine ⟨fun u _ => Iff.rfl, ?_, ?_, ?_, ?_⟩
    all_goals simp_all [State.goto, State.wake, Act.Respects]
  | access f =>
    rw [ha] at h hact
    subst h
    refine ⟨fun u _ => Iff.rfl, ?_, ?_, ?_, ?_⟩
    all_goals simp_all [State.goto, Act.Respects]
  | print o l | pause l =>
    rw [ha] at h hact
    subst h
    refine ⟨fun u _ => Iff.rfl, ?_, ?_, ?_, ?_⟩
    all_goals simp_all [State.goto, Act.Respects]
  | spawn v l =>
    rw [ha] at h hact
    obtain ⟨hv, rfl⟩ := h
    have hne : t ≠ v := fun heq => by simp [heq, hv] at hrun
    refine ⟨fun u _ => Iff.rfl, ?_, ?_, ?_, ?_⟩
    all_goals simp_all [State.goto, State.mark, Act.Respects]
  | join v l =>
    rw [ha] at h hact
    obtain ⟨-, rfl⟩ := h
    refine ⟨fun u _ => Iff.rfl, ?_, ?_, ?_, ?_⟩
    all_goals simp_all [State.goto, Act.Respects]
  | exit =>
    rw [ha] at h hact
    subst h
    refine ⟨fun u _ => Iff.rfl, ?_, ?_, ?_, ?_⟩
    all_goals simp_all [State.mark, Act.Respects]

/-- STEP: the mutex stays with the thread that holds it. -/
theorem Step.guarded (hd : Disciplined P holds) (hg : Guarded P holds s) (h : Step P s t s') :
    Guarded P holds s' := by
  obtain ⟨hothers, howner, hasleep, hborn, hexited⟩ := h.own hd hg
  refine ⟨fun u => ?_, fun u hu => ?_, fun u hu => ?_, fun u hu => ?_⟩
  · by_cases hut : u = t
    · subst hut
      exact howner
    obtain ⟨hloc, hstatus⟩ := h.frame hut
    rw [hothers u hut, hg.owner u, hloc]
    rcases hstatus with hsame | ⟨hwas, hnow, -⟩ | ⟨hwas, hnow, -⟩
    · rw [hsame]
    · simp [hwas, hnow]
    · -- a thread that was just created is at its start, where it does not hold the mutex
      simp [hwas, hnow, hg.unborn u hwas, hd.start u]
  · by_cases hut : u = t
    · subst hut
      exact hasleep hu
    obtain ⟨hloc, hstatus⟩ := h.frame hut
    rw [hloc]
    rcases hstatus with hsame | ⟨hwas, -⟩ | ⟨-, hnow, -⟩
    · exact hg.asleep u (by rwa [hsame] at hu)
    · exact hg.asleep u (Or.inl hwas)
    · simp [hnow] at hu
  · by_cases hut : u = t
    · subst hut
      exact absurd hu hborn
    obtain ⟨hloc, hstatus⟩ := h.frame hut
    rw [hloc]
    rcases hstatus with hsame | ⟨-, hnow, -⟩ | ⟨hwas, -⟩
    · exact hg.unborn u (by rwa [hsame] at hu)
    · simp [hnow] at hu
    · exact hg.unborn u hwas
  · by_cases hut : u = t
    · subst hut
      exact hexited hu
    obtain ⟨hloc, hstatus⟩ := h.frame hut
    rw [hloc]
    rcases hstatus with hsame | ⟨-, hnow, -⟩ | ⟨-, hnow, -⟩
    · exact hg.exited u (by rwa [hsame] at hu)
    all_goals simp [hnow] at hu

/-- STEP: a thread that wakes for no reason does not get the mutex by that. -/
theorem Guarded.move (hd : Disciplined P holds) (hg : Guarded P holds s) (h : Move P s s') :
    Guarded P holds s' := by
  rcases h with ⟨t, h⟩ | ⟨t, hwait, rfl⟩
  · exact h.guarded hd hg
  refine ⟨fun u => ?_, fun u hu => ?_, fun u hu => ?_, fun u hu => ?_⟩
  · by_cases hut : u = t
    · subst hut
      have hnot : s.owner ≠ some u := fun heq => by simp [(hg.owner u).mp heq] at hwait
      simp [State.mark, hnot]
    · simp [State.mark, hut, hg.owner u]
  · by_cases hut : u = t
    · subst hut
      exact hg.asleep u (Or.inl hwait)
    · simp only [State.mark, Function.update_of_ne hut] at hu
      exact hg.asleep u hu
  · by_cases hut : u = t
    · subst hut
      simp [State.mark] at hu
    · simp only [State.mark, Function.update_of_ne hut] at hu
      exact hg.unborn u hu
  · by_cases hut : u = t
    · subst hut
      simp [State.mark] at hu
    · simp only [State.mark, Function.update_of_ne hut] at hu
      exact hg.exited u hu

omit [DecidableEq T] in
/-- RACE FREEDOM: a thread that is about to touch the data has the mutex. -/
theorem Guarded.owner_of_access (hd : Disciplined P holds) (hg : Guarded P holds s)
    (hrun : s.status t = .running) {f : D → D × L t} (ha : P.act t (s.loc t) = .access f) :
    s.owner = some t := by
  have hact := hd.act t (s.loc t)
  rw [ha] at hact
  exact (hg.owner t).mpr ⟨hrun, hact.1⟩

/-- A thread that runs can go on, unless the mutex is taken, or it joins a thread that has not exited or
    creates one that is there already. -/
theorem exists_step (hd : Disciplined P holds) (hg : Guarded P holds s) (hrun : s.status t = .running) :
    (∃ s', Step P s t s') ∨ (∃ l, P.act t (s.loc t) = .lock l ∧ s.owner ≠ none) ∨
      (∃ u l, P.act t (s.loc t) = .join u l ∧ s.status u ≠ .exited) ∨
      ∃ u l, P.act t (s.loc t) = .spawn u l ∧ s.status u ≠ .unborn := by
  have hact := hd.act t (s.loc t)
  have howner := hg.owner t
  have hstep : ∀ {a s'}, P.act t (s.loc t) = a → Does s t a s' → ∃ s', Step P s t s' :=
    fun ha hdoes => ⟨_, Or.inl ⟨hrun, ha ▸ hdoes⟩⟩
  cases ha : P.act t (s.loc t) with
  | lock l =>
    by_cases hfree : s.owner = none
    · exact Or.inl (hstep ha ⟨hfree, rfl⟩)
    · exact Or.inr (Or.inl ⟨l, rfl, hfree⟩)
  | unlock l | wait l =>
    rw [ha] at hact
    exact Or.inl (hstep ha ⟨howner.mpr ⟨hrun, hact.1⟩, rfl⟩)
  | signal l =>
    by_cases hany : ∃ u, s.status u = .waiting
    · obtain ⟨u, hu⟩ := hany
      refine Or.inl (hstep ha ⟨{u}, fun v hv => ?_, fun _ => Finset.singleton_nonempty u, rfl⟩)
      rw [Finset.mem_singleton.mp hv, hu]
    · exact Or.inl (hstep ha ⟨∅, fun v hv => absurd hv (Finset.notMem_empty v), fun h => absurd h hany, rfl⟩)
  | access f | print o l | pause l | exit => exact Or.inl (hstep ha rfl)
  | spawn u l =>
    by_cases hu : s.status u = .unborn
    · exact Or.inl (hstep ha ⟨hu, rfl⟩)
    · exact Or.inr (Or.inr (Or.inr ⟨u, l, rfl, hu⟩))
  | join u l =>
    by_cases hu : s.status u = .exited
    · exact Or.inl (hstep ha ⟨hu, rfl⟩)
    · exact Or.inr (Or.inr (Or.inl ⟨u, l, rfl, hu⟩))

/-- STUCK: where no thread can step, the mutex is free. -/
theorem Guarded.owner_of_stuck (hd : Disciplined P holds) (hg : Guarded P holds s)
    (hstuck : ∀ t s', ¬ Step P s t s') : s.owner = none := by
  by_contra hne
  obtain ⟨t, ht⟩ := Option.ne_none_iff_exists'.mp hne
  obtain ⟨hrun, hheld⟩ := (hg.owner t).mp ht
  have hact := hd.act t (s.loc t)
  rcases exists_step hd hg hrun with ⟨s', h⟩ | ⟨l, ha, -⟩ | ⟨u, l, ha, -⟩ | ⟨u, l, ha, -⟩
  · exact hstuck t s' h
  all_goals
    rw [ha] at hact
    simp [hact.1] at hheld

/-- STUCK: and every thread that was created and has not exited waits for a signal, or for another thread
    to end, or to create one that is there already. -/
theorem Guarded.status_of_stuck (hd : Disciplined P holds) (hg : Guarded P holds s)
    (hstuck : ∀ t s', ¬ Step P s t s') (t : T) :
    s.status t = .unborn ∨ s.status t = .exited ∨ s.status t = .waiting ∨
      s.status t = .running ∧ ((∃ u l, P.act t (s.loc t) = .join u l ∧ s.status u ≠ .exited) ∨
        ∃ u l, P.act t (s.loc t) = .spawn u l ∧ s.status u ≠ .unborn) := by
  have hfree := hg.owner_of_stuck hd hstuck
  cases hst : s.status t with
  | unborn => exact Or.inl rfl
  | exited => exact Or.inr (Or.inl rfl)
  | waiting => exact Or.inr (Or.inr (Or.inl rfl))
  | woken => exact absurd (Or.inr ⟨hst, hfree, rfl⟩) (hstuck t _)
  | running =>
    rcases exists_step hd hg hst with ⟨s', h⟩ | ⟨l, -, htaken⟩ | hjoin | hspawn
    · exact absurd h (hstuck t s')
    · exact absurd hfree htaken
    · exact Or.inr (Or.inr (Or.inr ⟨rfl, Or.inl hjoin⟩))
    · exact Or.inr (Or.inr (Or.inr ⟨rfl, Or.inr hspawn⟩))

/-! ### Runs -/

/-- RUN: when every move keeps `I` and brings the measure down, `I` holds after any number of moves, and
    there are no more of them than the measure at the start. -/
theorem run_bounded {I : State T D O L → Prop} {μ : State T D O L → ℕ}
    (hmove : ∀ s s', I s → Move P s s' → I s' ∧ μ s' < μ s) (run : ℕ → State T D O L) (h0 : I (run 0)) :
    ∀ n, (∀ i < n, Move P (run i) (run (i + 1))) → I (run n) ∧ n + μ (run n) ≤ μ (run 0) := by
  intro n
  induction n with
  | zero => exact fun _ => ⟨h0, by omega⟩
  | succ n ih =>
    intro hrun
    obtain ⟨hI, hle⟩ := ih fun i hi => hrun i (Nat.lt_succ_of_lt hi)
    obtain ⟨hI', hlt⟩ := hmove _ _ hI (hrun n (Nat.lt_succ_self n))
    exact ⟨hI', by omega⟩

end Schemes.Monitor
