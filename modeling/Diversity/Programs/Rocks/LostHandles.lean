import Diversity.Programs.Rocks.Lifetimes

/-! @src rocksdb_playground/src/datastore.c | name:Lost handles | scheme:handles | family:store

    `open_db` assigns `rocks.db` whatever it held, and assigns NULL when `rocksdb_open` fails; the
    database that was open before can then no longer be closed. A handle once lost stays open to the
    end of the run, so nothing is lost, and every handle is closed exactly once, exactly on the
    sequences that never open a database while one is open. -/

namespace Diversity.Rocks
open Schemes Handles

/-- The open databases are the one in `rocks.db`, if any. -/
def Owned (s : State) : Prop := ∀ h, h ∈ alive lifetimes s.trace ↔ s.db = some h

/-- A database is open that `rocks.db` does not name. -/
def Lost (s : State) : Prop := ∃ h ∈ alive lifetimes s.trace, s.db ≠ some h

theorem owned_initial : Owned State.initial := by
  intro h
  simp [State.initial, alive]

theorem Owned.not_lost {s : State} (h : Owned s) : ¬ Lost s := by
  rintro ⟨a, ha, hne⟩
  exact hne ((h a).mp ha)

/-- Opening with nothing open, and every other command, loses nothing. -/
theorem owned_step {s : State} (ho : Owned s) (t : Step)
    (hopen : ∀ path, t.1 = .open path → s.db = none) : Owned (step s t) := by
  rcases handle_cases s t with ⟨path, o, rfl, -, hdb, -, ht⟩ | ⟨path, o, rfl, -, hdb, -, ht⟩ |
    ⟨a, o, rfl, ha, hdb, -, ht⟩ | ⟨-, hdb, -, ht, hq⟩
  · intro h
    rw [ht, alive_open, List.mem_cons, ho h, hopen path rfl, hdb]
    simp [eq_comm]
  · intro h
    rw [ht, alive_openFailed, ho h, hopen path rfl, hdb]
  · intro h
    rw [ht, alive_close, List.mem_filter, ho h, ha, hdb]
    simp
    tauto
  · intro h
    rw [ht, alive_quiet _ _ hq, hdb]
    exact ho h

/-- Opening over an open database loses it, whether it succeeds or not. -/
theorem lost_open {s : State} (hk : Kept s) (path : Bytes) (o : Outcome) (hopen : s.db ≠ none) :
    Lost (step s (.open path, o)) := by
  obtain ⟨a, ha⟩ := Option.ne_none_iff_exists'.mp hopen
  have hlive := hk.own a ha
  rcases handle_cases s (.open path, o) with ⟨path', o', -, -, hdb, -, ht⟩ |
    ⟨path', o', -, -, hdb, -, ht⟩ | ⟨_, _, hc, -⟩ | ⟨hno, -⟩
  · refine ⟨a, ?_, ?_⟩
    · rw [ht, alive_open]
      exact List.mem_cons_of_mem _ hlive
    · rw [hdb]
      simpa using (hk.lt_next hlive).ne'
  · refine ⟨a, ?_, ?_⟩
    · rw [ht, alive_openFailed]
      exact hlive
    · rw [hdb]
      simp
  · cases hc
  · exact absurd rfl (hno path)

/-- A lost database stays lost. -/
theorem lost_step {s : State} (hk : Kept s) (hl : Lost s) (t : Step) : Lost (step s t) := by
  obtain ⟨h, hlive, hne⟩ := hl
  rcases handle_cases s t with ⟨path, o, -, -, hdb, -, ht⟩ | ⟨path, o, -, -, hdb, -, ht⟩ |
    ⟨a, o, -, ha, hdb, -, ht⟩ | ⟨-, hdb, -, ht, hq⟩
  · refine ⟨h, ?_, ?_⟩
    · rw [ht, alive_open]
      exact List.mem_cons_of_mem _ hlive
    · rw [hdb]
      simpa using (hk.lt_next hlive).ne'
  · refine ⟨h, ?_, ?_⟩
    · rw [ht, alive_openFailed]
      exact hlive
    · rw [hdb]
      simp
  · refine ⟨h, ?_, ?_⟩
    · rw [ht, alive_close, List.mem_filter]
      refine ⟨hlive, decide_eq_true fun he => hne ?_⟩
      rw [ha, he]
    · rw [hdb]
      simp
  · refine ⟨h, ?_, ?_⟩
    · rw [ht, alive_quiet _ _ hq]
      exact hlive
    · rwa [hdb]

theorem lost_run {s : State} (hk : Kept s) (hl : Lost s) (steps : List Step) :
    Lost (run s steps) := by
  induction steps generalizing s with
  | nil => exact hl
  | cons t ts ih => exact ih (kept_step hk t) (lost_step hk hl t)

/-- One step loses a database exactly when it opens one over an open one. -/
theorem owned_step_iff {φ : Phase} {s : State} (hk : Kept s) (h : Tracks φ s) (ho : Owned s)
    (t : Step) : (opensClosed φ t = true → Owned (step s t)) ∧
      (opensClosed φ t = false → Lost (step s t)) := by
  constructor
  · intro hok
    refine owned_step ho t fun path hpath => h.db_none.mp ?_
    obtain ⟨c, o⟩ := t
    cases hpath
    simpa [opensClosed] using hok
  · intro hbad
    obtain ⟨c, o⟩ := t
    cases c with
    | «open» path =>
      refine lost_open hk path o fun hs => ?_
      simp [opensClosed, h.db_none.mpr hs] at hbad
    | _ => simp [opensClosed] at hbad

/-- A run owns its databases to the end, or has lost one. -/
theorem run_owned {φ : Phase} {s : State} (hk : Kept s) (h : Tracks φ s) (ho : Owned s)
    (steps : List Step) : (obeys opensClosed φ steps = true → Owned (run s steps)) ∧
      (obeys opensClosed φ steps = false → Lost (run s steps)) := by
  induction steps generalizing φ s with
  | nil => exact ⟨fun _ => ho, nofun⟩
  | cons t ts ih =>
    obtain ⟨hgood, hbad⟩ := owned_step_iff hk h ho t
    rw [obeys]
    cases hok : opensClosed φ t with
    | true =>
      rw [Bool.true_and]
      exact ih (kept_step hk t) (tracks_step hk h t) (hgood hok)
    | false =>
      refine ⟨nofun, fun _ => ?_⟩
      exact lost_run (kept_step hk t) (hbad hok) ts

theorem obeys_of_init {ok : Phase → Step → Bool} {φ : Phase} {pre steps : List Step}
    (hpre : pre <+: steps) (h : obeys ok φ steps = true) : obeys ok φ pre = true := by
  obtain ⟨post, rfl⟩ := hpre
  induction pre generalizing φ with
  | nil => rfl
  | cons t ts ih =>
    rw [List.cons_append, obeys, Bool.and_eq_true] at h
    rw [obeys, h.1, Bool.true_and]
    exact ih h.2

/-- What `deconstruct` adds to the trace. -/
theorem deconstruct_trace (s : State) : ∃ cs, (∀ c ∈ cs, Quiet lifetimes c) ∧
    (deconstruct s).1.trace =
      s.trace ++ cs ++ (if s.db ≠ none then [.close s.db] else []) := by
  obtain ⟨⟨db, cp, wrBatch⟩, data, next, trace, out⟩ := s
  cases cp with
  | none => exact ⟨[], by simp, by cases db <;> simp [deconstruct]⟩
  | some c =>
    exact ⟨[.checkpointObjectDestroy (some c)], by simp [Quiet, lifetimes], by
      cases db <;> simp [deconstruct]⟩

/-- `deconstruct` closes `rocks.db` and nothing else. -/
theorem deconstruct_spec {s : State} (hk : Kept s) :
    Accounts lifetimes (deconstruct s).1.trace ∧
    ∀ h, h ∈ alive lifetimes (deconstruct s).1.trace ↔
      h ∈ alive lifetimes s.trace ∧ s.db ≠ some h := by
  obtain ⟨cs, hq, ht⟩ := deconstruct_trace s
  rw [ht]
  have hlive := alive_quiet s.trace cs hq
  have hacc := accounts_quiet s.trace cs hq hk.accounts
  cases hs : s.db with
  | none =>
    simp [hlive, hacc]
  | some a =>
    simp only [ne_eq, reduceCtorEq, not_false_eq_true, if_true]
    refine ⟨accounts_concat hacc ⟨?_, ?_, Or.inl rfl⟩, ?_⟩
    · intro b hb
      cases hb
    · intro b hb
      cases hb
      rw [hlive]
      exact hk.own a hs
    · intro h
      rw [alive_close, hlive, List.mem_filter, decide_eq_true_iff]
      refine and_congr_right fun _ => not_congr ?_
      rw [Option.some.injEq, eq_comm]

/-- CORRECT: the open databases are exactly the one in `rocks.db` in every state of a run, and every
    handle returned is closed exactly once when `deconstruct` has run, exactly when the run never
    opens a database while one is open. -/
theorem no_lost_handle (steps : List Step) :
    ((∀ pre, pre <+: steps → ∀ h, h ∈ alive lifetimes (run State.initial pre).trace ↔
        (run State.initial pre).db = some h) ↔
      obeys opensClosed Phase.start steps = true) ∧
    ((∀ e ∈ (deconstruct (run State.initial steps)).1.trace, ∀ h, lifetimes.acquires e = some h →
        released lifetimes (deconstruct (run State.initial steps)).1.trace h = 1) ↔
      obeys opensClosed Phase.start steps = true) := by
  have hrun := run_owned kept_initial tracks_initial owned_initial
  constructor
  · constructor
    · intro h
      by_contra hno
      exact Owned.not_lost (h steps (List.prefix_refl _)) ((hrun steps).2 (Bool.eq_false_iff.mpr hno))
    · intro hok pre hpre
      exact (hrun pre).1 (obeys_of_init hpre hok)
  · obtain ⟨hacc, hlive⟩ := deconstruct_spec (kept_run kept_initial steps)
    rw [released_once_iff hacc, List.eq_nil_iff_forall_not_mem]
    constructor
    · intro hnone
      by_contra hno
      obtain ⟨a, ha, hne⟩ := (hrun steps).2 (Bool.eq_false_iff.mpr hno)
      exact hnone a ((hlive a).mpr ⟨ha, hne⟩)
    · intro hok a ha
      obtain ⟨hal, hne⟩ := (hlive a).mp ha
      exact hne (((hrun steps).1 hok a).mp hal)

/-- Opening a second database: the first is still open when `rocks.db` is the second, and is never
    closed. The same when the second cannot be opened. -/
theorem no_lost_handle_fails :
    (0 ∈ alive lifetimes (run State.initial [(.open [97], .success), (.open [98], .success)]).trace ∧
      (run State.initial [(.open [97], .success), (.open [98], .success)]).db = some 1 ∧
      released lifetimes (deconstruct (run State.initial
        [(.open [97], .success), (.open [98], .success)])).1.trace 0 = 0) ∧
    (0 ∈ alive lifetimes (run State.initial [(.open [97], .success),
        (.open [98], { Outcome.success with err := some "IO error" })]).trace ∧
      (run State.initial [(.open [97], .success),
        (.open [98], { Outcome.success with err := some "IO error" })]).db = none ∧
      released lifetimes (deconstruct (run State.initial [(.open [97], .success),
        (.open [98], { Outcome.success with err := some "IO error" })])).1.trace 0 = 0) := by
  decide

end Diversity.Rocks
