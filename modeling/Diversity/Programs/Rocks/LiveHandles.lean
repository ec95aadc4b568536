import Diversity.Programs.Rocks.Lifetimes

/-! @src rocksdb_playground/src/datastore.c | name:Live handles | scheme:handles | family:store

    Every call of RocksDB gets a handle that is open, and every checkpoint an object of the database
    in `rocks.db`, except in two places. `destroy_writebatch` passes `rocks.db` on without asking
    `is_open`, so a batch that outlives its database is written to NULL; and `rocks.cp` outlives the
    database it was created from, so the next database is checkpointed through the closed one. -/

namespace Diversity.Rocks
open Schemes Handles

/-- A call on `rocks.db` behind `is_open` gets a live handle. -/
theorem Kept.good_db {s : State} (hk : Kept s) (hs : s.db ≠ none) :
    ∃ h ∈ alive lifetimes s.trace, s.db = some h := by
  obtain ⟨h, hh⟩ := Option.ne_none_iff_exists'.mp hs
  exact ⟨h, hk.own h hh, hh⟩

/-- So does the one call of a command that asks `is_open` first. -/
theorem Kept.good_guarded {s : State} (hk : Kept s) (halways : Always lifetimes Good s.trace)
    {c : Call} (hc : (∃ h ∈ alive lifetimes s.trace, s.db = some h) →
      Good (alive lifetimes s.trace) c) :
    Always lifetimes Good (s.trace ++ if s.db = none then [] else [c]) := by
  split
  · rwa [List.append_nil]
  · exact always_concat.mpr ⟨halways, hc (hk.good_db ‹_›)⟩

/-- A batch is written to a live database exactly when one is open. -/
theorem calls_wbDestroy {φ : Phase} {s : State} (hk : Kept s) (h : Tracks φ s) (o : Outcome)
    (halways : Always lifetimes Good s.trace) :
    Always lifetimes Good (s.trace ++ calls s (.wbDestroy, o)) ↔
      callsLive φ (.wbDestroy, o) = true := by
  have hbatch := h.batch
  cases hb : s.wrBatch with
  | none =>
    rw [hb] at hbatch
    refine iff_of_true ?_ (by simp [callsLive, hbatch])
    simpa [calls, hb] using halways
  | some b =>
    rw [hb] at hbatch
    have hcalls : calls s (.wbDestroy, o) = [.write s.db b] := by simp [calls, hb]
    have hlive : callsLive φ (.wbDestroy, o) = φ.isOpen := by simp [callsLive, hbatch]
    rw [hcalls, hlive, always_concat, and_iff_right halways]
    constructor
    · rintro ⟨a, -, ha⟩
      rw [h.isOpen, ha]
      rfl
    · intro hopen
      refine hk.good_db fun hs => ?_
      rw [h.db_none.mpr hs] at hopen
      cases hopen

/-- A checkpoint is taken through the database that is open exactly when the object was created from
    it, now or before. -/
theorem calls_ckpt {φ : Phase} {s : State} (hk : Kept s) (h : Tracks φ s) (dir : Bytes)
    (o : Outcome) (halways : Always lifetimes Good s.trace) :
    Always lifetimes Good (s.trace ++ calls s (.ckpt dir, o)) ↔
      callsLive φ (.ckpt dir, o) = true := by
  have hphase := h.cp
  cases hs : s.db with
  | none =>
    refine iff_of_true ?_ (by simp [callsLive, h.db_none.mpr hs])
    simpa [calls, hs] using halways
  | some a =>
    have hlive : a ∈ alive lifetimes s.trace := hk.own a hs
    have hopen : φ.isOpen = true := by rw [h.isOpen, hs]; rfl
    cases hφ : φ.cp with
    | none =>
      rw [hφ] at hphase
      have hcalls : calls s (.ckpt dir, o) = [.checkpointObjectCreate (some a)] ++
          [.checkpointCreate (if o.objErr = none then some ⟨some a⟩ else none) (some a) dir] := by
        simp [calls, hs, show s.cp = none from hphase]
      have hsame : alive lifetimes (s.trace ++ [.checkpointObjectCreate (some a)]) =
          alive lifetimes s.trace := alive_concat ..
      have hcreate : Always lifetimes Good (s.trace ++ [.checkpointObjectCreate (some a)]) :=
        always_concat.mpr ⟨halways, a, hlive, rfl⟩
      rw [hcalls, ← List.append_assoc, always_concat, and_iff_right hcreate, hsame]
      cases hobj : o.objErr with
      | none => exact iff_of_true ⟨a, hlive, rfl, rfl⟩ (by simp [callsLive, hφ, hobj])
      | some err =>
        refine iff_of_false ?_ (by simp [callsLive, hφ, hobj, hopen])
        rintro ⟨b, -, -, hb⟩
        cases hb
    | current =>
      rw [hφ] at hphase
      have hcalls : calls s (.ckpt dir, o) = [.checkpointCreate (some ⟨some a⟩) (some a) dir] := by
        simp [calls, hs, hphase.1]
      rw [hcalls, always_concat]
      exact iff_of_true ⟨halways, a, hlive, rfl, rfl⟩ (by simp [callsLive, hφ])
    | stale =>
      rw [hφ] at hphase
      obtain ⟨b, -, hcp, hne⟩ := hphase
      have hcalls : calls s (.ckpt dir, o) = [.checkpointCreate (some ⟨some b⟩) (some a) dir] := by
        simp [calls, hs, hcp]
      rw [hcalls, always_concat]
      refine iff_of_false ?_ (by simp [callsLive, hφ, hopen])
      rintro ⟨-, d, -, hd, hb⟩
      cases hd
      cases hb
      exact hne hs

/-- The calls of a step are good exactly when the step is in order. -/
theorem calls_good {φ : Phase} {s : State} (hk : Kept s) (h : Tracks φ s) (t : Step)
    (halways : Always lifetimes Good s.trace) :
    Always lifetimes Good (s.trace ++ calls s t) ↔ callsLive φ t = true := by
  obtain ⟨c, o⟩ := t
  cases c with
  | «open» path => exact iff_of_true (always_concat.mpr ⟨halways, trivial⟩) rfl
  | close => exact iff_of_true (hk.good_guarded halways id) rfl
  | read key => exact iff_of_true (hk.good_guarded halways id) rfl
  | write key val =>
    refine iff_of_true ?_ rfl
    by_cases hb : s.wrBatch = none
    · rw [calls, if_pos hb]
      exact hk.good_guarded halways id
    · rw [calls, if_neg hb, ite_self, List.append_nil]
      exact halways
  | delete key => exact iff_of_true (hk.good_guarded halways id) rfl
  | list => exact iff_of_true (hk.good_guarded halways id) rfl
  | wbCreate =>
    rw [calls, List.append_nil]
    exact iff_of_true halways rfl
  | wbDestroy => exact calls_wbDestroy hk h o halways
  | ckpt dir => exact calls_ckpt hk h dir o halways

/-- The trace of a run extends the trace it started with. -/
theorem run_trace (steps : List Step) : ∀ s : State, ∃ cs, (run s steps).trace = s.trace ++ cs := by
  induction steps with
  | nil => exact fun s => ⟨[], (List.append_nil _).symm⟩
  | cons t ts ih =>
    intro s
    obtain ⟨cs, hcs⟩ := ih (step s t)
    exact ⟨calls s t ++ cs, by rw [← List.append_assoc, ← (step_spec s t).2.1]; exact hcs⟩

theorem run_live {φ : Phase} {s : State} (hk : Kept s) (h : Tracks φ s)
    (halways : Always lifetimes Good s.trace) (steps : List Step) :
    Always lifetimes Good (run s steps).trace ↔ obeys callsLive φ steps = true := by
  induction steps generalizing φ s with
  | nil => exact iff_of_true halways rfl
  | cons t ts ih =>
    have hstep := calls_good hk h t halways
    rw [← (step_spec s t).2.1] at hstep
    rw [obeys, Bool.and_eq_true]
    constructor
    · intro hrun
      obtain ⟨cs, hcs⟩ := run_trace ts (step s t)
      have hnow : Always lifetimes Good (step s t).trace :=
        always_of_append (hcs ▸ hrun : Always lifetimes Good ((step s t).trace ++ cs))
      exact ⟨hstep.mp hnow, (ih (kept_step hk t) (tracks_step hk h t) hnow).mp hrun⟩
    · rintro ⟨hok, hrest⟩
      exact (ih (kept_step hk t) (tracks_step hk h t) (hstep.mpr hok)).mpr hrest

/-- CORRECT: over every sequence of commands and every failure of the library, all calls get live
    handles exactly when no batch is written with no database open, no checkpoint is taken after
    the database its object came from was left, and no creation of a checkpoint object fails. -/
theorem live_handles (steps : List Step) :
    Always lifetimes Good (run State.initial steps).trace ↔
      obeys callsLive Phase.start steps = true :=
  run_live kept_initial tracks_initial always_nil steps

/-- A batch that outlives its database is written to NULL; a second database is checkpointed with
    the object of the first. -/
theorem live_handles_fails :
    ¬ Always lifetimes Good (run State.initial
      [(.open [97], .success), (.wbCreate, .success), (.close, .success),
        (.wbDestroy, .success)]).trace ∧
    ¬ Always lifetimes Good (run State.initial
      [(.open [97], .success), (.ckpt [99], .success), (.close, .success), (.open [98], .success),
        (.ckpt [99], .success)]).trace := by
  constructor
  · intro h
    obtain ⟨a, -, ha⟩ := h [.open [97] (some 0), .close (some 0)] (.write none []) [] rfl
    cases ha
  · intro h
    obtain ⟨a, -, ha, hcp⟩ := h [.open [97] (some 0), .checkpointObjectCreate (some 0),
      .checkpointCreate (some ⟨some 0⟩) (some 0) [99], .close (some 0), .open [98] (some 1)]
      (.checkpointCreate (some ⟨some 0⟩) (some 1) [99]) [] rfl
    cases ha
    cases hcp

end Diversity.Rocks
