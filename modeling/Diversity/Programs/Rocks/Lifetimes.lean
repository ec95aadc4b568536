import Diversity.Programs.Rocks.Datastore

/-! @src rocksdb_playground/src/datastore.c | name:Handle lifetimes | scheme:handles | family:store

    What the session does with its handles, over all sequences of commands and all failures of the
    library. `open` overwrites `rocks.db` without closing it, `close` and `open` leave `rocks.cp`
    behind, and `wb_destroy` is the one user of `rocks.db` that does not ask `is_open`. `Phase` is
    what of a session can be read off its input alone: whether a database is open, whether a batch
    is pending, and whether the checkpoint object belongs to the database that is open. The calls
    all get live handles, and no handle is lost, exactly on the inputs that keep to these phases. -/

namespace Diversity.Rocks
open Schemes Handles

/-- `rocksdb_open` acquires what it returns, `rocksdb_close` releases what it is given. -/
def lifetimes : Lifetimes Call ℕ where
  acquires
    | .open _ result => result
    | _ => none
  releases
    | .close db => db
    | _ => none

/-- The call gets the handle of an open database, and a checkpoint is taken with an object that was
    created from the database in `rocks.db`. -/
def Good (live : List ℕ) : Call → Prop
  | .open _ _ | .checkpointObjectDestroy _ => True
  | .close db | .get db _ | .put db _ _ | .delete db _ | .write db _ | .createIterator db
  | .checkpointObjectCreate db => ∃ h ∈ live, db = some h
  | .checkpointCreate cp current _ => ∃ h ∈ live, current = some h ∧ cp = some ⟨some h⟩

/-! ### Phases of the input -/

/-- The checkpoint object: none yet, from the database that is open, or from an earlier one. -/
inductive CpPhase where
  | none | current | stale
  deriving DecidableEq, Repr

/-- The database is closed or another one is opened. -/
def CpPhase.leave : CpPhase → CpPhase
  | .none => .none
  | _ => .stale

structure Phase where
  isOpen : Bool
  batch : Bool
  cp : CpPhase
  deriving DecidableEq, Repr

def Phase.start : Phase := { isOpen := false, batch := false, cp := .none }

/-- How a command, with its outcome, changes the phase. -/
def Phase.advance (φ : Phase) : Step → Phase
  | (.open _, o) => { φ with isOpen := o.err.isNone, cp := φ.cp.leave }
  | (.close, _) => { φ with isOpen := false, cp := φ.cp.leave }
  | (.wbCreate, o) => { φ with batch := !o.null }
  | (.wbDestroy, o) => { φ with batch := φ.batch && o.err.isSome }
  | (.ckpt _, o) =>
    if φ.isOpen ∧ φ.cp = .none ∧ o.objErr = none then { φ with cp := .current } else φ
  | _ => φ

/-- Every step is in order in the phase it is taken in. -/
def obeys (ok : Phase → Step → Bool) : Phase → List Step → Bool
  | _, [] => true
  | φ, t :: ts => ok φ t && obeys ok (φ.advance t) ts

/-- No batch is written while no database is open, and while one is open no checkpoint is taken with
    an object of an earlier database, or after a failure to create one. -/
def callsLive (φ : Phase) : Step → Bool
  | (.wbDestroy, _) => !φ.batch || φ.isOpen
  | (.ckpt _, o) =>
    !φ.isOpen || match φ.cp with
      | .none => o.objErr.isNone
      | .current => true
      | .stale => false
  | _ => true

/-- No database is opened while one is open. -/
def opensClosed (φ : Phase) : Step → Bool
  | (.open _, _) => !φ.isOpen
  | _ => true

/-- The state `s` is in phase `φ`. -/
structure Tracks (φ : Phase) (s : State) : Prop where
  isOpen : φ.isOpen = s.db.isSome
  batch : φ.batch = s.wrBatch.isSome
  cp : match φ.cp with
    | .none => s.cp = none
    | .current => s.cp = some ⟨s.db⟩ ∧ s.db.isSome
    | .stale => ∃ h < s.next, s.cp = some ⟨some h⟩ ∧ s.db ≠ some h

theorem tracks_initial : Tracks Phase.start State.initial where
  isOpen := rfl
  batch := rfl
  cp := rfl

/-! ### What a command does with handles -/

/-- The calls a command makes. -/
def calls (s : State) : Step → List Call
  | (.open path, o) => [.open path (if o.err = none then some s.next else none)]
  | (.close, _) => if s.db = none then [] else [.close s.db]
  | (.read key, _) => if s.db = none then [] else [.get s.db key]
  | (.write key val, _) =>
    if s.db = none then [] else if s.wrBatch = none then [.put s.db key val] else []
  | (.delete key, _) => if s.db = none then [] else [.delete s.db key]
  | (.list, _) => if s.db = none then [] else [.createIterator s.db]
  | (.wbCreate, _) => []
  | (.wbDestroy, _) => s.wrBatch.toList.map (.write s.db)
  | (.ckpt dir, o) =>
    if s.db = none then []
    else if s.cp = none then
      [.checkpointObjectCreate s.db,
        .checkpointCreate (if o.objErr = none then some ⟨s.db⟩ else none) s.db dir]
    else [.checkpointCreate s.cp s.db dir]

/-- The global record after a command. -/
def params (s : State) : Step → Params
  | (.open _, o) => { s.toParams with db := if o.err = none then some s.next else none }
  | (.close, _) => { s.toParams with db := none }
  | (.write key val, _) =>
    if s.db = none then s.toParams
    else { s.toParams with wrBatch := s.wrBatch.map (· ++ [(key, val)]) }
  | (.wbCreate, o) => { s.toParams with wrBatch := if o.null then none else some [] }
  | (.wbDestroy, o) => { s.toParams with wrBatch := if o.err = none then none else s.wrBatch }
  | (.ckpt _, o) =>
    if s.db = none then s.toParams
    else if s.cp = none ∧ o.objErr = none then { s.toParams with cp := some ⟨s.db⟩ } else s.toParams
  | _ => s.toParams

/-- The next handle after a command. -/
def nextHandle (s : State) : Step → ℕ
  | (.open _, o) => if o.err = none then s.next + 1 else s.next
  | _ => s.next

theorem list_rows (rows : List (Bytes × Bytes)) (s : State) :
    let s' := rows.foldl (fun s row => s.print .stdout (rowText (cText row.1) (cText row.2))) s
    s'.toParams = s.toParams ∧ s'.trace = s.trace ∧ s'.next = s.next := by
  induction rows generalizing s with
  | nil => exact ⟨rfl, rfl, rfl⟩
  | cons row rows ih => exact ih _

/-- One step of the session, as far as handles go. -/
theorem step_spec (s : State) (t : Step) : (step s t).toParams = params s t ∧
    (step s t).trace = s.trace ++ calls s t ∧ (step s t).next = nextHandle s t := by
  obtain ⟨⟨db, cp, wrBatch⟩, data, next, trace, out⟩ := s
  obtain ⟨c, o⟩ := t
  cases c with
  | «open» path =>
    cases herr : o.err <;>
      simp [step, exec, openDb, rocksdbOpen, herr, params, calls, nextHandle, State.call, State.print]
  | close => cases db <;> simp [step, exec, closeDb, isOpen, params, calls, nextHandle]
  | read key =>
    cases db with
    | none => simp [step, exec, handleRead, isOpen, params, calls, nextHandle]
    | some h =>
      simp only [step, exec, handleRead, isOpen, rocksdbGet, reduceCtorEq, if_false]
      split <;> simp [params, calls, nextHandle]
  | write key val =>
    cases db with
    | none => simp [step, exec, handleWrite, isOpen, params, calls, nextHandle]
    | some h =>
      cases wrBatch with
      | some b => simp [step, exec, handleWrite, isOpen, params, calls, nextHandle]
      | none =>
        cases herr : o.err <;>
          simp [step, exec, handleWrite, isOpen, rocksdbPut, herr, params, calls, nextHandle]
  | delete key =>
    cases db with
    | none => simp [step, exec, handleDelete, isOpen, params, calls, nextHandle]
    | some h =>
      cases herr : o.err <;>
        simp [step, exec, handleDelete, isOpen, rocksdbDelete, herr, params, calls, nextHandle]
  | list =>
    cases db with
    | none => simp [step, exec, handleList, isOpen, params, calls, nextHandle]
    | some h =>
      cases hnull : o.null with
      | true => simp [step, exec, handleList, isOpen, hnull, params, calls, nextHandle]
      | false => simp [step, exec, handleList, isOpen, hnull, params, calls, nextHandle, list_rows]
  | wbCreate =>
    cases hnull : o.null <;>
      simp [step, exec, createWritebatch, hnull, params, calls, nextHandle]
  | wbDestroy =>
    cases wrBatch <;> cases herr : o.err <;>
      simp [step, exec, destroyWritebatch, rocksdbWrite, herr, params, calls, nextHandle]
  | ckpt dir =>
    cases db with
    | none => simp [step, exec, handleCheckpoint, isOpen, params, calls, nextHandle]
    | some h =>
      cases cp <;> cases hobj : o.objErr <;> cases herr : o.err <;>
        simp [step, exec, handleCheckpoint, isOpen, createCheckpointObject, hobj, herr, params,
          calls, nextHandle]

/-- What one step does to the databases: it opens one, fails to, closes the one in `rocks.db`, or
    leaves them alone. -/
theorem handle_cases (s : State) (t : Step) :
    (∃ path o, t = (.open path, o) ∧ o.err = none ∧ (step s t).db = some s.next ∧
      (step s t).next = s.next + 1 ∧ (step s t).trace = s.trace ++ [.open path (some s.next)]) ∨
    (∃ path o, t = (.open path, o) ∧ o.err ≠ none ∧ (step s t).db = none ∧
      (step s t).next = s.next ∧ (step s t).trace = s.trace ++ [.open path none]) ∨
    (∃ h o, t = (.close, o) ∧ s.db = some h ∧ (step s t).db = none ∧ (step s t).next = s.next ∧
      (step s t).trace = s.trace ++ [.close (some h)]) ∨
    ((∀ path, t.1 ≠ .open path) ∧ (step s t).db = s.db ∧ (step s t).next = s.next ∧
      (step s t).trace = s.trace ++ calls s t ∧ ∀ c ∈ calls s t, Quiet lifetimes c) := by
  obtain ⟨hp, ht, hn⟩ := step_spec s t
  obtain ⟨c, o⟩ := t
  have hdb : (step s (c, o)).db = (params s (c, o)).db := congrArg Params.db hp
  rw [hdb, ht, hn]
  cases c with
  | «open» path =>
    by_cases herr : o.err = none
    · exact Or.inl ⟨path, o, by simp [herr, params, calls, nextHandle]⟩
    · exact Or.inr (Or.inl ⟨path, o, by simp [herr, params, calls, nextHandle]⟩)
  | close =>
    cases hs : s.db with
    | some h => exact Or.inr (Or.inr (Or.inl ⟨h, o, by simp [hs, params, calls, nextHandle]⟩))
    | none => exact Or.inr (Or.inr (Or.inr (by simp [hs, params, calls, nextHandle])))
  | read key =>
    exact Or.inr (Or.inr (Or.inr (by
      cases hs : s.db <;> simp [hs, params, calls, nextHandle, Quiet, lifetimes])))
  | write key val =>
    exact Or.inr (Or.inr (Or.inr (by
      cases hs : s.db <;> cases s.wrBatch <;>
        simp [hs, params, calls, nextHandle, Quiet, lifetimes])))
  | delete key =>
    exact Or.inr (Or.inr (Or.inr (by
      cases hs : s.db <;> simp [hs, params, calls, nextHandle, Quiet, lifetimes])))
  | list =>
    exact Or.inr (Or.inr (Or.inr (by
      cases hs : s.db <;> simp [hs, params, calls, nextHandle, Quiet, lifetimes])))
  | wbCreate => exact Or.inr (Or.inr (Or.inr (by simp [params, calls, nextHandle])))
  | wbDestroy =>
    exact Or.inr (Or.inr (Or.inr (by
      cases s.wrBatch <;> simp [params, calls, nextHandle, Quiet, lifetimes])))
  | ckpt dir =>
    refine Or.inr (Or.inr (Or.inr ⟨by simp, ?_, by simp [nextHandle], rfl, ?_⟩))
    · rw [params]
      split_ifs <;> rfl
    · rw [calls]
      split_ifs <;> simp [Quiet, lifetimes]

/-! ### Accounts of the session -/

/-- The handles in a trace were all returned before `n` was. -/
def Below (tr : List Call) (n : ℕ) : Prop :=
  ∀ d ∈ tr, ∀ h, lifetimes.acquires d = some h ∨ lifetimes.releases d = some h → h < n

theorem below_append {tr cs : List Call} {n m : ℕ} (h : Below tr n) (hnm : n ≤ m)
    (hcs : Below cs m) : Below (tr ++ cs) m := by
  intro d hd a ha
  rcases List.mem_append.mp hd with hd | hd
  · exact (h d hd a ha).trans_le hnm
  · exact hcs d hd a ha

theorem below_quiet {cs : List Call} (h : ∀ c ∈ cs, Quiet lifetimes c) (n : ℕ) : Below cs n := by
  intro d hd a ha
  obtain ⟨hacq, hrel⟩ := h d hd
  rw [hacq, hrel] at ha
  rcases ha with ha | ha <;> cases ha

theorem below_open (path : Bytes) (h : ℕ) : Below [.open path (some h)] (h + 1) := by
  intro d hd a ha
  cases List.mem_singleton.mp hd
  rcases ha with ha | ha
  · cases ha
    exact Nat.lt_succ_self h
  · cases ha

theorem below_close {h n : ℕ} (hlt : h < n) : Below [.close (some h)] n := by
  intro d hd a ha
  cases List.mem_singleton.mp hd
  rcases ha with ha | ha
  · cases ha
  · cases ha
    exact hlt

/-- What holds in every state: `rocks.db` is open, handles are numbered in the order they were
    returned, and the accounts of the trace are kept. -/
structure Kept (s : State) : Prop where
  own : ∀ h, s.db = some h → h ∈ alive lifetimes s.trace
  below : Below s.trace s.next
  accounts : Accounts lifetimes s.trace

theorem kept_initial : Kept State.initial where
  own h hh := by cases hh
  below d hd := by cases hd
  accounts := accounts_nil

theorem Kept.lt_next {s : State} (hk : Kept s) {h : ℕ} (hh : h ∈ alive lifetimes s.trace) :
    h < s.next := by
  obtain ⟨d, hd, hacq⟩ := hk.accounts.acquired h hh
  exact hk.below d hd h (Or.inl hacq)

theorem alive_open {tr : List Call} {path : Bytes} {h : ℕ} :
    alive lifetimes (tr ++ [.open path (some h)]) = h :: alive lifetimes tr := alive_concat ..

theorem alive_openFailed {tr : List Call} {path : Bytes} :
    alive lifetimes (tr ++ [.open path none]) = alive lifetimes tr := alive_concat ..

theorem alive_close {tr : List Call} {h : ℕ} :
    alive lifetimes (tr ++ [.close (some h)]) = (alive lifetimes tr).filter (· ≠ h) :=
  alive_concat ..

/-- A close of `rocks.db` is fair. -/
theorem Kept.close {s : State} (hk : Kept s) {h : ℕ} (hdb : s.db = some h) :
    Accounts lifetimes (s.trace ++ [.close (some h)]) := by
  refine accounts_concat hk.accounts ⟨?_, ?_, Or.inl rfl⟩
  · intro a ha
    cases ha
  · intro a ha
    cases ha
    exact hk.own h hdb

theorem kept_step {s : State} (hk : Kept s) (t : Step) : Kept (step s t) := by
  rcases handle_cases s t with ⟨path, o, -, -, hdb, hn, ht⟩ | ⟨path, o, -, -, hdb, hn, ht⟩ |
    ⟨h, o, -, hopen, hdb, hn, ht⟩ | ⟨-, hdb, hn, ht, hq⟩
  · refine ⟨?_, ?_, ?_⟩
    · intro h hh
      rw [hdb] at hh
      cases hh
      rw [ht, alive_open]
      exact List.mem_cons_self ..
    · rw [ht, hn]
      exact below_append hk.below (Nat.le_succ _) (below_open path s.next)
    · rw [ht]
      refine accounts_concat hk.accounts ⟨?_, ?_, Or.inr rfl⟩
      · intro h hh d hd
        cases hh
        exact ⟨fun hd' => lt_irrefl _ (hk.below d hd _ (Or.inl hd')),
          fun hd' => lt_irrefl _ (hk.below d hd _ (Or.inr hd'))⟩
      · intro h hh
        cases hh
  · have hq : ∀ c ∈ [Call.open path none], Quiet lifetimes c := by simp [Quiet, lifetimes]
    refine ⟨?_, ?_, ?_⟩
    · intro h hh
      rw [hdb] at hh
      cases hh
    · rw [ht, hn]
      exact below_append hk.below le_rfl (below_quiet hq _)
    · rw [ht]
      exact accounts_quiet _ _ hq hk.accounts
  · refine ⟨?_, ?_, ?_⟩
    · intro a ha
      rw [hdb] at ha
      cases ha
    · rw [ht, hn]
      exact below_append hk.below le_rfl (below_close (hk.lt_next (hk.own h hopen)))
    · rw [ht]
      exact hk.close hopen
  · refine ⟨?_, ?_, ?_⟩
    · intro h hh
      rw [ht, alive_quiet _ _ hq]
      exact hk.own h (hdb ▸ hh)
    · rw [ht, hn]
      exact below_append hk.below le_rfl (below_quiet hq _)
    · rw [ht]
      exact accounts_quiet _ _ hq hk.accounts

theorem kept_run {s : State} (hk : Kept s) : ∀ steps : List Step, Kept (run s steps) := by
  intro steps
  induction steps generalizing s with
  | nil => exact hk
  | cons t ts ih => exact ih (kept_step hk t)

/-! ### The phase is the state -/

/-- A step that changes neither `rocks.db` nor `rocks.cp` leaves the checkpoint as it was. -/
theorem Tracks.keep {φ : Phase} {s s' : State} (h : Tracks φ s) (hdb : s'.db = s.db)
    (hcp : s'.cp = s.cp) (hn : s'.next = s.next) {b : Bool} (hb : b = s'.wrBatch.isSome) :
    Tracks { φ with batch := b } s' where
  isOpen := by rw [hdb]; exact h.isOpen
  batch := hb
  cp := by
    have := h.cp
    rw [hdb, hcp, hn]
    exact this

/-- Leaving a database makes the checkpoint object stale. -/
theorem Tracks.leave {φ : Phase} {s s' : State} (h : Tracks φ s) (hk : Kept s)
    (hcp : s'.cp = s.cp) (hb : s'.wrBatch = s.wrBatch) (hn : s.next ≤ s'.next)
    (hdb : ∀ a < s.next, s'.db ≠ some a) {b : Bool} (hopen : b = s'.db.isSome) :
    Tracks { φ with isOpen := b, cp := φ.cp.leave } s' where
  isOpen := hopen
  batch := by rw [hb]; exact h.batch
  cp := by
    have hold := h.cp
    cases hφ : φ.cp with
    | none =>
      rw [hφ] at hold
      exact hcp.trans hold
    | current =>
      rw [hφ] at hold
      obtain ⟨a, ha⟩ := Option.isSome_iff_exists.mp hold.2
      have hlt : a < s.next := hk.lt_next (hk.own a ha)
      exact ⟨a, hlt.trans_le hn, by rw [hcp, hold.1, ha], hdb a hlt⟩
    | stale =>
      rw [hφ] at hold
      obtain ⟨a, hlt, ha, -⟩ := hold
      exact ⟨a, hlt.trans_le hn, hcp.trans ha, hdb a hlt⟩

theorem Tracks.cp_none {φ : Phase} {s : State} (h : Tracks φ s) : φ.cp = .none ↔ s.cp = none := by
  have hcp := h.cp
  cases hφ : φ.cp with
  | none =>
    rw [hφ] at hcp
    exact ⟨fun _ => hcp, fun _ => rfl⟩
  | current =>
    rw [hφ] at hcp
    simp [hcp.1]
  | stale =>
    rw [hφ] at hcp
    obtain ⟨a, -, ha, -⟩ := hcp
    simp [ha]

theorem Tracks.db_none {φ : Phase} {s : State} (h : Tracks φ s) : φ.isOpen = false ↔ s.db = none := by
  rw [h.isOpen, Option.isSome_eq_false_iff, Option.isNone_iff_eq_none]

/-- The first checkpoint creates the object, from the database that is open; any other leaves the
    parameters alone. -/
theorem Tracks.ckpt {φ : Phase} {s s' : State} (h : Tracks φ s) {dir : Bytes} {o : Outcome}
    (hn : s'.next = s.next) (hdb : s'.db = (params s (.ckpt dir, o)).db)
    (hcp : s'.cp = (params s (.ckpt dir, o)).cp)
    (hb : s'.wrBatch = (params s (.ckpt dir, o)).wrBatch) : Tracks (φ.advance (.ckpt dir, o)) s' := by
  rw [params] at hdb hcp hb
  by_cases hnew : φ.isOpen ∧ φ.cp = .none ∧ o.objErr = none
  · obtain ⟨hopen, hnone, hobj⟩ := hnew
    have hsome : s.db ≠ none := fun hs => by rw [h.db_none.mpr hs] at hopen; cases hopen
    rw [if_neg hsome, if_pos ⟨h.cp_none.mp hnone, hobj⟩] at hdb hcp hb
    rw [Phase.advance, if_pos ⟨hopen, hnone, hobj⟩]
    refine ⟨by rw [hdb]; exact h.isOpen, by rw [hb]; exact h.batch, ?_⟩
    exact ⟨by rw [hcp, hdb], by rw [hdb]; exact Option.isSome_iff_ne_none.mpr hsome⟩
  · have hsame : (if s.db = none then s.toParams else
        if s.cp = none ∧ o.objErr = none then { s.toParams with cp := some ⟨s.db⟩ }
        else s.toParams) = s.toParams := by
      split_ifs with hs hc
      · rfl
      · refine absurd ⟨?_, h.cp_none.mpr hc.1, hc.2⟩ hnew
        exact Bool.of_not_eq_false fun hf => hs (h.db_none.mp hf)
      · rfl
    rw [hsame] at hdb hcp hb
    rw [Phase.advance, if_neg hnew]
    exact h.keep hdb hcp hn (hb ▸ h.batch)

/-- SIMULATE: the phases follow the session. -/
theorem tracks_step {φ : Phase} {s : State} (hk : Kept s) (h : Tracks φ s) (t : Step) :
    Tracks (φ.advance t) (step s t) := by
  obtain ⟨hp, -, hn⟩ := step_spec s t
  obtain ⟨c, o⟩ := t
  have hdb : (step s (c, o)).db = (params s (c, o)).db := congrArg Params.db hp
  have hcp : (step s (c, o)).cp = (params s (c, o)).cp := congrArg Params.cp hp
  have hb : (step s (c, o)).wrBatch = (params s (c, o)).wrBatch := congrArg Params.wrBatch hp
  cases c with
  | «open» path =>
    refine h.leave hk hcp hb ?_ ?_ ?_
    · rw [hn, nextHandle]
      split <;> omega
    · intro a ha
      rw [hdb, params]
      split
      · simpa using ha.ne'
      · simp
    · rw [hdb, params]
      cases o.err <;> rfl
  | close =>
    refine h.leave hk hcp hb hn.ge ?_ ?_
    · intro a _
      rw [hdb]
      simp [params]
    · rw [hdb]
      rfl
  | read key => exact h.keep hdb hcp hn (hb ▸ h.batch)
  | delete key => exact h.keep hdb hcp hn (hb ▸ h.batch)
  | list => exact h.keep hdb hcp hn (hb ▸ h.batch)
  | write key val =>
    rw [params] at hdb hcp hb
    refine h.keep ?_ ?_ hn ?_
    · rw [hdb]; split <;> rfl
    · rw [hcp]; split <;> rfl
    · rw [hb, h.batch]; split <;> simp
  | wbCreate =>
    refine h.keep hdb hcp hn ?_
    rw [hb, params]
    cases o.null <;> rfl
  | wbDestroy =>
    refine h.keep hdb hcp hn ?_
    rw [hb, params, h.batch]
    cases o.err <;> simp
  | ckpt dir => exact h.ckpt hn hdb hcp hb

end Diversity.Rocks
