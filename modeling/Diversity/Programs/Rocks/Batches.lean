import Diversity.Programs.Rocks.Datastore

/-! @src rocksdb_playground/src/datastore.c | name:Write batches | scheme:key-value | family:store

    A session that writes through batches against the one that never creates any. `handle_write`
    goes to the pending batch, `handle_delete` straight to the database, and `create_writebatch`
    drops the batch that was pending. The invariant is that committing what is pending would give
    the database of the session without batches; a delete of a pending key and the drop of a batch
    that still had something to say are the two steps that break it.

        with batches:     db, pending        commit pending db
        without:          db'                        =  db'     -/

namespace Diversity.Rocks
open Schemes KeyValue

/-- The session operations on an open database. -/
inductive Op where
  | write (key val : Bytes)
  | delete (key : Bytes)
  | create
  | destroy
  deriving DecidableEq, Repr

/-- The operation in `datastore.c`, with every call of RocksDB succeeding. -/
def Op.exec (s : State) : Op → State
  | .write key val => (handleWrite key val .success s).1
  | .delete key => (handleDelete key .success s).1
  | .create => (createWritebatch .success s).1
  | .destroy => (destroyWritebatch .success s).1

def runBatch (s : State) (ops : List Op) : State := ops.foldl Op.exec s

/-- Only the writes and deletes. -/
def plain (ops : List Op) : List Op :=
  ops.filter fun
    | .write _ _ | .delete _ => true
    | _ => false

/-- What the batch holds, if one is pending. -/
def pending (s : State) : List (Bytes × Bytes) := s.wrBatch.getD []

/-- The step does not go wrong: no delete of a key that the pending batch puts, no new batch over a
    pending one that would still change the database. -/
def Transparent (h : ℕ) (s : State) : Op → Prop
  | .delete key => key ∉ (pending s).map Prod.fst
  | .create => commit (pending s) (s.data h) = s.data h
  | _ => True

/-- Every step of the run is such a step. -/
def AllTransparent (h : ℕ) : State → List Op → Prop
  | _, [] => True
  | s, op :: ops => Transparent h s op ∧ AllTransparent h (op.exec s) ops

/-! ### One operation -/

variable {h : ℕ} {s t : State}

theorem rocksdbUpdate_data (c : Call) (f : Store Bytes Bytes → Store Bytes Bytes) (s : State) :
    (rocksdbUpdate c (some h) f .success s).data h = f (s.data h) := by
  simp [rocksdbUpdate, Outcome.success, State.update]

theorem exec_write_batch (hdb : s.db = some h) {b : List (Bytes × Bytes)} (hb : s.wrBatch = some b)
    (key val : Bytes) : ((Op.write key val).exec s).db = some h ∧
      ((Op.write key val).exec s).wrBatch = some (b ++ [(key, val)]) ∧
      ((Op.write key val).exec s).data h = s.data h := by
  simp [Op.exec, handleWrite, isOpen, hdb, hb]

theorem exec_write_plain (hdb : s.db = some h) (hb : s.wrBatch = none) (key val : Bytes) :
    ((Op.write key val).exec s).db = some h ∧ ((Op.write key val).exec s).wrBatch = none ∧
      ((Op.write key val).exec s).data h = put (s.data h) key val := by
  have hexec : ((Op.write key val).exec s) = (rocksdbPut (some h) key val .success s).print .stdout
      ("Write <" ++ cText key ++ "," ++ cText val ++ "> OK\n") := by
    simp [Op.exec, handleWrite, isOpen, hdb, hb, Outcome.success]
  rw [hexec]
  exact ⟨by simp [rocksdbPut, hdb], by simp [rocksdbPut, hb],
    rocksdbUpdate_data (.put (some h) key val) (put · key val) s⟩

theorem exec_delete (hdb : s.db = some h) (key : Bytes) :
    ((Op.delete key).exec s).db = some h ∧ ((Op.delete key).exec s).wrBatch = s.wrBatch ∧
      ((Op.delete key).exec s).data h = KeyValue.delete (s.data h) key := by
  have hexec : ((Op.delete key).exec s) = (rocksdbDelete (some h) key .success s).print .stdout
      ("Deleted key " ++ cText key ++ "\n") := by
    simp [Op.exec, handleDelete, isOpen, hdb, Outcome.success]
  rw [hexec]
  exact ⟨by simp [rocksdbDelete, hdb], by simp [rocksdbDelete],
    rocksdbUpdate_data (.delete (some h) key) (KeyValue.delete · key) s⟩

theorem exec_create (s : State) : (Op.create.exec s).db = s.db ∧
    (Op.create.exec s).wrBatch = some [] ∧ (Op.create.exec s).data = s.data := ⟨rfl, rfl, rfl⟩

theorem exec_destroy (hdb : s.db = some h) : (Op.destroy.exec s).db = some h ∧
    (Op.destroy.exec s).wrBatch = none ∧
    (Op.destroy.exec s).data h = commit (pending s) (s.data h) := by
  cases hb : s.wrBatch with
  | none => simp [Op.exec, destroyWritebatch, hb, hdb, pending]
  | some b =>
    have hexec : Op.destroy.exec s =
        { rocksdbWrite (some h) b .success s with wrBatch := none } := by
      simp [Op.exec, destroyWritebatch, hb, hdb, Outcome.success]
    rw [hexec, pending, hb]
    exact ⟨by simp [rocksdbWrite, hdb], rfl, rocksdbUpdate_data ..⟩

/-! ### The two sessions -/

/-- `s` writes through batches, `t` does not; committing what is pending in `s` gives the database
    of `t`. -/
structure Ahead (h : ℕ) (s t : State) : Prop where
  db : s.db = some h
  db' : t.db = some h
  batch' : t.wrBatch = none
  data : commit (pending s) (s.data h) = t.data h

theorem ahead_self (hdb : s.db = some h) (hb : s.wrBatch = none) : Ahead h s s where
  db := hdb
  db' := hdb
  batch' := hb
  data := by simp [pending, hb]

/-- One operation in both sessions; the one without batches skips `create` and `destroy`. -/
theorem ahead_step (ha : Ahead h s t) (op : Op) (hop : Transparent h s op) :
    Ahead h (op.exec s) (runBatch t (plain [op])) := by
  cases op with
  | write key val =>
    obtain ⟨hdb', hb', hdata'⟩ := exec_write_plain ha.db' ha.batch' key val
    cases hb : s.wrBatch with
    | none =>
      obtain ⟨hdb, hb₁, hdata⟩ := exec_write_plain ha.db hb key val
      refine ⟨hdb, hdb', hb', ?_⟩
      have hd := ha.data
      rw [pending, hb] at hd
      rw [pending, hb₁, hdata]
      exact (congrArg (put · key val) hd).trans hdata'.symm
    | some b =>
      obtain ⟨hdb, hb₁, hdata⟩ := exec_write_batch ha.db hb key val
      refine ⟨hdb, hdb', hb', ?_⟩
      have hd := ha.data
      rw [pending, hb] at hd
      rw [pending, hb₁, hdata, Option.getD_some, commit_concat]
      exact (congrArg (put · key val) hd).trans hdata'.symm
  | delete key =>
    obtain ⟨hdb, hb, hdata⟩ := exec_delete ha.db key
    obtain ⟨hdb', hb', hdata'⟩ := exec_delete ha.db' key
    refine ⟨hdb, hdb', hb'.trans ha.batch', ?_⟩
    rw [pending, hb, hdata, ← pending, commit_delete hop, ha.data]
    exact hdata'.symm
  | create =>
    obtain ⟨hdb, hb, hdata⟩ := exec_create s
    refine ⟨hdb.trans ha.db, ha.db', ha.batch', ?_⟩
    rw [pending, hb, hdata, Option.getD_some, commit_nil, ← hop]
    exact ha.data
  | destroy =>
    obtain ⟨hdb, hb, hdata⟩ := exec_destroy ha.db
    refine ⟨hdb, ha.db', ha.batch', ?_⟩
    rw [pending, hb, hdata]
    exact ha.data

/-- The other two steps do break it. -/
theorem transparent_of_ahead (ha : Ahead h s t) (op : Op)
    (ha' : Ahead h (op.exec s) (runBatch t (plain [op]))) : Transparent h s op := by
  cases op with
  | write key val => trivial
  | delete key =>
    obtain ⟨-, hb, hdata⟩ := exec_delete ha.db key
    obtain ⟨-, -, hdata'⟩ := exec_delete ha.db' key
    intro hmem
    have hd := ha'.data
    rw [pending, hb, hdata, ← pending] at hd
    refine commit_delete_ne hmem (s.data h) (hd.trans ?_)
    rw [ha.data]
    exact hdata'
  | create =>
    obtain ⟨-, hb, hdata⟩ := exec_create s
    have hd := ha'.data
    rw [pending, hb, hdata, Option.getD_some, commit_nil] at hd
    exact ha.data.trans hd.symm
  | destroy => trivial

/-! ### Whole runs -/

theorem runBatch_concat (s : State) (ops : List Op) (op : Op) :
    runBatch s (ops ++ [op]) = op.exec (runBatch s ops) := by
  rw [runBatch, List.foldl_append]
  rfl

theorem runBatch_plain_cons (t : State) (op : Op) (ops : List Op) :
    runBatch t (plain (op :: ops)) = runBatch (runBatch t (plain [op])) (plain ops) := by
  rw [runBatch, runBatch, runBatch, ← List.foldl_append]
  congr 1
  cases op <;> rfl

theorem ahead_run (ha : Ahead h s t) {ops : List Op} (hops : AllTransparent h s ops) :
    Ahead h (runBatch s ops) (runBatch t (plain ops)) := by
  induction ops generalizing s t with
  | nil => exact ha
  | cons op ops ih =>
    rw [runBatch_plain_cons]
    exact ih (ahead_step ha op hops.1) hops.2

theorem allTransparent_of_init {pre ops : List Op} (hpre : pre <+: ops)
    (hops : AllTransparent h s ops) : AllTransparent h s pre := by
  obtain ⟨post, rfl⟩ := hpre
  induction pre generalizing s with
  | nil => trivial
  | cons op pre ih => exact ⟨hops.1, ih hops.2⟩

/-- Every operation works on the database that is open. -/
theorem exec_db (hdb : s.db = some h) (op : Op) : (op.exec s).db = some h := by
  cases op with
  | write key val =>
    cases hb : s.wrBatch with
    | none => exact (exec_write_plain hdb hb key val).1
    | some b => exact (exec_write_batch hdb hb key val).1
  | delete key => exact (exec_delete hdb key).1
  | create => exact (exec_create s).1.trans hdb
  | destroy => exact (exec_destroy hdb).1

theorem runBatch_db (hdb : s.db = some h) (ops : List Op) : (runBatch s ops).db = some h := by
  induction ops generalizing s with
  | nil => exact hdb
  | cons op ops ih => exact ih (exec_db hdb op)

/-- Without `create` no batch ever is pending. -/
theorem plain_batch (hdb : t.db = some h) (hb : t.wrBatch = none) (op : Op) :
    (runBatch t (plain [op])).wrBatch = none := by
  cases op with
  | write key val => exact (exec_write_plain hdb hb key val).2.1
  | delete key => exact (exec_delete hdb key).2.1.trans hb
  | create => exact hb
  | destroy => exact hb

/-- Committing after a run gives what is still pending in it. -/
theorem data_destroy (hdb : s.db = some h) (ops : List Op) :
    (runBatch s (ops ++ [.destroy])).data h =
      commit (pending (runBatch s ops)) ((runBatch s ops).data h) := by
  rw [runBatch_concat]
  exact (exec_destroy (runBatch_db hdb ops)).2.2

/-- A run that is not transparent at some step shows it in a commit right after that step. -/
theorem allTransparent_of_data (ha : Ahead h s t) {ops : List Op}
    (hdata : ∀ pre, pre <+: ops →
      (runBatch s (pre ++ [.destroy])).data h = (runBatch t (plain pre)).data h) :
    AllTransparent h s ops := by
  induction ops generalizing s t with
  | nil => trivial
  | cons op ops ih =>
    have ha' : Ahead h (op.exec s) (runBatch t (plain [op])) := by
      refine ⟨exec_db ha.db op, runBatch_db ha.db' _, plain_batch ha.db' ha.batch' op, ?_⟩
      have hone := hdata [op] (by simp)
      rwa [data_destroy ha.db] at hone
    refine ⟨transparent_of_ahead ha op ha', ih ha' fun pre hpre => ?_⟩
    have hmore := hdata (op :: pre) (List.cons_prefix_cons.mpr ⟨rfl, hpre⟩)
    rwa [runBatch_plain_cons] at hmore

/-- CORRECT: in a run that deletes no key pending in the batch and drops no batch that would still
    change the database, every state with no batch pending has the contents of the run without
    batches. These are the only runs that stay equal to it when the batch is committed after any
    of their operations. -/
theorem batches_transparent (hdb : s.db = some h) (hb : s.wrBatch = none) (ops : List Op) :
    (AllTransparent h s ops → ∀ pre, pre <+: ops → (runBatch s pre).wrBatch = none →
      (runBatch s pre).data h = (runBatch s (plain pre)).data h) ∧
    (AllTransparent h s ops ↔ ∀ pre, pre <+: ops →
      (runBatch s (pre ++ [.destroy])).data h = (runBatch s (plain pre)).data h) := by
  have hself := ahead_self hdb hb
  refine ⟨?_, ?_, allTransparent_of_data hself⟩
  · intro hops pre hpre hnone
    have hd := (ahead_run hself (allTransparent_of_init hpre hops)).data
    rwa [pending, hnone] at hd
  · intro hops pre hpre
    rw [data_destroy hdb]
    exact (ahead_run hself (allTransparent_of_init hpre hops)).data

/-- An open, empty database. -/
def opened : State := (openDb [97] .success State.initial).1

/-- Overwriting and deleting around a batch that puts another key. -/
theorem batches_transparent_run :
    (runBatch opened [.write [1] [5], .create, .write [2] [6], .delete [1], .write [2] [7],
      .destroy]).data 0 = (runBatch opened [.write [1] [5], .write [2] [6], .delete [1],
      .write [2] [7]]).data 0 :=
  (batches_transparent (s := opened) (h := 0) rfl rfl [.write [1] [5], .create, .write [2] [6],
    .delete [1], .write [2] [7], .destroy]).1
    ⟨trivial, rfl, trivial, (by decide : ([1] : Bytes) ∉ [[2]]), trivial, trivial, trivial⟩
    _ (List.prefix_refl _) rfl

/-- A key deleted after it was written comes back with the batch; a second `create_writebatch` loses
    the writes of the first. -/
theorem batches_transparent_fails :
    ((runBatch opened [.create, .write [1] [5], .delete [1], .destroy]).wrBatch = none ∧
      (runBatch opened [.create, .write [1] [5], .delete [1], .destroy]).data 0 [1] = some [5] ∧
      (runBatch opened (plain [.create, .write [1] [5], .delete [1], .destroy])).data 0 [1] = none) ∧
    ((runBatch opened [.create, .write [1] [5], .create, .destroy]).wrBatch = none ∧
      (runBatch opened [.create, .write [1] [5], .create, .destroy]).data 0 [1] = none ∧
      (runBatch opened (plain [.create, .write [1] [5], .create, .destroy])).data 0 [1] =
        some [5]) := by
  decide

end Diversity.Rocks
