import Diversity.Programs.Rocks.Datastore

/-! @src rocksdb_playground/src/datastore.c (create_writebatch, handle_write, destroy_writebatch) |
    name:Retried commits | scheme:key-value | family:store

    A batch whose commit fails any number of times. `destroy_writebatch` returns before it destroys
    the batch when `rocksdb_write` sets `err`, so that the batch stays pending and later writes are
    added to it. Along such a run the database is the one at the start and the batch is the list of
    the writes so far, and the commit that succeeds at last applies all of them, in order, once.

        create   write k v   destroy (fails)   write k' v'   …   destroy
        []       [(k, v)]    [(k, v)]          [(k, v), (k', v')]     commit      -/

namespace Diversity.Rocks
open Schemes KeyValue

/-- A write, or a commit that fails. -/
def Retried : Step → Prop
  | (.write _ _, _) => True
  | (.wbDestroy, o) => o.err ≠ none
  | _ => False

/-- The pairs that a run writes, in order. -/
def written (steps : List Step) : List (Bytes × Bytes) :=
  steps.filterMap fun
    | (.write key val, _) => some (key, val)
    | _ => none

/-- Between `create_writebatch` and the commit that succeeds: `s₀` is the state at the start and
    `b` what has been written since. -/
structure Holding (h : ℕ) (s₀ : State) (b : List (Bytes × Bytes)) (s : State) : Prop where
  db : s.db = some h
  batch : s.wrBatch = some b
  data : s.data = s₀.data

variable {h : ℕ} {s s₀ : State} {b : List (Bytes × Bytes)} {o : Outcome}

theorem createWritebatch_holding (hdb : s.db = some h) (ho : o.null = false) :
    (exec o s .wbCreate).2 = 0 ∧ Holding h s [] (exec o s .wbCreate).1 := by
  have hexec : exec o s .wbCreate = ({ s with wrBatch := some [] }, 0) := by
    rw [exec, createWritebatch, ho]
    rfl
  rw [hexec]
  exact ⟨rfl, hdb, rfl, rfl⟩

theorem handleWrite_holding (hs : Holding h s₀ b s) (key val : Bytes) (o : Outcome) :
    (exec o s (.write key val)).2 = 0 ∧
      Holding h s₀ (b ++ [(key, val)]) (exec o s (.write key val)).1 := by
  have hexec : exec o s (.write key val) = ({ s with wrBatch := some (b ++ [(key, val)]) }, 0) := by
    simp [exec, handleWrite, isOpen, hs.db, hs.batch]
  rw [hexec]
  exact ⟨rfl, hs.db, rfl, hs.data⟩

/-- A commit that fails leaves database and batch as they are. -/
theorem destroyWritebatch_fails (hs : Holding h s₀ b s) (ho : o.err ≠ none) :
    (exec o s .wbDestroy).2 = -1 ∧ Holding h s₀ b (exec o s .wbDestroy).1 := by
  obtain ⟨err, herr⟩ := Option.ne_none_iff_exists'.mp ho
  have hwrite : rocksdbWrite s.db b o s = s.call (.write s.db b) := by
    rw [rocksdbWrite, rocksdbUpdate, if_neg ho]
  have hexec : exec o s .wbDestroy =
      ((s.call (.write s.db b)).print .stdout ("WriteBatch Error: " ++ err ++ "\n"), -1) := by
    rw [exec, destroyWritebatch, hs.batch, herr]
    simp only [hwrite]
  rw [hexec]
  exact ⟨rfl, hs.db, hs.batch, hs.data⟩

/-- A commit that succeeds applies the batch to its database and to no other. -/
theorem destroyWritebatch_commits (hs : Holding h s₀ b s) (ho : o.err = none) :
    (exec o s .wbDestroy).2 = 0 ∧ (exec o s .wbDestroy).1.wrBatch = none ∧
      (exec o s .wbDestroy).1.data = Function.update s₀.data h (commit b (s₀.data h)) := by
  have hexec : exec o s .wbDestroy = ({ rocksdbWrite s.db b o s with wrBatch := none }, 0) := by
    rw [exec, destroyWritebatch, hs.batch, ho]
  have hdata : (rocksdbWrite s.db b o s).data = Function.update s.data h (commit b (s.data h)) := by
    rw [rocksdbWrite, rocksdbUpdate, if_pos ho, hs.db]
    rfl
  rw [hexec]
  exact ⟨rfl, rfl, by rw [hdata, hs.data]⟩

/-! ### Runs -/

theorem run_concat (s : State) (steps : List Step) (t : Step) :
    run s (steps ++ [t]) = (exec t.2 (run s steps) t.1).1 := by
  rw [run, List.foldl_append]
  rfl

theorem written_concat (steps : List Step) (t : Step) :
    written (steps ++ [t]) = written steps ++ written [t] := by
  rw [written, List.filterMap_append]
  rfl

/-- Along the run the batch is what was written and the database is as at the start. -/
theorem run_holding (hs : Holding h s₀ [] s) {steps : List Step} (hsteps : ∀ t ∈ steps, Retried t) :
    Holding h s₀ (written steps) (run s steps) := by
  induction steps using List.reverseRecOn with
  | nil => exact hs
  | append_singleton steps t ih =>
    have ih := ih fun u hu => hsteps u (List.mem_append_left _ hu)
    have ht := hsteps t (List.mem_append_right _ (List.mem_singleton_self t))
    rw [run_concat, written_concat]
    obtain ⟨c, o⟩ := t
    cases c with
    | write key val => exact (handleWrite_holding ih key val o).2
    | wbDestroy =>
      have hnil : written [(Command.wbDestroy, o)] = [] := rfl
      rw [hnil, List.append_nil]
      exact (destroyWritebatch_fails ih ht).2
    | _ => exact ht.elim

/-- CORRECT: after a successful `create_writebatch` every failing `destroy_writebatch` returns -1 and
    leaves the databases and the pending batch as they were, and the one that succeeds leaves the
    database with all the writes of the run applied in order to what it held at the start, the other
    databases alone and no batch pending. -/
theorem failed_commits_retried (s : State) (h : ℕ) (hdb : s.db = some h) (o₀ oₙ : Outcome)
    (h₀ : o₀.null = false) (hₙ : oₙ.err = none) (steps : List Step)
    (hsteps : ∀ t ∈ steps, Retried t) :
    (exec o₀ s .wbCreate).2 = 0 ∧
    (∀ pre o, pre ++ [(.wbDestroy, o)] <+: steps →
      (exec o (run s ((.wbCreate, o₀) :: pre)) .wbDestroy).2 = -1 ∧
      (run s ((.wbCreate, o₀) :: pre ++ [(.wbDestroy, o)])).data =
        (run s ((.wbCreate, o₀) :: pre)).data ∧
      (run s ((.wbCreate, o₀) :: pre ++ [(.wbDestroy, o)])).wrBatch =
        (run s ((.wbCreate, o₀) :: pre)).wrBatch) ∧
    (exec oₙ (run s ((.wbCreate, o₀) :: steps)) .wbDestroy).2 = 0 ∧
    (run s ((.wbCreate, o₀) :: steps ++ [(.wbDestroy, oₙ)])).data =
      Function.update s.data h (commit (written steps) (s.data h)) ∧
    (run s ((.wbCreate, o₀) :: steps ++ [(.wbDestroy, oₙ)])).wrBatch = none := by
  obtain ⟨hret, hstart⟩ := createWritebatch_holding hdb h₀
  have hrun : ∀ pre, (∀ t ∈ pre, Retried t) →
      Holding h s (written pre) (run s ((.wbCreate, o₀) :: pre)) := fun pre hpre =>
    run_holding hstart hpre
  refine ⟨hret, fun pre o hpre => ?_, ?_⟩
  · obtain ⟨post, rfl⟩ := hpre
    have hpre : Holding h s (written pre) (run s ((.wbCreate, o₀) :: pre)) :=
      hrun pre fun t ht => hsteps t (by simp [ht])
    have ho : Retried (.wbDestroy, o) := hsteps _ (by simp)
    obtain ⟨hfail, hafter⟩ := destroyWritebatch_fails hpre ho
    refine ⟨hfail, ?_, ?_⟩
    · rw [run_concat]
      exact hafter.data.trans hpre.data.symm
    · rw [run_concat]
      exact hafter.batch.trans hpre.batch.symm
  · obtain ⟨hok, hbatch, hdata⟩ := destroyWritebatch_commits (hrun steps hsteps) hₙ
    refine ⟨hok, ?_, ?_⟩
    · rw [run_concat]
      exact hdata
    · rw [run_concat]
      exact hbatch

/-- Two writes of a key around a commit that fails. -/
theorem failed_commits_retried_once :
    (run { State.initial with db := some 0 } ((.wbCreate, .success) ::
      [(.write [1] [5], .success), (.wbDestroy, { Outcome.success with err := some "IO error" }),
        (.write [1] [6], .success)] ++ [(.wbDestroy, .success)])).data 0 [1] = some [6] := by
  rw [(failed_commits_retried { State.initial with db := some 0 } 0 rfl .success .success rfl rfl
    [(.write [1] [5], .success), (.wbDestroy, { Outcome.success with err := some "IO error" }),
      (.write [1] [6], .success)] (by simp [Retried])).2.2.2.1]
  rfl

end Diversity.Rocks
