import Mathlib

/-! @scheme key-value | name:Key-value stores and write batches | family:data-structure

    A store is a map from keys to values; a write batch is a list of puts that is applied in order.
    A delete may be moved over the application of a batch exactly when the batch does not put its
    key, and that is all there is to know about interleaving the two. -/

namespace Schemes.KeyValue

universe u v

variable {K : Type u} {V : Type v} [DecidableEq K]

abbrev Store (K : Type u) (V : Type v) := K → Option V

def put (s : Store K V) (k : K) (v : V) : Store K V := Function.update s k (some v)

def delete (s : Store K V) (k : K) : Store K V := Function.update s k none

/-- Apply a batch, in order. -/
def commit (b : List (K × V)) (s : Store K V) : Store K V := b.foldl (fun s p => put s p.1 p.2) s

@[simp] theorem commit_nil (s : Store K V) : commit [] s = s := rfl

theorem commit_concat (b : List (K × V)) (k : K) (v : V) (s : Store K V) :
    commit (b ++ [(k, v)]) s = put (commit b s) k v := by
  rw [commit, List.foldl_append]
  rfl

/-- A delete of another key commutes with a put. -/
theorem put_delete {k k' : K} (h : k ≠ k') (v : V) (s : Store K V) :
    put (delete s k') k v = delete (put s k v) k' := by
  rw [put, delete, delete, put, Function.update_comm h]

/-- A delete of a key that the batch does not put commutes with the batch. -/
theorem commit_delete {k : K} : ∀ {b : List (K × V)}, k ∉ b.map Prod.fst → ∀ s : Store K V,
    commit b (delete s k) = delete (commit b s) k
  | [], _, _ => rfl
  | (k', v) :: b, h, s => by
    rw [List.map_cons, List.mem_cons, not_or] at h
    have ih := commit_delete h.2 (put s k' v)
    rw [← put_delete (Ne.symm h.1)] at ih
    exact ih

/-- A key that the batch puts is there afterwards. -/
theorem commit_isSome {k : K} : ∀ {b : List (K × V)} {s : Store K V},
    (k ∈ b.map Prod.fst ∨ (s k).isSome) → (commit b s k).isSome
  | [], _, h => by
    rcases h with h | h
    · cases h
    · exact h
  | (k', v) :: b, s, h => by
    refine commit_isSome (b := b) (s := put s k' v) ?_
    by_cases hk : k = k'
    · right
      rw [put, hk, Function.update_self]
      rfl
    · rcases h with h | h
      · rw [List.map_cons, List.mem_cons] at h
        exact Or.inl (h.resolve_left hk)
      · right
        rw [put, Function.update_of_ne hk]
        exact h

/-- A delete of a key that the batch does put is undone by it. -/
theorem commit_delete_ne {k : K} {b : List (K × V)} (h : k ∈ b.map Prod.fst) (s : Store K V) :
    commit b (delete s k) ≠ delete (commit b s) k := by
  intro he
  have hsome := commit_isSome (Or.inl h : k ∈ b.map Prod.fst ∨ (delete s k k).isSome)
  rw [he, delete, Function.update_self] at hsome
  cases hsome

end Schemes.KeyValue
