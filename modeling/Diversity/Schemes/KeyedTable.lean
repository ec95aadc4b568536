import Mathlib

/-! @scheme keyed-table | name:Tables of entries with a key | family:data-structure

    A table as its user sees it: entries are added, found by their key and deleted. What a table holds
    is a multiset, so that two entries with one key may stand in it together; `find` then returns one of
    them, and nothing says which. A user who needs the entry that was just added must know that no older
    one has its key. -/

namespace Schemes

variable {K E : Type} [DecidableEq E] {key : E → K}

/-- A table, by its operations and what they do to the entries. -/
structure KeyedTable (K E : Type) [DecidableEq E] (key : E → K) where
  Carrier : Type
  entries : Carrier → Multiset E
  empty : Carrier
  add : Carrier → E → Carrier
  find : Carrier → K → Option E
  del : Carrier → E → Carrier
  entries_empty : entries empty = 0
  entries_add : ∀ t e, entries (add t e) = e ::ₘ entries t
  find_some : ∀ {t k e}, find t k = some e → e ∈ entries t ∧ key e = k
  find_none : ∀ {t k}, find t k = none → ∀ e ∈ entries t, key e ≠ k
  entries_del : ∀ {t e}, e ∈ entries t → entries (del t e) = (entries t).erase e

namespace KeyedTable

variable (T : KeyedTable K E key)

/-- FIND: an entry whose key was not in the table is the one found. -/
theorem find_add {t : T.Carrier} {e : E} (hfresh : ∀ x ∈ T.entries t, key x ≠ key e) :
    T.find (T.add t e) (key e) = some e := by
  cases hfind : T.find (T.add t e) (key e) with
  | none =>
    have hmem : e ∈ T.entries (T.add t e) := by
      rw [T.entries_add]
      exact Multiset.mem_cons_self e _
    exact absurd rfl (T.find_none hfind e hmem)
  | some x =>
    obtain ⟨hmem, hkey⟩ := T.find_some hfind
    rw [T.entries_add, Multiset.mem_cons] at hmem
    rcases hmem with rfl | hmem
    · rfl
    · exact absurd hkey (hfresh x hmem)

/-- An entry that is added and deleted again leaves the table as it was. -/
theorem entries_del_add (t : T.Carrier) (e : E) :
    T.entries (T.del (T.add t e) e) = T.entries t := by
  have hmem : e ∈ T.entries (T.add t e) := by
    rw [T.entries_add]
    exact Multiset.mem_cons_self e _
  rw [T.entries_del hmem, T.entries_add, Multiset.erase_cons_head]

end KeyedTable

/-- A list of entries, the newest first. -/
def listTable [DecidableEq K] (key : E → K) : KeyedTable K E key where
  Carrier := List E
  entries := fun t => t
  empty := []
  add := fun t e => e :: t
  find := fun t k => t.find? fun e => key e = k
  del := fun t e => t.erase e
  entries_empty := rfl
  entries_add := fun _ _ => rfl
  find_some := by
    intro t k e hfind
    have hkey := List.find?_some hfind
    exact ⟨Multiset.mem_coe.mpr (List.mem_of_find?_eq_some hfind), of_decide_eq_true hkey⟩
  find_none := by
    intro t k hfind e hmem hkey
    have hnone := List.find?_eq_none.mp hfind e (Multiset.mem_coe.mp hmem)
    exact hnone (decide_eq_true hkey)
  entries_del := fun {t} {e} _ => (Multiset.coe_erase t e).symm

end Schemes
