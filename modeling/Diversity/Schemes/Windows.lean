import Diversity.Schemes.Machine

/-! @scheme windows | name:Searching a sorted array | family:array

    A search keeps a window `low .. high` with what is smaller before it and what is greater behind it:

        a:   < x … | low … high | … > x

    A cell that is looked at and holds something smaller moves `low` behind it, something greater moves
    `high` before it. When the window is empty, `x` is not there. -/

namespace Schemes.Windows

universe u

variable {α : Type u}

/-- A cell that could be read is one of the array. -/
theorem exists_of_load {a : List α} {i : ℤ} {x : α} (h : load a i = .ok x) :
    ∃ k : ℕ, i = k ∧ a[k]? = some x := by
  have hi : 0 ≤ i := by
    by_contra hneg
    rw [load, if_neg hneg] at h
    cases h
  refine ⟨i.toNat, (Int.toNat_of_nonneg hi).symm, ?_⟩
  rw [← load_eq_ok, Int.toNat_of_nonneg hi]
  exact h

/-- The answer of a search: an index that holds `x`, or -1 if there is none. -/
def Locates (a : List α) (x : α) (r : ℤ) : Prop := (r = -1 ∧ x ∉ a) ∨ ∃ i : ℕ, r = i ∧ a[i]? = some x

theorem Locates.eq_neg_one_iff {a : List α} {x : α} {r : ℤ} (h : Locates a x r) : r = -1 ↔ x ∉ a := by
  rcases h with ⟨hr, hx⟩ | ⟨i, rfl, hi⟩
  · exact iff_of_true hr hx
  · exact iff_of_false (by omega) fun hx => hx (List.mem_of_getElem? hi)

section Order

variable [LinearOrder α] {a : List α} {x y z : α} {i j m : ℕ} {low high : ℤ}

theorem le_of_sorted (hsorted : a.Pairwise (· ≤ ·)) (hij : i ≤ j) (hi : a[i]? = some y)
    (hj : a[j]? = some z) : y ≤ z := by
  rcases hij.eq_or_lt with rfl | hlt
  · rw [hi] at hj
    exact (Option.some.inj hj).le
  · obtain ⟨hi', rfl⟩ := List.getElem?_eq_some_iff.mp hi
    obtain ⟨hj', rfl⟩ := List.getElem?_eq_some_iff.mp hj
    exact List.pairwise_iff_getElem.mp hsorted i j hi' hj' hlt

/-- What is before the window is smaller than `x`, and what is behind it is greater. -/
structure Within (a : List α) (x : α) (low high : ℤ) : Prop where
  below : ∀ (i : ℕ) y, a[i]? = some y → (i : ℤ) < low → y < x
  above : ∀ (i : ℕ) y, a[i]? = some y → high < i → x < y

theorem within_all (a : List α) (x : α) : Within a x 0 (a.length - 1) where
  below i y _ hi := by omega
  above i y hy hi := by
    have hlt := (List.getElem?_eq_some_iff.mp hy).1
    omega

/-- A smaller cell moves `low`. -/
theorem Within.raise (h : Within a x low high) (hsorted : a.Pairwise (· ≤ ·)) (hm : a[m]? = some y)
    (hy : y < x) : Within a x (m + 1) high where
  below i z hz hi := (le_of_sorted hsorted (by omega) hz hm).trans_lt hy
  above := h.above

/-- A greater one moves `high`. -/
theorem Within.lower (h : Within a x low high) (hsorted : a.Pairwise (· ≤ ·)) (hm : a[m]? = some y)
    (hy : x < y) : Within a x low (m - 1) where
  below := h.below
  above i z hz hi := hy.trans_le (le_of_sorted hsorted (by omega) hm hz)

/-- An empty window has looked everywhere. -/
theorem Within.not_mem (h : Within a x low high) (hempty : high < low) : x ∉ a := by
  intro hx
  obtain ⟨i, hi⟩ := List.mem_iff_getElem?.mp hx
  rcases lt_or_ge (i : ℤ) low with hlt | hge
  · exact lt_irrefl x (h.below i x hi hlt)
  · exact lt_irrefl x (h.above i x hi (by omega))

end Order

/-- Integers in strict order lie as far apart as their places, at least. -/
theorem sub_le_of_strict {a : List ℤ} (hstrict : a.Pairwise (· < ·)) {i : ℕ} {y : ℤ}
    (hi : a[i]? = some y) : ∀ (d : ℕ) {z : ℤ}, a[i + d]? = some z → (d : ℤ) ≤ z - y
  | 0, z, hz => by
    obtain rfl : y = z := Option.some.inj (hi.symm.trans hz)
    simp
  | d + 1, z, hz => by
    obtain ⟨hlt, rfl⟩ := List.getElem?_eq_some_iff.mp hz
    have hprev : a[i + d]? = some a[i + d] := List.getElem?_eq_getElem (by omega)
    have ih := sub_le_of_strict hstrict hi d hprev
    have hnext := List.pairwise_iff_getElem.mp hstrict (i + d) (i + (d + 1)) (by omega) hlt (by omega)
    push_cast
    omega

end Schemes.Windows
