import Diversity.Schemes.Ranges
import Diversity.Schemes.Windows

/-! @scheme prefixes | name:Sorting the front of an array by exchanges | family:array

    A sort of the first `n` cells that only exchanges cells keeps the elements, so what is left is the
    order. Two invariants, the first for sorts that put the least of the rest in front, the second for
    those that move one element down into what is in order already:

        Placed a n i:      a[0] ≤ … ≤ a[i-1] ≤ everything in  i … n-1
        OrderedBut a h i:  0 … h-1 and h … i-1 in order, and a[h-1] ≤ a[h+1]; only a[h] may be too small -/

namespace Schemes

universe u

variable {α : Type u}

/-! ### The same elements -/

/-- `a'` has the elements of `a`, and behind the first `n` cells they are where they were. -/
structure Rearranged (n : ℕ) (a a' : List α) : Prop where
  perm : a'.Perm a
  rest : a'.drop n = a.drop n

theorem Rearranged.refl (n : ℕ) (a : List α) : Rearranged n a a := ⟨List.Perm.refl a, rfl⟩

theorem Rearranged.trans {n : ℕ} {a b c : List α} (h : Rearranged n a b) (h' : Rearranged n b c) :
    Rearranged n a c := ⟨h'.perm.trans h.perm, h'.rest.trans h.rest⟩

theorem Rearranged.length {n : ℕ} {a a' : List α} (h : Rearranged n a a') : a'.length = a.length :=
  h.perm.length_eq

/-- `a'` is `a` with two cells exchanged. -/
def Exchanged (a a' : List α) (i j : ℕ) : Prop :=
  ∀ k, a'[k]? = if k = i then a[j]? else if k = j then a[i]? else a[k]?

theorem Exchanged.symm {a a' : List α} {i j : ℕ} (h : Exchanged a a' i j) : Exchanged a a' j i := by
  intro k
  rw [h k]
  grind

/-- Two cells set to each other's content. -/
theorem exchanged_set {a : List α} {i j : ℕ} (hi : i < a.length) (hj : j < a.length) :
    Exchanged a ((a.set i a[j]).set j a[i]) i j := by
  intro k
  grind

theorem rearranged_set {a : List α} {n i j : ℕ} (hi : i < a.length) (hj : j < a.length) (hin : i < n)
    (hjn : j < n) : Rearranged n a ((a.set i a[j]).set j a[i]) where
  perm := List.set_set_perm hi hj
  rest := by rw [List.drop_set_of_lt hjn, List.drop_set_of_lt hin]

/-- An exchange within the first `n` cells. -/
theorem exchange_rearranges {a : List α} {n i j : ℕ} (hn : n ≤ a.length) (hi : i < n) (hj : j < n) :
    ∃ a', exchange a i j = .ok a' ∧ Rearranged n a a' ∧ Exchanged a a' i j :=
  ⟨_, exchange_of_lt (by omega) (by omega), rearranged_set (by omega) (by omega) hi hj,
    exchanged_set (by omega) (by omega)⟩

section Order

variable [LinearOrder α] {a a' : List α} {n i j : ℕ}

/-- There is one way to put the first cells in order. -/
theorem Rearranged.eq_inOrder {m s : List α} (h : Rearranged m.length (m ++ s) a')
    (hsorted : (a'.take m.length).Pairwise (· ≤ ·)) : a' = inOrder m ++ s := by
  have hrest : a'.drop m.length = s := by rw [h.rest, List.drop_left]
  have hperm : (a'.take m.length).Perm m := by
    have hall := h.perm
    rw [← List.take_append_drop m.length a', hrest] at hall
    exact (List.perm_append_right_iff s).mp hall
  rw [← Schemes.eq_inOrder hperm hsorted, ← hrest, List.take_append_drop]

theorem sorted_take (h : ∀ j k x y, j < k → k < n → a[j]? = some x → a[k]? = some y → x ≤ y) :
    (a.take n).Pairwise (· ≤ ·) := by
  rw [List.pairwise_iff_getElem]
  intro j k hj hk hjk
  rw [List.length_take] at hj hk
  rw [List.getElem_take, List.getElem_take]
  exact h j k _ _ hjk (by omega) (List.getElem?_eq_getElem (by omega))
    (List.getElem?_eq_getElem (by omega))

/-! ### The least in front -/

/-- Each of the first `i` cells is at most every cell behind it, among the first `n`. -/
def Placed (a : List α) (n i : ℕ) : Prop :=
  ∀ j k x y, j < i → j ≤ k → k < n → a[j]? = some x → a[k]? = some y → x ≤ y

/-- Cell `m` is at most every cell `lo ≤ k < hi`. -/
def Least (a : List α) (m lo hi : ℕ) : Prop :=
  ∀ k x y, lo ≤ k → k < hi → a[m]? = some x → a[k]? = some y → x ≤ y

theorem placed_zero (a : List α) (n : ℕ) : Placed a n 0 := fun j _ _ _ hj => absurd hj (Nat.not_lt_zero j)

theorem least_self (a : List α) (i : ℕ) : Least a i i (i + 1) := by
  intro k x y hk hk' hx hy
  obtain rfl : k = i := by omega
  rw [hx] at hy
  exact (Option.some.inj hy).le

theorem Placed.succ (h : Placed a n i) (hleast : Least a i i n) : Placed a n (i + 1) := by
  intro j k x y hj hjk hk hx hy
  rcases Nat.lt_succ_iff_lt_or_eq.mp hj with hlt | rfl
  · exact h j k x y hlt hjk hk hx hy
  · exact hleast k x y hjk hk hx hy

/-- When all but one are placed, the cells are in order. -/
theorem Placed.sorted (h : Placed a n i) (hi : n ≤ i + 1) : (a.take n).Pairwise (· ≤ ·) :=
  sorted_take fun j k x y hjk hk hx hy => h j k x y (by omega) hjk.le hk hx hy

/-- An exchange behind the placed cells leaves them placed. -/
theorem Placed.exchanged {p q : ℕ} (h : Placed a n i) (hex : Exchanged a a' p q) (hp : i ≤ p)
    (hq : i ≤ q) (hpn : p < n) (hqn : q < n) : Placed a' n i := by
  intro j k x y hj hjk hk hx hy
  have hx' : a[j]? = some x := by rw [← hx, hex, if_neg (by omega), if_neg (by omega)]
  rw [hex] at hy
  split_ifs at hy with hkp hkq
  · exact h j q x y hj (by omega) hqn hx' hy
  · exact h j p x y hj (by omega) hpn hx' hy
  · exact h j k x y hj hjk hk hx' hy

/-- A cell that is not smaller joins the ones looked at. -/
theorem Least.keep {m lo hi : ℕ} {x y : α} (h : Least a m lo hi) (hx : a[m]? = some x)
    (hy : a[hi]? = some y) (hle : x ≤ y) : Least a m lo (hi + 1) := by
  intro k x' y' hlo hk hx' hy'
  rcases Nat.lt_succ_iff_lt_or_eq.mp hk with hlt | rfl
  · exact h k x' y' hlo hlt hx' hy'
  · rw [hx] at hx'
    rw [hy] at hy'
    rwa [← Option.some.inj hx', ← Option.some.inj hy']

/-- A smaller cell is the least of the ones looked at. -/
theorem Least.replace {m lo hi : ℕ} {x y : α} (h : Least a m lo hi) (hx : a[m]? = some x)
    (hy : a[hi]? = some y) (hlt : y < x) : Least a hi lo (hi + 1) := by
  intro k x' y' hlo hk hx' hy'
  rw [hy] at hx'
  obtain rfl := Option.some.inj hx'
  rcases Nat.lt_succ_iff_lt_or_eq.mp hk with hklt | rfl
  · exact hlt.le.trans (h k x y' hlo hklt hx hy')
  · rw [hy] at hy'
    exact (Option.some.inj hy').le

/-- The least cell is exchanged with the first of the ones looked at. -/
theorem Least.exchanged {m lo hi : ℕ} (h : Least a m lo hi) (hex : Exchanged a a' lo m)
    (hlo : lo < hi) : Least a' lo lo hi := by
  intro k x y hk hkhi hx hy
  rw [hex, if_pos rfl] at hx
  rw [hex] at hy
  split_ifs at hy with hkp hkq
  · rw [hx] at hy
    exact (Option.some.inj hy).le
  · exact h lo x y le_rfl hlo hx hy
  · exact h k x y hk hkhi hx hy

/-! ### One element on its way down -/

/-- Of the first `i` cells, each but cell `h` is at least every cell before it. -/
def OrderedBut (a : List α) (h i : ℕ) : Prop :=
  ∀ j k x y, j < k → k < i → k ≠ h → a[j]? = some x → a[k]? = some y → x ≤ y

/-- A further element behind cells in order. -/
theorem orderedBut_of_sorted (h : (a.take i).Pairwise (· ≤ ·)) : OrderedBut a i (i + 1) := by
  intro j k x y hjk hk hne hx hy
  have hki : k < i := by omega
  refine Windows.le_of_sorted h hjk.le (y := x) (z := y) ?_ ?_
  · rw [List.getElem?_take_of_lt (by omega), hx]
  · rw [List.getElem?_take_of_lt hki, hy]

/-- The element is where it belongs when the one before it is not greater. -/
theorem OrderedBut.sorted {h : ℕ} {v : α} (hord : OrderedBut a h i) (hv : a[h]? = some v)
    (hstop : ∀ h', h = h' + 1 → ∃ x, a[h']? = some x ∧ x ≤ v) : (a.take i).Pairwise (· ≤ ·) := by
  refine sorted_take fun j k x y hjk hk hx hy => ?_
  by_cases hkh : k = h
  · subst hkh
    rw [hv] at hy
    obtain rfl := Option.some.inj hy
    obtain ⟨h', rfl⟩ := Nat.exists_eq_succ_of_ne_zero (show k ≠ 0 by omega)
    obtain ⟨z, hz, hzv⟩ := hstop h' rfl
    refine le_trans ?_ hzv
    rcases (show j ≤ h' by omega).eq_or_lt with rfl | hlt
    · rw [hx] at hz
      exact (Option.some.inj hz).le
    · exact hord j h' x z hlt (by omega) (by omega) hx hz
  · exact hord j k x y hjk hk hkh hx hy

/-- The element changes places with a greater one before it. -/
theorem OrderedBut.exchanged {h : ℕ} {x v : α} (hord : OrderedBut a (h + 1) i)
    (hex : Exchanged a a' h (h + 1)) (hx : a[h]? = some x) (hv : a[h + 1]? = some v) (hlt : v < x) :
    OrderedBut a' h i := by
  intro j k y z hjk hk hne hy hz
  rw [hex] at hy hz
  rw [if_neg hne] at hz
  split_ifs at hy hz with hj hk' hj' hk'
  · rw [hx] at hz
    rw [hv] at hy
    rw [← Option.some.inj hy, ← Option.some.inj hz]
    exact hlt.le
  · exact hord (h + 1) k y z (by omega) hk (by omega) hy hz
  · omega
  · exact hord h k y z (by omega) hk (by omega) hy hz
  · exact hord j h y z (by omega) (by omega) (by omega) hy hz
  · exact hord j k y z hjk hk (by omega) hy hz

end Order

end Schemes
