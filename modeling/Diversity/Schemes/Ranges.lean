import Diversity.Schemes.Bytes

/-! @scheme ranges | name:Sorting a range in place | family:array

    Work on the cells `l .. r` of an array. An array is taken apart as `p ++ m ++ s` with the range
    in the middle; `SortsRange` is what a sort of the range owes its caller: the range is in order
    and has the elements it had, and the rest of the array is as before. Two halves in order become
    one by the strict merge, which takes the right element on ties. -/

namespace Schemes

universe u

variable {α : Type u}

/-! ### Ranges -/

/-- The cells `l .. r`; none when `r < l`. -/
def segment (a : List α) (l r : ℤ) : List α := (a.drop l.toNat).take (r + 1 - l).toNat

theorem segment_append {p m s : List α} {l r : ℤ} (hp : (p.length : ℤ) = l)
    (hm : (m.length : ℤ) = r + 1 - l) : segment (p ++ m ++ s) l r = m := by
  have hl : l.toNat = p.length := by omega
  have hn : (r + 1 - l).toNat = m.length := by omega
  rw [segment, hl, hn, List.append_assoc, List.drop_left, List.take_left]

/-- Every range of an array has a part before it and a part behind it. -/
theorem exists_range (a : List α) {l r : ℤ} (hl : 0 ≤ l) (hlr : l ≤ r + 1) (hr : r < a.length) :
    ∃ p m s, a = p ++ m ++ s ∧ (p.length : ℤ) = l ∧ (m.length : ℤ) = r + 1 - l := by
  have hfit : l.toNat + (r + 1 - l).toNat ≤ a.length := by omega
  obtain ⟨p, m, s, ha, hp, hm⟩ := exists_field a hfit
  exact ⟨p, m, s, ha, by omega, by omega⟩

/-- `a'` is `a` with its cells `l .. r` put in order. -/
structure SortsRange [LE α] (a a' : List α) (l r : ℤ) : Prop where
  sorted : (segment a' l r).Pairwise (· ≤ ·)
  perm : (segment a' l r).Perm (segment a l r)
  length : a'.length = a.length
  outside : ∀ i : ℕ, (i < l ∨ r < i) → a'[i]? = a[i]?

theorem sortsRange_empty [LE α] (a : List α) {l r : ℤ} (h : r < l) : SortsRange a a l r := by
  have hnil : segment a l r = [] := by
    have hn : (r + 1 - l).toNat = 0 := by omega
    rw [segment, hn, List.take_zero]
  exact ⟨by rw [hnil]; exact List.Pairwise.nil, List.Perm.refl _, rfl, fun _ _ => rfl⟩

/-! ### Cells -/

theorem load_append {p s : List α} {x : α} {i : ℤ} (hp : (p.length : ℤ) = i) :
    load (p ++ x :: s) i = .ok x := by
  rw [← hp]
  exact load_of_getElem? (by simp)

theorem store_append {p s : List α} {x : α} {i : ℤ} (hp : (p.length : ℤ) = i) (y : α) :
    store (p ++ x :: s) i y = .ok (p ++ y :: s) := by
  rw [← hp, store_of_lt (by simp), List.set_append_right _ _ le_rfl, Nat.sub_self, List.set_cons_zero]

/-- From cell `i` on the array holds `xs`. -/
def CellsAt (a : List α) (i : ℤ) (xs : List α) : Prop := ∃ p s, a = p ++ xs ++ s ∧ (p.length : ℤ) = i

theorem CellsAt.load {a xs : List α} {i : ℤ} {x : α} (h : CellsAt a i (x :: xs)) :
    Schemes.load a i = .ok x := by
  obtain ⟨p, s, rfl, hp⟩ := h
  rw [List.append_assoc, List.cons_append, load_append hp]

theorem CellsAt.tail {a xs : List α} {i : ℤ} {x : α} (h : CellsAt a i (x :: xs)) :
    CellsAt a (i + 1) xs := by
  obtain ⟨p, s, rfl, hp⟩ := h
  exact ⟨p ++ [x], s, by simp, by simp [hp]⟩

/-! ### Exchanging two cells -/

/-- Exchange `a[i]` and `a[j]`. -/
def exchange (a : List α) (i j : ℤ) : C (List α) := do
  let x ← load a i
  let y ← load a j
  let a ← store a i y
  store a j x

theorem exchange_of_lt {a : List α} {i j : ℕ} (hi : i < a.length) (hj : j < a.length) :
    exchange a i j = .ok ((a.set i a[j]).set j a[i]) := by
  have hx : load a i = .ok a[i] := load_of_getElem? (List.getElem?_eq_getElem hi)
  have hy : load a j = .ok a[j] := load_of_getElem? (List.getElem?_eq_getElem hj)
  rw [exchange, hx, ok_bind, hy, ok_bind, store_of_lt hi, ok_bind, store_of_lt (by simpa using hj)]

/-- `for (i = 0; i < n; i++) dst[i] = src[i + off]`. -/
def copyCells (src : List α) (off : ℤ) (n : ℕ) (dst : List α) : C (List α) :=
  (List.range n).foldlM (fun dst (i : ℕ) => do
    let x ← load src (i + off)
    store dst i x) dst

/-- Copying a range fills the destination with it. -/
theorem copyCells_append {p m s dst : List α} {off : ℤ} (hp : (p.length : ℤ) = off)
    (hdst : dst.length = m.length) : copyCells (p ++ m ++ s) off m.length dst = .ok m := by
  have hstep : ∀ (i : ℕ) (d : List α), i < m.length → d = m.take i ++ dst.drop i →
      ∃ d', (load (p ++ m ++ s) (i + off) >>= fun x => store d i x) = .ok d' ∧
        d' = m.take (i + 1) ++ dst.drop (i + 1) := by
    intro i d hi hd
    have hi' : i < dst.length := by omega
    have hload : load (p ++ m ++ s) (i + off) = .ok m[i] := by
      have hidx : (i : ℤ) + off = ((p.length + i : ℕ) : ℤ) := by omega
      rw [hidx]
      refine load_of_getElem? ?_
      rw [List.append_assoc, List.getElem?_append_right (by omega), Nat.add_sub_cancel_left,
        List.getElem?_append_left hi, List.getElem?_eq_getElem hi]
    refine ⟨m.take i ++ m[i] :: dst.drop (i + 1), ?_, ?_⟩
    · rw [hload, ok_bind, hd, List.drop_eq_getElem_cons hi']
      exact store_append (by simp; omega) m[i]
    · rw [List.take_succ_eq_append_getElem hi, List.append_assoc, List.singleton_append]
  obtain ⟨d, hrun, hd⟩ := foldlM_range_total (I := fun i d => d = m.take i ++ dst.drop i) m.length dst
    (by simp) hstep
  rw [copyCells, hrun, hd, List.take_length, ← hdst, List.drop_length, List.append_nil]

/-! ### Order -/

section Order

variable [LinearOrder α]

/-- `merge` by `<`: on ties the element of the second list comes first. -/
def mergeLt (xs ys : List α) : List α := xs.merge ys (fun x y => decide (x < y))

theorem mergeLt_nil_left (ys : List α) : mergeLt [] ys = ys := List.nil_merge _

theorem mergeLt_nil_right (xs : List α) : mergeLt xs [] = xs := List.merge_right _

theorem mergeLt_cons (x y : α) (xs ys : List α) : mergeLt (x :: xs) (y :: ys) =
    if x < y then x :: mergeLt xs (y :: ys) else y :: mergeLt (x :: xs) ys := by
  by_cases h : x < y <;> simp [mergeLt, h]

theorem mergeLt_perm (xs ys : List α) : (mergeLt xs ys).Perm (xs ++ ys) := List.merge_perm_append _

theorem mem_mergeLt {xs ys : List α} {z : α} : z ∈ mergeLt xs ys ↔ z ∈ xs ∨ z ∈ ys := by
  rw [(mergeLt_perm xs ys).mem_iff, List.mem_append]

/-- Two lists in order are merged into one. -/
theorem mergeLt_sorted : ∀ {xs ys : List α}, xs.Pairwise (· ≤ ·) → ys.Pairwise (· ≤ ·) →
    (mergeLt xs ys).Pairwise (· ≤ ·)
  | [], ys, _, hys => by rwa [mergeLt_nil_left]
  | x :: xs, [], hxs, _ => by rwa [mergeLt_nil_right]
  | x :: xs, y :: ys, hxs, hys => by
    obtain ⟨hx, hxs'⟩ := List.pairwise_cons.mp hxs
    obtain ⟨hy, hys'⟩ := List.pairwise_cons.mp hys
    rw [mergeLt_cons]
    by_cases h : x < y
    · rw [if_pos h, List.pairwise_cons]
      refine ⟨fun z hz => ?_, mergeLt_sorted hxs' hys⟩
      rcases mem_mergeLt.mp hz with hz | hz
      · exact hx z hz
      · rcases List.mem_cons.mp hz with rfl | hz
        · exact h.le
        · exact h.le.trans (hy z hz)
    · rw [if_neg h, List.pairwise_cons]
      have hyx : y ≤ x := not_lt.mp h
      refine ⟨fun z hz => ?_, mergeLt_sorted hxs hys'⟩
      rcases mem_mergeLt.mp hz with hz | hz
      · rcases List.mem_cons.mp hz with rfl | hz
        · exact hyx
        · exact hyx.trans (hx z hz)
      · exact hy z hz
  termination_by xs ys => xs.length + ys.length

/-- The elements of a list in order. -/
def inOrder (m : List α) : List α := m.mergeSort (· ≤ ·)

theorem inOrder_perm (m : List α) : (inOrder m).Perm m := List.mergeSort_perm m _

theorem inOrder_sorted (m : List α) : (inOrder m).Pairwise (· ≤ ·) := List.pairwise_mergeSort' _ m

/-- There is one way to put a list in order. -/
theorem eq_inOrder {m m' : List α} (hperm : m'.Perm m) (hsorted : m'.Pairwise (· ≤ ·)) :
    m' = inOrder m :=
  List.Perm.eq_of_pairwise' hsorted (inOrder_sorted m) (hperm.trans (inOrder_perm m).symm)

theorem inOrder_of_length_le_one {m : List α} (h : m.length ≤ 1) : inOrder m = m := by
  rcases m with - | ⟨x, - | ⟨y, m⟩⟩
  · exact List.mergeSort_nil
  · exact List.mergeSort_singleton x
  · simp at h

/-- Merging two halves in order puts the whole in order. -/
theorem mergeLt_inOrder (xs ys : List α) : mergeLt (inOrder xs) (inOrder ys) = inOrder (xs ++ ys) :=
  eq_inOrder ((mergeLt_perm _ _).trans ((inOrder_perm xs).append (inOrder_perm ys)))
    (mergeLt_sorted (inOrder_sorted xs) (inOrder_sorted ys))

/-- Putting the middle in order sorts the range. -/
theorem sortsRange_inOrder {p m s : List α} {l r : ℤ} (hp : (p.length : ℤ) = l)
    (hm : (m.length : ℤ) = r + 1 - l) : SortsRange (p ++ m ++ s) (p ++ inOrder m ++ s) l r := by
  have hlen := (inOrder_perm m).length_eq
  have hseg : segment (p ++ m ++ s) l r = m := segment_append hp hm
  have hseg' : segment (p ++ inOrder m ++ s) l r = inOrder m := segment_append hp (by omega)
  refine ⟨by rw [hseg']; exact inOrder_sorted m, by rw [hseg, hseg']; exact inOrder_perm m, ?_, ?_⟩
  · rw [List.length_append, List.length_append, List.length_append, List.length_append, hlen]
  · intro i hi
    rcases hi with hi | hi
    · have hlt : i < p.length := by omega
      rw [List.append_assoc, List.append_assoc, List.getElem?_append_left hlt,
        List.getElem?_append_left hlt]
    · have hle : (p ++ m).length ≤ i := by rw [List.length_append]; omega
      have hle' : (p ++ inOrder m).length ≤ i := by rw [List.length_append]; omega
      rw [List.getElem?_append_right hle', List.getElem?_append_right hle, List.length_append,
        List.length_append, hlen]

end Order

end Schemes
