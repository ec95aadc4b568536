import Diversity.Schemes.Machine

/-! @scheme buffer | name:Reused buffers | family:noninterference

    A buffer that is written from its start and never cleared: after `overlay d b` the first
    `d.length` cells are those of `d` and the rest is what `b` left there. A slice of it is a function
    of `d` alone exactly when it ends before `d` does, which is the two-run property every reader of
    a reused buffer has to answer for. -/

namespace Schemes

universe u

variable {α : Type u}

/-- `b` after its first `d.length` cells were overwritten by `d`. -/
def overlay (d b : List α) : List α := d ++ b.drop d.length

theorem length_overlay {d b : List α} (h : d.length ≤ b.length) :
    (overlay d b).length = b.length := by
  rw [overlay, List.length_append, List.length_drop]
  omega

/-- Read `n` cells from `off` on. -/
def slice (b : List α) (off n : ℕ) : C (List α) :=
  if off + n ≤ b.length then .ok ((b.drop off).take n) else .error .outOfBounds

theorem slice_of_le {b : List α} {off n : ℕ} (h : off + n ≤ b.length) :
    slice b off n = .ok ((b.drop off).take n) := if_pos h

theorem take_drop_add (b : List α) (off m n : ℕ) :
    (b.drop off).take (m + n) = (b.drop off).take m ++ (b.drop (off + m)).take n := by
  rw [List.take_add, List.drop_drop]

/-- Different sizes give different slices. -/
theorem take_drop_length_ne {b b' : List α} {off m n : ℕ} (hmn : m ≠ n) (hm : off + m ≤ b.length)
    (hn : off + n ≤ b'.length) : (b.drop off).take m ≠ (b'.drop off).take n := by
  intro h
  have hlen := congrArg List.length h
  simp only [List.length_take, List.length_drop] at hlen
  omega

/-- Inside `d` nothing stale is read. -/
theorem take_drop_overlay {d : List α} {off n : ℕ} (h : off + n ≤ d.length) (b : List α) :
    ((overlay d b).drop off).take n = (d.drop off).take n := by
  rw [overlay, List.drop_append_of_le_length (by omega),
    List.take_append_of_le_length (by rw [List.length_drop]; omega)]

theorem getElem?_overlay {d : List α} {i : ℕ} (h : i < d.length) (b : List α) :
    (overlay d b)[i]? = d[i]? := List.getElem?_append_left h

theorem getElem?_overlay_stale {d : List α} {i : ℕ} (h : d.length ≤ i) (b : List α) :
    (overlay d b)[i]? = b[i]? := by
  rw [overlay, List.getElem?_append_right h, List.getElem?_drop]
  congr 1
  omega

/-- A slice that ends behind `d` differs with what the buffer held before. -/
theorem take_drop_overlay_ne {d : List α} {off n cap : ℕ} {x y : α} (hxy : x ≠ y) (hn : 0 < n)
    (hd : d.length < off + n) (hcap : off + n ≤ cap) :
    ((overlay d (List.replicate cap x)).drop off).take n ≠
      ((overlay d (List.replicate cap y)).drop off).take n := by
  intro h
  have hlast : ∀ z : α, (((overlay d (List.replicate cap z)).drop off).take n)[n - 1]? = some z := by
    intro z
    rw [List.getElem?_take_of_lt (by omega), List.getElem?_drop,
      getElem?_overlay_stale (by omega), List.getElem?_replicate_of_lt (by omega)]
  have := hlast x
  rw [h, hlast y] at this
  exact hxy (Option.some.inj this).symm

end Schemes
