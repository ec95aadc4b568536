import Diversity.Schemes.Ranges

/-! @scheme scans | name:Scans of a buffer | family:array

    A scan moves an index over cells as long as they satisfy `p`, upwards or downwards. Where it stops
    is told by how the buffer is put together: the cells gone over, and the one that stops the scan.

        … pre | run … run | stop …          … pre c mid | run … run | …
               ──────────▶                               ◀──────────      never below the cell of c -/

namespace Schemes

variable {α : Type} {p : α → Bool}

/-- One turn of `while (p(a[i])) i++`. -/
def scanBody (p : α → Bool) (a : List α) (i : ℤ) : C (Iter ℤ ℤ) := do
  let x ← load a i
  if p x then .ok (.next (i + 1)) else .ok (.done i)

/-- RUN: a scan stops at the first cell that it does not go over. -/
theorem loop_scan {stop : α} {post : List α} (hstop : p stop = false) :
    ∀ (run pre : List α) {a : List α} {i : ℤ} {fuel : ℕ}, a = pre ++ (run ++ stop :: post) →
      (∀ x ∈ run, p x = true) → i = pre.length → run.length < fuel →
      loop (scanBody p a) fuel i = .ok (i + run.length)
  | _, _, _, _, 0, _, _, _, hfuel => absurd hfuel (Nat.not_lt_zero _)
  | [], pre, a, i, fuel + 1, ha, _, hi, _ => by
    have hload : load a i = .ok stop := by rw [ha, List.nil_append, load_append hi.symm]
    have hbody : scanBody p a i = .ok (.done i) := by rw [scanBody, hload, ok_bind, hstop]; rfl
    rw [loop_done hbody]
    simp
  | x :: run, pre, a, i, fuel + 1, ha, hrun, hi, hfuel => by
    have hload : load a i = .ok x := by rw [ha, List.cons_append, load_append hi.symm]
    have hx : p x = true := hrun x List.mem_cons_self
    have hbody : scanBody p a i = .ok (.next (i + 1)) := by
      rw [scanBody, hload, ok_bind, if_pos hx]
    rw [loop_next hbody, loop_scan hstop run (pre ++ [x])
      (show a = (pre ++ [x]) ++ (run ++ stop :: post) by simp [ha])
      (fun y hy => hrun y (List.mem_cons_of_mem x hy)) (by simp [hi]) (by simpa using hfuel),
      List.length_cons]
    congr 1
    omega

/-- Behind what a scan goes over in `l` is the cell that stops it: one of `l`, or the end mark `z`. -/
theorem exists_stop (p : α → Bool) (l : List α) (z : α) (post : List α) :
    ∃ stop rest, l.dropWhile p ++ z :: post = stop :: rest ∧ (stop = z ∨ p stop = false) := by
  have hhead := List.head?_dropWhile_not p l
  rcases hl : l.dropWhile p with - | ⟨x, rest⟩
  · exact ⟨z, post, rfl, Or.inl rfl⟩
  · rw [hl] at hhead
    exact ⟨x, rest ++ z :: post, rfl, Or.inr (by simpa using hhead)⟩

/-- One turn of `while (i > lo && p(a[i])) i--`. -/
def scanBackBody (p : α → Bool) (a : List α) (lo i : ℤ) : C (Iter ℤ ℤ) :=
  if i > lo then do
    let x ← load a i
    if p x then .ok (.next (i - 1)) else .ok (.done i)
  else .ok (.done i)

/-- RUN: a scan downwards stops at the last cell that it does not go over, or at `lo`. -/
theorem loop_scanBack {pre mid : List α} {c : α} (hmid : ∀ h : mid ≠ [], p (mid.getLast h) = false)
    {lo : ℤ} (hlo : lo = pre.length) : ∀ (run : List α) {a post : List α} {i : ℤ} {fuel : ℕ},
      a = pre ++ (c :: mid) ++ run ++ post → (∀ x ∈ run, p x = true) →
      i = lo + mid.length + run.length → run.length < fuel →
      loop (scanBackBody p a lo) fuel i = .ok (lo + mid.length) := by
  intro run
  induction run using List.reverseRecOn with
  | nil =>
    intro a post i fuel ha _ hi hfuel
    obtain ⟨fuel, rfl⟩ := Nat.exists_eq_add_of_lt hfuel
    have hi' : i = lo + mid.length := by simpa using hi
    rw [← hi']
    refine loop_done ?_ _
    rcases List.eq_nil_or_concat' mid with rfl | ⟨mid, x, rfl⟩
    · rw [scanBackBody, if_neg (by simp [hi'])]
    · have hx : p x = false := by simpa using hmid (by simp)
      have hload : load a i = .ok x := by
        rw [ha, show pre ++ (c :: (mid ++ [x])) ++ [] ++ post = (pre ++ c :: mid) ++ x :: post by simp]
        exact load_append (by simp [hi', hlo])
      rw [scanBackBody, if_pos (by simp [hi']), hload, ok_bind, hx]
      rfl
  | append_singleton run x ih =>
    intro a post i fuel ha hrun hi hfuel
    obtain ⟨fuel, rfl⟩ := Nat.exists_eq_add_of_lt (Nat.zero_lt_of_lt hfuel)
    have hlen : (run ++ [x]).length = run.length + 1 := by simp
    have hload : load a i = .ok x := by
      rw [ha, show pre ++ (c :: mid) ++ (run ++ [x]) ++ post = (pre ++ c :: mid ++ run) ++ x :: post by simp]
      exact load_append (by simp [hi, hlo]; omega)
    have hx : p x = true := hrun x (by simp)
    have hbody : scanBackBody p a lo i = .ok (.next (i - 1)) := by
      rw [scanBackBody, if_pos (by omega), hload, ok_bind, if_pos hx]
    rw [loop_next hbody]
    exact ih (show a = pre ++ (c :: mid) ++ run ++ (x :: post) by simp [ha]) (fun y hy => hrun y (by simp [hy])) (by omega)
      (by omega)

end Schemes
