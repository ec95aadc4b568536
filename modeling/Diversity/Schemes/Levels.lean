import Diversity.Schemes.Worklist

/-! @scheme levels | name:Breadth-first levels | family:graph-traversal

    The worklist search with a queue, and distances. `dist` is the least length of a walk. The
    invariant is the two-level one: the marked vertices are the ones that have left the queue
    followed by the queue, in non-decreasing distance, the queue spans at most two distances, and
    everything as near as its first vertex is marked already.

        left the queue        queue
        d₀ ≤ d₁ ≤ … ≤     d(u) ≤ … ≤ d(u) + 1 -/

namespace Schemes.Worklist

universe u

variable {α : Type u} {vs : List α} {adj : α → α → Bool} {source : α} {x y : α} {n : ℕ}

/-! ### Distances -/

/-- A walk of `n` edges. -/
inductive Walk (vs : List α) (adj : α → α → Bool) (source : α) : ℕ → α → Prop where
  | nil : Walk vs adj source 0 source
  | snoc {n : ℕ} {x y : α} : Walk vs adj source n x → Edge vs adj x y → Walk vs adj source (n + 1) y

/-- Length of the shortest walk from `source`, in edges. -/
noncomputable def dist (vs : List α) (adj : α → α → Bool) (source x : α) : ℕ :=
  sInf {n | Walk vs adj source n x}

theorem walk_of_reach (h : Reach vs adj source x) : ∃ n, Walk vs adj source n x := by
  induction h with
  | refl => exact ⟨0, .nil⟩
  | tail _ hedge ih =>
    obtain ⟨n, hn⟩ := ih
    exact ⟨n + 1, hn.snoc hedge⟩

theorem reach_of_walk (h : Walk vs adj source n x) : Reach vs adj source x := by
  induction h with
  | nil => exact .refl
  | snoc _ hedge ih => exact ih.tail hedge

theorem dist_le (h : Walk vs adj source n x) : dist vs adj source x ≤ n := Nat.sInf_le h

theorem walk_dist (h : Reach vs adj source x) : Walk vs adj source (dist vs adj source x) x :=
  Nat.sInf_mem (walk_of_reach h)

theorem dist_source : dist vs adj source source = 0 := Nat.le_zero.mp (dist_le .nil)

theorem dist_edge (h : Reach vs adj source x) (hedge : Edge vs adj x y) :
    dist vs adj source y ≤ dist vs adj source x + 1 :=
  dist_le ((walk_dist h).snoc hedge)

/-- A vertex at distance `n + 1` follows one at distance `n`. -/
theorem exists_pred (h : Reach vs adj source y) (hd : dist vs adj source y = n + 1) :
    ∃ x, Reach vs adj source x ∧ dist vs adj source x = n ∧ Edge vs adj x y := by
  have hw := walk_dist h
  rw [hd] at hw
  cases hw with
  | snoc hx hedge =>
    rename_i x
    have hreach := reach_of_walk hx
    have hle := dist_le hx
    have hge := dist_edge hreach hedge
    exact ⟨x, hreach, by omega, hedge⟩

theorem source_of_dist_zero (h : Reach vs adj source x) (hd : dist vs adj source x = 0) :
    x = source := by
  have hw := walk_dist h
  rw [hd] at hw
  cases hw
  rfl

/-! ### The queue -/

/-- A new vertex goes to the end. -/
def fifo (j : α) (work : List α) : List α := work ++ [j]

theorem fifo_perm (j : α) (work : List α) : (fifo j work).Perm (j :: work) :=
  List.perm_append_singleton j work

/-- The two-level invariant; `gone` are the vertices that have left the queue. -/
structure Levels (vs : List α) (adj : α → α → Bool) (source : α) (s : State α) : Prop where
  split : ∃ gone, s.seen = gone ++ s.work
  sorted : s.seen.Pairwise (fun x y => dist vs adj source x ≤ dist vs adj source y)
  span : ∀ u rest, s.work = u :: rest →
    ∀ x ∈ s.seen, dist vs adj source x ≤ dist vs adj source u + 1
  full : ∀ u rest, s.work = u :: rest →
    ∀ x, Reach vs adj source x → dist vs adj source x ≤ dist vs adj source u → x ∈ s.seen

/-- The queue itself is in order of distance. -/
theorem Levels.queue_sorted {s : State α} (hl : Levels vs adj source s) :
    s.work.Pairwise (fun x y => dist vs adj source x ≤ dist vs adj source y) := by
  obtain ⟨gone, hgone⟩ := hl.split
  have hp := hl.sorted
  rw [hgone] at hp
  exact (List.pairwise_append.mp hp).2.1

theorem levels_init : Levels vs adj source ⟨[source], [source]⟩ where
  split := ⟨[], rfl⟩
  sorted := List.pairwise_singleton _ _
  span := by
    rintro u rest hw x hx
    obtain ⟨rfl, -⟩ := List.cons.inj hw
    rw [List.mem_singleton.mp hx]
    exact Nat.le_succ _
  full := by
    rintro u rest hw x hx hd
    obtain ⟨rfl, -⟩ := List.cons.inj hw
    rw [dist_source] at hd
    exact List.mem_singleton.mpr (source_of_dist_zero hx (Nat.le_zero.mp hd))

variable [DecidableEq α] {s t : State α} {u j : α} {rest : List α}

/-- What the first vertex of the queue discovers is one level further. -/
theorem dist_discover (hs : Inv vs adj source s) (hl : Levels vs adj source s)
    (hw : s.work = u :: rest) (hj : nextUnseen vs adj s.seen u = some j) :
    dist vs adj source j = dist vs adj source u + 1 := by
  obtain ⟨hedge, hnew⟩ := nextUnseen_some hj
  have hu : Reach vs adj source u := hs.sound u (hs.opened (by simp [hw]))
  have hle := dist_edge hu hedge
  have hgt : ¬ dist vs adj source j ≤ dist vs adj source u :=
    fun h => hnew (hl.full u rest hw j (hu.tail hedge) h)
  omega

theorem levels_discover (hs : Inv vs adj source s) (hl : Levels vs adj source s)
    (hw : s.work = u :: rest) (hj : nextUnseen vs adj s.seen u = some j) :
    Levels vs adj source ⟨s.seen ++ [j], fifo j (u :: rest)⟩ := by
  have hdj := dist_discover hs hl hw hj
  obtain ⟨gone, hgone⟩ := hl.split
  refine ⟨⟨gone, ?_⟩, ?_, ?_, ?_⟩
  · rw [hgone, hw, fifo, List.append_assoc]
  · refine List.pairwise_append.mpr ⟨hl.sorted, List.pairwise_singleton _ _, ?_⟩
    intro x hx y hy
    rw [List.mem_singleton.mp hy, hdj]
    exact hl.span u rest hw x hx
  · intro u' rest' hw' x hx
    obtain ⟨rfl, -⟩ := List.cons.inj hw'
    rcases List.mem_append.mp hx with hx | hx
    · exact hl.span u rest hw x hx
    · rw [List.mem_singleton.mp hx, hdj]
  · intro u' rest' hw' x hx hd
    obtain ⟨rfl, -⟩ := List.cons.inj hw'
    exact List.mem_append_left _ (hl.full u rest hw x hx hd)

/-- Once the whole level of `u` has left the queue, the next level is marked. -/
theorem next_level_seen (hs : Inv vs adj source s) (hl : Levels vs adj source s)
    (hw : s.work = u :: rest) (hn : nextUnseen vs adj s.seen u = none)
    (hrest : ∀ y ∈ rest, dist vs adj source u < dist vs adj source y)
    (hx : Reach vs adj source x) (hd : dist vs adj source x = dist vs adj source u + 1) :
    x ∈ s.seen := by
  obtain ⟨p, hp, hdp, hedge⟩ := exists_pred hx hd
  have hpseen : p ∈ s.seen := hl.full u rest hw p hp hdp.le
  by_cases hpu : p = u
  · exact nextUnseen_none hn (hpu ▸ hedge)
  · refine hs.closed p hpseen ?_ x hedge
    rw [hw, List.mem_cons]
    rintro (h | h)
    · exact hpu h
    · exact absurd (hrest p h) (by omega)

theorem levels_leave (hs : Inv vs adj source s) (hl : Levels vs adj source s)
    (hw : s.work = u :: rest) (hn : nextUnseen vs adj s.seen u = none) :
    Levels vs adj source ⟨s.seen, rest⟩ := by
  have hq := hl.queue_sorted
  rw [hw, List.pairwise_cons] at hq
  obtain ⟨gone, hgone⟩ := hl.split
  refine ⟨⟨gone ++ [u], by rw [hgone, hw, List.append_assoc]; rfl⟩, hl.sorted, ?_, ?_⟩
  · rintro u' rest' rfl x hx
    have h₁ := hl.span u _ hw x hx
    have h₂ := hq.1 u' (List.mem_cons_self ..)
    omega
  · rintro u' rest' rfl x hx hd
    change x ∈ s.seen
    have h₁ := hl.span u _ hw u' (hs.opened (by simp [hw]))
    have h₂ := hq.1 u' (List.mem_cons_self ..)
    -- either `x` is as near as `u`, or `u'` opens the level of `x`
    rcases Nat.lt_or_ge (dist vs adj source u) (dist vs adj source x) with hlt | hge
    · refine next_level_seen hs hl hw hn ?_ hx (by omega)
      intro y hy
      rcases List.mem_cons.mp hy with rfl | hy
      · omega
      · have := (List.pairwise_cons.mp hq.2).1 y hy
        omega
    · exact hl.full u _ hw x hx hge

theorem levels_step (h : step vs adj fifo s = some t) (hs : Inv vs adj source s)
    (hl : Levels vs adj source s) : Levels vs adj source t := by
  obtain ⟨u, rest, hw, ⟨j, hj, rfl⟩ | ⟨hn, rfl⟩⟩ := step_cases h
  · exact levels_discover hs hl hw hj
  · exact levels_leave hs hl hw hn

theorem levels_reaches (h : Reaches vs adj fifo s t) (hs : Inv vs adj source s)
    (hl : Levels vs adj source s) : Levels vs adj source t := by
  induction h with
  | refl => exact hl
  | tail hrun hstep ih => exact levels_step hstep (inv_reaches fifo_perm hs hrun) ih

end Schemes.Worklist
