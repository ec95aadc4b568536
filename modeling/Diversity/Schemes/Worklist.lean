import Diversity.Schemes.Machine

/-! @scheme worklist | name:Worklist search | family:graph-traversal

    Search of a directed graph by a worklist. An iteration looks at the first vertex of the list:
    if it has an unseen successor, the first such one is marked and put into the list, otherwise the
    vertex leaves it. `put` decides where a new vertex goes, so a stack and a queue are the same
    machine, with one invariant and one measure. The last section is about the stack: its run is
    the run of the recursive procedure `visit`, though it starts the scan of a vertex again after
    each return.

        seen  : the marked vertices in the order of marking
        work  : the vertices whose successors may still be unseen, the current one first -/

namespace Schemes.Worklist

universe u

variable {α : Type u} (vs : List α) (adj : α → α → Bool)

/-- State of the search. -/
structure State (α : Type u) where
  seen : List α
  work : List α

/-- An edge between vertices of the graph. -/
def Edge (x y : α) : Prop := y ∈ vs ∧ adj x y = true

/-- Reachable along edges. -/
def Reach : α → α → Prop := Relation.ReflTransGen (Edge vs adj)

variable {vs adj} {s t : State α} {source : α}

/-! ### The invariant of every search -/

/-- The marked vertices are distinct and reachable, every open one is marked, and a marked vertex
    that is no longer open has only marked successors. -/
structure Inv (vs : List α) (adj : α → α → Bool) (source : α) (s : State α) : Prop where
  seenNodup : s.seen.Nodup
  workNodup : s.work.Nodup
  inside : s.seen ⊆ vs
  opened : s.work ⊆ s.seen
  start : source ∈ s.seen
  sound : ∀ x ∈ s.seen, Reach vs adj source x
  closed : ∀ x ∈ s.seen, x ∉ s.work → ∀ y, Edge vs adj x y → y ∈ s.seen

theorem inv_init (adj : α → α → Bool) (h : source ∈ vs) : Inv vs adj source ⟨[source], [source]⟩ where
  seenNodup := List.nodup_singleton source
  workNodup := List.nodup_singleton source
  inside := by simpa using h
  opened := List.Subset.refl _
  start := by simp
  sound := by
    intro x hx
    rw [List.mem_singleton.mp hx]
    exact .refl
  closed := fun x hx hn => absurd hx hn

theorem Inv.seen_le (hs : Inv vs adj source s) : s.seen.length ≤ vs.length :=
  (hs.seenNodup.subperm hs.inside).length_le

/-- The worklist never outgrows the vertices. -/
theorem Inv.work_le (hs : Inv vs adj source s) : s.work.length ≤ vs.length :=
  (hs.workNodup.subperm hs.opened).length_le.trans hs.seen_le

/-- CORRECT: with the worklist empty the marked vertices are the reachable ones. -/
theorem Inv.final (hs : Inv vs adj source s) (hw : s.work = []) (x : α) :
    x ∈ s.seen ↔ Reach vs adj source x := by
  refine ⟨hs.sound x, fun h => ?_⟩
  induction h with
  | refl => exact hs.start
  | tail _ hedge ih => exact hs.closed _ ih (by simp [hw]) _ hedge

/-! ### One iteration -/

section Iteration

variable [DecidableEq α] (vs adj)

/-- The first vertex in `vs` that `x` leads to and that is not marked. -/
def nextUnseen (seen : List α) (x : α) : Option α :=
  vs.find? (fun i => adj x i && decide (i ∉ seen))

/-- One iteration, with `put` for the insertion into the worklist; none when the list is empty. -/
def step (put : α → List α → List α) (s : State α) : Option (State α) :=
  match s.work with
  | [] => none
  | x :: rest =>
    match nextUnseen vs adj s.seen x with
    | some j => some ⟨s.seen ++ [j], put j (x :: rest)⟩
    | none => some ⟨s.seen, rest⟩

/-- Reached by any number of iterations. -/
def Reaches (put : α → List α → List α) : State α → State α → Prop :=
  Relation.ReflTransGen (fun s t => step vs adj put s = some t)

variable {vs adj} {put : α → List α → List α}

theorem nextUnseen_some {seen : List α} {x j : α} (h : nextUnseen vs adj seen x = some j) :
    Edge vs adj x j ∧ j ∉ seen := by
  have hp := List.find?_some h
  simp only [Bool.and_eq_true, decide_eq_true_eq] at hp
  exact ⟨⟨List.mem_of_find?_eq_some h, hp.1⟩, hp.2⟩

theorem nextUnseen_none {seen : List α} {x : α} (h : nextUnseen vs adj seen x = none) {y : α}
    (hy : Edge vs adj x y) : y ∈ seen := by
  have hp := List.find?_eq_none.mp h y hy.1
  simpa [hy.2] using hp

/-- What an iteration can do. -/
theorem step_cases (h : step vs adj put s = some t) :
    ∃ x rest, s.work = x :: rest ∧
      ((∃ j, nextUnseen vs adj s.seen x = some j ∧ t = ⟨s.seen ++ [j], put j (x :: rest)⟩) ∨
        (nextUnseen vs adj s.seen x = none ∧ t = ⟨s.seen, rest⟩)) := by
  unfold step at h
  split at h
  · cases h
  · rename_i x rest hw
    refine ⟨x, rest, hw, ?_⟩
    split at h
    · rename_i j hj
      exact Or.inl ⟨j, hj, (Option.some.inj h).symm⟩
    · rename_i hn
      exact Or.inr ⟨hn, (Option.some.inj h).symm⟩

theorem work_nil_of_step_none (h : step vs adj put s = none) : s.work = [] := by
  unfold step at h
  split at h
  · assumption
  · split at h <;> cases h

theorem step_discover {seen rest : List α} {x j : α} (h : nextUnseen vs adj seen x = some j) :
    step vs adj put ⟨seen, x :: rest⟩ = some ⟨seen ++ [j], put j (x :: rest)⟩ := by
  simp only [step, h]

theorem step_leave {seen rest : List α} {x : α} (h : nextUnseen vs adj seen x = none) :
    step vs adj put ⟨seen, x :: rest⟩ = some ⟨seen, rest⟩ := by
  simp only [step, h]

theorem inv_discover (hput : ∀ j w, (put j w).Perm (j :: w)) (hs : Inv vs adj source s)
    {x j : α} {rest : List α} (hw : s.work = x :: rest)
    (hj : nextUnseen vs adj s.seen x = some j) :
    Inv vs adj source ⟨s.seen ++ [j], put j (x :: rest)⟩ := by
  obtain ⟨hedge, hnew⟩ := nextUnseen_some hj
  have hmem : ∀ y, y ∈ put j (x :: rest) ↔ y = j ∨ y ∈ s.work := by
    intro y
    rw [(hput j (x :: rest)).mem_iff, List.mem_cons, hw]
  have hx : x ∈ s.seen := hs.opened (by simp [hw])
  refine ⟨?_, ?_, ?_, ?_, List.mem_append_left _ hs.start, ?_, ?_⟩
  · exact hs.seenNodup.append (List.nodup_singleton j) (by simpa using hnew)
  · rw [(hput j (x :: rest)).nodup_iff, ← hw, List.nodup_cons]
    exact ⟨fun h => hnew (hs.opened h), hs.workNodup⟩
  · intro y hy
    rcases List.mem_append.mp hy with h | h
    · exact hs.inside h
    · exact List.mem_singleton.mp h ▸ hedge.1
  · intro y hy
    rcases (hmem y).mp hy with rfl | h
    · simp
    · exact List.mem_append_left _ (hs.opened h)
  · intro y hy
    rcases List.mem_append.mp hy with h | h
    · exact hs.sound y h
    · exact List.mem_singleton.mp h ▸ (hs.sound x hx).tail hedge
  · intro y hy hopen z hz
    rw [hmem] at hopen
    push Not at hopen
    rcases List.mem_append.mp hy with h | h
    · exact List.mem_append_left _ (hs.closed y h hopen.2 z hz)
    · exact absurd (List.mem_singleton.mp h) hopen.1

theorem inv_leave (hs : Inv vs adj source s) {x : α} {rest : List α} (hw : s.work = x :: rest)
    (hn : nextUnseen vs adj s.seen x = none) : Inv vs adj source ⟨s.seen, rest⟩ := by
  have hnd := hs.workNodup
  rw [hw, List.nodup_cons] at hnd
  refine ⟨hs.seenNodup, hnd.2, hs.inside, ?_, hs.start, hs.sound, ?_⟩
  · intro y hy
    exact hs.opened (by simp [hw, show y ∈ rest from hy])
  · intro y hy hopen z hz
    by_cases hyx : y = x
    · exact nextUnseen_none hn (hyx ▸ hz)
    · refine hs.closed y hy ?_ z hz
      rw [hw, List.mem_cons]
      exact fun h => h.elim hyx hopen

theorem inv_step (hput : ∀ j w, (put j w).Perm (j :: w)) (h : step vs adj put s = some t)
    (hs : Inv vs adj source s) : Inv vs adj source t := by
  obtain ⟨x, rest, hw, ⟨j, hj, rfl⟩ | ⟨hn, rfl⟩⟩ := step_cases h
  · exact inv_discover hput hs hw hj
  · exact inv_leave hs hw hn

theorem inv_reaches (hput : ∀ j w, (put j w).Perm (j :: w)) (hs : Inv vs adj source s)
    (h : Reaches vs adj put s t) : Inv vs adj source t := by
  induction h with
  | refl => exact hs
  | tail _ hstep ih => exact inv_step hput hstep ih

/-- Every iteration marks a vertex or closes one. -/
def measure (vs : List α) (s : State α) : ℕ := 2 * (vs.length - s.seen.length) + s.work.length

theorem measure_step (hput : ∀ j w, (put j w).Perm (j :: w)) (h : step vs adj put s = some t)
    (hs : Inv vs adj source s) : measure vs t < measure vs s := by
  have ht := (inv_step hput h hs).seen_le
  obtain ⟨x, rest, hw, ⟨j, hj, rfl⟩ | ⟨hn, rfl⟩⟩ := step_cases h
  · have hl := (hput j (x :: rest)).length_eq
    simp only [measure, hw, List.length_append, List.length_cons, List.length_nil] at *
    omega
  · simp only [measure, hw, List.length_cons]
    omega

/-- Every search comes to an end. -/
theorem exists_final (hput : ∀ j w, (put j w).Perm (j :: w)) (hs : Inv vs adj source s) :
    ∃ t, Reaches vs adj put s t ∧ step vs adj put t = none := by
  induction hm : measure vs s using Nat.strong_induction_on generalizing s with
  | _ m ih =>
    cases hstep : step vs adj put s with
    | none => exact ⟨s, .refl, hstep⟩
    | some s' =>
      have hlt := measure_step hput hstep hs
      obtain ⟨t, ht, hend⟩ := ih _ (hm ▸ hlt) (inv_step hput hstep hs) rfl
      exact ⟨t, .head hstep ht, hend⟩

/-- SIMULATE: a loop whose every iteration is one of the search, and which is left where the worklist
    is empty, ends at the final state of the search; `2 * vs.length + 1` iterations are enough. -/
theorem loop_search {σ : Type u} {body : σ → C (Iter σ σ)} {R : σ → State α → Prop}
    (hput : ∀ j w, (put j w).Perm (j :: w))
    (hnext : ∀ c a b, R c a → Inv vs adj source a → step vs adj put a = some b →
      ∃ c', body c = .ok (.next c') ∧ R c' b)
    (hdone : ∀ c a, R c a → a.work = [] → body c = .ok (.done c))
    (hsource : source ∈ vs) {order : List α}
    (hrun : Reaches vs adj put ⟨[source], [source]⟩ ⟨order, []⟩) {c : σ}
    (hc : R c ⟨[source], [source]⟩) {fuel : ℕ} (hfuel : 2 * vs.length < fuel) :
    ∃ c', loop body fuel c = .ok c' ∧ R c' ⟨order, []⟩ := by
  have hpos : 0 < vs.length := List.length_pos_of_mem hsource
  obtain ⟨c', t, hloop, hreach, hend, hc'⟩ := loop_simulates
    (R := fun c a => R c a ∧ Inv vs adj source a) (P := R) (measure vs)
    (fun c a b hca hstep => by
      obtain ⟨c', hbody, hc'⟩ := hnext c a b hca.1 hca.2 hstep
      exact ⟨c', hbody, ⟨hc', inv_step hput hstep hca.2⟩, measure_step hput hstep hca.2⟩)
    (fun c a hca hstep => ⟨c, hdone c a hca.1 (work_nil_of_step_none hstep), hca.1⟩)
    fuel c ⟨[source], [source]⟩ ⟨hc, inv_init adj hsource⟩ (by
      simp only [measure, List.length_singleton]
      omega)
  obtain rfl := final_unique hreach hend hrun rfl
  exact ⟨c', hloop, hc'⟩

end Iteration

/-! ### The recursive search and the stack -/

/-- What a call of `visit` may be given and what it returns. -/
def Marked (vs seen : List α) : Prop := seen.Nodup ∧ seen ⊆ vs

theorem marked_concat {seen : List α} {x : α} (h : Marked vs seen) (hx : x ∈ vs) (hnew : x ∉ seen) :
    Marked vs (seen ++ [x]) := by
  refine ⟨h.1.append (List.nodup_singleton x) (by simpa using hnew), ?_⟩
  intro y hy
  rcases List.mem_append.mp hy with hy | hy
  · exact h.2 hy
  · exact List.mem_singleton.mp hy ▸ hx

variable [DecidableEq α] {put : α → List α → List α}

/-- A new vertex goes on top. -/
def lifo (j : α) (work : List α) : List α := j :: work

/-- `visit x`: mark `x`, then visit every successor that is not marked when its turn comes. `fuel`
    bounds the depth of the recursion. -/
def visit (vs : List α) (adj : α → α → Bool) : ℕ → α → List α → Option (List α)
  | 0, _, _ => none
  | fuel + 1, x, seen =>
    vs.foldlM (fun seen i => if adj x i && decide (i ∉ seen) then visit vs adj fuel i seen else some seen)
      (seen ++ [x])

/-- The scan of `x` returns, when the calls it makes do. -/
theorem scan_total {fuel : ℕ} {x : α}
    (ih : ∀ i seen, Marked vs seen → i ∈ vs → i ∉ seen → vs.length - seen.length ≤ fuel →
      ∃ out, visit vs adj fuel i seen = some out ∧ Marked vs out ∧ seen.length ≤ out.length) :
    ∀ (is seen : List α), is ⊆ vs → Marked vs seen → vs.length - seen.length ≤ fuel →
      ∃ out, is.foldlM (fun seen i =>
          if adj x i && decide (i ∉ seen) then visit vs adj fuel i seen else some seen) seen = some out ∧
        Marked vs out ∧ seen.length ≤ out.length
  | [], seen, _, hm, _ => ⟨seen, rfl, hm, le_rfl⟩
  | i :: is, seen, hsub, hm, hfuel => by
    have hi : i ∈ vs := hsub (List.mem_cons_self ..)
    have his : is ⊆ vs := fun y hy => hsub (List.mem_cons_of_mem _ hy)
    rw [List.foldlM_cons]
    split
    · rename_i hc
      simp only [Bool.and_eq_true, decide_eq_true_eq] at hc
      obtain ⟨mid, hmid, hmm, hlen⟩ := ih i seen hm hi hc.2 hfuel
      obtain ⟨out, hout, hmo, hlen'⟩ := scan_total ih is mid his hmm (by omega)
      exact ⟨out, by rw [hmid]; exact hout, hmo, hlen.trans hlen'⟩
    · exact scan_total ih is seen his hm hfuel

/-- The recursion is never deeper than the number of unmarked vertices. -/
theorem visit_total : ∀ (fuel : ℕ) (x : α) (seen : List α), Marked vs seen → x ∈ vs → x ∉ seen →
    vs.length - seen.length ≤ fuel →
      ∃ out, visit vs adj fuel x seen = some out ∧ Marked vs out ∧ seen.length ≤ out.length
  | 0, x, seen, hm, hx, hnew, hfuel => by
    have := ((marked_concat hm hx hnew).1.subperm (marked_concat hm hx hnew).2).length_le
    rw [List.length_append, List.length_singleton] at this
    omega
  | fuel + 1, x, seen, hm, hx, hnew, hfuel => by
    have hfuel' : vs.length - (seen ++ [x]).length ≤ fuel := by
      rw [List.length_append, List.length_singleton]; omega
    obtain ⟨out, hout, hmo, hlen⟩ := scan_total (visit_total fuel) (x := x) vs (seen ++ [x])
      (List.Subset.refl _) (marked_concat hm hx hnew) hfuel'
    refine ⟨out, hout, hmo, ?_⟩
    rw [List.length_append] at hlen
    omega

theorem step_extends (h : step vs adj put s = some t) : s.seen <+: t.seen := by
  obtain ⟨x, rest, hw, ⟨j, hj, rfl⟩ | ⟨hn, rfl⟩⟩ := step_cases h
  · exact List.prefix_append _ _
  · exact List.prefix_rfl

theorem reaches_extends (h : Reaches vs adj put s t) : s.seen <+: t.seen := by
  induction h with
  | refl => exact List.prefix_rfl
  | tail _ hstep ih => exact ih.trans (step_extends hstep)

/-- The rest of the scan of `x`, as iterations with `x` on top. The loop looks at `pre` again each
    time; it finds nothing there, because what `x` leads to in `pre` is marked. -/
theorem scan_reaches {fuel : ℕ} {x : α}
    (ih : ∀ i seen out rest, visit vs adj fuel i seen = some out →
      Reaches vs adj lifo ⟨seen ++ [i], i :: rest⟩ ⟨out, rest⟩) :
    ∀ (is pre seen out rest : List α), vs = pre ++ is → (∀ i ∈ pre, adj x i = true → i ∈ seen) →
      is.foldlM (fun seen i =>
        if adj x i && decide (i ∉ seen) then visit vs adj fuel i seen else some seen) seen = some out →
      Reaches vs adj lifo ⟨seen, x :: rest⟩ ⟨out, rest⟩
  | [], pre, seen, out, rest, hvs, hpre, hrun => by
    obtain rfl : seen = out := Option.some.inj hrun
    have hnone : nextUnseen vs adj seen x = none := by
      rw [nextUnseen, List.find?_eq_none, hvs, List.append_nil]
      intro i hi
      simpa using hpre i hi
    exact .single (step_leave hnone)
  | i :: is, pre, seen, out, rest, hvs, hpre, hrun => by
    have hvs' : vs = (pre ++ [i]) ++ is := by rw [hvs, List.append_assoc]; rfl
    rw [List.foldlM_cons] at hrun
    split at hrun
    · rename_i hc
      have hfind : nextUnseen vs adj seen x = some i := by
        have hnone : pre.find? (fun i => adj x i && decide (i ∉ seen)) = none :=
          List.find?_eq_none.mpr (fun k hk => by simpa using hpre k hk)
        rw [nextUnseen, hvs, List.find?_append, hnone, Option.none_or]
        exact List.find?_cons_of_pos hc
      cases hmid : visit vs adj fuel i seen with
      | none => rw [hmid] at hrun; cases hrun
      | some mid =>
        rw [hmid] at hrun
        have hcall := ih i seen mid (x :: rest) hmid
        have hkeep := (reaches_extends hcall).subset
        refine .head (step_discover hfind) (hcall.trans ?_)
        refine scan_reaches ih is (pre ++ [i]) mid out rest hvs' ?_ hrun
        intro k hk hadj
        rcases List.mem_append.mp hk with hk | hk
        · exact hkeep (List.mem_append_left _ (hpre k hk hadj))
        · exact hkeep (by simp [List.mem_singleton.mp hk])
    · rename_i hc
      refine scan_reaches ih is (pre ++ [i]) seen out rest hvs' ?_ hrun
      intro k hk hadj
      rcases List.mem_append.mp hk with hk | hk
      · exact hpre k hk hadj
      · rw [List.mem_singleton.mp hk] at hadj ⊢
        simpa [hadj] using hc

/-- REFINE: a call of `visit` is a run of the loop that starts with the vertex on top of the stack
    and ends when it has left. -/
theorem visit_reaches : ∀ (fuel : ℕ) (x : α) (seen out rest : List α),
    visit vs adj fuel x seen = some out → Reaches vs adj lifo ⟨seen ++ [x], x :: rest⟩ ⟨out, rest⟩
  | 0, _, _, _, _, h => by simp [visit] at h
  | fuel + 1, x, seen, out, rest, h =>
    scan_reaches (visit_reaches fuel) vs [] (seen ++ [x]) out rest rfl (by simp) h

/-- The whole search by recursion, and the same by the stack. -/
theorem visit_all (adj : α → α → Bool) (h : source ∈ vs) : ∃ order, visit vs adj vs.length source [] = some order ∧
    Reaches vs adj lifo ⟨[source], [source]⟩ ⟨order, []⟩ := by
  have hnil : Marked vs [] := ⟨List.nodup_nil, List.nil_subset _⟩
  obtain ⟨order, horder, -, -⟩ :
      ∃ out, visit vs adj vs.length source [] = some out ∧ Marked vs out ∧ 0 ≤ out.length :=
    visit_total vs.length source [] hnil h (by simp) (by simp)
  exact ⟨order, horder, visit_reaches _ _ _ _ [] horder⟩

end Schemes.Worklist
