import Diversity.Programs.Graph.Graph

/-! @src c++/src/graph.cpp (Graph::depthFirstSearch) | name:Depth-first search | scheme:worklist |
    family:graph-traversal

    The search with an explicit stack. An iteration looks at the top of the stack only, scans its row
    from index 0 again and pushes the first unvisited neighbour, or pops. The state of the loop is
    the worklist state with a `Stack` that `Holds` the worklist, so the run ends as the recursive
    search does: the displayed vertices are its preorder. -/

namespace Diversity.Graph
open Schemes

/-- State of the loop. -/
structure Dfs where
  graph : Graph
  stack : Stack
  cout : List Out

/-- One turn of `while (!stack.is_empty())`. -/
def dfsBody (s : Dfs) : C (Iter Dfs Dfs) :=
  if s.stack.isEmpty then .ok (.done s)
  else do
    let i ← s.stack.peek
    let j ← s.graph.getAdjUnvisitedVertex i
    if j ≠ -1 then
      let (graph, out) ← s.graph.visitVertex j
      let (stack, msgs) ← s.stack.push j
      .ok (.next ⟨graph, stack, s.cout ++ out :: msgs.map .stack⟩)
    else
      let (stack, _, msgs) ← s.stack.pop
      .ok (.next ⟨s.graph, stack, s.cout ++ msgs.map .stack⟩)

/-- `depthFirstSearch()`; `mem` and `id` are what the new stack's cells and its `id` held before. -/
def depthFirstSearch (fuel : ℕ) (mem : ℕ → ℤ) (id : ℤ) (g : Graph) : C (Graph × List Out) := do
  let stack ← Stack.new mem id g.capacity
  let (graph, out) ← g.visitVertex 0
  let (stack, msgs) ← stack.push 0
  let s ← loop dfsBody fuel ⟨graph, stack, out :: msgs.map .stack⟩
  .ok (s.graph, s.cout)

/-- `visit(u)` over the first `v` rows and columns, by recursion; the list is the preorder so far
    and `fuel` bounds the depth. -/
def visit (g : Graph) (v : ℕ) : ℕ → ℕ → List ℕ → Option (List ℕ) :=
  Worklist.visit (List.range v) g.adj

/-- `s` is at the worklist state `a` of the search of `g`. -/
structure DfsAt (g : Graph) (n : ℕ) (s : Dfs) (a : Worklist.State ℕ) : Prop where
  graph : s.graph = g.marked a.seen
  stack : s.stack.Holds n (a.work.map Int.ofNat)
  cout : s.cout = a.seen.map g.shown

variable {g : Graph} {n v : ℕ} {s : Dfs} {a b : Worklist.State ℕ}

theorem lifo_perm (j : ℕ) (w : List ℕ) : (Worklist.lifo j w).Perm (j :: w) := List.Perm.refl _

theorem dfsBody_done (hs : DfsAt g n s a) (hw : a.work = []) : dfsBody s = .ok (.done s) := by
  rw [dfsBody, if_pos ((Stack.isEmpty_iff hs.stack).mpr (by simp [hw]))]

/-- A vertex without unvisited neighbours is popped. -/
theorem dfsBody_leave (hg : Shape g n v) (hfresh : Fresh g v) {seen : List ℕ} {u : ℕ} (rest : List ℕ)
    (hgraph : s.graph = g.marked seen) (hstack : s.stack.Holds n ((u :: rest).map Int.ofNat)) (hu : u < n)
    (hn : Worklist.nextUnseen (List.range v) g.adj seen u = none) :
    ∃ stack, dfsBody s = .ok (.next ⟨g.marked seen, stack, s.cout⟩) ∧
      stack.Holds n (rest.map Int.ofNat) := by
  rw [List.map_cons] at hstack
  have hne : ¬ s.stack.isEmpty = true := by rw [Stack.isEmpty_iff hstack]; simp
  have hscan := getAdjUnvisitedVertex_marked seen hg hfresh hu
  obtain ⟨stack, hpop, hholds, -⟩ := Stack.pop_cons hstack
  refine ⟨stack, ?_, hholds⟩
  rw [dfsBody, if_neg hne, Stack.peek_cons hstack, ok_bind, hgraph]
  rw [hn] at hscan
  simp only [Int.ofNat_eq_natCast] at hscan ⊢
  rw [hscan]
  simp [hpop]

/-- An iteration of the loop is an iteration of the worklist search; nothing faults, and the push
    has room because the new worklist is one of distinct vertices. -/
theorem dfsBody_next (hg : Shape g n v) (hfresh : Fresh g v) (hs : DfsAt g n s a)
    (ha : Worklist.Inv (List.range v) g.adj 0 a)
    (hstep : Worklist.step (List.range v) g.adj Worklist.lifo a = some b) :
    ∃ s', dfsBody s = .ok (.next s') ∧ DfsAt g n s' b := by
  have hroom := (Worklist.inv_step lifo_perm hstep ha).work_le
  obtain ⟨u, rest, hw, hcase⟩ := Worklist.step_cases hstep
  have hstack := hs.stack
  rw [hw] at hstack
  have hu : u < n := lt_of_mem_work hg ha (hw ▸ List.mem_cons_self ..)
  rcases hcase with ⟨j, hj, rfl⟩ | ⟨hn, rfl⟩
  · rw [List.map_cons] at hstack
    have hne : ¬ s.stack.isEmpty = true := by rw [Stack.isEmpty_iff hstack]; simp
    have hscan := getAdjUnvisitedVertex_marked a.seen hg hfresh hu
    have hjn : j < n := lt_of_nextUnseen a.seen hg hj
    obtain ⟨stack, hpush, hholds, -⟩ := Stack.push_room hstack (by
      simp only [Worklist.lifo, List.length_cons, List.length_range] at hroom
      simpa using hroom.trans hg.fits) (Int.ofNat j)
    refine ⟨⟨g.marked (a.seen ++ [j]), stack, s.cout ++ [g.shown j]⟩, ?_, rfl, hholds, ?_⟩
    · rw [dfsBody, if_neg hne, Stack.peek_cons hstack, ok_bind, hs.graph]
      rw [hj] at hscan
      have hpos : Int.ofNat j ≠ -1 := by simp
      simp only [Int.ofNat_eq_natCast] at hscan hpush hpos ⊢
      rw [hscan]
      simp [visitVertex_marked a.seen hg hjn, hpush, hpos]
    · simp [hs.cout]
  · obtain ⟨stack, hbody, hholds⟩ := dfsBody_leave hg hfresh rest hs.graph hstack hu hn
    exact ⟨_, hbody, rfl, hholds, hs.cout⟩

/-- The search ends where the worklist run does. -/
theorem depthFirstSearch_reaches (hg : Shape g n v) (hv : 1 ≤ v) (hfresh : Fresh g v)
    {order : List ℕ}
    (hrun : Worklist.Reaches (List.range v) g.adj Worklist.lifo ⟨[0], [0]⟩ ⟨order, []⟩)
    (mem : ℕ → ℤ) (id : ℤ) {fuel : ℕ} (hfuel : 2 * v < fuel) :
    depthFirstSearch fuel mem id g = .ok (g.marked order, order.map g.shown) := by
  obtain ⟨stack, hnew, hempty, -⟩ := Stack.newWithId_holds mem n id
  obtain ⟨stack', hpush, hholds, -⟩ := Stack.push_room hempty (hv.trans hg.fits) 0
  have hvisit : g.visitVertex 0 = .ok (g.marked [0], g.shown 0) := by
    have h := visitVertex_marked [] hg (hv.trans hg.fits)
    rwa [marked_nil] at h
  obtain ⟨r, hloop, hr⟩ := Worklist.loop_search (R := DfsAt g n) lifo_perm
    (fun _ _ _ hs ha hstep => dfsBody_next hg hfresh hs ha hstep)
    (fun _ _ hs hw => dfsBody_done hs hw) (List.mem_range.mpr hv) hrun
    (c := ⟨g.marked [0], stack', [g.shown 0]⟩) ⟨rfl, hholds, rfl⟩ (by simpa using hfuel)
  rw [depthFirstSearch, hg.capacity]
  simp only [Stack.new, hnew, ok_bind, hvisit, hpush, List.map_nil, hloop, hr.graph, hr.cout]

/-- The recursive search has a preorder, which the worklist run ends with. -/
theorem exists_preorder (g : Graph) {v : ℕ} (hv : 1 ≤ v) : ∃ order, visit g v v 0 [] = some order ∧
    Worklist.Reaches (List.range v) g.adj Worklist.lifo ⟨[0], [0]⟩ ⟨order, []⟩ ∧
    order.Nodup ∧ ∀ x, x ∈ order ↔ Reachable g v x := by
  have h0 : 0 ∈ List.range v := List.mem_range.mpr hv
  obtain ⟨order, horder, hrun⟩ := Worklist.visit_all g.adj h0
  have hfinal := Worklist.inv_reaches lifo_perm (Worklist.inv_init g.adj h0) hrun
  rw [List.length_range] at horder
  exact ⟨order, horder, hrun, hfinal.seenNodup, hfinal.final rfl⟩

/-- CORRECT: the loop ends, and what it displays, in order, is the preorder of the recursive search
    from vertex 0. Nothing else is printed, in particular no `stack is full`. The vertices displayed
    are the reachable ones, each once. -/
theorem depthFirstSearch_preorder (g : Graph) (n v : ℕ) (hg : Shape g n v) (hv : 1 ≤ v)
    (hfresh : Fresh g v) (mem : ℕ → ℤ) (id : ℤ) :
    ∃ order, visit g v v 0 [] = some order ∧
      (∀ fuel > 2 * v, depthFirstSearch fuel mem id g = .ok (g.marked order, order.map g.shown)) ∧
      order.Nodup ∧ ∀ x, x ∈ order ↔ Reachable g v x := by
  obtain ⟨order, horder, hrun, hnodup, hmem⟩ := exists_preorder g hv
  exact ⟨order, horder, fun fuel hfuel => depthFirstSearch_reaches hg hv hfresh hrun mem id hfuel,
    hnodup, hmem⟩

/-- On the graph of `main`, where the preorder is `S A D B C`. -/
theorem depthFirstSearch_preorder_main :
    Shape mainGraph 5 5 ∧ Fresh mainGraph 5 ∧ visit mainGraph 5 5 0 [] = some [0, 1, 4, 2, 3] ∧
    ∃ order, visit mainGraph 5 5 0 [] = some order ∧
      (∀ fuel > 2 * 5, depthFirstSearch fuel (fun _ => 0) 0 mainGraph =
        .ok (mainGraph.marked order, order.map mainGraph.shown)) ∧
      order.Nodup ∧ ∀ x, x ∈ order ↔ Reachable mainGraph 5 x :=
  ⟨mainGraph_shape, mainGraph_fresh, rfl, depthFirstSearch_preorder mainGraph 5 5 mainGraph_shape
    (by decide) mainGraph_fresh (fun _ => 0) 0⟩

end Diversity.Graph
