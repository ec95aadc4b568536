import Diversity.Schemes.Levels
import Diversity.Programs.Graph.Graph

/-! @src c++/src/graph.cpp (Graph::breadthFirstSearch) | name:Breadth-first search |
    scheme:levels | family:graph-traversal

    The same loop as the depth-first search around a queue: the vertex at the head stays there while
    it has unvisited neighbours, one of which is displayed and enqueued in each iteration. The queue
    `Holds` the worklist, so the run is a breadth-first worklist run and the displayed vertices come
    in non-decreasing distance from vertex 0. -/

namespace Diversity.Graph
open Schemes

/-- State of the loop. -/
structure Bfs where
  graph : Graph
  queue : Queue
  cout : List Out

/-- One turn of `while (!queue.is_empty())`. -/
def bfsBody (s : Bfs) : C (Iter Bfs Bfs) :=
  if s.queue.isEmpty then .ok (.done s)
  else do
    let i ← s.queue.peek
    let j ← s.graph.getAdjUnvisitedVertex i
    if j ≠ -1 then
      let (graph, out) ← s.graph.visitVertex j
      let (queue, msgs) ← s.queue.enqueue j
      .ok (.next ⟨graph, queue, s.cout ++ out :: msgs.map .queue⟩)
    else
      let (queue, _, msgs) ← s.queue.dequeue
      .ok (.next ⟨s.graph, queue, s.cout ++ msgs.map .queue⟩)

/-- `breadthFirstSearch()`; `mem` is what the new queue's cells held before. -/
def breadthFirstSearch (fuel : ℕ) (mem : ℕ → ℤ) (g : Graph) : C (Graph × List Out) := do
  let queue ← Queue.new mem g.capacity
  let (graph, out) ← g.visitVertex 0
  let (queue, msgs) ← queue.enqueue 0
  let s ← loop bfsBody fuel ⟨graph, queue, out :: msgs.map .queue⟩
  .ok (s.graph, s.cout)

/-- Number of edges on a shortest path from vertex 0 among the first `v` vertices. -/
noncomputable def distance (g : Graph) (v : ℕ) : ℕ → ℕ := Worklist.dist (List.range v) g.adj 0

/-- `s` is at the worklist state `a` of the search of `g`. -/
structure BfsAt (g : Graph) (n : ℕ) (s : Bfs) (a : Worklist.State ℕ) : Prop where
  graph : s.graph = g.marked a.seen
  queue : s.queue.Holds n (a.work.map Int.ofNat)
  cout : s.cout = a.seen.map g.shown

variable {g : Graph} {n v : ℕ} {s : Bfs} {a b : Worklist.State ℕ}

theorem bfsBody_done (hs : BfsAt g n s a) (hw : a.work = []) : bfsBody s = .ok (.done s) := by
  rw [bfsBody, if_pos ((Queue.isEmpty_iff hs.queue).mpr (by simp [hw]))]

/-- A vertex without unvisited neighbours is dequeued. -/
theorem bfsBody_leave (hg : Shape g n v) (hfresh : Fresh g v) {seen : List ℕ} {u : ℕ} (rest : List ℕ)
    (hgraph : s.graph = g.marked seen) (hqueue : s.queue.Holds n ((u :: rest).map Int.ofNat)) (hu : u < n)
    (hn : Worklist.nextUnseen (List.range v) g.adj seen u = none) :
    ∃ queue, bfsBody s = .ok (.next ⟨g.marked seen, queue, s.cout⟩) ∧
      queue.Holds n (rest.map Int.ofNat) := by
  rw [List.map_cons] at hqueue
  have hne : ¬ s.queue.isEmpty = true := by rw [Queue.isEmpty_iff hqueue]; simp
  have hscan := getAdjUnvisitedVertex_marked seen hg hfresh hu
  obtain ⟨queue, hdequeue, hholds⟩ := Queue.dequeue_cons hqueue
  refine ⟨queue, ?_, hholds⟩
  rw [bfsBody, if_neg hne, Queue.peek_cons hqueue, ok_bind, hgraph]
  rw [hn] at hscan
  simp only [Int.ofNat_eq_natCast] at hscan ⊢
  rw [hscan]
  simp [hdequeue]

/-- An iteration of the loop is an iteration of the worklist search. -/
theorem bfsBody_next (hg : Shape g n v) (hfresh : Fresh g v) (hs : BfsAt g n s a)
    (ha : Worklist.Inv (List.range v) g.adj 0 a)
    (hstep : Worklist.step (List.range v) g.adj Worklist.fifo a = some b) :
    ∃ s', bfsBody s = .ok (.next s') ∧ BfsAt g n s' b := by
  have hroom := (Worklist.inv_step Worklist.fifo_perm hstep ha).work_le
  obtain ⟨u, rest, hw, hcase⟩ := Worklist.step_cases hstep
  have hqueue := hs.queue
  rw [hw] at hqueue
  have hu : u < n := lt_of_mem_work hg ha (hw ▸ List.mem_cons_self ..)
  rcases hcase with ⟨j, hj, rfl⟩ | ⟨hn, rfl⟩
  · rw [List.map_cons] at hqueue
    have hne : ¬ s.queue.isEmpty = true := by rw [Queue.isEmpty_iff hqueue]; simp
    have hscan := getAdjUnvisitedVertex_marked a.seen hg hfresh hu
    have hjn : j < n := lt_of_nextUnseen a.seen hg hj
    obtain ⟨queue, henqueue, hholds⟩ := Queue.enqueue_room hqueue (by
      simp only [Worklist.fifo, List.length_append, List.length_range, List.length_cons] at hroom
      simpa using hroom.trans hg.fits) (Int.ofNat j)
    refine ⟨⟨g.marked (a.seen ++ [j]), queue, s.cout ++ [g.shown j]⟩, ?_, rfl, ?_, ?_⟩
    · rw [bfsBody, if_neg hne, Queue.peek_cons hqueue, ok_bind, hs.graph]
      rw [hj] at hscan
      have hpos : Int.ofNat j ≠ -1 := by simp
      simp only [Int.ofNat_eq_natCast] at hscan henqueue hpos ⊢
      rw [hscan]
      simp [visitVertex_marked a.seen hg hjn, henqueue, hpos]
    · simpa [Worklist.fifo] using hholds
    · simp [hs.cout]
  · obtain ⟨queue, hbody, hholds⟩ := bfsBody_leave hg hfresh rest hs.graph hqueue hu hn
    exact ⟨_, hbody, rfl, hholds, hs.cout⟩

/-- The search ends where the worklist run does. -/
theorem breadthFirstSearch_reaches (hg : Shape g n v) (hv : 1 ≤ v) (hfresh : Fresh g v)
    {order : List ℕ}
    (hrun : Worklist.Reaches (List.range v) g.adj Worklist.fifo ⟨[0], [0]⟩ ⟨order, []⟩)
    (mem : ℕ → ℤ) {fuel : ℕ} (hfuel : 2 * v < fuel) :
    breadthFirstSearch fuel mem g = .ok (g.marked order, order.map g.shown) := by
  obtain ⟨queue, hnew, hempty⟩ := Queue.new_holds mem n
  obtain ⟨queue', henqueue, hholds⟩ := Queue.enqueue_room hempty (hv.trans hg.fits) 0
  have hvisit : g.visitVertex 0 = .ok (g.marked [0], g.shown 0) := by
    have h := visitVertex_marked [] hg (hv.trans hg.fits)
    rwa [marked_nil] at h
  obtain ⟨r, hloop, hr⟩ := Worklist.loop_search (R := BfsAt g n) Worklist.fifo_perm
    (fun _ _ _ hs ha hstep => bfsBody_next hg hfresh hs ha hstep)
    (fun _ _ hs hw => bfsBody_done hs hw) (List.mem_range.mpr hv) hrun
    (c := ⟨g.marked [0], queue', [g.shown 0]⟩) ⟨rfl, hholds, rfl⟩ (by simpa using hfuel)
  rw [breadthFirstSearch, hg.capacity]
  simp only [hnew, ok_bind, hvisit, henqueue, List.map_nil, hloop, hr.graph, hr.cout]

/-- The worklist run ends with the reachable vertices, in non-decreasing distance. -/
theorem exists_levels (g : Graph) {v : ℕ} (hv : 1 ≤ v) : ∃ order,
    Worklist.Reaches (List.range v) g.adj Worklist.fifo ⟨[0], [0]⟩ ⟨order, []⟩ ∧
      order.Nodup ∧ (∀ x, x ∈ order ↔ Reachable g v x) ∧
      order.Pairwise (fun x y => distance g v x ≤ distance g v y) := by
  have hinv := Worklist.inv_init g.adj (List.mem_range.mpr hv)
  obtain ⟨⟨order, work⟩, hrun, hend⟩ := Worklist.exists_final Worklist.fifo_perm hinv
  obtain rfl : work = [] := Worklist.work_nil_of_step_none hend
  have hfinal := Worklist.inv_reaches Worklist.fifo_perm hinv hrun
  have hlevels := Worklist.levels_reaches hrun hinv Worklist.levels_init
  exact ⟨order, hrun, hfinal.seenNodup, hfinal.final rfl, hlevels.sorted⟩

/-- CORRECT: the loop ends, and it displays the vertices reachable from vertex 0, each once, in
    non-decreasing distance. Nothing else is printed, in particular no `queue is full`. -/
theorem breadthFirstSearch_levels (g : Graph) (n v : ℕ) (hg : Shape g n v) (hv : 1 ≤ v)
    (hfresh : Fresh g v) (mem : ℕ → ℤ) :
    ∃ order : List ℕ,
      (∀ fuel > 2 * v, breadthFirstSearch fuel mem g = .ok (g.marked order, order.map g.shown)) ∧
      order.Nodup ∧ (∀ x, x ∈ order ↔ Reachable g v x) ∧
      order.Pairwise (fun x y => distance g v x ≤ distance g v y) := by
  obtain ⟨order, hrun, hnodup, hmem, hsorted⟩ := exists_levels g hv
  exact ⟨order, fun fuel hfuel => breadthFirstSearch_reaches hg hv hfresh hrun mem hfuel, hnodup, hmem,
    hsorted⟩

/-- On the graph of `main`. -/
theorem breadthFirstSearch_levels_main :
    Shape mainGraph 5 5 ∧ Fresh mainGraph 5 ∧ ∃ order : List ℕ,
      (∀ fuel > 2 * 5, breadthFirstSearch fuel (fun _ => 0) mainGraph =
        .ok (mainGraph.marked order, order.map mainGraph.shown)) ∧
      order.Nodup ∧ (∀ x, x ∈ order ↔ Reachable mainGraph 5 x) ∧
      order.Pairwise (fun x y => distance mainGraph 5 x ≤ distance mainGraph 5 y) :=
  ⟨mainGraph_shape, mainGraph_fresh, breadthFirstSearch_levels mainGraph 5 5 mainGraph_shape
    (by decide) mainGraph_fresh (fun _ => 0)⟩

end Diversity.Graph
