import Diversity.Programs.Graph.BreadthFirst
import Diversity.Programs.Graph.DepthFirst

/-! @src c++/src/graph.cpp (Graph::depthFirstSearch, Graph::breadthFirstSearch) |
    name:Searching a graph again | scheme:worklist | family:graph-traversal

    Both searches mark the vertices they display, and nothing takes a mark away. So the first search of a
    graph leaves all it could reach marked, and a later one finds no unvisited neighbour of vertex 0,
    which it marks and displays without looking:

        first    0 ──▶ 1 ──▶ 4 ──▶ …    all that is reachable
        later    0                      every neighbour is marked

    That is the same set only when there is nothing to reach from vertex 0. -/

namespace Diversity.Graph
open Schemes

/-- A call of one of the two searches, with what the cells of its stack or queue held before. -/
inductive Search where
  | depthFirst (mem : ℕ → ℤ) (id : ℤ)
  | breadthFirst (mem : ℕ → ℤ)

def Search.run (fuel : ℕ) (g : Graph) : Search → C (Graph × List Out)
  | .depthFirst mem id => depthFirstSearch fuel mem id g
  | .breadthFirst mem => breadthFirstSearch fuel mem g

/-- What is displayed is the set of the vertices reachable from vertex 0. -/
def DisplaysReachable (g : Graph) (v : ℕ) (out : List Out) : Prop :=
  ∀ o, o ∈ out ↔ ∃ x, Reachable g v x ∧ o = g.shown x

/-- The calls come to an end, and each of them displays the reachable vertices. -/
def Repeatable (fuel : ℕ) (g : Graph) (v : ℕ) (calls : List Search) : Prop :=
  ∃ g' outs, runOps (Search.run fuel) g calls = .ok (g', outs) ∧ ∀ out ∈ outs, DisplaysReachable g v out

variable {g : Graph} {n v : ℕ} {fuel : ℕ}

/-! ### The first search and the later ones -/

/-- STEP: the first search displays and marks what is reachable. -/
theorem search_first (hg : Shape g n v) (hv : 1 ≤ v) (hfresh : Fresh g v) (hfuel : 2 * v < fuel)
    (c : Search) : ∃ order, c.run fuel g = .ok (g.marked order, order.map g.shown) ∧
      ∀ x, x ∈ order ↔ Reachable g v x := by
  cases c with
  | depthFirst mem id =>
    obtain ⟨order, -, hrun, -, hmem⟩ := exists_preorder g hv
    exact ⟨order, depthFirstSearch_reaches hg hv hfresh hrun mem id hfuel, hmem⟩
  | breadthFirst mem =>
    obtain ⟨order, hrun, -, hmem, -⟩ := exists_levels g hv
    exact ⟨order, breadthFirstSearch_reaches hg hv hfresh hrun mem hfuel, hmem⟩

/-- All that is reachable from vertex 0 is marked. -/
def Covers (g : Graph) (v : ℕ) (seen : List ℕ) : Prop := ∀ x, Reachable g v x → x ∈ seen

theorem Covers.nextUnseen_zero {seen : List ℕ} (h : Covers g v seen) :
    Worklist.nextUnseen (List.range v) g.adj (seen ++ [0]) 0 = none := by
  by_contra hne
  obtain ⟨j, hj⟩ := Option.ne_none_iff_exists'.mp hne
  obtain ⟨hedge, hnew⟩ := Worklist.nextUnseen_some hj
  exact hnew (List.mem_append_left _ (h j (Relation.ReflTransGen.single hedge)))

/-- STEP: a later search displays vertex 0 and leaves the loop. -/
theorem search_again (hg : Shape g n v) (hv : 1 ≤ v) (hfresh : Fresh g v) (hfuel : 2 * v < fuel)
    {seen : List ℕ} (hseen : Covers g v seen) (c : Search) :
    c.run fuel (g.marked seen) = .ok (g.marked (seen ++ [0]), [g.shown 0]) := by
  have hn : 0 < n := hv.trans hg.fits
  have hcap : (g.marked seen).capacity = n := hg.capacity
  have hvisit : (g.marked seen).visitVertex 0 = .ok (g.marked (seen ++ [0]), g.shown 0) :=
    visitVertex_marked seen hg hn
  obtain ⟨fuel, rfl⟩ : ∃ k, fuel = k + 1 + 1 := ⟨fuel - 2, by omega⟩
  cases c with
  | depthFirst mem id =>
    obtain ⟨stack, hnew, hempty, -⟩ := Stack.newWithId_holds mem n id
    obtain ⟨stack', hpush, hholds, -⟩ := Stack.push_room hempty hn 0
    obtain ⟨last, hleave, hlast⟩ := dfsBody_leave (s := ⟨g.marked (seen ++ [0]), stack', [g.shown 0]⟩) hg
      hfresh [] rfl (u := 0) hholds hn hseen.nextUnseen_zero
    have hdone : dfsBody ⟨g.marked (seen ++ [0]), last, [g.shown 0]⟩ =
        .ok (.done ⟨g.marked (seen ++ [0]), last, [g.shown 0]⟩) := by
      rw [dfsBody, if_pos ((Stack.isEmpty_iff hlast).mpr rfl)]
    rw [Search.run, depthFirstSearch, hcap]
    simp only [Stack.new, hnew, ok_bind, hvisit, hpush, List.map_nil]
    rw [loop_next hleave, loop_done hdone, ok_bind]
  | breadthFirst mem =>
    obtain ⟨queue, hnew, hempty⟩ := Queue.new_holds mem n
    obtain ⟨queue', henqueue, hholds⟩ := Queue.enqueue_room hempty hn 0
    obtain ⟨last, hleave, hlast⟩ := bfsBody_leave (s := ⟨g.marked (seen ++ [0]), queue', [g.shown 0]⟩) hg
      hfresh [] rfl (u := 0) hholds hn hseen.nextUnseen_zero
    have hdone : bfsBody ⟨g.marked (seen ++ [0]), last, [g.shown 0]⟩ =
        .ok (.done ⟨g.marked (seen ++ [0]), last, [g.shown 0]⟩) := by
      rw [bfsBody, if_pos ((Queue.isEmpty_iff hlast).mpr rfl)]
    rw [Search.run, breadthFirstSearch, hcap]
    simp only [hnew, ok_bind, hvisit, henqueue, List.map_nil]
    rw [loop_next hleave, loop_done hdone, ok_bind]

/-! ### Sequences of searches -/

/-- RUN: once all that is reachable is marked, every search displays vertex 0 alone. -/
theorem run_again (hg : Shape g n v) (hv : 1 ≤ v) (hfresh : Fresh g v) (hfuel : 2 * v < fuel) :
    ∀ (calls : List Search) {seen : List ℕ}, Covers g v seen →
      ∃ g', runOps (Search.run fuel) (g.marked seen) calls =
        .ok (g', List.replicate calls.length [g.shown 0])
  | [], seen, _ => ⟨g.marked seen, rfl⟩
  | c :: calls, seen, hseen => by
    have hmore : Covers g v (seen ++ [0]) := fun x hx => List.mem_append_left _ (hseen x hx)
    obtain ⟨g', hrest⟩ := run_again hg hv hfresh hfuel calls hmore
    refine ⟨g', ?_⟩
    simp only [runOps, search_again hg hv hfresh hfuel hseen c, ok_bind, hrest]
    rfl

/-- RUN: the first search displays what is reachable, and the later ones vertex 0 alone. -/
theorem run_searches (hg : Shape g n v) (hv : 1 ≤ v) (hfresh : Fresh g v) (hfuel : 2 * v < fuel)
    (c : Search) (calls : List Search) :
    ∃ (g' : Graph) (order : List ℕ), runOps (Search.run fuel) g (c :: calls) =
        .ok (g', order.map g.shown :: List.replicate calls.length [g.shown 0]) ∧
      ∀ x, x ∈ order ↔ Reachable g v x := by
  obtain ⟨order, hfirst, hmem⟩ := search_first hg hv hfresh hfuel c
  obtain ⟨g', hrest⟩ := run_again hg hv hfresh hfuel calls fun x hx => (hmem x).mpr hx
  refine ⟨g', order, ?_, hmem⟩
  simp only [runOps, hfirst, ok_bind, hrest]

theorem displaysReachable_map {order : List ℕ} (h : ∀ x, x ∈ order ↔ Reachable g v x) :
    DisplaysReachable g v (order.map g.shown) := by
  intro o
  rw [List.mem_map]
  constructor
  · rintro ⟨x, hx, rfl⟩
    exact ⟨x, (h x).mp hx, rfl⟩
  · rintro ⟨x, hx, rfl⟩
    exact ⟨x, (h x).mpr hx, rfl⟩

/-- Vertex 0 has no neighbour but itself. -/
def Lonely (g : Graph) (v : ℕ) : Prop := ∀ j, 0 < j → j < v → g.adj 0 j = false

/-- Vertex 0 alone is the right answer exactly if it has no other neighbour. -/
theorem displaysReachable_zero : DisplaysReachable g v [g.shown 0] ↔ Lonely g v := by
  constructor
  · intro h j hpos hj
    by_contra hadj
    have hreach : Reachable g v j :=
      Relation.ReflTransGen.single ⟨List.mem_range.mpr hj, Bool.not_eq_false _ ▸ hadj⟩
    have hshown : g.shown j = g.shown 0 := List.mem_singleton.mp ((h _).mpr ⟨j, hreach, rfl⟩)
    have hindex : (j : ℤ) = (0 : ℕ) := (Out.vertex.inj hshown).1
    omega
  · intro h o
    have hzero : ∀ x, Reachable g v x → x = 0 := by
      intro x hx
      induction hx with
      | refl => rfl
      | tail _ hedge ih =>
        subst ih
        by_contra hne
        have hoff := h _ (Nat.pos_of_ne_zero hne) (List.mem_range.mp hedge.1)
        rw [hedge.2] at hoff
        cases hoff
    constructor
    · intro ho
      exact ⟨0, Relation.ReflTransGen.refl, List.mem_singleton.mp ho⟩
    · rintro ⟨x, hx, rfl⟩
      rw [hzero x hx]
      exact List.mem_singleton_self _

/-- A sequence of searches displays the reachable vertices each time exactly if it has at most one call,
    or vertex 0 has no neighbour but itself. -/
theorem searches_repeat_iff (g : Graph) (n v : ℕ) (hg : Shape g n v) (hv : 1 ≤ v) (hfresh : Fresh g v)
    (calls : List Search) (fuel : ℕ) (hfuel : 2 * v < fuel) :
    Repeatable fuel g v calls ↔ calls.length ≤ 1 ∨ ∀ j, 0 < j → j < v → g.adj 0 j = false := by
  cases calls with
  | nil => exact iff_of_true ⟨g, [], rfl, by simp⟩ (Or.inl (Nat.zero_le 1))
  | cons c calls =>
    obtain ⟨g', order, hrun, hmem⟩ := run_searches hg hv hfresh hfuel c calls
    have hfirst := displaysReachable_map hmem
    have hall : Repeatable fuel g v (c :: calls) ↔
        ∀ out ∈ List.replicate calls.length [g.shown 0], DisplaysReachable g v out := by
      constructor
      · rintro ⟨g'', outs, hrun', houts⟩
        rw [hrun] at hrun'
        cases hrun'
        exact fun out hout => houts out (List.mem_cons_of_mem _ hout)
      · intro hrest
        refine ⟨g', _, hrun, ?_⟩
        rw [List.forall_mem_cons]
        exact ⟨hfirst, hrest⟩
    rw [hall, List.length_cons]
    rcases calls with - | ⟨c', calls⟩
    · exact iff_of_true (by simp) (Or.inl le_rfl)
    · constructor
      · intro hrest
        exact Or.inr (displaysReachable_zero.mp (hrest _ (by simp)))
      · rintro (hlen | hlonely)
        · simp at hlen
        · intro out hout
          rw [List.eq_of_mem_replicate hout]
          exact displaysReachable_zero.mpr hlonely

/-- One search of the graph of `main`. -/
theorem searches_repeat_iff_main :
    Repeatable 11 mainGraph 5 [.breadthFirst fun _ => 0] ↔
      [Search.breadthFirst fun _ => 0].length ≤ 1 ∨ ∀ j, 0 < j → j < 5 → mainGraph.adj 0 j = false :=
  searches_repeat_iff mainGraph 5 5 mainGraph_shape (by decide) mainGraph_fresh
    [.breadthFirst fun _ => 0] 11 (by decide)

/-- The two searches that `main` has in its text, one after the other: the second one displays `S` alone,
    though `A` is reachable. -/
theorem second_search_displays_start :
    (runOps (Search.run 11) mainGraph [.depthFirst (fun _ => 0) 0, .breadthFirst fun _ => 0]).map
        (fun r => r.2.map fun out => out.map Out.text) =
      .ok [["S ", "A ", "D ", "B ", "C "], ["S "]] ∧
    ¬ Repeatable 11 mainGraph 5 [.depthFirst (fun _ => 0) 0, .breadthFirst fun _ => 0] := by
  refine ⟨rfl, ?_⟩
  rintro ⟨g', outs, hrun, houts⟩
  obtain ⟨g'', order, hrun', -⟩ := run_searches mainGraph_shape (by decide) mainGraph_fresh
    (show 2 * 5 < 11 by decide) (.depthFirst (fun _ => 0) 0) [.breadthFirst fun _ => 0]
  rw [hrun'] at hrun
  cases hrun
  have hlonely := displaysReachable_zero.mp (houts [mainGraph.shown 0] (by simp))
  exact absurd (hlonely 1 (by decide) (by decide)) (by decide)

end Diversity.Graph
