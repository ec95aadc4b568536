import Diversity.Schemes.Worklist
import Diversity.Programs.Containers.Stack
import Diversity.Programs.Containers.Queue

/-! @src c++/src/graph.cpp (class Vertex, class Graph) | name:Graph | scheme:machine | family:graph

    The graph with an adjacency matrix: construction, the scan for an unvisited neighbour, and the
    marking of a vertex that both searches do. The matrix and the vertices live in blocks of
    `capacity` cells that are never initialised, and only an entry equal to 1 is an edge. `Shape`
    is what the constructor guarantees; `marked` is the graph with some vertices visited, and in
    these terms the scan is `nextUnseen` over `0 .. vertex_count - 1`. -/

namespace Diversity
open Schemes

structure Vertex where
  label : Char
  visited : Bool
  deriving DecidableEq, Repr

/-- The fields of `class Graph`. -/
structure Graph where
  vertices : List Vertex
  adjMatrix : List (List ℤ)
  vertexCount : ℤ
  capacity : ℤ
  deriving DecidableEq, Repr

namespace Graph

/-- `Graph(int n)`: `vmem` and `amem` are what the new blocks held before. -/
def new (vmem : ℕ → Vertex) (amem : ℕ → ℕ → ℤ) (n : ℤ) : C Graph := do
  let vertices ← newArray vmem n
  let adjMatrix ← (List.range n.toNat).mapM (fun i => newArray (amem i) n)
  .ok { vertices, adjMatrix, vertexCount := 0, capacity := n }

def addVertex (g : Graph) (label : Char) : C Graph := do
  let vertices ← store g.vertices g.vertexCount ⟨label, false⟩
  .ok { g with vertices, vertexCount := g.vertexCount + 1 }

/-- `adjMatrix[i][j] = x`. -/
def setEntry (m : List (List ℤ)) (i j x : ℤ) : C (List (List ℤ)) := do
  let row ← load m i
  let row ← store row j x
  store m i row

def addEdge (g : Graph) (start fin : ℤ) : C Graph := do
  let m ← setEntry g.adjMatrix start fin 1
  let m ← setEntry m fin start 1
  .ok { g with adjMatrix := m }

/-- The loop of `getAdjUnvisitedVertex` over the remaining indices; `visited` is read only where
    the entry is 1. -/
def scanRow (g : Graph) (virtexIndex : ℤ) : List ℕ → C ℤ
  | [] => .ok (-1)
  | i :: is => do
    let row ← load g.adjMatrix virtexIndex
    let entry ← load row i
    if entry = 1 then
      let vertex ← load g.vertices i
      if vertex.visited = false then .ok i else scanRow g virtexIndex is
    else scanRow g virtexIndex is

def getAdjUnvisitedVertex (g : Graph) (virtexIndex : ℤ) : C ℤ :=
  scanRow g virtexIndex (List.range g.vertexCount.toNat)

/-- What a search prints: a vertex by `display()`, or a message of its stack or queue. -/
inductive Out where
  | vertex (i : ℤ) (label : Char)
  | stack (m : Stack.Msg)
  | queue (m : Queue.Msg)
  deriving DecidableEq, Repr

/-- The text on `cout`. -/
def Out.text : Out → String
  | .vertex _ label => label.toString ++ " "
  | .stack m => m.text
  | .queue m => m.text

/-- `vertices[i].visited = true; vertices[i].display();`. -/
def visitVertex (g : Graph) (i : ℤ) : C (Graph × Out) := do
  let v ← load g.vertices i
  let vertices ← store g.vertices i { v with visited := true }
  .ok ({ g with vertices }, .vertex i v.label)

/-- The graph `main` builds, on memory that was zero. -/
def mainGraph : Graph where
  vertices := [⟨'S', false⟩, ⟨'A', false⟩, ⟨'B', false⟩, ⟨'C', false⟩, ⟨'D', false⟩]
  adjMatrix := [[0, 1, 1, 1, 0], [1, 0, 0, 0, 1], [1, 0, 0, 0, 1], [1, 0, 0, 0, 1], [0, 1, 1, 1, 0]]
  vertexCount := 5
  capacity := 5

example : (do
    let g ← Graph.new (fun _ => ⟨'?', true⟩) (fun _ _ => 0) 5
    let g ← ['S', 'A', 'B', 'C', 'D'].foldlM addVertex g
    [((0 : ℤ), (1 : ℤ)), (0, 2), (0, 3), (1, 4), (2, 4), (3, 4)].foldlM
      (fun g (s, e) => addEdge g s e) g)
      = .ok mainGraph := by
  rfl

/-! ### Shape and marks -/

/-- `g` has room for `n` vertices and holds `v` of them. -/
structure Shape (g : Graph) (n v : ℕ) : Prop where
  vertices : g.vertices.length = n
  rows : g.adjMatrix.length = n
  cols : ∀ row ∈ g.adjMatrix, row.length = n
  capacity : g.capacity = n
  vertexCount : g.vertexCount = v
  fits : v ≤ n

/-- Is the entry `adjMatrix[i][j]` 1? -/
def adj (g : Graph) (i j : ℕ) : Bool := (g.adjMatrix[i]? >>= fun row => row[j]?) == some 1

/-- Reachable from vertex 0 through entries equal to 1 among the first `v` vertices. -/
def Reachable (g : Graph) (v : ℕ) : ℕ → Prop := Worklist.Reach (List.range v) g.adj 0

/-- No vertex in use is marked. -/
def Fresh (g : Graph) (v : ℕ) : Prop := ∀ i < v, ∀ x, g.vertices[i]? = some x → x.visited = false

/-- Vertex `i` once those in `seen` are marked. -/
def markVertex (seen : List ℕ) (i : ℕ) (x : Vertex) : Vertex :=
  if i ∈ seen then { x with visited := true } else x

/-- `g` with the vertices in `seen` marked as well. -/
def marked (g : Graph) (seen : List ℕ) : Graph :=
  { g with vertices := g.vertices.mapIdx (markVertex seen) }

/-- The output of `display()` on vertex `i`. -/
def shown (g : Graph) (i : ℕ) : Out := .vertex i ((g.vertices[i]?.map Vertex.label).getD ' ')

variable {g : Graph} {n v u : ℕ} (seen : List ℕ)

theorem marked_nil : g.marked [] = g := by
  have hid : g.vertices.mapIdx (markVertex []) = g.vertices :=
    List.ext_getElem? fun i => by cases h : g.vertices[i]? <;> simp [markVertex, h]
  rw [marked, hid]

@[simp] theorem marked_adjMatrix : (g.marked seen).adjMatrix = g.adjMatrix := rfl

@[simp] theorem marked_vertexCount : (g.marked seen).vertexCount = g.vertexCount := rfl

theorem marked_getElem? (i : ℕ) : (g.marked seen).vertices[i]? =
    g.vertices[i]?.map (markVertex seen i) := by
  simp [marked]

theorem exists_vertex (hg : Shape g n v) {i : ℕ} (hi : i < n) : ∃ x, g.vertices[i]? = some x := by
  have hi' : i < g.vertices.length := by rw [hg.vertices]; exact hi
  exact ⟨g.vertices[i], List.getElem?_eq_getElem hi'⟩

theorem exists_entry (hg : Shape g n v) {i j : ℕ} (hi : i < n) (hj : j < n) :
    ∃ row x, g.adjMatrix[i]? = some row ∧ row[j]? = some x := by
  have hi' : i < g.adjMatrix.length := by rw [hg.rows]; exact hi
  have hj' : j < g.adjMatrix[i].length := by rw [hg.cols _ (List.getElem_mem hi')]; exact hj
  exact ⟨_, _, List.getElem?_eq_getElem hi', List.getElem?_eq_getElem hj'⟩

/-- With the vertices in `seen` marked, the scan reads off the first unseen neighbour. -/
theorem scanRow_marked (hg : Shape g n v) (hfresh : Fresh g v) (hu : u < n) :
    ∀ is : List ℕ, (∀ i ∈ is, i < v) → (g.marked seen).scanRow u is =
      .ok (((is.find? (fun i => g.adj u i && decide (i ∉ seen))).map Int.ofNat).getD (-1))
  | [], _ => rfl
  | i :: is, his => by
    have hi : i < v := his i (List.mem_cons_self ..)
    have ih := scanRow_marked hg hfresh hu is (fun k hk => his k (List.mem_cons_of_mem _ hk))
    obtain ⟨row, x, hrow, hx⟩ := exists_entry hg hu (hi.trans_le hg.fits)
    obtain ⟨vertex, hvertex⟩ := exists_vertex hg (hi.trans_le hg.fits)
    have hadj : g.adj u i = decide (x = 1) := by
      simp [adj, hrow, hx, Bool.beq_eq_decide_eq]
    have hload : load (g.marked seen).vertices i = .ok (markVertex seen i vertex) :=
      load_of_getElem? (by rw [marked_getElem?, hvertex]; rfl)
    rw [scanRow, marked_adjMatrix, load_of_getElem? hrow, ok_bind, load_of_getElem? hx, ok_bind,
      hload, ok_bind, ih, List.find?_cons, hadj]
    by_cases h1 : x = 1
    · by_cases hs : i ∈ seen
      · simp [h1, hs, markVertex]
      · simp [h1, hs, markVertex, hfresh i hi vertex hvertex]
    · simp [h1]

theorem getAdjUnvisitedVertex_marked (hg : Shape g n v) (hfresh : Fresh g v) (hu : u < n) :
    (g.marked seen).getAdjUnvisitedVertex u =
      .ok (((Worklist.nextUnseen (List.range v) g.adj seen u).map Int.ofNat).getD (-1)) := by
  rw [getAdjUnvisitedVertex, marked_vertexCount, hg.vertexCount, Int.toNat_natCast,
    scanRow_marked seen hg hfresh hu _ (by simp), Worklist.nextUnseen]

/-- The search only ever looks at vertices in use. -/
theorem lt_of_mem_work (hg : Shape g n v) {a : Worklist.State ℕ}
    (ha : Worklist.Inv (List.range v) g.adj 0 a) (hu : u ∈ a.work) : u < n :=
  (List.mem_range.mp (ha.inside (ha.opened hu))).trans_le hg.fits

theorem lt_of_nextUnseen (hg : Shape g n v) {j : ℕ}
    (hj : Worklist.nextUnseen (List.range v) g.adj seen u = some j) : j < n :=
  (List.mem_range.mp (Worklist.nextUnseen_some hj).1.1).trans_le hg.fits

theorem visitVertex_marked (hg : Shape g n v) {j : ℕ} (hj : j < n) :
    (g.marked seen).visitVertex j = .ok (g.marked (seen ++ [j]), g.shown j) := by
  obtain ⟨x, hx⟩ := exists_vertex hg hj
  have hlt : j < (g.marked seen).vertices.length := by simp [marked, hg.vertices, hj]
  have hload : load (g.marked seen).vertices j = .ok (markVertex seen j x) :=
    load_of_getElem? (by rw [marked_getElem?, hx]; rfl)
  rw [visitVertex, hload, ok_bind, store_of_lt hlt, ok_bind]
  congr 1
  refine Prod.ext ?_ ?_
  · suffices h : (g.marked seen).vertices.set j { markVertex seen j x with visited := true } =
        (g.marked (seen ++ [j])).vertices by rw [h]; rfl
    refine List.ext_getElem? fun k => ?_
    by_cases hk : k = j
    · subst hk
      rw [List.getElem?_set_self hlt, marked_getElem?, hx]
      by_cases hs : k ∈ seen <;> simp [hs, markVertex]
    · rw [List.getElem?_set_ne (Ne.symm hk), marked_getElem?, marked_getElem?]
      have hsame : markVertex (seen ++ [j]) k = markVertex seen k := by
        funext y
        simp [markVertex, hk]
      rw [hsame]
  · by_cases hs : j ∈ seen <;> simp [shown, hx, hs, markVertex]

theorem mainGraph_shape : Shape mainGraph 5 5 := ⟨rfl, rfl, by decide, rfl, rfl, le_rfl⟩

theorem mainGraph_fresh : Fresh mainGraph 5 := by
  intro i hi x hx
  interval_cases i <;> (cases hx; rfl)

end Graph

end Diversity
