import Diversity.Programs.Graph.DepthFirst

/-! @src c++/src/graph.cpp (Graph::Graph, addVertex, addEdge) | name:Building a graph |
    scheme:machine | family:graph

    A graph as its interface builds it: the constructor, then `addVertex` and `addEdge` in any order.
    The constructor takes both blocks as they come from `new` and writes no entry, `addEdge` writes
    two, and the search takes an entry equal to 1 for an edge. So the matrix is the list of edges
    added, laid over what the memory held before:

        adjMatrix[i][j]  =  1           when (i, j) or (j, i) was added
                            amem i j    otherwise

    `addEdge` takes any index below `n`, the search goes through the first `vertex_count` only. An edge
    to an index that has no vertex yet stays in the matrix and leads nowhere until the vertex is added. -/

namespace Diversity.Graph
open Schemes

/-- A call of the interface after the constructor. -/
inductive Call where
  | addVertex (label : Char)
  | addEdge (start fin : ℤ)
  deriving DecidableEq, Repr

def Call.exec (g : Graph) : Call → C Graph
  | .addVertex label => g.addVertex label
  | .addEdge start fin => g.addEdge start fin

/-- `Graph(n)` and the calls after it, on memory that held `vmem` and `amem`. -/
def construct (vmem : ℕ → Vertex) (amem : ℕ → ℕ → ℤ) (n : ℤ) (calls : List Call) : C Graph := do
  let g ← Graph.new vmem amem n
  calls.foldlM Call.exec g

/-- The labels of the vertices added, in order. -/
def labels (calls : List Call) : List Char :=
  calls.filterMap fun
    | .addVertex label => some label
    | .addEdge _ _ => none

/-- An edge between `i` and `j` was added. -/
def Added (calls : List Call) (i j : ℕ) : Prop :=
  .addEdge i j ∈ calls ∨ .addEdge j i ∈ calls

instance (calls : List Call) (i j : ℕ) : Decidable (Added calls i j) :=
  inferInstanceAs (Decidable (_ ∨ _))

/-- From one to `n` vertices are added, and only edges between indices below `n`. -/
structure Allowed (n : ℕ) (calls : List Call) : Prop where
  nonempty : 1 ≤ (labels calls).length
  room : (labels calls).length ≤ n
  inside : ∀ s e : ℤ, .addEdge s e ∈ calls → (0 ≤ s ∧ s < n) ∧ 0 ≤ e ∧ e < n

/-- Connected with vertex 0 by added edges, through any indices. -/
def Connected (calls : List Call) : ℕ → Prop := Relation.ReflTransGen (Added calls) 0

/-- Connected with vertex 0 by added edges that lead to vertices only. -/
def Within (calls : List Call) : ℕ → Prop :=
  Relation.ReflTransGen (fun i j => j < (labels calls).length ∧ Added calls i j) 0

/-- `g` has exactly the edges added, and the search displays exactly the vertices in `expected`. -/
structure Faithful (n : ℕ) (calls : List Call) (expected : ℕ → Prop) (g : Graph) : Prop where
  edges : ∀ i j, i < n → j < n → (g.adj i j = true ↔ Added calls i j)
  search : ∀ (mem : ℕ → ℤ) (id : ℤ), ∃ order,
    (∀ fuel > 2 * (labels calls).length,
      depthFirstSearch fuel mem id g = .ok (g.marked order, order.map g.shown)) ∧
    order.Nodup ∧ ∀ x, x ∈ order ↔ expected x

/-- No entry at which no edge was added held a 1 before the constructor. -/
def Clean (amem : ℕ → ℕ → ℤ) (n : ℕ) (calls : List Call) : Prop :=
  ∀ i j, i < n → j < n → ¬ Added calls i j → amem i j ≠ 1

/-! ### Entries -/

/-- The entry `m[i][j]`, if it is inside. -/
def entry (m : List (List ℤ)) (i j : ℕ) : Option ℤ := m[i]? >>= fun row => row[j]?

/-- `m` has `n` rows and `n` columns. -/
def Square (n : ℕ) (m : List (List ℤ)) : Prop := m.length = n ∧ ∀ row ∈ m, row.length = n

/-- Writing one entry leaves the others alone. -/
theorem setEntry_spec {n i j : ℕ} {m : List (List ℤ)} (hm : Square n m) (hi : i < n) (hj : j < n)
    (x : ℤ) : ∃ m', setEntry m i j x = .ok m' ∧ Square n m' ∧
      ∀ a b, a < n → b < n → entry m' a b = if a = i ∧ b = j then some x else entry m a b := by
  obtain ⟨hrows, hcols⟩ := hm
  have hi' : i < m.length := by rw [hrows]; exact hi
  have hrow : m[i].length = n := hcols _ (List.getElem_mem hi')
  have hload : load m i = .ok m[i] := load_of_getElem? (List.getElem?_eq_getElem hi')
  have hj' : j < m[i].length := by rw [hrow]; exact hj
  refine ⟨m.set i (m[i].set j x), ?_, ⟨by rw [List.length_set, hrows], ?_⟩, ?_⟩
  · rw [setEntry, hload, ok_bind, store_of_lt hj', ok_bind, store_of_lt hi']
  · intro row hmem
    rcases List.mem_or_eq_of_mem_set hmem with h | rfl
    · exact hcols row h
    · rw [List.length_set, hrow]
  · intro a b ha hb
    by_cases hai : a = i
    · subst hai
      have hset : entry (m.set a (m[a].set j x)) a b = (m[a].set j x)[b]? := by
        rw [entry, List.getElem?_set_self hi']
        rfl
      have hold : entry m a b = m[a][b]? := by
        rw [entry, List.getElem?_eq_getElem hi']
        rfl
      by_cases hbj : b = j
      · subst hbj
        rw [hset, if_pos ⟨rfl, rfl⟩, List.getElem?_set_self hj']
      · rw [hset, hold, if_neg (fun h => hbj h.2), List.getElem?_set_ne (Ne.symm hbj)]
    · rw [entry, entry, List.getElem?_set_ne (Ne.symm hai), if_neg (fun h => hai h.1)]

/-! ### The graph after some calls -/

/-- What the calls made of the memory. -/
structure Built (amem : ℕ → ℕ → ℤ) (n : ℕ) (calls : List Call) (g : Graph) : Prop where
  shape : Shape g n (labels calls).length
  vertices : ∀ (i : ℕ) label, (labels calls)[i]? = some label → g.vertices[i]? = some ⟨label, false⟩
  entries : ∀ i j, i < n → j < n →
    entry g.adjMatrix i j = some (if Added calls i j then 1 else amem i j)

variable {amem : ℕ → ℕ → ℤ} {n : ℕ} {calls : List Call} {g : Graph}

theorem mapM_ok {α β : Type} (f : α → β) : ∀ l : List α,
    l.mapM (fun x => (.ok (f x) : C β)) = .ok (l.map f)
  | [] => rfl
  | x :: l => by
    rw [List.mapM_cons, ok_bind, mapM_ok f l, ok_bind]
    rfl

/-- The constructor leaves the memory as it is. -/
theorem new_built (vmem : ℕ → Vertex) (amem : ℕ → ℕ → ℤ) (n : ℕ) :
    ∃ g, Graph.new vmem amem n = .ok g ∧ Built amem n [] g := by
  refine ⟨⟨(List.range n).map vmem, (List.range n).map fun i => (List.range n).map (amem i), 0, n⟩,
    ?_, ⟨by simp, by simp, ?_, rfl, rfl, Nat.zero_le n⟩, ?_, ?_⟩
  · simp only [Graph.new, newArray_natCast, ok_bind, Int.toNat_natCast]
    rw [mapM_ok (fun i => (List.range n).map (amem i)), ok_bind]
  · intro row hrow
    obtain ⟨i, -, rfl⟩ := List.mem_map.mp hrow
    simp
  · intro i label h
    simp [labels] at h
  · intro i j hi hj
    have hnone : ¬ Added [] i j := by simp [Added]
    simp [entry, hi, hj, hnone]

theorem labels_concat_vertex (calls : List Call) (label : Char) :
    labels (calls ++ [.addVertex label]) = labels calls ++ [label] := by
  simp [labels]

theorem labels_concat_edge (calls : List Call) (s e : ℤ) :
    labels (calls ++ [.addEdge s e]) = labels calls := by
  simp [labels]

theorem addVertex_built (hg : Built amem n calls g) (label : Char)
    (hroom : (labels calls).length < n) :
    ∃ g', g.addVertex label = .ok g' ∧ Built amem n (calls ++ [.addVertex label]) g' := by
  have hlt : (labels calls).length < g.vertices.length := by rw [hg.shape.vertices]; exact hroom
  refine ⟨{ g with
    vertices := g.vertices.set (labels calls).length ⟨label, false⟩
    vertexCount := g.vertexCount + 1 }, ?_, ⟨?_, hg.shape.rows, hg.shape.cols, hg.shape.capacity,
      ?_, ?_⟩, ?_, ?_⟩
  · rw [addVertex, hg.shape.vertexCount, store_of_lt hlt, ok_bind]
  · rw [List.length_set, hg.shape.vertices]
  · rw [labels_concat_vertex, List.length_append, List.length_singleton, hg.shape.vertexCount]
    simp
  · rw [labels_concat_vertex, List.length_append, List.length_singleton]
    exact hroom
  · intro i label' h
    rw [labels_concat_vertex] at h
    by_cases hi : i = (labels calls).length
    · subst hi
      rw [List.getElem?_concat_length] at h
      rw [List.getElem?_set_self hlt, Option.some.inj h]
    · have hlt' : i < (labels calls).length := by
        have hbound := (List.getElem?_eq_some_iff.mp h).1
        rw [List.length_append, List.length_singleton] at hbound
        omega
      rw [List.getElem?_append_left hlt'] at h
      rw [List.getElem?_set_ne (Ne.symm hi)]
      exact hg.vertices i label' h
  · intro i j hi hj
    have hsame : Added (calls ++ [.addVertex label]) i j ↔ Added calls i j := by simp [Added]
    rw [hg.entries i j hi hj, if_congr hsame rfl rfl]

theorem added_concat (calls : List Call) (s e i j : ℕ) : Added (calls ++ [.addEdge s e]) i j ↔
    (i = s ∧ j = e) ∨ (i = e ∧ j = s) ∨ Added calls i j := by
  simp only [Added, List.mem_append, List.mem_singleton, Call.addEdge.injEq, Nat.cast_inj]
  constructor
  · rintro ((h | h) | h | ⟨hj, hi⟩)
    · exact Or.inr (Or.inr (Or.inl h))
    · exact Or.inl h
    · exact Or.inr (Or.inr (Or.inr h))
    · exact Or.inr (Or.inl ⟨hi, hj⟩)
  · rintro (h | ⟨hi, hj⟩ | h | h)
    · exact Or.inl (Or.inr h)
    · exact Or.inr (Or.inr ⟨hj, hi⟩)
    · exact Or.inl (Or.inl h)
    · exact Or.inr (Or.inl h)

theorem addEdge_built (hg : Built amem n calls g) {s e : ℕ} (hs : s < n) (he : e < n) :
    ∃ g', g.addEdge s e = .ok g' ∧ Built amem n (calls ++ [.addEdge s e]) g' := by
  obtain ⟨m₁, hset₁, hsq₁, hm₁⟩ := setEntry_spec ⟨hg.shape.rows, hg.shape.cols⟩ hs he 1
  obtain ⟨m₂, hset₂, hsq₂, hm₂⟩ := setEntry_spec hsq₁ he hs 1
  refine ⟨{ g with adjMatrix := m₂ }, ?_, ⟨hg.shape.vertices, hsq₂.1, hsq₂.2, hg.shape.capacity,
    ?_, ?_⟩, ?_, ?_⟩
  · rw [addEdge, hset₁, ok_bind, hset₂, ok_bind]
  · rw [labels_concat_edge]
    exact hg.shape.vertexCount
  · rw [labels_concat_edge]
    exact hg.shape.fits
  · intro i label h
    rw [labels_concat_edge] at h
    exact hg.vertices i label h
  · intro i j hi hj
    rw [hm₂ i j hi hj, hm₁ i j hi hj, hg.entries i j hi hj, if_congr (added_concat calls s e i j) rfl rfl]
    by_cases h₁ : i = s ∧ j = e
    · simp [h₁]
    · by_cases h₂ : i = e ∧ j = s
      · simp [h₂]
      · simp [h₁, h₂]

/-- Calls that stay inside turn what was built into what is built with them. -/
theorem foldlM_built (hn : (labels calls).length ≤ n)
    (hin : ∀ s e : ℤ, .addEdge s e ∈ calls → (0 ≤ s ∧ s < n) ∧ 0 ≤ e ∧ e < n) {g₀ : Graph}
    (h₀ : Built amem n [] g₀) : ∃ g, calls.foldlM Call.exec g₀ = .ok g ∧ Built amem n calls g := by
  induction calls using List.reverseRecOn with
  | nil => exact ⟨g₀, rfl, h₀⟩
  | append_singleton calls call ih =>
    have hmono : (labels calls).length ≤ (labels (calls ++ [call])).length := by
      rw [labels, labels, List.filterMap_append, List.length_append]
      exact Nat.le_add_right _ _
    obtain ⟨g, hrun, hg⟩ := ih (hmono.trans hn) fun s e h => hin s e (List.mem_append_left _ h)
    have hexec : ∃ g', Call.exec g call = .ok g' ∧ Built amem n (calls ++ [call]) g' := by
      cases call with
      | addVertex label =>
        rw [labels_concat_vertex, List.length_append] at hn
        exact addVertex_built hg label hn
      | addEdge s e =>
        obtain ⟨⟨hs, hsn⟩, he, hen⟩ := hin s e (by simp)
        lift s to ℕ using hs
        lift e to ℕ using he
        exact addEdge_built hg (Int.ofNat_lt.mp hsn) (Int.ofNat_lt.mp hen)
    obtain ⟨g', hstep, hg'⟩ := hexec
    refine ⟨g', ?_, hg'⟩
    rw [List.foldlM_append, hrun, ok_bind, List.foldlM_cons, hstep, ok_bind]
    rfl

theorem construct_built (vmem : ℕ → Vertex) (amem : ℕ → ℕ → ℤ) (hcalls : Allowed n calls) :
    ∃ g, construct vmem amem n calls = .ok g ∧ Built amem n calls g := by
  obtain ⟨g₀, hnew, h₀⟩ := new_built vmem amem n
  obtain ⟨g, hrun, hg⟩ := foldlM_built hcalls.room hcalls.inside h₀
  exact ⟨g, by rw [construct, hnew, ok_bind, hrun], hg⟩

/-! ### Edges and searches -/

/-- An entry is an edge when one was added there or the memory held a 1. -/
theorem Built.adj_iff (hg : Built amem n calls g) {i j : ℕ} (hi : i < n) (hj : j < n) :
    g.adj i j = true ↔ Added calls i j ∨ amem i j = 1 := by
  have hentry := hg.entries i j hi hj
  rw [entry] at hentry
  rw [adj, hentry, beq_iff_eq, Option.some_inj]
  by_cases h : Added calls i j
  · simp [h]
  · simp [h]

theorem Built.fresh (hg : Built amem n calls g) : Fresh g (labels calls).length := by
  intro i hi x hx
  rw [hg.vertices i _ (List.getElem?_eq_getElem hi)] at hx
  rw [← Option.some.inj hx]

/-- What the search reaches where the entries are the edges added. -/
theorem reachable_iff (hg : Built amem n calls g) (hv : 1 ≤ (labels calls).length)
    (hadj : ∀ i j, i < n → j < n → (g.adj i j = true ↔ Added calls i j)) (x : ℕ) :
    Reachable g (labels calls).length x ↔ Within calls x := by
  have hn := hg.shape.fits
  constructor
  · intro h
    suffices hx : x < (labels calls).length ∧ Within calls x from hx.2
    induction h with
    | refl => exact ⟨hv, .refl⟩
    | tail _ hedge ih =>
      obtain ⟨hlt, hconn⟩ := ih
      have hy := List.mem_range.mp hedge.1
      have hadded := (hadj _ _ (hlt.trans_le hn) (hy.trans_le hn)).mp hedge.2
      exact ⟨hy, hconn.tail ⟨hy, hadded⟩⟩
  · intro h
    suffices hx : x < (labels calls).length ∧ Reachable g (labels calls).length x from hx.2
    induction h with
    | refl => exact ⟨hv, .refl⟩
    | tail _ hedge ih =>
      obtain ⟨hlt, hreach⟩ := ih
      obtain ⟨hy, hadded⟩ := hedge
      have hentry := (hadj _ _ (hlt.trans_le hn) (hy.trans_le hn)).mpr hadded
      exact ⟨hy, hreach.tail ⟨List.mem_range.mpr hy, hentry⟩⟩

theorem Built.adj_iff_added (hg : Built amem n calls g) :
    (∀ i j, i < n → j < n → (g.adj i j = true ↔ Added calls i j)) ↔ Clean amem n calls := by
  constructor
  · intro h i j hi hj hnot hone
    exact hnot ((h i j hi hj).mp ((hg.adj_iff hi hj).mpr (Or.inr hone)))
  · intro h i j hi hj
    rw [hg.adj_iff hi hj]
    constructor
    · rintro (hadded | hone)
      · exact hadded
      · by_contra hnot
        exact h i j hi hj hnot hone
    · exact Or.inl

/-- What is displayed tells which vertices were visited. -/
theorem shown_injective (g : Graph) : Function.Injective g.shown := by
  intro i j h
  injection h with hij _
  exact Int.ofNat_inj.mp hij

/-- The graph is right when no old entry shows through, and displays the vertices connected within. -/
theorem Built.faithful_iff (hg : Built amem n calls g) (hv : 1 ≤ (labels calls).length)
    (expected : ℕ → Prop) :
    Faithful n calls expected g ↔ Clean amem n calls ∧ ∀ x, Within calls x ↔ expected x := by
  obtain ⟨order, -, hdfs, hnodup, hmem⟩ := exists_preorder g hv
  have hrun := depthFirstSearch_reaches hg.shape hv hg.fresh hdfs
  constructor
  · intro h
    refine ⟨hg.adj_iff_added.mp h.edges, fun x => ?_⟩
    obtain ⟨order', hrun', -, hmem'⟩ := h.search (fun _ => 0) 0
    have hfuel : 2 * (labels calls).length + 1 > 2 * (labels calls).length := Nat.lt_succ_self _
    have hout : order.map g.shown = order'.map g.shown :=
      congrArg Prod.snd (Except.ok.inj ((hrun (fun _ => 0) 0 hfuel).symm.trans (hrun' _ hfuel)))
    have horder : order = order' := (List.map_injective_iff.mpr g.shown_injective) hout
    rw [← reachable_iff hg hv h.edges x, ← hmem x, horder, hmem' x]
  · rintro ⟨hclean, hexpected⟩
    have hadj := hg.adj_iff_added.mpr hclean
    exact ⟨hadj, fun mem id => ⟨order, fun fuel hfuel => hrun mem id hfuel, hnodup,
      fun x => ((hmem x).trans (reachable_iff hg hv hadj x)).trans (hexpected x)⟩⟩

theorem Within.lt {x : ℕ} (h : Within calls x) (hv : 1 ≤ (labels calls).length) :
    x < (labels calls).length := by
  induction h with
  | refl => exact hv
  | tail _ hedge _ => exact hedge.1

theorem Within.connected {x : ℕ} (h : Within calls x) : Connected calls x :=
  Relation.ReflTransGen.mono (fun _ _ hedge => hedge.2) _ _ h

/-- When every index connected has a vertex, no edge leads out. -/
theorem Connected.within {x : ℕ} (h : Connected calls x)
    (hall : ∀ y, Connected calls y → y < (labels calls).length) : Within calls x := by
  induction h with
  | refl => exact .refl
  | tail hconn hedge ih => exact ih.tail ⟨hall _ (hconn.tail hedge), hedge⟩

/-- CORRECT: the calls never fault. The graph they build has exactly the edges added, with the search
    showing exactly the vertices these connect with vertex 0, if and only if no entry at which no edge
    was added held a 1 before, and every vertex connected with vertex 0 is so without indices that have
    no vertex. The second half counts these indices as vertices that the search should show. -/
theorem construct_faithful (vmem : ℕ → Vertex) (amem : ℕ → ℕ → ℤ) (n : ℕ) (calls : List Call)
    (hcalls : Allowed n calls) : ∃ g, construct vmem amem n calls = .ok g ∧
      (Faithful n calls (fun x => x < (labels calls).length ∧ Connected calls x) g ↔
        Clean amem n calls ∧ ∀ x < (labels calls).length, Connected calls x → Within calls x) ∧
      (Faithful n calls (Connected calls) g ↔
        Clean amem n calls ∧ ∀ x, Connected calls x → x < (labels calls).length) := by
  obtain ⟨g, hrun, hg⟩ := construct_built vmem amem hcalls
  have hv := hcalls.nonempty
  refine ⟨g, hrun, ?_, ?_⟩
  · rw [hg.faithful_iff hv]
    refine and_congr_right fun _ => ⟨fun h x hx hconn => (h x).mpr ⟨hx, hconn⟩, fun h x => ?_⟩
    exact ⟨fun hx => ⟨hx.lt hv, hx.connected⟩, fun hx => h x hx.1 hx.2⟩
  · rw [hg.faithful_iff hv]
    refine and_congr_right fun _ => ⟨fun h x hconn => ((h x).mpr hconn).lt hv, fun h x => ?_⟩
    exact ⟨fun hx => hx.connected, fun hx => hx.within h⟩

/-- The calls in `main`. -/
def mainCalls : List Call :=
  [.addVertex 'S', .addVertex 'A', .addVertex 'B', .addVertex 'C', .addVertex 'D',
    .addEdge 0 1, .addEdge 0 2, .addEdge 0 3, .addEdge 1 4, .addEdge 2 4, .addEdge 3 4]

theorem mainCalls_allowed : Allowed 5 mainCalls := by
  refine ⟨by decide, by decide, fun s e h => ?_⟩
  simp only [mainCalls, List.mem_cons, Call.addEdge.injEq, reduceCtorEq, false_or, List.not_mem_nil,
    or_false] at h
  omega

/-- On memory that was zero. -/
theorem construct_faithful_main :
    ∃ g, construct (fun _ => ⟨'?', true⟩) (fun _ _ => 0) (5 : ℕ) mainCalls = .ok g ∧
      (Faithful 5 mainCalls (fun x => x < (labels mainCalls).length ∧ Connected mainCalls x) g ↔
        Clean (fun _ _ => 0) 5 mainCalls ∧
        ∀ x < (labels mainCalls).length, Connected mainCalls x → Within mainCalls x) ∧
      (Faithful 5 mainCalls (Connected mainCalls) g ↔
        Clean (fun _ _ => 0) 5 mainCalls ∧ ∀ x, Connected mainCalls x → x < (labels mainCalls).length) :=
  construct_faithful (fun _ => ⟨'?', true⟩) (fun _ _ => 0) 5 mainCalls mainCalls_allowed

/-- Two vertices and no edge, on memory full of ones: the matrix has an edge that nobody added, and
    the search shows both vertices. -/
theorem stray_edge_shown : Allowed 2 [.addVertex 'A', .addVertex 'B'] ∧
    ∃ g, construct (fun _ => ⟨'?', true⟩) (fun _ _ => 1) (2 : ℕ) [.addVertex 'A', .addVertex 'B'] =
      .ok g ∧ g.adj 0 1 = true ∧ ¬ Added [.addVertex 'A', .addVertex 'B'] 0 1 ∧
      (depthFirstSearch 5 (fun _ => 0) 0 g).map Prod.snd = .ok [.vertex 0 'A', .vertex 1 'B'] ∧
      ¬ Connected [.addVertex 'A', .addVertex 'B'] 1 ∧
      ∀ expected, ¬ Faithful 2 [.addVertex 'A', .addVertex 'B'] expected g := by
  refine ⟨⟨by decide, by decide, by simp⟩, ⟨[⟨'A', false⟩, ⟨'B', false⟩], [[1, 1], [1, 1]], 2, 2⟩, rfl,
    rfl, by decide, rfl, fun h => ?_, fun expected h => ?_⟩
  · obtain h | ⟨i, -, hedge⟩ := h.cases_tail
    · cases h
    · simp [Added] at hedge
  · have hadded := (h.edges 0 1 (by decide) (by decide)).mp rfl
    simp [Added] at hadded

-- an index without a vertex between `A` and `B`: the edges are right, the search stays at `A`
example : (construct (fun _ => ⟨'?', true⟩) (fun _ _ => 0) (3 : ℕ)
      [.addVertex 'A', .addVertex 'B', .addEdge 0 2, .addEdge 2 1] >>= fun g =>
      (depthFirstSearch 5 (fun _ => 0) 0 g).map Prod.snd) = .ok [.vertex 0 'A'] := by
  rfl

end Diversity.Graph
