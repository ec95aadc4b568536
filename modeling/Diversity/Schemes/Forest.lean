import Diversity.Schemes.SearchTree

/-! @scheme forest | name:Levels and paths of a tree | family:tree

    A level of a tree is a list of nodes, and the next level are their children. `atDepth` is what stands
    at a depth, from left to right; a program that works level by level has in its queue or its stacks
    the nodes of one level and comes, level after level, to the end of the tree:

        ts ──▶ ts.flatMap kids ──▶ … ──▶ []        values: atDepth t 0, atDepth t 1, …

    The paths of a tree are the values met on the way from the root to a node, or to a leaf. -/

namespace Schemes.Forest

universe u

variable {α β σ : Type u}

/-! ### Levels of a tree -/

/-- The values at depth `k`, from left to right. -/
def atDepth : BinaryTree α → ℕ → List α
  | .nil, _ => []
  | .node v _ _, 0 => [v]
  | .node _ l r, k + 1 => atDepth l k ++ atDepth r k

/-- The levels of a tree, from the root down. -/
def levels (t : BinaryTree α) : List (List α) := (List.range t.height).map (atDepth t)

/-- A pointer to a node, not `NULL`. -/
def isNode : BinaryTree α → Bool
  | .nil => false
  | .node _ _ _ => true

/-- The node a pointer leads to, if there is one. -/
def present (t : BinaryTree α) : List (BinaryTree α) := if isNode t then [t] else []

/-- The children of a node, from left to right. -/
def kids : BinaryTree α → List (BinaryTree α)
  | .nil => []
  | .node _ l r => present l ++ present r

theorem isNode_of_mem_present {t t' : BinaryTree α} (h : t' ∈ present t) : isNode t' = true := by
  cases t with
  | nil => cases h
  | node v l r =>
    obtain rfl := List.mem_singleton.mp h
    rfl

theorem isNode_of_mem_kids {t t' : BinaryTree α} (h : t' ∈ kids t) : isNode t' = true := by
  cases t with
  | nil => cases h
  | node v l r =>
    rcases List.mem_append.mp h with h | h
    · exact isNode_of_mem_present h
    · exact isNode_of_mem_present h

theorem atDepth_nil (k : ℕ) : atDepth (.nil : BinaryTree α) k = [] := by
  cases k <;> rfl

/-- One level further down is one level of the children. -/
theorem atDepth_succ (t : BinaryTree α) (k : ℕ) :
    atDepth t (k + 1) = (kids t).flatMap (atDepth · k) := by
  have hpresent : ∀ t : BinaryTree α, (present t).flatMap (atDepth · k) = atDepth t k := by
    rintro (- | ⟨v, l, r⟩)
    · exact (atDepth_nil k).symm
    · exact List.append_nil _
  rcases t with - | ⟨v, l, r⟩
  · rfl
  · rw [atDepth, kids, List.flatMap_append, hpresent, hpresent]

/-- Nothing stands below the height. -/
theorem atDepth_eq_nil (t : BinaryTree α) : ∀ {k : ℕ}, t.height ≤ k → atDepth t k = [] := by
  induction t with
  | nil =>
    intro k _
    exact atDepth_nil k
  | node v l r ihl ihr =>
    intro k hk
    rw [BinaryTree.height] at hk
    rcases k with - | k
    · omega
    · rw [atDepth, ihl (by omega), ihr (by omega), List.append_nil]

/-- The levels hold every node once. -/
theorem levels_flatten_perm (t : BinaryTree α) : (levels t).flatten.Perm (SearchTree.inorder t) := by
  -- A subtree has its levels among the first `m`, however many more are looked at.
  have hlevels : ∀ (t : BinaryTree α) (m : ℕ), t.height ≤ m →
      (List.range m).flatMap (atDepth t) = (levels t).flatten := by
    intro t m hm
    obtain ⟨d, rfl⟩ := Nat.exists_eq_add_of_le hm
    have hrest : ((List.range d).map (t.height + ·)).flatMap (atDepth t) = [] := by
      rw [List.flatMap_eq_nil_iff]
      intro k hk
      obtain ⟨j, -, rfl⟩ := List.mem_map.mp hk
      exact atDepth_eq_nil t (Nat.le_add_right _ _)
    rw [List.range_add, List.flatMap_append, hrest, List.append_nil, levels, List.flatMap]
  induction t with
  | nil => exact List.Perm.refl _
  | node v l r ihl ihr =>
    have hsplit : (levels (.node v l r)).flatten = v :: (List.range (max l.height r.height)).flatMap
        (fun k => atDepth l k ++ atDepth r k) := by
      rw [levels, BinaryTree.height, List.range_succ_eq_map, List.map_cons, List.map_map,
        List.flatten_cons]
      rfl
    rw [hsplit]
    refine ((List.flatMap_append_perm _ _ _).symm.cons v).trans ?_
    rw [hlevels l _ (le_max_left _ _), hlevels r _ (le_max_right _ _)]
    exact ((ihl.append ihr).cons v).trans List.perm_middle.symm

/-! ### Levels of a forest -/

/-- The values at depth `k` of the trees of a list. -/
def level (ts : List (BinaryTree α)) (k : ℕ) : List α := ts.flatMap (atDepth · k)

/-- The values of the nodes of a list. -/
def roots (ts : List (BinaryTree α)) : List α := level ts 0

theorem level_kids (ts : List (BinaryTree α)) (k : ℕ) : level (ts.flatMap kids) k = level ts (k + 1) := by
  rw [level, level, List.flatMap_assoc]
  exact List.flatMap_congr fun t _ => (atDepth_succ t k).symm

theorem roots_cons (v : α) (l r : BinaryTree α) (ts : List (BinaryTree α)) :
    roots (.node v l r :: ts) = v :: roots ts := rfl

theorem roots_reverse (ts : List (BinaryTree α)) : roots ts.reverse = (roots ts).reverse := by
  induction ts with
  | nil => rfl
  | cons t ts ih =>
    have hroot : (atDepth t 0).reverse = atDepth t 0 := by cases t <;> rfl
    simp only [roots, level] at ih ⊢
    rw [List.reverse_cons, List.flatMap_append, ih, List.flatMap_singleton, List.flatMap_cons,
      List.reverse_append, hroot]

/-- The height of the highest tree of a list. -/
def height (ts : List (BinaryTree α)) : ℕ := ts.foldr (fun t h => max t.height h) 0

/-- The number of nodes of the trees of a list. -/
def size (ts : List (BinaryTree α)) : ℕ := (ts.map BinaryTree.numNodes).sum

/-- All are nodes. -/
def AllNodes (ts : List (BinaryTree α)) : Prop := ∀ t ∈ ts, isNode t = true

theorem allNodes_kids (ts : List (BinaryTree α)) : AllNodes (ts.flatMap kids) := by
  intro t ht
  obtain ⟨t', -, hmem⟩ := List.mem_flatMap.mp ht
  exact isNode_of_mem_kids hmem

theorem height_append (ts us : List (BinaryTree α)) :
    height (ts ++ us) = max (height ts) (height us) := by
  induction ts with
  | nil => exact (Nat.zero_max _).symm
  | cons t ts ih =>
    change max t.height (height (ts ++ us)) = max (max t.height (height ts)) (height us)
    rw [ih, max_assoc]

theorem height_node {t : BinaryTree α} (h : isNode t = true) : t.height = height (kids t) + 1 := by
  have hpresent : ∀ t : BinaryTree α, height (present t) = t.height := by
    rintro (- | ⟨v, l, r⟩) <;> rfl
  rcases t with - | ⟨v, l, r⟩
  · cases h
  · rw [kids, height_append, hpresent, hpresent, BinaryTree.height]

/-- The next level is one lower. -/
theorem height_kids {t : BinaryTree α} {ts : List (BinaryTree α)} (h : AllNodes (t :: ts)) :
    height (t :: ts) = height ((t :: ts).flatMap kids) + 1 := by
  induction ts generalizing t with
  | nil =>
    have ht := height_node (h t List.mem_cons_self)
    rw [List.flatMap_cons, List.flatMap_nil, List.append_nil, ← ht]
    exact Nat.max_zero _
  | cons u ts ih =>
    have ht := height_node (h t List.mem_cons_self)
    have hrest := ih fun t' ht' => h t' (List.mem_cons_of_mem t ht')
    rw [List.flatMap_cons, height_append]
    change max t.height (height (u :: ts)) = _
    rw [ht, hrest]
    omega

theorem size_append (ts us : List (BinaryTree α)) : size (ts ++ us) = size ts + size us := by
  rw [size, List.map_append, List.sum_append]
  rfl

theorem numNodes_node {t : BinaryTree α} (h : isNode t = true) : t.numNodes = size (kids t) + 1 := by
  have hpresent : ∀ t : BinaryTree α, size (present t) = t.numNodes := by
    rintro (- | ⟨v, l, r⟩) <;> rfl
  rcases t with - | ⟨v, l, r⟩
  · cases h
  · rw [kids, size_append, hpresent, hpresent, BinaryTree.numNodes]

/-- The next level has all nodes but those of this one. -/
theorem size_kids {ts : List (BinaryTree α)} (h : AllNodes ts) :
    size ts = size (ts.flatMap kids) + ts.length := by
  induction ts with
  | nil => rfl
  | cons t ts ih =>
    have ht := numNodes_node (h t List.mem_cons_self)
    have hrest := ih fun t' ht' => h t' (List.mem_cons_of_mem t ht')
    rw [List.flatMap_cons, size_append, List.length_cons]
    change t.numNodes + size ts = _
    omega

/-! ### Loops that go level by level -/

/-- RUN: a loop that takes the nodes of one level, at `st k ts out`, to those of the next, with one turn
    for each node and `line k` of their values as output, puts out the lines of all levels. -/
theorem loop_levels {body : σ → C (Iter σ (List β))} (st : ℕ → List (BinaryTree α) → List β → σ)
    (line : ℕ → List α → List β)
    (hlevel : ∀ fuel k t ts out, AllNodes (t :: ts) →
      loop body (fuel + (t :: ts).length) (st k (t :: ts) out) =
        loop body fuel (st (k + 1) ((t :: ts).flatMap kids) (out ++ line k (roots (t :: ts)))))
    (hend : ∀ k out, body (st k [] out) = .ok (.done out)) :
    ∀ (n : ℕ) {ts : List (BinaryTree α)} {k fuel : ℕ} {out : List β}, height ts = n → AllNodes ts →
      size ts < fuel → loop body fuel (st k ts out) =
        .ok (out ++ (List.range n).flatMap fun j => line (k + j) (level ts j)) := by
  intro n
  induction n with
  | zero =>
    rintro (- | ⟨t, ts⟩) k fuel out hheight hnodes hfuel
    · obtain ⟨fuel, rfl⟩ := Nat.exists_eq_add_of_lt hfuel
      rw [loop_done (hend k out)]
      simp
    · rw [height_kids hnodes] at hheight
      omega
  | succ n ih =>
    rintro (- | ⟨t, ts⟩) k fuel out hheight hnodes hfuel
    · cases hheight
    · have hsize := size_kids hnodes
      obtain ⟨fuel', rfl⟩ : ∃ fuel', fuel = fuel' + (t :: ts).length :=
        ⟨fuel - (t :: ts).length, by omega⟩
      have hline : ∀ j, line (k + 1 + j) (level ((t :: ts).flatMap kids) j) =
          line (k + (j + 1)) (level (t :: ts) (j + 1)) := by
        intro j
        rw [level_kids, Nat.add_assoc, Nat.add_comm 1 j]
      have hheight' : height ((t :: ts).flatMap kids) = n := by
        rw [height_kids hnodes] at hheight
        omega
      rw [hlevel fuel' k t ts out hnodes, ih hheight' (allNodes_kids _) (by omega)]
      simp only [hline]
      rw [List.range_succ_eq_map, List.flatMap_cons, List.flatMap_map,
        List.append_assoc]
      rfl

/-- The same for a tree, from its root. -/
theorem loop_tree {body : σ → C (Iter σ (List β))} (st : ℕ → List (BinaryTree α) → List β → σ)
    (line : ℕ → List α → List β)
    (hlevel : ∀ fuel k t ts out, AllNodes (t :: ts) →
      loop body (fuel + (t :: ts).length) (st k (t :: ts) out) =
        loop body fuel (st (k + 1) ((t :: ts).flatMap kids) (out ++ line k (roots (t :: ts)))))
    (hend : ∀ k out, body (st k [] out) = .ok (.done out)) {t : BinaryTree α} (ht : isNode t = true)
    {fuel : ℕ} (hfuel : t.numNodes < fuel) :
    loop body fuel (st 0 [t] []) =
      .ok ((List.range t.height).flatMap fun k => line k (atDepth t k)) := by
  have hheight : height [t] = t.height := Nat.max_zero _
  have hnodes : AllNodes [t] := by
    intro t' ht'
    rwa [List.mem_singleton.mp ht']
  have hsize : size [t] < fuel := by simpa [size] using hfuel
  have hlevel' : ∀ k, level [t] k = atDepth t k := by
    intro k
    rw [level, List.flatMap_cons, List.flatMap_nil, List.append_nil]
  rw [loop_levels st line hlevel hend t.height hheight hnodes hsize]
  simp only [hlevel', Nat.zero_add, List.nil_append]

/-! ### Paths -/

/-- The values on the way from the root to each leaf, the leaves from left to right. -/
def leafPaths : BinaryTree α → List (List α)
  | .nil => []
  | .node v .nil .nil => [[v]]
  | .node v l r => (leafPaths l ++ leafPaths r).map (v :: ·)

/-- The values on the way from the root to each node. -/
def nodePaths : BinaryTree α → List (List α)
  | .nil => []
  | .node v l r => [v] :: (nodePaths l ++ nodePaths r).map (v :: ·)

end Schemes.Forest
