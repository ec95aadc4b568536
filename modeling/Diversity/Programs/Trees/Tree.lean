import Diversity.Schemes.SearchTree

/-! @src c++/src/tree.cpp | name:Tree | scheme:search-tree | family:tree

    The binary search tree with parent-pointer insertion, on a heap of `struct node`s. `insert`
    allocates its node before it looks whether the value is there, walks down from the root, and
    links the node where the walk falls off the tree; a duplicate leaves it unlinked. The walk of
    `insert` and the one of `search` are the paths of the value in the tree that the heap holds. -/

namespace Diversity
open Schemes SearchTree

/-- `class Tree` with the heap its nodes live in; `malloc` returns the next free address. -/
structure Tree where
  root : Option ℕ
  heap : List (Cell ℤ)
  deriving DecidableEq, Repr

namespace Tree

/-- `Tree()`. -/
def new (heap : List (Cell ℤ)) : Tree := { root := none, heap }

/-- `*p`. -/
def deref (heap : List (Cell ℤ)) : Option ℕ → C (Cell ℤ)
  | none => .error .nullDeref
  | some a => load heap a

/-- `*p = cell`. -/
def assign (heap : List (Cell ℤ)) (cell : Cell ℤ) : Option ℕ → C (List (Cell ℤ))
  | none => .error .nullDeref
  | some a => store heap a cell

/-- One turn of `insert`'s loop: go down one level, or link the new node `tmp` and return. -/
def insertBody (data : ℤ) (tmp : ℕ) (heap : List (Cell ℤ)) (current : Option ℕ) :
    C (Iter (Option ℕ) (List (Cell ℤ))) := do
  let parent := current
  let node ← deref heap parent
  if node.data < data then
    let current := node.right
    if current = none then
      let heap ← assign heap { node with right := some tmp } parent
      .ok (.done heap)
    else .ok (.next current)
  else if node.data > data then
    let current := node.left
    if current = none then
      let heap ← assign heap { node with left := some tmp } parent
      .ok (.done heap)
    else .ok (.next current)
  else .ok (.done heap)

def insert (fuel : ℕ) (t : Tree) (data : ℤ) : C Tree := do
  let tmp := t.heap.length
  let heap := t.heap ++ [{ data, left := none, right := none }]
  if t.root = none then .ok { root := some tmp, heap }
  else
    let heap ← loop (insertBody data tmp heap) fuel t.root
    .ok { t with heap }

/-- One turn of `search`'s loop. -/
def searchBody (heap : List (Cell ℤ)) (data : ℤ) (current : Option ℕ) :
    C (Iter (Option ℕ) (Option ℕ)) :=
  if current = none then .ok (.done none)
  else do
    let node ← deref heap current
    if node.data = data then .ok (.done current)
    else if node.data < data then .ok (.next node.right)
    else .ok (.next node.left)

/-- `search(data)`: the address of the node, or `none` for NULL. -/
def search (fuel : ℕ) (t : Tree) (data : ℤ) : C (Option ℕ) :=
  loop (searchBody t.heap data) fuel t.root

/-- The recursion that the three traversals share: what is printed for a node is put together by
    `f` from what its subtrees print. -/
def traverse (f : List ℤ → ℤ → List ℤ → List ℤ) (heap : List (Cell ℤ)) : ℕ → Option ℕ → C (List ℤ)
  | _, none => .ok []
  | 0, some _ => .error .outOfFuel
  | fuel + 1, some a => do
    let node ← load heap a
    let left ← traverse f heap fuel node.left
    let right ← traverse f heap fuel node.right
    .ok (f left node.data right)

def preorder : List (Cell ℤ) → ℕ → Option ℕ → C (List ℤ) := traverse (fun l d r => d :: (l ++ r))

def inorder : List (Cell ℤ) → ℕ → Option ℕ → C (List ℤ) := traverse (fun l d r => l ++ d :: r)

def postOrder : List (Cell ℤ) → ℕ → Option ℕ → C (List ℤ) := traverse (fun l d r => l ++ r ++ [d])

/-- The values printed, in order; each is followed by a blank. -/
def preorderTraversal (fuel : ℕ) (t : Tree) : C (List ℤ) := preorder t.heap fuel t.root

def inorderTraversal (fuel : ℕ) (t : Tree) : C (List ℤ) := inorder t.heap fuel t.root

def postorderTraversal (fuel : ℕ) (t : Tree) : C (List ℤ) := postOrder t.heap fuel t.root

/-- A sequence of `insert` calls. -/
def insertAll (fuel : ℕ) (xs : List ℤ) (t : Tree) : C Tree := xs.foldlM (insert fuel) t

/-! ### Walks -/

variable {heap : List (Cell ℤ)} {p : Option ℕ} {t : BinaryTree ℤ} {as : List ℕ}

theorem traverse_at (f : List ℤ → ℤ → List ℤ → List ℤ) (h : At heap p t as) :
    ∀ fuel, t.numNodes ≤ fuel → traverse f heap fuel p = .ok (fold [] f t) := by
  induction h with
  | nil => intro fuel _; cases fuel <;> rfl
  | node hc _ _ ihl ihr =>
    intro fuel hfuel
    obtain ⟨fuel, rfl⟩ : ∃ k, fuel = k + 1 := ⟨fuel - 1, by simp at hfuel; omega⟩
    simp only [BinaryTree.numNodes] at hfuel
    rw [traverse, load_of_getElem? hc, ok_bind, ihl fuel (by omega), ok_bind, ihr fuel (by omega),
      ok_bind, fold]

/-- `search` follows the path of `x`. -/
theorem search_at (x : ℤ) (h : At heap p t as) : ∀ fuel, t.numNodes < fuel →
    (find x t = true → ∃ a c, loop (searchBody heap x) fuel p = .ok (some a) ∧
      heap[a]? = some c ∧ c.data = x) ∧
    (find x t = false → loop (searchBody heap x) fuel p = .ok none) := by
  induction h with
  | nil =>
    intro fuel hfuel
    obtain ⟨fuel, rfl⟩ : ∃ k, fuel = k + 1 := ⟨fuel - 1, by omega⟩
    exact ⟨fun hf => by simp [find] at hf, fun _ => loop_done rfl fuel⟩
  | node hc _ _ ihl ihr =>
    rename_i a c l r as bs _ _
    intro fuel hfuel
    obtain ⟨fuel, rfl⟩ : ∃ k, fuel = k + 1 := ⟨fuel - 1, by omega⟩
    simp only [BinaryTree.numNodes] at hfuel
    have hload : deref heap (some a) = .ok c := load_of_getElem? hc
    rcases lt_trichotomy c.data x with hlt | heq | hgt
    · have hb : searchBody heap x (some a) = .ok (.next c.right) := by
        simp [searchBody, hload, hlt, hlt.ne]
      rw [find, if_neg hlt.ne, if_pos hlt, loop_next hb]
      exact ihr fuel (by omega)
    · have hb : searchBody heap x (some a) = .ok (.done (some a)) := by
        simp [searchBody, hload, heq]
      rw [find, if_pos heq, loop_done hb]
      exact ⟨fun _ => ⟨a, c, rfl, hc, heq⟩, fun hf => by simp at hf⟩
    · have hb : searchBody heap x (some a) = .ok (.next c.left) := by
        simp [searchBody, hload, hgt.ne', not_lt.mpr hgt.le]
      rw [find, if_neg hgt.ne', if_neg (not_lt.mpr hgt.le), loop_next hb]
      exact ihl fuel (by omega)

/-- A node fresh from `malloc`. -/
theorem at_fresh {tmp : ℕ} {x : ℤ} (h : heap[tmp]? = some ⟨x, none, none⟩) :
    At heap (some tmp) (.node x .nil .nil) [tmp] :=
  .node (c := ⟨x, none, none⟩) h .nil .nil

/-- `insert`'s loop follows the path of `x` and hangs the new node in where the path ends. -/
theorem insert_at (x : ℤ) (tmp : ℕ) (h : At heap p t as) (hp : p ≠ none) (hnd : as.Nodup)
    (htmp : tmp ∉ as) (hcell : heap[tmp]? = some ⟨x, none, none⟩) : ∀ fuel, t.numNodes ≤ fuel →
    ∃ heap', loop (insertBody x tmp heap) fuel p = .ok heap' ∧
      Grown heap tmp as heap' p (SearchTree.insert x t) := by
  induction h with
  | nil => exact absurd rfl hp
  | node hc hl hr ihl ihr =>
    rename_i a c l r as bs
    intro fuel hfuel
    obtain ⟨fuel, rfl⟩ : ∃ k, fuel = k + 1 := ⟨fuel - 1, by simp at hfuel; omega⟩
    simp only [BinaryTree.numNodes] at hfuel
    have hload : deref heap (some a) = .ok c := load_of_getElem? hc
    have ha : a < heap.length := (List.getElem?_eq_some_iff.mp hc).1
    have hne : tmp ≠ a := fun he => htmp (he ▸ List.mem_cons_self ..)
    have hset : ∀ c' b, b ≠ a → (heap.set a c')[b]? = heap[b]? :=
      fun c' b hb => List.getElem?_set_ne (Ne.symm hb)
    obtain ⟨hna, hnas, hnbs⟩ : a ∉ as ++ bs ∧ as.Nodup ∧ bs.Nodup :=
      ⟨(List.nodup_cons.mp hnd).1, (List.nodup_append.mp (List.nodup_cons.mp hnd).2).1,
        (List.nodup_append.mp (List.nodup_cons.mp hnd).2).2.1⟩
    have htas : tmp ∉ as := fun h => htmp (by simp [h])
    have htbs : tmp ∉ bs := fun h => htmp (by simp [h])
    rcases lt_trichotomy c.data x with hlt | heq | hgt
    · rw [SearchTree.insert, if_pos hlt]
      cases hright : c.right with
      | none =>
        have hb : insertBody x tmp heap (some a) =
            .ok (.done (heap.set a { c with right := some tmp })) := by
          simp [insertBody, hload, hlt, hright, assign, store_of_lt ha]
        rw [hright] at hr
        cases hr
        exact ⟨_, loop_done hb fuel, grown_right hl hnd htmp (List.getElem?_set_self ha) rfl rfl
          ⟨[tmp], at_fresh ((hset _ _ hne).trans hcell), List.nodup_singleton _, by simp⟩
          (fun b hb _ => hset _ b hb)⟩
      | some q =>
        have hb : insertBody x tmp heap (some a) = .ok (.next c.right) := by
          simp [insertBody, hload, hlt, hright]
        obtain ⟨heap', hrun, hgrown, hsame⟩ := ihr (by simp [hright]) hnbs htbs fuel (by omega)
        exact ⟨heap', by rw [loop_next hb, hrun], grown_right hl hnd htmp
          ((hsame a fun h => hna (List.mem_append_right _ h)).trans hc) rfl rfl hgrown
          (fun b _ hb => hsame b hb)⟩
    · have hb : insertBody x tmp heap (some a) = .ok (.done heap) := by
        simp [insertBody, hload, heq]
      rw [SearchTree.insert, if_neg heq.not_lt, if_neg heq.not_gt]
      exact ⟨heap, loop_done hb fuel, ⟨_, .node hc hl hr, hnd, fun b hb => Or.inr hb⟩,
        fun _ _ => rfl⟩
    · rw [SearchTree.insert, if_neg (not_lt.mpr hgt.le), if_pos hgt]
      cases hleft : c.left with
      | none =>
        have hb : insertBody x tmp heap (some a) =
            .ok (.done (heap.set a { c with left := some tmp })) := by
          simp [insertBody, hload, hgt, not_lt.mpr hgt.le, hleft, assign, store_of_lt ha]
        rw [hleft] at hl
        cases hl
        exact ⟨_, loop_done hb fuel, grown_left hr hnd htmp (List.getElem?_set_self ha) rfl rfl
          ⟨[tmp], at_fresh ((hset _ _ hne).trans hcell), List.nodup_singleton _, by simp⟩
          (fun b hb _ => hset _ b hb)⟩
      | some q =>
        have hb : insertBody x tmp heap (some a) = .ok (.next c.left) := by
          simp [insertBody, hload, hgt, not_lt.mpr hgt.le, hleft]
        obtain ⟨heap', hrun, hgrown, hsame⟩ := ihl (by simp [hleft]) hnas htas fuel (by omega)
        exact ⟨heap', by rw [loop_next hb, hrun], grown_left hr hnd htmp
          ((hsame a fun h => hna (List.mem_append_left _ h)).trans hc) rfl rfl hgrown
          (fun b _ hb => hsame b hb)⟩

/-! ### Whole runs -/

/-- The tree object `T` holds the tree `t`. -/
def Holds (T : Tree) (t : BinaryTree ℤ) : Prop := ∃ as, At T.heap T.root t as ∧ as.Nodup

theorem new_holds (heap : List (Cell ℤ)) : Holds (new heap) .nil := ⟨[], .nil, List.nodup_nil⟩

theorem insert_holds {T : Tree} (h : Holds T t) (x : ℤ) (fuel : ℕ) (hfuel : t.numNodes ≤ fuel) :
    ∃ T', insert fuel T x = .ok T' ∧ Holds T' (SearchTree.insert x t) := by
  obtain ⟨as, hat, hnd⟩ := h
  have hcell : (T.heap ++ [⟨x, none, none⟩])[T.heap.length]? = some ⟨x, none, none⟩ := by simp
  cases hroot : T.root with
  | none =>
    rw [hroot] at hat
    cases hat
    exact ⟨⟨some T.heap.length, T.heap ++ [⟨x, none, none⟩]⟩, by simp [insert, hroot],
      [T.heap.length], at_fresh hcell, List.nodup_singleton _⟩
  | some a =>
    have hold : At (T.heap ++ [⟨x, none, none⟩]) T.root t as := hat.frame fun b hb =>
      List.getElem?_append_left (hat.lt_length hb)
    have hfresh : T.heap.length ∉ as := fun hb => lt_irrefl _ (hat.lt_length hb)
    obtain ⟨heap', hrun, ⟨as', hat', hnd', -⟩, -⟩ :=
      insert_at x T.heap.length hold (by simp [hroot]) hnd hfresh hcell fuel hfuel
    refine ⟨⟨T.root, heap'⟩, ?_, as', hat', hnd'⟩
    rw [insert, if_neg (by simp [hroot]), hrun, ok_bind]

theorem insertAll_holds (fuel : ℕ) : ∀ (xs : List ℤ) (T : Tree) (t : BinaryTree ℤ), Holds T t →
    t.numNodes + xs.length ≤ fuel →
    ∃ T', insertAll fuel xs T = .ok T' ∧ Holds T' (SearchTree.insertAll xs t) ∧
      (SearchTree.insertAll xs t).numNodes ≤ t.numNodes + xs.length
  | [], T, t, h, _ => ⟨T, rfl, h, le_rfl⟩
  | x :: xs, T, t, h, hfuel => by
    rw [List.length_cons] at hfuel
    have hsize := numNodes_insert_le x t
    obtain ⟨T₁, h₁, hT₁⟩ := insert_holds h x fuel (by omega)
    obtain ⟨T₂, h₂, hT₂, hle⟩ := insertAll_holds fuel xs T₁ (SearchTree.insert x t) hT₁ (by omega)
    refine ⟨T₂, ?_, hT₂, ?_⟩
    · rw [insertAll, List.foldlM_cons, h₁, ok_bind]
      exact h₂
    · rw [List.length_cons]
      change (SearchTree.insertAll xs (SearchTree.insert x t)).numNodes ≤ _
      omega

/-- RUN: the tree of a sequence of insertions into an empty tree. -/
theorem insertAll_new {fuel : ℕ} (xs : List ℤ) (mem : List (Cell ℤ)) (hfuel : xs.length < fuel) :
    ∃ T, insertAll fuel xs (new mem) = .ok T ∧ Holds T (SearchTree.insertAll xs .nil) ∧
      (SearchTree.insertAll xs (.nil : BinaryTree ℤ)).numNodes < fuel := by
  obtain ⟨T, h, hT, hle⟩ := insertAll_holds fuel xs (new mem) .nil (new_holds mem)
    (by simp only [BinaryTree.numNodes]; omega)
  simp only [BinaryTree.numNodes] at hle
  exact ⟨T, h, hT, by omega⟩

theorem Holds.traverse {T : Tree} (h : Holds T t) (f : List ℤ → ℤ → List ℤ → List ℤ) {fuel : ℕ}
    (hfuel : t.numNodes ≤ fuel) : Tree.traverse f T.heap fuel T.root = .ok (fold [] f t) := by
  obtain ⟨as, hat, -⟩ := h
  exact traverse_at f hat fuel hfuel

/-- What the caller of `search` reads: the data of the node found, or `none` for NULL. -/
def found (fuel : ℕ) (t : Tree) (x : ℤ) : C (Option ℤ) := do
  match ← search fuel t x with
  | none => .ok none
  | some a =>
    let node ← load t.heap a
    .ok (some node.data)

/-- CORRECT: `search` on the tree of `xs` finds `x` where `x` was inserted, and only there. -/
theorem search_insertAll {xs : List ℤ} {T : Tree} {fuel : ℕ} (x : ℤ)
    (h : Holds T (SearchTree.insertAll xs .nil))
    (hfuel : (SearchTree.insertAll xs (.nil : BinaryTree ℤ)).numNodes < fuel) :
    (x ∈ xs → ∃ a c, search fuel T x = .ok (some a) ∧ T.heap[a]? = some c ∧ c.data = x) ∧
    (x ∉ xs → search fuel T x = .ok none) := by
  obtain ⟨as, hat, -⟩ := h
  have hfind := find_iff x _ (insertAll_ordered xs .nil List.Pairwise.nil)
  have hmem : x ∈ SearchTree.inorder (SearchTree.insertAll xs .nil) ↔ x ∈ xs := by
    simp [mem_insertAll]
  obtain ⟨hyes, hno⟩ := search_at x hat fuel hfuel
  refine ⟨fun hx => hyes (hfind.mpr (hmem.mpr hx)), fun hx => hno ?_⟩
  exact Bool.eq_false_iff.mpr fun hf => hx (hmem.mp (hfind.mp hf))

theorem found_insertAll {xs : List ℤ} {T : Tree} {fuel : ℕ} (x : ℤ)
    (h : Holds T (SearchTree.insertAll xs .nil))
    (hfuel : (SearchTree.insertAll xs (.nil : BinaryTree ℤ)).numNodes < fuel) :
    found fuel T x = .ok (if x ∈ xs then some x else none) := by
  obtain ⟨hyes, hno⟩ := search_insertAll x h hfuel
  by_cases hx : x ∈ xs
  · obtain ⟨a, c, hs, hc, rfl⟩ := hyes hx
    rw [found, hs, ok_bind, if_pos hx]
    simp only [load_of_getElem? hc, ok_bind]
  · rw [found, hno hx, ok_bind, if_neg hx]

/-- CORRECT: after any sequence of insertions into an empty tree `inorderTraversal` prints the
    distinct values in increasing order and `search` answers membership; two sequences with the
    same values cannot be told apart by either. -/
theorem insertAll_correct (xs : List ℤ) (heap : List (Cell ℤ)) (fuel : ℕ)
    (hfuel : xs.length < fuel) :
    ∃ T out, insertAll fuel xs (new heap) = .ok T ∧ inorderTraversal fuel T = .ok out ∧
      out.Pairwise (· < ·) ∧ (∀ x, x ∈ out ↔ x ∈ xs) ∧
      (∀ x, (x ∈ xs → ∃ a c, search fuel T x = .ok (some a) ∧ T.heap[a]? = some c ∧ c.data = x) ∧
        (x ∉ xs → search fuel T x = .ok none)) ∧
      ∀ (ys : List ℤ) (heap' : List (Cell ℤ)), ys.length < fuel → (∀ x, x ∈ ys ↔ x ∈ xs) →
        ∃ T', insertAll fuel ys (new heap') = .ok T' ∧ inorderTraversal fuel T' = .ok out ∧
          ∀ x, found fuel T' x = found fuel T x := by
  obtain ⟨T, h, hT, hlt⟩ := insertAll_new xs heap hfuel
  have hin : inorderTraversal fuel T = .ok (SearchTree.inorder (SearchTree.insertAll xs .nil)) :=
    hT.traverse _ hlt.le
  refine ⟨T, _, h, hin, insertAll_ordered xs .nil List.Pairwise.nil, fun x => by
    simp [mem_insertAll], fun x => search_insertAll x hT hlt, ?_⟩
  intro ys heap' hys hset
  obtain ⟨T', h', hT', hlt'⟩ := insertAll_new ys heap' hys
  have hin' : inorderTraversal fuel T' = .ok (SearchTree.inorder (SearchTree.insertAll ys .nil)) :=
    hT'.traverse _ hlt'.le
  have hfinset : ys.toFinset = xs.toFinset := by ext x; simp [hset x]
  refine ⟨T', h', ?_, ?_⟩
  · rw [hin', inorder_insertAll, inorder_insertAll, hfinset]
  · intro x
    rw [found_insertAll x hT' hlt', found_insertAll x hT hlt]
    simp only [hset x]

/-- The tree of `main`, entered in two orders. -/
theorem insertAll_correct_main : ∃ T T', insertAll 8 [5, 3, 2, 4, 8, 7, 10] (new []) = .ok T ∧
    insertAll 8 [10, 8, 7, 5, 4, 3, 2] (new []) = .ok T' ∧
    inorderTraversal 8 T = inorderTraversal 8 T' := by
  obtain ⟨T, out, h, hin, -, -, -, hsame⟩ :=
    insertAll_correct [5, 3, 2, 4, 8, 7, 10] [] 8 (by decide)
  obtain ⟨T', h', hin', -⟩ := hsame [10, 8, 7, 5, 4, 3, 2] [] (by decide) (by simp; grind)
  exact ⟨T, T', h, h', by rw [hin, hin']⟩

/-- ROUND TRIP: the values that `preorderTraversal` prints, inserted in that order into a new tree, give
    the same tree again, the search tree of the values inserted first, so no traversal can tell the two
    apart. -/
theorem preorder_rebuilds (xs : List ℤ) (heap heap' : List (Cell ℤ)) (fuel : ℕ)
    (hfuel : xs.length < fuel) :
    ∃ T out T', insertAll fuel xs (new heap) = .ok T ∧ preorderTraversal fuel T = .ok out ∧
      insertAll fuel out (new heap') = .ok T' ∧ Holds T (SearchTree.insertAll xs .nil) ∧
      Holds T' (SearchTree.insertAll xs .nil) ∧ preorderTraversal fuel T' = .ok out ∧
      (∃ ins, inorderTraversal fuel T = .ok ins ∧ inorderTraversal fuel T' = .ok ins) ∧
      ∃ post, postorderTraversal fuel T = .ok post ∧ postorderTraversal fuel T' = .ok post := by
  obtain ⟨T, h, hT, hlt⟩ := insertAll_new xs heap hfuel
  have hordered : Ordered (SearchTree.insertAll xs .nil) := insertAll_ordered xs .nil List.Pairwise.nil
  generalize SearchTree.insertAll xs .nil = t at hT hlt hordered
  have hlen : (SearchTree.preorder t).length < fuel := by rwa [length_preorder]
  obtain ⟨T', h', hT', -⟩ := insertAll_new (SearchTree.preorder t) heap' hlen
  rw [insertAll_preorder t hordered] at hT'
  exact ⟨T, SearchTree.preorder t, T', h, hT.traverse _ hlt.le, h', hT, hT',
    hT'.traverse _ hlt.le, ⟨_, hT.traverse _ hlt.le, hT'.traverse _ hlt.le⟩,
    _, hT.traverse _ hlt.le, hT'.traverse _ hlt.le⟩

/-- The tree of `main`. -/
theorem preorder_rebuilds_main :
    ∃ T out T', insertAll 8 [5, 3, 2, 4, 8, 7, 10] (new []) = .ok T ∧
      preorderTraversal 8 T = .ok out ∧ insertAll 8 out (new []) = .ok T' ∧
      Holds T (SearchTree.insertAll [5, 3, 2, 4, 8, 7, 10] .nil) ∧
      Holds T' (SearchTree.insertAll [5, 3, 2, 4, 8, 7, 10] .nil) ∧ preorderTraversal 8 T' = .ok out ∧
      (∃ ins, inorderTraversal 8 T = .ok ins ∧ inorderTraversal 8 T' = .ok ins) ∧
      ∃ post, postorderTraversal 8 T = .ok post ∧ postorderTraversal 8 T' = .ok post :=
  preorder_rebuilds [5, 3, 2, 4, 8, 7, 10] [] [] 8 (by decide)

end Tree

end Diversity
