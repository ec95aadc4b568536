import Diversity.Schemes.Forest

/-! @src binaryTree/pathSum.cpp | name:Paths with a sum | scheme:forest | family:tree

    `findPath` walks down the tree with the values met so far and their sum, and at a leaf prints the
    path if the sum is the one expected. Both are parameters by value: a call works on its own copy, so
    that what is pushed in one branch is not there in its sibling, and the `pop_back` and the
    subtraction after a miss change nothing that is looked at again.

        10 ── 5 ── 4          paths printed for 22:   10 5 7
         │    └─── 7                                  10 12
         └── 12                                                  -/

namespace Diversity.PathSum
open Schemes Forest

/-- The line printed for a path. -/
def foundLine (expectedSum : ℤ) (path : List ℤ) : String :=
  "Found a Path with Sum " ++ toString expectedSum ++ " " ++
    String.join (path.map fun value => toString value ++ " ") ++ "\n"

/-- `findPath`, with the lines printed before it and after it. -/
def findPath (expectedSum : ℤ) : BinaryTree ℤ → List ℤ → ℤ → List String → C (List String)
  | .nil, _, _, out => .ok out
  | .node value left right, path, currentSum, out => do
    let currentSum ← addInt currentSum value
    let path := path ++ [value]
    if !isNode left && !isNode right then
      if currentSum = expectedSum then .ok (out ++ [foundLine expectedSum path])
      else
        let _path := path.dropLast
        let _currentSum ← subInt currentSum value
        .ok out
    else
      let out ← (if isNode left then findPath expectedSum left path currentSum out else .ok out)
      if isNode right then findPath expectedSum right path currentSum out else .ok out

/-- `findPathWithSum`: the lines printed. -/
def findPathWithSum (pRoot : BinaryTree ℤ) (expectedSum : ℤ) : C (List String) :=
  if isNode pRoot then findPath expectedSum pRoot [] 0 [] else .ok []

/-- The paths to the leaves below `t` that complete the sum, when `currentSum` has been collected. -/
def matching (expectedSum currentSum : ℤ) (t : BinaryTree ℤ) : List (List ℤ) :=
  (leafPaths t).filter fun p => currentSum + p.sum = expectedSum

theorem matching_node {e c v : ℤ} {l r : BinaryTree ℤ} (h : (!isNode l && !isNode r) = false) :
    matching e c (.node v l r) = (matching e (c + v) l ++ matching e (c + v) r).map (v :: ·) := by
  have hpaths : leafPaths (.node v l r) = (leafPaths l ++ leafPaths r).map (v :: ·) := by
    rcases l with - | ⟨v₁, l₁, r₁⟩ <;> rcases r with - | ⟨v₂, l₂, r₂⟩
    · cases h
    · rfl
    · rfl
    · rfl
  simp only [matching, hpaths, List.filter_map, List.filter_append, Function.comp_def, List.sum_cons,
    add_assoc]
  rfl

/-- RUN: below a node the paths printed are the path to the node followed by those that complete the
    sum. -/
theorem findPath_eq (e : ℤ) (t : BinaryTree ℤ) : ∀ (path : List ℤ) (c : ℤ) (out : List String),
    IsInt c → (∀ p ∈ nodePaths t, IsInt (c + p.sum)) →
    findPath e t path c out = .ok (out ++ (matching e c t).map fun p => foundLine e (path ++ p)) := by
  induction t with
  | nil =>
    intro path c out _ _
    simp [findPath, matching, leafPaths]
  | node v l r ihl ihr =>
    intro path c out hc hint
    have hsum : IsInt (c + v) := by simpa using hint [v] List.mem_cons_self
    have hbelow : ∀ p ∈ nodePaths l ++ nodePaths r, IsInt (c + v + p.sum) := by
      intro p hp
      have h := hint (v :: p) (List.mem_cons_of_mem _ (List.mem_map_of_mem hp))
      rwa [List.sum_cons, ← add_assoc] at h
    have hleft : ∀ out, (if isNode l then findPath e l (path ++ [v]) (c + v) out else .ok out) =
        .ok (out ++ (matching e (c + v) l).map fun p => foundLine e (path ++ [v] ++ p)) := by
      intro out
      rw [← ihl (path ++ [v]) (c + v) out hsum fun p hp => hbelow p (List.mem_append_left _ hp)]
      cases l <;> rfl
    have hright : ∀ out, (if isNode r then findPath e r (path ++ [v]) (c + v) out else .ok out) =
        .ok (out ++ (matching e (c + v) r).map fun p => foundLine e (path ++ [v] ++ p)) := by
      intro out
      rw [← ihr (path ++ [v]) (c + v) out hsum fun p hp => hbelow p (List.mem_append_right _ hp)]
      cases r <;> rfl
    rw [findPath, addInt_of_isInt hsum, ok_bind]
    cases hleaf : !isNode l && !isNode r with
    | true =>
      -- A leaf: the two subtractions after a miss go back to what was there before.
      have hpaths : leafPaths (.node v l r) = [[v]] := by
        rcases l with - | ⟨v₁, l₁, r₁⟩ <;> rcases r with - | ⟨v₂, l₂, r₂⟩
        · rfl
        · cases hleaf
        · cases hleaf
        · cases hleaf
      have hback : subInt (c + v) v = .ok c := by
        have hcancel : c + v - v = c := add_sub_cancel_right c v
        rw [subInt_of_isInt (by rwa [hcancel]), hcancel]
      by_cases hfound : c + v = e
      · simp [matching, hpaths, hfound]
      · simp [matching, hpaths, hfound, hback]
    | false =>
      rw [matching_node hleaf, if_neg Bool.false_ne_true, hleft, ok_bind, hright, List.map_map,
        List.map_append, List.append_assoc]
      simp only [List.append_assoc, List.singleton_append, Function.comp_def]

/-- CORRECT: the lines printed are those of the paths from the root to a leaf whose values add up to the
    sum expected, from left to right, as long as no partial sum leaves `int`. -/
theorem findPathWithSum_eq (t : BinaryTree ℤ) (expectedSum : ℤ)
    (hint : ∀ p ∈ nodePaths t, IsInt p.sum) :
    findPathWithSum t expectedSum =
      .ok (((leafPaths t).filter fun p => p.sum = expectedSum).map (foundLine expectedSum)) := by
  rcases t with - | ⟨v, l, r⟩
  · rfl
  · have hzero : IsInt 0 := by decide
    have hrun := findPath_eq expectedSum (.node v l r) [] 0 [] hzero
      fun p hp => by rw [zero_add]; exact hint p hp
    simpa [findPathWithSum, isNode, matching] using hrun

/-- The tree of the tests, with two paths of sum 22. -/
theorem findPathWithSum_eq_tests :
    findPathWithSum (.node 10 (.node 5 (.node 4 .nil .nil) (.node 7 .nil .nil)) (.node 12 .nil .nil)) 22 =
      .ok [foundLine 22 [10, 5, 7], foundLine 22 [10, 12]] :=
  findPathWithSum_eq _ 22 (by decide)

end Diversity.PathSum
