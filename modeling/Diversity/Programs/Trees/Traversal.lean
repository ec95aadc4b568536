import Diversity.Schemes.Forest

/-! @src binaryTree/traversal.cpp (printTopToBottom, printZigZag) | name:Level by level |
    scheme:forest | family:tree

    Two ways to print a tree level by level. `printTopToBottom` keeps the nodes to come in one queue and
    counts in `toBePrinted` how many of them are left of this level, in `nextLevel` how many are there of
    the next. `printZigZag` keeps the two levels apart in two stacks that take turns; which child is
    pushed first depends on the turn, and the top of the stack is the left end of the level in even
    turns and the right end in odd ones:

        queue:   rest of level k | children of what was printed of it
        stacks:  level k (even): left end on top      ──▶  level k + 1: right end on top
                 level k (odd): right end on top      ──▶  level k + 1: left end on top   -/

namespace Diversity.Traversal
open Schemes Forest

/-- What `printf("%d ", value)` puts out. -/
def printed (value : ℤ) : String := toString value ++ " "

/-- What a level puts out. -/
def line (values : List ℤ) : List String := values.map printed ++ ["\n"]

/-- What all levels put out. -/
def text (lines : List (List ℤ)) : List String := lines.flatMap line

/-! ### Top to bottom -/

/-- State of the loop of `printTopToBottom`, with what has been printed. The counters are `int`, and hold
    the number of nodes of a level as long as no level has 2 ^ 31 of them. -/
structure TopToBottom where
  queueTreeNodes : List (BinaryTree ℤ)
  toBePrinted : ℤ
  nextLevel : ℤ
  out : List String

/-- One turn of the loop. -/
def topToBottomBody (s : TopToBottom) : C (Iter TopToBottom (List String)) :=
  match s.queueTreeNodes with
  | [] => .ok (.done s.out)
  | .nil :: _ => .error .nullDeref
  | .node value left right :: queue =>
    let out := s.out ++ [printed value]
    let (queue, nextLevel) :=
      if isNode left then (queue ++ [left], s.nextLevel + 1) else (queue, s.nextLevel)
    let (queue, nextLevel) :=
      if isNode right then (queue ++ [right], nextLevel + 1) else (queue, nextLevel)
    let toBePrinted := s.toBePrinted - 1
    if toBePrinted = 0 then .ok (.next ⟨queue, nextLevel, 0, out ++ ["\n"]⟩)
    else .ok (.next ⟨queue, toBePrinted, nextLevel, out⟩)

/-- `printTopToBottom`: what it prints. -/
def printTopToBottom (fuel : ℕ) (pRoot : BinaryTree ℤ) : C (List String) :=
  if isNode pRoot then loop topToBottomBody fuel ⟨[pRoot], 1, 0, []⟩ else .ok []

/-- A node is printed and its children queued. -/
theorem topToBottomBody_node (v : ℤ) (l r : BinaryTree ℤ) (queue : List (BinaryTree ℤ)) (n m : ℤ)
    (out : List String) : topToBottomBody ⟨.node v l r :: queue, n, m, out⟩ =
      if n - 1 = 0 then .ok (.next ⟨queue ++ kids (.node v l r), m + (kids (.node v l r)).length, 0,
        out ++ [printed v] ++ ["\n"]⟩)
      else .ok (.next ⟨queue ++ kids (.node v l r), n - 1, m + (kids (.node v l r)).length,
        out ++ [printed v]⟩) := by
  cases hl : isNode l <;> cases hr : isNode r <;>
    simp [topToBottomBody, kids, present, hl, hr, add_assoc]

/-- STEP: one level, from where `ks` of the next level are queued. -/
theorem topToBottom_level (fuel : ℕ) : ∀ (ts : List (BinaryTree ℤ)) (t : BinaryTree ℤ)
    (ks : List (BinaryTree ℤ)) (out : List String), AllNodes (t :: ts) →
    loop topToBottomBody (fuel + (t :: ts).length) ⟨t :: ts ++ ks, (t :: ts).length, ks.length, out⟩ =
      loop topToBottomBody fuel ⟨ks ++ (t :: ts).flatMap kids, (ks ++ (t :: ts).flatMap kids).length, 0,
        out ++ line (roots (t :: ts))⟩
  | ts, .nil, ks, out, h => by cases h .nil List.mem_cons_self
  | [], .node v l r, ks, out, _ => by
    have hbody : topToBottomBody ⟨[.node v l r] ++ ks, 1, ks.length, out⟩ =
        .ok (.next ⟨ks ++ kids (.node v l r), ks.length + (kids (.node v l r)).length, 0,
          out ++ [printed v] ++ ["\n"]⟩) := by
      rw [List.singleton_append, topToBottomBody_node, if_pos (by norm_num)]
    refine (loop_next hbody fuel).trans ?_
    simp [roots, level, atDepth, line]
  | u :: ts, .node v l r, ks, out, h => by
    have hne : ¬ (((.node v l r :: u :: ts : List (BinaryTree ℤ)).length : ℤ) - 1 = 0) := by
      rw [List.length_cons, List.length_cons]
      omega
    have hbody : topToBottomBody ⟨.node v l r :: u :: ts ++ ks,
        (.node v l r :: u :: ts : List (BinaryTree ℤ)).length, ks.length, out⟩ =
        .ok (.next ⟨u :: ts ++ (ks ++ kids (.node v l r)), (u :: ts).length,
          (ks ++ kids (.node v l r)).length, out ++ [printed v]⟩) := by
      rw [List.cons_append, topToBottomBody_node, if_neg hne, List.append_assoc]
      simp
    have ih := topToBottom_level fuel ts u (ks ++ kids (.node v l r)) (out ++ [printed v])
      fun t ht => h t (List.mem_cons_of_mem _ ht)
    refine (loop_next hbody (fuel + (u :: ts).length)).trans (ih.trans ?_)
    simp [roots_cons, line]

/-- RUN: the lines printed are the levels of the tree. -/
theorem printTopToBottom_text (t : BinaryTree ℤ) {fuel : ℕ} (hfuel : t.numNodes < fuel) :
    printTopToBottom fuel t = .ok (text (levels t)) := by
  rcases t with - | ⟨v, l, r⟩
  · rfl
  · have hlevel : ∀ (fuel k : ℕ) (t : BinaryTree ℤ) (ts : List (BinaryTree ℤ)) (out : List String),
        AllNodes (t :: ts) →
        loop topToBottomBody (fuel + (t :: ts).length) ⟨t :: ts, (t :: ts).length, 0, out⟩ =
          loop topToBottomBody fuel ⟨(t :: ts).flatMap kids, ((t :: ts).flatMap kids).length, 0,
            out ++ line (roots (t :: ts))⟩ := by
      intro fuel _ t ts out h
      have hrun := topToBottom_level fuel ts t [] out h
      rwa [List.append_nil] at hrun
    rw [text, levels, List.flatMap_map]
    exact loop_tree (fun _ ts out => TopToBottom.mk ts ts.length 0 out) (fun _ => line) hlevel
      (fun _ _ => rfl) rfl hfuel

/-- CORRECT: `printTopToBottom` ends and prints one line for each depth, with the values at that depth
    from left to right; the lines hold every node once. -/
theorem printTopToBottom_levels (t : BinaryTree ℤ) :
    ∃ lines : List (List ℤ), (∀ fuel > t.numNodes, printTopToBottom fuel t = .ok (text lines)) ∧
      lines.length = t.height ∧ (∀ k < t.height, lines[k]? = some (atDepth t k)) ∧
      lines.flatten.Perm (SearchTree.inorder t) := by
  refine ⟨levels t, fun fuel hfuel => printTopToBottom_text t hfuel, ?_, ?_, levels_flatten_perm t⟩
  · rw [levels, List.length_map, List.length_range]
  · intro k hk
    rw [levels, List.getElem?_map, List.getElem?_range hk, Option.map_some]

/-! ### Zigzag -/

/-- State of the loop of `printZigZag`, with what has been printed; the top of a stack comes first. -/
structure ZigZag where
  levels : List (List (BinaryTree ℤ))
  current : ℤ
  next : ℤ
  out : List String

/-- `if (p) levels[i].push(p)`. -/
def pushNode (levels : List (List (BinaryTree ℤ))) (i : ℤ) (p : BinaryTree ℤ) :
    C (List (List (BinaryTree ℤ))) :=
  if isNode p then do
    let stack ← load levels i
    store levels i (p :: stack)
  else .ok levels

/-- One turn of the loop. -/
def zigZagBody (s : ZigZag) : C (Iter ZigZag (List String)) := do
  let zero ← load s.levels 0
  let one ← load s.levels 1
  if !zero.isEmpty || !one.isEmpty then
    let stack ← load s.levels s.current
    match stack with
    -- `top()` of an empty stack
    | [] => .error .outOfBounds
    | .nil :: _ => .error .nullDeref
    | .node value left right :: stack =>
      let levels ← store s.levels s.current stack
      let out := s.out ++ [printed value]
      let levels ←
        if s.current = 0 then do
          let levels ← pushNode levels s.next left
          pushNode levels s.next right
        else do
          let levels ← pushNode levels s.next right
          pushNode levels s.next left
      let stack ← load levels s.current
      if stack.isEmpty then .ok (.next ⟨levels, 1 - s.current, 1 - s.next, out ++ ["\n"]⟩)
      else .ok (.next { s with levels, out })
  else .ok (.done s.out)

/-- `printZigZag`: what it prints. -/
def printZigZag (fuel : ℕ) (pRoot : BinaryTree ℤ) : C (List String) :=
  if isNode pRoot then loop zigZagBody fuel ⟨[[pRoot], []], 0, 1, []⟩ else .ok []

/-- The values of level `k` in the order in which they are printed. -/
def turn (k : ℕ) (values : List ℤ) : List ℤ := if k % 2 = 0 then values else values.reverse

/-- The state in which level `k`, with the nodes `ts` from left to right, is to be printed. -/
def atLevel (k : ℕ) (ts : List (BinaryTree ℤ)) (out : List String) : ZigZag :=
  if k % 2 = 0 then ⟨[ts, []], 0, 1, out⟩ else ⟨[[], ts.reverse], 1, 0, out⟩

theorem zigZagBody_even (v : ℤ) (l r : BinaryTree ℤ) (ts ks : List (BinaryTree ℤ)) (out : List String) :
    zigZagBody ⟨[.node v l r :: ts, ks], 0, 1, out⟩ =
      if ts.isEmpty then .ok (.next ⟨[ts, (kids (.node v l r)).reverse ++ ks], 1, 0,
        out ++ [printed v] ++ ["\n"]⟩)
      else .ok (.next ⟨[ts, (kids (.node v l r)).reverse ++ ks], 0, 1, out ++ [printed v]⟩) := by
  cases hl : isNode l <;> cases hr : isNode r <;>
    simp [zigZagBody, pushNode, load, store, kids, present, hl, hr]

theorem zigZagBody_odd (v : ℤ) (l r : BinaryTree ℤ) (ts ks : List (BinaryTree ℤ)) (out : List String) :
    zigZagBody ⟨[ks, .node v l r :: ts], 1, 0, out⟩ =
      if ts.isEmpty then .ok (.next ⟨[kids (.node v l r) ++ ks, ts], 0, 1,
        out ++ [printed v] ++ ["\n"]⟩)
      else .ok (.next ⟨[kids (.node v l r) ++ ks, ts], 1, 0, out ++ [printed v]⟩) := by
  cases hl : isNode l <;> cases hr : isNode r <;>
    simp [zigZagBody, pushNode, load, store, kids, present, hl, hr]

/-- STEP: an even level is printed from left to right, and its children are stacked with the right end
    on top. -/
theorem zigZag_even (fuel : ℕ) : ∀ (ts : List (BinaryTree ℤ)) (t : BinaryTree ℤ)
    (ks : List (BinaryTree ℤ)) (out : List String), AllNodes (t :: ts) →
    loop zigZagBody (fuel + (t :: ts).length) ⟨[t :: ts, ks], 0, 1, out⟩ =
      loop zigZagBody fuel ⟨[[], ((t :: ts).flatMap kids).reverse ++ ks], 1, 0,
        out ++ line (roots (t :: ts))⟩
  | ts, .nil, ks, out, h => by cases h .nil List.mem_cons_self
  | [], .node v l r, ks, out, _ => by
    refine (loop_next (zigZagBody_even v l r [] ks out) fuel).trans ?_
    simp [roots, level, atDepth, line]
  | u :: ts, .node v l r, ks, out, h => by
    have ih := zigZag_even fuel ts u ((kids (.node v l r)).reverse ++ ks) (out ++ [printed v])
      fun t ht => h t (List.mem_cons_of_mem _ ht)
    refine (loop_next (zigZagBody_even v l r (u :: ts) ks out) (fuel + (u :: ts).length)).trans
      (ih.trans ?_)
    simp [roots_cons, line]

/-- An odd one is printed from the top of its stack, and its children are stacked with the left end of
    the level on top. -/
theorem zigZag_odd (fuel : ℕ) : ∀ (ts : List (BinaryTree ℤ)) (t : BinaryTree ℤ)
    (ks : List (BinaryTree ℤ)) (out : List String), AllNodes (t :: ts) →
    loop zigZagBody (fuel + (t :: ts).length) ⟨[ks, t :: ts], 1, 0, out⟩ =
      loop zigZagBody fuel ⟨[(t :: ts).reverse.flatMap kids ++ ks, []], 0, 1,
        out ++ line (roots (t :: ts))⟩
  | ts, .nil, ks, out, h => by cases h .nil List.mem_cons_self
  | [], .node v l r, ks, out, _ => by
    refine (loop_next (zigZagBody_odd v l r [] ks out) fuel).trans ?_
    simp [roots, level, atDepth, line]
  | u :: ts, .node v l r, ks, out, h => by
    have ih := zigZag_odd fuel ts u (kids (.node v l r) ++ ks) (out ++ [printed v])
      fun t ht => h t (List.mem_cons_of_mem _ ht)
    refine (loop_next (zigZagBody_odd v l r (u :: ts) ks out) (fuel + (u :: ts).length)).trans
      (ih.trans ?_)
    simp [roots_cons, line]

/-- A level and the next one, in the order of the stacks. -/
theorem zigZag_level (fuel k : ℕ) (t : BinaryTree ℤ) (ts : List (BinaryTree ℤ)) (out : List String)
    (h : AllNodes (t :: ts)) :
    loop zigZagBody (fuel + (t :: ts).length) (atLevel k (t :: ts) out) =
      loop zigZagBody fuel (atLevel (k + 1) ((t :: ts).flatMap kids)
        (out ++ line (turn k (roots (t :: ts))))) := by
  rcases Nat.mod_two_eq_zero_or_one k with hk | hk
  · have hk' : ¬ (k + 1) % 2 = 0 := by omega
    rw [atLevel, if_pos hk, atLevel, if_neg hk', turn, if_pos hk, zigZag_even fuel ts t [] out h,
      List.append_nil]
  · have hk' : (k + 1) % 2 = 0 := by omega
    have hne : ¬ k % 2 = 0 := by omega
    rw [atLevel, if_neg hne, atLevel, if_pos hk', turn, if_neg hne, ← roots_reverse]
    obtain ⟨u, us, hrev⟩ : ∃ u us, (t :: ts).reverse = u :: us :=
      List.exists_cons_of_ne_nil (by simp)
    have hnodes : AllNodes (u :: us) := by
      intro t' ht'
      rw [← hrev, List.mem_reverse] at ht'
      exact h t' ht'
    have hback : (u :: us).reverse = t :: ts := by rw [← hrev, List.reverse_reverse]
    have hlen : (t :: ts).length = (u :: us).length := by rw [← hrev, List.length_reverse]
    rw [hrev, hlen, zigZag_odd fuel us u [] out hnodes, hback, List.append_nil]

/-- CORRECT: `printZigZag` ends without looking at the top of an empty stack, and prints the lines of
    `printTopToBottom` with every other one reversed. -/
theorem printZigZag_turns (t : BinaryTree ℤ) : ∃ lines : List (List ℤ),
    (∀ fuel > t.numNodes, printTopToBottom fuel t = .ok (text lines)) ∧
      (∀ fuel > t.numNodes, printZigZag fuel t = .ok (text (lines.mapIdx turn))) ∧
      lines = levels t := by
  refine ⟨levels t, fun fuel hfuel => printTopToBottom_text t hfuel, ?_, rfl⟩
  intro fuel hfuel
  have hturned : (levels t).mapIdx turn = (List.range t.height).map fun k => turn k (atDepth t k) :=
    List.ext_getElem (by simp [levels]) (by simp [levels])
  rcases t with - | ⟨v, l, r⟩
  · rfl
  · rw [hturned, text, List.flatMap_map]
    exact loop_tree atLevel (fun k values => line (turn k values)) zigZag_level (fun k out => by
      rcases Nat.mod_two_eq_zero_or_one k with hk | hk <;> simp [atLevel, hk, zigZagBody, load])
      rfl hfuel

end Diversity.Traversal
