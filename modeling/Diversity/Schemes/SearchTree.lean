import Diversity.Schemes.Machine

/-! @scheme search-tree | name:Binary search trees | family:data-structure

    Search trees over a linear order, with the insertion that ignores a value already present, and
    their representation in a heap of cells with two child pointers. The search-tree property is
    that the inorder listing is strictly increasing, which bounds every subtree by all its ancestors
    at once. `At h p t as` says that pointer `p` leads to the tree `t` laid out in the cells `as`. -/

namespace Schemes.SearchTree

universe u

variable {α β : Type u}

/-- Catamorphism: every traversal is one. -/
def fold (nil : β) (f : β → α → β → β) : BinaryTree α → β
  | .nil => nil
  | .node v l r => f (fold nil f l) v (fold nil f r)

def inorder : BinaryTree α → List α := fold [] (fun l v r => l ++ v :: r)

@[simp] theorem inorder_nil : inorder (.nil : BinaryTree α) = [] := rfl

@[simp] theorem inorder_node (v : α) (l r : BinaryTree α) :
    inorder (.node v l r) = inorder l ++ v :: inorder r := rfl

def preorder : BinaryTree α → List α := fold [] (fun l v r => v :: (l ++ r))

@[simp] theorem preorder_node (v : α) (l r : BinaryTree α) :
    preorder (.node v l r) = v :: (preorder l ++ preorder r) := rfl

/-- Both listings have the values of the tree, each as often. -/
theorem preorder_perm (t : BinaryTree α) : (preorder t).Perm (inorder t) := by
  induction t with
  | nil => exact List.Perm.refl _
  | node v l r ihl ihr =>
    rw [preorder_node, inorder_node]
    exact ((ihl.append ihr).cons v).trans List.perm_middle.symm

theorem length_preorder (t : BinaryTree α) : (preorder t).length = t.numNodes := by
  induction t with
  | nil => rfl
  | node v l r ihl ihr =>
    rw [preorder_node, List.length_cons, List.length_append, ihl, ihr, BinaryTree.numNodes]

section Order

variable [LinearOrder α]

/-- Insert a value unless it is there. -/
def insert (x : α) : BinaryTree α → BinaryTree α
  | .nil => .node x .nil .nil
  | .node v l r =>
    if v < x then .node v l (insert x r) else if x < v then .node v (insert x l) r else .node v l r

/-- Follow the path of `x`. -/
def find (x : α) : BinaryTree α → Bool
  | .nil => false
  | .node v l r => if v = x then true else if v < x then find x r else find x l

/-- The search-tree property. -/
def Ordered (t : BinaryTree α) : Prop := (inorder t).Pairwise (· < ·)

theorem ordered_node {v : α} {l r : BinaryTree α} : Ordered (.node v l r) ↔
    Ordered l ∧ Ordered r ∧ (∀ y ∈ inorder l, y < v) ∧ ∀ y ∈ inorder r, v < y := by
  simp only [Ordered, inorder_node, List.pairwise_append, List.pairwise_cons]
  constructor
  · rintro ⟨hl, ⟨hv, hr⟩, hcross⟩
    exact ⟨hl, hr, fun y hy => hcross y hy v (List.mem_cons_self ..), hv⟩
  · rintro ⟨hl, hr, hlv, hvr⟩
    refine ⟨hl, ⟨hvr, hr⟩, ?_⟩
    intro a ha b hb
    rcases List.mem_cons.mp hb with rfl | hb
    · exact hlv a ha
    · exact lt_trans (hlv a ha) (hvr b hb)

theorem mem_insert (x y : α) (t : BinaryTree α) :
    y ∈ inorder (insert x t) ↔ y = x ∨ y ∈ inorder t := by
  induction t with
  | nil => simp [insert]
  | node v l r ihl ihr =>
    rw [insert]
    split
    · simp only [inorder_node, List.mem_append, List.mem_cons, ihr]
      rw [or_left_comm (a := y = v), or_left_comm]
    · split
      · simp only [inorder_node, List.mem_append, List.mem_cons, ihl]
        exact or_assoc
      · -- neither side: `x` is the value of this node
        have hx : x = v := le_antisymm (not_lt.mp ‹_›) (not_lt.mp ‹_›)
        simp only [inorder_node, List.mem_append, List.mem_cons, hx]
        exact (or_iff_right_of_imp fun hy => Or.inr (Or.inl hy)).symm

theorem ordered_insert (x : α) (t : BinaryTree α) (h : Ordered t) : Ordered (insert x t) := by
  induction t with
  | nil => exact List.pairwise_singleton _ _
  | node v l r ihl ihr =>
    obtain ⟨hl, hr, hlv, hvr⟩ := ordered_node.mp h
    rw [insert]
    split
    · refine ordered_node.mpr ⟨hl, ihr hr, hlv, ?_⟩
      intro y hy
      rcases (mem_insert x y r).mp hy with rfl | hy
      · assumption
      · exact hvr y hy
    · split
      · refine ordered_node.mpr ⟨ihl hl, hr, ?_, hvr⟩
        intro y hy
        rcases (mem_insert x y l).mp hy with rfl | hy
        · assumption
        · exact hlv y hy
      · exact h

/-- In a search tree the path of `x` meets it if it is anywhere. -/
theorem find_iff (x : α) (t : BinaryTree α) (h : Ordered t) : find x t = true ↔ x ∈ inorder t := by
  induction t with
  | nil => simp [find]
  | node v l r ihl ihr =>
    obtain ⟨hl, hr, hlv, hvr⟩ := ordered_node.mp h
    rw [find, inorder_node, List.mem_append, List.mem_cons]
    rcases lt_trichotomy v x with hlt | rfl | hgt
    · have hnl : x ∉ inorder l := fun hx => lt_asymm hlt (hlv x hx)
      rw [if_neg hlt.ne, if_pos hlt, ihr hr]
      simp [hnl, hlt.ne']
    · simp
    · have hnr : x ∉ inorder r := fun hx => lt_asymm hgt (hvr x hx)
      rw [if_neg hgt.ne', if_neg (not_lt.mpr hgt.le), ihl hl]
      simp [hnr, hgt.ne]

theorem numNodes_insert_le (x : α) (t : BinaryTree α) :
    (insert x t).numNodes ≤ t.numNodes + 1 := by
  induction t with
  | nil => simp [insert]
  | node v l r ihl ihr =>
    rw [insert]
    split
    · simp only [BinaryTree.numNodes]; omega
    · split
      · simp only [BinaryTree.numNodes]; omega
      · exact Nat.le_succ _

/-- The tree after a sequence of insertions. -/
def insertAll (xs : List α) (t : BinaryTree α) : BinaryTree α := xs.foldl (fun t x => insert x t) t

theorem insertAll_ordered : ∀ (xs : List α) (t : BinaryTree α), Ordered t → Ordered (insertAll xs t)
  | [], _, h => h
  | x :: xs, t, h => insertAll_ordered xs (insert x t) (ordered_insert x t h)

theorem mem_insertAll (y : α) : ∀ (xs : List α) (t : BinaryTree α),
    y ∈ inorder (insertAll xs t) ↔ y ∈ xs ∨ y ∈ inorder t
  | [], t => by simp [insertAll]
  | x :: xs, t => by
    have ih := mem_insertAll y xs (insert x t)
    rw [mem_insert] at ih
    rw [insertAll, List.foldl_cons, List.mem_cons, ← insertAll, ih, or_left_comm, or_assoc]

theorem insertAll_append (xs ys : List α) (t : BinaryTree α) :
    insertAll (xs ++ ys) t = insertAll ys (insertAll xs t) := List.foldl_append

/-- Smaller values go to the left, one after the other; the right subtree is not touched. -/
theorem insertAll_left {v : α} {r : BinaryTree α} : ∀ {xs : List α} (l : BinaryTree α),
    (∀ x ∈ xs, x < v) → insertAll xs (.node v l r) = .node v (insertAll xs l) r
  | [], _, _ => rfl
  | x :: xs, l, h => by
    have hx : x < v := h x List.mem_cons_self
    have hstep : insert x (.node v l r) = .node v (insert x l) r := by
      rw [insert, if_neg hx.not_gt, if_pos hx]
    rw [insertAll, List.foldl_cons, hstep, ← insertAll,
      insertAll_left (insert x l) fun y hy => h y (List.mem_cons_of_mem _ hy)]
    rfl

/-- Greater values go to the right; the left subtree is not touched. -/
theorem insertAll_right {v : α} {l : BinaryTree α} : ∀ {xs : List α} (r : BinaryTree α),
    (∀ x ∈ xs, v < x) → insertAll xs (.node v l r) = .node v l (insertAll xs r)
  | [], _, _ => rfl
  | x :: xs, r, h => by
    have hx : v < x := h x List.mem_cons_self
    have hstep : insert x (.node v l r) = .node v l (insert x r) := by rw [insert, if_pos hx]
    rw [insertAll, List.foldl_cons, hstep, ← insertAll,
      insertAll_right (insert x r) fun y hy => h y (List.mem_cons_of_mem _ hy)]
    rfl

/-- ROUND TRIP: a search tree is rebuilt from its preorder listing. The left part of the listing is
    below the root and the right part above it, so neither meets the other subtree. -/
theorem insertAll_preorder (t : BinaryTree α) (h : Ordered t) : insertAll (preorder t) .nil = t := by
  induction t with
  | nil => rfl
  | node v l r ihl ihr =>
    obtain ⟨hl, hr, hlv, hvr⟩ := ordered_node.mp h
    have hleft : ∀ x ∈ preorder l, x < v := fun x hx => hlv x ((preorder_perm l).mem_iff.mp hx)
    have hright : ∀ x ∈ preorder r, v < x := fun x hx => hvr x ((preorder_perm r).mem_iff.mp hx)
    calc insertAll (preorder (.node v l r)) .nil
        = insertAll (preorder l ++ preorder r) (.node v .nil .nil) := rfl
      _ = insertAll (preorder r) (.node v (insertAll (preorder l) .nil) .nil) := by
          rw [insertAll_append, insertAll_left .nil hleft]
      _ = .node v l (insertAll (preorder r) .nil) := by rw [ihl hl, insertAll_right .nil hright]
      _ = .node v l r := by rw [ihr hr]

/-- CORRECT: the inorder listing is the sorted set of the values, whatever their order was. -/
theorem inorder_insertAll (xs : List α) :
    inorder (insertAll xs .nil) = xs.toFinset.sort (· ≤ ·) := by
  have hsorted : (inorder (insertAll xs .nil)).Pairwise (· < ·) :=
    insertAll_ordered xs .nil List.Pairwise.nil
  have hset : (inorder (insertAll xs .nil)).toFinset = xs.toFinset := by
    ext y
    simp [mem_insertAll]
  rw [← hset]
  exact ((List.toFinset_sort (· ≤ ·) (hsorted.imp ne_of_lt)).mpr (hsorted.imp le_of_lt)).symm

end Order

/-! ### Trees in a heap -/

/-- A cell: a value and two pointers, `none` for NULL. -/
structure Cell (α : Type u) where
  data : α
  left : Option ℕ
  right : Option ℕ
  deriving DecidableEq, Repr

/-- `p` points to `t`, and `as` are the addresses of its cells. -/
inductive At (h : List (Cell α)) : Option ℕ → BinaryTree α → List ℕ → Prop where
  | nil : At h none .nil []
  | node {a : ℕ} {c : Cell α} {l r : BinaryTree α} {as bs : List ℕ} : h[a]? = some c →
      At h c.left l as → At h c.right r bs → At h (some a) (.node c.data l r) (a :: (as ++ bs))

/-- FRAME: a tree stays where it is as long as its own cells do. -/
theorem At.frame {h h' : List (Cell α)} {p : Option ℕ} {t : BinaryTree α} {as : List ℕ}
    (ht : At h p t as) (hsame : ∀ a ∈ as, h'[a]? = h[a]?) : At h' p t as := by
  induction ht with
  | nil => exact .nil
  | node hc _ _ ihl ihr =>
    refine .node ((hsame _ (List.mem_cons_self ..)).trans hc) (ihl fun b hb => ?_) (ihr fun b hb => ?_)
    · exact hsame b (List.mem_cons_of_mem _ (List.mem_append_left _ hb))
    · exact hsame b (List.mem_cons_of_mem _ (List.mem_append_right _ hb))

theorem At.lt_length {h : List (Cell α)} {p : Option ℕ} {t : BinaryTree α} {as : List ℕ}
    (ht : At h p t as) {a : ℕ} (ha : a ∈ as) : a < h.length := by
  induction ht with
  | nil => cases ha
  | node hc _ _ ihl ihr =>
    rcases List.mem_cons.mp ha with rfl | ha
    · exact (List.getElem?_eq_some_iff.mp hc).1
    · rcases List.mem_append.mp ha with ha | ha
      · exact ihl ha
      · exact ihr ha

/-- `h'` is `h` with the tree in the cells `as` changed to `t`, which has taken up the cell `new`
    at most; no other cell is touched. -/
def Grown (h : List (Cell α)) (new : ℕ) (as : List ℕ) (h' : List (Cell α)) (p : Option ℕ)
    (t : BinaryTree α) : Prop :=
  (∃ as', At h' p t as' ∧ as'.Nodup ∧ ∀ b ∈ as', b = new ∨ b ∈ as) ∧ ∀ b, b ∉ as → h'[b]? = h[b]?

section Grow

variable {h h' : List (Cell α)} {new a : ℕ} {as bs : List ℕ} {c c' : Cell α} {l r : BinaryTree α}

/-- A node over two subtrees of which at most one has taken up `new`. -/
theorem grown_node {as' bs' : List ℕ} (hnd : (a :: (as ++ bs)).Nodup) (hnew : new ∉ a :: (as ++ bs))
    (hc : h'[a]? = some c') (hdata : c'.data = c.data)
    (hl : At h' c'.left l as') (hr : At h' c'.right r bs') (hndl : as'.Nodup) (hndr : bs'.Nodup)
    (hsubl : ∀ b ∈ as', b = new ∨ b ∈ as) (hsubr : ∀ b ∈ bs', b = new ∨ b ∈ bs)
    (hone : new ∉ as' ∨ new ∉ bs') (hsame : ∀ b, b ∉ a :: (as ++ bs) → h'[b]? = h[b]?) :
    Grown h new (a :: (as ++ bs)) h' (some a) (.node c.data l r) := by
  rw [List.nodup_cons, List.nodup_append] at hnd
  obtain ⟨ha, -, -, hdisj⟩ := hnd
  simp only [List.mem_cons, List.mem_append, not_or] at ha hnew
  refine ⟨⟨a :: (as' ++ bs'), hdata ▸ .node hc hl hr, ?_, ?_⟩, hsame⟩
  · rw [List.nodup_cons, List.nodup_append, List.mem_append]
    refine ⟨?_, hndl, hndr, ?_⟩
    · rintro (hb | hb)
      · exact (hsubl a hb).elim (fun he => hnew.1 he.symm) ha.1
      · exact (hsubr a hb).elim (fun he => hnew.1 he.symm) ha.2
    · rintro b hb b' hb' rfl
      rcases hsubl b hb with rfl | hbl
      · exact hone.elim (fun h => h hb) (fun h => h hb')
      · rcases hsubr b hb' with rfl | hbr
        · exact hnew.2.1 hbl
        · exact hdisj b hbl b hbr rfl
  · intro b hb
    simp only [List.mem_cons, List.mem_append] at hb ⊢
    rcases hb with rfl | hb | hb
    · exact Or.inr (Or.inl rfl)
    · exact (hsubl b hb).imp id fun hb => Or.inr (Or.inl hb)
    · exact (hsubr b hb).imp id fun hb => Or.inr (Or.inr hb)

/-- Growth on the right: the node may get a new right pointer, its left subtree is elsewhere. -/
theorem grown_right (hl : At h c.left l as) (hnd : (a :: (as ++ bs)).Nodup)
    (hnew : new ∉ a :: (as ++ bs)) (hc : h'[a]? = some c') (hdata : c'.data = c.data)
    (hleft : c'.left = c.left)
    (hr : ∃ bs', At h' c'.right r bs' ∧ bs'.Nodup ∧ ∀ b ∈ bs', b = new ∨ b ∈ bs)
    (hsame : ∀ b, b ≠ a → b ∉ bs → h'[b]? = h[b]?) :
    Grown h new (a :: (as ++ bs)) h' (some a) (.node c.data l r) := by
  obtain ⟨bs', hr, hndr, hsub⟩ := hr
  obtain ⟨ha, has, -, hdisj⟩ : a ∉ as ++ bs ∧ as.Nodup ∧ bs.Nodup ∧ ∀ b ∈ as, ∀ b' ∈ bs, b ≠ b' := by
    rwa [List.nodup_cons, List.nodup_append] at hnd
  have hfar : ∀ b ∈ as, h'[b]? = h[b]? := fun b hb =>
    hsame b (fun he => ha (he ▸ List.mem_append_left _ hb)) (fun hb' => hdisj b hb b hb' rfl)
  refine grown_node hnd hnew hc hdata (hleft ▸ hl.frame hfar) hr has hndr (fun b hb => Or.inr hb)
    hsub (Or.inl fun hb => hnew ?_) ?_
  · exact List.mem_cons_of_mem _ (List.mem_append_left _ hb)
  · intro b hb
    simp only [List.mem_cons, List.mem_append, not_or] at hb
    exact hsame b hb.1 hb.2.2

/-- Growth on the left. -/
theorem grown_left (hr : At h c.right r bs) (hnd : (a :: (as ++ bs)).Nodup)
    (hnew : new ∉ a :: (as ++ bs)) (hc : h'[a]? = some c') (hdata : c'.data = c.data)
    (hright : c'.right = c.right)
    (hl : ∃ as', At h' c'.left l as' ∧ as'.Nodup ∧ ∀ b ∈ as', b = new ∨ b ∈ as)
    (hsame : ∀ b, b ≠ a → b ∉ as → h'[b]? = h[b]?) :
    Grown h new (a :: (as ++ bs)) h' (some a) (.node c.data l r) := by
  obtain ⟨as', hl, hndl, hsub⟩ := hl
  obtain ⟨ha, -, hbs, hdisj⟩ : a ∉ as ++ bs ∧ as.Nodup ∧ bs.Nodup ∧ ∀ b ∈ as, ∀ b' ∈ bs, b ≠ b' := by
    rwa [List.nodup_cons, List.nodup_append] at hnd
  have hfar : ∀ b ∈ bs, h'[b]? = h[b]? := fun b hb =>
    hsame b (fun he => ha (he ▸ List.mem_append_right _ hb)) (fun hb' => hdisj b hb' b hb rfl)
  refine grown_node hnd hnew hc hdata hl (hright ▸ hr.frame hfar) hndl hbs hsub
    (fun b hb => Or.inr hb) (Or.inr fun hb => hnew ?_) ?_
  · exact List.mem_cons_of_mem _ (List.mem_append_right _ hb)
  · intro b hb
    simp only [List.mem_cons, List.mem_append, not_or] at hb
    exact hsame b hb.1 hb.2.1

end Grow

end Schemes.SearchTree
