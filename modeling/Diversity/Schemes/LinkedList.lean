import Mathlib

/-! @scheme linked-list | name:Doubly linked lists | family:data-structure

    Lists that live in memory as two pointers in every node. A field of all nodes is a function from
    addresses, so that an assignment to a field is an update of one function, and two lists through one
    node are two pairs of functions. `Seg prev next p l q` says that the nodes of `l` are linked in this
    order, with `p` before the first and `q` behind the last:

        p ← a₁ ⇄ a₂ ⇄ ... ⇄ aₙ → q

    A segment can be cut anywhere, and its ends can be made to point elsewhere; appending, pushing and
    removing a node are nothing but that. -/

namespace Schemes.LinkedList

universe u

variable {A : Type u}

/-- The nodes of `l`, linked in order. -/
def Seg (prev next : A → Option A) : Option A → List A → Option A → Prop
  | _, [], _ => True
  | p, a :: l, q => prev a = p ∧ next a = l.head?.or q ∧ Seg prev next (some a) l q

section Seg

variable {prev prev' next next' : A → Option A} {p p' q q' : Option A} {l l₁ l₂ : List A} {a : A}

/-- Only the nodes of the segment count. -/
theorem Seg.congr (h : Seg prev next p l q) (hprev : ∀ a ∈ l, prev' a = prev a)
    (hnext : ∀ a ∈ l, next' a = next a) : Seg prev' next' p l q := by
  induction l generalizing p with
  | nil => trivial
  | cons a l ih =>
    obtain ⟨h₁, h₂, h₃⟩ := h
    refine ⟨(hprev a List.mem_cons_self).trans h₁, (hnext a List.mem_cons_self).trans h₂, ih h₃ ?_ ?_⟩
    · exact fun b hb => hprev b (List.mem_cons_of_mem a hb)
    · exact fun b hb => hnext b (List.mem_cons_of_mem a hb)

/-- A segment is cut where one likes. -/
theorem seg_append : Seg prev next p (l₁ ++ l₂) q ↔
    Seg prev next p l₁ (l₂.head?.or q) ∧ Seg prev next (l₁.getLast?.or p) l₂ q := by
  induction l₁ generalizing p with
  | nil => simp [Seg]
  | cons a l₁ ih =>
    have hhead : ((l₁ ++ l₂).head?.or q) = (l₁.head?.or (l₂.head?.or q)) := by
      rw [List.head?_append, Option.or_assoc]
    have hlast : ((a :: l₁).getLast?.or p) = l₁.getLast?.or (some a) := by
      cases hl : l₁.getLast? with
      | none =>
        rw [List.getLast?_eq_none_iff] at hl
        rw [hl]
        rfl
      | some b => rw [List.getLast?_cons, hl]; rfl
    rw [List.cons_append, Seg, Seg, ih, hhead, hlast]
    tauto

variable [DecidableEq A]

/-- `if (x) x->f = v`. -/
def setAt (f : A → Option A) (x v : Option A) : A → Option A :=
  match x with
  | none => f
  | some b => Function.update f b v

@[simp] theorem setAt_none (f : A → Option A) (v : Option A) : setAt f none v = f := rfl

@[simp] theorem setAt_some (f : A → Option A) (b : A) (v : Option A) :
    setAt f (some b) v = Function.update f b v := rfl

theorem setAt_of_notMem {f : A → Option A} {x v : Option A} (hx : ∀ b ∈ x, b ∉ l) :
    ∀ b ∈ l, setAt f x v b = f b := by
  intro b hb
  cases x with
  | none => rfl
  | some c =>
    refine Function.update_of_ne ?_ _ _
    rintro rfl
    exact hx b rfl hb

/-- The first node is made to point back elsewhere. -/
theorem Seg.retarget_head (h : Seg prev next p l q) (hnodup : l.Nodup) (p' : Option A) :
    Seg (setAt prev l.head? p') next p' l q := by
  cases l with
  | nil => trivial
  | cons a l =>
    obtain ⟨-, h₂, h₃⟩ := h
    rw [List.head?_cons, setAt_some]
    refine ⟨Function.update_self a p' prev, h₂, h₃.congr (fun b hb => ?_) fun b _ => rfl⟩
    refine Function.update_of_ne ?_ _ _
    rintro rfl
    exact (List.nodup_cons.mp hnodup).1 hb

/-- The last node is made to point on elsewhere. -/
theorem Seg.retarget_last (h : Seg prev next p l q) (hnodup : l.Nodup) (q' : Option A) :
    Seg prev (setAt next l.getLast? q') p l q' := by
  induction l using List.reverseRecOn with
  | nil => trivial
  | append_singleton l a =>
    rw [seg_append] at h ⊢
    rw [List.getLast?_concat, setAt_some]
    have ha : a ∉ l := fun hmem => (List.nodup_append.mp hnodup).2.2 a hmem a (List.mem_singleton_self a) rfl
    refine ⟨h.1.congr (fun b _ => rfl) fun b hb => ?_, h.2.1, Function.update_self a q' next, trivial⟩
    refine Function.update_of_ne ?_ _ _
    rintro rfl
    exact ha hb

/-- LINK: a node is put before the first. -/
theorem Seg.cons (h : Seg prev next none l none) (hnodup : l.Nodup) (ha : a ∉ l) :
    Seg (setAt (Function.update prev a none) l.head? (some a)) (Function.update next a l.head?) none
      (a :: l) none := by
  have hne : ∀ b ∈ l, b ≠ a := fun b hb heq => ha (heq ▸ hb)
  have hframe : Seg (Function.update prev a none) (Function.update next a l.head?) none l none :=
    h.congr (fun b hb => Function.update_of_ne (hne b hb) _ _)
      fun b hb => Function.update_of_ne (hne b hb) _ _
  refine ⟨?_, ?_, hframe.retarget_head hnodup (some a)⟩
  · have hhead : ∀ b ∈ l.head?, b ∉ [a] := fun b hb hba =>
      ha (List.mem_singleton.mp hba ▸ List.mem_of_mem_head? hb)
    rw [setAt_of_notMem hhead a (List.mem_singleton_self a), Function.update_self]
  · rw [Function.update_self, Option.or_none]

/-- LINK: a node is put behind the last. -/
theorem Seg.concat (h : Seg prev next none l none) (hnodup : l.Nodup) (ha : a ∉ l) :
    Seg (Function.update prev a l.getLast?) (setAt (Function.update next a none) l.getLast? (some a)) none
      (l ++ [a]) none := by
  have hne : ∀ b ∈ l, b ≠ a := fun b hb heq => ha (heq ▸ hb)
  have hframe : Seg (Function.update prev a l.getLast?) (Function.update next a none) none l none :=
    h.congr (fun b hb => Function.update_of_ne (hne b hb) _ _)
      fun b hb => Function.update_of_ne (hne b hb) _ _
  rw [seg_append]
  refine ⟨hframe.retarget_last hnodup (some a), ?_, ?_, trivial⟩
  · rw [Function.update_self, Option.or_none]
  · have hlast : ∀ b ∈ l.getLast?, b ∉ [a] := fun b hb hba =>
      ha (List.mem_singleton.mp hba ▸ List.mem_of_getLast? hb)
    rw [setAt_of_notMem hlast a (List.mem_singleton_self a), Function.update_self]
    rfl

omit [DecidableEq A] in
/-- The neighbours of a node. -/
theorem Seg.neighbours (h : Seg prev next none (l₁ ++ a :: l₂) none) :
    prev a = l₁.getLast? ∧ next a = l₂.head? := by
  obtain ⟨-, h₁, h₂, -⟩ := seg_append.mp h
  rw [Option.or_none] at h₁ h₂
  exact ⟨h₁, h₂⟩

/-- UNLINK: a node is taken out. -/
theorem Seg.erase (h : Seg prev next none (l₁ ++ a :: l₂) none) (hnodup : (l₁ ++ a :: l₂).Nodup) :
    Seg (setAt prev (next a) (prev a)) (setAt next (prev a) (next a)) none (l₁ ++ l₂) none := by
  obtain ⟨hprev, hnext⟩ := h.neighbours
  obtain ⟨h₁, -, -, h₂⟩ := seg_append.mp h
  obtain ⟨hn₁, hn₂, hdisj⟩ := List.nodup_append.mp hnodup
  replace hn₂ := (List.nodup_cons.mp hn₂).2
  have hapart : ∀ b ∈ l₁, b ∉ l₂ := fun b hb hb' => hdisj b hb b (List.mem_cons_of_mem a hb') rfl
  rw [hprev, hnext, seg_append]
  refine ⟨?_, ?_⟩
  · rw [Option.or_none]
    refine (h₁.retarget_last hn₁ l₂.head?).congr (setAt_of_notMem fun b hb => ?_) fun b _ => rfl
    exact fun hb' => hapart b hb' (List.mem_of_mem_head? hb)
  · rw [Option.or_none]
    refine (h₂.retarget_head hn₂ l₁.getLast?).congr (fun b _ => rfl) (setAt_of_notMem fun b hb => ?_)
    exact hapart b (List.mem_of_getLast? hb)

end Seg

end Schemes.LinkedList
