import Mathlib

/-! @scheme handles | name:Handle lifetimes | family:trace-property

    Traces of a library's calls, some of which acquire a handle and some of which release one.
    `alive` are the handles acquired and not released yet; `Always good` says that every call of the
    trace was good given the handles alive when it was made. On a trace that acquires fresh handles
    and releases only live ones, a handle has been released once if it is not alive, and not at all
    if it is: nothing is lost exactly when nothing is alive. -/

namespace Schemes.Handles

universe u v

variable {E : Type u} {H : Type v} [DecidableEq H]

/-- How a library's calls bear on its handles. -/
structure Lifetimes (E : Type u) (H : Type v) where
  acquires : E → Option H
  releases : E → Option H

variable (L : Lifetimes E H)

/-- The handles alive after one more call. -/
def touch (live : List H) (e : E) : List H :=
  match L.acquires e, L.releases e with
  | some h, _ => h :: live
  | none, some h => live.filter (· ≠ h)
  | none, none => live

/-- The handles alive after a trace. -/
def alive (tr : List E) : List H := tr.foldl (touch L) []

theorem alive_concat (tr : List E) (e : E) : alive L (tr ++ [e]) = touch L (alive L tr) e := by
  rw [alive, List.foldl_append]
  rfl

/-- Every call was good when it was made. -/
def Always (good : List H → E → Prop) (tr : List E) : Prop :=
  ∀ pre e post, tr = pre ++ e :: post → good (alive L pre) e

variable {L} {good : List H → E → Prop}

theorem always_nil : Always L good [] := by
  intro pre e post h
  cases pre <;> cases h

theorem always_concat {tr : List E} {e : E} :
    Always L good (tr ++ [e]) ↔ Always L good tr ∧ good (alive L tr) e := by
  constructor
  · intro h
    refine ⟨?_, h tr e [] rfl⟩
    rintro pre d post rfl
    exact h pre d (post ++ [e]) (by simp)
  · rintro ⟨h, he⟩ pre d post heq
    rcases List.eq_nil_or_concat post with rfl | ⟨post', d', rfl⟩
    · obtain ⟨rfl, hd⟩ := List.append_inj' heq rfl
      cases hd
      exact he
    · have heq' : tr ++ [e] = (pre ++ d :: post') ++ [d'] := by simpa using heq
      exact h pre d post' (List.append_inj' heq' rfl).1

/-- What has been violated stays violated. -/
theorem always_of_append {tr tr' : List E} (h : Always L good (tr ++ tr')) : Always L good tr := by
  rintro pre d post rfl
  exact h pre d (post ++ tr') (by simp)

/-- A call is fair when what it acquires is new and what it releases is alive. -/
structure Fair (L : Lifetimes E H) (tr : List E) (e : E) : Prop where
  fresh : ∀ h, L.acquires e = some h → ∀ d ∈ tr, L.acquires d ≠ some h ∧ L.releases d ≠ some h
  live : ∀ h, L.releases e = some h → h ∈ alive L tr
  one : L.acquires e = none ∨ L.releases e = none

/-- How often a handle was released. -/
def released (L : Lifetimes E H) (tr : List E) (h : H) : ℕ := tr.countP (L.releases · = some h)

/-- Fair traces keep accounts: an acquired handle is alive and was never released, or is not alive
    and was released once; nothing else is alive or was released. -/
structure Accounts (L : Lifetimes E H) (tr : List E) : Prop where
  acquired : ∀ h ∈ alive L tr, ∃ e ∈ tr, L.acquires e = some h
  owed : ∀ h ∈ alive L tr, released L tr h = 0
  paid : ∀ e ∈ tr, ∀ h, L.acquires e = some h → h ∉ alive L tr → released L tr h = 1

theorem accounts_nil : Accounts L [] where
  acquired h hh := by cases hh
  owed h hh := by cases hh
  paid e he := by cases he

theorem released_concat (tr : List E) (e : E) (h : H) :
    released L (tr ++ [e]) h = released L tr h + if L.releases e = some h then 1 else 0 := by
  simp [released, List.countP_append, List.countP_cons]

/-- A handle that is new on the trace comes alive and owes a release. -/
theorem accounts_acquire {tr : List E} {e : E} {a : H} (ha : Accounts L tr) (hf : Fair L tr e)
    (hacq : L.acquires e = some a) : Accounts L (tr ++ [e]) := by
  have hrel : L.releases e = none := hf.one.resolve_left (by simp [hacq])
  have hlive : alive L (tr ++ [e]) = a :: alive L tr := by rw [alive_concat, touch, hacq]
  have hsame : ∀ h, released L (tr ++ [e]) h = released L tr h := fun h => by
    rw [released_concat, if_neg (by simp [hrel]), Nat.add_zero]
  refine ⟨?_, ?_, ?_⟩
  · intro h hh
    rw [hlive, List.mem_cons] at hh
    rcases hh with rfl | hh
    · exact ⟨e, by simp, hacq⟩
    · obtain ⟨d, hd, hda⟩ := ha.acquired h hh
      exact ⟨d, by simp [hd], hda⟩
  · intro h hh
    rw [hlive, List.mem_cons] at hh
    rw [hsame]
    rcases hh with rfl | hh
    · exact List.countP_eq_zero.mpr fun d hd => by simpa using (hf.fresh h hacq d hd).2
    · exact ha.owed h hh
  · intro d hd h hda hh
    rw [hlive, List.mem_cons, not_or] at hh
    rw [hsame]
    rcases List.mem_append.mp hd with hd | hd
    · exact ha.paid d hd h hda hh.2
    · rw [List.mem_singleton.mp hd, hacq] at hda
      exact absurd (Option.some.inj hda).symm hh.1

omit [DecidableEq H] in
/-- A call that acquires nothing adds no handle to account for. -/
theorem mem_of_acquires_concat {tr : List E} {d e : E} {h : H} (hacq : L.acquires e = none)
    (hd : d ∈ tr ++ [e]) (hda : L.acquires d = some h) : d ∈ tr := by
  rcases List.mem_append.mp hd with hd | hd
  · exact hd
  · rw [List.mem_singleton.mp hd, hacq] at hda
    cases hda

theorem accounts_idle {tr : List E} {e : E} (ha : Accounts L tr) (hacq : L.acquires e = none)
    (hrel : L.releases e = none) : Accounts L (tr ++ [e]) := by
  have hlive : alive L (tr ++ [e]) = alive L tr := by rw [alive_concat, touch, hacq, hrel]
  have hsame : ∀ h, released L (tr ++ [e]) h = released L tr h := fun h => by
    rw [released_concat, if_neg (by simp [hrel]), Nat.add_zero]
  refine ⟨?_, ?_, ?_⟩
  · intro h hh
    rw [hlive] at hh
    obtain ⟨d, hd, hda⟩ := ha.acquired h hh
    exact ⟨d, by simp [hd], hda⟩
  · intro h hh
    rw [hlive] at hh
    rw [hsame, ha.owed h hh]
  · intro d hd h hda hh
    rw [hlive] at hh
    rw [hsame, ha.paid d (mem_of_acquires_concat hacq hd hda) h hda hh]

/-- A live handle is released for the first time. -/
theorem accounts_release {tr : List E} {e : E} {a : H} (ha : Accounts L tr) (hf : Fair L tr e)
    (hacq : L.acquires e = none) (hrel : L.releases e = some a) : Accounts L (tr ++ [e]) := by
  have hlive : alive L (tr ++ [e]) = (alive L tr).filter (· ≠ a) := by
    rw [alive_concat, touch, hacq, hrel]
  have ha0 : released L tr a = 0 := ha.owed a (hf.live a hrel)
  refine ⟨?_, ?_, ?_⟩
  · intro h hh
    rw [hlive, List.mem_filter] at hh
    obtain ⟨d, hd, hda⟩ := ha.acquired h hh.1
    exact ⟨d, by simp [hd], hda⟩
  · intro h hh
    rw [hlive, List.mem_filter] at hh
    have hne : ¬ L.releases e = some h := by
      rw [hrel]
      intro he
      simp [Option.some.inj he] at hh
    rw [released_concat, if_neg hne, ha.owed h hh.1]
  · intro d hd h hda hh
    rw [released_concat, hrel]
    by_cases hah : a = h
    · rw [if_pos (by rw [hah]), ← hah, ha0]
    · rw [if_neg (by simpa using hah), Nat.add_zero]
      refine ha.paid d (mem_of_acquires_concat hacq hd hda) h hda fun hl => hh ?_
      rw [hlive, List.mem_filter]
      exact ⟨hl, by simpa using Ne.symm hah⟩

theorem accounts_concat {tr : List E} {e : E} (ha : Accounts L tr) (hf : Fair L tr e) :
    Accounts L (tr ++ [e]) := by
  cases hacq : L.acquires e with
  | some a => exact accounts_acquire ha hf hacq
  | none =>
    cases hrel : L.releases e with
    | none => exact accounts_idle ha hacq hrel
    | some a => exact accounts_release ha hf hacq hrel

/-- A call that neither acquires nor releases. -/
def Quiet (L : Lifetimes E H) (e : E) : Prop := L.acquires e = none ∧ L.releases e = none

theorem fair_quiet {tr : List E} {e : E} (h : Quiet L e) : Fair L tr e where
  fresh a ha := by rw [h.1] at ha; cases ha
  live a ha := by rw [h.2] at ha; cases ha
  one := Or.inl h.1

theorem alive_quiet : ∀ (tr es : List E), (∀ e ∈ es, Quiet L e) → alive L (tr ++ es) = alive L tr
  | tr, [], _ => by rw [List.append_nil]
  | tr, e :: es, h => by
    obtain ⟨hacq, hrel⟩ := h e (List.mem_cons_self ..)
    have ih := alive_quiet (tr ++ [e]) es fun d hd => h d (List.mem_cons_of_mem _ hd)
    rw [List.append_assoc, List.singleton_append] at ih
    rw [ih, alive_concat, touch, hacq, hrel]

theorem accounts_quiet : ∀ (tr es : List E), (∀ e ∈ es, Quiet L e) → Accounts L tr →
    Accounts L (tr ++ es)
  | tr, [], _, ha => by rwa [List.append_nil]
  | tr, e :: es, h, ha => by
    have ih := accounts_quiet (tr ++ [e]) es (fun d hd => h d (List.mem_cons_of_mem _ hd))
      (accounts_concat ha (fair_quiet (h e (List.mem_cons_self ..))))
    rwa [List.append_assoc, List.singleton_append] at ih

/-- On a trace with accounts every acquired handle was released once exactly when none is alive. -/
theorem released_once_iff {tr : List E} (ha : Accounts L tr) :
    (∀ e ∈ tr, ∀ h, L.acquires e = some h → released L tr h = 1) ↔ alive L tr = [] := by
  constructor
  · intro h
    refine List.eq_nil_iff_forall_not_mem.mpr fun a hlive => ?_
    obtain ⟨e, he, hacq⟩ := ha.acquired a hlive
    have h1 := h e he a hacq
    rw [ha.owed a hlive] at h1
    cases h1
  · intro hnil e he h hacq
    exact ha.paid e he h hacq (by simp [hnil])

end Schemes.Handles
