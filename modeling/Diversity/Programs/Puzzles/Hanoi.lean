import Diversity.Programs.Containers.Stack

/-! @src c++/src/hanoi_tower.cpp | name:Tower of Hanoi | scheme:recursion | family:puzzle

    `move_disk` on three `Stack`s passed by reference. The recursion permutes their roles, and a
    failing `pop` or `push` only prints a message, so the output keeps those messages, and for each
    move the number that is printed next to the value that was popped: the recursive branch prints
    its own parameter. `Moves` follows the three stacks, under the names of the outermost call, from
    one line `Move` to the next: a disk leaves the top of one stack and is the new top of another, and
    the line names that disk and those two stacks.

        pegs of the call        src : 0 .. disk, S     dest : D              aux : A
        move_disk(disk - 1)     src : disk, S          dest : D              aux : 0 .. disk - 1, A
        pop / push              src : S                dest : disk, D        aux : 0 .. disk - 1, A
        move_disk(disk - 1)     src : S                dest : 0 .. disk, D   aux : A -/

namespace Diversity.Hanoi
open Schemes

/-- The three stacks in the roles a call gives them. -/
structure Pegs where
  src : Stack
  dest : Stack
  aux : Stack
  deriving DecidableEq, Repr

/-- What is printed: a message of a stack, or the four lines of a move. `disk` is the number on the
    line `Move`, `popped` the value that `src.pop()` returned, `after` the pegs at that moment. -/
inductive Out where
  | stack (m : Stack.Msg)
  | move (disk popped : ℤ) (after : Pegs) (text : String)
  deriving DecidableEq, Repr

/-- The lines printed after a move, with the three lines of `display()` put in. -/
def moveText (disk : ℤ) (p : Pegs) (src dest aux : String) : String :=
  "Move " ++ toString disk ++ " from " ++ toString p.src.id ++ " to " ++ toString p.dest.id ++ "\n" ++
    "Src " ++ toString p.src.id ++ " : " ++ src ++
    "Dst " ++ toString p.dest.id ++ " : " ++ dest ++
    "Aux " ++ toString p.aux.id ++ " : " ++ aux

def report (disk : ℤ) (p : Pegs) : C String := do
  let src ← p.src.display
  let dest ← p.dest.display
  let aux ← p.aux.display
  .ok (moveText disk p src dest aux)

/-- `dest.push(src.pop())` and the lines about it, with `name value` for the disk's number. -/
def moveTop (name : ℤ → ℤ) (p : Pegs) : C (Pegs × List Out) := do
  let (src, value, msgs) ← p.src.pop
  let (dest, msgs') ← p.dest.push value
  let after : Pegs := { p with src, dest }
  let text ← report (name value) after
  .ok (after, (msgs ++ msgs').map .stack ++ [.move (name value) value after text])

/-- `move_disk(disk, src, dest, aux)`. Each call returns the pegs in its own roles. -/
def moveDisk : ℕ → Pegs → C (Pegs × List Out)
  | 0, p => moveTop (fun value => value) p
  | disk + 1, p => do
    let (p, out₁) ← moveDisk disk ⟨p.src, p.aux, p.dest⟩
    let (p, out₂) ← moveTop (fun _ => disk + 1) ⟨p.src, p.aux, p.dest⟩
    let (p, out₃) ← moveDisk disk ⟨p.aux, p.dest, p.src⟩
    .ok (⟨p.aux, p.dest, p.src⟩, out₁ ++ out₂ ++ out₃)

/-! ### Disks on a peg -/

/-- The disks `0, 1, …, n - 1`, the smallest on top. -/
def tower (n : ℕ) : List ℤ := (List.range n).map Int.ofNat

theorem tower_succ (n : ℕ) : tower (n + 1) = tower n ++ [(n : ℤ)] := by
  simp [tower, List.range_succ]

theorem lt_of_mem_tower {n : ℕ} {d : ℤ} (h : d ∈ tower n) : d < n := by
  obtain ⟨i, hi, rfl⟩ := List.mem_map.mp h
  exact Int.ofNat_lt.mpr (List.mem_range.mp hi)

theorem tower_sorted (n : ℕ) : (tower n).Pairwise (· < ·) := by
  induction n with
  | zero => exact List.Pairwise.nil
  | succ n ih =>
    rw [tower_succ, List.pairwise_append]
    refine ⟨ih, List.pairwise_singleton _ _, ?_⟩
    intro a ha b hb
    rw [List.mem_singleton.mp hb]
    exact lt_of_mem_tower ha

/-- A peg is legal when it is strictly decreasing from bottom to top. -/
def Legal (xs : List ℤ) : Prop := xs.Pairwise (· < ·)

theorem legal_cons {xs : List ℤ} {d : ℤ} (h : Legal xs) (hd : ∀ x ∈ xs, d < x) : Legal (d :: xs) :=
  List.pairwise_cons.mpr ⟨hd, h⟩

theorem legal_tower {xs : List ℤ} {n : ℕ} (h : Legal xs) (hn : ∀ x ∈ xs, (n : ℤ) ≤ x) :
    Legal (tower n ++ xs) :=
  List.pairwise_append.mpr
    ⟨tower_sorted n, h, fun _ ha b hb => lt_of_lt_of_le (lt_of_mem_tower ha) (hn b hb)⟩

/-! ### Moves -/

/-- The pegs hold these lists, and each has room for at least `room` disks. -/
structure Hold (room : ℕ) (p : Pegs) (S D A : List ℤ) : Prop where
  src : ∃ cap, room ≤ cap ∧ p.src.Holds cap S
  dest : ∃ cap, room ≤ cap ∧ p.dest.Holds cap D
  aux : ∃ cap, room ≤ cap ∧ p.aux.Holds cap A

/-- The lines about a move when the pegs hold these lists. -/
def snapText (disk : ℤ) (p : Pegs) (S D A : List ℤ) : String :=
  moveText disk p (Stack.cellsText S.reverse ++ "\n") (Stack.cellsText D.reverse ++ "\n")
    (Stack.cellsText A.reverse ++ "\n")

/-- The stacks, as the outermost call names them. -/
inductive Role where
  | src | dest | aux
  deriving DecidableEq

/-- The numbers of the stacks. -/
def Pegs.ids (p : Pegs) : Role → ℤ
  | .src => p.src.id
  | .dest => p.dest.id
  | .aux => p.aux.id

/-- Stack `s` holds `S`, stack `t` holds `D`, and the third holds `A`. -/
def place (s t : Role) (S D A : List ℤ) : Role → List ℤ :=
  fun r => if r = s then S else if r = t then D else A

/-- All disks. -/
def disks (cur : Role → List ℤ) : List ℤ := cur .src ++ cur .dest ++ cur .aux

/-- Three different stacks, which are all there are. -/
def Different (s t u : Role) : Prop := s ≠ t ∧ t ≠ u ∧ s ≠ u

/-- The stacks of a call by their numbers. -/
def Pegs.Named (p : Pegs) (ids : Role → ℤ) (s t u : Role) : Prop :=
  p.src.id = ids s ∧ p.dest.id = ids t ∧ p.aux.id = ids u

/-- A move from `cur` to `nxt`: the top disk of stack `s` is put on top of stack `t`, the third stack is
    as it was, and what is printed is about this disk and these stacks. -/
def IsMove (room : ℕ) (ids : Role → ℤ) (cur : Role → List ℤ) (o : Out) (nxt : Role → List ℤ) : Prop :=
  ∃ s t u d after, Different s t u ∧ (cur s = d :: nxt s ∧ nxt t = d :: cur t ∧ nxt u = cur u) ∧
    after.Named ids s t u ∧ Hold room after (nxt s) (nxt t) (nxt u) ∧
    o = .move d d after (snapText d after (nxt s) (nxt t) (nxt u))

/-- A sequence of moves: what is printed, the states after each move, and the last state. -/
inductive Moves (room : ℕ) (ids : Role → ℤ) :
    (Role → List ℤ) → List Out → List (Role → List ℤ) → (Role → List ℤ) → Prop
  | nil (cur : Role → List ℤ) : Moves room ids cur [] [] cur
  | cons {cur mid last : Role → List ℤ} {o : Out} {out : List Out} {states : List (Role → List ℤ)}
      (head : IsMove room ids cur o mid) (tail : Moves room ids mid out states last) :
      Moves room ids cur (o :: out) (mid :: states) last

theorem different_roles : Different .src .dest .aux :=
  ⟨Role.noConfusion, Role.noConfusion, Role.noConfusion⟩

theorem Pegs.named_self (p : Pegs) : p.Named p.ids .src .dest .aux := ⟨rfl, rfl, rfl⟩

section Moves

variable {room : ℕ} {ids : Role → ℤ} {cur mid last : Role → List ℤ} {out out' : List Out}
  {states states' : List (Role → List ℤ)}

theorem Moves.append (h : Moves room ids cur out states mid) (h' : Moves room ids mid out' states' last) :
    Moves room ids cur (out ++ out') (states ++ states') last := by
  induction h with
  | nil => exact h'
  | cons head _ ih => exact .cons head (ih h')

/-- A move takes no disk away and adds none. -/
theorem IsMove.perm {o : Out} (h : IsMove room ids cur o mid) : (disks mid).Perm (disks cur) := by
  obtain ⟨s, t, u, d, -, ⟨hst, htu, hsu⟩, ⟨hs, ht, hu⟩, -⟩ := h
  refine List.perm_iff_count.mpr fun x => ?_
  have hs' := congrArg (List.count x) hs
  have ht' := congrArg (List.count x) ht
  have hu' := congrArg (List.count x) hu
  rw [List.count_cons] at hs' ht'
  simp only [disks, List.count_append]
  cases s <;> cases t <;> cases u <;> first | contradiction | omega

theorem Moves.perm (h : Moves room ids cur out states last) : ∀ s ∈ states, (disks s).Perm (disks cur) := by
  induction h with
  | nil => exact fun s hs => absurd hs List.not_mem_nil
  | cons head _ ih =>
    intro s hs
    rcases List.mem_cons.mp hs with rfl | hs
    · exact head.perm
    · exact (ih s hs).trans head.perm

theorem Moves.length_eq (h : Moves room ids cur out states last) : out.length = states.length := by
  induction h with
  | nil => rfl
  | cons _ _ ih => rw [List.length_cons, List.length_cons, ih]

/-- Nothing is printed but the lines of moves. -/
theorem Moves.isMove_of_mem (h : Moves room ids cur out states last) :
    ∀ o ∈ out, ∃ disk popped after text, o = .move disk popped after text := by
  induction h with
  | nil => exact fun o ho => absurd ho List.not_mem_nil
  | cons head _ ih =>
    intro o ho
    rcases List.mem_cons.mp ho with rfl | ho
    · obtain ⟨-, -, -, d, after, -, -, -, -, rfl⟩ := head
      exact ⟨_, _, _, _, rfl⟩
    · exact ih o ho

end Moves

section Roles

variable {s t u : Role}

theorem Different.swap (h : Different s t u) : Different s u t := ⟨h.2.2, h.2.1.symm, h.1⟩

theorem Different.rotate (h : Different s t u) : Different u t s := ⟨h.2.1.symm, h.1.symm, h.2.2.symm⟩

theorem place_swap (h : Different s t u) (S D A : List ℤ) : place s t S D A = place s u S A D := by
  obtain ⟨hst, htu, hsu⟩ := h
  funext r
  cases s <;> cases t <;> cases u <;> first | contradiction | (cases r <;> rfl)

theorem place_rotate (h : Different s t u) (S D A : List ℤ) : place s t S D A = place u t A D S := by
  obtain ⟨hst, htu, hsu⟩ := h
  funext r
  cases s <;> cases t <;> cases u <;> first | contradiction | (cases r <;> rfl)

theorem place_src (s t : Role) (S D A : List ℤ) : place s t S D A s = S := if_pos rfl

theorem place_dest (h : Different s t u) (S D A : List ℤ) : place s t S D A t = D := by
  rw [place, if_neg h.1.symm, if_pos rfl]

theorem place_aux (h : Different s t u) (S D A : List ℤ) : place s t S D A u = A := by
  rw [place, if_neg h.2.2.symm, if_neg h.2.1.symm]

theorem place_legal {S D A : List ℤ} (hS : Legal S) (hD : Legal D) (hA : Legal A) (r : Role) :
    Legal (place s t S D A r) := by
  rw [place]
  split_ifs
  · exact hS
  · exact hD
  · exact hA

end Roles

theorem report_hold {room : ℕ} {p : Pegs} {S D A : List ℤ} (h : Hold room p S D A) (disk : ℤ) :
    report disk p = .ok (snapText disk p S D A) := by
  obtain ⟨_, -, hs⟩ := h.src
  obtain ⟨_, -, hd⟩ := h.dest
  obtain ⟨_, -, ha⟩ := h.aux
  rw [report, Stack.display_holds hs, ok_bind, Stack.display_holds hd, ok_bind,
    Stack.display_holds ha, ok_bind, snapText]

/-- STEP: `dest.push(src.pop())` is a move, and the line about it names the disk if `name` does. -/
theorem moveTop_isMove {room : ℕ} {ids : Role → ℤ} {s t u : Role} {p : Pegs} {S D A : List ℤ} {x : ℤ}
    (hdiff : Different s t u) (hp : p.Named ids s t u) (h : Hold room p (x :: S) D A)
    (hroom : D.length < room) (name : ℤ → ℤ) (hname : name x = x) :
    ∃ q o, moveTop name p = .ok (q, [o]) ∧ q.Named ids s t u ∧ Hold room q S (x :: D) A ∧
      IsMove room ids (place s t (x :: S) D A) o (place s t S (x :: D) A) := by
  obtain ⟨c₁, hc₁, hs⟩ := h.src
  obtain ⟨c₂, hc₂, hd⟩ := h.dest
  obtain ⟨src, hpop, hs', hsrc⟩ := Stack.pop_cons hs
  obtain ⟨dest, hpush, hd', hdest⟩ := Stack.push_room hd (hroom.trans_le hc₂) x
  have hq : Hold room { p with src, dest } S (x :: D) A := ⟨⟨c₁, hc₁, hs'⟩, ⟨c₂, hc₂, hd'⟩, h.aux⟩
  have hnamed : Pegs.Named { p with src, dest } ids s t u :=
    ⟨hsrc.trans hp.1, hdest.trans hp.2.1, hp.2.2⟩
  refine ⟨{ p with src, dest }, _, ?_, hnamed, hq, s, t, u, x, { p with src, dest }, hdiff, ⟨?_, ?_, ?_⟩,
    hnamed, ?_, rfl⟩
  · rw [moveTop, hpop, ok_bind]
    simp only [hpush, ok_bind, report_hold hq, hname, List.map_nil, List.nil_append, place_src,
      place_dest hdiff, place_aux hdiff]
  · rw [place_src, place_src]
  · rw [place_dest hdiff, place_dest hdiff]
  · rw [place_aux hdiff, place_aux hdiff]
  · rw [place_src, place_dest hdiff, place_aux hdiff]
    exact hq

/-- SIMULATE: with room for all disks on every peg, `moveDisk` takes the tower from `src` to `dest` in
    `2 ^ (disk + 1) - 1` moves. When all other disks are larger, the pegs stay legal. -/
theorem moveDisk_moves {room : ℕ} {ids : Role → ℤ} : ∀ (disk : ℕ) {s t u : Role} (p : Pegs)
    (S D A : List ℤ), Different s t u → p.Named ids s t u → Hold room p (tower (disk + 1) ++ S) D A →
    disk + 1 + S.length + D.length + A.length ≤ room →
    ∃ q out states, moveDisk disk p = .ok (q, out) ∧ q.Named ids s t u ∧
      Hold room q S (tower (disk + 1) ++ D) A ∧
      Moves room ids (place s t (tower (disk + 1) ++ S) D A) out states
        (place s t S (tower (disk + 1) ++ D) A) ∧
      states.length = 2 ^ (disk + 1) - 1 ∧
      (Legal S → Legal D → Legal A → (∀ x ∈ S ++ D ++ A, (disk : ℤ) < x) →
        ∀ cur ∈ states, ∀ r, Legal (cur r))
  | 0, s, t, u, p, S, D, A, hdiff, hp, h, hroom => by
    obtain ⟨q, o, hrun, hq, hold, hmove⟩ := moveTop_isMove hdiff hp h (by omega) (fun value => value) rfl
    refine ⟨q, _, _, hrun, hq, hold, .cons hmove (.nil _), rfl, fun hS hD hA hlt cur hcur => ?_⟩
    rw [List.mem_singleton.mp hcur]
    exact place_legal hS (legal_cons hD fun x hx => hlt x (by simp [hx])) hA
  | disk + 1, s, t, u, p, S, D, A, hdiff, hp, h, hroom => by
    have htower (xs : List ℤ) :
        tower (disk + 1 + 1) ++ xs = tower (disk + 1) ++ ((disk + 1 : ℕ) : ℤ) :: xs := by
      rw [tower_succ (disk + 1), List.append_assoc]
      rfl
    rw [htower] at h
    -- the upper disks go to `aux`, the largest to `dest`, the upper disks after it
    obtain ⟨p₁, out₁, states₁, h₁, hp₁, hold₁, hm₁, hl₁, hlegal₁⟩ := moveDisk_moves disk
      ⟨p.src, p.aux, p.dest⟩ (((disk + 1 : ℕ) : ℤ) :: S) A D hdiff.swap ⟨hp.1, hp.2.2, hp.2.1⟩
      ⟨h.src, h.aux, h.dest⟩ (by simp only [List.length_cons]; omega)
    obtain ⟨p₂, o, h₂, hp₂, hold₂, hm₂⟩ := moveTop_isMove (p := ⟨p₁.src, p₁.aux, p₁.dest⟩) hdiff
      ⟨hp₁.1, hp₁.2.2, hp₁.2.1⟩ ⟨hold₁.src, hold₁.aux, hold₁.dest⟩ (by omega) (fun _ => (disk + 1 : ℤ))
      (by push_cast; rfl)
    obtain ⟨p₃, out₃, states₃, h₃, hp₃, hold₃, hm₃, hl₃, hlegal₃⟩ := moveDisk_moves disk
      ⟨p₂.aux, p₂.dest, p₂.src⟩ A (((disk + 1 : ℕ) : ℤ) :: D) S hdiff.rotate ⟨hp₂.2.2, hp₂.2.1, hp₂.1⟩
      ⟨hold₂.aux, hold₂.dest, hold₂.src⟩ (by simp only [List.length_cons]; omega)
    refine ⟨⟨p₃.aux, p₃.dest, p₃.src⟩, out₁ ++ [o] ++ out₃, states₁ ++
      [place s t S (((disk + 1 : ℕ) : ℤ) :: D) (tower (disk + 1) ++ A)] ++ states₃, ?_,
      ⟨hp₃.2.2, hp₃.2.1, hp₃.1⟩, ⟨hold₃.aux, ?_, hold₃.src⟩, ?_, ?_, fun hS hD hA hlt => ?_⟩
    · rw [moveDisk, h₁, ok_bind]
      simp only [h₂, h₃, ok_bind]
    · rw [htower]
      exact hold₃.dest
    · rw [place_swap hdiff.swap, place_swap hdiff.swap] at hm₁
      rw [← place_rotate hdiff, ← place_rotate hdiff] at hm₃
      rw [htower, htower]
      exact (hm₁.append (.cons hm₂ (.nil _))).append hm₃
    · have hpos : 0 < 2 ^ (disk + 1) := Nat.two_pow_pos _
      rw [List.length_append, List.length_append, hl₁, hl₃, List.length_singleton, Nat.pow_succ 2 (disk + 1)]
      omega
    · have hltS : ∀ x ∈ S, ((disk + 1 : ℕ) : ℤ) < x := fun x hx => hlt x (by simp [hx])
      have hltD : ∀ x ∈ D, ((disk + 1 : ℕ) : ℤ) < x := fun x hx => hlt x (by simp [hx])
      have hltA : ∀ x ∈ A, ((disk + 1 : ℕ) : ℤ) < x := fun x hx => hlt x (by simp [hx])
      have hbelow : ∀ x ∈ ((disk + 1 : ℕ) : ℤ) :: (S ++ D ++ A), (disk : ℤ) < x := by
        intro x hx
        rcases List.mem_cons.mp hx with rfl | hx
        · omega
        · have := hlt x hx
          omega
      intro cur hcur
      rw [List.append_assoc, List.mem_append, List.mem_append, List.mem_singleton] at hcur
      rcases hcur with hcur | rfl | hcur
      · refine hlegal₁ (legal_cons hS hltS) hA hD (fun x hx => hbelow x ?_) cur hcur
        simp only [List.mem_append, List.mem_cons] at hx ⊢
        tauto
      · exact place_legal hS (legal_cons hD hltD) (legal_tower hA fun x hx => (hltA x hx).le)
      · refine hlegal₃ hA (legal_cons hD hltD) hS (fun x hx => hbelow x ?_) cur hcur
        simp only [List.mem_append, List.mem_cons] at hx ⊢
        tauto

/-- The pegs of `main` when it calls `move_disk`: five disks on the first. -/
def mainPegs : Pegs where
  src := { top := 4, capacity := 5, stack := [4, 3, 2, 1, 0], id := 1 }
  dest := { top := -1, capacity := 5, stack := [0, 0, 0, 0, 0], id := 2 }
  aux := { top := -1, capacity := 5, stack := [0, 0, 0, 0, 0], id := 3 }

theorem mainPegs_hold : Hold 5 mainPegs (tower 5 ++ []) [] [] :=
  ⟨⟨5, le_rfl, rfl, rfl, rfl, rfl⟩, ⟨5, le_rfl, rfl, rfl, rfl, rfl⟩, ⟨5, le_rfl, rfl, rfl, rfl, rfl⟩⟩

/-- CORRECT: `move_disk(n - 1, …)` takes the top `n` disks of `src` to `dest`, in the same order,
    and leaves `aux` as it was. The output is `2 ^ n - 1` moves and nothing else: no pop met an
    empty stack and no push a full one. -/
theorem moveDisk_end (n room : ℕ) (hn : 1 ≤ n) (p : Pegs) (S D A : List ℤ)
    (h : Hold room p (tower n ++ S) D A) (hroom : n + S.length + D.length + A.length ≤ room) :
    ∃ q out, moveDisk (n - 1) p = .ok (q, out) ∧ Hold room q S (tower n ++ D) A ∧
      out.length = 2 ^ n - 1 ∧
      ∀ o ∈ out, ∃ disk popped after text, o = .move disk popped after text := by
  obtain ⟨disk, rfl⟩ : ∃ disk, n = disk + 1 := ⟨n - 1, by omega⟩
  obtain ⟨q, out, states, hrun, -, hq, hmoves, hlen, -⟩ := moveDisk_moves disk (s := .src) (t := .dest)
    (u := .aux) p S D A different_roles p.named_self h hroom
  exact ⟨q, out, hrun, hq, hmoves.length_eq.trans hlen, hmoves.isMove_of_mem⟩

/-- The call in `main`. -/
theorem moveDisk_end_main : Hold 5 mainPegs (tower 5 ++ []) [] [] ∧
    ∃ q out, moveDisk (5 - 1) mainPegs = .ok (q, out) ∧ Hold 5 q [] (tower 5 ++ []) [] ∧
      out.length = 2 ^ 5 - 1 ∧
      ∀ o ∈ out, ∃ disk popped after text, o = .move disk popped after text :=
  ⟨mainPegs_hold, moveDisk_end 5 5 (by decide) mainPegs [] [] [] mainPegs_hold (by decide)⟩

/-- CORRECT: when the three pegs are legal and every disk but the `n` on top of `src` is at least
    `n`, the run is a sequence of `2 ^ n - 1` moves from the pegs at the start to the pegs at the end; the
    pegs are legal after every move and hold the same disks. Every line names the disk that left one peg
    and arrived on the other, and these pegs. -/
theorem moveDisk_legal (n room : ℕ) (hn : 1 ≤ n) (p : Pegs) (S D A : List ℤ)
    (h : Hold room p (tower n ++ S) D A) (hroom : n + S.length + D.length + A.length ≤ room)
    (hS : Legal (tower n ++ S)) (hD : Legal D) (hA : Legal A)
    (hlarge : ∀ x ∈ S ++ D ++ A, (n : ℤ) ≤ x) :
    ∃ q out states, moveDisk (n - 1) p = .ok (q, out) ∧ q.ids = p.ids ∧ Hold room q S (tower n ++ D) A ∧
      Moves room p.ids (place .src .dest (tower n ++ S) D A) out states
        (place .src .dest S (tower n ++ D) A) ∧
      states.length = 2 ^ n - 1 ∧
      ∀ cur ∈ states, (∀ r, Legal (cur r)) ∧ (disks cur).Perm (tower n ++ S ++ D ++ A) := by
  obtain ⟨disk, rfl⟩ : ∃ disk, n = disk + 1 := ⟨n - 1, by omega⟩
  obtain ⟨q, out, states, hrun, hnamed, hq, hmoves, hlen, hlegal⟩ := moveDisk_moves disk (s := .src)
    (t := .dest) (u := .aux) p S D A different_roles p.named_self h hroom
  refine ⟨q, out, states, hrun, ?_, hq, hmoves, hlen, fun cur hcur => ⟨?_, hmoves.perm cur hcur⟩⟩
  · funext r
    cases r
    · exact hnamed.1
    · exact hnamed.2.1
    · exact hnamed.2.2
  · refine hlegal (List.pairwise_append.mp hS).2.1 hD hA (fun x hx => ?_) cur hcur
    have hle := hlarge x hx
    push_cast at hle
    omega

/-- The call in `main`. -/
theorem moveDisk_legal_main : Hold 5 mainPegs (tower 5 ++ []) [] [] ∧ Legal (tower 5 ++ []) ∧
    ∃ q out states, moveDisk (5 - 1) mainPegs = .ok (q, out) ∧ q.ids = mainPegs.ids ∧
      Hold 5 q [] (tower 5 ++ []) [] ∧
      Moves 5 mainPegs.ids (place .src .dest (tower 5 ++ []) [] []) out states
        (place .src .dest [] (tower 5 ++ []) []) ∧
      states.length = 2 ^ 5 - 1 ∧
      ∀ cur ∈ states, (∀ r, Legal (cur r)) ∧ (disks cur).Perm (tower 5 ++ [] ++ [] ++ []) := by
  have hlegal : Legal (tower 5 ++ []) := legal_tower List.Pairwise.nil (by simp)
  exact ⟨mainPegs_hold, hlegal, moveDisk_legal 5 5 (by decide) mainPegs [] [] [] mainPegs_hold
    (by decide) hlegal List.Pairwise.nil List.Pairwise.nil (by simp)⟩

end Diversity.Hanoi
