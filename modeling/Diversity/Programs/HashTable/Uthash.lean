import Diversity.Schemes.Machine
import Diversity.Schemes.LinkedList

/-! @src client_server/uthash/src/uthash.h | name:uthash | scheme:linked-list | family:data-structure

    The hash table of the proxy server, at the level of its pointers. An element carries a handle with four
    of them: `prev` and `next` link all elements in the order of their additions, `hh_prev` and `hh_next`
    those of one bucket.

        head ──► e₁ ⇄ e₂ ⇄ e₃ ◄── tail          prev, next
        buckets[0] ──► e₃ ⇄ e₁                    hh_prev, hh_next
        buckets[1] ──► e₂

    Memory is one function for each field, and a set of addresses that are allocated; every access to an
    element is checked against it. The handle of an element and the element itself are one address here,
    as `hho` only converts between them. A failed `uthash_malloc` ends the program (`uthash_fatal`).
    `HASH_FCN` is a parameter, as it is in the source. -/

namespace Diversity.Uthash
open Schemes Schemes.LinkedList

variable {A E K β : Type} [DecidableEq A]

/-- `unsigned`. -/
def u32 (x : ℕ) : ℕ := x % 2 ^ 32

/-- `x >> n`, which C defines for shifts below the width. -/
def shr32 (x n : ℕ) : C ℕ := if n < 32 then .ok (x >>> n) else .error .overflow

/-! ### Memory -/

/-- The fields of all elements: what the user stores, and the handle. -/
structure Mem (A E : Type) where
  live : Finset A
  entry : A → E
  prev : A → Option A
  next : A → Option A
  hhPrev : A → Option A
  hhNext : A → Option A
  hashv : A → UInt32

/-- Read a field. -/
def Mem.read (m : Mem A E) (f : A → β) (a : A) : C β :=
  if a ∈ m.live then .ok (f a) else .error .nullDeref

/-- Write a field of an element. -/
def Mem.write (m : Mem A E) (a : A) (m' : Mem A E) : C (Mem A E) :=
  if a ∈ m.live then .ok m' else .error .nullDeref

def Mem.setPrev (m : Mem A E) (a : A) (v : Option A) : C (Mem A E) :=
  m.write a { m with prev := Function.update m.prev a v }

def Mem.setNext (m : Mem A E) (a : A) (v : Option A) : C (Mem A E) :=
  m.write a { m with next := Function.update m.next a v }

def Mem.setHhPrev (m : Mem A E) (a : A) (v : Option A) : C (Mem A E) :=
  m.write a { m with hhPrev := Function.update m.hhPrev a v }

def Mem.setHhNext (m : Mem A E) (a : A) (v : Option A) : C (Mem A E) :=
  m.write a { m with hhNext := Function.update m.hhNext a v }

def Mem.setHashv (m : Mem A E) (a : A) (v : UInt32) : C (Mem A E) :=
  m.write a { m with hashv := Function.update m.hashv a v }

/-- `if (p) p->f = v`. -/
def onNode (p : Option A) (set : A → C (Mem A E)) (m : Mem A E) : C (Mem A E) :=
  match p with
  | none => .ok m
  | some b => set b

/-- The links of `HASH_ADD_TO_BKT`: the element goes before the head of its bucket. -/
def linkFront (m : Mem A E) (a : A) (hhHead : Option A) : C (Mem A E) := do
  let m ← m.setHhNext a hhHead
  let m ← m.setHhPrev a none
  onNode hhHead (fun c => m.setHhPrev c (some a)) m

/-- Those of `HASH_EXPAND_BUCKETS`, which makes the same assignments in another order. -/
def relinkFront (m : Mem A E) (a : A) (hhHead : Option A) : C (Mem A E) := do
  let m ← m.setHhPrev a none
  let m ← m.setHhNext a hhHead
  onNode hhHead (fun c => m.setHhPrev c (some a)) m

/-- The links of `HASH_DEL_IN_BKT`: the neighbours in the bucket are linked to each other. -/
def unlinkBkt (m : Mem A E) (prv nxt : Option A) : C (Mem A E) := do
  let m ← onNode prv (fun c => m.setHhNext c nxt) m
  onNode nxt (fun c => m.setHhPrev c prv) m

/-- Those of `HASH_DELETE`, in the order of additions. -/
def unlinkApp (m : Mem A E) (prv nxt : Option A) : C (Mem A E) := do
  let m ← onNode prv (fun c => m.setNext c nxt) m
  onNode nxt (fun c => m.setPrev c prv) m

/-- `malloc` of an element at an address that is not allocated; the handle is whatever lay there. -/
def Mem.malloc (m : Mem A E) (a : A) (e : E) : Mem A E :=
  { m with live := insert a m.live, entry := Function.update m.entry a e }

/-- `free`. -/
def Mem.free (m : Mem A E) (a : A) : C (Mem A E) := m.write a { m with live := m.live.erase a }

/-! ### The table -/

/-- `UT_hash_bucket`. -/
structure Bucket (A : Type) where
  hhHead : Option A
  count : ℕ
  expandMult : ℕ

/-- `UT_hash_table`. -/
structure Table (A : Type) where
  buckets : List (Bucket A)
  numBuckets : ℕ
  log2NumBuckets : ℕ
  numItems : ℕ
  tail : Option A
  idealChainMaxlen : ℕ
  nonidealItems : ℕ
  ineffExpands : ℕ
  noexpand : ℕ

/-- A user's hash: the pointer to the first element, and what it leads to. -/
structure State (A E : Type) where
  mem : Mem A E
  head : Option A
  tbl : Table A

/-- A bucket of memory that was cleared. -/
def Bucket.cleared : Bucket A := { hhHead := none, count := 0, expandMult := 0 }

/-- The table that `HASH_MAKE_TABLE` sets up for its first element. -/
def Table.fresh (a : A) : Table A :=
  { buckets := List.replicate 32 .cleared, numBuckets := 32, log2NumBuckets := 5, numItems := 0,
    tail := some a, idealChainMaxlen := 0, nonidealItems := 0, ineffExpands := 0, noexpand := 0 }

/-- `HASH_MAKE_TABLE`. -/
def makeTable (grants : ℕ → Bool) (a : A) : C (Table A) :=
  if grants 32 then .ok (.fresh a) else .error .badAlloc

/-- `HASH_TO_BKT`. -/
def toBkt (hashv : UInt32) (numBkts : ℕ) : ℕ := hashv.toNat &&& u32 (numBkts + (2 ^ 32 - 1))

/-! ### `HASH_EXPAND_BUCKETS` -/

/-- What the loops of the expansion work on. -/
structure Expansion (A E : Type) where
  mem : Mem A E
  newBuckets : List (Bucket A)
  nonidealItems : ℕ

/-- `expand_mult` of a new bucket after one more element. -/
def newMult (ideal count mult : ℕ) : C ℕ :=
  if count > ideal then if ideal = 0 then .error .divByZero else .ok (count / ideal) else .ok mult

/-- One turn of the loop over a chain. -/
def moveBody (newN ideal : ℕ) (t : Expansion A E × Option A) :
    C (Iter (Expansion A E × Option A) (Expansion A E)) :=
  match t with
  | (x, none) => .ok (.done x)
  | (x, some thh) => do
    let nxt ← x.mem.read x.mem.hhNext thh
    let hashv ← x.mem.read x.mem.hashv thh
    let bkt := toBkt hashv newN
    let newbkt ← load x.newBuckets bkt
    let count := u32 (newbkt.count + 1)
    let nonideal := if count > ideal then u32 (x.nonidealItems + 1) else x.nonidealItems
    let mult ← newMult ideal count newbkt.expandMult
    let m ← relinkFront x.mem thh newbkt.hhHead
    let newBuckets ← store x.newBuckets bkt { hhHead := some thh, count := count, expandMult := mult }
    .ok (.next ({ mem := m, newBuckets := newBuckets, nonidealItems := nonideal }, nxt))

/-- One turn of the loop over the buckets. -/
def expandBody (t : Table A) (ideal : ℕ) (x : Expansion A E) (i : ℕ) : C (Expansion A E) := do
  let b ← load t.buckets i
  loop (moveBody (u32 (t.numBuckets * 2)) ideal) (t.numItems + 1) (x, b.hhHead)

/-- `HASH_EXPAND_BUCKETS`. -/
def expandBuckets (grants : ℕ → Bool) (s : State A E) : C (State A E) :=
  if grants (u32 (2 * s.tbl.numBuckets)) then do
    let t := s.tbl
    let share ← shr32 t.numItems (u32 (t.log2NumBuckets + 1))
    let ideal := u32 (share +
      if t.numItems &&& u32 (u32 (t.numBuckets * 2) + (2 ^ 32 - 1)) ≠ 0 then 1 else 0)
    let x ← (List.range t.numBuckets).foldlM (expandBody t ideal)
      { mem := s.mem, newBuckets := List.replicate (u32 (2 * t.numBuckets)) .cleared, nonidealItems := 0 }
    let ineff := if x.nonidealItems > t.numItems >>> 1 then u32 (t.ineffExpands + 1) else 0
    .ok { s with
      mem := x.mem
      tbl := { t with
        buckets := x.newBuckets, numBuckets := u32 (t.numBuckets * 2),
        log2NumBuckets := u32 (t.log2NumBuckets + 1), idealChainMaxlen := ideal,
        nonidealItems := x.nonidealItems, ineffExpands := ineff,
        noexpand := if ineff > 1 then 1 else t.noexpand } }
  else .error .badAlloc

/-! ### `HASH_ADD` -/

/-- `HASH_BKT_CAPACITY_THRESH`. -/
def bktCapacityThresh : ℕ := 10

/-- `HASH_ADD_TO_BKT`, for bucket `bkt`. -/
def addToBkt (grants : ℕ → Bool) (s : State A E) (bkt : ℕ) (a : A) : C (State A E) := do
  let b ← load s.tbl.buckets bkt
  let count := u32 (b.count + 1)
  let m ← linkFront s.mem a b.hhHead
  let buckets ← store s.tbl.buckets bkt { b with hhHead := some a, count := count }
  let s := { s with mem := m, tbl := { s.tbl with buckets := buckets } }
  if count ≥ u32 (u32 (b.expandMult + 1) * bktCapacityThresh) ∧ s.tbl.noexpand ≠ 1 then
    expandBuckets grants s
  else .ok s

/-- The links of `HASH_ADD_KEYPTR`: the element becomes the last in the order of additions. -/
def linkLast (grants : ℕ → Bool) (s : State A E) (a : A) : C (State A E) := do
  let m ← s.mem.setNext a none
  match s.head with
  | none => do
    let m ← m.setPrev a none
    let tbl ← makeTable grants a
    .ok { mem := m, head := some a, tbl := tbl }
  | some _ =>
    match s.tbl.tail with
    | none => .error .nullDeref
    | some tail => do
      let m ← m.setNext tail (some a)
      let m ← m.setPrev a (some tail)
      .ok { s with mem := m, tbl := { s.tbl with tail := some a } }

/-- `HASH_ADD` of an element that holds its key. -/
def hashAdd (hash : K → UInt32) (key : E → K) (grants : ℕ → Bool) (s : State A E) (a : A) :
    C (State A E) := do
  let s ← linkLast grants s a
  let e ← s.mem.read s.mem.entry a
  let m ← s.mem.setHashv a (hash (key e))
  let s := { s with mem := m, tbl := { s.tbl with numItems := u32 (s.tbl.numItems + 1) } }
  addToBkt grants s (toBkt (hash (key e)) s.tbl.numBuckets) a

/-! ### `HASH_FIND` -/

/-- One turn of `HASH_FIND_IN_BKT`. -/
def findBody [DecidableEq K] (key : E → K) (m : Mem A E) (k : K) (out : Option A) :
    C (Iter (Option A) (Option A)) :=
  match out with
  | none => .ok (.done none)
  | some a => do
    let e ← m.read m.entry a
    if key e = k then .ok (.done (some a))
    else do
      let nxt ← m.read m.hhNext a
      .ok (.next nxt)

/-- `HASH_FIND`. -/
def hashFind [DecidableEq K] (hash : K → UInt32) (key : E → K) (s : State A E) (k : K) : C (Option A) :=
  match s.head with
  | none => .ok none
  | some _ => do
    let b ← load s.tbl.buckets (toBkt (hash k) s.tbl.numBuckets)
    loop (findBody key s.mem k) (s.tbl.numItems + 1) b.hhHead

/-! ### `HASH_DELETE` -/

/-- `HASH_DEL_IN_BKT`. -/
def delInBkt (s : State A E) (bkt : ℕ) (d : A) : C (State A E) := do
  let b ← load s.tbl.buckets bkt
  let nxt ← s.mem.read s.mem.hhNext d
  let hhHead := if b.hhHead = some d then nxt else b.hhHead
  let buckets ← store s.tbl.buckets bkt { b with hhHead := hhHead, count := u32 (b.count + (2 ^ 32 - 1)) }
  let prv ← s.mem.read s.mem.hhPrev d
  let m ← unlinkBkt s.mem prv nxt
  .ok { s with mem := m, tbl := { s.tbl with buckets := buckets } }

/-- `HASH_DELETE`. -/
def hashDelete (s : State A E) (d : A) : C (State A E) := do
  let prv ← s.mem.read s.mem.prev d
  let nxt ← s.mem.read s.mem.next d
  if prv = none ∧ nxt = none then .ok { s with head := none }
  else do
    let tail := if s.tbl.tail = some d then prv else s.tbl.tail
    let head := if prv = none then nxt else s.head
    let m ← unlinkApp s.mem prv nxt
    let hashv ← m.read m.hashv d
    let s := { mem := m, head := head, tbl := { s.tbl with tail := tail } }
    let s ← delInBkt s (toBkt hashv s.tbl.numBuckets) d
    .ok { s with tbl := { s.tbl with numItems := u32 (s.tbl.numItems + (2 ^ 32 - 1)) } }

/-! ### `HASH_FSCK` -/

/-- One turn of a loop of `HASH_FSCK` along a list: `_prev`, `_thh` and the count. `oops` is the branch
    that ends the program. -/
def fsckBody (m : Mem A E) (prev next : A → Option A) (t : Option A × Option A × ℕ) :
    C (Iter (Option A × Option A × ℕ) (Option ℕ)) :=
  match t with
  | (_, none, count) => .ok (.done (some count))
  | (last, some thh, count) => do
    let p ← m.read prev thh
    if last ≠ p then .ok (.done none)
    else do
      let nxt ← m.read next thh
      .ok (.next (some thh, nxt, u32 (count + 1)))

/-- One turn of the loop over the buckets: the count so far, or none after an `oops`. -/
def fsckBucket (s : State A E) (acc : Option ℕ) (i : ℕ) : C (Option ℕ) :=
  match acc with
  | none => .ok none
  | some count => do
    let b ← load s.tbl.buckets i
    let found ← loop (fsckBody s.mem s.mem.hhPrev s.mem.hhNext) (s.tbl.numItems + 1) (none, b.hhHead, 0)
    .ok (match found with
      | none => none
      | some n => if b.count ≠ n then none else some (u32 (count + n)))

/-- `HASH_FSCK`: whether the checks pass. -/
def hashFsck (s : State A E) : C Bool :=
  match s.head with
  | none => .ok true
  | some _ => do
    let inBuckets ← (List.range s.tbl.numBuckets).foldlM (fsckBucket s) (some 0)
    let inOrder ← loop (fsckBody s.mem s.mem.prev s.mem.next) (s.tbl.numItems + 1) (none, s.head, 0)
    .ok (inBuckets = some s.tbl.numItems ∧ inOrder = some s.tbl.numItems)

/-! ### `HASH_ITER` -/

/-- `(p != NULL) ? p->hh.next : NULL`. -/
def nextOf (m : Mem A E) (p : Option A) : C (Option A) :=
  match p with
  | none => .ok none
  | some a => m.read m.next a

/-- One turn of `HASH_ITER` with its body: `el` and `tmp` before it, and what the body carries. -/
def iterBody {σ : Type} (mem : σ → Mem A E) (body : σ → A → C σ) (t : σ × Option A × Option A) :
    C (Iter (σ × Option A × Option A) σ) :=
  match t with
  | (s, none, _) => .ok (.done s)
  | (s, some el, tmp) => do
    let s ← body s el
    let nxt ← nextOf (mem s) tmp
    .ok (.next (s, tmp, nxt))

/-- `HASH_ITER`. -/
def hashIter {σ : Type} (mem : σ → Mem A E) (body : σ → A → C σ) (fuel : ℕ) (s : σ) (head : Option A) :
    C σ := do
  let tmp ← nextOf (mem s) head
  loop (iterBody mem body) fuel (s, head, tmp)

end Diversity.Uthash
