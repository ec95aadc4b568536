import Diversity.Schemes.Machine

/-! @src hash_table/khash.h | name:khash | scheme:probing | family:data-structure

    A hash map by open addressing. Two bits for each bucket, sixteen buckets in a word, say whether it
    was never used, deleted or holds an entry; keys and values stand in arrays of their own.

        n_buckets   a power of two, at least 4, or 0 before the first put
        size        entries
        n_occupied  buckets that are not empty: entries and deleted ones
        upper_bound n_buckets * 0.77, rounded; a put that finds it reached resizes first

    `kh_resize` rehashes in place: an entry that is moved to a bucket whose own entry has not been moved
    yet kicks this one out and goes on with it. `khint_t` arithmetic is modulo 2^32. The model is the map
    (`kh_is_map` is 1) with any key type, any hash function and any values. -/

namespace Diversity.Khash
open Schemes

variable {K V : Type}

/-- `khint_t`. -/
def khint (x : ℕ) : ℕ := x % 2 ^ 32

/-- `x - 1`, `--x`. -/
def pred (x : ℕ) : ℕ := khint (x + (2 ^ 32 - 1))

/-! ### Flags -/

abbrev Word := BitVec 32

/-- `(flag[i>>4]>>((i&0xfU)<<1))&m`. -/
def acBits (flag : List Word) (i : ℕ) (m : Word) : C Word := do
  let w ← load flag (i >>> 4 : ℕ)
  .ok ((w >>> ((i &&& 0xf) <<< 1)) &&& m)

/-- `__ac_isempty`, as a condition. -/
def acIsEmpty (flag : List Word) (i : ℕ) : C Bool := do
  let w ← acBits flag i 2
  .ok (w != 0)

/-- `__ac_isdel`, as a condition. -/
def acIsDel (flag : List Word) (i : ℕ) : C Bool := do
  let w ← acBits flag i 1
  .ok (w != 0)

/-- `__ac_iseither`, as a condition. -/
def acIsEither (flag : List Word) (i : ℕ) : C Bool := do
  let w ← acBits flag i 3
  .ok (w != 0)

/-- `flag[i>>4]&=~(m<<((i&0xfU)<<1))`. -/
def acClear (flag : List Word) (i : ℕ) (m : Word) : C (List Word) := do
  let w ← load flag (i >>> 4 : ℕ)
  store flag (i >>> 4 : ℕ) (w &&& ~~~(m <<< ((i &&& 0xf) <<< 1)))

/-- `__ac_set_isempty_false`. -/
def acSetIsEmptyFalse (flag : List Word) (i : ℕ) : C (List Word) := acClear flag i 2

/-- `__ac_set_isboth_false`. -/
def acSetIsBothFalse (flag : List Word) (i : ℕ) : C (List Word) := acClear flag i 3

/-- `__ac_set_isdel_true`. -/
def acSetIsDelTrue (flag : List Word) (i : ℕ) : C (List Word) := do
  let w ← load flag (i >>> 4 : ℕ)
  store flag (i >>> 4 : ℕ) (w ||| ((1 : Word) <<< ((i &&& 0xf) <<< 1)))

/-- `__ac_fsize`. -/
def acFsize (m : ℕ) : ℕ := if m < 16 then 1 else m >>> 4

/-- `memset(flags, 0xaa, __ac_fsize(m) * sizeof(khint32_t))`. -/
def acFresh (m : ℕ) : List Word := List.replicate (acFsize m) 0xaaaaaaaa

/-! ### Sizes -/

/-- `(x)|=(x)>>w`. -/
def smear (x w : ℕ) : ℕ := x ||| (x >>> w)

/-- `kroundup32`. -/
def kroundup32 (x : ℕ) : ℕ := khint ([1, 2, 4, 8, 16].foldl smear (pred x) + 1)

/-- `(khint_t)(n * __ac_HASH_UPPER + 0.5)`. The product and the sum are taken in double precision; for
    the powers of two that reach it neither is off by enough to pass an integer, as `n * 0.77 + 0.5` is
    at least 0.01 away from one. -/
def acHashUpper (n : ℕ) : ℕ := (77 * n + 50) / 100

/-! ### The table -/

/-- `kh_##name##_t`. A null pointer is an empty array. -/
structure Kh (K V : Type) where
  nBuckets : ℕ
  size : ℕ
  nOccupied : ℕ
  upperBound : ℕ
  flags : List Word
  keys : List K
  vals : List V

/-- What the allocator does in one call of `kh_resize`: whether each request is granted, in their order
    in the source, and what memory that was not written to holds. -/
structure Alloc (K V : Type) where
  flags : Bool
  keys : Bool
  vals : Bool
  shrinkKeys : Bool
  shrinkVals : Bool
  keyMem : ℕ → K
  valMem : ℕ → V

/-- `krealloc` that is granted: the old cells as far as there is room, then new ones. -/
def krealloc {α : Type} (mem : ℕ → α) (a : List α) (n : ℕ) : List α :=
  a.take n ++ (List.range (n - a.length)).map mem

/-- `kh_init`: `kcalloc` clears the struct. -/
def khInit : Kh K V :=
  { nBuckets := 0, size := 0, nOccupied := 0, upperBound := 0, flags := [], keys := [], vals := [] }

/-- `kh_clear`. -/
def khClear (h : Kh K V) : Kh K V :=
  if h.flags = [] then h else { h with flags := acFresh h.nBuckets, size := 0, nOccupied := 0 }

variable [DecidableEq K] (hash : K → UInt32)

/-- The condition of the search loops: the bucket is in use, and not with this key. -/
def khProbing (h : Kh K V) (key : K) (i : ℕ) : C Bool := do
  let isEmpty ← acIsEmpty h.flags i
  if isEmpty then .ok false
  else do
    let isDel ← acIsDel h.flags i
    if isDel then .ok true
    else do
      let k ← load h.keys i
      .ok (k ≠ key)

/-- `i = (i + (++step)) & mask`, for the step before it. -/
def khNext (mask i step : ℕ) : ℕ := khint (i + khint (step + 1)) &&& mask

/-- One turn of the loop of `kh_get`, with the `return` behind it. -/
def khGetBody (h : Kh K V) (key : K) (last : ℕ) (t : ℕ × ℕ) : C (Iter (ℕ × ℕ) ℕ) := do
  let (i, step) := t
  let go ← khProbing h key i
  if go then
    let i := khNext (pred h.nBuckets) i step
    if i = last then .ok (.done h.nBuckets) else .ok (.next (i, khint (step + 1)))
  else do
    let either ← acIsEither h.flags i
    .ok (.done (if either then h.nBuckets else i))

/-- `kh_get`: the bucket of the key, or `n_buckets`. -/
def khGet (h : Kh K V) (key : K) : C ℕ :=
  if h.nBuckets ≠ 0 then
    let i := (hash key).toNat &&& pred h.nBuckets
    loop (khGetBody h key i) (2 * h.nBuckets) (i, 0)
  else .ok 0

/-! ### `kh_resize` -/

/-- `while (!__ac_isempty(new_flags, i)) i = (i + (++step)) & new_mask;`, one turn. -/
def findEmptyBody (newFlags : List Word) (newMask : ℕ) (t : ℕ × ℕ) : C (Iter (ℕ × ℕ) ℕ) := do
  let (i, step) := t
  let isEmpty ← acIsEmpty newFlags i
  if isEmpty then .ok (.done i) else .ok (.next (khNext newMask i step, khint (step + 1)))

/-- The arrays that rehashing works on: the old flags, the new ones, keys and values. -/
structure Rehash (K V : Type) where
  flags : List Word
  newFlags : List Word
  keys : List K
  vals : List V

/-- `i < h->n_buckets && __ac_iseither(h->flags, i) == 0`. -/
def kicksOut (flags : List Word) (nBuckets i : ℕ) : C Bool :=
  if i < nBuckets then do
    let either ← acIsEither flags i
    .ok (!either)
  else .ok false

/-- One turn of the kick-out process, with the entry in hand. -/
def kickOutBody (nBuckets newN : ℕ) (t : Rehash K V × K × V) :
    C (Iter (Rehash K V × K × V) (Rehash K V)) := do
  let (r, key, val) := t
  let newMask := pred newN
  let i ← loop (findEmptyBody r.newFlags newMask) newN ((hash key).toNat &&& newMask, 0)
  let newFlags ← acSetIsEmptyFalse r.newFlags i
  let isOld ← kicksOut r.flags nBuckets i
  if isOld then
    let key' ← load r.keys i
    let keys ← store r.keys i key
    let val' ← load r.vals i
    let vals ← store r.vals i val
    let flags ← acSetIsDelTrue r.flags i
    .ok (.next ({ flags := flags, newFlags := newFlags, keys := keys, vals := vals }, key', val'))
  else do
    let keys ← store r.keys i key
    let vals ← store r.vals i val
    .ok (.done { r with newFlags := newFlags, keys := keys, vals := vals })

/-- One turn of the loop over the old buckets. -/
def rehashBody (nBuckets newN : ℕ) (r : Rehash K V) (j : ℕ) : C (Rehash K V) := do
  let either ← acIsEither r.flags j
  if either then .ok r
  else do
    let key ← load r.keys j
    let val ← load r.vals j
    let flags ← acSetIsDelTrue r.flags j
    loop (kickOutBody hash nBuckets newN) (nBuckets + 1) ({ r with flags := flags }, key, val)

/-- The rehashing part of `kh_resize`, behind the allocations. -/
def khRehash (h : Kh K V) (newN : ℕ) (a : Alloc K V) : C (Kh K V) := do
  let r ← (List.range h.nBuckets).foldlM (rehashBody hash h.nBuckets newN)
    { flags := h.flags, newFlags := acFresh newN, keys := h.keys, vals := h.vals }
  let keys :=
    if h.nBuckets > newN then if a.shrinkKeys then krealloc a.keyMem r.keys newN else [] else r.keys
  let vals :=
    if h.nBuckets > newN then if a.shrinkVals then krealloc a.valMem r.vals newN else [] else r.vals
  .ok { nBuckets := newN, size := h.size, nOccupied := h.size, upperBound := acHashUpper newN,
        flags := r.newFlags, keys := keys, vals := vals }

/-- The size that `kh_resize` takes for a request. -/
def khTarget (request : ℕ) : ℕ := if kroundup32 request < 4 then 4 else kroundup32 request

/-- `kh_resize`, with the value it returns. -/
def khResize (h : Kh K V) (request : ℕ) (a : Alloc K V) : C (Kh K V × ℤ) :=
  let newN := khTarget request
  if h.size ≥ acHashUpper newN then .ok (h, 0)
  else if !a.flags then .ok (h, -1)
  else if h.nBuckets < newN then
    if !a.keys then .ok (h, -1)
    else
      let h := { h with keys := krealloc a.keyMem h.keys newN }
      if !a.vals then .ok (h, -1)
      else do
        let h ← khRehash hash { h with vals := krealloc a.valMem h.vals newN } newN a
        .ok (h, 0)
  else do
    let h ← khRehash hash h newN a
    .ok (h, 0)

/-! ### `kh_put` and `kh_del` -/

/-- The resizing at the head of `kh_put`. -/
def khMakeRoom (h : Kh K V) (a : Alloc K V) : C (Kh K V × ℤ) :=
  if h.nOccupied ≥ h.upperBound then
    if h.nBuckets > khint (h.size <<< 1) then khResize hash h (pred h.nBuckets) a
    else khResize hash h (khint (h.nBuckets + 1)) a
  else .ok (h, 0)

/-- One turn of the loop of `kh_put`, on `i`, `site` and `step`; it is left with `x`, `i` and `site`. -/
def khSiteBody (h : Kh K V) (key : K) (last : ℕ) (t : ℕ × ℕ × ℕ) : C (Iter (ℕ × ℕ × ℕ) (ℕ × ℕ × ℕ)) := do
  let (i, site, step) := t
  let go ← khProbing h key i
  if go then do
    let isDel ← acIsDel h.flags i
    let site := if isDel then i else site
    let i := khNext (pred h.nBuckets) i step
    if i = last then .ok (.done (site, i, site)) else .ok (.next (i, site, khint (step + 1)))
  else .ok (.done (h.nBuckets, i, site))

/-- The bucket that `kh_put` chooses. -/
def khSite (h : Kh K V) (key : K) : C ℕ := do
  let i := (hash key).toNat &&& pred h.nBuckets
  let isEmpty ← acIsEmpty h.flags i
  if isEmpty then .ok i
  else do
    let (x, i, site) ← loop (khSiteBody h key i) (2 * h.nBuckets) (i, h.nBuckets, 0)
    if x = h.nBuckets then do
      let isEmpty ← acIsEmpty h.flags i
      .ok (if isEmpty ∧ site ≠ h.nBuckets then site else i)
    else .ok x

/-- `kh_put`, with the bucket it returns and the value it leaves in `*ret`. -/
def khPut (h : Kh K V) (key : K) (a : Alloc K V) : C (Kh K V × ℕ × ℤ) := do
  let (h, resized) ← khMakeRoom hash h a
  if resized < 0 then .ok (h, h.nBuckets, -1)
  else do
    let x ← khSite hash h key
    let isEmpty ← acIsEmpty h.flags x
    if isEmpty then do
      let keys ← store h.keys x key
      let flags ← acSetIsBothFalse h.flags x
      .ok ({ h with keys := keys, flags := flags, size := khint (h.size + 1),
                    nOccupied := khint (h.nOccupied + 1) }, x, 1)
    else do
      let isDel ← acIsDel h.flags x
      if isDel then do
        let keys ← store h.keys x key
        let flags ← acSetIsBothFalse h.flags x
        .ok ({ h with keys := keys, flags := flags, size := khint (h.size + 1) }, x, 2)
      else .ok (h, x, 0)

/-- `kh_del`. -/
def khDel (h : Kh K V) (x : ℕ) : C (Kh K V) :=
  if x ≠ h.nBuckets then do
    let either ← acIsEither h.flags x
    if either then .ok h
    else do
      let flags ← acSetIsDelTrue h.flags x
      .ok { h with flags := flags, size := pred h.size }
  else .ok h

/-! ### The other macros -/

/-- `kh_val(h, x) = v`. -/
def khSetVal (h : Kh K V) (x : ℕ) (v : V) : C (Kh K V) := do
  let vals ← store h.vals x v
  .ok { h with vals := vals }

/-- One turn of `kh_foreach`, with the entries it has visited. -/
def khForeachBody (h : Kh K V) (seen : List (K × V)) (i : ℕ) : C (List (K × V)) := do
  let either ← acIsEither h.flags i
  if either then .ok seen
  else do
    let k ← load h.keys i
    let v ← load h.vals i
    .ok (seen ++ [(k, v)])

/-- `kh_foreach`: the entries in the order of the visits. -/
def khForeach (h : Kh K V) : C (List (K × V)) := (List.range h.nBuckets).foldlM (khForeachBody h) []

end Diversity.Khash
