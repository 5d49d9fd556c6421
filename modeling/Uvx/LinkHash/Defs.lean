import Mathlib.Data.Int.Init
import Mathlib.Logic.Function.Basic
import Uvx.Common.Probe

/-!
# The hash table with linked entries: `linkhash.c`

Keys and values are pointers. Pointers to entries are indices into the array `table` of their own
table, so that a table carries its links along when it takes over the array of another. The
statistics and the name are left out, and so is `free_fn`, which is null in the table of
`uvx_server_start`.
-/

namespace Uvx.LinkHash

/-- What stops the program inside a table routine. -/
inductive LhFault
  /-- `lh_abort` -/
  | abort
  | divByZero
  /-- A loop that never ends. -/
  | loops
  | nullPointer
  /-- Insertions nested deeper than an `int` can double. -/
  | depth
deriving DecidableEq

/-- `LH_EMPTY` -/
def lhEmpty : UInt64 := 0xffffffffffffffff

/-- `LH_FREED` -/
def lhFreed : UInt64 := 0xfffffffffffffffe

/-- `lh_ptr_hash` -/
def lhPtrHash (k : UInt64) : UInt64 := (k * 0x9e370001) >>> 4

/-- `lh_ptr_equal` -/
def lhPtrEqual (k1 k2 : UInt64) : Bool := k1 == k2

/-- `struct lh_entry` -/
structure LhEntry where
  k : UInt64
  v : UInt64
  next : Option ℕ
  prev : Option ℕ

/-- `struct lh_table` -/
structure LhTable where
  size : ℕ
  count : ℤ
  head : Option ℕ
  tail : Option ℕ
  table : ℕ → LhEntry
  hashFn : UInt64 → UInt64
  equalFn : UInt64 → UInt64 → Bool

namespace LhTable

/-- `t->table[n].k` -/
def key (t : LhTable) (n : ℕ) : UInt64 := (t.table n).k

/-- `t->table[n].v` -/
def value (t : LhTable) (n : ℕ) : UInt64 := (t.table n).v

def next (t : LhTable) (n : ℕ) : Option ℕ := (t.table n).next

def prev (t : LhTable) (n : ℕ) : Option ℕ := (t.table n).prev

def setEntry (t : LhTable) (n : ℕ) (e : LhEntry) : LhTable :=
  { t with table := Function.update t.table n e }

def setNext (t : LhTable) (n : ℕ) (p : Option ℕ) : LhTable :=
  t.setEntry n { t.table n with next := p }

def setPrev (t : LhTable) (n : ℕ) (p : Option ℕ) : LhTable :=
  t.setEntry n { t.table n with prev := p }

end LhTable

/-- `lh_table_new`. The size of the `calloc` is negative as an `int`, and huge, or it succeeds. -/
def lhTableNew (size : ℤ) (hashFn : UInt64 → UInt64) (equalFn : UInt64 → UInt64 → Bool) :
    Except LhFault LhTable :=
  if size < 0 then throw .abort
  else pure
    { size := size.toNat
      count := 0
      head := none
      tail := none
      table := fun _ => ⟨lhEmpty, 0, none, none⟩
      hashFn := hashFn
      equalFn := equalFn }

/-- `lh_kptr_table_new` -/
def lhKptrTableNew (size : ℤ) : Except LhFault LhTable :=
  lhTableNew size lhPtrHash lhPtrEqual

/-- `h % t->size` -/
def homeSlot (t : LhTable) (k : UInt64) : Except LhFault ℕ :=
  if t.size = 0 then throw .divByZero else pure ((t.hashFn k).toNat % t.size)

/-- `lh_table_lookup_entry`: at most `size` cells are visited, none of them behind an empty one. -/
def lhTableLookupEntry (t : LhTable) (k : UInt64) : Except LhFault (Option ℕ) := do
  let n ← homeSlot t k
  pure (Probe.scan t.size (fun n =>
    if t.key n = lhEmpty then some none
    else if t.key n ≠ lhFreed ∧ t.equalFn (t.key n) k then some (some n)
    else none) t.size n).join

/-- `lh_table_lookup`, where the null pointer is 0. -/
def lhTableLookup (t : LhTable) (k : UInt64) : Except LhFault UInt64 := do
  match ← lhTableLookupEntry t k with
  | some n => pure (t.table n).v
  | none => pure 0

/-- The branches of `lh_table_delete_entry` which take entry `n` out of the list. -/
def unlinkEntry (t : LhTable) (n : ℕ) : Except LhFault LhTable :=
  if t.tail = some n ∧ t.head = some n then pure { t with head := none, tail := none }
  else if t.head = some n then
    match t.next n with
    | some b => pure { t.setPrev b none with head := some b }
    | none => throw .nullPointer
  else if t.tail = some n then
    match t.prev n with
    | some a => pure { t.setNext a none with tail := some a }
    | none => throw .nullPointer
  else
    match t.prev n, t.next n with
    | some a, some b => pure ((t.setNext a (some b)).setPrev b (some a))
    | _, _ => throw .nullPointer

/-- `lh_table_delete_entry` of entry `n` of the table. -/
def lhTableDeleteEntry (t : LhTable) (n : ℕ) : Except LhFault (ℤ × LhTable) := do
  if t.key n = lhEmpty ∨ t.key n = lhFreed then
    return (-1, t)
  let t := { t with count := t.count - 1 }
  let t := t.setEntry n { t.table n with v := 0, k := lhFreed }
  let t ← unlinkEntry t n
  pure (0, t.setEntry n { t.table n with next := none, prev := none })

/-- `lh_table_delete` -/
def lhTableDelete (t : LhTable) (k : UInt64) : Except LhFault (ℤ × LhTable) := do
  match ← lhTableLookupEntry t k with
  | none => pure (-1, t)
  | some n => lhTableDeleteEntry t n

/-- The end of `lh_table_insert`: entry `n` goes behind the tail. -/
def linkEntry (t : LhTable) (n : ℕ) : Except LhFault LhTable :=
  match t.head, t.tail with
  | none, _ =>
    let t := { t with head := some n, tail := some n }
    pure ((t.setNext n none).setPrev n none)
  | some _, some m =>
    let t := (t.setNext m (some n)).setPrev n (some m)
    pure { t.setNext n none with tail := some n }
  | some _, none => throw .nullPointer

/-- `lh_table_insert` behind its load test. The probing stops at a vacant cell or at the key itself,
which is then deleted; when it has visited every cell it goes on for ever. -/
def lhTablePut (t : LhTable) (k v : UInt64) : Except LhFault LhTable := do
  let n ← homeSlot t k
  let stop := Probe.scan t.size (fun n =>
    if t.key n = lhEmpty ∨ t.key n = lhFreed then some (n, false)
    else if t.equalFn (t.key n) k then some (n, true)
    else none) t.size n
  match stop with
  | none => throw .loops
  | some (n, same) =>
    let t ← if same then Prod.snd <$> lhTableDeleteEntry t n else pure t
    let t := t.setEntry n { t.table n with k := k, v := v }
    linkEntry { t with count := t.count + 1 } n

section Resize

variable (insert : LhTable → UInt64 → UInt64 → Except LhFault LhTable)

/-- The loop of `lh_table_resize`, over the entries of `t` from `ent` on. -/
def reinsert (t : LhTable) : ℕ → Option ℕ → LhTable → Except LhFault LhTable
  | _, none, newT => pure newT
  | 0, some _, _ => throw .loops
  | fuel + 1, some n, newT => do
    let newT ← insert newT (t.table n).k (t.table n).v
    reinsert t fuel (t.next n) newT

/-- `lh_table_resize`. The list has at most `size` entries, or it is a cycle. -/
def lhTableResize (t : LhTable) (newSize : ℤ) : Except LhFault LhTable := do
  let newT ← lhTableNew newSize t.hashFn t.equalFn
  let newT ← reinsert insert t t.size t.head newT
  pure { t with
    table := newT.table
    size := newSize.toNat
    head := newT.head
    tail := newT.tail }

end Resize

/-- `lh_table_insert`, where the insertions made while resizing nest at most `depth` deep. The load
test compares with `t->size * 0.66`, here over the rationals; `t->size * 2` is passed as an `int`. -/
def insertDepth : ℕ → LhTable → UInt64 → UInt64 → Except LhFault LhTable
  | 0, _, _, _ => throw .depth
  | depth + 1, t, k, v => do
    let t ←
      if 66 * (t.size : ℤ) < 100 * t.count then
        lhTableResize (insertDepth depth) t (Int.bmod (t.size * 2) (2 ^ 32))
      else pure t
    lhTablePut t k v

/-- `lh_table_insert`. Each nested table is twice as large, so that the sizes leave `int` before the
depth is used up; tables in order nest once (`Holds.insert`). -/
def lhTableInsert (t : LhTable) (k v : UInt64) : Except LhFault LhTable :=
  insertDepth 32 t k v

/-- The keys met by `lh_foreach` from entry `ent` on, at most `size` of them. -/
def LhTable.walk (t : LhTable) : ℕ → Option ℕ → List UInt64
  | _, none => []
  | 0, some _ => []
  | fuel + 1, some n => t.key n :: t.walk fuel (t.next n)

/-- The keys of the list from `t->head` on. -/
def LhTable.keys (t : LhTable) : List UInt64 := t.walk t.size t.head

end Uvx.LinkHash
