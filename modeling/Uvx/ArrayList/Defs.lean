import Uvx.Common.Block

/-!
# The growing array of pointers: `arraylist.c`

A null pointer is `none`, and `freed` lists the calls of `free_fn` with their arguments. An `int`
wraps around. The allocator may refuse a request, and refuses every negative one, which is huge as a
`size_t`.
-/

namespace Uvx.ArrayList

inductive Fault
  | nullPointer
  | outOfBounds
deriving DecidableEq

/-- The allocator during a call: which numbers of cells it grants, and what new cells hold. -/
structure Allocator (α : Type) where
  grants : ℕ → Bool
  fresh : ℕ → Option α

/-- `struct array_list` -/
structure ArrayListT (α : Type) where
  array : List (Option α)
  length : Int32
  size : Int32
  /-- Whether `free_fn` is not null. -/
  freeFn : Bool
  freed : List (Option α)
deriving DecidableEq

variable {α : Type}

/-- `ARRAY_LIST_DEFAULT_SIZE` -/
def arrayListDefaultSize : Int32 := 32

/-- `arr->array[i]` -/
def cell (arr : ArrayListT α) (i : Int32) : Except Fault (Option α) :=
  if i < 0 then throw .outOfBounds
  else match arr.array[i.toInt.toNat]? with
    | some p => pure p
    | none => throw .outOfBounds

/-- `arr->array[i] = p` -/
def setCell (arr : ArrayListT α) (i : Int32) (p : Option α) : Except Fault (ArrayListT α) :=
  if 0 ≤ i ∧ i.toInt.toNat < arr.array.length then
    pure { arr with array := arr.array.set i.toInt.toNat p }
  else throw .outOfBounds

/-- `arr->free_fn(p)` -/
def callFree (arr : ArrayListT α) (p : Option α) : Except Fault (ArrayListT α) :=
  if arr.freeFn then pure { arr with freed := arr.freed ++ [p] } else throw .nullPointer

/-- `if(p) arr->free_fn(p)` -/
def freeOld (arr : ArrayListT α) (p : Option α) : Except Fault (ArrayListT α) :=
  if p.isSome then callFree arr p else pure arr

/-- `realloc(arr->array, n*sizeof(void*))` -/
def realloc (m : Allocator α) (arr : ArrayListT α) (n : Int32) : Option (List (Option α)) :=
  if 0 ≤ n ∧ m.grants n.toInt.toNat then some (Block.realloc m.fresh arr.array n.toInt.toNat)
  else none

/-- `memset(arr->array + i, 0, n*sizeof(void*))` -/
def zero (arr : ArrayListT α) (i n : Int32) : Except Fault (ArrayListT α) :=
  if i < 0 ∨ n < 0 then throw .outOfBounds
  else match Block.write? arr.array i.toInt.toNat (List.replicate n.toInt.toNat none) with
    | some array => pure { arr with array := array }
    | none => throw .outOfBounds

/-- `array_list_new`, which also allocates the structure itself. -/
def arrayListNew (grantsStruct : Bool) (m : Allocator α) (freeFn : Bool) : Option (ArrayListT α) :=
  if ¬ grantsStruct then none
  else if m.grants arrayListDefaultSize.toInt.toNat then
    some
      { array := List.replicate arrayListDefaultSize.toInt.toNat none
        length := 0
        size := arrayListDefaultSize
        freeFn := freeFn
        freed := [] }
  else none

/-- A turn of the loop of `array_list_free`. -/
def freeCell (arr : ArrayListT α) (i : ℕ) : Except Fault (ArrayListT α) := do
  let p ← cell arr (.ofNat i)
  if p.isSome ∧ arr.freeFn then callFree arr p else pure arr

/-- `array_list_free`: what `free_fn` has been called with in the end. -/
def arrayListFree (arr : ArrayListT α) : Except Fault (List (Option α)) := do
  let arr ← (List.range arr.length.toInt.toNat).foldlM freeCell arr
  pure arr.freed

/-- `array_list_get_idx` -/
def arrayListGetIdx (arr : ArrayListT α) (i : Int32) : Except Fault (Option α) :=
  if arr.length ≤ i then pure none else cell arr i

/-- `array_list_expand_internal` -/
def arrayListExpandInternal (m : Allocator α) (arr : ArrayListT α) (mx : Int32) :
    Except Fault (ArrayListT α × Int32) := do
  if mx < arr.size then
    return (arr, 0)
  let newSize := if arr.size <<< 1 > mx then arr.size <<< 1 else mx
  match realloc m arr newSize with
  | none => pure (arr, -1)
  | some t =>
    let arr ← zero { arr with array := t } arr.size (newSize - arr.size)
    pure ({ arr with size := newSize }, 0)

/-- `array_list_put_idx` -/
def arrayListPutIdx (m : Allocator α) (arr : ArrayListT α) (idx : Int32) (data : Option α) :
    Except Fault (ArrayListT α × Int32) := do
  let (arr, r) ← arrayListExpandInternal m arr idx
  if r ≠ 0 then
    return (arr, -1)
  let p ← cell arr idx
  let arr ← freeOld arr p
  let arr ← setCell arr idx data
  pure (if arr.length ≤ idx then { arr with length := idx + 1 } else arr, 0)

/-- `array_list_add` -/
def arrayListAdd (m : Allocator α) (arr : ArrayListT α) (data : Option α) :
    Except Fault (ArrayListT α × Int32) :=
  arrayListPutIdx m arr arr.length data

/-- `array_list_length` -/
def arrayListLength (arr : ArrayListT α) : Int32 := arr.length

/-- `check_and_free_array_memary` -/
def checkAndFreeArrayMemary (m : Allocator α) (arr : ArrayListT α) :
    Except Fault (ArrayListT α) := do
  if arr.size ≤ arrayListDefaultSize ∨ arr.size = arr.length then
    return arr
  let newSize := arr.size >>> 1
  if newSize ≤ arr.length then
    return arr
  match realloc m arr newSize with
  | none => pure arr
  | some t =>
    let arr ← zero { arr with array := t } arr.length (newSize - arr.length)
    pure { arr with size := newSize }

/-- `arr->array[i] = arr->array[i+1]` -/
def moveCell (arr : ArrayListT α) (i : ℕ) : Except Fault (ArrayListT α) := do
  let p ← cell arr (.ofNat (i + 1))
  setCell arr (.ofNat i) p

/-- The loop of `array_list_del_idx`. -/
def moveDown (arr : ArrayListT α) (idx : Int32) : Except Fault (ArrayListT α) :=
  (List.range' idx.toInt.toNat (arr.length - idx).toInt.toNat).foldlM moveCell arr

/-- `array_list_del_idx` -/
def arrayListDelIdx (m : Allocator α) (arr : ArrayListT α) (idx : Int32) :
    Except Fault (ArrayListT α × Int32) := do
  if arr.length ≤ idx ∨ idx < 0 then
    return (arr, 0)
  let p ← cell arr idx
  let arr ← callFree arr p
  let arr := { arr with length := arr.length - 1 }
  let arr ← moveDown arr idx
  let arr ← setCell arr arr.length none
  let arr ← checkAndFreeArrayMemary m arr
  pure (arr, 1)

end Uvx.ArrayList
