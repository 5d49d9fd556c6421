import Uvx.Common.Block

/-!
# Growing byte buffers: `automem.c`

The fields of `automem_t` are 32-bit numbers and wrap around. A function fails when it dereferences a
null pointer, accesses memory outside the allocation, or never ends. Allocations succeed, and new
memory holds whatever `fresh` says. The bytes that a function is given do not lie in the buffer itself,
whose memory may move and be freed before they are read.
-/

namespace Uvx.Automem

inductive Fault
  | nullPointer
  | outOfBounds
  | endless
deriving DecidableEq

/-- `automem_t`; `pdata` is the allocation it points to, or null. -/
structure AutomemT where
  size : UInt32
  buffersize : UInt32
  pdata : Option (List UInt8)
deriving DecidableEq

/-- The `len` bytes behind a pointer. -/
def bytesAt (p : ℕ → UInt8) (len : UInt32) : List UInt8 := (List.range len.toNat).map p

@[simp] theorem length_bytesAt (p : ℕ → UInt8) (len : UInt32) :
    (bytesAt p len).length = len.toNat := by
  rw [bytesAt, List.length_map, List.length_range]

/-- The allocation behind `pdata`. -/
def deref (pmem : AutomemT) : Except Fault (List UInt8) :=
  match pmem.pdata with
  | some b => .ok b
  | none => .error .nullPointer

/-- An access that must lie inside the allocation. -/
def inside {α : Type} : Option α → Except Fault α
  | some a => .ok a
  | none => .error .outOfBounds

/-- `automem_init` -/
def automemInit (fresh : ℕ → UInt8) (initBufferSize : UInt32) : AutomemT :=
  let buffersize := if initBufferSize = 0 then 128 else initBufferSize
  { size := 0, buffersize := buffersize, pdata := some (Block.malloc fresh buffersize.toNat) }

/-- `automem_uninit` -/
def automemUninit (pmem : AutomemT) : AutomemT :=
  if pmem.pdata.isSome then { size := 0, buffersize := 0, pdata := none } else pmem

/-- `automem_clean`, in which `automem_init` sets every field anew. -/
def automemClean (fresh : ℕ → UInt8) (pmem : AutomemT) : AutomemT :=
  let _ := automemUninit pmem
  automemInit fresh 128

/-- `automem_reset` -/
def automemReset (pmem : AutomemT) : AutomemT := { pmem with size := 0 }

/-- The loop of `automem_ensure_newspace`, in at most `fuel` rounds. -/
def growLoop (size len : UInt32) : ℕ → UInt32 → Option UInt32
  | 0, _ => none
  | fuel + 1, newbuffersize =>
    if newbuffersize - size < len then growLoop size len fuel (newbuffersize * 2)
    else some newbuffersize

/-- After 32 doublings `newbuffersize` is 0 for good, so a loop that has not ended in the round after
these never does (`growLoop_endless`). -/
def growRounds : ℕ := 33

/-- `automem_ensure_newspace` -/
def automemEnsureNewspace (fresh : ℕ → UInt8) (pmem : AutomemT) (len : UInt32) :
    Except Fault AutomemT :=
  match growLoop pmem.size len growRounds pmem.buffersize with
  | none => .error .endless
  | some newbuffersize =>
    if pmem.buffersize < newbuffersize then
      .ok { pmem with
        pdata := some (Block.realloc fresh (pmem.pdata.getD []) newbuffersize.toNat)
        buffersize := newbuffersize }
    else .ok pmem

/-- `automem_attach` -/
def automemAttach (fresh : ℕ → UInt8) (pmem : AutomemT) (pdata : ℕ → UInt8) (len : UInt32) :
    Except Fault AutomemT := do
  let pmem ← if pmem.buffersize < len then
      automemEnsureNewspace fresh pmem (len - pmem.buffersize) else pure pmem
  let pmem := { pmem with size := len }
  let b ← deref pmem
  let b ← inside (Block.write? b 0 (bytesAt pdata len))
  pure { pmem with pdata := some b }

/-- `automem_append_voidp` -/
def automemAppendVoidp (fresh : ℕ → UInt8) (pmem : AutomemT) (p : ℕ → UInt8) (len : UInt32) :
    Except Fault (AutomemT × Int32) := do
  let pmem ← automemEnsureNewspace fresh pmem len
  let b ← deref pmem
  let b ← inside (Block.write? b pmem.size.toNat (bytesAt p len))
  pure ({ pmem with pdata := some b, size := pmem.size + len }, len.toInt32)

/-- `memmove(pdata, pdata + size, n)` -/
def moveDown (pmem : AutomemT) (size n : UInt32) : Except Fault AutomemT := do
  let b ← deref pmem
  let moved ← inside (Block.read? b size.toNat n.toNat)
  let b ← inside (Block.write? b 0 moved)
  pure { pmem with pdata := some b }

/-- `automem_erase` -/
def automemErase (pmem : AutomemT) (size : UInt32) : Except Fault (AutomemT × Int32) := do
  if size < pmem.size then
    let pmem ← moveDown pmem size (pmem.size - size)
    let pmem := { pmem with size := pmem.size - size }
    pure (pmem, pmem.size.toInt32)
  else
    let pmem := { pmem with size := 0 }
    pure (pmem, pmem.size.toInt32)

/-- `automem_erase_ex` -/
def automemEraseEx (fresh : ℕ → UInt8) (pmem : AutomemT) (size limit : UInt32) :
    Except Fault (AutomemT × Int32) := do
  if size < pmem.size then
    let newsize := pmem.size - size
    if newsize + limit < pmem.buffersize then
      let buffer := Block.malloc fresh (newsize + limit).toNat
      let b ← deref pmem
      let kept ← inside (Block.read? b size.toNat newsize.toNat)
      let buffer ← inside (Block.write? buffer 0 kept)
      pure ({ size := newsize, buffersize := newsize + limit, pdata := some buffer },
        newsize.toInt32)
    else
      let pmem ← moveDown pmem size newsize
      pure ({ pmem with size := newsize }, newsize.toInt32)
  else
    let pmem := { pmem with size := 0 }
    let pmem := if limit < pmem.buffersize then automemInit fresh limit else pmem
    pure (pmem, pmem.size.toInt32)

/-- The bytes of a number, least significant first. -/
def littleEndian (x : ℕ) (j : ℕ) : UInt8 := .ofNat (x / 256 ^ j)

/-- `automem_append_int` -/
def automemAppendInt (fresh : ℕ → UInt8) (pmem : AutomemT) (n : Int32) :
    Except Fault (AutomemT × Int32) :=
  automemAppendVoidp fresh pmem (littleEndian n.toUInt32.toNat) 4

/-- `automem_append_pchar`, which appends the pointer itself. -/
def automemAppendPchar (fresh : ℕ → UInt8) (pmem : AutomemT) (n : UInt64) :
    Except Fault (AutomemT × Int32) :=
  automemAppendVoidp fresh pmem (littleEndian n.toNat) 8

/-- `automem_append_char` -/
def automemAppendChar (fresh : ℕ → UInt8) (pmem : AutomemT) (c : Int8) :
    Except Fault (AutomemT × Int32) :=
  automemAppendVoidp fresh pmem (fun _ => c.toUInt8) 1

/-- `automem_append_byte` -/
def automemAppendByte (fresh : ℕ → UInt8) (pmem : AutomemT) (c : UInt8) :
    Except Fault (AutomemT × Int32) :=
  automemAppendVoidp fresh pmem (fun _ => c) 1

end Uvx.Automem
