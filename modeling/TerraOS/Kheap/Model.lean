import TerraOS.Utils

/-! kheap.c: the kernel heap, as the code computes it.

    The heap is a singly linked list of chunks kept inside the memory it manages. A chunk starts with a
    32-byte header (`sizeof(struct heapchunk_t)` under `aligned(16)`): `size` at offset 0, `inuse` at 8,
    `next` at 16. Pointers are 64-bit words and `NULL` is 0. Every field access through a `NULL` chunk
    pointer faults, and so does a list walk that never ends.

        chunk ──▶ ┌──────┬───────┬──────┬─────────────────────┐
                  │ size │ inuse │ next │ payload, size bytes │
                  └──────┴───────┴──────┴─────────────────────┘ -/

namespace TerraOS.Kheap
open Lib Lib.Word

/-- Why a heap call does not return. -/
inductive Fault where | nullDeref | diverge
  deriving DecidableEq, Repr

/-- `sizeof(struct heapchunk_t) + 4`. -/
abbrev MIN_CHUNK_SIZE : ℕ := 32 + 4

/-- The file's state: the memory, `heap.start`, `heap.avail` and the globals `heap_start`,
    `heap_end`. -/
structure Heap where
  mem : Mem
  start : ℕ
  avail : ℕ
  heapStart : ℕ
  heapEnd : ℕ

/-! ### Fields of `struct heapchunk_t` -/

def getSize (m : Mem) (c : ℕ) : Except Fault ℕ :=
  if c = 0 then .error .nullDeref else .ok (m.load64 c)

def getInuse (m : Mem) (c : ℕ) : Except Fault Bool :=
  if c = 0 then .error .nullDeref else .ok (m (c + 8) != 0)

def getNext (m : Mem) (c : ℕ) : Except Fault ℕ :=
  if c = 0 then .error .nullDeref else .ok (m.load64 (c + 16))

def setSize (m : Mem) (c v : ℕ) : Except Fault Mem :=
  if c = 0 then .error .nullDeref else .ok (m.store64 c v)

def setInuse (m : Mem) (c : ℕ) (b : Bool) : Except Fault Mem :=
  if c = 0 then .error .nullDeref else .ok (m.store8 (c + 8) (if b then 1 else 0))

def setNext (m : Mem) (c v : ℕ) : Except Fault Mem :=
  if c = 0 then .error .nullDeref else .ok (m.store64 (c + 16) v)

/-! ### The allocator -/

def heapInit (m : Mem) (heapStart heapEnd : ℕ) : Except Fault Heap := do
  let avail := sub64 heapEnd heapStart
  let m ← setSize m heapStart (sub64 avail 32)
  let m ← setInuse m heapStart false
  let m ← setNext m heapStart 0
  return { mem := m, start := heapStart, avail, heapStart, heapEnd }

/-- `(size + 15) & ~15`. -/
def align16 (size : ℕ) : ℕ := add64 size 15 &&& 0xFFFFFFFFFFFFFFF0

/-- More steps than there are addresses: a walk that takes them has come back to a chunk it already
    passed. -/
abbrev WALK : ℕ := 2 ^ 64

/-- The `while` loop of `kalloc`: the first free chunk of at least `size` bytes, or `NULL`. -/
def findChunk (m : Mem) (size : ℕ) : ℕ → ℕ → Except Fault ℕ
  | 0, _ => .error .diverge
  | fuel + 1, chunk =>
    if chunk = 0 then .ok 0
    else do
      let inuse ← getInuse m chunk
      let csize ← getSize m chunk
      if !inuse && decide (size ≤ csize) then .ok chunk
      else do
        let next ← getNext m chunk
        findChunk m size fuel next

/-- The split of `kalloc`, taken when the rest of the chunk leaves room for another. -/
def splitChunk (m : Mem) (chunk size leftover : ℕ) : Except Fault Mem := do
  let newChunk := add64 (add64 chunk 32) size
  let m ← setSize m newChunk (sub64 leftover 32)
  let m ← setInuse m newChunk false
  let next ← getNext m chunk
  let m ← setNext m newChunk next
  let m ← setNext m chunk newChunk
  setSize m chunk size

/-- The tail of `kalloc`: split the chunk found if it is too large, and mark it used. -/
def takeChunk (m : Mem) (chunk size : ℕ) : Except Fault Mem := do
  let csize ← getSize m chunk
  let leftover := sub64 csize size
  let m ← if leftover > MIN_CHUNK_SIZE then splitChunk m chunk size leftover else pure m
  setInuse m chunk true

def kalloc (h : Heap) (size : ℕ) : Except Fault (ℕ × Heap) := do
  let size := align16 size
  if size > h.avail then return (0, h)
  let chunk ← findChunk h.mem size WALK h.start
  if chunk = 0 then return (0, h)
  let m ← takeChunk h.mem chunk size
  return (add64 chunk 32, { h with mem := m })

/-- The merge of `coalesce_chunk`: the chunk takes over its successor. -/
def absorbNext (m : Mem) (chunk next : ℕ) : Except Fault Mem := do
  let csize ← getSize m chunk
  let nsize ← getSize m next
  let m ← setSize m chunk (add64 csize (add64 32 nsize))
  let nnext ← getNext m next
  setNext m chunk nnext

/-- The `while` loop of `coalesce_chunk`. -/
def coalesceLoop : ℕ → Mem → ℕ → Except Fault Mem
  | 0, _, _ => .error .diverge
  | fuel + 1, m, chunk =>
    if chunk = 0 then .ok m
    else do
      let next ← getNext m chunk
      if next = 0 then .ok m
      else do
        let u ← getInuse m chunk
        let v ← getInuse m next
        if !u && !v then do
          let m ← absorbNext m chunk next
          coalesceLoop fuel m chunk
        else coalesceLoop fuel m next

def coalesceChunk (h : Heap) : Except Fault Heap := do
  let m ← coalesceLoop WALK h.mem h.start
  return { h with mem := m }

def kfree (h : Heap) (ptr : ℕ) : Except Fault Heap := do
  if ptr = 0 then return h
  if ptr < h.heapStart ∨ h.heapEnd ≤ ptr then return h
  let chunk := sub64 ptr 32
  let inuse ← getInuse h.mem chunk
  if !inuse then return h
  let m ← setInuse h.mem chunk false
  coalesceChunk { h with mem := m }

/-- `extendChunkInPlace`; the returned pointer is `NULL` when the chunk stays as it is. -/
def extendChunkInPlace (h : Heap) (newSize oldChunk : ℕ) : Except Fault (ℕ × Heap) := do
  let m := h.mem
  let next ← getNext m oldChunk
  let nextInuse ← getInuse m next
  if nextInuse = false then
    let oldSize ← getSize m oldChunk
    let extra := sub64 newSize oldSize
    let nextSize ← getSize m next
    if nextSize ≥ add64 extra 32 then
      let split := add64 (add64 next 32) extra
      let nsize ← getSize m next
      let m ← setSize m split (sub64 (sub64 nsize extra) 32)
      let m ← setInuse m split false
      let nnext ← getNext m next
      let m ← setNext m split nnext
      let osize ← getSize m oldChunk
      let m ← setSize m oldChunk (add64 osize extra)
      let m ← setNext m oldChunk split
      return (add64 oldChunk 32, { h with mem := m })
  return (0, h)

/-- The relocating tail both branches of `krealloc` share: a new block, the copy, the old block
    freed. `copied` is the count handed to `memcpy`, computed from the old size and the new. -/
def relocate (h : Heap) (ptr oldChunk newSize : ℕ) (copied : ℕ → ℕ → ℕ) : Except Fault (ℕ × Heap) := do
  let (newPtr, h) ← kalloc h newSize
  if newPtr = 0 then return (0, h)
  let oldSize ← getSize h.mem oldChunk
  let m ← memcpy (flatBus Fault) h.mem newPtr ptr (copied oldSize newSize)
  let h ← kfree { h with mem := m } ptr
  return (newPtr, h)

/-- The split of `krealloc`: the tail of a block that shrinks becomes a free chunk. -/
def shrinkChunk (m : Mem) (oldChunk newSize leftover : ℕ) : Except Fault Mem := do
  let newChunk := add64 (add64 oldChunk 32) newSize
  let m ← setSize m newChunk (sub64 leftover 32)
  let m ← setInuse m newChunk false
  let next ← getNext m oldChunk
  let m ← setNext m newChunk next
  let osize ← getSize m oldChunk
  let m ← setSize m oldChunk (sub64 osize leftover)
  setNext m oldChunk newChunk

def krealloc (h : Heap) (ptr newSize : ℕ) : Except Fault (ℕ × Heap) := do
  let newSize := align16 newSize
  if ptr = 0 then kalloc h newSize
  else
    let oldChunk := sub64 ptr 32
    let oldSize ← getSize h.mem oldChunk
    if oldSize < newSize then
      let (ext, h) ← extendChunkInPlace h newSize oldChunk
      if ext ≠ 0 then return (ptr, h)
      relocate h ptr oldChunk newSize (fun old new => if old < new then old else new)
    else if oldSize > newSize then
      let leftover := sub64 oldSize newSize
      if leftover > MIN_CHUNK_SIZE then
        let m ← shrinkChunk h.mem oldChunk newSize leftover
        let h ← coalesceChunk { h with mem := m }
        return (add64 oldChunk 32, h)
      else if leftover < MIN_CHUNK_SIZE then
        relocate h ptr oldChunk newSize (fun old new => if old > new then new else old)
      else return (ptr, h)
    else return (ptr, h)

end TerraOS.Kheap
