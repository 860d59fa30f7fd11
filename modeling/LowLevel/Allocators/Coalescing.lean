import LowLevel.Allocators.Client

/-! # The coalescing allocator

Blocks carry their size at both ends, so that a block that is given back finds
the headers of both neighbours. A request walks the blocks from the start of the
region. Zero is the null pointer.
-/

namespace LowLevel.Allocators.Coalescing

open Memory

def allocInit (a : Allocator) (size : ℕ) (mmap : ℕ) : ℕ × Allocator := a.init size mmap

def allocDeinit (a : Allocator) : ℕ × Allocator := a.deinit

def allocReset (a : Allocator) : ℕ × Allocator := a.reset

/-- Walk the blocks until one is usable or the last one is passed; tells which, and where. -/
def search (m : Memory) (last size : ℕ) : ℕ → ℕ → Option (Bool × ℕ)
  | 0, _ => none
  | fuel + 1, current =>
    if current < last then
      let header := parseHeader m (current + 16)
      if header.allocated = 0 ∧ size ≤ header.blockSize then some (true, current)
      else search m last size fuel (current + 16 + (header.blockSize + 8))
    else some (false, current)

def append (m : Memory) (current size : ℕ) : Memory :=
  let m := m.write64 current size
  let m := m.write64 (current + 8) 1
  m.write64 ((current + 16 + size) % 2 ^ 64) size

/-- Hand out a free block, cut to size if the remainder can be a block of its own. -/
def take (m : Memory) (current size : ℕ) : Memory :=
  let oldSize := m.read64 current
  if (size + 24 + ALIGN) % 2 ^ 64 ≤ oldSize then
    let newSize := oldSize - size - 24
    let m := m.write64 current size
    let m := m.write64 (current + 8) 1
    let m := m.write64 (current + 16 + size) size
    let m := m.write64 (current + 16 + size + 8) newSize
    let m := m.write64 (current + 16 + size + 16) 0
    m.write64 (current + 16 + size + 24 + newSize) newSize
  else m.write64 (current + 8) 1

def allocMalloc (a : Allocator) (m : Memory) (size : ℕ) : Option (ℕ × Allocator × Memory) :=
  let size := roundUp size
  (search m a.lastPtr size (2 ^ 64) a.startPtr).map fun (found, current) =>
    if found = false ∧ (a.startPtr + a.size) % 2 ^ 64 < (current + size + 24) % 2 ^ 64 then
      (0, a, m)
    else if found = false then
      (current + 16, { a with lastPtr := (current + 16 + size + 8) % 2 ^ 64 },
        append m current size)
    else (current + 16, a, take m current size)

def coalesceForward (a : Allocator) (m : Memory) (ptr size : ℕ) : ℕ :=
  let nextHdr := ptr + size + 8
  if nextHdr < a.lastPtr ∧ m.read64 (nextHdr + 8) = 0 then size + (m.read64 nextHdr + 24) else size

/-- The header and the size of a block with the free one that precedes. -/
def coalesceBackward (a : Allocator) (m : Memory) (ptr size : ℕ) : ℕ × ℕ :=
  if a.startPtr < ptr - 16 then
    let prevSize := m.read64 (ptr - 24)
    let prevHdr := ptr - 40 - prevSize
    if m.read64 (prevHdr + 8) = 0 then (prevHdr, size + (prevSize + 24)) else (ptr - 16, size)
  else (ptr - 16, size)

def mergeTags (m : Memory) (hdr size : ℕ) : Memory :=
  let m := m.write64 hdr size
  let m := m.write64 (hdr + 8) 0
  m.write64 (hdr + 16 + size) size

def allocFree (a : Allocator) (m : Memory) (ptr : ℕ) : ℕ × Memory :=
  if ptr < a.startPtr + 16 ∨ a.lastPtr ≤ ptr then (1, m)
  else
    let header := parseHeader m ptr
    if header.allocated = 0 then (1, m)
    else
      let size := coalesceForward a m ptr header.blockSize
      let (hdr, size) := coalesceBackward a m ptr size
      (0, mergeTags m hdr size)

def interface : Interface (Allocator × Memory) where
  malloc size h := allocMalloc h.1 h.2 size
  free ptr h :=
    let r := allocFree h.1 h.2 ptr
    some (r.1, h.1, r.2)
  reset h :=
    let r := allocReset h.1
    (r.1, r.2, h.2)
  poke x v h := (h.1, h.2.poke x v)
  blockSize ptr h := (parseHeader h.2 ptr).blockSize

end LowLevel.Allocators.Coalescing
