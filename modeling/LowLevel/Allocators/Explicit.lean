import LowLevel.Allocators.Client

/-! # The allocator with an explicit free list

The blocks of the coalescing allocator, with the free ones linked in a circular
list through the first two words of their payloads. The head of the list is a
file-level variable, shared by all instances; it is part of the state beside
memory. Zero is the null pointer.
-/

namespace LowLevel.Allocators.Explicit

open Memory

structure State where
  mem : Memory
  head : ℕ := 0

/-- Map a region, given what `mmap` returns. -/
def allocInit (a : Allocator) (s : State) (size : ℕ) (mmap : ℕ) : ℕ × Allocator × State :=
  if a.startPtr ≠ 0 then (1, a, s)
  else if mmap = MAP_FAILED then (1, { a with startPtr := mmap }, s)
  else (0, ⟨mmap, mmap, size⟩, { s with mem := s.mem.write64 mmap 0 })

def allocReset (a : Allocator) (s : State) : ℕ × Allocator × State :=
  if a.startPtr = 0 then (1, a, s)
  else (0, { a with lastPtr := a.startPtr }, { s with head := 0 })

/-- Unmapping leaves the bytes of the region to nobody; the model keeps them. -/
def allocDeinit (a : Allocator) (s : State) : ℕ × Allocator × State :=
  if a.startPtr = 0 then (1, a, s) else (0, {}, { s with head := 0 })

def search (m : Memory) (head size : ℕ) : ℕ → ℕ → Option (Option ℕ)
  | 0, _ => none
  | fuel + 1, current =>
    if size ≤ m.read64 current then some (some current)
    else
      let current := m.read64 (current + 24)
      if current ≠ head then search m head size fuel current else some none

def unlink (s : State) (node prev next : ℕ) : State :=
  if next = node then { s with head := 0 }
  else
    let mem := s.mem.write64 (prev + 24) next
    let mem := mem.write64 (next + 16) prev
    ⟨mem, if s.head = node then next else s.head⟩

def splitTags (mem : Memory) (current size : ℕ) : Memory :=
  let originalSize := mem.read64 current
  let mem := mem.write64 current size
  let mem := mem.write64 (current + size + 16) size
  let otherChunk := current + size + 24
  let mem := mem.write64 (otherChunk + 8) 0
  let mem := mem.write64 otherChunk (originalSize - size - 24)
  mem.write64 (otherChunk + mem.read64 otherChunk + 16) (mem.read64 otherChunk)

def linkSelf (mem : Memory) (node : ℕ) : Memory :=
  (mem.write64 (node + 16) node).write64 (node + 24) node

def linkBetween (mem : Memory) (prev node next : ℕ) : Memory :=
  let mem := mem.write64 (node + 16) prev
  let mem := mem.write64 (node + 24) next
  let mem := mem.write64 (prev + 24) node
  mem.write64 (next + 16) node

def replace (s : State) (node prev next other : ℕ) : State where
  mem := if next = node then linkSelf s.mem other else linkBetween s.mem prev other next
  head := if s.head = node then other else s.head

def take (s : State) (current size : ℕ) : State :=
  let prev := s.mem.read64 (current + 16)
  let next := s.mem.read64 (current + 24)
  let mem := s.mem.write64 (current + 8) 1
  if (size + 40) % 2 ^ 64 ≤ mem.read64 current then
    replace ⟨splitTags mem current size, s.head⟩ current prev next (current + size + 24)
  else unlink ⟨mem, s.head⟩ current prev next

def append (a : Allocator) (s : State) (size : ℕ) : ℕ × Allocator × State :=
  if (a.startPtr + a.size) % 2 ^ 64 < (a.lastPtr + 24 + size) % 2 ^ 64 then (0, a, s)
  else
    let mem := s.mem.write64 (a.lastPtr + 8) 1
    let mem := mem.write64 a.lastPtr size
    let mem := mem.write64 ((a.lastPtr + 16 + size) % 2 ^ 64) size
    (a.lastPtr + 16, { a with lastPtr := (a.lastPtr + (size + 24)) % 2 ^ 64 }, { s with mem })

def allocMalloc (a : Allocator) (s : State) (size : ℕ) : Option (ℕ × Allocator × State) := do
  let size := roundUp size
  let found ← if s.head ≠ 0 then search s.mem s.head size (2 ^ 64) s.head else some none
  match found with
  | some current => some (current + 16, a, take s current size)
  | none => some (append a s size)

def coalesceFront (a : Allocator) (s : State) (ptr size : ℕ) : ℕ × State :=
  let nextHdr := ptr + size + 8
  if nextHdr < a.lastPtr ∧ s.mem.read64 (nextHdr + 8) = 0 then
    let s := unlink s nextHdr (s.mem.read64 (nextHdr + 16)) (s.mem.read64 (nextHdr + 24))
    (size + (s.mem.read64 nextHdr + 24), s)
  else (size, s)

/-- Merge into a free block that precedes; returns the header and the new size. -/
def coalesceBack (a : Allocator) (s : State) (ptr size : ℕ) : ℕ × ℕ × State :=
  if a.startPtr < ptr - 16 then
    let prevSize := s.mem.read64 (ptr - 24)
    let prevHdr := ptr - 40 - prevSize
    if s.mem.read64 (prevHdr + 8) = 0 then
      let s := unlink s prevHdr (s.mem.read64 (prevHdr + 16)) (s.mem.read64 (prevHdr + 24))
      (prevHdr, size + (prevSize + 24), s)
    else (ptr - 16, size, s)
  else (ptr - 16, size, s)

def mergeTags (mem : Memory) (hdr size : ℕ) : Memory :=
  let mem := mem.write64 (hdr + 8) 0
  let mem := mem.write64 hdr size
  mem.write64 (hdr + 16 + size) size

def push (s : State) (hdr : ℕ) : State where
  mem :=
    if s.head = 0 then linkSelf s.mem hdr
    else linkBetween s.mem (s.mem.read64 (s.head + 16)) hdr s.head
  head := hdr

def allocFree (a : Allocator) (s : State) (ptr : ℕ) : ℕ × State :=
  if ptr < a.startPtr + 16 ∨ a.lastPtr ≤ ptr then (1, s)
  else if s.mem.read64 (ptr - 16 + 8) = 0 then (1, s)
  else
    let (size, s) := coalesceFront a s ptr (s.mem.read64 (ptr - 16))
    let (hdr, size, s) := coalesceBack a s ptr size
    (0, push { s with mem := mergeTags s.mem hdr size } hdr)

def interface : Interface (Allocator × State) where
  malloc size h := allocMalloc h.1 h.2 size
  free ptr h :=
    let r := allocFree h.1 h.2 ptr
    some (r.1, h.1, r.2)
  reset h := allocReset h.1 h.2
  poke x v h := (h.1, { h.2 with mem := h.2.mem.poke x v })
  blockSize ptr h := (parseHeader h.2.mem ptr).blockSize

end LowLevel.Allocators.Explicit
