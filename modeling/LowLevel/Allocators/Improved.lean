import LowLevel.Allocators.Client

/-! # The implicit list as a structure of arrays

Sizes and flags are kept in an array of their own: an entry of the meta region
is the block size, the allocated flag and the payload pointer. A block of the
data region is a header of two words, the second of which points to its entry,
and the payload. Zero is the null pointer.
-/

namespace LowLevel.Allocators.Improved

open Memory

structure SoaAllocator where
  metaStartPtr : ℕ := 0
  metaLastPtr : ℕ := 0
  dataStartPtr : ℕ := 0
  size : ℕ := 0
  deriving DecidableEq

/-- Map both regions, given what the two calls of `mmap` return. -/
def allocInit (a : SoaAllocator) (size : ℕ) (metaMap dataMap : ℕ) : ℕ × SoaAllocator :=
  if a.metaStartPtr ≠ 0 then (1, a)
  else if metaMap = MAP_FAILED then (1, { a with metaStartPtr := metaMap })
  else if dataMap = MAP_FAILED then
    (1, { a with metaStartPtr := 0, dataStartPtr := dataMap })
  else (0, ⟨metaMap, metaMap, dataMap, size⟩)

def allocDeinit (a : SoaAllocator) : ℕ × SoaAllocator :=
  if a.metaStartPtr = 0 then (1, a) else (0, {})

def allocReset (a : SoaAllocator) : ℕ × SoaAllocator :=
  if a.metaStartPtr = 0 then (1, a) else (0, { a with metaLastPtr := a.metaStartPtr })

def search (m : Memory) (last size : ℕ) : ℕ → ℕ → Option (Option ℕ)
  | 0, _ => none
  | fuel + 1, current =>
    if current < last then
      if m.read64 (current + 8) = 0 ∧ size ≤ m.read64 current then some (some current)
      else search m last size fuel (current + 24)
    else some none

inductive Outcome where
  | payload (ptr : ℕ)
  | uninitialised
  | dataFull
  | metaFull
  deriving DecidableEq

def Outcome.ptr : Outcome → ℕ
  | .payload ptr => ptr
  | _ => 0

def blockStart (a : SoaAllocator) (m : Memory) : ℕ :=
  if a.metaStartPtr = a.metaLastPtr then a.dataStartPtr
  else m.read64 (a.metaLastPtr - 24 + 16) + m.read64 (a.metaLastPtr - 24)

def append (a : SoaAllocator) (m : Memory) (size : ℕ) : Outcome × SoaAllocator × Memory :=
  let start := blockStart a m
  if (a.dataStartPtr + a.size) % 2 ^ 64 < (start + 16 + size) % 2 ^ 64 then (.dataFull, a, m)
  else if (a.metaStartPtr + a.size) % 2 ^ 64 < (a.metaLastPtr + 24) % 2 ^ 64 then (.metaFull, a, m)
  else
    let payload := start + 16
    let m := m.write64 a.metaLastPtr size
    let m := m.write64 (a.metaLastPtr + 8) 1
    let m := m.write64 (a.metaLastPtr + 16) payload
    let m := m.write64 (payload - 8) a.metaLastPtr
    (.payload payload, { a with metaLastPtr := a.metaLastPtr + 24 }, m)

/-- A request with the branch it takes; the walk is given as many steps as there are addresses. -/
def serve (a : SoaAllocator) (m : Memory) (size : ℕ) : Option (Outcome × SoaAllocator × Memory) :=
  if a.metaStartPtr = 0 then some (.uninitialised, a, m)
  else
    let size := roundUp size
    (search m a.metaLastPtr size (2 ^ 64) a.metaStartPtr).map fun found =>
      match found with
      | some current =>
        let m := m.write64 (current + 8) 1
        (.payload (m.read64 (current + 16)), a, m)
      | none => append a m size

def allocMalloc (a : SoaAllocator) (m : Memory) (size : ℕ) : Option (ℕ × SoaAllocator × Memory) :=
  (serve a m size).map fun r => (r.1.ptr, r.2)

def allocFree (a : SoaAllocator) (m : Memory) (ptr : ℕ) : ℕ × Memory :=
  if a.metaStartPtr = 0 then (1, m)
  else if ptr < a.dataStartPtr + 16 ∨ a.dataStartPtr + a.size ≤ ptr then (1, m)
  else
    let header := m.read64 (ptr - 8)
    if header < a.metaStartPtr ∨ a.metaLastPtr ≤ header ∨ (header - a.metaStartPtr) % 24 ≠ 0 then
      (1, m)
    else if m.read64 (header + 16) ≠ ptr then (1, m)
    else if m.read64 (header + 8) = 0 then (1, m)
    else (0, m.write64 (header + 8) 0)

/-- The size in the entry to which the word in front of a pointer leads. -/
def payloadSize (m : Memory) (ptr : ℕ) : ℕ := m.read64 (m.read64 (ptr - 8))

def interface : Interface (SoaAllocator × Memory) where
  malloc size h := allocMalloc h.1 h.2 size
  free ptr h :=
    let r := allocFree h.1 h.2 ptr
    some (r.1, h.1, r.2)
  reset h :=
    let r := allocReset h.1
    (r.1, r.2, h.2)
  poke x v h := (h.1, h.2.poke x v)
  blockSize ptr h := payloadSize h.2 ptr

end LowLevel.Allocators.Improved
