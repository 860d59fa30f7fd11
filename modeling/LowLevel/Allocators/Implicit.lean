import LowLevel.Allocators.Client

/-! # The allocator with an implicit list

Blocks follow each other, each a header of two words and the payload; a request
walks the headers by size. Zero is the null pointer.
-/

namespace LowLevel.Allocators.Implicit

open Memory

def allocInit (a : Allocator) (size : ℕ) (mmap : ℕ) : ℕ × Allocator := a.init size mmap

def allocDeinit (a : Allocator) : ℕ × Allocator := a.deinit

def allocReset (a : Allocator) : ℕ × Allocator := a.reset

/-- Walk the blocks until one is usable or the last one is passed; tells which, and where. -/
def search (m : Memory) (last size : ℕ) : ℕ → ℕ → Option (Bool × ℕ)
  | 0, _ => none
  | fuel + 1, current =>
    if current < last then
      let header := parseHeader m (current + 16)
      if header.allocated = 0 ∧ size ≤ header.blockSize then some (true, current)
      else search m last size fuel (current + 16 + header.blockSize)
    else some (false, current)

def allocMalloc (a : Allocator) (m : Memory) (size : ℕ) : Option (ℕ × Allocator × Memory) :=
  let size := roundUp size
  (search m a.lastPtr size (2 ^ 64) a.startPtr).map fun (found, current) =>
    if found = false ∧ (a.startPtr + a.size) % 2 ^ 64 < (current + size + 16) % 2 ^ 64 then
      (0, a, m)
    else if found = false then
      (current + 16, { a with lastPtr := (current + 16 + size) % 2 ^ 64 },
        (m.write64 current size).write64 (current + 8) 1)
    else (current + 16, a, m.write64 (current + 8) 1)

def allocFree (a : Allocator) (m : Memory) (ptr : ℕ) : ℕ × Memory :=
  if ptr < a.startPtr + 16 ∨ a.lastPtr ≤ ptr then (1, m)
  else if (parseHeader m ptr).allocated = 0 then (1, m)
  else (0, m.write64 (ptr - 8) 0)

def interface : Interface (Allocator × Memory) where
  malloc size h := allocMalloc h.1 h.2 size
  free ptr h :=
    let r := allocFree h.1 h.2 ptr
    some (r.1, h.1, r.2)
  reset h :=
    let r := allocReset h.1
    (r.1, r.2, h.2)
  poke x v h := (h.1, h.2.poke x v)
  blockSize ptr h := (parseHeader h.2 ptr).blockSize

end LowLevel.Allocators.Implicit
