import LowLevel.Foundations.FreeList

/-! # The pool allocator

Slots of one fixed-size region are named by their index. A slot that is not
in use holds the link of the free list in its own bytes, so it is either such
a link or a value of the element type.
-/

namespace LowLevel.OrderBook

/-- What a run of the engine can do wrong; none of these is observable as a value. -/
inductive Fault where
  | outOfBounds
  | nullDereference
  | underflow
  | useAfterFree
  | doubleFree
  | corruptFreeList
  | nonTermination
  | invalidSide
  deriving DecidableEq, Repr

inductive Slot (T : Type) where
  | free (next : Option ℕ)
  | live (value : T)

/-- A pool of `size` slots; the chain built by the constructor visits them in order. -/
structure Allocator (T : Type) (size : ℕ) where
  slot : ℕ → Slot T := fun i => .free (if i + 1 < size then some (i + 1) else none)
  freeHead : Option ℕ := some 0

namespace Allocator

variable {T : Type} {size : ℕ}

def full (a : Allocator T size) : Bool := a.freeHead.isNone

def write (a : Allocator T size) (i : ℕ) (v : Slot T) : Allocator T size :=
  { a with slot := Function.update a.slot i v }

def take (a : Allocator T size) (head : ℕ) (next : Option ℕ) (v : T) : Allocator T size :=
  ⟨Function.update a.slot head (.live v), next⟩

def release (a : Allocator T size) (i : ℕ) : Allocator T size :=
  ⟨Function.update a.slot i (.free a.freeHead), some i⟩

/-- Pop the free list. The bytes of the returned slot are indeterminate until written. -/
def allocate [Inhabited T] (a : Allocator T size) :
    Except Fault (Option ℕ × Allocator T size) :=
  if a.full then .ok (none, a)
  else match a.freeHead with
    | none => .ok (none, a)
    | some head =>
      match a.slot head with
      | .free next => .ok (some head, a.take head next default)
      | .live _ => .error .corruptFreeList

def deallocate (a : Allocator T size) (pointer : ℕ) : Except Fault (Allocator T size) :=
  match a.slot pointer with
  | .live _ => .ok (a.release pointer)
  | .free _ => .error .doubleFree

end Allocator

end LowLevel.OrderBook
