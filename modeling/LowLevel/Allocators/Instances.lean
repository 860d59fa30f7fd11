import LowLevel.Allocators.ExplicitRuns

/-! # Several instances of the explicit allocator

A program with an instance for each index, every one with a region and a client
of its own. Memory and the head of the free list are shared, since the head is a
file-level variable. The abstract program has an abstract heap for each index
and shares nothing.
-/

namespace LowLevel.Allocators

/-- An allocator that is also mapped and unmapped by its client. -/
structure Instance (σ : Type) extends Interface σ where
  init : σ → ℕ × σ
  deinit : σ → ℕ × σ

inductive Call where
  | init
  | deinit
  | use (act : Action)
  deriving DecidableEq

def Client.call {σ : Type} (I : Instance σ) (rules : Rules) (c : Client σ) :
    Call → Option (Client σ)
  | .init => some {
      c with
      heap := (I.init c.heap).2
      log := c.log ++ [(I.init c.heap).1] }
  | .deinit => some {
      heap := (I.deinit c.heap).2
      log := c.log ++ [(I.deinit c.heap).1] }
  | .use act => c.step I.toInterface rules act

end LowLevel.Allocators

namespace LowLevel.Allocators.Explicit

open Memory

/-- The calls on one instance whose `mmap` gives the region at `base`. -/
def instanceAt (base size : ℕ) : Instance (Allocator × State) where
  toInterface := interface
  init h := allocInit h.1 h.2 size base
  deinit h := allocDeinit h.1 h.2

/-- Memory and the list head, and for each instance its control block with what its client holds
and was answered. -/
structure Program (ι : Type) where
  state : State
  clients : ι → Client Allocator

namespace Program

variable {ι : Type} (c : Program ι) (w : ι)

def client : Client (Allocator × State) where
  heap := ((c.clients w).heap, c.state)
  live := (c.clients w).live
  returned := (c.clients w).returned
  log := (c.clients w).log

variable [DecidableEq ι] (base size : ι → ℕ)

def put (d : Client (Allocator × State)) : Program ι where
  state := d.heap.2
  clients := Function.update c.clients w
    { heap := d.heap.1, live := d.live, returned := d.returned, log := d.log }

def step (x : ι × Call) : Option (Program ι) :=
  ((c.client x.1).call (instanceAt (base x.1) (size x.1)) (regionRules (size x.1)) x.2).map
    (c.put x.1)

/-- All instances start unmapped, and the free list starts empty. -/
def machine (m : Memory) : Machine (Program ι) (ι × Call) where
  init := { state := ⟨m, 0⟩, clients := fun _ => { heap := {} } }
  step c := c.step base size

end Program

/-- The nodes of the list from a node until the walk is back at the head. -/
def walk (m : Memory) (head : ℕ) : ℕ → ℕ → List ℕ
  | 0, _ => []
  | fuel + 1, current =>
    let next := m.read64 (current + 24)
    current :: if next ≠ head then walk m head fuel next else []

def freeNodes (s : State) : List ℕ := if s.head ≠ 0 then walk s.mem s.head (2 ^ 64) s.head else []

/-- A call stays in the region of its instance: a request finds the first block that is large
enough there, or none, and a free list that is dropped has no blocks elsewhere. -/
def Program.confined {ι : Type} (c : Program ι) : ι × Call → Bool
  | (w, .use (.malloc size)) =>
    ((freeNodes c.state).find? fun x => roundUp size ≤ c.state.mem.read64 x).all
      (c.clients w).heap.owns
  | (w, .use .reset) | (w, .deinit) =>
    (c.clients w).heap.startPtr = 0 ∨ (freeNodes c.state).all (c.clients w).heap.owns
  | _ => true

/-- What `mmap` promises of the regions of a program. -/
structure Regions {ι : Type} (base size : ι → ℕ) : Prop where
  mapped : ∀ w, Mapped (base w) (size w)
  pos : ∀ w, 0 < size w
  disjoint : ∀ v w, v ≠ w → base v + size v ≤ base w ∨ base w + size w ≤ base v

namespace Model

def instanceAt (base size : ℕ) : Instance (Option Model) where
  malloc n
    | none => some (0, none)
    | some M => some ((M.malloc base size (roundUp n)).1, some (M.malloc base size (roundUp n)).2)
  free ptr M := some (0, M.map fun M => M.free base (ptr - 16))
  reset
    | none => (1, none)
    | some _ => (0, some {})
  poke _ _ M := M
  blockSize ptr M := M.elim 0 fun M => M.sizeAt base (ptr - 16)
  init
    | none => (0, some {})
    | some M => (1, some M)
  deinit
    | none => (1, none)
    | some _ => (0, none)

def blocksOf (M : Option Model) : List Block := M.elim [] blocks

def machine {ι : Type} [DecidableEq ι] (base size : ι → ℕ) :
    Machine (ι → Client (Option Model)) (ι × Call) :=
  .parts (fun _ => { heap := none })
    fun w d => d.call (instanceAt (base w) (size w)) (regionRules (size w))

end Model

end LowLevel.Allocators.Explicit
