import LowLevel.Foundations.Machine
import LowLevel.Foundations.Memory

/-! # Clients of an allocator

What a well-behaved program does with an allocator: request memory, give back
pointers it holds, reset the heap, and store into its payloads, which may be
larger than what it requested. The client keeps its live pointers with the sizes
it asked for, the pointers handed out since the last reset, and a log of
everything the allocator answered.
-/

namespace LowLevel.Allocators

def ALIGN : ℕ := 16

/-- A request rounded up to the alignment, in 64-bit arithmetic. -/
def roundUp (size : ℕ) : ℕ :=
  if size % ALIGN = 0 then size else (size + (ALIGN - size % ALIGN)) % 2 ^ 64

theorem roundUp_spec {n : ℕ} (hn : n + 15 < 2 ^ 64) :
    n ≤ roundUp n ∧ roundUp n < n + 16 ∧ roundUp n % 16 = 0 := by
  unfold roundUp ALIGN
  split_ifs with h
  · omega
  · rw [Nat.mod_eq_of_lt (by omega)]
    omega

/-- The control block of an instance; an uninitialised one is all zero. -/
structure Allocator where
  startPtr : ℕ := 0
  lastPtr : ℕ := 0
  size : ℕ := 0
  deriving DecidableEq

/-- The value `mmap` returns on failure. -/
def MAP_FAILED : ℕ := 2 ^ 64 - 1

/-- Map a region, given what `mmap` returns. -/
def Allocator.init (a : Allocator) (size : ℕ) (mmap : ℕ) : ℕ × Allocator :=
  if a.startPtr ≠ 0 then (1, a)
  else if mmap = MAP_FAILED then (1, { a with startPtr := mmap })
  else (0, ⟨mmap, mmap, size⟩)

def Allocator.deinit (a : Allocator) : ℕ × Allocator := if a.startPtr = 0 then (1, a) else (0, {})

def Allocator.reset (a : Allocator) : ℕ × Allocator :=
  if a.startPtr = 0 then (1, a) else (0, { a with lastPtr := a.startPtr })

theorem Allocator.init_eq {a a' : Allocator} {size mmap : ℕ} (h : a.init size mmap = (0, a')) :
    a' = ⟨mmap, mmap, size⟩ := by
  unfold Allocator.init at h
  split_ifs at h
  · cases h
  · cases h
  · cases h
    rfl

theorem Allocator.reset_eq {a : Allocator} (h : 0 < a.startPtr) :
    a.reset = (0, { a with lastPtr := a.startPtr }) :=
  if_neg h.ne'

structure Header where
  blockSize : ℕ
  allocated : ℕ

def parseHeader (m : Memory) (ptr : ℕ) : Header := ⟨m.read64 (ptr - 16), m.read64 (ptr - 8)⟩

def Allocator.owns (a : Allocator) (y : ℕ) : Bool := a.startPtr ≤ y ∧ y < a.startPtr + a.size

/-- What `mmap` promises of a region: it starts at a page other than the first one and lies in
the lower half of the address space. -/
structure Mapped (base size : ℕ) : Prop where
  page : 4096 ∣ base
  base_pos : 0 < base
  le : base + size ≤ 2 ^ 63

/-- The operations of an allocator on a heap state, with the payload size of the block behind a
pointer; the null pointer is zero, and an operation without a value does not return. -/
structure Interface (σ : Type) where
  malloc : ℕ → σ → Option (ℕ × σ)
  free : ℕ → σ → Option (ℕ × σ)
  reset : σ → ℕ × σ
  poke : ℕ → UInt8 → σ → σ
  blockSize : ℕ → σ → ℕ

/-- The same operations with pointers as offsets from a base; zero is still the null pointer. -/
def Interface.relative {σ : Type} (I : Interface σ) (base : ℕ) : Interface σ where
  malloc n h := (I.malloc n h).map fun r => (if r.1 = 0 then 0 else r.1 - base, r.2)
  free off h := I.free (base + off) h
  reset := I.reset
  poke off v h := I.poke (base + off) v h
  blockSize off h := I.blockSize (base + off) h

theorem Interface.relative_malloc {σ : Type} {I : Interface σ} {base n off : ℕ} {h h' : σ}
    (heq : I.malloc n h = some (base + off, h')) (hbase : 0 < base) :
    (I.relative base).malloc n h = some (off, h') := by
  have hne : base + off ≠ 0 := by omega
  simp only [relative, heq, Option.map_some, if_neg hne, Nat.add_sub_cancel_left]

theorem Interface.relative_null {σ : Type} {I : Interface σ} {base n : ℕ} {h h' : σ}
    (heq : I.malloc n h = some (0, h')) : (I.relative base).malloc n h = some (0, h') := by
  simp only [relative, heq, Option.map_some, if_true]

inductive Action where
  | malloc (size : ℕ)
  | free (ptr : ℕ)
  | reset
  | write (ptr i : ℕ) (v : UInt8)
  deriving DecidableEq

def Action.spares (p i : ℕ) : Action → Bool
  | .malloc _ => true
  | .free q => q ≠ p
  | .reset => false
  | .write q j _ => ¬ (q = p ∧ j = i)

structure Client (σ : Type) where
  heap : σ
  live : List (ℕ × ℕ) := []
  returned : List ℕ := []
  log : List ℕ := []

/-- What a client may do: the sizes it requests, and whether it may free a pointer again. -/
structure Rules where
  minSize : ℕ
  maxSize : ℕ
  refree : Bool := false

namespace Client

variable {σ : Type} (I : Interface σ) (rules : Rules) (c : Client σ)

def allowed : Action → Bool
  | .malloc size => rules.minSize ≤ size ∧ size ≤ rules.maxSize
  | .free ptr => ptr ∈ c.live.map Prod.fst ∨ (rules.refree ∧ ptr ∈ c.returned)
  | .reset => true
  | .write ptr i _ => ptr ∈ c.live.map Prod.fst ∧ i < I.blockSize ptr c.heap

def exec : Action → Option (Client σ)
  | .malloc size => (I.malloc size c.heap).map fun r => {
      heap := r.2
      live := if r.1 = 0 then c.live else (r.1, size) :: c.live
      returned := if r.1 = 0 then c.returned else r.1 :: c.returned
      log := c.log ++ [r.1] }
  | .free ptr => (I.free ptr c.heap).map fun r => {
      heap := r.2
      live := c.live.filter fun x => x.1 ≠ ptr
      returned := c.returned
      log := c.log ++ [r.1] }
  | .reset => some {
      heap := (I.reset c.heap).2
      log := c.log ++ [(I.reset c.heap).1] }
  | .write ptr i v => some { c with heap := I.poke (ptr + i) v c.heap }

section Lemmas

variable {I : Interface σ} {rules : Rules} {c : Client σ}

theorem allowed_malloc {size : ℕ} : c.allowed I rules (.malloc size) = true ↔
    rules.minSize ≤ size ∧ size ≤ rules.maxSize :=
  decide_eq_true_iff

theorem allowed_free {ptr : ℕ} : c.allowed I rules (.free ptr) = true ↔
    ptr ∈ c.live.map Prod.fst ∨ (rules.refree = true ∧ ptr ∈ c.returned) :=
  decide_eq_true_iff

theorem allowed_write {ptr i : ℕ} {v : UInt8} : c.allowed I rules (.write ptr i v) = true ↔
    ∃ y ∈ c.live, y.1 = ptr ∧ i < I.blockSize ptr c.heap := by
  simp only [allowed, List.mem_map, decide_eq_true_eq, ← exists_and_right, and_assoc]

theorem exec_malloc {size p : ℕ} {h : σ} (heq : I.malloc size c.heap = some (p, h)) :
    c.exec I (.malloc size) = some {
      heap := h
      live := if p = 0 then c.live else (p, size) :: c.live
      returned := if p = 0 then c.returned else p :: c.returned
      log := c.log ++ [p] } := by
  rw [exec, heq, Option.map_some]

theorem exec_free {ptr code : ℕ} {h : σ} (heq : I.free ptr c.heap = some (code, h)) :
    c.exec I (.free ptr) = some {
      heap := h
      live := c.live.filter fun x => x.1 ≠ ptr
      returned := c.returned
      log := c.log ++ [code] } := by
  rw [exec, heq, Option.map_some]

end Lemmas

def step (act : Action) : Option (Client σ) :=
  if c.allowed I rules act then c.exec I act else none

def machine (heap : σ) : Machine (Client σ) Action where
  init := { heap }
  step := Client.step I rules

end Client

end LowLevel.Allocators
