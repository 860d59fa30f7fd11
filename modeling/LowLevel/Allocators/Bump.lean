import LowLevel.Allocators.FirstFit
import Mathlib.Algebra.Order.Ring.Nat

/-! # Bump allocators

Two allocators that hand out a region from its start to its end and take nothing
back until they are reset. Both compare a request with what is left only after
it was rounded up in 64-bit arithmetic; the second also multiplies and adds
before it compares.
-/

namespace LowLevel.Allocators

/-- Ranges handed out of `[lo, cur)`, beside each other. -/
structure Carved (lo cur hi : ℕ) (given : List (ℕ × ℕ)) : Prop where
  lo_le : lo ≤ cur
  le_hi : cur ≤ hi
  within : ∀ y ∈ given, lo ≤ y.1 ∧ y.1 + y.2 ≤ cur
  apart : given.Pairwise fun x y => x.1 + x.2 ≤ y.1 ∨ y.1 + y.2 ≤ x.1

/-- The ranges handed out lie in the region and share no byte, and the position is in the
region. -/
structure Handed (lo cur hi : ℕ) (given : List (ℕ × ℕ)) : Prop where
  lo_le : lo ≤ cur
  le_hi : cur ≤ hi
  within : ∀ y ∈ given, lo ≤ y.1 ∧ y.1 + y.2 ≤ hi
  apart : given.Pairwise fun x y => x.1 + x.2 ≤ y.1 ∨ y.1 + y.2 ≤ x.1

section Ranges

variable {lo cur hi n r : ℕ} {given : List (ℕ × ℕ)}

theorem Carved.start (h : lo ≤ hi) : Carved lo lo hi [] where
  lo_le := le_rfl
  le_hi := h
  within y hy := by cases hy
  apart := .nil

theorem Carved.handed (h : Carved lo cur hi given) : Handed lo cur hi given where
  lo_le := h.lo_le
  le_hi := h.le_hi
  within y hy := ⟨(h.within y hy).1, (h.within y hy).2.trans h.le_hi⟩
  apart := h.apart

theorem Carved.next (h : Carved lo cur hi given) (hn : n ≤ r) (hr : cur + r ≤ hi) :
    Carved lo (cur + r) hi ((cur, n) :: given) where
  lo_le := h.lo_le.trans (Nat.le_add_right ..)
  le_hi := hr
  within := by
    intro y hy
    rcases List.mem_cons.mp hy with rfl | hy
    · exact ⟨h.lo_le, Nat.add_le_add_left hn cur⟩
    · obtain ⟨hlo, hcur⟩ := h.within y hy
      exact ⟨hlo, hcur.trans (Nat.le_add_right ..)⟩
  apart := List.pairwise_cons.mpr ⟨fun y hy => Or.inr (h.within y hy).2, h.apart⟩

end Ranges

namespace Bump

/-- The control block; an uninitialised one is all zero. -/
structure Allocator where
  buffer : ℕ := 0
  ptr : ℕ := 0
  buffSize : ℕ := 0
  deriving DecidableEq

/-- Map a buffer, given what `mmap` returns. -/
def allocInit (arena : Allocator) (size mmap : ℕ) : ℕ × Allocator :=
  if arena.ptr ≠ 0 then (1, arena)
  else if mmap = MAP_FAILED then (1, { arena with buffer := mmap })
  else (0, ⟨mmap, mmap, size⟩)

def allocMalloc (arena : Allocator) (size : ℕ) : ℕ × Allocator :=
  if arena.ptr = 0 then (0, arena)
  else
    let aligned := roundUp size
    if ((arena.buffer + arena.buffSize) % 2 ^ 64 + (2 ^ 64 - arena.ptr)) % 2 ^ 64 < aligned then
      (0, arena)
    else (arena.ptr, { arena with ptr := (arena.ptr + aligned) % 2 ^ 64 })

def allocFree (arena : Allocator) (_ptr : ℕ) : ℕ × Allocator := (0, arena)

def allocReset (arena : Allocator) : ℕ × Allocator :=
  if arena.ptr = 0 then (1, arena) else (0, { arena with ptr := arena.buffer })

structure Client where
  arena : Allocator
  given : List (ℕ × ℕ) := []
  deriving DecidableEq

inductive Action where
  | malloc (size : ℕ)
  | free (ptr : ℕ)
  | reset
  deriving DecidableEq

def step (c : Client) : Action → Option Client
  | .malloc size =>
    if size < 2 ^ 64 then
      let r := allocMalloc c.arena size
      some ⟨r.2, if r.1 = 0 then c.given else (r.1, size) :: c.given⟩
    else none
  | .free ptr => some { c with arena := (allocFree c.arena ptr).2 }
  | .reset => some ⟨(allocReset c.arena).2, []⟩

def machine (arena : Allocator) : Machine Client Action := ⟨{ arena }, step⟩

/-- What was handed out is aligned, in the buffer, and shares no byte. -/
structure Delivers (c : Client) : Prop where
  handed : Handed c.arena.buffer c.arena.ptr (c.arena.buffer + c.arena.buffSize) c.given
  aligned : ∀ y ∈ c.given, 16 ∣ y.1

def Rounds : Action → Prop
  | .malloc size => size ≤ 2 ^ 64 - 16
  | _ => True

structure Filled (base size : ℕ) (c : Client) : Prop where
  buffer : c.arena.buffer = base
  buffSize : c.arena.buffSize = size
  carved : Carved base c.arena.ptr (base + size) c.given
  ptr : 16 ∣ c.arena.ptr
  aligned : ∀ y ∈ c.given, 16 ∣ y.1

section Runs

variable {base size n : ℕ} {c c' : Client} {act : Action}

theorem Filled.delivers (h : Filled base size c) : Delivers c where
  handed := by
    rw [h.buffer, h.buffSize]
    exact h.carved.handed
  aligned := h.aligned

theorem Filled.malloc_eq (h : Filled base size c) (hbase : 0 < base) (hend : base + size < 2 ^ 64)
    (n : ℕ) : allocMalloc c.arena n = if c.arena.ptr + roundUp n ≤ base + size then
      (c.arena.ptr, { c.arena with ptr := c.arena.ptr + roundUp n }) else (0, c.arena) := by
  obtain ⟨hbuffer, hsize, hcarved, -, -⟩ := h
  have hlo := hcarved.lo_le
  have hhi := hcarved.le_hi
  have hleft : ((base + size) % 2 ^ 64 + (2 ^ 64 - c.arena.ptr)) % 2 ^ 64 =
      base + size - c.arena.ptr := by omega
  rw [allocMalloc, if_neg (by omega), hbuffer, hsize]
  simp only [hleft]
  split_ifs with hless hfits hfits
  · omega
  · rfl
  · rw [Nat.mod_eq_of_lt (by omega), hbuffer, hsize]
  · omega

theorem Filled.malloc (h : Filled base size c) (hbase : 0 < base) (hend : base + size < 2 ^ 64)
    (hn : n ≤ 2 ^ 64 - 16) :
    Filled base size ⟨(allocMalloc c.arena n).2, if (allocMalloc c.arena n).1 = 0 then c.given
      else ((allocMalloc c.arena n).1, n) :: c.given⟩ := by
  obtain ⟨hle, -, hmod⟩ := roundUp_spec (n := n) (by omega)
  have hlo := h.carved.lo_le
  rw [h.malloc_eq hbase hend]
  split_ifs with hfits hzero
  · exact absurd hzero (by simp only; omega)
  · refine ⟨h.buffer, h.buffSize, h.carved.next hle hfits, ?_, ?_⟩
    · exact Nat.dvd_add h.ptr (Nat.dvd_of_mod_eq_zero hmod)
    · intro y hy
      rcases List.mem_cons.mp hy with rfl | hy
      · exact h.ptr
      · exact h.aligned y hy
  · exact h
  · next hnot => exact absurd rfl hnot

theorem roundUp_lost {n : ℕ} (hn : 2 ^ 64 - 16 < n) (hlt : n < 2 ^ 64) : roundUp n = 0 := by
  unfold roundUp ALIGN
  split_ifs with h <;> omega

theorem Filled.step (h : Filled base size c) (hbase : 0 < base) (halign : 16 ∣ base)
    (hend : base + size < 2 ^ 64) (hstep : step c act = some c') (hact : Rounds act) :
    Filled base size c' := by
  cases act with
  | malloc n =>
    obtain ⟨-, hc⟩ := Option.ite_none_right_eq_some.mp hstep
    rw [← Option.some.inj hc]
    exact h.malloc hbase hend hact
  | free p =>
    rw [← Option.some.inj hstep]
    exact h
  | reset =>
    have hlo := h.carved.lo_le
    rw [← Option.some.inj hstep, allocReset, if_neg (by omega)]
    refine ⟨h.buffer, h.buffSize, ?_, ?_, fun y hy => by cases hy⟩
    · simp only [h.buffer]
      exact .start (Nat.le_add_right ..)
    · simp only [h.buffer]
      exact halign

theorem Filled.rounds (h : Filled base size c) (hbase : 0 < base) (halign : 16 ∣ base)
    (hend : base + size < 2 ^ 64) (hstep : Bump.step c act = some c') (hc' : Delivers c') :
    Rounds act := by
  cases act with
  | malloc n =>
    obtain ⟨hlt, hc⟩ := Option.ite_none_right_eq_some.mp hstep
    have hlo := h.carved.lo_le
    have hhi := h.carved.le_hi
    by_contra hnot
    have hround := roundUp_lost (Nat.lt_of_not_le hnot) hlt
    have heq := h.malloc_eq hbase hend n
    rw [hround, Nat.add_zero, if_pos hhi] at heq
    simp only [heq, if_neg (show c.arena.ptr ≠ 0 by omega)] at hc
    rw [← Option.some.inj hc] at hc'
    obtain ⟨-, hin⟩ := hc'.handed.within (c.arena.ptr, n) (List.mem_cons_self ..)
    simp only [h.buffer, h.buffSize] at hin
    have := Nat.le_of_dvd hbase halign
    have hbig : ¬ n ≤ 2 ^ 64 - 16 := hnot
    omega
  | free p => trivial
  | reset => trivial

/-- Everything handed out along a run is as requested, exactly if no request is so large that its
rounding overflows. -/
theorem delivers_iff_rounds {a a' : Allocator} {mmap : ℕ} (hbase : 0 < mmap) (halign : 16 ∣ mmap)
    (hend : mmap + size < 2 ^ 64) (hinit : allocInit a size mmap = (0, a')) (acts : List Action) :
    (machine a').Always { arena := a' } acts Delivers ↔
      (machine a').AllSteps { arena := a' } acts fun _ act => Rounds act := by
  have hstart : a' = ⟨mmap, mmap, size⟩ := by
    unfold allocInit at hinit
    split_ifs at hinit
    · cases hinit
    · cases hinit
    · exact (congrArg Prod.snd hinit).symm
  have hfilled : Filled mmap size { arena := a' } := by
    rw [hstart]
    exact ⟨rfl, rfl, .start (Nat.le_add_right ..), halign, fun y hy => by cases hy⟩
  refine Machine.always_iff hfilled (fun c h => h.delivers) ?_ ?_
  · intro c act c' h hstep hact
    exact h.step hbase halign hend hstep hact
  · intro c act c' h hstep hc'
    exact h.rounds hbase halign hend hstep hc'

theorem delivers_iff_rounds_page :
    (machine ⟨4096, 4096, 32⟩).Always { arena := ⟨4096, 4096, 32⟩ }
        [.malloc 1, .malloc 16, .malloc 1, .reset, .malloc 20] Delivers ↔
      (machine ⟨4096, 4096, 32⟩).AllSteps { arena := ⟨4096, 4096, 32⟩ }
        [.malloc 1, .malloc 16, .malloc 1, .reset, .malloc 20] fun _ act => Rounds act := by
  have hinit : allocInit {} 32 4096 = (0, ⟨4096, 4096, 32⟩) := rfl
  exact delivers_iff_rounds (by decide) (by decide) (by decide) hinit _

/-- The largest request is served with nothing. -/
theorem largest_not_delivered : ¬ (machine ⟨4096, 4096, 4096⟩).Always
    { arena := ⟨4096, 4096, 4096⟩ } [.malloc (2 ^ 64 - 1)] Delivers := by
  intro h
  have hrun : (machine ⟨4096, 4096, 4096⟩).run { arena := ⟨4096, 4096, 4096⟩ }
      [.malloc (2 ^ 64 - 1)] = some ⟨⟨4096, 4096, 4096⟩, [(4096, 2 ^ 64 - 1)]⟩ := by decide +kernel
  have hin := (h _ _ (List.prefix_refl _) hrun).handed.within _ (List.mem_cons_self ..)
  exact absurd hin (by decide)

end Runs

end Bump

structure Arena where
  size : ℕ
  startPtr : ℕ
  currPtr : ℕ
  deriving DecidableEq

namespace Arena

open FirstFit

/-- Map a region, given what `mmap` returns; without one the program exits. -/
def new (size mmap : ℕ) : Option Arena :=
  if mmap = MAP_FAILED then none else some ⟨size, mmap, mmap⟩

def alloc (a : Arena) (sizeofT count : ℕ) : ℕ × Arena :=
  let bytes := count * sizeofT % 2 ^ 64
  let aligned := roundUp bytes
  if (a.startPtr + a.size) % 2 ^ 64 < (a.currPtr + aligned) % 2 ^ 64 then (0, a)
  else (a.currPtr, { a with currPtr := (a.currPtr + aligned) % 2 ^ 64 })

def dealloc (a : Arena) (_ptr : ℕ) : ℕ × Arena := (0, a)

def reset (a : Arena) : ℕ × Arena := (0, { a with currPtr := a.startPtr })

structure Client where
  arena : Arena
  given : List (ℕ × ℕ) := []
  deriving DecidableEq

inductive Action where
  | alloc (sizeofT count : ℕ)
  | dealloc (ptr : ℕ)
  | reset
  deriving DecidableEq

/-- One call; sizes and counts are 64-bit numbers, and elements have at least one byte. -/
def step (c : Client) : Action → Option Client
  | .alloc sizeofT count =>
    if 1 ≤ sizeofT ∧ sizeofT < 2 ^ 64 ∧ count < 2 ^ 64 then
      let r := c.arena.alloc sizeofT count
      some ⟨r.2, if r.1 = 0 then c.given else (r.1, count * sizeofT) :: c.given⟩
    else none
  | .dealloc ptr => some { c with arena := (c.arena.dealloc ptr).2 }
  | .reset => some ⟨c.arena.reset.2, []⟩

def machine (arena : Arena) : Machine Client Action := ⟨{ arena }, step⟩

/-- What was handed out is in the region and shares no byte. -/
def Delivers (c : Client) : Prop :=
  Handed c.arena.startPtr c.arena.currPtr (c.arena.startPtr + c.arena.size) c.given

/-- The end of a request, in exact arithmetic, is below `2 ^ 64`, or is after the region also when
the carry is lost. -/
def Seen (c : Client) : Action → Prop
  | .alloc sizeofT count =>
    let stop := c.arena.currPtr + roundUp16 (count * sizeofT)
    stop < 2 ^ 64 ∨ c.arena.startPtr + c.arena.size < stop % 2 ^ 64
  | _ => True

structure Filled (base size : ℕ) (c : Client) : Prop where
  start_eq : c.arena.startPtr = base
  size_eq : c.arena.size = size
  carved : Carved base c.arena.currPtr (base + size) c.given

section Runs

variable {base size n sizeofT count : ℕ} {c c' : Client} {act : Action}

theorem Filled.delivers (h : Filled base size c) : Delivers c := by
  rw [Delivers, h.start_eq, h.size_eq]
  exact h.carved.handed

theorem roundUp_mod (n : ℕ) : roundUp (n % 2 ^ 64) % 2 ^ 64 = roundUp16 n % 2 ^ 64 := by
  unfold roundUp ALIGN roundUp16
  split_ifs <;> omega

theorem Filled.alloc_eq (h : Filled base size c) (hmapped : Mapped base size)
    (sizeofT count : ℕ) : c.arena.alloc sizeofT count =
      if base + size < (c.arena.currPtr + roundUp16 (count * sizeofT)) % 2 ^ 64 then (0, c.arena)
      else (c.arena.currPtr, { c.arena with
        currPtr := (c.arena.currPtr + roundUp16 (count * sizeofT)) % 2 ^ 64 }) := by
  have hle := hmapped.le
  rw [alloc, h.start_eq, h.size_eq]
  simp only
  rw [Nat.mod_eq_of_lt (a := base + size) (by omega), Nat.add_mod, roundUp_mod, ← Nat.add_mod,
    h.start_eq, h.size_eq]

theorem Filled.alloc (h : Filled base size c) (hmapped : Mapped base size)
    (hseen : Seen c (.alloc sizeofT count)) :
    Filled base size ⟨(c.arena.alloc sizeofT count).2,
      if (c.arena.alloc sizeofT count).1 = 0 then c.given
      else ((c.arena.alloc sizeofT count).1, count * sizeofT) :: c.given⟩ := by
  have hle := hmapped.le
  have hpos := hmapped.base_pos
  have hlo := h.carved.lo_le
  simp only [Seen, h.start_eq, h.size_eq] at hseen
  rw [h.alloc_eq hmapped]
  split_ifs with hless hzero hzero
  · exact h
  · exact absurd rfl hzero
  · exact absurd hzero (by simp only; omega)
  · have hstop := hseen.resolve_right hless
    rw [Nat.mod_eq_of_lt hstop] at hless ⊢
    exact ⟨h.start_eq, h.size_eq, h.carved.next (le_roundUp16 _) (by omega)⟩

theorem Filled.step (h : Filled base size c) (hmapped : Mapped base size)
    (hstep : step c act = some c') (hact : Seen c act) : Filled base size c' := by
  cases act with
  | alloc sizeofT count =>
    obtain ⟨-, hc⟩ := Option.ite_none_right_eq_some.mp hstep
    rw [← Option.some.inj hc]
    exact h.alloc hmapped hact
  | dealloc p =>
    rw [← Option.some.inj hstep]
    exact h
  | reset =>
    rw [← Option.some.inj hstep]
    refine ⟨h.start_eq, h.size_eq, ?_⟩
    simp only [Arena.reset, h.start_eq]
    exact .start (Nat.le_add_right ..)

theorem Filled.seen (h : Filled base size c) (hmapped : Mapped base size)
    (hstep : Arena.step c act = some c') (hc' : Delivers c') : Seen c act := by
  cases act with
  | alloc sizeofT count =>
    obtain ⟨-, hc⟩ := Option.ite_none_right_eq_some.mp hstep
    have hle := hmapped.le
    have hpos := hmapped.base_pos
    have hlo := h.carved.lo_le
    by_contra hnot
    simp only [Seen, h.start_eq, h.size_eq, not_or, not_lt] at hnot
    obtain ⟨hstop, hin⟩ := hnot
    simp only [h.alloc_eq hmapped, if_neg (Nat.not_lt.mpr hin),
      if_neg (show c.arena.currPtr ≠ 0 by omega)] at hc
    rw [← Option.some.inj hc] at hc'
    obtain ⟨-, hwithin⟩ := Handed.within hc' (c.arena.currPtr, count * sizeofT)
      (List.mem_cons_self ..)
    simp only [h.start_eq, h.size_eq] at hwithin
    unfold roundUp16 at hstop
    omega
  | dealloc p => trivial
  | reset => trivial

/-- Everything handed out along a run is as requested, exactly if no request seems to end in the
region after a carry was lost. -/
theorem delivers_iff_seen {a : Arena} {mmap : ℕ} (hmapped : Mapped mmap size)
    (hnew : new size mmap = some a) (acts : List Action) :
    (machine a).Always { arena := a } acts Delivers ↔
      (machine a).AllSteps { arena := a } acts Seen := by
  have hstart : a = ⟨size, mmap, mmap⟩ := by
    unfold new at hnew
    split_ifs at hnew
    exact (Option.some.inj hnew).symm
  have hfilled : Filled mmap size { arena := a } := by
    rw [hstart]
    exact ⟨rfl, rfl, .start (Nat.le_add_right ..)⟩
  refine Machine.always_iff hfilled (fun c h => h.delivers) ?_ ?_
  · intro c act c' h hstep hact
    exact h.step hmapped hstep hact
  · intro c act c' h hstep hc'
    exact h.seen hmapped hstep hc'

theorem delivers_iff_seen_page :
    (machine ⟨64, 4096, 4096⟩).Always { arena := ⟨64, 4096, 4096⟩ }
        [.alloc 8 3, .alloc 1 40, .reset, .alloc 24 2] Delivers ↔
      (machine ⟨64, 4096, 4096⟩).AllSteps { arena := ⟨64, 4096, 4096⟩ }
        [.alloc 8 3, .alloc 1 40, .reset, .alloc 24 2] Seen := by
  have hnew : new 64 4096 = some ⟨64, 4096, 4096⟩ := rfl
  exact delivers_iff_seen ⟨by decide, by decide, by decide⟩ hnew _

/-- Elements of eight bytes, so many that the product is zero. -/
theorem product_not_delivered : ¬ (machine ⟨4096, 4096, 4096⟩).Always
    { arena := ⟨4096, 4096, 4096⟩ } [.alloc 8 (2 ^ 61)] Delivers := by
  intro h
  have hrun : (machine ⟨4096, 4096, 4096⟩).run { arena := ⟨4096, 4096, 4096⟩ }
      [.alloc 8 (2 ^ 61)] = some ⟨⟨4096, 4096, 4096⟩, [(4096, 2 ^ 64)]⟩ := by decide +kernel
  have hin := (h _ _ (List.prefix_refl _) hrun).within _ (List.mem_cons_self ..)
  exact absurd hin (by decide)

end Runs

end Arena

end LowLevel.Allocators
