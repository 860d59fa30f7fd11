import LowLevel.Allocators.Coalescing
import LowLevel.Allocators.ExplicitMalloc
import LowLevel.Allocators.Implicit
import LowLevel.Allocators.Improved

/-! # The lifecycle of an instance

An instance is uninitialised when the pointer to its region is null. All four
allocators store what `mmap` returns into that pointer before they look at it.
Only the one with two regions puts the null pointer back, and only when the
second region cannot be mapped.
-/

namespace LowLevel.Allocators

/-- What `mmap` may return for a region: the value for failure, or the start of a mapping; an
empty region cannot be mapped. -/
def mmapReturns (size result : ℕ) : Bool :=
  result = MAP_FAILED ∨ (0 < size ∧ 0 < result ∧ result % 4096 = 0 ∧ result + size ≤ 2 ^ 63)

/-- An allocator with the calls that map and unmap it. An allocator with one region calls `mmap`
once and ignores the second result. -/
structure Lifecycle (σ : Type) extends Interface σ where
  init : ℕ → ℕ → ℕ → σ → ℕ × σ
  deinit : σ → ℕ × σ
  startPtr : σ → ℕ
  twoRegions : Bool := false

namespace Lifecycle

inductive Action where
  | init (size first second : ℕ)
  | deinit
  | reset
  | malloc (size : ℕ)
  | free (ptr : ℕ)

/-- An instance with the result of the last call of `alloc_init` in the uninitialised state. -/
structure Tracked (σ : Type) where
  heap : σ
  attempt : Option ℕ := none

variable {σ : Type} (L : Lifecycle σ)

def step (s : Tracked σ) : Action → Option (Tracked σ)
  | .init size first second =>
    if mmapReturns size first ∧ mmapReturns size second then
      let r := L.init size first second s.heap
      some ⟨r.2, if L.startPtr s.heap = 0 then some r.1 else s.attempt⟩
    else none
  | .deinit => some { s with heap := (L.deinit s.heap).2 }
  | .reset => some { s with heap := (L.reset s.heap).2 }
  | .malloc size => (L.malloc size s.heap).map fun r => { s with heap := r.2 }
  | .free ptr => (L.free ptr s.heap).map fun r => { s with heap := r.2 }

def machine (heap : σ) : Machine (Tracked σ) Action := ⟨{ heap }, L.step⟩

/-- The instance behaves as an uninitialised one. -/
structure Uninitialised (heap : σ) : Prop where
  init : ∀ size first second, mmapReturns size first = true → mmapReturns size second = true →
    first ≠ MAP_FAILED → second ≠ MAP_FAILED → (L.init size first second heap).1 = 0
  deinit : (L.deinit heap).1 = 1
  reset : (L.reset heap).1 = 1
  malloc : ∀ size, ∃ heap', L.malloc size heap = some (0, heap')

/-- A call of `alloc_init` in the uninitialised state whose first call of `mmap` fails. -/
def failsFirst (s : Tracked σ) : Action → Bool
  | .init _ first _ => L.startPtr s.heap = 0 ∧ first = MAP_FAILED
  | _ => false

structure Common : Prop where
  busy : ∀ size first second heap, L.startPtr heap ≠ 0 →
    L.init size first second heap = (1, heap)
  failed : ∀ size second heap, L.startPtr heap = 0 →
    (L.init size MAP_FAILED second heap).1 = 1 ∧
      L.startPtr (L.init size MAP_FAILED second heap).2 = MAP_FAILED
  mapped : ∀ size first second heap, L.startPtr heap = 0 → first ≠ MAP_FAILED →
    (L.init size first second heap).1 = 0 ∨
      (L.twoRegions = true ∧ L.startPtr (L.init size first second heap).2 = 0)
  deinit : ∀ heap, L.startPtr heap = 0 → L.startPtr (L.deinit heap).2 = 0
  reset : ∀ heap, L.startPtr heap = 0 → L.startPtr (L.reset heap).2 = 0
  malloc : ∀ size heap r, L.startPtr heap = 0 → L.malloc size heap = some r → L.startPtr r.2 = 0
  free : ∀ ptr heap r, L.startPtr heap = 0 → L.free ptr heap = some r → L.startPtr r.2 = 0
  idle : ∀ heap, L.twoRegions = true → L.startPtr heap = 0 → L.Uninitialised heap

variable {L} {s s' : Tracked σ} {a : Action} {heap : σ} {acts : List Action}

/-- After a failed attempt the null pointer is back in place. -/
def Restored (L : Lifecycle σ) (s : Tracked σ) : Prop :=
  s.attempt = some 1 → L.twoRegions = true ∧ L.startPtr s.heap = 0

theorem Common.step (h : L.Common) (hs : L.Restored s) (hstep : L.step s a = some s')
    (hcond : L.failsFirst s a = false) : L.Restored s' := by
  cases a with
  | init size first second =>
    simp only [Lifecycle.step] at hstep
    split at hstep
    · cases hstep
      by_cases hzero : L.startPtr s.heap = 0
      · have hfirst : first ≠ MAP_FAILED := by simpa [failsFirst, hzero] using hcond
        intro hattempt
        simp only [if_pos hzero] at hattempt
        rcases h.mapped size first second s.heap hzero hfirst with hok | hback
        · rw [hok] at hattempt
          cases hattempt
        · exact hback
      · simp only [Restored, if_neg hzero, h.busy size first second s.heap hzero]
        exact hs
    · cases hstep
  | deinit =>
    cases hstep
    intro hattempt
    exact ⟨(hs hattempt).1, h.deinit _ (hs hattempt).2⟩
  | reset =>
    cases hstep
    intro hattempt
    exact ⟨(hs hattempt).1, h.reset _ (hs hattempt).2⟩
  | malloc size =>
    obtain ⟨r, hr, rfl⟩ := Option.map_eq_some_iff.mp hstep
    intro hattempt
    exact ⟨(hs hattempt).1, h.malloc _ _ r (hs hattempt).2 hr⟩
  | free ptr =>
    obtain ⟨r, hr, rfl⟩ := Option.map_eq_some_iff.mp hstep
    intro hattempt
    exact ⟨(hs hattempt).1, h.free _ _ r (hs hattempt).2 hr⟩

/-- In every state of the run, the instance behaves as an uninitialised one if the last attempt
to initialise it has failed. -/
def FailuresUndone (L : Lifecycle σ) (heap : σ) (acts : List Action) : Prop :=
  ∀ pre s, pre <+: acts → (L.machine heap).run { heap } pre = some s → s.attempt = some 1 →
    L.Uninitialised s.heap

/-- The first call of `mmap` succeeds in every attempt of the run. -/
def FirstMapSucceeds (L : Lifecycle σ) (heap : σ) (acts : List Action) : Prop :=
  ∀ pre a s s', pre ++ [a] <+: acts → (L.machine heap).run { heap } pre = some s →
    (L.machine heap).step s a = some s' → L.failsFirst s a = false

/-- An attempt whose first call of `mmap` fails leaves the instance neither initialised nor
uninitialised. -/
theorem Common.not_uninitialised (h : L.Common) (hstep : L.step s a = some s')
    (hfails : L.failsFirst s a = true) : s'.attempt = some 1 ∧ ¬ L.Uninitialised s'.heap := by
  cases a with
  | init size first second =>
    obtain ⟨hzero, rfl⟩ : L.startPtr s.heap = 0 ∧ first = MAP_FAILED := by
      simpa [failsFirst] using hfails
    obtain ⟨hresult, hptr⟩ := h.failed size second s.heap hzero
    simp only [Lifecycle.step] at hstep
    split at hstep
    · cases hstep
      refine ⟨congrArg some hresult, ?_⟩
      intro hidle
      have hnext := hidle.init 1 4096 4096 (by decide) (by decide) (by decide) (by decide)
      rw [h.busy 1 4096 4096 _ (by rw [hptr]; decide)] at hnext
      cases hnext
    · cases hstep
  | _ => cases hfails

theorem Common.undone_iff (h : L.Common) :
    L.FailuresUndone heap acts ↔ L.FirstMapSucceeds heap acts := by
  have hinit : L.Restored ({ heap } : Tracked σ) := nofun
  refine Machine.always_iff hinit ?_ ?_ ?_
  · intro s hs hattempt
    obtain ⟨htwo, hzero⟩ := hs hattempt
    exact h.idle s.heap htwo hzero
  · intro s a s' hs hstep hcond
    exact h.step hs hstep hcond
  · intro s a s' _ hstep hundone
    by_contra hfails
    rw [Bool.not_eq_false] at hfails
    obtain ⟨hattempt, hnot⟩ := h.not_uninitialised hstep hfails
    exact hnot (hundone hattempt)

end Lifecycle

/-- An allocator whose control block is the pair of pointers and the size of one region. -/
def oneRegion (I : Interface (Allocator × Memory)) (init : Allocator → ℕ → ℕ → ℕ × Allocator)
    (deinit : Allocator → ℕ × Allocator) : Lifecycle (Allocator × Memory) where
  toInterface := I
  init size first _ h := ((init h.1 size first).1, (init h.1 size first).2, h.2)
  deinit h := ((deinit h.1).1, (deinit h.1).2, h.2)
  startPtr h := h.1.startPtr

theorem oneRegion_common (I : Interface (Allocator × Memory))
    (hreset : ∀ h, I.reset h = (h.1.reset.1, h.1.reset.2, h.2))
    (hmalloc : ∀ size h r, I.malloc size h = some r → r.2.1.startPtr = h.1.startPtr)
    (hfree : ∀ ptr h r, I.free ptr h = some r → r.2.1.startPtr = h.1.startPtr) :
    (oneRegion I Allocator.init Allocator.deinit).Common where
  busy size first second h hne := by
    simp only [oneRegion, Allocator.init, if_pos (show h.1.startPtr ≠ 0 from hne)]
  failed size second h hzero := by
    simp [oneRegion, Allocator.init, show h.1.startPtr = 0 from hzero]
  mapped size first second h hzero hfirst := by
    simp [oneRegion, Allocator.init, show h.1.startPtr = 0 from hzero, hfirst]
  deinit h hzero := by
    simp only [oneRegion, Allocator.deinit, if_pos (show h.1.startPtr = 0 from hzero)]
    exact hzero
  reset h hzero := by
    simp only [oneRegion, hreset, Allocator.reset, if_pos (show h.1.startPtr = 0 from hzero)]
    exact hzero
  malloc size h r hzero hr := (hmalloc size h r hr).trans hzero
  free ptr h r hzero hr := (hfree ptr h r hr).trans hzero
  idle h htwo := by cases htwo

namespace Implicit

def lifecycle : Lifecycle (Allocator × Memory) := oneRegion interface allocInit allocDeinit

theorem common : lifecycle.Common := by
  apply oneRegion_common interface
  · exact fun h => rfl
  · intro size h r hr
    obtain ⟨⟨found, current⟩, -, rfl⟩ := Option.map_eq_some_iff.mp hr
    dsimp only
    split_ifs <;> rfl
  · intro ptr h r hr
    cases hr
    rfl

end Implicit

namespace Coalescing

def lifecycle : Lifecycle (Allocator × Memory) := oneRegion interface allocInit allocDeinit

theorem common : lifecycle.Common := by
  apply oneRegion_common interface
  · exact fun h => rfl
  · intro size h r hr
    obtain ⟨⟨found, current⟩, -, rfl⟩ := Option.map_eq_some_iff.mp hr
    dsimp only
    split_ifs <;> rfl
  · intro ptr h r hr
    cases hr
    rfl

end Coalescing

namespace Explicit

def lifecycle : Lifecycle (Allocator × State) where
  toInterface := interface
  init size first _ h := allocInit h.1 h.2 size first
  deinit h := allocDeinit h.1 h.2
  startPtr h := h.1.startPtr

theorem startPtr_of_malloc {a : Allocator} {s : State} {size : ℕ} {r : ℕ × Allocator × State}
    (h : allocMalloc a s size = some r) : r.2.1.startPtr = a.startPtr := by
  rw [allocMalloc_eq] at h
  obtain ⟨found, -, hfound⟩ := Option.bind_eq_some_iff.mp h
  cases found with
  | some current =>
    cases hfound
    rfl
  | none =>
    cases hfound
    unfold append
    split_ifs <;> rfl

theorem common : lifecycle.Common where
  busy size first second h hne := if_pos hne
  failed size second h hzero := by
    simp [lifecycle, allocInit, show h.1.startPtr = 0 from hzero]
  mapped size first second h hzero hfirst := by
    simp [lifecycle, allocInit, show h.1.startPtr = 0 from hzero, hfirst]
  deinit h hzero := by
    simp only [lifecycle, allocDeinit, if_pos (show h.1.startPtr = 0 from hzero)]
    exact hzero
  reset h hzero := by
    simp only [lifecycle, interface, allocReset, if_pos (show h.1.startPtr = 0 from hzero)]
    exact hzero
  malloc size h r hzero hr := (startPtr_of_malloc hr).trans hzero
  free ptr h r hzero hr := by
    cases hr
    exact hzero
  idle h htwo := by cases htwo

end Explicit

namespace Improved

def lifecycle : Lifecycle (SoaAllocator × Memory) where
  toInterface := interface
  init size first second h :=
    ((allocInit h.1 size first second).1, (allocInit h.1 size first second).2, h.2)
  deinit h := ((allocDeinit h.1).1, (allocDeinit h.1).2, h.2)
  startPtr h := h.1.metaStartPtr
  twoRegions := true

theorem serve_idle {a : SoaAllocator} (m : Memory) (size : ℕ) (h : a.metaStartPtr = 0) :
    allocMalloc a m size = some (0, a, m) := by
  rw [allocMalloc, serve, if_pos h]
  rfl

theorem uninitialised {h : SoaAllocator × Memory} (hzero : h.1.metaStartPtr = 0) :
    lifecycle.Uninitialised h where
  init size first second _ _ hfirst hsecond := by
    simp [lifecycle, allocInit, hzero, hfirst, hsecond]
  deinit := by simp only [lifecycle, allocDeinit, if_pos hzero]
  reset := by simp only [lifecycle, interface, allocReset, if_pos hzero]
  malloc size := ⟨h, serve_idle h.2 size hzero⟩

theorem common : lifecycle.Common where
  busy size first second h hne := by
    simp only [lifecycle, allocInit, if_pos (show h.1.metaStartPtr ≠ 0 from hne)]
  failed size second h hzero := by
    simp [lifecycle, allocInit, show h.1.metaStartPtr = 0 from hzero]
  mapped size first second h hzero hfirst := by
    by_cases hsecond : second = MAP_FAILED
    · right
      simp [lifecycle, allocInit, show h.1.metaStartPtr = 0 from hzero, hfirst, hsecond]
    · left
      simp [lifecycle, allocInit, show h.1.metaStartPtr = 0 from hzero, hfirst, hsecond]
  deinit h hzero := by
    simp only [lifecycle, allocDeinit, if_pos (show h.1.metaStartPtr = 0 from hzero)]
    exact hzero
  reset h hzero := by
    simp only [lifecycle, interface, allocReset, if_pos (show h.1.metaStartPtr = 0 from hzero)]
    exact hzero
  malloc size h r hzero hr := by
    cases (serve_idle h.2 size hzero).symm.trans hr
    exact hzero
  free ptr h r hzero hr := by
    cases hr
    exact hzero
  idle h _ hzero := uninitialised hzero

end Improved

/-- A failed call of `alloc_init` leaves a zero-initialised instance uninitialised, throughout a
run of any of the four allocators, exactly when the first call of `mmap` never fails. -/
theorem failuresUndone_iff (m : Memory) (acts : List Lifecycle.Action) :
    (Implicit.lifecycle.FailuresUndone ({}, m) acts ↔
      Implicit.lifecycle.FirstMapSucceeds ({}, m) acts) ∧
    (Improved.lifecycle.FailuresUndone ({}, m) acts ↔
      Improved.lifecycle.FirstMapSucceeds ({}, m) acts) ∧
    (Coalescing.lifecycle.FailuresUndone ({}, m) acts ↔
      Coalescing.lifecycle.FirstMapSucceeds ({}, m) acts) ∧
    (Explicit.lifecycle.FailuresUndone ({}, ⟨m, 0⟩) acts ↔
      Explicit.lifecycle.FirstMapSucceeds ({}, ⟨m, 0⟩) acts) :=
  ⟨Implicit.common.undone_iff, Improved.common.undone_iff,
    Coalescing.common.undone_iff, Explicit.common.undone_iff⟩

/-- After an attempt that fails, the next one is refused although its region is mapped, and there
is something to unmap. -/
theorem failedInit_blocks :
    ¬ Implicit.lifecycle.FailuresUndone ({}, fun _ => 0) [.init 4096 MAP_FAILED MAP_FAILED] ∧
    ¬ Improved.lifecycle.FailuresUndone ({}, fun _ => 0) [.init 4096 MAP_FAILED MAP_FAILED] ∧
    ¬ Coalescing.lifecycle.FailuresUndone ({}, fun _ => 0) [.init 4096 MAP_FAILED MAP_FAILED] ∧
    ¬ Explicit.lifecycle.FailuresUndone ({}, ⟨fun _ => 0, 0⟩)
      [.init 4096 MAP_FAILED MAP_FAILED] := by
  refine ⟨?_, ?_, ?_, ?_⟩ <;> intro h
  · have hidle := h _ ⟨({ startPtr := MAP_FAILED }, fun _ => 0), some 1⟩
      (List.prefix_refl _) rfl rfl
    cases hidle.init 4096 8192 8192 rfl rfl (by decide) (by decide)
  · have hidle := h _ ⟨({ metaStartPtr := MAP_FAILED }, fun _ => 0), some 1⟩ (List.prefix_refl _)
      rfl rfl
    cases hidle.init 4096 8192 8192 rfl rfl (by decide) (by decide)
  · have hidle := h _ ⟨({ startPtr := MAP_FAILED }, fun _ => 0), some 1⟩
      (List.prefix_refl _) rfl rfl
    cases hidle.deinit
  · have hidle := h _ ⟨({ startPtr := MAP_FAILED }, ⟨fun _ => 0, 0⟩), some 1⟩ (List.prefix_refl _)
      rfl rfl
    cases hidle.deinit

end LowLevel.Allocators
