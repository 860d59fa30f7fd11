import LowLevel.Allocators.CoalescingHeap
import LowLevel.Allocators.ExplicitRuns
import LowLevel.Allocators.Stale

/-! # Giving a pointer back twice

Both boundary-tag allocators look at the flag in front of a pointer before they
merge its block. The flag of a block that was merged into the one before is not
cleared, so giving its pointer back again is refused only when a later remainder
happens to begin there.
-/

namespace LowLevel.Allocators

open Memory

/-- What an allocator leaves alone, beside acting as an abstract one. -/
structure Leaves {σ τ : Type} (L : Layout σ) (I : Interface σ) (J : Interface τ) (rules : Rules)
    (base : ℕ) (blocks : τ → List Block) (Rep : σ → τ → Prop) : Prop where
  simulates : Simulates I J rules base L.mem blocks Rep
  start : ∀ {h t}, Rep h t → (L.control h).startPtr = base ∧ 8 ∣ base
  tiled : ∀ {h t}, Rep h t → Tiled (L.mem h) base (blocks t) (L.control h).lastPtr
  links : ∀ {h t}, Rep h t → L.linked = true → ∀ z ∈ located base (blocks t), z.2.free = true →
    (L.mem h).read64 (z.1 + 16) ≠ 0 ∧ (L.mem h).read64 (z.1 + 24) ≠ 0
  malloc : ∀ {h t n p h' t'}, Rep h t → n ≤ rules.maxSize → I.malloc n h = some (p, h') →
    J.malloc n t = some (p, t') → (∃ r, 8 ∣ r ∧ Served base r (blocks t) p (blocks t')) ∧
      SameInside L.lead base (blocks t') (L.mem h) (L.mem h')
  free : ∀ {h t pre b post code h'}, Rep h t → blocks t = pre ++ b :: post → b.free = false →
    I.free (endOf base pre + 16) h = some (code, h') →
      SameInside L.lead base (release pre b post) (L.mem h) (L.mem h')

namespace Watched

variable {σ τ : Type} {L : Layout σ} {I : Interface σ} {J : Interface τ} {rules : Rules} {base : ℕ}
  {blocks : τ → List Block} {Rep : σ → τ → Prop} {w w' : Watched σ} {d : Client τ} {act : Action}

structure Tracks (L : Layout σ) (base : ℕ) (blocks : τ → List Block) (Rep : σ → τ → Prop)
    (w : Watched σ) (d : Client τ) : Prop where
  agree : Agree base blocks Rep w.client d
  aligned : Aligned (blocks d.heap)
  stale : ∀ f ∈ w.freed, Stale base (blocks d.heap) (L.mem w.client.heap) f

theorem step_eq_some : w.step L I rules act = some w' ↔ w.client.allowed I rules act = true ∧
    ∃ c, w.client.exec I act = some c ∧ w' = ⟨c, w.follow L act c⟩ := by
  rw [step, Option.map_eq_some_iff]
  simp only [Client.step, Option.ite_none_right_eq_some, eq_comm (b := w')]
  constructor
  · rintro ⟨c, ⟨hact, hc⟩, rfl⟩
    exact ⟨hact, c, hc, rfl⟩
  · rintro ⟨hact, c, hc, rfl⟩
    exact ⟨c, ⟨hact, hc⟩, rfl⟩

variable (hleaves : Leaves L I J rules base blocks Rep)

include hleaves

theorem freeWords {h : σ} {t : τ} (hrep : Rep h t) (haligned : Aligned (blocks t)) :
    FreeWords L.linked base (blocks t) (L.mem h) where
  base := (hleaves.start hrep).2
  aligned := haligned
  flags z hz hfree := by
    rw [((hleaves.tiled hrep).tags z hz).allocated, hfree]
    rfl
  links := hleaves.links hrep

theorem Tracks.malloc {n : ℕ} {c : Client σ} (h : Tracks L base blocks Rep w d)
    (hact : w.client.allowed I rules (.malloc n) = true)
    (hexec : w.client.exec I (.malloc n) = some c) :
    ∃ d', Tracks L base blocks Rep ⟨c, w.follow L (.malloc n) c⟩ d' := by
  obtain ⟨hmin, hmax⟩ := Client.allowed_malloc.mp hact
  obtain ⟨p, h', t', r, hI, hJ, hrep, hr, hserved, -⟩ :=
    hleaves.simulates.malloc h.agree.heap hmin hmax
  obtain ⟨⟨r', hr', hserved'⟩, hsame⟩ := hleaves.malloc h.agree.heap hmax hI hJ
  obtain ⟨c', d', hc, -, hagree, rfl, rfl, -⟩ := h.agree.malloc hI hJ hrep hr hserved
  obtain rfl : c' = c := Option.some.inj (hc.symm.trans hexec)
  have hlog : c'.log.getLastD 0 = p := by
    rw [← congrArg Client.log (Option.some.inj ((Client.exec_malloc hI).symm.trans hexec))]
    simp
  have haligned' := h.aligned.served hserved' hr'
  have hw := freeWords hleaves h.agree.heap h.aligned
  have hw' := freeWords hleaves hrep haligned'
  refine ⟨d', hagree, haligned', fun f hf => ?_⟩
  simp only [follow, hlog] at hf
  by_cases hp : p = 0
  · -- no memory was handed out, and the blocks are as before
    subst hp
    rw [if_pos rfl] at hf
    have hsame' := hserved'.eq_of_null rfl
    obtain ⟨⟨z, hz, hfree, hin⟩, haligned, hflag⟩ := h.stale f hf
    have hz' : z ∈ located base (blocks d'.heap) := hsame' ▸ hz
    refine ⟨⟨z, hz', hfree, hin⟩, haligned, ?_⟩
    rw [← hflag]
    exact hw.flag_iff hw' hsame hz hfree hin hz' hfree hin haligned (Or.inl rfl)
  · rw [if_neg hp] at hf
    obtain ⟨f₀, hf₀, hout⟩ := List.mem_filterMap.mp hf
    exact (h.stale f₀ hf₀).malloc hw hw' hsame hserved' hp (hleaves.tiled hrep).tags hout

theorem Tracks.free {p : ℕ} {c : Client σ} (h : Tracks L base blocks Rep w d)
    (hact : w.client.allowed I rules (.free p) = true)
    (hexec : w.client.exec I (.free p) = some c) :
    ∃ d', Tracks L base blocks Rep ⟨c, w.follow L (.free p) c⟩ d' := by
  have hp : p ∈ w.client.live.map Prod.fst := by
    simpa only [hleaves.simulates.once, Bool.false_eq_true, false_and, or_false] using
      Client.allowed_free.mp hact
  obtain ⟨pre, b, post, hblocks, hlive, rfl⟩ := h.agree.split hp
  obtain ⟨code, h', t', hI, hJ, hrep, hblocks', -⟩ :=
    hleaves.simulates.free h.agree.heap hblocks hlive
  have hsame := hleaves.free h.agree.heap hblocks hlive hI
  obtain ⟨c', d', hc, -, hagree, rfl, rfl, -⟩ :=
    h.agree.free hI hJ hrep rfl hblocks hlive hblocks'
  obtain rfl : c' = c := Option.some.inj (hc.symm.trans hexec)
  have haligned := h.aligned
  rw [hblocks] at haligned
  have haligned' : Aligned (blocks d'.heap) := hblocks' ▸ haligned.release
  have hw := freeWords hleaves h.agree.heap h.aligned
  have hw' := freeWords hleaves hrep haligned'
  have htiled := hleaves.tiled h.agree.heap
  obtain ⟨hstart, -⟩ := hleaves.start h.agree.heap
  rw [hblocks] at hw htiled
  rw [hblocks'] at hw'
  have htags := htiled.tags _ (mem_located_middle ..)
  refine ⟨d', hagree, haligned', fun f hf => ?_⟩
  rw [hblocks']
  rcases List.mem_cons.mp hf with rfl | hf
  · rw [Nat.add_sub_cancel, htags.size]
    refine Stale.freed hw hw' hsame hlive htags ?_
    rw [← hstart] at htiled ⊢
    rw [Bool.not_eq_true', ← Bool.not_eq_true, leftFree_iff htiled, not_not]
  · exact (hblocks ▸ h.stale f hf).free hw hw' hsame hlive

theorem Tracks.reset {c : Client σ} (h : Tracks L base blocks Rep w d)
    (hexec : w.client.exec I .reset = some c) :
    ∃ d', Tracks L base blocks Rep ⟨c, w.follow L .reset c⟩ d' := by
  obtain ⟨hcode, hrep, hblocks⟩ := hleaves.simulates.reset h.agree.heap
  obtain ⟨c', d', hc, -, hagree, -, hd'⟩ := h.agree.reset hcode hrep hblocks
  obtain rfl : c' = c := Option.some.inj (hc.symm.trans hexec)
  refine ⟨d', hagree, ?_, fun f hf => absurd hf List.not_mem_nil⟩
  rw [hd', hblocks]
  exact fun b hb => by cases hb

theorem Tracks.write {q i : ℕ} {v : UInt8} {c : Client σ} (h : Tracks L base blocks Rep w d)
    (hact : w.client.allowed I rules (.write q i v) = true)
    (hexec : w.client.exec I (.write q i v) = some c) :
    ∃ d', Tracks L base blocks Rep ⟨c, w.follow L (.write q i v) c⟩ d' := by
  obtain ⟨y, hy, rfl, hi⟩ := Client.allowed_write.mp hact
  obtain ⟨z, hz, hyz, -, hsize, -⟩ := hleaves.simulates.block h.agree hy
  obtain ⟨c', d', hc, -, hagree, -, hblocks, hmem⟩ := hleaves.simulates.exec_write v h.agree hy hi
  obtain rfl : c' = c := Option.some.inj (hc.symm.trans hexec)
  refine ⟨d', hagree, hblocks ▸ h.aligned, fun f hf => ?_⟩
  rw [hblocks]
  refine (h.stale f hf).congr fun x hx hfree k hk hk' => ?_
  rw [hmem]
  apply poke_of_ne
  obtain ⟨hz, hlive⟩ := mem_liveBlocks.mp hz
  rcases located_disjoint hx hz with rfl | hd | hd
  · rw [hfree] at hlive
    cases hlive
  · omega
  · rw [Block.extent] at hd
    omega

theorem Tracks.step (h : Tracks L base blocks Rep w d) (hstep : w.step L I rules act = some w') :
    ∃ d', Tracks L base blocks Rep w' d' := by
  obtain ⟨hact, c, hexec, rfl⟩ := step_eq_some.mp hstep
  cases act with
  | malloc n => exact h.malloc hleaves hact hexec
  | free p => exact h.free hleaves hact hexec
  | reset => exact h.reset hleaves hexec
  | write q i v => exact h.write hleaves hact hexec

/-- In every state of a watched run, the word in front of a pointer that was given back is as the
record says, and the pointer is still in the used part of the region. -/
theorem reachable_stale {heap : σ} {t : τ} (hstart : Agree base blocks Rep { heap } { heap := t })
    (ht : blocks t = []) (hw : (machine L I rules heap).Reachable w) :
    ∀ f ∈ w.freed, ((L.mem w.client.heap).read64 (f.ptr - 8) = 0 ↔ f.cleared = true) ∧
      (L.control w.client.heap).startPtr + 16 ≤ f.ptr ∧
      f.ptr < (L.control w.client.heap).lastPtr := by
  have htracks : ∃ d, Tracks L base blocks Rep w d := by
    refine hw.invariant (P := fun w => ∃ d, Tracks L base blocks Rep w d) ?_ ?_
    · refine ⟨{ heap := t }, hstart, ?_, fun f hf => absurd hf List.not_mem_nil⟩
      rw [ht]
      exact fun b hb => by cases hb
    · rintro w act w' ⟨d, hd⟩ hstep
      exact hd.step hleaves hstep
  obtain ⟨d, hd⟩ := htracks
  intro f hf
  obtain ⟨⟨z, hz, -, hlo, hhi⟩, -, hflag⟩ := hd.stale f hf
  have hbounds := (hleaves.tiled hd.agree.heap).bounds hz
  have := (hleaves.start hd.agree.heap).1
  exact ⟨hflag, by omega, by omega⟩

end Watched

namespace Coalescing

def layout : Layout (Allocator × Memory) := ⟨Prod.fst, Prod.snd, false⟩

theorem leaves (base size : ℕ) : Leaves layout interface (FirstFit.interface base size)
    (regionRules size) base id (Decodes base size) where
  simulates := simulates base size
  start h := ⟨h.start_eq, (by decide : 8 ∣ 4096).trans h.mapped.page⟩
  tiled h := h.tiled
  links _ hlinked := by cases hlinked
  malloc := by
    rintro ⟨a, m⟩ bs n p h' bs' hrep hmax hI hJ
    obtain ⟨h'', heq, -, -, hinside⟩ := malloc_refines hrep (hrep.no_overflow hmax)
    obtain ⟨hp, rfl⟩ := Prod.mk.inj (Option.some.inj (heq.symm.trans hI))
    obtain rfl : (FirstFit.malloc base size n bs).2 = bs' := congrArg Prod.snd (Option.some.inj hJ)
    refine ⟨⟨FirstFit.roundUp16 n, ?_, ?_⟩, hinside⟩
    · unfold FirstFit.roundUp16
      omega
    · rw [← hp]
      exact FirstFit.malloc_served base size n bs
  free := by
    rintro ⟨a, m⟩ bs pre b post code h' hrep hbs hlive hI
    obtain rfl : bs = pre ++ b :: post := hbs
    obtain ⟨m', heq, -, -, hinside⟩ := free_refines hrep hlive
    simp only [interface, heq] at hI
    obtain ⟨-, rfl⟩ := Prod.mk.inj (Option.some.inj hI)
    exact hinside

theorem allocFree_refused_iff {a : Allocator} {m : Memory} {ptr : ℕ} (hlo : a.startPtr + 16 ≤ ptr)
    (hhi : ptr < a.lastPtr) : allocFree a m ptr = (1, m) ↔ m.read64 (ptr - 8) = 0 := by
  change _ ↔ (parseHeader m ptr).allocated = 0
  rw [allocFree, if_neg (by omega)]
  by_cases hflag : (parseHeader m ptr).allocated = 0
  · simp only [if_pos hflag]
    exact iff_of_true trivial hflag
  · simp only [if_neg hflag, Prod.mk.injEq, zero_ne_one, false_and]
    exact iff_of_false id hflag

end Coalescing

namespace Explicit

def layout : Layout (Allocator × State) := ⟨Prod.fst, fun h => h.2.mem, true⟩

theorem leaves (base size : ℕ) : Leaves layout interface (Model.interface base size)
    (regionRules size) base Model.blocks (Sized base size) where
  simulates := simulates base size
  start := by
    rintro h M ⟨⟨rfl, rfl, hheap⟩, -⟩
    exact ⟨rfl, (by decide : 8 ∣ 4096).trans hheap.mapped.page⟩
  tiled := by
    rintro h M ⟨⟨rfl, rfl, hheap⟩, -⟩
    exact hheap.tiled
  links := by
    rintro h M ⟨⟨rfl, rfl, hheap⟩, -⟩ - z hz hfree
    have hmem : z.1 ∈ M.ring := hheap.perm.mem_iff.mpr (mem_freeAddrs.mpr ⟨z.2, hz, hfree⟩)
    obtain ⟨hprev, hnext⟩ := hheap.list.links_mem hmem
    exact ⟨(hheap.nodes.pos _ hprev).ne', (hheap.nodes.pos _ hnext).ne'⟩
  malloc := by
    rintro h M n p h' M' ⟨hrep, -⟩ hmax hI hJ
    obtain ⟨hn, hlast⟩ := hrep.no_overflow hmax
    obtain ⟨h'', heq, -, hserved, -, hinside⟩ := hrep.malloc hlast
    obtain ⟨hp, rfl⟩ := Prod.mk.inj (Option.some.inj (heq.symm.trans hI))
    obtain rfl : (M.malloc base size (roundUp n)).2 = M' :=
      congrArg Prod.snd (Option.some.inj hJ)
    have hmod := (roundUp_spec hn).2.2
    exact ⟨⟨roundUp n, by omega, hp ▸ hserved⟩, hinside⟩
  free := by
    rintro h M pre b post code h' ⟨hrep, hsizes⟩ hM hlive hI
    have hb := hsizes b (by simp [hM])
    obtain ⟨h'', heq, -, -, -, hinside⟩ :=
      hrep.free hM hlive (hb.trans (le_merged_size pre b post))
    obtain ⟨-, rfl⟩ := Prod.mk.inj (Option.some.inj (heq.symm.trans hI))
    exact hinside

theorem allocFree_refused_iff {a : Allocator} {s : State} {ptr : ℕ} (hlo : a.startPtr + 16 ≤ ptr)
    (hhi : ptr < a.lastPtr) : allocFree a s ptr = (1, s) ↔ s.mem.read64 (ptr - 8) = 0 := by
  rw [allocFree, if_neg (by omega), show ptr - 16 + 8 = ptr - 8 by omega]
  by_cases hflag : s.mem.read64 (ptr - 8) = 0
  · rw [if_pos hflag]
    exact iff_of_true rfl hflag
  · rw [if_neg hflag]
    refine iff_of_false ?_ hflag
    obtain ⟨n, s₁⟩ := coalesceFront a s ptr (s.mem.read64 (ptr - 16))
    obtain ⟨hdr, n', s₂⟩ := coalesceBack a s₁ ptr n
    intro h
    exact zero_ne_one (congrArg Prod.fst h)

end Explicit

section Runs

variable {size mmap : ℕ} {a a' b b' : Allocator} {s s' : Explicit.State}

/-- A pointer that was given back, and whose block was not handed out since, is refused exactly if
the word in front of it was last written as the flag of a free block. -/
theorem refused_iff_cleared (m : Memory) (hmapped : Mapped mmap size)
    (hinit : Coalescing.allocInit a size mmap = (0, a')) (hhead : s.head = 0)
    (hinit' : Explicit.allocInit b s size mmap = (0, b', s')) :
    (∀ w, (Watched.machine Coalescing.layout Coalescing.interface (Coalescing.regionRules size)
        (a', m)).Reachable w → ∀ f ∈ w.freed,
      (Coalescing.allocFree w.client.heap.1 w.client.heap.2 f.ptr = (1, w.client.heap.2) ↔
        f.cleared = true)) ∧
    ∀ w, (Watched.machine Explicit.layout Explicit.interface (Explicit.regionRules size)
        (b', s')).Reachable w → ∀ f ∈ w.freed,
      (Explicit.allocFree w.client.heap.1 w.client.heap.2 f.ptr = (1, w.client.heap.2) ↔
        f.cleared = true) := by
  constructor
  · intro w hw f hf
    obtain ⟨hflag, hlo, hhi⟩ := Watched.reachable_stale (Coalescing.leaves mmap size)
      (Coalescing.init_agree m hmapped hinit) rfl hw f hf
    exact (Coalescing.allocFree_refused_iff hlo hhi).trans hflag
  · intro w hw f hf
    obtain ⟨hflag, hlo, hhi⟩ := Watched.reachable_stale (Explicit.leaves mmap size)
      (Explicit.init_sound hmapped hhead hinit') rfl hw f hf
    exact (Explicit.allocFree_refused_iff hlo hhi).trans hflag

/-- Watched clients of the two allocators on a page of zeros. -/
def coalescingPage : Machine (Watched (Allocator × Memory)) Action :=
  Watched.machine Coalescing.layout Coalescing.interface (Coalescing.regionRules 4096)
    (⟨4096, 4096, 4096⟩, fun _ => 0)

def explicitPage : Machine (Watched (Allocator × Explicit.State)) Action :=
  Watched.machine Explicit.layout Explicit.interface (Explicit.regionRules 4096) Explicit.pageInit.2

/-- Two blocks are given back; the second one is merged into the first. -/
def mergedActs : List Action := [.malloc 16, .malloc 16, .free 4112, .free 4152]

/-- The second pointer is accepted once more. -/
theorem merged_accepted_again :
    (∃ w, coalescingPage.run coalescingPage.init mergedActs = some w ∧ ∃ f ∈ w.freed,
      Coalescing.allocFree w.client.heap.1 w.client.heap.2 f.ptr ≠ (1, w.client.heap.2)) ∧
    ∃ w, explicitPage.run explicitPage.init mergedActs = some w ∧ ∃ f ∈ w.freed,
      Explicit.allocFree w.client.heap.1 w.client.heap.2 f.ptr ≠ (1, w.client.heap.2) := by
  constructor
  · have hrun : (coalescingPage.run coalescingPage.init mergedActs).map (fun w =>
        (w.freed, (Coalescing.allocFree w.client.heap.1 w.client.heap.2 4152).1)) =
        some ([⟨4152, 16, false⟩, ⟨4112, 16, true⟩], 0) := by decide +kernel
    obtain ⟨w, hw, heq⟩ := Option.map_eq_some_iff.mp hrun
    obtain ⟨hfreed, hcode⟩ := Prod.mk.inj heq
    refine ⟨w, hw, ⟨4152, 16, false⟩, by simp [hfreed], fun h => ?_⟩
    rw [h] at hcode
    cases hcode
  · have hrun : (explicitPage.run explicitPage.init mergedActs).map (fun w =>
        (w.freed, (Explicit.allocFree w.client.heap.1 w.client.heap.2 4152).1)) =
        some ([⟨4152, 16, false⟩, ⟨4112, 16, true⟩], 0) := by decide +kernel
    obtain ⟨w, hw, heq⟩ := Option.map_eq_some_iff.mp hrun
    obtain ⟨hfreed, hcode⟩ := Prod.mk.inj heq
    refine ⟨w, hw, ⟨4152, 16, false⟩, by simp [hfreed], fun h => ?_⟩
    rw [h] at hcode
    cases hcode

/-- The first pointer of the run is refused by both allocators. -/
theorem refused_iff_cleared_first :
    (∃ w, coalescingPage.run coalescingPage.init mergedActs = some w ∧
      Coalescing.allocFree w.client.heap.1 w.client.heap.2 4112 = (1, w.client.heap.2)) ∧
    ∃ w, explicitPage.run explicitPage.init mergedActs = some w ∧
      Explicit.allocFree w.client.heap.1 w.client.heap.2 4112 = (1, w.client.heap.2) := by
  obtain ⟨hcoalescing, hexplicit⟩ := refused_iff_cleared (a := {}) (b := {})
    (s := ⟨fun _ => 0, 0⟩) (fun _ => 0) Explicit.page_mapped rfl rfl rfl
  constructor
  · have hrun : (coalescingPage.run coalescingPage.init mergedActs).map Watched.freed =
        some [⟨4152, 16, false⟩, ⟨4112, 16, true⟩] := by decide +kernel
    obtain ⟨w, hw, hfreed⟩ := Option.map_eq_some_iff.mp hrun
    have hiff := hcoalescing w ⟨_, hw⟩ ⟨4112, 16, true⟩ (by simp [hfreed])
    exact ⟨w, hw, hiff.mpr rfl⟩
  · have hrun : (explicitPage.run explicitPage.init mergedActs).map Watched.freed =
        some [⟨4152, 16, false⟩, ⟨4112, 16, true⟩] := by decide +kernel
    obtain ⟨w, hw, hfreed⟩ := Option.map_eq_some_iff.mp hrun
    have hiff := hexplicit w ⟨_, hw⟩ ⟨4112, 16, true⟩ (by simp [hfreed])
    exact ⟨w, hw, hiff.mpr rfl⟩

/-- The links of a remainder are written over the word in front of the second pointer. -/
example : (explicitPage.run explicitPage.init [.malloc 32, .malloc 16, .free 4168, .free 4112,
    .malloc 16]).map Watched.freed = some [⟨4168, 16, false⟩] := by
  decide +kernel

end Runs

end LowLevel.Allocators
