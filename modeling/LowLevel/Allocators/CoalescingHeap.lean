import LowLevel.Allocators.Coalescing
import LowLevel.Allocators.FirstFit
import LowLevel.Allocators.Simulation
import Mathlib.Algebra.Order.Ring.Nat

/-! # The coalescing allocator refines first fit

The memory of an instance decodes to a list of blocks, and the allocator does to
memory what first fit does to that list. One look at each side is enough for
merging because free blocks are never neighbours.
-/

namespace LowLevel.Allocators.Coalescing

open Memory FirstFit

structure Decodes (base size : ℕ) (h : Allocator × Memory) (bs : List Block) : Prop where
  start_eq : h.1.startPtr = base
  size_eq : h.1.size = size
  mapped : Mapped base size
  tiled : Tiled h.2 base bs h.1.lastPtr
  room : h.1.lastPtr ≤ base + size
  separated : Separated bs

section Search

variable {m : Memory} {x last r : ℕ} {pre post bs : List Block} {b : Block}

theorem search_unfit {fuel : ℕ} (htags : Tags m (x, b)) (hlast : x < last)
    (hb : unfit r b = true) :
    search m last r (fuel + 1) x = search m last r fuel (x + b.extent) := by
  have hfit : ¬ (m.read64 (x + 8) = 0 ∧ r ≤ m.read64 x) := by
    rw [htags.allocated, htags.size]
    rintro ⟨hfree, hr⟩
    cases hb' : b.free with
    | true => simp [unfit, hb', hr] at hb
    | false => simp [hb'] at hfree
  rw [search, if_pos hlast]
  simp only [parseHeader, Nat.add_sub_cancel]
  rw [show x + 16 - 8 = x + 8 by omega, if_neg hfit, htags.size, Block.extent]
  congr 1
  simp only
  omega

theorem search_pass {fuel : ℕ} (htags : ∀ z ∈ located x pre, Tags m z) (hlast : endOf x pre ≤ last)
    (hpre : ∀ c ∈ pre, unfit r c = true) :
    search m last r (fuel + pre.length) x = search m last r fuel (endOf x pre) := by
  induction pre generalizing x with
  | nil => rfl
  | cons b pre ih =>
    have hle := le_endOf (x + b.extent) pre
    rw [endOf_cons] at hlast
    have hext : x < x + b.extent := by
      rw [Block.extent]
      omega
    have hlt : x < last := by omega
    rw [List.length_cons, ← Nat.add_assoc, search_unfit (htags _ (List.mem_cons_self ..)) hlt
      (hpre b (List.mem_cons_self ..)), endOf_cons]
    exact ih (fun z hz => htags z (List.mem_cons_of_mem _ hz)) hlast
      fun c hc => hpre c (List.mem_cons_of_mem _ hc)

/-- Every block takes space, so there are fewer blocks than addresses. -/
theorem length_le_endOf (x : ℕ) (bs : List Block) : x + bs.length ≤ endOf x bs := by
  induction bs generalizing x with
  | nil => exact le_rfl
  | cons b bs ih =>
    have := ih (x + b.extent)
    rw [endOf_cons, List.length_cons]
    rw [Block.extent] at *
    omega

theorem search_found (h : Tiled m x (pre ++ b :: post) last) (hlt : last < 2 ^ 64)
    (hpre : ∀ c ∈ pre, unfit r c = true) (hfree : b.free = true) (hr : r ≤ b.size) :
    search m last r (2 ^ 64) x = some (true, endOf x pre) := by
  have htags := h.tags _ (mem_located_middle x pre b post)
  have hbounds := h.bounds (mem_located_middle x pre b post)
  have hlen := length_le_endOf x pre
  simp only [Block.extent] at hbounds
  obtain ⟨fuel, hfuel⟩ : ∃ fuel, 2 ^ 64 = fuel + 1 + pre.length :=
    ⟨2 ^ 64 - 1 - pre.length, by omega⟩
  rw [hfuel, search_pass (fun z hz => h.tags z (by simp [hz])) (by omega) hpre, search,
    if_pos (by omega)]
  simp only [parseHeader, Nat.add_sub_cancel]
  rw [show endOf x pre + 16 - 8 = endOf x pre + 8 by omega, if_pos]
  refine ⟨?_, htags.size ▸ hr⟩
  rw [htags.allocated, hfree]
  rfl

theorem search_none (h : Tiled m x bs last) (hlt : last < 2 ^ 64)
    (hbs : ∀ c ∈ bs, unfit r c = true) : search m last r (2 ^ 64) x = some (false, last) := by
  have hlen := length_le_endOf x bs
  rw [h.last] at hlen
  obtain ⟨fuel, hfuel⟩ : ∃ fuel, 2 ^ 64 = fuel + 1 + bs.length :=
    ⟨2 ^ 64 - 1 - bs.length, by omega⟩
  rw [hfuel, search_pass h.tags h.last.le hbs, search, h.last, if_neg (lt_irrefl _)]

end Search

section Words

variable {m : Memory} {x r : ℕ} {b : Block}

theorem take_split (htags : Tags m (x, b)) (hsplit : r + 40 ≤ b.size) :
    m.AgreeOutside (take m x r) x (x + b.extent) ∧ Tags (take m x r) (x, ⟨r, false⟩) ∧
      Tags (take m x r) (x + (r + 24), ⟨b.size - r - 24, true⟩) ∧
      ∀ k, x + r + 40 ≤ k → k < x + b.size + 16 → take m x r k = m k := by
  have hsize : m.read64 x = b.size := htags.size
  have hlt := m.read64_lt x
  rw [hsize] at hlt
  have htake : take m x r = (((((m.write64 x r).write64 (x + 8) 1).write64 (x + 16 + r) r).write64
      (x + (r + 24)) (b.size - r - 24)).write64 (x + (r + 24) + 8) 0).write64
      (x + (r + 24) + 16 + (b.size - r - 24)) (b.size - r - 24) := by
    rw [take, hsize, if_pos (by rw [ALIGN]; omega)]
    simp only [Nat.add_assoc, Nat.add_comm, Nat.add_left_comm]
  rw [htake]
  refine ⟨?_, ⟨?_, ?_, ?_⟩, ⟨?_, ?_, ?_⟩, ?_⟩
  · rw [Block.extent]
    exact ((((((AgreeOutside.refl m _ _).write64 (by omega) (by omega)).write64 (by omega)
      (by omega)).write64 (by omega) (by omega)).write64 (by omega) (by omega)).write64 (by omega)
      (by omega)).write64 (by omega) (by omega)
  · simp (disch := omega) only [read64_write64_of_disjoint, read64_write64_self]
  · simp (disch := omega) only [read64_write64_of_disjoint, read64_write64_self]
    rfl
  · simp (disch := omega) only [read64_write64_of_disjoint, read64_write64_self]
  · simp (disch := omega) only [read64_write64_of_disjoint, read64_write64_self]
  · simp (disch := omega) only [read64_write64_of_disjoint, read64_write64_self]
    rfl
  · simp (disch := omega) only [read64_write64_self]
  · intro k hk hk'
    simp (disch := omega) only [write64_of_disjoint]

theorem take_run (htags : Tags m (x, b)) (hr : r + 40 < 2 ^ 64) :
    m.AgreeOutside (take m x r) x (x + b.extent) ∧
      (∀ z ∈ located x (carve r b), Tags (take m x r) z) ∧
      SameInside 16 x (carve r b) m (take m x r) := by
  by_cases hsplit : r + 40 ≤ b.size
  · obtain ⟨hagree, htag₁, htag₂, hinside⟩ := take_split htags hsplit
    rw [carve, if_pos hsplit]
    refine ⟨hagree, fun z hz => ?_, fun z hz hfree k hk hk' => ?_⟩
    · rcases List.mem_cons.mp hz with rfl | hz
      · exact htag₁
      · obtain rfl := List.mem_singleton.mp hz
        exact htag₂
    · rcases List.mem_cons.mp hz with rfl | hz
      · cases hfree
      · obtain rfl := List.mem_singleton.mp hz
        simp only [Block.extent] at hk hk'
        exact hinside k (by omega) (by omega)
  · have hsize : m.read64 x = b.size := htags.size
    have htake : take m x r = m.write64 (x + 8) 1 := by
      rw [take, hsize, if_neg (by rw [ALIGN]; omega)]
    rw [htake, carve, if_neg hsplit]
    refine ⟨(AgreeOutside.refl _ _ _).write64 (by omega) (by rw [Block.extent]; omega),
      fun z hz => ?_, fun z hz hfree => ?_⟩
    · obtain rfl := List.mem_singleton.mp hz
      constructor
      case size =>
        rw [read64_write64_of_disjoint (by simp only; omega)]
        exact htags.size
      case allocated => exact read64_write64_self (by omega)
      case footer =>
        rw [read64_write64_of_disjoint (by simp only; omega)]
        exact htags.footer
    · obtain rfl := List.mem_singleton.mp hz
      cases hfree

theorem append_run (hr : x + 16 + r < 2 ^ 64) :
    m.AgreeOutside (append m x r) x (x + (r + 24)) ∧ Tags (append m x r) (x, ⟨r, false⟩) := by
  unfold append
  rw [Nat.mod_eq_of_lt hr]
  refine ⟨?_, ?_, ?_, ?_⟩
  · exact (((AgreeOutside.refl _ _ _).write64 (by omega) (by omega)).write64 (by omega)
      (by omega)).write64 (by omega) (by omega)
  · simp (disch := omega) only [read64_write64_of_disjoint, read64_write64_self]
  · simp (disch := omega) only [read64_write64_of_disjoint, read64_write64_self]
    rfl
  · simp (disch := omega) only [read64_write64_self]

theorem mergeTags_run (hr : r < 2 ^ 64) : m.AgreeOutside (mergeTags m x r) x (x + (r + 24)) ∧
    Tags (mergeTags m x r) (x, ⟨r, true⟩) ∧ SameInside 16 x [⟨r, true⟩] m (mergeTags m x r) := by
  unfold mergeTags
  refine ⟨?_, ⟨?_, ?_, ?_⟩, fun z hz _ k hk hk' => ?_⟩
  · exact (((AgreeOutside.refl _ _ _).write64 (by omega) (by omega)).write64 (by omega)
      (by omega)).write64 (by omega) (by omega)
  · simp (disch := omega) only [read64_write64_of_disjoint, read64_write64_self]
  · simp (disch := omega) only [read64_write64_of_disjoint, read64_write64_self]
    rfl
  · simp (disch := omega) only [read64_write64_self]
  · obtain rfl := List.mem_singleton.mp hz
    simp only at hk hk'
    simp (disch := omega) only [write64_of_disjoint]

end Words

section Merge

variable {a : Allocator} {m : Memory} {n : ℕ} {b : Block} {pre post : List Block}

theorem coalesceForward_eq (h : Tiled m a.startPtr (pre ++ b :: post) a.lastPtr) :
    coalesceForward a m (endOf a.startPtr pre + 16) b.size =
      b.size + extents (freeRight post) := by
  have hnext : endOf a.startPtr pre + 16 + b.size + 8 = endOf a.startPtr pre + b.extent := by
    rw [Block.extent]
    omega
  have hlast := h.last
  rw [endOf_append, endOf_cons] at hlast
  rw [coalesceForward, hnext]
  cases post with
  | nil =>
    rw [endOf_nil] at hlast
    rw [if_neg (by omega)]
    rfl
  | cons c rest =>
    have hloc : (endOf a.startPtr pre + b.extent, c) ∈
        located a.startPtr (pre ++ b :: c :: rest) := by
      rw [List.append_cons]
      simpa using mem_located_middle a.startPtr (pre ++ [b]) c rest
    have htags := h.tags _ hloc
    have hbounds := h.bounds hloc
    have hflag := htags.allocated
    have hsize := htags.size
    simp only [Block.extent] at hbounds
    simp only at hflag hsize
    cases hc : c.free with
    | true =>
      rw [hc, if_pos rfl] at hflag
      rw [if_pos ⟨by rw [Block.extent]; omega, hflag⟩, hsize, freeRight, if_pos hc]
      rfl
    | false =>
      rw [hc] at hflag
      rw [if_neg (by simp [hflag]), freeRight, hc]
      rfl

theorem coalesceBackward_eq (h : Tiled m a.startPtr (pre ++ b :: post) a.lastPtr) :
    coalesceBackward a m (endOf a.startPtr pre + 16) n =
      (endOf a.startPtr (beforeMerge pre), n + extents (freeLeft pre)) := by
  rcases eq_or_ne pre [] with rfl | hne
  · rw [coalesceBackward, if_neg (by rw [endOf_nil]; omega)]
    rfl
  · obtain ⟨rest, c, hc⟩ := h.precedes hne
    have hinside := hc.inside
    rw [coalesceBackward, if_pos (by omega)]
    simp only [hc.footer, hc.header, hc.allocated]
    rw [hc.before, hc.left]
    cases c.free <;> rfl

end Merge

def regionRules (size : ℕ) : Rules := { minSize := 0, maxSize := size }

section Operations

variable {base size n : ℕ} {a : Allocator} {m : Memory} {b : Block} {bs pre post : List Block}

theorem Decodes.no_overflow {h : Allocator × Memory} (hdec : Decodes base size h bs)
    (hn : n ≤ size) : h.1.lastPtr + 24 + roundUp16 n < 2 ^ 64 := by
  have hle := hdec.mapped.le
  have hpage := Nat.le_of_dvd hdec.mapped.base_pos hdec.mapped.page
  have hroom := hdec.room
  unfold roundUp16
  omega

theorem malloc_refines (h : Decodes base size (a, m) bs)
    (hn : a.lastPtr + 24 + roundUp16 n < 2 ^ 64) :
    ∃ h', allocMalloc a m n = some ((malloc base size n bs).1, h') ∧
      Decodes base size h' (malloc base size n bs).2 ∧
      (∀ z ∈ liveBlocks base bs, SameBlock z m h'.2) ∧
      SameInside 16 base (malloc base size n bs).2 m h'.2 := by
  obtain ⟨rfl, rfl, hmapped, htiled, hroom, hsep⟩ := h
  simp only at hmapped htiled hroom ⊢
  have hle := hmapped.le
  have hstart := htiled.last ▸ le_endOf a.startPtr bs
  have hround : n + 15 < 2 ^ 64 := by
    unfold roundUp16 at hn
    omega
  rw [allocMalloc, roundUp_eq hround]
  rcases malloc_cases a.startPtr a.size n bs with
    ⟨pre, b, post, rfl, hpre, hfree, hr, heq⟩ | ⟨hunfit, heq⟩
  · have hmem := mem_located_middle a.startPtr pre b post
    have hbounds := htiled.bounds hmem
    simp only [Block.extent] at hbounds
    obtain ⟨hagree, htags, hinside⟩ := take_run (r := roundUp16 n) (htiled.tags _ hmem) (by omega)
    rw [search_found htiled (by omega) hpre hfree hr, heq]
    refine ⟨(a, take m (endOf a.startPtr pre) (roundUp16 n)), by simp, ⟨rfl, rfl, hmapped, ?_,
      hroom, hsep.carve hfree _⟩, fun z hz => sameBlock_of_free hmem hfree hagree hz, ?_⟩
    · exact htiled.carve hagree htags
    · refine SameInside.splice ?_ hinside
      rwa [endOf_append, endOf_carve]
  · obtain ⟨hagree, htags⟩ := append_run (m := m) (x := a.lastPtr) (r := roundUp16 n) (by omega)
    rw [search_none htiled (by omega) hunfit, heq, htiled.last]
    by_cases hfits : a.lastPtr + (24 + roundUp16 n) ≤ a.startPtr + a.size
    · rw [if_pos hfits]
      refine ⟨(⟨a.startPtr, a.lastPtr + (roundUp16 n + 24), a.size⟩,
        append m a.lastPtr (roundUp16 n)), ?_, ⟨rfl, rfl, hmapped, htiled.concat hagree htags,
        ?_, hsep.concat _⟩, fun z hz k hk hk' => hagree k ?_, ?_⟩
      · simp only [Option.map_some, true_and]
        rw [if_neg (by omega), if_pos trivial]
        have hlast : (a.lastPtr + 16 + roundUp16 n + 8) % 2 ^ 64 =
            a.lastPtr + (roundUp16 n + 24) := by omega
        rw [hlast]
      · simp only
        omega
      · have := htiled.bounds (liveBlocks_located hz)
        omega
      · rw [← List.append_nil (bs ++ _)]
        refine SameInside.splice ?_ fun z hz hfree => ?_
        · rw [endOf_append, htiled.last]
          exact hagree
        · obtain rfl := List.mem_singleton.mp hz
          cases hfree
    · rw [if_neg hfits]
      refine ⟨(a, m), ?_, ⟨rfl, rfl, hmapped, htiled, hroom, hsep⟩, fun z _ k _ _ => rfl,
        SameInside.refl _ _ _ _⟩
      simp only [Option.map_some, true_and]
      rw [if_pos (by omega)]

theorem free_refines (h : Decodes base size (a, m) (pre ++ b :: post)) (hlive : b.free = false) :
    ∃ m', allocFree a m (endOf base pre + 16) = (0, m') ∧
      Decodes base size (a, m') (release pre b post) ∧
      (∀ z ∈ liveBlocks base (release pre b post), SameBlock z m m') ∧
      SameInside 16 base (release pre b post) m m' := by
  obtain ⟨rfl, rfl, hmapped, htiled, hroom, hsep⟩ := h
  simp only at hmapped htiled hroom ⊢
  have hmem := mem_located_middle a.startPtr pre b post
  have hbounds := htiled.bounds hmem
  have htags := htiled.tags _ hmem
  have hflag := htags.allocated
  have hle := hmapped.le
  have hloc : (endOf a.startPtr (beforeMerge pre), merged pre b post) ∈
      located a.startPtr (release pre b post) := mem_located_middle ..
  have hmerged := located_bounds hloc
  rw [endOf_release, htiled.last] at hmerged
  simp only [Block.extent] at hbounds hmerged
  rw [hlive] at hflag
  obtain ⟨hagree, htags', hinside⟩ :=
    mergeTags_run (m := m) (x := endOf a.startPtr (beforeMerge pre))
    (r := (merged pre b post).size) (by omega)
  refine ⟨mergeTags m (endOf a.startPtr (beforeMerge pre)) (merged pre b post).size, ?_,
    ⟨rfl, rfl, hmapped, htiled.release hagree htags', hroom, hsep.release⟩,
    fun z hz => sameBlock_of_free hloc rfl hagree hz, ?_⟩
  · have hsize : m.read64 (endOf a.startPtr pre + 16 - 16) = b.size := by
      rw [Nat.add_sub_cancel]
      exact htags.size
    rw [allocFree, if_neg (by omega)]
    simp only [parseHeader, hsize]
    rw [show endOf a.startPtr pre + 16 - 8 = endOf a.startPtr pre + 8 by omega,
      if_neg (by rw [hflag]; simp), coalesceForward_eq htiled, coalesceBackward_eq htiled]
    rfl
  · rw [release, List.append_cons]
    refine SameInside.splice ?_ hinside
    rw [endOf_append, endOf_cons, endOf_nil]
    exact hagree

end Operations

theorem free_abstract {base : ℕ} {pre post : List Block} {b : Block} (hlive : b.free = false) :
    free base (endOf base pre + 16) (pre ++ b :: post) = (0, release pre b post) := by
  rw [free, Nat.add_sub_cancel, zipper_middle]
  simp [hlive]

theorem blockSize_located {base : ℕ} {bs : List Block} {z : ℕ × Block} (hz : z ∈ located base bs) :
    blockSize base (z.1 + 16) bs = z.2.size := by
  obtain ⟨pre, post, rfl, heq⟩ := mem_located_split hz
  rw [blockSize, Nat.add_sub_cancel, heq, zipper_middle]

/-- The allocator acts as first fit on the blocks it decodes to. -/
theorem simulates (base size : ℕ) : Simulates interface (FirstFit.interface base size)
    (regionRules size) base Prod.snd id (Decodes base size) where
  once := rfl
  malloc := by
    rintro ⟨a, m⟩ bs n hdec - hmax
    obtain ⟨h', heq, hdec', hsame, -⟩ := malloc_refines hdec (hdec.no_overflow hmax)
    exact ⟨_, h', _, roundUp16 n, heq, rfl, hdec', le_roundUp16 n, malloc_served base size n bs,
      hsame⟩
  free := by
    rintro ⟨a, m⟩ bs pre b post hdec hbs hlive
    obtain rfl : bs = pre ++ b :: post := hbs
    obtain ⟨m', heq, hdec', hsame, -⟩ := free_refines hdec hlive
    refine ⟨0, (a, m'), release pre b post, ?_, ?_, hdec', rfl, hsame⟩
    · simp only [interface, heq]
    · simp only [FirstFit.interface, free_abstract hlive]
  reset := by
    rintro ⟨a, m⟩ bs ⟨rfl, rfl, hmapped, -, -, -⟩
    simp only [interface, FirstFit.interface, allocReset, Allocator.reset_eq hmapped.base_pos]
    refine ⟨trivial, ⟨rfl, rfl, hmapped, ⟨fun z hz => absurd hz List.not_mem_nil, rfl⟩, ?_,
      List.isChain_nil⟩, rfl⟩
    exact Nat.le_add_right _ _
  poke := by
    rintro ⟨a, m⟩ bs z k v ⟨rfl, rfl, hmapped, htiled, hroom, hsep⟩ hz hk hk'
    exact ⟨⟨rfl, rfl, hmapped, htiled.poke v (liveBlocks_located hz) hk hk', hroom, hsep⟩, rfl, rfl⟩
  blockSize := by
    rintro ⟨a, m⟩ bs z hdec hz
    refine ⟨?_, blockSize_located (liveBlocks_located hz)⟩
    simp only [interface, parseHeader, Nat.add_sub_cancel]
    exact (hdec.tiled.tags z (liveBlocks_located hz)).size

theorem init_agree {size mmap : ℕ} {a a' : Allocator} (m : Memory) (hmapped : Mapped mmap size)
    (hinit : allocInit a size mmap = (0, a')) :
    Agree mmap id (Decodes mmap size) { heap := (a', m) } { heap := [] } := by
  obtain rfl := Allocator.init_eq hinit
  refine ⟨⟨rfl, rfl, hmapped, ⟨fun z hz => absurd hz List.not_mem_nil, rfl⟩, ?_,
    List.isChain_nil⟩, Owned.init _, rfl, rfl, rfl⟩
  exact Nat.le_add_right _ _

/-- Along every run of a client, memory decodes to the block list of first fit with the same
answers, and live payloads keep their bytes. -/
theorem coalescing_refines {size mmap : ℕ} {a a' : Allocator} (m : Memory)
    (hmapped : Mapped mmap size) (hinit : allocInit a size mmap = (0, a')) :
    (∀ acts, Option.Rel (Agree mmap id (Decodes mmap size))
      ((Client.machine interface (regionRules size) (a', m)).run { heap := (a', m) } acts)
      ((Client.machine (FirstFit.interface mmap size) (regionRules size) []).run { heap := [] }
        acts)) ∧
    ∀ c, (Client.machine interface (regionRules size) (a', m)).Reachable c →
      ∀ act c', c.step interface (regionRules size) act = some c' →
        ∀ y ∈ c.live, ∀ i < c.heap.2.read64 (y.1 - 16), act.spares y.1 i = true →
          y ∈ c'.live ∧ c'.heap.2 (y.1 + i) = c.heap.2 (y.1 + i) := by
  have hstart := init_agree m hmapped hinit
  refine ⟨(simulates mmap size).run_rel hstart, ?_⟩
  intro c hc act c' hstep y hy i hi hspare
  obtain ⟨d, hagree⟩ := (simulates mmap size).reachable hstart hc
  obtain ⟨z, hz, hyz, -⟩ := hagree.owned.block hy
  have hsize : c.heap.2.read64 (y.1 - 16) = z.2.size := by
    rw [hyz, Nat.add_sub_cancel]
    exact (hagree.heap.tiled.tags z (liveBlocks_located hz)).size
  obtain ⟨d', -, hsame⟩ := (simulates mmap size).step hagree hstep
  obtain ⟨hy', -, hbyte⟩ := hsame y hy z hz hyz i (hsize ▸ hi) hspare
  exact ⟨hy', hbyte⟩

/-- A page, with requests, frees and a store. -/
theorem coalescing_refines_page : Option.Rel (Agree 4096 id (Decodes 4096 4096))
    ((Client.machine interface (regionRules 4096) (⟨4096, 4096, 4096⟩, fun _ => 0)).run
      { heap := (⟨4096, 4096, 4096⟩, fun _ => 0) }
      [.malloc 100, .malloc 0, .write 4112 3 7, .free 4112, .malloc 24])
    ((Client.machine (FirstFit.interface 4096 4096) (regionRules 4096) []).run { heap := [] }
      [.malloc 100, .malloc 0, .write 4112 3 7, .free 4112, .malloc 24]) :=
  (coalescing_refines (a := {}) (fun _ => 0) ⟨by decide, by decide, by decide⟩ rfl).1 _

end LowLevel.Allocators.Coalescing
