import LowLevel.Allocators.ExplicitRuns

/-! # Where the explicit allocator puts blocks

A request takes the first block in list order that is large enough. The block is
cut if what is left can be a block of its own, which then has the place of the
old one in the list. Without such a block the request gets new space, if there
is any. A block that is given back becomes the first of the list.
-/

namespace LowLevel.Allocators.Explicit

/-- A request of `r` bytes on blocks from `start` on, with the free ones in list order: the pointer
it gets, the blocks and the order after it. -/
inductive Placement (start limit r : ℕ) :
    List Block → List ℕ → ℕ → List Block → List ℕ → Prop where
  | split (pre : List Block) (b : Block) (post : List Block) (l₁ l₂ : List ℕ)
      (hfirst : ∀ y ∈ l₁, ∀ c, (y, c) ∈ located start (pre ++ b :: post) → c.size < r)
      (hfree : b.free = true) (hsplit : r + 40 ≤ b.size) :
      Placement start limit r (pre ++ b :: post) (l₁ ++ endOf start pre :: l₂)
        (endOf start pre + 16) (pre ++ ⟨r, false⟩ :: ⟨b.size - r - 24, true⟩ :: post)
        (l₁ ++ (endOf start pre + (r + 24)) :: l₂)
  | whole (pre : List Block) (b : Block) (post : List Block) (l₁ l₂ : List ℕ)
      (hfirst : ∀ y ∈ l₁, ∀ c, (y, c) ∈ located start (pre ++ b :: post) → c.size < r)
      (hfree : b.free = true) (hfits : r ≤ b.size) (hwhole : b.size < r + 40) :
      Placement start limit r (pre ++ b :: post) (l₁ ++ endOf start pre :: l₂)
        (endOf start pre + 16) (pre ++ ⟨b.size, false⟩ :: post) (l₁ ++ l₂)
  | append (bs : List Block) (l : List ℕ) (hnone : ∀ b ∈ bs, b.free = true → b.size < r)
      (hroom : endOf start bs + (24 + r) ≤ start + limit) :
      Placement start limit r bs l (endOf start bs + 16) (bs ++ [⟨r, false⟩]) l
  | full (bs : List Block) (l : List ℕ) (hnone : ∀ b ∈ bs, b.free = true → b.size < r)
      (hroom : start + limit < endOf start bs + (24 + r)) : Placement start limit r bs l 0 bs l

section Model

variable {a : Allocator} {s : State} {ring : List ℕ} {M : Model} {r x limit : ℕ} {b : Block}
  {pre post : List Block}

theorem Model.sizeAt_middle (hM : M.blocks = pre ++ b :: post) :
    M.sizeAt a.startPtr (endOf a.startPtr pre) = b.size := by
  rw [Model.sizeAt, hM, zipper_middle]

theorem Heap.ring_nodup (h : Heap a s ring M) : M.ring.Nodup := by
  rw [← h.own]
  exact h.nodes.nodup.filter _

theorem malloc_placement (h : Heap a s ring M) (limit r : ℕ) :
    Placement a.startPtr limit r M.blocks M.ring (M.malloc a.startPtr limit r).1
      (M.malloc a.startPtr limit r).2.blocks (M.malloc a.startPtr limit r).2.ring := by
  rw [Model.malloc]
  cases hfind : M.ring.find? fun x => r ≤ M.sizeAt a.startPtr x with
  | some x =>
    obtain ⟨hx, l₁, l₂, hring, hl₁⟩ := List.find?_eq_some_iff_append.mp hfind
    have hmem : x ∈ M.ring := by
      rw [hring]
      simp
    obtain ⟨b, hb, hfree⟩ := mem_freeAddrs.mp (h.perm.subset hmem)
    obtain ⟨pre, post, hM, heq⟩ := mem_located_split hb
    simp only at hM heq
    subst heq
    have hfits : r ≤ b.size := by
      rw [← Model.sizeAt_middle (a := a) hM]
      simpa using hx
    have hfirst : ∀ y ∈ l₁, ∀ c, (y, c) ∈ located a.startPtr (pre ++ b :: post) → c.size < r := by
      intro y hy c hc
      have hno := hl₁ y hy
      rw [Model.sizeAt_located (z := (y, c)) (hM.symm ▸ hc)] at hno
      simpa using hno
    have hnodup := h.ring_nodup
    rw [hring] at hnodup
    simp only [Model.take_eq hM]
    rw [hM, hring]
    by_cases hsplit : r + 40 ≤ b.size
    · rw [if_pos hsplit, map_replace_middle hnodup, carve, if_pos hsplit, List.append_assoc]
      exact .split pre b post l₁ l₂ hfirst hfree hsplit
    · rw [if_neg hsplit, filter_ne_middle hnodup, carve, if_neg hsplit, List.append_assoc]
      exact .whole pre b post l₁ l₂ hfirst hfree hfits (by omega)
  | none =>
    have hnone : ∀ b ∈ M.blocks, b.free = true → b.size < r := by
      intro b hb hfree
      obtain ⟨pre, post, hM⟩ := List.append_of_mem hb
      have hmem : endOf a.startPtr pre ∈ M.ring :=
        h.perm.mem_iff.mpr (mem_freeAddrs.mpr ⟨b, hM ▸ mem_located_middle .., hfree⟩)
      have hno := List.find?_eq_none.mp hfind _ hmem
      rw [Model.sizeAt_middle hM] at hno
      simpa using hno
    simp only
    split_ifs with hroom
    · exact .append _ _ hnone (by omega)
    · exact .full _ _ hnone (by omega)

end Model

theorem allocMalloc_null {a a' : Allocator} {s s' : State} {n : ℕ}
    (h : allocMalloc a s n = some (0, a', s')) : (a', s') = (a, s) := by
  rw [allocMalloc_eq] at h
  obtain ⟨found, -, h⟩ := Option.bind_eq_some_iff.mp h
  cases found with
  | some current =>
    have := congrArg Prod.fst (Option.some.inj h)
    simp only at this
    omega
  | none =>
    have heq := Option.some.inj h
    unfold append at heq
    split_ifs at heq
    · exact (congrArg Prod.snd heq).symm
    · have := congrArg Prod.fst heq
      simp only at this
      omega

section Runs

variable {size mmap : ℕ} {a a' : Allocator} {s s' : State} {c : Client (Allocator × State)}
  {d : Client Model}

theorem sound_malloc {n : ℕ} (h : Sound mmap size c d) (hmin : 1 ≤ n) (hmax : n ≤ size) :
    ∃ c' p bs' ring', c.step interface (regionRules size) (.malloc n) = some c' ∧
      c'.log = c.log ++ [p] ∧ Coherent c' bs' ring' ∧
      Placement mmap size (roundUp n) d.heap.blocks d.heap.ring p bs' ring' ∧
      (p = 0 → c'.heap = c.heap) := by
  obtain ⟨hrep, hsizes⟩ := h.heap
  obtain ⟨hn, hlast⟩ := hrep.no_overflow hmax
  obtain ⟨h', heq, hrep', hserved, -, -⟩ := hrep.malloc hlast
  have hplace : Placement mmap size (roundUp n) d.heap.blocks d.heap.ring
      (d.heap.malloc mmap size (roundUp n)).1 (d.heap.malloc mmap size (roundUp n)).2.blocks
      (d.heap.malloc mmap size (roundUp n)).2.ring := by
    rw [← hrep.start]
    exact malloc_placement hrep.heap size (roundUp n)
  have hsized : Sized mmap size h' (d.heap.malloc mmap size (roundUp n)).2 :=
    ⟨hrep', sizes_served hserved hsizes (roundUp_pos hmin hn)⟩
  obtain ⟨c', d', hc, -, hagree, hc', hd', -⟩ :=
    h.malloc (J := Model.interface mmap size) heq rfl hsized (roundUp_spec hn).1 hserved
  have hcoherent := sound_coherent hagree
  rw [hd'] at hcoherent
  refine ⟨c', _, _, _, ?_, ?_, hcoherent, hplace, fun hp => ?_⟩
  · rw [Client.step, if_pos (Client.allowed_malloc.mpr ⟨hmin, hmax⟩), hc]
  · rw [← Option.some.inj ((Client.exec_malloc heq).symm.trans hc)]
  · rw [hc']
    rw [hp] at heq
    exact allocMalloc_null heq

theorem sound_free {p : ℕ} (h : Sound mmap size c d) (hp : p ∈ c.live.map Prod.fst) :
    ∃ c' pre b post, c.step interface (regionRules size) (.free p) = some c' ∧
      c'.log = c.log ++ [0] ∧ d.heap.blocks = pre ++ b :: post ∧ p = endOf mmap pre + 16 ∧
      Coherent c' (release pre b post) (endOf mmap (beforeMerge pre) ::
        (d.heap.ring.filter (· ≠ endOf mmap pre + b.extent)).filter
          (· ≠ endOf mmap (beforeMerge pre))) := by
  obtain ⟨hrep, hsizes⟩ := h.heap
  obtain ⟨pre, b, post, hblocks, hlive, rfl⟩ := h.split hp
  have hb := hsizes b (by simp [hblocks])
  obtain ⟨h', heq, hrep', hblocks', -, -⟩ :=
    hrep.free hblocks hlive (hb.trans (le_merged_size pre b post))
  have hsized : Sized mmap size h' (d.heap.free mmap (endOf mmap pre)) := by
    refine ⟨hrep', ?_⟩
    rw [hblocks']
    exact sizes_released (hblocks ▸ hsizes)
  have hring : (d.heap.free mmap (endOf mmap pre)).ring = endOf mmap (beforeMerge pre) ::
      (d.heap.ring.filter (· ≠ endOf mmap pre + b.extent)).filter
        (· ≠ endOf mmap (beforeMerge pre)) := by
    rw [Model.free, hblocks, zipper_middle]
  obtain ⟨c', d', hc, -, hagree, -, hd', -⟩ := h.free (J := Model.interface mmap size) heq
    (by simp only [Model.interface, Nat.add_sub_cancel]) hsized rfl hblocks hlive hblocks'
  have hcoherent := sound_coherent hagree
  rw [hd', hblocks', hring] at hcoherent
  refine ⟨c', pre, b, post, ?_, ?_, hblocks, rfl, hcoherent⟩
  · rw [Client.step, if_pos (Client.allowed_free.mpr (Or.inl hp)), hc]
  · rw [← Option.some.inj ((Client.exec_free heq).symm.trans hc)]

/-- In every reachable state the walk over the list ends; a request gets the first block in list
order that is large enough, and what is left of it stays in its place; it gets new space if no
free block is large enough, and if there is no space nothing changes. A merged block is the first
of the list. -/
theorem requests_placed (hmapped : Mapped mmap size) (hhead : s.head = 0)
    (hinit : allocInit a s size mmap = (0, a', s'))
    (hc : (Client.machine interface (regionRules size) (a', s')).Reachable c) :
    ∃ bs ring, Coherent c bs ring ∧
      (∀ n, 1 ≤ n → n ≤ size → ∃ c' p bs' ring',
        c.step interface (regionRules size) (.malloc n) = some c' ∧ c'.log = c.log ++ [p] ∧
        Coherent c' bs' ring' ∧ Placement mmap size (roundUp n) bs ring p bs' ring' ∧
        (p = 0 → c'.heap = c.heap)) ∧
      ∀ p ∈ c.live.map Prod.fst, ∃ c' pre b post,
        c.step interface (regionRules size) (.free p) = some c' ∧ c'.log = c.log ++ [0] ∧
        bs = pre ++ b :: post ∧ p = endOf mmap pre + 16 ∧
        Coherent c' (release pre b post) (endOf mmap (beforeMerge pre) ::
          (ring.filter (· ≠ endOf mmap pre + b.extent)).filter
            (· ≠ endOf mmap (beforeMerge pre))) := by
  obtain ⟨d, hsound⟩ := sound_of_reachable hmapped hhead hinit hc
  exact ⟨_, _, sound_coherent hsound, fun n hmin hmax => sound_malloc hsound hmin hmax,
    fun p hp => sound_free hsound hp⟩

theorem requests_placed_page : ∃ bs ring, Coherent pageClient bs ring ∧
    ∃ c' p bs' ring', pageClient.step interface (regionRules 4096) (.malloc 40) = some c' ∧
      c'.log = pageClient.log ++ [p] ∧ Coherent c' bs' ring' ∧
      Placement 4096 4096 (roundUp 40) bs ring p bs' ring' ∧
        (p = 0 → c'.heap = pageClient.heap) := by
  obtain ⟨bs, ring, hcoherent, hmalloc, -⟩ := requests_placed (a := {}) (s := ⟨fun _ => 0, 0⟩)
    page_mapped rfl rfl pageClient_reachable
  exact ⟨bs, ring, hcoherent, hmalloc 40 (by decide) (by decide)⟩

end Runs

end LowLevel.Allocators.Explicit
