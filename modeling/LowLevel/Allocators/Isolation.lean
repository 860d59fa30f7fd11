import LowLevel.Allocators.Instances

/-! # Isolation of instances

While every call stays in the region of its instance, the shared list is the
lists of the instances side by side, and the program acts as the abstract one,
whose instances share nothing. So an instance answers as if it were alone. A
request that finds a block of another instance first hands that block out.
-/

namespace LowLevel.Allocators.Explicit

open Memory

section Walk

variable {m : Memory} {head cur : ℕ} {l : List ℕ}

theorem walk_chain (hchain : (cur :: l).IsChain (Linked (nextOf m) (prevOf m)))
    (hlast : nextOf m ((cur :: l).getLast (List.cons_ne_nil _ _)) = head) (hhead : head ∉ l)
    {fuel : ℕ} (hfuel : l.length < fuel) : walk m head fuel cur = cur :: l := by
  induction l generalizing cur fuel with
  | nil =>
    obtain ⟨fuel, rfl⟩ := Nat.exists_eq_add_of_lt hfuel
    have hnext : m.read64 (cur + 24) = head := hlast
    simp [walk, hnext]
  | cons x l ih =>
    obtain ⟨fuel, rfl⟩ : ∃ k, fuel = k + 1 := ⟨fuel - 1, by omega⟩
    obtain ⟨hlink, hchain⟩ := List.isChain_cons_cons.mp hchain
    have hnext : m.read64 (cur + 24) = x := hlink.1
    have hne : x ≠ head := by
      rintro rfl
      exact hhead (List.mem_cons_self ..)
    rw [List.getLast_cons (List.cons_ne_nil x l)] at hlast
    have hrest : walk m head fuel x = x :: l := by
      refine ih hchain hlast (fun hmem => hhead (List.mem_cons_of_mem x hmem)) ?_
      rw [List.length_cons] at hfuel
      omega
    simp only [walk, hnext, if_pos hne, hrest]

theorem freeNodes_eq {s : State} {ring : List ℕ} (h : FreeList s ring) (hnodes : Nodes ring) :
    freeNodes s = ring := by
  have hhead := h.head
  cases ring with
  | nil => rw [freeNodes, if_neg (by simpa using hhead)]
  | cons x l =>
    rw [List.headD_cons] at hhead
    have hpos := hnodes.pos x (List.mem_cons_self ..)
    have hlen := hnodes.length_le
    rw [List.length_cons] at hlen
    have hring := (Ring.iff_chain (List.cons_ne_nil x l)).mp h.ring
    rw [freeNodes, if_pos (by omega), hhead]
    exact walk_chain hring.2 hring.1.1 (List.nodup_cons.mp hnodes.nodup).1 (by omega)

end Walk

/-- The control block of a fresh instance, as a name for its region. -/
def region (base size : ℕ) : Allocator := ⟨base, base, size⟩

/-- A call in a region leaves the nodes outside alone, and memory outside but for their links. The
first word belongs to the region, whatever its size. -/
structure Within (base size : ℕ) (s : State) (ring : List ℕ) (s' : State) (ring' : List ℕ) :
    Prop where
  outside : others (region base size) ring' = others (region base size) ring
  mem : ∀ y, y < base ∨ (base + size ≤ y ∧ base + 8 ≤ y) →
    Off (others (region base size) ring) y → s'.mem y = s.mem y

/-- The heap of an instance is the abstract one; an unmapped one has a control block of zeros. -/
def Holds (base size : ℕ) (ring : List ℕ) (h : Allocator × State) : Option Model → Prop
  | none => h.1 = {}
  | some M => h.1.startPtr = base ∧ h.1.size = size ∧ Heap h.1 h.2 ring M ∧
      ∀ b ∈ M.blocks, 16 ≤ b.size

/-- The client of an instance beside that of an abstract one. The nodes in the region belong to
the instance, and so do their links. -/
structure Placed (base size : ℕ) (ring : List ℕ) (c : Client (Allocator × State))
    (d : Client (Option Model)) : Prop where
  agree : Agree base Model.blocksOf (Holds base size ring) c d
  list : FreeList c.heap.2 ring
  nodes : Nodes ring
  inside : ∀ y ∈ ring, (region base size).owns y = true →
    y + 32 ≤ base + size ∧ d.heap.isSome = true

section Within

variable {base size : ℕ} {a a' : Allocator} {s s' : State} {ring ring' : List ℕ} {M M' : Model}
  {bs : List Block}

theorem owns_region (hstart : a.startPtr = base) (hsize : a.size = size) :
    (region base size).owns = a.owns := by
  subst hstart hsize
  rfl

theorem owns_region_iff {y : ℕ} : (region base size).owns y = true ↔ base ≤ y ∧ y < base + size :=
  owns_iff

theorem owns_region_false {y : ℕ} :
    (region base size).owns y = false ↔ y < base ∨ base + size ≤ y := by
  rw [← Bool.not_eq_true, owns_region_iff]
  omega

theorem others_region (hstart : a.startPtr = base) (hsize : a.size = size) (l : List ℕ) :
    others (region base size) l = others a l := by
  rw [others, others, owns_region hstart hsize]

theorem Leads.within (h : Leads a s ring bs a' s' M') (hstart : a.startPtr = base)
    (hsize : a.size = size) :
    ∃ ring', Heap a' s' ring' M' ∧ Within base size s ring s' ring' := by
  obtain ⟨ring', hheap, hothers, hsame⟩ := h
  refine ⟨ring', hheap, ?_, ?_⟩
  · rw [others_region hstart hsize, others_region hstart hsize]
    exact hothers
  · intro y hy hoff
    rw [others_region hstart hsize] at hoff
    exact hsame y hoff (by omega)

theorem Within.refl (base size : ℕ) (s : State) (ring : List ℕ) : Within base size s ring s ring :=
  ⟨rfl, fun _ _ _ => rfl⟩

theorem Within.drop (hstart : a.startPtr = base) (hsize : a.size = size)
    (hown : ∀ y ∈ ring, a.owns y = true) : Within base size s ring ⟨s.mem, 0⟩ [] := by
  refine ⟨?_, fun _ _ _ => rfl⟩
  rw [others_region hstart hsize, others_region hstart hsize, others, others, List.filter_nil,
    eq_comm, List.filter_eq_nil_iff]
  intro y hy
  simp [hown y hy]

variable {c : Client (Allocator × State)} {d : Client (Option Model)}

theorem Placed.of_heap (hagree : Agree base Model.blocksOf (Holds base size ring) c d)
    (hM : d.heap = some M) : Placed base size ring c d := by
  have hrep := hagree.heap
  rw [hM] at hrep
  obtain ⟨hstart, hsize, hheap, hsizes⟩ := hrep
  refine ⟨hagree, hheap.list, hheap.nodes, fun y hy hown => ⟨?_, hM ▸ rfl⟩⟩
  rw [owns_region hstart hsize] at hown
  obtain ⟨w, hw, -, hlo, hhi⟩ := hheap.spare hy hown
  have := located_bounds hw
  have := hheap.endOf_le
  omega

theorem Heap.beside {base' size' : ℕ} (h : Heap a s ring M)
    (hw : Within base' size' s ring s' ring')
    (hdisj : a.startPtr + a.size ≤ base' ∨ (base' + size' ≤ a.startPtr ∧ base' + 8 ≤ a.startPtr))
    (hlist : FreeList s' ring') (hnodes : Nodes ring')
    (hin : ∀ y ∈ ring', (region base' size').owns y = true → y + 32 ≤ base' + size') :
    Heap a s' ring' M := by
  have hout : ∀ y, a.owns y = true → (region base' size').owns y = false := by
    intro y hy
    rw [owns_iff] at hy
    rw [owns_region_false]
    omega
  have hfilter : ∀ l : List ℕ, l.filter a.owns = (others (region base' size') l).filter a.owns := by
    intro l
    rw [others, List.filter_filter]
    refine List.filter_congr fun y _ => ?_
    cases hy : a.owns y with
    | false => rfl
    | true => rw [hout y hy]; rfl
  have hown : ring'.filter a.owns = ring.filter a.owns := by
    rw [hfilter ring', hfilter ring, hw.outside]
  refine { h with tiled := ?_, list := hlist, nodes := hnodes, own := hown.trans h.own,
                  foreign := ?_ }
  · refine links_tiled (l := ring) h.sizes h.endOf_le ?_ ?_ h.tiled
    · intro x hx
      rcases h.node_cases hx with ⟨c, hc, hfree, -⟩ | ⟨-, hx⟩
      · exact Or.inl (mem_freeAddrs.mpr ⟨c, hc, hfree⟩)
      · exact Or.inr hx
    · intro y hy hy' hoff
      exact hw.mem y (by omega) fun x hx => hoff x (mem_others.mp hx).1
  · intro y hy hno
    cases hown : (region base' size').owns y with
    | true =>
      have := hin y hy hown
      rw [owns_region_iff] at hown
      omega
    | false =>
      have hmem : y ∈ others (region base' size') ring := hw.outside ▸ mem_others.mpr ⟨hy, hown⟩
      exact h.foreign y (mem_others.mp hmem).1 hno

end Within

section Calls

variable {base size : ℕ} {ring : List ℕ} {c c' : Client (Allocator × State)}
  {d d' : Client (Option Model)}

/-- The instance of a client made a call, as the abstract one did. -/
def Follows (base size : ℕ) (s : State) (ring : List ℕ) (c' : Client (Allocator × State))
    (d' : Client (Option Model)) : Prop :=
  ∃ ring', Placed base size ring' c' d' ∧ Within base size s ring c'.heap.2 ring'

theorem Placed.follows_refl (h : Placed base size ring c d) (hheap : c'.heap = c.heap)
    (hheap' : d'.heap = d.heap)
    (hagree : Agree base Model.blocksOf (Holds base size ring) c' d') :
    Follows base size c.heap.2 ring c' d' := by
  refine ⟨ring, ⟨hagree, ?_, h.nodes, ?_⟩, ?_⟩
  · rw [hheap]
    exact h.list
  · rw [hheap']
    exact h.inside
  · rw [hheap]
    exact .refl ..

theorem malloc_unmapped {s : State} {n : ℕ} (hlist : FreeList s ring) (hnodes : Nodes ring)
    (hfit : FitsOwn {} s ring (roundUp n)) (hlt : roundUp n + 24 < 2 ^ 64) :
    allocMalloc {} s n = some (0, {}, s) := by
  have hfind : (ring.find? fun x => roundUp n ≤ s.mem.read64 x) = none := by
    cases hx : ring.find? fun x => roundUp n ≤ s.mem.read64 x with
    | none => rfl
    | some x =>
      have := owns_iff.mp (hfit x hx)
      simp at this
  rw [allocMalloc_eq, search_run hlist hnodes, hfind, Option.bind_some]
  simp only [append]
  rw [if_pos (by omega)]

theorem Placed.malloc {n : ℕ} (h : Placed base size ring c d) (hmapped : Mapped base size)
    (hmin : 1 ≤ n) (hmax : n ≤ size) (hfit : FitsOwn c.heap.1 c.heap.2 ring (roundUp n)) :
    ∃ c' d', c.exec interface (.malloc n) = some c' ∧
      d.exec (Model.instanceAt base size).toInterface (.malloc n) = some d' ∧
      Follows base size c.heap.2 ring c' d' := by
  have hle := hmapped.le
  have hpos := hmapped.base_pos
  obtain ⟨hge, hlt, hmod⟩ := roundUp_spec (n := n) (by omega)
  have hrep := h.agree.heap
  cases hM : d.heap with
  | none =>
    rw [hM] at hrep
    have hzero : c.heap.1 = {} := hrep
    rw [hzero] at hfit
    have hI : interface.malloc n c.heap = some (0, c.heap) := by
      simp only [interface]
      rw [hzero, malloc_unmapped h.list h.nodes hfit (by omega), ← hzero]
    have hJ : (Model.instanceAt base size).malloc n d.heap = some (0, d.heap) := by
      rw [hM]
      rfl
    obtain ⟨c', d', hc, hd, hagree, hheap, hheap', -⟩ :=
      h.agree.malloc hI hJ h.agree.heap hge (.full _)
    exact ⟨c', d', hc, hd, h.follows_refl hheap hheap' hagree⟩
  | some M =>
    rw [hM] at hrep
    obtain ⟨hstart, hsize, hheap, hsizes⟩ := hrep
    have hlast : c.heap.1.lastPtr + 24 + roundUp n < 2 ^ 64 := by
      have hpage := Nat.le_of_dvd hpos hmapped.page
      have hroom := hheap.room
      omega
    obtain ⟨a', s', heq, hstart', hsize', hleads, -⟩ :=
      malloc_refines hheap hlast hfit
    obtain ⟨ring', hheap', hwithin⟩ := hleads.within hstart hsize
    rw [hstart, hsize] at heq hheap'
    have hI : interface.malloc n c.heap =
        some ((M.malloc base size (roundUp n)).1, a', s') := heq
    have hJ : (Model.instanceAt base size).malloc n d.heap =
        some ((M.malloc base size (roundUp n)).1, some (M.malloc base size (roundUp n)).2) := by
      rw [hM]
      rfl
    have hserved : Served base (roundUp n) (Model.blocksOf d.heap)
        (M.malloc base size (roundUp n)).1
        (Model.blocksOf (some (M.malloc base size (roundUp n)).2)) := by
      rw [hM, ← hstart]
      exact malloc_served hheap size (roundUp n)
    have hrep' : Holds base size ring' (a', s') (some (M.malloc base size (roundUp n)).2) :=
      ⟨hstart'.trans hstart, hsize'.trans hsize, hheap', by
        rw [hM] at hserved
        exact sizes_served hserved hsizes (by omega)⟩
    obtain ⟨c', d', hc, hd, hagree, hc', hd', -⟩ := h.agree.malloc hI hJ hrep' hge hserved
    refine ⟨c', d', hc, hd, ring', .of_heap hagree hd', ?_⟩
    rw [hc']
    exact hwithin

theorem Placed.free {p : ℕ} (h : Placed base size ring c d) (hp : p ∈ c.live.map Prod.fst) :
    ∃ c' d', c.exec interface (.free p) = some c' ∧
      d.exec (Model.instanceAt base size).toInterface (.free p) = some d' ∧
      Follows base size c.heap.2 ring c' d' := by
  obtain ⟨pre, b, post, hblocks, hlive, rfl⟩ := h.agree.split hp
  have hrep := h.agree.heap
  cases hM : d.heap with
  | none => simp [hM, Model.blocksOf] at hblocks
  | some M =>
    rw [hM] at hrep
    obtain ⟨hstart, hsize, hheap, hsizes⟩ := hrep
    have hMb : M.blocks = pre ++ b :: post := by simpa [hM, Model.blocksOf] using hblocks
    have hb := hsizes b (by simp [hMb])
    obtain ⟨s', hfree, hleads, -⟩ :=
      free_refines hheap hMb hlive (hb.trans (le_merged_size pre b post))
    obtain ⟨ring', hheap', hwithin⟩ := hleads.within hstart hsize
    rw [hstart] at hfree hheap'
    have hI : interface.free (endOf base pre + 16) c.heap = some (0, c.heap.1, s') := by
      simp only [interface, hfree]
    have hJ : (Model.instanceAt base size).free (endOf base pre + 16) d.heap =
        some (0, some (M.free base (endOf base pre))) := by
      rw [hM]
      rfl
    have hblocks' : Model.blocksOf (some (M.free base (endOf base pre))) = release pre b post := by
      rw [← hstart, Model.blocksOf, Option.elim_some, Model.free_eq hMb]
    have hsizes' : ∀ b ∈ (M.free base (endOf base pre)).blocks, 16 ≤ b.size := by
      rw [show (M.free base (endOf base pre)).blocks = release pre b post from hblocks']
      exact sizes_released (hMb ▸ hsizes)
    have hrep' : Holds base size ring' (c.heap.1, s') (some (M.free base (endOf base pre))) :=
      ⟨hstart, hsize, hheap', hsizes'⟩
    obtain ⟨c', d', hc, hd, hagree, hc', hd', -⟩ :=
      h.agree.free hI hJ hrep' rfl hblocks hlive hblocks'
    refine ⟨c', d', hc, hd, ring', .of_heap hagree hd', ?_⟩
    rw [hc']
    exact hwithin

theorem Placed.cleared {a : Allocator} {M : Option Model} (h : Placed base size ring c d)
    (hdrop : Within base size c.heap.2 ring ⟨c.heap.2.mem, 0⟩ [])
    (hrep : Holds base size [] (a, ⟨c.heap.2.mem, 0⟩) M) (hM : Model.blocksOf M = [])
    (code : ℕ) : Follows base size c.heap.2 ring
      { heap := (a, ⟨c.heap.2.mem, 0⟩), log := c.log ++ [code] }
      { heap := M, log := d.log ++ [code] } := by
  refine ⟨[], ⟨h.agree.cleared hrep hM code, ⟨rfl, Cycle.Chain.nil _⟩, nodes_nil, ?_⟩, hdrop⟩
  exact fun y hy => absurd hy List.not_mem_nil

theorem Placed.reset (h : Placed base size ring c d) (hmapped : Mapped base size)
    (hown : c.heap.1.startPtr = 0 ∨ ∀ y ∈ ring, c.heap.1.owns y = true) :
    ∃ c' d', c.exec interface .reset = some c' ∧
      d.exec (Model.instanceAt base size).toInterface .reset = some d' ∧
      Follows base size c.heap.2 ring c' d' := by
  have hpos := hmapped.base_pos
  have hrep := h.agree.heap
  cases hM : d.heap with
  | none =>
    rw [hM] at hrep
    have hzero : c.heap.1 = {} := hrep
    have hI : interface.reset c.heap = (1, c.heap) := by
      simp only [interface, allocReset, if_pos (congrArg Allocator.startPtr hzero)]
    have hJ : (Model.instanceAt base size).reset d.heap = (1, d.heap) := by
      rw [hM]
      rfl
    have hkept : Holds base size ring (interface.reset c.heap).2
        ((Model.instanceAt base size).toInterface.reset d.heap).2 := by
      rw [hI, hJ]
      exact h.agree.heap
    obtain ⟨c', d', hc, hd, hagree, hc', hd'⟩ :=
      h.agree.reset (by rw [hI, hJ]) hkept (by rw [hJ, hM]; rfl)
    rw [hI] at hc'
    rw [hJ] at hd'
    exact ⟨c', d', hc, hd, h.follows_refl hc' hd' hagree⟩
  | some M =>
    rw [hM] at hrep
    obtain ⟨hstart, hsize, hheap, hsizes⟩ := hrep
    have hne : c.heap.1.startPtr ≠ 0 := by omega
    have hI : interface.reset c.heap =
        (0, { c.heap.1 with lastPtr := c.heap.1.startPtr }, ⟨c.heap.2.mem, 0⟩) := by
      simp only [interface, allocReset, if_neg hne]
    have hJ : (Model.instanceAt base size).reset d.heap = (0, some {}) := by
      rw [hM]
      rfl
    refine ⟨_, _, rfl, rfl, ?_⟩
    rw [hI, hJ]
    have hrep' : Holds base size [] ({ c.heap.1 with lastPtr := c.heap.1.startPtr },
        ⟨c.heap.2.mem, 0⟩) (some {}) := ⟨hstart, hsize, hheap.reset, fun b hb => by cases hb⟩
    exact h.cleared (.drop hstart hsize (hown.resolve_left hne)) hrep' rfl 0

theorem Placed.deinit (h : Placed base size ring c d) (hmapped : Mapped base size)
    (hown : c.heap.1.startPtr = 0 ∨ ∀ y ∈ ring, c.heap.1.owns y = true) :
    ∃ c' d', c.call (instanceAt base size) (regionRules size) .deinit = some c' ∧
      d.call (Model.instanceAt base size) (regionRules size) .deinit = some d' ∧
      Follows base size c.heap.2 ring c' d' := by
  have hpos := hmapped.base_pos
  have hrep := h.agree.heap
  refine ⟨_, _, rfl, rfl, ?_⟩
  cases hM : d.heap with
  | none =>
    rw [hM] at hrep
    have hzero : c.heap.1 = {} := hrep
    have hI : (instanceAt base size).deinit c.heap = (1, c.heap) := by
      simp only [instanceAt, allocDeinit, if_pos (congrArg Allocator.startPtr hzero)]
    have hJ : (Model.instanceAt base size).deinit none = (1, none) := rfl
    rw [hI, hJ]
    refine h.follows_refl rfl hM.symm (h.agree.cleared ?_ rfl 1)
    exact hM ▸ h.agree.heap
  | some M =>
    rw [hM] at hrep
    obtain ⟨hstart, hsize, hheap, hsizes⟩ := hrep
    have hne : c.heap.1.startPtr ≠ 0 := by omega
    have hI : (instanceAt base size).deinit c.heap = (0, {}, ⟨c.heap.2.mem, 0⟩) := by
      simp only [instanceAt, allocDeinit, if_neg hne]
    have hJ : (Model.instanceAt base size).deinit (some M) = (0, none) := rfl
    rw [hI, hJ]
    have hrep' : Holds base size [] ({}, ⟨c.heap.2.mem, 0⟩) none := rfl
    exact h.cleared (.drop hstart hsize (hown.resolve_left hne)) hrep' rfl 0

theorem Placed.block (h : Placed base size ring c d) {y : ℕ × ℕ} (hy : y ∈ c.live) :
    ∃ M z, d.heap = some M ∧ Holds base size ring c.heap (some M) ∧
      z ∈ liveBlocks c.heap.1.startPtr M.blocks ∧ y.1 = z.1 + 16 ∧ y.2 ≤ z.2.size ∧
      interface.blockSize y.1 c.heap = z.2.size ∧ base ≤ z.1 ∧
      z.1 + 16 + z.2.size + 8 ≤ base + size := by
  obtain ⟨z, hz, hyz, hle⟩ := h.agree.owned.block hy
  have hrep := h.agree.heap
  cases hM : d.heap with
  | none =>
    rw [hM] at hz
    cases hz
  | some M =>
    rw [hM] at hrep hz
    obtain ⟨hstart, hsize, hheap, -⟩ := id hrep
    have hz' : z ∈ liveBlocks c.heap.1.startPtr M.blocks := hstart ▸ hz
    have hbounds := located_bounds (liveBlocks_located hz')
    have hend := hheap.endOf_le
    rw [Block.extent] at hbounds
    have hread : interface.blockSize y.1 c.heap = z.2.size := by
      simp only [interface, parseHeader, hyz, Nat.add_sub_cancel]
      exact (hheap.tiled.tags z (liveBlocks_located hz')).size
    exact ⟨M, z, rfl, hrep, hz', hyz, hle, hread, by omega, by omega⟩

theorem Placed.blockSize_eq (h : Placed base size ring c d) {y : ℕ × ℕ} (hy : y ∈ c.live) :
    (Model.instanceAt base size).blockSize y.1 d.heap = interface.blockSize y.1 c.heap := by
  obtain ⟨M, z, hM, ⟨hstart, -⟩, hz, hyz, -, hread, -⟩ := h.block hy
  rw [hread, hM, hyz]
  simp only [Model.instanceAt, Option.elim_some, Nat.add_sub_cancel]
  exact Model.sizeAt_located (hstart ▸ liveBlocks_located hz)

theorem Placed.write {y : ℕ × ℕ} {i : ℕ} (v : UInt8) (h : Placed base size ring c d)
    (hy : y ∈ c.live) (hi : i < interface.blockSize y.1 c.heap) :
    ∃ c' d', c.exec interface (.write y.1 i v) = some c' ∧
      d.exec (Model.instanceAt base size).toInterface (.write y.1 i v) = some d' ∧
      Follows base size c.heap.2 ring c' d' := by
  obtain ⟨M, z, hM, ⟨hstart, hsize, hheap, hsizes⟩, hz, hyz, -, hread, hlow, hhigh⟩ := h.block hy
  have hheap' := hheap.poke (k := y.1 + i) v hz (by omega) (by omega)
  have hrep' : Holds base size ring (interface.poke (y.1 + i) v c.heap)
      ((Model.instanceAt base size).poke (y.1 + i) v d.heap) := by
    rw [hM]
    exact ⟨hstart, hsize, hheap', hsizes⟩
  obtain ⟨c', d', hc, hd, hagree, hc', hd', -⟩ := h.agree.write hrep' rfl
  refine ⟨c', d', hc, hd, ring, .of_heap hagree (hd'.trans hM), rfl, fun x hx _ => ?_⟩
  rw [hc']
  exact poke_of_ne (by omega)

theorem Placed.init (h : Placed base size ring c d) (hmapped : Mapped base size)
    (hout : d.heap = none → ∀ y ∈ ring, y + 32 ≤ base ∨ (base + size ≤ y ∧ base + 8 ≤ y)) :
    ∃ c' d', c.call (instanceAt base size) (regionRules size) .init = some c' ∧
      d.call (Model.instanceAt base size) (regionRules size) .init = some d' ∧
      Follows base size c.heap.2 ring c' d' := by
  have hpos := hmapped.base_pos
  have hle := hmapped.le
  have hrep := h.agree.heap
  refine ⟨_, _, rfl, rfl, ?_⟩
  cases hM : d.heap with
  | none =>
    rw [hM] at hrep
    have hzero : c.heap.1 = {} := hrep
    have hne : base ≠ MAP_FAILED := by
      rw [MAP_FAILED]
      omega
    have hI : (instanceAt base size).init c.heap =
        (0, ⟨base, base, size⟩, ⟨c.heap.2.mem.write64 base 0, c.heap.2.head⟩) := by
      simp [instanceAt, allocInit, hzero, hne]
    have hJ : (Model.instanceAt base size).init none = (0, some {}) := rfl
    rw [hI, hJ]
    have hlist : FreeList ⟨c.heap.2.mem.write64 base 0, c.heap.2.head⟩ ring := by
      refine freeList_congr h.list fun y hy k hk hk' => write64_of_disjoint ?_
      have := hout hM y hy
      omega
    have hfresh : Heap ⟨base, base, size⟩ ⟨c.heap.2.mem.write64 base 0, c.heap.2.head⟩ ring {} := by
      refine .fresh hmapped hlist h.nodes fun y hy => ?_
      have := hout hM y hy
      omega
    have hrep' : Holds base size ring
        (⟨base, base, size⟩, ⟨c.heap.2.mem.write64 base 0, c.heap.2.head⟩) (some {}) :=
      ⟨rfl, rfl, hfresh, fun b hb => by cases hb⟩
    refine ⟨ring, .of_heap (h.agree.answered hrep' ?_ 0) rfl, rfl, fun y hy _ => ?_⟩
    · rw [hM]
      rfl
    · exact write64_of_disjoint (by omega)
  | some M =>
    rw [hM] at hrep
    have hne : c.heap.1.startPtr ≠ 0 := by
      rw [hrep.1]
      omega
    have hI : (instanceAt base size).init c.heap = (1, c.heap) := by
      simp only [instanceAt, allocInit, if_pos hne]
    have hJ : (Model.instanceAt base size).init (some M) = (1, some M) := rfl
    rw [hI, hJ]
    exact h.follows_refl rfl hM.symm (h.agree.answered (hM ▸ h.agree.heap) (hM ▸ rfl) 1)

end Calls

/-- A program beside the abstract one: each instance is in place on one shared list, and each node
of the list is in the region of an instance. -/
structure Coexist {ι : Type} (base size : ι → ℕ) (ring : List ℕ) (c : Program ι)
    (d : ι → Client (Option Model)) : Prop where
  placed : ∀ v, Placed (base v) (size v) ring (c.client v) (d v)
  owner : ∀ y ∈ ring, ∃ v, (region (base v) (size v)).owns y = true

section Regions

variable {ι : Type} {base size : ι → ℕ} {ring : List ℕ} {c : Program ι}
  {d : ι → Client (Option Model)}

theorem Regions.apart (h : Regions base size) {v w : ι} (hne : v ≠ w) :
    base v + size v ≤ base w ∨ (base w + size w ≤ base v ∧ base w + 8 ≤ base v) := by
  rcases h.disjoint v w hne with hd | hd
  · exact Or.inl hd
  · obtain ⟨k, hk⟩ := (h.mapped v).page
    obtain ⟨l, hl⟩ := (h.mapped w).page
    have := h.pos w
    omega

theorem Coexist.confined_malloc (h : Coexist base size ring c d) {w : ι} {n : ℕ}
    (hc : c.confined (w, .use (.malloc n)) = true) :
    FitsOwn (c.clients w).heap c.state ring (roundUp n) := by
  have hp := h.placed w
  have hnodes : freeNodes c.state = ring := freeNodes_eq hp.list hp.nodes
  intro x hx
  simpa [Program.confined, hnodes, hx] using hc

theorem Coexist.confined_drop (h : Coexist base size ring c d) {w : ι} {call : Call}
    (hcall : call = .deinit ∨ call = .use .reset) (hc : c.confined (w, call) = true) :
    (c.clients w).heap.startPtr = 0 ∨ ∀ y ∈ ring, (c.clients w).heap.owns y = true := by
  have hp := h.placed w
  have hnodes : freeNodes c.state = ring := freeNodes_eq hp.list hp.nodes
  rcases hcall with rfl | rfl
  · simpa [Program.confined, hnodes] using hc
  · simpa [Program.confined, hnodes] using hc

theorem Coexist.owns_alone (h : Coexist base size ring c d) {w : ι}
    (halone : ∀ v, v ≠ w → (d v).heap = none) : ∀ y ∈ ring, (c.clients w).heap.owns y = true := by
  intro y hy
  obtain ⟨v, hv⟩ := h.owner y hy
  have hsome := ((h.placed v).inside y hy hv).2
  rcases eq_or_ne v w with rfl | hne
  · obtain ⟨M, hM⟩ := Option.isSome_iff_exists.mp hsome
    have hrep := (h.placed v).agree.heap
    rw [hM] at hrep
    rwa [owns_region hrep.1 hrep.2.1] at hv
  · rw [halone v hne] at hsome
    cases hsome

theorem Coexist.confined_alone (h : Coexist base size ring c d) {w : ι}
    (halone : ∀ v, v ≠ w → (d v).heap = none) (call : Call) : c.confined (w, call) = true := by
  have hp := h.placed w
  have hnodes : freeNodes c.state = ring := freeNodes_eq hp.list hp.nodes
  have hown := h.owns_alone halone
  have hall : (freeNodes c.state).all (c.clients w).heap.owns = true := by
    rw [hnodes]
    exact List.all_eq_true.mpr hown
  match call with
  | .init | .use (.free _) | .use (.write ..) => rfl
  | .deinit | .use .reset => exact decide_eq_true (Or.inr hall)
  | .use (.malloc n) =>
    rw [Program.confined, hnodes]
    cases hx : ring.find? fun x => roundUp n ≤ c.state.mem.read64 x with
    | none => rfl
    | some x => exact hown x (List.mem_of_find?_eq_some hx)

theorem Coexist.unmapped_outside (hreg : Regions base size) (h : Coexist base size ring c d) {w : ι}
    (hw : (d w).heap = none) : ∀ y ∈ ring,
      y + 32 ≤ base w ∨ (base w + size w ≤ y ∧ base w + 8 ≤ y) := by
  intro y hy
  obtain ⟨v, hv⟩ := h.owner y hy
  obtain ⟨hlinks, hsome⟩ := (h.placed v).inside y hy hv
  have hne : v ≠ w := by
    rintro rfl
    rw [hw] at hsome
    cases hsome
  have := hreg.apart hne
  have := owns_region_iff.mp hv
  omega

theorem Coexist.call (hreg : Regions base size) (h : Coexist base size ring c d) (w : ι)
    (call : Call) (hc : c.confined (w, call) = true) :
    Option.Rel (Follows (base w) (size w) c.state ring)
      ((c.client w).call (instanceAt (base w) (size w)) (regionRules (size w)) call)
      ((d w).call (Model.instanceAt (base w) (size w)) (regionRules (size w)) call) := by
  have hp := h.placed w
  have hmapped := hreg.mapped w
  cases call with
  | init =>
    obtain ⟨c', d', hcall, hcall', hf⟩ := hp.init hmapped (h.unmapped_outside hreg)
    rw [hcall, hcall']
    exact .some hf
  | deinit =>
    obtain ⟨c', d', hcall, hcall', hf⟩ := hp.deinit hmapped (h.confined_drop (Or.inl rfl) hc)
    rw [hcall, hcall']
    exact .some hf
  | use act =>
    have hallowed : (d w).allowed (Model.instanceAt (base w) (size w)).toInterface
        (regionRules (size w)) act = (c.client w).allowed interface (regionRules (size w)) act :=
      hp.agree.allowed_eq (fun y hy => hp.blockSize_eq hy) _ act
    have hallowed' : (c.client w).allowed (instanceAt (base w) (size w)).toInterface
        (regionRules (size w)) act =
          (c.client w).allowed interface (regionRules (size w)) act := rfl
    simp only [Client.call, Client.step]
    rw [hallowed, hallowed']
    split_ifs with hact
    · obtain ⟨c', d', hexec, hexec', hf⟩ : ∃ c' d', (c.client w).exec interface act = some c' ∧
          (d w).exec (Model.instanceAt (base w) (size w)).toInterface act = some d' ∧
          Follows (base w) (size w) c.state ring c' d' := by
        cases act with
        | malloc n =>
          obtain ⟨hmin, hmax⟩ := Client.allowed_malloc.mp hact
          exact hp.malloc hmapped hmin hmax (h.confined_malloc hc)
        | free p =>
          refine hp.free ?_
          simpa [regionRules] using Client.allowed_free.mp hact
        | reset => exact hp.reset hmapped (h.confined_drop (Or.inr rfl) hc)
        | write p i v =>
          obtain ⟨y, hy, rfl, hi⟩ := Client.allowed_write.mp hact
          exact hp.write v hy hi
      have hcall : (c.client w).exec (instanceAt (base w) (size w)).toInterface act = some c' :=
        hexec
      rw [hcall, hexec']
      exact .some hf
    · exact .none

end Regions

section Program

variable {ι : Type} [DecidableEq ι] {base size : ι → ℕ} {ring : List ℕ} {c c' : Program ι}
  {d d' : ι → Client (Option Model)}

@[simp] theorem Program.client_put_self (c : Program ι) (w : ι)
    (x : Client (Allocator × State)) : (c.put w x).client w = x := by
  simp only [client, put, Function.update_self]

theorem Program.client_put_of_ne {v w : ι} (h : v ≠ w) (x : Client (Allocator × State)) :
    (c.put w x).client v = { c.client v with heap := ((c.client v).heap.1, x.heap.2) } := by
  simp only [client, put, Function.update_of_ne h]

theorem Coexist.put (hreg : Regions base size) (h : Coexist base size ring c d) {w : ι}
    {x : Client (Allocator × State)} {y : Client (Option Model)}
    (hx : Follows (base w) (size w) c.state ring x y) :
    ∃ ring', Coexist base size ring' (c.put w x) (Function.update d w y) := by
  obtain ⟨ring', hplaced, hwithin⟩ := hx
  refine ⟨ring', fun v => ?_, fun z hz => ?_⟩
  · rcases eq_or_ne v w with rfl | hne
    · rw [Program.client_put_self, Function.update_self]
      exact hplaced
    · have hv := h.placed v
      have hrep := hv.agree.heap
      rw [Program.client_put_of_ne hne, Function.update_of_ne hne]
      have hholds : Holds (base v) (size v) ring' ((c.client v).heap.1, x.heap.2) (d v).heap := by
        cases hM : (d v).heap with
        | none =>
          rw [hM] at hrep
          exact hrep
        | some M =>
          rw [hM] at hrep
          obtain ⟨hstart, hsize, hheap, hsizes⟩ := hrep
          refine ⟨hstart, hsize, hheap.beside hwithin ?_ hplaced.list hplaced.nodes ?_, hsizes⟩
          · rw [hstart, hsize]
            exact hreg.apart hne
          · exact fun z hz hown => (hplaced.inside z hz hown).1
      refine ⟨⟨hholds, hv.agree.owned, hv.agree.live, hv.agree.returned, hv.agree.log⟩,
        hplaced.list, hplaced.nodes, fun z hz hown => hv.inside z ?_ hown⟩
      -- a node in the region of `v` is none of the region of `w`
      have hout : (region (base w) (size w)).owns z = false := by
        have := hreg.disjoint v w hne
        rw [owns_region_iff] at hown
        rw [owns_region_false]
        omega
      have hmem : z ∈ others (region (base w) (size w)) ring :=
        hwithin.outside ▸ mem_others.mpr ⟨hz, hout⟩
      exact (mem_others.mp hmem).1
  · cases hown : (region (base w) (size w)).owns z with
    | true => exact ⟨w, hown⟩
    | false =>
      have hmem : z ∈ others (region (base w) (size w)) ring :=
        hwithin.outside ▸ mem_others.mpr ⟨hz, hown⟩
      exact h.owner z (mem_others.mp hmem).1

theorem Coexist.step (hreg : Regions base size) (h : Coexist base size ring c d) {x : ι × Call}
    (hc : c.confined x = true) :
    Option.Rel (fun c' d' => ∃ ring', Coexist base size ring' c' d') (c.step base size x)
      ((Model.machine base size).step d x) := by
  refine Machine.rel_map ?_ (h.call hreg x.1 x.2 hc)
  exact fun _ _ hf => h.put hreg hf

theorem coexist_init (base size : ι → ℕ) (m : Memory) :
    Coexist base size [] (Program.machine base size m).init (Model.machine base size).init := by
  refine ⟨fun v => ?_, fun y hy => absurd hy List.not_mem_nil⟩
  refine ⟨⟨rfl, Owned.init _, rfl, rfl, rfl⟩, ⟨rfl, Cycle.Chain.nil _⟩, nodes_nil, ?_⟩
  exact fun y hy => absurd hy List.not_mem_nil

/-- A program whose calls stay in their regions acts as the abstract one. -/
theorem run_coexist (hreg : Regions base size) {m : Memory} {acts : List (ι × Call)}
    (hrun : ((Program.machine base size m).under Program.confined).run
      (Program.machine base size m).init acts = some c) :
    ∃ d, (Model.machine base size).run (Model.machine base size).init acts = some d ∧
      ∃ ring, Coexist base size ring c d := by
  refine Machine.follow_under (R := fun c d => ∃ ring, Coexist base size ring c d) ?_
    ⟨[], coexist_init base size m⟩ hrun
  rintro c d x c' ⟨ring, h⟩ hc hstep
  exact Machine.rel_some_left (h.step hreg hc) hstep

/-- The program beside the abstract one, with all instances but one unmapped. -/
def Alone (base size : ι → ℕ) (w : ι) (d : ι → Client (Option Model)) (c : Program ι) : Prop :=
  (∃ ring, Coexist base size ring c d) ∧ ∀ v, v ≠ w → (d v).heap = none

theorem run_alone (hreg : Regions base size) {w : ι} {m : Memory} {acts : List (ι × Call)}
    (hacts : ∀ x ∈ acts, x.1 = w)
    (hrun : (Model.machine base size).run (Model.machine base size).init acts = some d) :
    ∃ c, (Program.machine base size m).run (Program.machine base size m).init acts = some c ∧
      ∃ ring, Coexist base size ring c d := by
  -- the others stay unmapped
  have hunder : ((Model.machine base size).under fun _ x => x.1 = w).run
      (Model.machine base size).init acts = some d := by
    rw [Machine.run_under fun x hx _ => by simpa using hacts x hx]
    exact hrun
  have hstep : ∀ (d : ι → Client (Option Model)) (c : Program ι) (x : ι × Call) d',
      Alone base size w d c → decide (x.1 = w) = true →
        (Model.machine base size).step d x = some d' →
      ∃ c', (Program.machine base size m).step c x = some c' ∧ Alone base size w d' c' := by
    rintro d c ⟨v, call⟩ d' ⟨⟨ring, h⟩, halone⟩ hv hstep
    obtain rfl : v = w := by simpa using hv
    obtain ⟨c', hc', h'⟩ :=
      Machine.rel_some_right (h.step hreg (h.confined_alone halone call)) hstep
    refine ⟨c', hc', h', fun u hu => ?_⟩
    obtain ⟨x, -, rfl⟩ := Machine.parts_step hstep
    rw [Function.update_of_ne hu]
    exact halone u hu
  obtain ⟨c, hc, h, -⟩ := Machine.follow_under hstep
    (⟨⟨[], coexist_init base size m⟩, fun _ _ => rfl⟩) hunder
  exact ⟨c, hc, h⟩

/-- The payloads an instance handed out are in its region, and it answered as it does when the
calls on the others are left out. -/
def Isolated (base size : ι → ℕ) (m : Memory) (acts : List (ι × Call)) (c : Program ι) (w : ι) :
    Prop :=
  (∀ y ∈ (c.clients w).live, base w ≤ y.1 ∧ y.2 ≤ c.state.mem.read64 (y.1 - 16) ∧
      y.1 + c.state.mem.read64 (y.1 - 16) ≤ base w + size w) ∧
    ∃ c₁, (Program.machine base size m).run (Program.machine base size m).init
        (acts.filter fun x => x.1 = w) = some c₁ ∧
      (c₁.clients w).log = (c.clients w).log ∧ (c₁.clients w).live = (c.clients w).live

theorem Placed.payload_inside {base size : ℕ} {c : Client (Allocator × State)}
    {d : Client (Option Model)} (h : Placed base size ring c d) {y : ℕ × ℕ} (hy : y ∈ c.live) :
    base ≤ y.1 ∧ y.2 ≤ c.heap.2.mem.read64 (y.1 - 16) ∧
      y.1 + c.heap.2.mem.read64 (y.1 - 16) ≤ base + size := by
  obtain ⟨M, z, -, -, hz, hyz, hle, hread, hlow, hhigh⟩ := h.block hy
  have hread : c.heap.2.mem.read64 (y.1 - 16) = z.2.size := hread
  omega

/-- While every call stays in its region, instances are isolated. -/
theorem instances_isolated (hreg : Regions base size) {m : Memory} {acts : List (ι × Call)}
    (hrun : ((Program.machine base size m).under Program.confined).run
      (Program.machine base size m).init acts = some c) (w : ι) :
    Isolated base size m acts c w := by
  obtain ⟨d, hd, ring, h⟩ := run_coexist hreg hrun
  obtain ⟨d₁, hd₁, heq⟩ := Machine.parts_alone w rfl hd
  obtain ⟨c₁, hc₁, ring₁, h₁⟩ := run_alone (m := m) hreg
    (fun x hx => by simpa using (List.mem_filter.mp hx).2) hd₁
  have hw := (h.placed w).agree
  have hw₁ := (h₁.placed w).agree
  refine ⟨fun y hy => (h.placed w).payload_inside hy, c₁, hc₁, ?_, ?_⟩
  · exact hw₁.log.symm.trans ((congrArg Client.log heq).trans hw.log)
  · exact hw₁.live.symm.trans ((congrArg Client.live heq).trans hw.live)

end Program

inductive Pair where
  | A
  | B
  deriving DecidableEq

def pairBase : Pair → ℕ
  | .A => 4096
  | .B => 8192

def pairSize (_ : Pair) : ℕ := 4096

theorem pair_regions : Regions pairBase pairSize where
  mapped w := by cases w <;> exact ⟨by decide, by decide, by decide⟩
  pos _ := by simp [pairSize]
  disjoint v w h := by cases v <;> cases w <;> first | exact absurd rfl h | decide

def pairMachine : Machine (Program Pair) (Pair × Call) :=
  Program.machine pairBase pairSize fun _ => 0

/-- Both instances free a block and request again; every request finds its own block first. -/
def besideActs : List (Pair × Call) := [
  (.A, .init), (.B, .init), (.A, .use (.malloc 32)), (.A, .use (.malloc 16)),
  (.B, .use (.malloc 100)), (.B, .use (.malloc 16)), (.B, .use (.free 8208)),
  (.A, .use (.free 4112)), (.A, .use (.malloc 24)), (.B, .use (.malloc 90))]

theorem instances_isolated_beside : ∃ c, (pairMachine.under Program.confined).run pairMachine.init
    besideActs = some c ∧ ∀ w, Isolated pairBase pairSize (fun _ => 0) besideActs c w := by
  obtain ⟨c, hc⟩ := Option.isSome_iff_exists.mp (show ((pairMachine.under Program.confined).run
    pairMachine.init besideActs).isSome = true by decide +kernel)
  exact ⟨c, hc, instances_isolated pair_regions hc⟩

/-- A request finds the block that the other instance freed. -/
def crossingActs : List (Pair × Call) := [
  (.A, .init), (.B, .init), (.B, .use (.malloc 32)), (.B, .use (.free 8208)),
  (.A, .use (.malloc 16))]

/-- The pointer handed out is in the region of the other instance. -/
theorem crossing_not_isolated : ∃ c, pairMachine.run pairMachine.init crossingActs = some c ∧
    ¬ Isolated pairBase pairSize (fun _ => 0) crossingActs c .A := by
  have hlive : (pairMachine.run pairMachine.init crossingActs).map
      (fun c => (c.clients .A).live) = some [(8208, 16)] := by decide +kernel
  obtain ⟨c, hc, hlive⟩ := Option.map_eq_some_iff.mp hlive
  refine ⟨c, hc, fun h => ?_⟩
  have hin := h.1 (8208, 16) (by rw [hlive]; exact List.mem_singleton_self _)
  simp only [pairBase, pairSize] at hin
  omega

end LowLevel.Allocators.Explicit
