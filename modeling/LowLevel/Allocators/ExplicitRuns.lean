import LowLevel.Allocators.ExplicitFree
import LowLevel.Allocators.Simulation

/-! # Clients of the explicit allocator

A client that uses one instance by the rules finds its heap in order after every
run: the tags tile the used part of the region, the list links exactly the free
blocks, and what it stored in its live blocks is still there.
-/

namespace LowLevel.Allocators.Explicit

open Memory

def regionRules (size : ℕ) : Rules := { minSize := 1, maxSize := size }

def Model.interface (base size : ℕ) : Interface Model where
  malloc n M := some (M.malloc base size (roundUp n))
  free ptr M := some (0, M.free base (ptr - 16))
  reset _ := (0, {})
  poke _ _ M := M
  blockSize ptr M := M.sizeAt base (ptr - 16)

/-- The heap of an instance is the abstract one, with nothing else in the list. -/
structure Rep (base size : ℕ) (h : Allocator × State) (M : Model) : Prop where
  start : h.1.startPtr = base
  size : h.1.size = size
  heap : Heap h.1 h.2 M.ring M

structure Sized (base size : ℕ) (h : Allocator × State) (M : Model) : Prop extends
    Rep base size h M where
  sizes : ∀ b ∈ M.blocks, 16 ≤ b.size

section Operations

variable {base size : ℕ} {M : Model} {a : Allocator} {s : State}

theorem malloc_served {ring : List ℕ} (h : Heap a s ring M) (limit r : ℕ) :
    Served a.startPtr r M.blocks (M.malloc a.startPtr limit r).1
      (M.malloc a.startPtr limit r).2.blocks := by
  rw [Model.malloc]
  cases hfind : M.ring.find? fun x => r ≤ M.sizeAt a.startPtr x with
  | some x =>
    have hx := List.mem_of_find?_eq_some hfind
    have hfits : r ≤ M.sizeAt a.startPtr x := by simpa using List.find?_some hfind
    obtain ⟨b, hb, hfree⟩ := mem_freeAddrs.mp (h.perm.subset hx)
    obtain ⟨pre, post, hM, heq⟩ := mem_located_split hb
    simp only at hM heq
    rw [Model.sizeAt, hM, heq, zipper_middle] at hfits
    subst heq
    simp only [Model.take_eq hM]
    rw [hM]
    exact .carve pre b post hfree hfits
  | none =>
    simp only
    split_ifs
    · exact .concat M.blocks
    · exact .full M.blocks

theorem Model.sizeAt_located {start : ℕ} {z : ℕ × Block} (hz : z ∈ located start M.blocks) :
    M.sizeAt start z.1 = z.2.size := by
  obtain ⟨pre, post, hM, heq⟩ := mem_located_split hz
  rw [Model.sizeAt, hM, heq, zipper_middle]

/-- With nothing outside the region in the list, the list is that of the abstract heap. -/
theorem Leads.alone {ring : List ℕ} {bs : List Block} {a' : Allocator} {s' : State} {M' : Model}
    (h : Leads a s ring bs a' s' M') (hstart : a'.startPtr = a.startPtr) (hsize : a'.size = a.size)
    (hring : others a ring = []) :
    Heap a' s' M'.ring M' ∧ ∀ z ∈ liveBlocks a.startPtr bs, SameBlock z s.mem s'.mem := by
  obtain ⟨ring', hheap, hothers, hsame⟩ := h
  have howns : a'.owns = a.owns := by
    funext y
    rw [Allocator.owns, Allocator.owns, hstart, hsize]
  have hall : ring'.filter a'.owns = ring' := by
    rw [hring, others, List.filter_eq_nil_iff] at hothers
    rw [List.filter_eq_self, howns]
    intro y hy
    simpa using hothers y hy
  have hring' : ring' = M'.ring := hall.symm.trans hheap.own
  refine ⟨hring' ▸ hheap, fun z hz k hk hk' => hsame k ?_ (Or.inr (Or.inr ⟨z, hz, hk, hk'⟩))⟩
  rw [hring]
  exact fun x hx => by cases hx

theorem others_own (h : Heap a s M.ring M) : others a M.ring = [] := by
  rw [others, List.filter_eq_nil_iff, ← h.own]
  intro y hy
  simpa using (List.mem_filter.mp hy).2

theorem Heap.fresh {ring : List ℕ} (hmapped : Mapped base size) (hlist : FreeList s ring)
    (hnodes : Nodes ring) (hout : ∀ y ∈ ring, y + 32 ≤ base ∨ base + size ≤ y) :
    Heap ⟨base, base, size⟩ s ring {} where
  mapped := hmapped
  tiled := ⟨fun z hz => absurd hz List.not_mem_nil, rfl⟩
  room := Nat.le_add_right _ _
  sizes b hb _ := by cases hb
  separated := List.isChain_nil
  list := hlist
  nodes := hnodes
  own := by
    refine List.filter_eq_nil_iff.mpr fun y hy hown => ?_
    have hin : base ≤ y ∧ y < base + size := owns_iff.mp hown
    have := hout y hy
    omega
  foreign y hy _ := hout y hy
  perm := .refl _

theorem nodes_nil : Nodes [] := by constructor <;> simp

theorem Heap.reset {ring : List ℕ} (h : Heap a s ring M) :
    Heap { a with lastPtr := a.startPtr } { s with head := 0 } [] {} :=
  .fresh h.mapped ⟨rfl, Cycle.Chain.nil _⟩ nodes_nil fun _ hy => absurd hy List.not_mem_nil

theorem Heap.poke {ring : List ℕ} (h : Heap a s ring M) {z : ℕ × Block} {k : ℕ} (v : UInt8)
    (hz : z ∈ liveBlocks a.startPtr M.blocks) (hk : z.1 + 16 ≤ k) (hk' : k < z.1 + 16 + z.2.size) :
    Heap a { s with mem := s.mem.poke k v } ring M := by
  obtain ⟨hz, hlive⟩ := mem_liveBlocks.mp hz
  refine { h with tiled := h.tiled.poke v hz hk hk', list := ?_ }
  refine freeList_congr h.list fun y hy j hj hj' => poke_of_ne ?_
  have hne : y ≠ z.1 := by
    rintro rfl
    rcases h.node_cases hy with ⟨c, hc, hfree, -⟩ | ⟨-, hout⟩
    · rw [located_inj hc hz, hlive] at hfree
      cases hfree
    · have := located_bounds hz
      have := h.endOf_le
      rw [Block.extent] at *
      omega
  have hout := h.links_outside hy hz hne
  rw [Block.extent] at hout
  omega

end Operations

section Calls

variable {base size n : ℕ} {h : Allocator × State} {M : Model} {b : Block} {pre post : List Block}

theorem Rep.malloc (hrep : Rep base size h M) (hn : h.1.lastPtr + 24 + roundUp n < 2 ^ 64) :
    ∃ h', interface.malloc n h = some ((M.malloc base size (roundUp n)).1, h') ∧
      Rep base size h' (M.malloc base size (roundUp n)).2 ∧
      Served base (roundUp n) M.blocks (M.malloc base size (roundUp n)).1
        (M.malloc base size (roundUp n)).2.blocks ∧
      (∀ z ∈ liveBlocks base M.blocks, SameBlock z h.2.mem h'.2.mem) ∧
      SameInside 32 base (M.malloc base size (roundUp n)).2.blocks h.2.mem h'.2.mem := by
  obtain ⟨a, s⟩ := h
  obtain ⟨rfl, rfl, hheap⟩ := hrep
  have hfit : FitsOwn a s M.ring (roundUp n) := by
    intro x hx
    have hmem := List.mem_of_find?_eq_some hx
    rw [← hheap.own] at hmem
    exact (List.mem_filter.mp hmem).2
  obtain ⟨a', s', heq, hstart, hsize, hleads, hinside⟩ := malloc_refines hheap hn hfit
  obtain ⟨hheap', hsame⟩ := hleads.alone hstart hsize (others_own hheap)
  exact ⟨(a', s'), heq, ⟨hstart, hsize, hheap'⟩, malloc_served hheap a.size (roundUp n), hsame,
    hinside⟩

theorem Rep.free (hrep : Rep base size h M) (hM : M.blocks = pre ++ b :: post)
    (hlive : b.free = false) (hmerged : 16 ≤ (merged pre b post).size) :
    ∃ h', interface.free (endOf base pre + 16) h = some (0, h') ∧
      Rep base size h' (M.free base (endOf base pre)) ∧
      (M.free base (endOf base pre)).blocks = release pre b post ∧
      (∀ z ∈ liveBlocks base (release pre b post), SameBlock z h.2.mem h'.2.mem) ∧
      SameInside 32 base (release pre b post) h.2.mem h'.2.mem := by
  obtain ⟨a, s⟩ := h
  obtain ⟨rfl, rfl, hheap⟩ := hrep
  simp only at hheap ⊢
  obtain ⟨s', hfree, hleads, hinside⟩ := free_refines hheap hM hlive hmerged
  obtain ⟨hheap', hsame⟩ := hleads.alone rfl rfl (others_own hheap)
  refine ⟨(a, s'), ?_, ⟨rfl, rfl, hheap'⟩, ?_, hsame, hinside⟩
  · simp only [interface, hfree]
  · rw [Model.free_eq hM]

theorem Rep.reset (hrep : Rep base size h M) :
    (interface.reset h).1 = 0 ∧ Rep base size (interface.reset h).2 {} := by
  obtain ⟨a, s⟩ := h
  obtain ⟨rfl, rfl, hheap⟩ := hrep
  simp only [interface, allocReset, if_neg hheap.mapped.base_pos.ne']
  exact ⟨trivial, rfl, rfl, hheap.reset⟩

theorem Rep.poke {z : ℕ × Block} {k : ℕ} (v : UInt8) (hrep : Rep base size h M)
    (hz : z ∈ liveBlocks base M.blocks) (hk : z.1 + 16 ≤ k) (hk' : k < z.1 + 16 + z.2.size) :
    Rep base size (interface.poke k v h) M := by
  obtain ⟨a, s⟩ := h
  obtain ⟨rfl, rfl, hheap⟩ := hrep
  exact ⟨rfl, rfl, hheap.poke v hz hk hk'⟩

theorem Rep.blockSize {z : ℕ × Block} (hrep : Rep base size h M)
    (hz : z ∈ liveBlocks base M.blocks) : interface.blockSize (z.1 + 16) h = z.2.size ∧
      (Model.interface base size).blockSize (z.1 + 16) M = z.2.size := by
  obtain ⟨rfl, -, hheap⟩ := hrep
  have hz := liveBlocks_located hz
  simp only [interface, Model.interface, parseHeader, Nat.add_sub_cancel]
  exact ⟨(hheap.tiled.tags z hz).size, Model.sizeAt_located hz⟩

theorem sizes_served {r p : ℕ} {bs bs' : List Block} (h : Served base r bs p bs')
    (hsizes : ∀ b ∈ bs, 16 ≤ b.size) (hr : 16 ≤ r) : ∀ b ∈ bs', 16 ≤ b.size := by
  intro c hc
  rcases h.size_cases hc with heq | ⟨b, hb, heq | ⟨hsplit, heq⟩⟩
  · exact heq ▸ hr
  · exact heq ▸ hsizes b hb
  · omega

theorem le_merged_size (pre : List Block) (b : Block) (post : List Block) :
    b.size ≤ (merged pre b post).size := by
  simp only [merged]
  omega

theorem sizes_released (hsizes : ∀ c ∈ pre ++ b :: post, 16 ≤ c.size) :
    ∀ c ∈ release pre b post, 16 ≤ c.size := by
  have hb := hsizes b (by simp)
  rw [merge_parts] at hsizes
  intro c hc
  rcases List.mem_append.mp hc with hc | hc
  · exact hsizes c (by simp [hc])
  · rcases List.mem_cons.mp hc with rfl | hc
    · exact hb.trans (le_merged_size pre b post)
    · exact hsizes c (by simp [hc])

theorem Rep.no_overflow (hrep : Rep base size h M) (hn : n ≤ size) :
    n + 15 < 2 ^ 64 ∧ h.1.lastPtr + 24 + roundUp n < 2 ^ 64 := by
  obtain ⟨rfl, rfl, hheap⟩ := hrep
  have hle := hheap.mapped.le
  have hpage := Nat.le_of_dvd hheap.mapped.base_pos hheap.mapped.page
  have hroom := hheap.room
  have hlt := (roundUp_spec (n := n) (by omega)).2.1
  omega

end Calls

theorem roundUp_pos {n : ℕ} (hpos : 1 ≤ n) (hn : n + 15 < 2 ^ 64) : 16 ≤ roundUp n := by
  have := roundUp_spec hn
  omega

/-- The allocator acts as the abstract one. -/
theorem simulates (base size : ℕ) : Simulates interface (Model.interface base size)
    (regionRules size) base (fun h => h.2.mem) Model.blocks (Sized base size) where
  once := rfl
  malloc := by
    rintro h M n ⟨hrep, hsizes⟩ hmin hmax
    obtain ⟨hn, hlast⟩ := hrep.no_overflow hmax
    obtain ⟨h', heq, hrep', hserved, hsame, -⟩ := hrep.malloc hlast
    have h16 := roundUp_pos (n := n) hmin hn
    exact ⟨_, h', _, roundUp n, heq, rfl, ⟨hrep', sizes_served hserved hsizes h16⟩,
      (roundUp_spec hn).1, hserved, hsame⟩
  free := by
    rintro h M pre b post ⟨hrep, hsizes⟩ hM hlive
    have hb := hsizes b (by simp [hM])
    obtain ⟨h', heq, hrep', hblocks, hsame, -⟩ :=
      hrep.free hM hlive (hb.trans (le_merged_size pre b post))
    refine ⟨0, h', M.free base (endOf base pre), heq, ?_, ⟨hrep', ?_⟩, hblocks, hsame⟩
    · simp only [Model.interface, Nat.add_sub_cancel]
    · rw [hblocks]
      exact sizes_released (hM ▸ hsizes)
  reset := by
    rintro h M ⟨hrep, -⟩
    obtain ⟨hcode, hrep'⟩ := hrep.reset
    exact ⟨hcode, ⟨hrep', fun b hb => by cases hb⟩, rfl⟩
  poke := by
    rintro h M z k v ⟨hrep, hsizes⟩ hz hk hk'
    exact ⟨⟨hrep.poke v hz hk hk', hsizes⟩, rfl, rfl⟩
  blockSize := fun hrep hz => hrep.toRep.blockSize hz

section Runs

variable {base size : ℕ} {c : Client (Allocator × State)} {d : Client Model}

/-- A client of the allocator beside a client of the abstract one. -/
abbrev Sound (base size : ℕ) := Agree base Model.blocks (Sized base size)

variable {a a' : Allocator} {s s' : State} {mmap : ℕ}

theorem init_sound (hmapped : Mapped mmap size) (hhead : s.head = 0)
    (hinit : allocInit a s size mmap = (0, a', s')) :
    Sound mmap size { heap := (a', s') } { heap := {} } := by
  unfold allocInit at hinit
  split_ifs at hinit
  · cases hinit
  · cases hinit
  · cases hinit
    refine ⟨⟨⟨rfl, rfl, ?_⟩, fun b hb => by cases hb⟩, Owned.init _, rfl, rfl, rfl⟩
    exact .fresh hmapped ⟨hhead, Cycle.Chain.nil _⟩ nodes_nil fun _ hy => absurd hy List.not_mem_nil

/-- The heap is sound in every reachable state. -/
theorem sound_of_reachable (hmapped : Mapped mmap size) (hhead : s.head = 0)
    (hinit : allocInit a s size mmap = (0, a', s'))
    (hc : (Client.machine interface (regionRules size) (a', s')).Reachable c) :
    ∃ d, Sound mmap size c d :=
  (simulates mmap size).reachable (init_sound hmapped hhead hinit) hc

structure Coherent (c : Client (Allocator × State)) (bs : List Block) (ring : List ℕ) : Prop where
  tiled : Tiled c.heap.2.mem c.heap.1.startPtr bs c.heap.1.lastPtr
  sizes : ∀ b ∈ bs, 16 ≤ b.size
  allocated : ∀ z ∈ located c.heap.1.startPtr bs, c.heap.2.mem.read64 (z.1 + 8) =
    if z.1 + 16 ∈ c.live.map Prod.fst then 1 else 0
  live : ∀ p ∈ c.live.map Prod.fst, ∃ z ∈ located c.heap.1.startPtr bs, p = z.1 + 16
  separated : Separated bs
  list : FreeList c.heap.2 ring
  once : ring.Nodup
  visits : ring.Perm (freeAddrs c.heap.1.startPtr bs)
  empty : c.heap.2.head = 0 ↔ freeAddrs c.heap.1.startPtr bs = []
  single : c.live = [] → c.heap.1.startPtr < c.heap.1.lastPtr → ∃ n, bs = [⟨n, true⟩]

/-- Free blocks that are never neighbours are at most one. -/
theorem single_of_separated {bs : List Block} (hsep : Separated bs)
    (hfree : ∀ b ∈ bs, b.free = true) (hne : bs ≠ []) : ∃ n, bs = [⟨n, true⟩] := by
  match bs with
  | [] => exact absurd rfl hne
  | [b] =>
    obtain ⟨n, free⟩ := b
    obtain rfl : free = true := hfree _ (List.mem_singleton_self _)
    exact ⟨n, rfl⟩
  | b :: c :: bs =>
    have := (List.isChain_cons_cons.mp hsep).1
    exact absurd ⟨hfree b (by simp), hfree c (by simp)⟩ this

theorem sound_coherent (h : Sound base size c d) : Coherent c d.heap.blocks d.heap.ring := by
  obtain ⟨⟨⟨rfl, rfl, hheap⟩, hsizes⟩, howned, -, -, -⟩ := h
  have hptr : ∀ z ∈ located c.heap.1.startPtr d.heap.blocks,
      z.2.free = false ↔ z.1 + 16 ∈ c.live.map Prod.fst := by
    intro z hz
    rw [howned.perm.mem_iff, List.mem_map]
    constructor
    · exact fun hlive => ⟨z, mem_liveBlocks.mpr ⟨hz, hlive⟩, rfl⟩
    · rintro ⟨w, hw, heq⟩
      obtain ⟨hw, hlive⟩ := mem_liveBlocks.mp hw
      obtain ⟨n, b⟩ := z
      obtain ⟨n', b'⟩ := w
      obtain rfl : n' = n := Nat.add_right_cancel heq
      rw [located_inj hz hw]
      exact hlive
  constructor
  case tiled => exact hheap.tiled
  case sizes => exact hsizes
  case allocated =>
    intro z hz
    rw [(hheap.tiled.tags z hz).allocated]
    by_cases hlive : z.2.free = false
    · rw [if_pos ((hptr z hz).mp hlive), hlive]
      rfl
    · rw [if_neg (mt (hptr z hz).mpr hlive), if_pos (by simpa using hlive)]
  case live =>
    intro p hp
    obtain ⟨z, hz, heq⟩ := List.mem_map.mp (howned.perm.subset hp)
    exact ⟨z, liveBlocks_located hz, heq.symm⟩
  case separated => exact hheap.separated
  case list => exact hheap.list
  case once => exact hheap.nodes.nodup
  case visits => exact hheap.perm
  case empty =>
    rw [hheap.list.head, ← List.length_eq_zero_iff, ← hheap.perm.length_eq]
    cases hring : d.heap.ring with
    | nil => simp
    | cons x l =>
      have := hheap.nodes.pos x (by simp [hring])
      simp only [List.headD_cons, List.length_cons]
      omega
  case single =>
    intro hlive hlt
    refine single_of_separated hheap.separated ?_ ?_
    · intro b hb
      obtain ⟨pre, post, hM⟩ := List.append_of_mem hb
      by_contra hb
      have := (hptr (endOf c.heap.1.startPtr pre, b) (hM ▸ mem_located_middle ..)).mp
        (by simpa using hb)
      simp [hlive] at this
    · intro hnil
      have := hheap.tiled.last
      rw [hnil, endOf_nil] at this
      omega

/-- Tags, live blocks and the free list agree in every reachable state, and every allowed
action returns. -/
theorem heap_coherent (hmapped : Mapped mmap size) (hhead : s.head = 0)
    (hinit : allocInit a s size mmap = (0, a', s'))
    (hc : (Client.machine interface (regionRules size) (a', s')).Reachable c) :
    (∃ bs ring, Coherent c bs ring) ∧ ∀ act, c.allowed interface (regionRules size) act = true →
      ∃ c', c.step interface (regionRules size) act = some c' := by
  obtain ⟨d, hsound⟩ := sound_of_reachable hmapped hhead hinit hc
  refine ⟨⟨_, _, sound_coherent hsound⟩, fun act hact => ?_⟩
  obtain ⟨c', d', hexec, -, -, -⟩ := (simulates mmap size).exec hsound hact
  exact ⟨c', by rw [Client.step, if_pos hact, hexec]⟩

/-- A page of zeros, and the client after it requested two blocks and gave the first one back. -/
def pageInit : ℕ × Allocator × State := allocInit {} ⟨fun _ => 0, 0⟩ 4096 4096

def pageClient : Client (Allocator × State) :=
  ((Client.machine interface (regionRules 4096) pageInit.2).run { heap := pageInit.2 }
    [.malloc 100, .malloc 24, .free 4112]).getD { heap := pageInit.2 }

theorem pageClient_reachable :
    (Client.machine interface (regionRules 4096) pageInit.2).Reachable pageClient :=
  ⟨[.malloc 100, .malloc 24, .free 4112], rfl⟩

theorem page_mapped : Mapped 4096 4096 := ⟨by decide, by decide, by decide⟩

theorem heap_coherent_page : (∃ bs ring, Coherent pageClient bs ring) ∧
    ∀ act, pageClient.allowed interface (regionRules 4096) act = true →
      ∃ c', pageClient.step interface (regionRules 4096) act = some c' :=
  heap_coherent (a := {}) (s := ⟨fun _ => 0, 0⟩) page_mapped rfl rfl pageClient_reachable

def payload (c : Client (Allocator × State)) (p : ℕ) : ℕ := c.heap.2.mem.read64 (p - 16)

theorem sound_payload (h : Sound base size c d) {z : ℕ × Block}
    (hz : z ∈ liveBlocks base d.heap.blocks) : payload c (z.1 + 16) = z.2.size := by
  obtain ⟨⟨⟨rfl, rfl, hheap⟩, -⟩, -, -, -, -⟩ := h
  exact (hheap.tiled.tags z (liveBlocks_located hz)).size

/-- The requested bytes of live pointers are in the region and apart from the other payloads, no
operation changes them, and so a client reads what it stored last. -/
theorem live_data_safe (hmapped : Mapped mmap size) (hhead : s.head = 0)
    (hinit : allocInit a s size mmap = (0, a', s'))
    (hc : (Client.machine interface (regionRules size) (a', s')).Reachable c) :
    (∀ y ∈ c.live, mmap ≤ y.1 ∧ y.1 + y.2 ≤ mmap + size) ∧
      (∀ y ∈ c.live, ∀ y' ∈ c.live, y ≠ y' →
        y.1 + y.2 ≤ y'.1 ∨ y'.1 + payload c y'.1 ≤ y.1) ∧
      (∀ act c', c.step interface (regionRules size) act = some c' →
        ∀ y ∈ c.live, ∀ i < payload c y.1, act.spares y.1 i = true →
          y ∈ c'.live ∧ c'.heap.2.mem (y.1 + i) = c.heap.2.mem (y.1 + i)) ∧
      ∀ p i v acts c', (Client.machine interface (regionRules size) (a', s')).run c
          (.write p i v :: acts) = some c' →
        (∀ act ∈ acts, act.spares p i = true) → c'.heap.2.mem (p + i) = v := by
  obtain ⟨d, hsound⟩ := sound_of_reachable hmapped hhead hinit hc
  have hbounds : ∀ z ∈ liveBlocks mmap d.heap.blocks,
      mmap ≤ z.1 ∧ z.1 + z.2.extent ≤ mmap + size := by
    intro z hz
    obtain ⟨⟨⟨rfl, rfl, hheap⟩, -⟩, -, -, -, -⟩ := hsound
    have := located_bounds (liveBlocks_located hz)
    have := hheap.endOf_le
    omega
  refine ⟨fun y hy => ?_, fun y hy y' hy' hne => ?_, fun act c' hstep y hy i hi hspare => ?_, ?_⟩
  · obtain ⟨z, hz, hyz, hle⟩ := hsound.owned.block hy
    have := hbounds z hz
    rw [Block.extent] at this
    omega
  · obtain ⟨z, hz, hyz, hle⟩ := hsound.owned.block hy
    obtain ⟨z', hz', hyz', hle'⟩ := hsound.owned.block hy'
    rw [hyz', sound_payload hsound hz', ← hyz']
    rcases located_disjoint (liveBlocks_located hz) (liveBlocks_located hz') with rfl | hd | hd
    · have heq : y.1 = y'.1 := by omega
      exact absurd (List.inj_on_of_nodup_map hsound.owned.nodup hy hy' heq) hne
    · rw [Block.extent] at hd
      omega
    · rw [Block.extent] at hd
      omega
  · obtain ⟨z, hz, hyz, hle⟩ := hsound.owned.block hy
    rw [hyz, sound_payload hsound hz] at hi
    obtain ⟨d', -, hsame⟩ := (simulates mmap size).step hsound hstep
    obtain ⟨hy', -, hbyte⟩ := hsame y hy z hz hyz i hi hspare
    exact ⟨hy', hbyte⟩
  · intro p i v acts c' hrun hspare
    exact (simulates mmap size).read_back hsound hspare hrun

/-- A page with a free block between two live ones. A request takes the free block, the second
live block is given back, and the first one is read as it was written. -/
theorem live_data_safe_page : ∃ c c₁ c₂,
    (Client.machine interface (regionRules 4096) pageInit.2).run { heap := pageInit.2 }
      [.malloc 100, .malloc 24, .malloc 40, .free 4248] = some c ∧
    c.live = [(4304, 40), (4112, 100)] ∧
    (∀ y ∈ c.live, 4096 ≤ y.1 ∧ y.1 + y.2 ≤ 4096 + 4096) ∧
    (∀ y ∈ c.live, ∀ y' ∈ c.live, y ≠ y' →
      y.1 + y.2 ≤ y'.1 ∨ y'.1 + payload c y'.1 ≤ y.1) ∧
    c.step interface (regionRules 4096) (.malloc 20) = some c₁ ∧
    (∀ y ∈ c.live, ∀ i < payload c y.1,
      y ∈ c₁.live ∧ c₁.heap.2.mem (y.1 + i) = c.heap.2.mem (y.1 + i)) ∧
    (Client.machine interface (regionRules 4096) pageInit.2).run c
      [.write 4112 105 7, .malloc 20, .free 4304] = some c₂ ∧
    c₂.heap.2.mem (4112 + 105) = 7 := by
  have hruns : ((Client.machine interface (regionRules 4096) pageInit.2).run
      { heap := pageInit.2 } [.malloc 100, .malloc 24, .malloc 40, .free 4248]).any (fun c =>
        c.live = [(4304, 40), (4112, 100)] ∧
        (c.step interface (regionRules 4096) (.malloc 20)).isSome ∧
        ((Client.machine interface (regionRules 4096) pageInit.2).run c
          [.write 4112 105 7, .malloc 20, .free 4304]).isSome) = true := by decide +kernel
  obtain ⟨c, hrun, hc⟩ := (Option.any_eq_true _ _).mp hruns
  obtain ⟨hlive, hstep, hrest⟩ := of_decide_eq_true hc
  obtain ⟨c₁, hc₁⟩ := Option.isSome_iff_exists.mp hstep
  obtain ⟨c₂, hc₂⟩ := Option.isSome_iff_exists.mp hrest
  obtain ⟨hinside, hapart, hframe, hread⟩ := live_data_safe (a := {}) (s := ⟨fun _ => 0, 0⟩)
    page_mapped rfl rfl ⟨_, hrun⟩
  refine ⟨c, c₁, c₂, hrun, hlive, hinside, hapart, hc₁, ?_, hc₂, ?_⟩
  · exact fun y hy i hi => hframe _ c₁ hc₁ y hy i hi rfl
  · exact hread 4112 105 7 _ c₂ hc₂ (by decide)

end Runs

end LowLevel.Allocators.Explicit
