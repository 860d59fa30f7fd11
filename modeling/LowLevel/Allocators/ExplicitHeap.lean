import LowLevel.Allocators.FreeRing
import LowLevel.Allocators.Live

/-! # The heap of the explicit allocator

The abstract heap is the list of blocks and the order of the free ones in the
list. The tags tile the used part of the region and the ring links the free
blocks. The head of the ring is shared, so the ring may also link blocks of
other regions; the abstract heap keeps its own part of it.
-/

namespace LowLevel.Allocators.Explicit

open Memory

/-- The blocks of the heap in address order, and the free ones in list order. -/
structure Model where
  blocks : List Block := []
  ring : List ℕ := []
  deriving DecidableEq

namespace Model

variable (start limit : ℕ) (M : Model)

def sizeAt (x : ℕ) : ℕ :=
  match zipper x start M.blocks with
  | some (_, b, _) => b.size
  | none => 0

def take (x r : ℕ) : Model :=
  match zipper x start M.blocks with
  | some (pre, b, post) => {
      blocks := pre ++ carve r b ++ post
      ring :=
        if r + 40 ≤ b.size then M.ring.map fun y => if y = x then x + (r + 24) else y
        else M.ring.filter (· ≠ x) }
  | none => M

/-- Serve a rounded request: the first block of the list that is large enough, else new space. -/
def malloc (r : ℕ) : ℕ × Model :=
  match M.ring.find? fun x => r ≤ M.sizeAt start x with
  | some x => (x + 16, M.take start x r)
  | none =>
    if endOf start M.blocks + (r + 24) ≤ start + limit then
      (endOf start M.blocks + 16, { M with blocks := M.blocks ++ [⟨r, false⟩] })
    else (0, M)

/-- Give a block back: merge it with its free neighbours and put it first in the list. -/
def free (x : ℕ) : Model :=
  match zipper x start M.blocks with
  | some (pre, b, post) =>
    let hdr := endOf start (beforeMerge pre)
    { blocks := release pre b post
      ring := hdr :: (M.ring.filter (· ≠ x + b.extent)).filter (· ≠ hdr) }
  | none => M

end Model

/-- The region of an instance holds the given blocks; its free ones are its part of the ring, and
the other nodes of the ring are outside the region. -/
structure Heap (a : Allocator) (s : State) (ring : List ℕ) (M : Model) : Prop where
  mapped : Mapped a.startPtr a.size
  tiled : Tiled s.mem a.startPtr M.blocks a.lastPtr
  room : a.lastPtr ≤ a.startPtr + a.size
  sizes : ∀ b ∈ M.blocks, b.free = true → 16 ≤ b.size
  separated : Separated M.blocks
  list : FreeList s ring
  nodes : Nodes ring
  own : ring.filter a.owns = M.ring
  foreign : ∀ y ∈ ring, a.owns y = false → y + 32 ≤ a.startPtr ∨ a.startPtr + a.size ≤ y
  perm : M.ring.Perm (freeAddrs a.startPtr M.blocks)

def others (a : Allocator) (ring : List ℕ) : List ℕ := ring.filter fun y => !a.owns y

/-- Memory outside the region, and the blocks in use, are as before; links of nodes outside the
region may differ. -/
def Untouched (a : Allocator) (ring : List ℕ) (bs : List Block) (m m' : Memory) : Prop :=
  ∀ y, Off (others a ring) y → (y < a.startPtr ∨ a.startPtr + a.size ≤ y ∨
    ∃ z ∈ liveBlocks a.startPtr bs, z.1 ≤ y ∧ y < z.1 + z.2.extent) → m' y = m y

section Nodes

variable {a : Allocator} {s : State} {ring ring' : List ℕ} {M : Model} {bs : List Block}
  {m m' : Memory} {y : ℕ}

theorem owns_iff : a.owns y = true ↔ a.startPtr ≤ y ∧ y < a.startPtr + a.size := by
  simp [Allocator.owns]

theorem owns_of_located {z : ℕ × Block} (h : z ∈ located a.startPtr bs)
    (hroom : endOf a.startPtr bs ≤ a.startPtr + a.size) : a.owns z.1 = true := by
  have := located_bounds h
  rw [Block.extent] at this
  exact owns_iff.mpr (by omega)

theorem mem_of_located {start : ℕ} {z : ℕ × Block} (h : z ∈ located start bs) : z.2 ∈ bs := by
  obtain ⟨pre, post, rfl, -⟩ := mem_located_split h
  simp

theorem mem_others : y ∈ others a ring ↔ y ∈ ring ∧ a.owns y = false := by simp [others]

theorem ring_perm (a : Allocator) (ring : List ℕ) :
    (ring.filter a.owns ++ others a ring).Perm ring :=
  List.filter_append_perm _ _

theorem nodes_of_parts (hmapped : Mapped a.startPtr a.size)
    (hroom : endOf a.startPtr bs ≤ a.startPtr + a.size)
    (hperm : (ring'.filter a.owns).Perm (freeAddrs a.startPtr bs)) (hnodes : Nodes ring)
    (hothers : others a ring' = others a ring)
    (hforeign : ∀ y ∈ ring, a.owns y = false → y + 32 ≤ a.startPtr ∨ a.startPtr + a.size ≤ y) :
    Nodes ring' := by
  have hle := hmapped.le
  have hpos := hmapped.base_pos
  -- a node is a free block of the region or one of the other nodes of the old ring
  have hmem : ∀ {y}, y ∈ ring' → (∃ b, (y, b) ∈ located a.startPtr bs) ∨
      (y ∈ ring ∧ (y + 32 ≤ a.startPtr ∨ a.startPtr + a.size ≤ y)) := by
    intro y hy
    rcases List.mem_append.mp ((ring_perm a ring').mem_iff.mpr hy) with hy | hy
    · obtain ⟨b, hb, -⟩ := mem_freeAddrs.mp (hperm.subset hy)
      exact Or.inl ⟨b, hb⟩
    · rw [hothers] at hy
      obtain ⟨hy, hno⟩ := mem_others.mp hy
      exact Or.inr ⟨hy, hforeign y hy hno⟩
  have hbounds : ∀ {y b}, (y, b) ∈ located a.startPtr bs →
      a.startPtr ≤ y ∧ y + 24 ≤ a.startPtr + a.size := by
    intro y b hb
    have := located_bounds hb
    simp only [Block.extent] at this
    omega
  constructor
  case nodup =>
    rw [← (ring_perm a ring').nodup_iff, hothers]
    refine List.Nodup.append (hperm.nodup_iff.mpr ?_) (hnodes.nodup.filter _) ?_
    · refine (freeAddrs_pairwise a.startPtr bs).imp ?_
      intro y z h
      omega
    · intro y hy hy'
      have h₁ := (List.mem_filter.mp hy).2
      rw [(mem_others.mp hy').2] at h₁
      cases h₁
  case apart =>
    intro y hy z hz
    rcases hmem hy with ⟨b, hb⟩ | ⟨hy, hy'⟩ <;> rcases hmem hz with ⟨c, hc⟩ | ⟨hz, hz'⟩
    · rcases located_disjoint hb hc with heq | h | h
      · exact Or.inl (congrArg Prod.fst heq)
      · simp only [Block.extent] at h
        omega
      · simp only [Block.extent] at h
        omega
    · have := hbounds hb
      omega
    · have := hbounds hc
      omega
    · exact hnodes.apart y hy z hz
  case lt =>
    intro y hy
    rcases hmem hy with ⟨b, hb⟩ | ⟨hy, -⟩
    · have := hbounds hb
      omega
    · exact hnodes.lt y hy
  case pos =>
    intro y hy
    rcases hmem hy with ⟨b, hb⟩ | ⟨hy, -⟩
    · have := hbounds hb
      omega
    · exact hnodes.pos y hy

end Nodes

section Links

variable {a : Allocator} {ring l : List ℕ} {bs : List Block} {m m' : Memory} {y last : ℕ}
  (hsizes : ∀ b ∈ bs, b.free = true → 16 ≤ b.size)
  (hroom : endOf a.startPtr bs ≤ a.startPtr + a.size)
  (hl : ∀ x ∈ l, x ∈ freeAddrs a.startPtr bs ∨ x + 32 ≤ a.startPtr ∨ a.startPtr + a.size ≤ x)

include hsizes hl

theorem off_links (hin : a.startPtr ≤ y ∧ y < a.startPtr + a.size)
    (hy : ∀ z ∈ located a.startPtr bs, z.2.free = true →
      y < z.1 + 16 ∨ z.1 + 16 + z.2.size ≤ y) : Off l y := by
  intro x hx
  rcases hl x hx with hx | hx
  · obtain ⟨b, hb, hfree⟩ := mem_freeAddrs.mp hx
    have h16 := hsizes b (mem_of_located hb) hfree
    have := hy _ hb hfree
    simp only at this
    omega
  · omega

include hroom

theorem links_tiled (hm : ∀ y, a.startPtr ≤ y → y < a.startPtr + a.size → Off l y → m' y = m y)
    (h : Tiled m a.startPtr bs last) : Tiled m' a.startPtr bs last := by
  refine ⟨fun z hz => ?_, h.last⟩
  have hb := located_bounds hz
  rw [Block.extent] at hb
  -- the header and the footer of a block are in no payload
  have htag : ∀ y, z.1 ≤ y → y < z.1 + z.2.extent → (y < z.1 + 16 ∨ z.1 + 16 + z.2.size ≤ y) →
      m' y = m y := by
    intro y hy hy' htag
    rw [Block.extent] at hy'
    refine hm y (by omega) (by omega) (off_links hsizes hl (by omega) fun w hw _ => ?_)
    rcases located_disjoint hz hw with rfl | hd | hd
    · exact htag
    · rw [Block.extent] at hd
      omega
    · rw [Block.extent] at hd
      omega
  refine (h.tags z hz).congr ?_ ?_
  · intro y hy hy'
    exact htag y hy (by rw [Block.extent]; omega) (Or.inl hy')
  · intro y hy hy'
    exact htag y (by omega) hy' (Or.inr hy)

theorem links_apart {x : ℕ} {z : ℕ × Block} (hx : x ∈ l) (hz : z ∈ located a.startPtr bs)
    (hne : x ≠ z.1) : x + 32 ≤ z.1 ∨ z.1 + z.2.extent ≤ x := by
  have hb := located_bounds hz
  rcases hl x hx with hx | hx
  · obtain ⟨b, hb, hfree⟩ := mem_freeAddrs.mp hx
    have h16 := hsizes b (mem_of_located hb) hfree
    rcases located_disjoint hb hz with heq | hd | hd
    · exact absurd (congrArg Prod.fst heq) hne
    · simp only [Block.extent] at hd
      omega
    · exact Or.inr hd
  · omega

/-- Behind the link words of free blocks nothing changes. -/
theorem sameInside_links (hm : LinksOnly l m m') : SameInside 32 a.startPtr bs m m' := by
  intro z hz _ k hk hk'
  apply hm
  intro x hx
  rcases eq_or_ne x z.1 with rfl | hne
  · exact Or.inr hk
  · have hapart := links_apart hsizes hroom hl hx hz hne
    rw [Block.extent] at hapart
    omega

end Links

def Spare (start : ℕ) (bs : List Block) (x : ℕ) : Prop :=
  ∃ w ∈ located start bs, w.2.free = true ∧ w.1 ≤ x ∧ x + 32 ≤ w.1 + w.2.extent

theorem spare_of_mem {start y : ℕ} {bs : List Block}
    (hsizes : ∀ b ∈ bs, b.free = true → 16 ≤ b.size) (hy : y ∈ freeAddrs start bs) :
    Spare start bs y := by
  obtain ⟨c, hc, hfree⟩ := mem_freeAddrs.mp hy
  have h16 := hsizes c (mem_of_located hc) hfree
  exact ⟨(y, c), hc, hfree, le_rfl, by simp only [Block.extent]; omega⟩

namespace Untouched

variable {a : Allocator} {ring l : List ℕ} {bs : List Block} {m m' m'' : Memory} {w : ℕ × Block}

theorem trans (h : Untouched a ring bs m m') (h' : Untouched a ring bs m' m'') :
    Untouched a ring bs m m'' :=
  fun y hoff hy => (h' y hoff hy).trans (h y hoff hy)

theorem outside_free {y : ℕ} (hw : w ∈ located a.startPtr bs) (hfree : w.2.free = true)
    (hroom : endOf a.startPtr bs ≤ a.startPtr + a.size)
    (hy : y < a.startPtr ∨ a.startPtr + a.size ≤ y ∨
      ∃ z ∈ liveBlocks a.startPtr bs, z.1 ≤ y ∧ y < z.1 + z.2.extent) :
    y < w.1 ∨ w.1 + w.2.extent ≤ y := by
  have hb := located_bounds hw
  rcases hy with hy | hy | ⟨z, hz, hy⟩
  · omega
  · omega
  · obtain ⟨hz, hlive⟩ := mem_liveBlocks.mp hz
    rcases located_disjoint hz hw with rfl | hd | hd
    · rw [hfree] at hlive
      cases hlive
    · omega
    · omega

theorem of_agreeOutside (hw : w ∈ located a.startPtr bs) (hfree : w.2.free = true)
    (hroom : endOf a.startPtr bs ≤ a.startPtr + a.size)
    (hm : m.AgreeOutside m' w.1 (w.1 + w.2.extent)) : Untouched a ring bs m m' :=
  fun y _ hy => hm y (outside_free hw hfree hroom hy)

theorem of_linksOnly (hroom : endOf a.startPtr bs ≤ a.startPtr + a.size)
    (hl : ∀ x ∈ l, Spare a.startPtr bs x ∨ x ∈ others a ring) (hm : LinksOnly l m m') :
    Untouched a ring bs m m' := by
  intro y hoff hy
  apply hm
  intro x hx
  rcases hl x hx with ⟨w, hw, hfree, hlo, hhi⟩ | hx
  · have := outside_free hw hfree hroom hy
    omega
  · exact hoff x hx

end Untouched

theorem freeList_congr {s : State} {m' : Memory} {l : List ℕ} (h : FreeList s l)
    (hm : ∀ y ∈ l, ∀ k, y + 16 ≤ k → k < y + 32 → m' k = s.mem k) : FreeList ⟨m', s.head⟩ l := by
  refine ⟨h.head, h.ring.congr ?_ ?_⟩
  · exact fun y hy => read64_congr fun k _ _ => hm y hy k (by omega) (by omega)
  · exact fun y hy => read64_congr fun k _ _ => hm y hy k (by omega) (by omega)

section Middle

variable {x y : ℕ} {l₁ l₂ : List ℕ} {p : ℕ → Bool}

theorem filter_ne_middle (h : (l₁ ++ x :: l₂).Nodup) :
    (l₁ ++ x :: l₂).filter (· ≠ x) = l₁ ++ l₂ := by
  have hx := (List.nodup_cons.mp (List.nodup_middle.mp h)).1
  rw [List.filter_append, List.filter_cons_of_neg (by simp), ← List.filter_append,
    List.filter_eq_self]
  intro z hz
  rw [decide_eq_true_iff]
  rintro rfl
  exact hx hz

theorem map_replace_middle (h : (l₁ ++ x :: l₂).Nodup) :
    (l₁ ++ x :: l₂).map (fun z => if z = x then y else z) = l₁ ++ y :: l₂ := by
  have hx := (List.nodup_cons.mp (List.nodup_middle.mp h)).1
  have hid : ∀ l : List ℕ, (∀ z ∈ l, z ∈ l₁ ++ l₂) →
      l.map (fun z => if z = x then y else z) = l := by
    intro l hl
    conv_rhs => rw [← List.map_id l]
    refine List.map_congr_left fun z hz => if_neg ?_
    rintro rfl
    exact hx (hl z hz)
  rw [List.map_append, List.map_cons, if_pos rfl, hid l₁ (by simp +contextual),
    hid l₂ (by simp +contextual)]

theorem filter_middle_of_pos (hx : p x = true) :
    (l₁ ++ x :: l₂).filter p = l₁.filter p ++ x :: l₂.filter p := by
  rw [List.filter_append, List.filter_cons_of_pos hx]

theorem filter_middle_of_neg (hx : p x = false) :
    (l₁ ++ x :: l₂).filter p = (l₁ ++ l₂).filter p := by
  rw [List.filter_append, List.filter_cons_of_neg (by simp [hx]), List.filter_append]

end Middle

section Own

variable {a : Allocator} {ring l₁ l₂ : List ℕ} {x y : ℕ}

theorem own_replace (hring : ring = l₁ ++ x :: l₂) (hnd : ring.Nodup) (hx : a.owns x = true)
    (hy : a.owns y = true) :
    (l₁ ++ y :: l₂).filter a.owns = (ring.filter a.owns).map (fun z => if z = x then y else z) ∧
      others a (l₁ ++ y :: l₂) = others a ring := by
  have hown := hnd.filter a.owns
  subst hring
  rw [filter_middle_of_pos hx] at hown ⊢
  rw [map_replace_middle hown, filter_middle_of_pos hy, others, others,
    filter_middle_of_neg (by simp [hy]), filter_middle_of_neg (by simp [hx])]
  exact ⟨rfl, rfl⟩

theorem own_remove (hring : ring = l₁ ++ x :: l₂) (hnd : ring.Nodup) (hx : a.owns x = true) :
    (l₁ ++ l₂).filter a.owns = (ring.filter a.owns).filter (· ≠ x) ∧
      others a (l₁ ++ l₂) = others a ring := by
  have hown := hnd.filter a.owns
  subst hring
  rw [filter_middle_of_pos hx] at hown ⊢
  rw [filter_ne_middle hown, others, others, filter_middle_of_neg (by simp [hx]),
    List.filter_append]
  exact ⟨rfl, rfl⟩

end Own

section Rebuild

variable {a : Allocator} {s s' : State} {ring ring' : List ℕ} {M M' : Model} {last : ℕ} {b : Block}
  {pre post : List Block}

theorem Heap.endOf_le (h : Heap a s ring M) : endOf a.startPtr M.blocks ≤ a.startPtr + a.size :=
  h.tiled.last ▸ h.room

theorem Heap.exists_ring_split (h : Heap a s ring M) (hM : M.blocks = pre ++ b :: post)
    (hfree : b.free = true) : ∃ l₁ l₂, ring = l₁ ++ endOf a.startPtr pre :: l₂ := by
  have hmem : endOf a.startPtr pre ∈ freeAddrs a.startPtr M.blocks :=
    mem_freeAddrs.mpr ⟨b, hM ▸ mem_located_middle .., hfree⟩
  have hring : endOf a.startPtr pre ∈ ring := by
    have := h.perm.mem_iff.mpr hmem
    rw [← h.own] at this
    exact (List.mem_filter.mp this).1
  exact List.append_of_mem hring

theorem Heap.node_cases (h : Heap a s ring M) {y : ℕ} (hy : y ∈ ring) :
    (∃ c, (y, c) ∈ located a.startPtr M.blocks ∧ c.free = true ∧ 16 ≤ c.size) ∨
      y ∈ others a ring ∧ (y + 32 ≤ a.startPtr ∨ a.startPtr + a.size ≤ y) := by
  cases hown : a.owns y with
  | false => exact Or.inr ⟨mem_others.mpr ⟨hy, hown⟩, h.foreign y hy hown⟩
  | true =>
    have hmem : y ∈ M.ring := h.own ▸ List.mem_filter.mpr ⟨hy, hown⟩
    obtain ⟨c, hc, hfree⟩ := mem_freeAddrs.mp (h.perm.subset hmem)
    exact Or.inl ⟨c, hc, hfree, h.sizes c (mem_of_located hc) hfree⟩

theorem Heap.spare (h : Heap a s ring M) {y : ℕ} (hy : y ∈ ring) (hown : a.owns y = true) :
    Spare a.startPtr M.blocks y := by
  refine spare_of_mem h.sizes (h.perm.subset ?_)
  rw [← h.own]
  exact List.mem_filter.mpr ⟨hy, hown⟩

/-- Where the nodes of a new list are, if it differs from the old one in free blocks only. -/
theorem Heap.placed (h : Heap a s ring M) {bs : List Block} {l : List ℕ}
    (hown : ∀ y ∈ l.filter a.owns, y ∈ freeAddrs a.startPtr bs)
    (hothers : others a l = others a ring) :
    ∀ y ∈ l, y ∈ freeAddrs a.startPtr bs ∨ y + 32 ≤ a.startPtr ∨ a.startPtr + a.size ≤ y := by
  intro y hy
  cases hy' : a.owns y with
  | true => exact Or.inl (hown y (List.mem_filter.mpr ⟨hy, hy'⟩))
  | false =>
    have hother : y ∈ others a ring := hothers ▸ mem_others.mpr ⟨hy, hy'⟩
    exact Or.inr (h.foreign y (mem_others.mp hother).1 hy')

theorem Heap.links_outside (h : Heap a s ring M) {y : ℕ} {z : ℕ × Block} (hy : y ∈ ring)
    (hz : z ∈ located a.startPtr M.blocks) (hne : y ≠ z.1) :
    y + 32 ≤ z.1 ∨ z.1 + z.2.extent ≤ y :=
  links_apart h.sizes h.endOf_le
    (h.placed (fun _ hx => h.perm.subset (h.own ▸ hx)) rfl) hy hz hne

theorem Heap.rebuild (h : Heap a s ring M) (htiled : Tiled s'.mem a.startPtr M'.blocks last)
    (hroom : last ≤ a.startPtr + a.size) (hsizes : ∀ b ∈ M'.blocks, b.free = true → 16 ≤ b.size)
    (hsep : Separated M'.blocks) (hlist : FreeList s' ring')
    (hown : ring'.filter a.owns = M'.ring) (hothers : others a ring' = others a ring)
    (hperm : M'.ring.Perm (freeAddrs a.startPtr M'.blocks)) :
    Heap { a with lastPtr := last } s' ring' M' where
  mapped := h.mapped
  tiled := htiled
  room := hroom
  sizes := hsizes
  separated := hsep
  list := hlist
  nodes := nodes_of_parts h.mapped (htiled.last ▸ hroom) (hown ▸ hperm) h.nodes hothers h.foreign
  own := hown
  foreign := by
    intro y hy hno
    have hmem : y ∈ others a ring := hothers ▸ mem_others.mpr ⟨hy, hno⟩
    exact h.foreign y (mem_others.mp hmem).1 hno
  perm := hperm

end Rebuild

end LowLevel.Allocators.Explicit
