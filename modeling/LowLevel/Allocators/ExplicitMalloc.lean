import LowLevel.Allocators.ExplicitHeap
import Mathlib.Algebra.Order.Ring.Nat

/-! # Requests to the explicit allocator

The walk over the ring ends at the first block that is large enough. Taking that
block, or appending one, does to memory what it does to the abstract heap.
-/

namespace LowLevel.Allocators.Explicit

open Memory

section Search

variable {m : Memory} {head r cur : ℕ} {l : List ℕ}

theorem search_chain (hchain : (cur :: l).IsChain (Linked (nextOf m) (prevOf m)))
    (hlast : nextOf m ((cur :: l).getLast (List.cons_ne_nil _ _)) = head) (hhead : head ∉ l)
    {fuel : ℕ} (hfuel : l.length < fuel) :
    search m head r fuel cur = some ((cur :: l).find? fun x => r ≤ m.read64 x) := by
  induction l generalizing cur fuel with
  | nil =>
    obtain ⟨fuel, rfl⟩ := Nat.exists_eq_add_of_lt hfuel
    have hnext : m.read64 (cur + 24) = head := hlast
    by_cases hfit : r ≤ m.read64 cur
    · simp [search, hfit]
    · simp [search, hfit, hnext]
  | cons x l ih =>
    obtain ⟨fuel, rfl⟩ : ∃ k, fuel = k + 1 := ⟨fuel - 1, by omega⟩
    obtain ⟨hlink, hchain⟩ := List.isChain_cons_cons.mp hchain
    have hnext : m.read64 (cur + 24) = x := hlink.1
    by_cases hfit : r ≤ m.read64 cur
    · simp [search, hfit]
    · have hne : x ≠ head := by
        rintro rfl
        exact hhead (List.mem_cons_self ..)
      rw [List.getLast_cons (List.cons_ne_nil x l)] at hlast
      have hrest : search m head r fuel x = some ((x :: l).find? fun x => r ≤ m.read64 x) := by
        refine ih hchain hlast (fun hmem => hhead (List.mem_cons_of_mem x hmem)) ?_
        rw [List.length_cons] at hfuel
        omega
      rw [search, if_neg hfit, hnext, if_pos hne, hrest]
      exact congrArg some (List.find?_cons_of_neg (by simpa using hfit)).symm

end Search

theorem Nodes.length_le {l : List ℕ} (h : Nodes l) : l.length ≤ 2 ^ 64 := by
  have hsub : l.toFinset ⊆ Finset.range (2 ^ 64) := by
    intro x hx
    exact Finset.mem_range.mpr (h.lt x (List.mem_toFinset.mp hx))
  have hcard := Finset.card_le_card hsub
  rwa [List.toFinset_card_of_nodup h.nodup, Finset.card_range] at hcard

theorem search_run {s : State} {ring : List ℕ} {r : ℕ} (h : FreeList s ring) (hnodes : Nodes ring) :
    (if s.head ≠ 0 then search s.mem s.head r (2 ^ 64) s.head else some none) =
      some (ring.find? fun x => r ≤ s.mem.read64 x) := by
  have hhead := h.head
  cases ring with
  | nil => rw [if_neg (by simpa using hhead), List.find?_nil]
  | cons x l =>
    rw [List.headD_cons] at hhead
    have hpos := hnodes.pos x (List.mem_cons_self ..)
    have hlen := hnodes.length_le
    rw [List.length_cons] at hlen
    have hring := (Ring.iff_chain (List.cons_ne_nil x l)).mp h.ring
    rw [if_pos (by omega), hhead]
    exact search_chain hring.2 hring.1.1 (List.nodup_cons.mp hnodes.nodup).1 (by omega)

section Split

variable {m : Memory} {x n r : ℕ}

theorem splitTags_eq (hsize : m.read64 x = n) (hn : r + 40 ≤ n) :
    splitTags m x r = ((((m.write64 x r).write64 (x + r + 16) r).write64 (x + r + 32) 0).write64
      (x + r + 24) (n - r - 24)).write64 (x + n + 16) (n - r - 24) := by
  have hlt : n - r - 24 < 2 ^ 64 := by
    have := m.read64_lt x
    omega
  simp only [splitTags, hsize, read64_write64_self hlt]
  congr 1
  omega

theorem splitTags_run (hsize : m.read64 x = n) (hflag : m.read64 (x + 8) = 1)
    (hn : r + 40 ≤ n) :
    m.AgreeOutside (splitTags m x r) x (x + n + 24) ∧
      (∀ y, x + r + 40 ≤ y → y < x + n + 16 → splitTags m x r y = m y) ∧
      Tags (splitTags m x r) (x, ⟨r, false⟩) ∧
      Tags (splitTags m x r) (x + (r + 24), ⟨n - r - 24, true⟩) := by
  have hlt := m.read64_lt x
  rw [hsize] at hlt
  rw [splitTags_eq hsize hn]
  refine ⟨?_, ?_, ?_, ?_⟩
  · exact (((((AgreeOutside.refl m _ _).write64 (by omega) (by omega)).write64 (by omega)
      (by omega)).write64 (by omega) (by omega)).write64 (by omega) (by omega)).write64 (by omega)
      (by omega)
  · intro y hy hy'
    simp (disch := omega) only [write64_of_disjoint]
  · constructor
    case size =>
      simp (disch := omega) only [read64_write64_of_disjoint, read64_write64_self]
    case allocated =>
      simp (disch := omega) only [read64_write64_of_disjoint]
      exact hflag
    case footer =>
      rw [show x + 16 + r = x + r + 16 by omega]
      simp (disch := omega) only [read64_write64_of_disjoint, read64_write64_self]
  · rw [← Nat.add_assoc]
    constructor
    case size =>
      simp (disch := omega) only [read64_write64_of_disjoint, read64_write64_self]
    case allocated =>
      simp (disch := omega) only [read64_write64_of_disjoint, read64_write64_self]
      rfl
    case footer =>
      rw [show x + r + 24 + 16 + (n - r - 24) = x + n + 16 by omega]
      simp (disch := omega) only [read64_write64_self]

end Split

/-- An operation leads to a heap with the given blocks and touches nothing else. -/
def Leads (a : Allocator) (s : State) (ring : List ℕ) (bs : List Block) (a' : Allocator)
    (s' : State) (M' : Model) : Prop :=
  ∃ ring', Heap a' s' ring' M' ∧ others a ring' = others a ring ∧
    Untouched a ring bs s.mem s'.mem

section Take

variable {a : Allocator} {s : State} {ring l₁ l₂ : List ℕ} {M : Model} {b : Block} {r : ℕ}
  {pre post : List Block}

theorem Model.take_eq (hM : M.blocks = pre ++ b :: post) :
    M.take a.startPtr (endOf a.startPtr pre) r = {
      blocks := pre ++ carve r b ++ post
      ring :=
        if r + 40 ≤ b.size then M.ring.map fun y =>
          if y = endOf a.startPtr pre then endOf a.startPtr pre + (r + 24) else y
        else M.ring.filter (· ≠ endOf a.startPtr pre) } := by
  rw [Model.take, hM, zipper_middle]

theorem sizes_carve (h : Heap a s ring M) (hM : M.blocks = pre ++ b :: post) :
    ∀ c ∈ pre ++ carve r b ++ post, c.free = true → 16 ≤ c.size := by
  have hsizes := h.sizes
  rw [hM] at hsizes
  intro c hc hfree
  rw [List.mem_append, List.mem_append] at hc
  rcases hc with (hc | hc) | hc
  · exact hsizes c (by simp [hc]) hfree
  · unfold carve at hc
    split_ifs at hc with hsplit
    · rcases List.mem_cons.mp hc with rfl | hc
      · cases hfree
      · obtain rfl := List.mem_singleton.mp hc
        simp only
        omega
    · obtain rfl := List.mem_singleton.mp hc
      cases hfree
  · exact hsizes c (by simp [hc]) hfree

theorem endOf_carved (hM : M.blocks = pre ++ b :: post) :
    endOf a.startPtr (pre ++ carve r b ++ post) = endOf a.startPtr M.blocks := by
  rw [hM, endOf_append, endOf_append, endOf_carve, endOf_append, endOf_cons]

theorem freeAddrs_split (start : ℕ) (hfree : b.free = true) :
    freeAddrs start (pre ++ b :: post) =
      freeAddrs start pre ++ endOf start pre :: freeAddrs (endOf start pre + b.extent) post := by
  rw [freeAddrs_append, freeAddrs_cons, if_pos hfree]
  rfl

theorem freeAddrs_carve (start : ℕ) (hsplit : r + 40 ≤ b.size) :
    freeAddrs start (pre ++ carve r b ++ post) = freeAddrs start pre ++
      (endOf start pre + (r + 24)) :: freeAddrs (endOf start pre + b.extent) post := by
  rw [freeAddrs_append, freeAddrs_append, endOf_append, endOf_carve, carve, if_pos hsplit,
    List.append_assoc]
  rfl

theorem freeAddrs_whole (start : ℕ) (hwhole : ¬ r + 40 ≤ b.size) :
    freeAddrs start (pre ++ carve r b ++ post) =
      freeAddrs start pre ++ freeAddrs (endOf start pre + b.extent) post := by
  rw [freeAddrs_append, freeAddrs_append, endOf_append, endOf_carve, carve, if_neg hwhole,
    List.append_assoc]
  rfl

theorem freeAddrs_nodup (start : ℕ) (bs : List Block) : (freeAddrs start bs).Nodup := by
  refine (freeAddrs_pairwise start bs).imp ?_
  intro y z h
  omega

theorem perm_carve (h : Heap a s ring M) (hM : M.blocks = pre ++ b :: post)
    (hfree : b.free = true) :
    (M.take a.startPtr (endOf a.startPtr pre) r).ring.Perm
      (freeAddrs a.startPtr (pre ++ carve r b ++ post)) := by
  have hperm := h.perm
  have hnd := freeAddrs_nodup a.startPtr M.blocks
  rw [hM, freeAddrs_split _ hfree] at hperm hnd
  rw [Model.take_eq hM]
  split_ifs with hsplit
  · refine (hperm.map _).trans ?_
    rw [map_replace_middle hnd, freeAddrs_carve _ hsplit]
  · refine (hperm.filter _).trans ?_
    rw [filter_ne_middle hnd, freeAddrs_whole _ hsplit]

/-- A free block carries the tags of what it is carved into. -/
structure Marked (a : Allocator) (m m' : Memory) (pre : List Block) (b : Block)
    (post : List Block) (r : ℕ) : Prop where
  agree : m.AgreeOutside m' (endOf a.startPtr pre) (endOf a.startPtr pre + b.extent)
  tiled : Tiled m' a.startPtr (pre ++ carve r b ++ post) a.lastPtr

theorem Heap.tags_at (h : Heap a s ring M) (hM : M.blocks = pre ++ b :: post) :
    Tags s.mem (endOf a.startPtr pre, b) :=
  h.tiled.tags _ (hM ▸ mem_located_middle ..)

theorem Heap.size_marked (h : Heap a s ring M) (hM : M.blocks = pre ++ b :: post) :
    (s.mem.write64 (endOf a.startPtr pre + 8) 1).read64 (endOf a.startPtr pre) = b.size := by
  rw [read64_write64_of_disjoint (by omega)]
  exact (h.tags_at hM).size

theorem marked_split (h : Heap a s ring M) (hM : M.blocks = pre ++ b :: post)
    (hsplit : r + 40 ≤ b.size) :
    Marked a s.mem (splitTags (s.mem.write64 (endOf a.startPtr pre + 8) 1)
      (endOf a.startPtr pre) r) pre b post r ∧
    SameInside 32 (endOf a.startPtr pre) (carve r b) s.mem
      (splitTags (s.mem.write64 (endOf a.startPtr pre + 8) 1) (endOf a.startPtr pre) r) := by
  obtain ⟨hagree, hinside, htag₁, htag₂⟩ := splitTags_run (h.size_marked hM)
    (read64_write64_self (by omega)) hsplit
  have hm : s.mem.AgreeOutside (splitTags (s.mem.write64 (endOf a.startPtr pre + 8) 1)
      (endOf a.startPtr pre) r) (endOf a.startPtr pre) (endOf a.startPtr pre + b.extent) := by
    intro y hy
    rw [Block.extent] at hy
    rw [hagree y (by omega), write64_of_disjoint (by omega)]
  constructor
  · refine ⟨hm, (hM ▸ h.tiled).carve hm fun z hz => ?_⟩
    rw [carve, if_pos hsplit] at hz
    rcases List.mem_cons.mp hz with rfl | hz
    · exact htag₁
    · obtain rfl := List.mem_singleton.mp hz
      exact htag₂
  · intro z hz hfree k hk hk'
    rw [carve, if_pos hsplit] at hz
    rcases List.mem_cons.mp hz with rfl | hz
    · cases hfree
    · obtain rfl := List.mem_singleton.mp hz
      simp only [Block.extent] at hk hk'
      rw [hinside k (by omega) (by omega), write64_of_disjoint (by omega)]

theorem marked_whole (h : Heap a s ring M) (hM : M.blocks = pre ++ b :: post)
    (hwhole : ¬ r + 40 ≤ b.size) :
    Marked a s.mem (s.mem.write64 (endOf a.startPtr pre + 8) 1) pre b post r := by
  have hm : s.mem.AgreeOutside (s.mem.write64 (endOf a.startPtr pre + 8) 1)
      (endOf a.startPtr pre) (endOf a.startPtr pre + b.extent) :=
    (AgreeOutside.refl _ _ _).write64 (by omega) (by rw [Block.extent]; omega)
  refine ⟨hm, (hM ▸ h.tiled).carve hm fun z hz => ?_⟩
  rw [carve, if_neg hwhole] at hz
  obtain rfl := List.mem_singleton.mp hz
  have htags := h.tags_at hM
  constructor
  case size => exact Heap.size_marked (b := b) h hM
  case allocated => exact read64_write64_self (by omega)
  case footer =>
    rw [read64_write64_of_disjoint (by simp only; omega)]
    exact htags.footer

theorem Marked.links {m : Memory} (hmark : Marked a s.mem m pre b post r) (h : Heap a s ring M)
    (hM : M.blocks = pre ++ b :: post) {y : ℕ} (hy : y ∈ ring) (hne : y ≠ endOf a.startPtr pre) :
    ∀ k, y + 16 ≤ k → k < y + 32 → m k = s.mem k := by
  have hmem : (endOf a.startPtr pre, b) ∈ located a.startPtr M.blocks := hM ▸ mem_located_middle ..
  have hout := h.links_outside hy hmem hne
  intro k hk hk'
  simp only at hout
  exact hmark.agree k (by omega)

theorem Marked.leads {m : Memory} {s' : State} {ring' : List ℕ} {M' : Model}
    (hmark : Marked a s.mem m pre b post r) (h : Heap a s ring M)
    (hM : M.blocks = pre ++ b :: post) (hfree : b.free = true)
    (hblocks : M'.blocks = pre ++ carve r b ++ post)
    (hown : ring'.filter a.owns = M'.ring) (hothers : others a ring' = others a ring)
    (hperm : M'.ring.Perm (freeAddrs a.startPtr (pre ++ carve r b ++ post)))
    (hlist : FreeList s' ring') (hlinks : LinksOnly ring' m s'.mem)
    (hspare : ∀ y ∈ ring', a.owns y = true → Spare a.startPtr M.blocks y)
    (hinside : SameInside 32 (endOf a.startPtr pre) (carve r b) s.mem m) :
    Leads a s ring M.blocks a s' M' ∧ SameInside 32 a.startPtr M'.blocks s.mem s'.mem := by
  have hmem : (endOf a.startPtr pre, b) ∈ located a.startPtr M.blocks := hM ▸ mem_located_middle ..
  have hsizes := sizes_carve (r := r) h hM
  have hend := endOf_carved (a := a) (r := r) hM
  have hsep := h.separated
  rw [hM] at hsep
  have hcases := h.placed (fun y hy => hperm.subset (hown ▸ hy)) hothers
  refine ⟨⟨ring', h.rebuild (hblocks ▸ ?_) h.room (hblocks ▸ hsizes)
    (hblocks ▸ hsep.carve hfree r) hlist hown hothers (hblocks ▸ hperm), hothers, ?_⟩, ?_⟩
  · exact links_tiled hsizes (hend ▸ h.endOf_le) hcases (fun y _ _ => hlinks y) hmark.tiled
  · refine (Untouched.of_agreeOutside hmem hfree h.endOf_le hmark.agree).trans
      (Untouched.of_linksOnly h.endOf_le (fun y hy => ?_) hlinks)
    cases hy' : a.owns y with
    | true => exact Or.inl (hspare y hy hy')
    | false => exact Or.inr (hothers ▸ mem_others.mpr ⟨hy, hy'⟩)
  · rw [hblocks]
    refine (SameInside.splice ?_ hinside).trans
      (sameInside_links hsizes (hend ▸ h.endOf_le) hcases hlinks)
    rw [endOf_append, endOf_carve]
    exact hmark.agree

theorem take_split (h : Heap a s ring M) (hM : M.blocks = pre ++ b :: post) (hfree : b.free = true)
    (hsplit : r + 40 ≤ b.size) :
    Leads a s ring M.blocks a (take s (endOf a.startPtr pre) r)
        (M.take a.startPtr (endOf a.startPtr pre) r) ∧
      SameInside 32 a.startPtr (M.take a.startPtr (endOf a.startPtr pre) r).blocks s.mem
        (take s (endOf a.startPtr pre) r).mem := by
  obtain ⟨l₁, l₂, hring⟩ := h.exists_ring_split hM hfree
  have hmem : (endOf a.startPtr pre, b) ∈ located a.startPtr M.blocks := hM ▸ mem_located_middle ..
  have hbounds := located_bounds hmem
  have hroom := h.endOf_le
  have hperm := perm_carve (r := r) h hM hfree
  rw [Model.take_eq hM, if_pos hsplit] at hperm ⊢
  simp only [Block.extent] at hbounds
  have hy : a.owns (endOf a.startPtr pre + (r + 24)) = true := owns_iff.mpr (by omega)
  obtain ⟨hown, hothers⟩ := own_replace hring h.nodes.nodup (owns_of_located hmem hroom) hy
  rw [h.own] at hown
  have hnew : Nodes (l₁ ++ (endOf a.startPtr pre + (r + 24)) :: l₂) :=
    nodes_of_parts h.mapped (endOf_carved hM ▸ hroom) (hown ▸ hperm) h.nodes hothers h.foreign
  obtain ⟨hmark, hinside⟩ := marked_split h hM hsplit
  obtain ⟨hlist', hlinks⟩ := replace_run (hring ▸ h.list) (hring ▸ h.nodes) hnew fun y hy => by
    have hy' : y ∈ ring := by
      rw [hring]
      exact ((List.sublist_cons_self _ l₂).append_left l₁).subset hy
    have hne : y ≠ endOf a.startPtr pre := by
      rintro rfl
      exact (hring ▸ h.nodes).notMem hy
    have hkeep := hmark.links h hM hy' hne
    exact ⟨read64_congr fun k _ _ => hkeep k (by omega) (by omega),
      read64_congr fun k _ _ => hkeep k (by omega) (by omega)⟩
  have htake : take s (endOf a.startPtr pre) r = replace
      ⟨splitTags (s.mem.write64 (endOf a.startPtr pre + 8) 1) (endOf a.startPtr pre) r, s.head⟩
      (endOf a.startPtr pre) (prevOf s.mem (endOf a.startPtr pre))
      (nextOf s.mem (endOf a.startPtr pre)) (endOf a.startPtr pre + (r + 24)) := by
    have hle := h.mapped.le
    rw [take, h.size_marked hM, if_pos (by omega)]
    rfl
  rw [← htake] at hlist' hlinks
  refine hmark.leads h hM hfree rfl hown hothers hperm hlist' hlinks (fun y hy hy' => ?_) hinside
  rcases eq_or_ne y (endOf a.startPtr pre + (r + 24)) with rfl | hne
  · exact ⟨_, hmem, hfree, by simp only; omega, by simp only [Block.extent]; omega⟩
  · refine h.spare ?_ hy'
    rw [hring]
    rcases List.mem_append.mp hy with hy | hy
    · exact List.mem_append_left _ hy
    · exact List.mem_append_right _
        (List.mem_cons_of_mem _ ((List.mem_cons.mp hy).resolve_left hne))

theorem take_whole (h : Heap a s ring M) (hM : M.blocks = pre ++ b :: post) (hfree : b.free = true)
    (hwhole : ¬ r + 40 ≤ b.size) (hrlt : r + 40 < 2 ^ 64) :
    Leads a s ring M.blocks a (take s (endOf a.startPtr pre) r)
        (M.take a.startPtr (endOf a.startPtr pre) r) ∧
      SameInside 32 a.startPtr (M.take a.startPtr (endOf a.startPtr pre) r).blocks s.mem
        (take s (endOf a.startPtr pre) r).mem := by
  obtain ⟨l₁, l₂, hring⟩ := h.exists_ring_split hM hfree
  have hmem : (endOf a.startPtr pre, b) ∈ located a.startPtr M.blocks := hM ▸ mem_located_middle ..
  have hperm := perm_carve (r := r) h hM hfree
  rw [Model.take_eq hM, if_neg hwhole] at hperm ⊢
  obtain ⟨hown, hothers⟩ := own_remove hring h.nodes.nodup (owns_of_located hmem h.endOf_le)
  rw [h.own] at hown
  have hmark := marked_whole h hM hwhole
  -- the flag is in front of the links
  have hlist : FreeList ⟨s.mem.write64 (endOf a.startPtr pre + 8) 1, s.head⟩ ring := by
    refine freeList_congr h.list fun y hy k hk hk' => ?_
    rcases eq_or_ne y (endOf a.startPtr pre) with rfl | hne
    · exact write64_of_disjoint (by omega)
    · exact hmark.links h hM hy hne k hk hk'
  have hprev : prevOf (s.mem.write64 (endOf a.startPtr pre + 8) 1) (endOf a.startPtr pre) =
      prevOf s.mem (endOf a.startPtr pre) := read64_write64_of_disjoint (by omega)
  have hnext : nextOf (s.mem.write64 (endOf a.startPtr pre + 8) 1) (endOf a.startPtr pre) =
      nextOf s.mem (endOf a.startPtr pre) := read64_write64_of_disjoint (by omega)
  obtain ⟨hlist', hlinks⟩ := unlink_run (hring ▸ hlist) (hring ▸ h.nodes)
  have htake : take s (endOf a.startPtr pre) r = unlink
      ⟨s.mem.write64 (endOf a.startPtr pre + 8) 1, s.head⟩ (endOf a.startPtr pre)
      (prevOf s.mem (endOf a.startPtr pre)) (nextOf s.mem (endOf a.startPtr pre)) := by
    rw [take, h.size_marked hM, if_neg (by omega)]
    rfl
  rw [hprev, hnext, ← htake] at hlist' hlinks
  refine hmark.leads h hM hfree rfl hown hothers hperm hlist' hlinks (fun y hy hy' => ?_) ?_
  · refine h.spare ?_ hy'
    rw [hring]
    rcases List.mem_append.mp hy with hy | hy
    · exact List.mem_append_left _ hy
    · exact List.mem_append_right _ (List.mem_cons_of_mem _ hy)
  · -- nothing free is left of the block
    intro z hz hfree
    rw [carve, if_neg hwhole] at hz
    obtain rfl := List.mem_singleton.mp hz
    cases hfree

end Take

section Malloc

variable {a : Allocator} {s : State} {ring : List ℕ} {M : Model} {r : ℕ}

theorem Leads.refl (h : Heap a s ring M) : Leads a s ring M.blocks a s M :=
  ⟨ring, h, rfl, fun _ _ _ => rfl⟩

theorem append_leads (h : Heap a s ring M)
    (hfits : a.lastPtr + (r + 24) ≤ a.startPtr + a.size) :
    ∃ s', append a s r = (a.lastPtr + 16, { a with lastPtr := a.lastPtr + (r + 24) }, s') ∧
      Leads a s ring M.blocks { a with lastPtr := a.lastPtr + (r + 24) } s'
        { M with blocks := M.blocks ++ [⟨r, false⟩] } ∧
      SameInside 32 a.startPtr (M.blocks ++ [⟨r, false⟩]) s.mem s'.mem := by
  have hle := h.mapped.le
  have hagree : s.mem.AgreeOutside (((s.mem.write64 (a.lastPtr + 8) 1).write64 a.lastPtr r).write64
      (a.lastPtr + 16 + r) r) a.lastPtr (a.lastPtr + (r + 24)) :=
    (((AgreeOutside.refl _ _ _).write64 (by omega) (by omega)).write64 (by omega)
      (by omega)).write64 (by omega) (by omega)
  refine ⟨_, by rw [append, if_neg (by omega), Nat.mod_eq_of_lt (by omega),
    Nat.mod_eq_of_lt (by omega)], ?_⟩
  refine ⟨⟨ring, h.rebuild ?_ hfits ?_ (h.separated.concat r) ?_ h.own rfl ?_, rfl, ?_⟩, ?_⟩
  · refine h.tiled.concat hagree ⟨?_, ?_, ?_⟩
    · simp (disch := omega) only [read64_write64_of_disjoint, read64_write64_self]
    · simp (disch := omega) only [read64_write64_of_disjoint, read64_write64_self]
      rfl
    · simp (disch := omega) only [read64_write64_self]
  · intro b hb hfree
    rcases List.mem_append.mp hb with hb | hb
    · exact h.sizes b hb hfree
    · obtain rfl := List.mem_singleton.mp hb
      cases hfree
  · -- no node has its links in the new block
    refine freeList_congr h.list fun y hy k hk hk' => hagree k ?_
    rcases h.node_cases hy with ⟨c, hc, -, h16⟩ | ⟨-, hy⟩
    · have := h.tiled.bounds hc
      simp only [Block.extent] at this
      omega
    · have := h.tiled.last ▸ le_endOf a.startPtr M.blocks
      omega
  · rw [freeAddrs_append]
    simpa [freeAddrs_cons, freeAddrs, located] using h.perm
  · intro y _ hy
    apply hagree
    have hstart := h.tiled.last ▸ le_endOf a.startPtr M.blocks
    rcases hy with hy | hy | ⟨z, hz, hy⟩
    · omega
    · omega
    · have := h.tiled.bounds (liveBlocks_located hz)
      omega
  · rw [← List.append_nil (M.blocks ++ _)]
    refine SameInside.splice ?_ fun z hz hfree => ?_
    · rw [endOf_append, h.tiled.last]
      exact hagree
    · obtain rfl := List.mem_singleton.mp hz
      cases hfree

theorem sizeAt_node (h : Heap a s ring M) {y : ℕ} (hy : y ∈ ring) (hown : a.owns y = true) :
    M.sizeAt a.startPtr y = s.mem.read64 y := by
  rcases h.node_cases hy with ⟨c, hc, -, -⟩ | ⟨hother, -⟩
  · obtain ⟨pre, post, hblocks, heq⟩ := mem_located_split hc
    simp only at hblocks heq
    rw [Model.sizeAt, hblocks, heq, zipper_middle, ← heq]
    exact (h.tiled.tags _ hc).size.symm
  · rw [(mem_others.mp hother).2] at hown
    cases hown

def FitsOwn (a : Allocator) (s : State) (ring : List ℕ) (r : ℕ) : Prop :=
  ∀ x, (ring.find? fun x => r ≤ s.mem.read64 x) = some x → a.owns x = true

theorem find?_filter_of_owned {α : Type*} {l : List α} {p q o : α → Bool}
    (hpq : ∀ x ∈ l, o x = true → q x = p x) (hfit : ∀ x, l.find? p = some x → o x = true) :
    (l.filter o).find? q = l.find? p := by
  induction l with
  | nil => rfl
  | cons x l ih =>
    cases hp : p x with
    | true =>
      have hfind : (x :: l).find? p = some x := List.find?_cons_of_pos hp
      have ho := hfit x hfind
      rw [hfind, List.filter_cons_of_pos ho, List.find?_cons_of_pos]
      rw [hpq x (List.mem_cons_self ..) ho, hp]
    | false =>
      have hfind : (x :: l).find? p = l.find? p := List.find?_cons_of_neg (by simp [hp])
      rw [hfind] at hfit ⊢
      have hrest := ih (fun y hy => hpq y (List.mem_cons_of_mem x hy)) hfit
      cases ho : o x with
      | true =>
        have hq : q x = false := (hpq x (List.mem_cons_self ..) ho).trans hp
        rw [List.filter_cons_of_pos ho, List.find?_cons_of_neg (by simp [hq]), hrest]
      | false => rw [List.filter_cons_of_neg (by simp [ho]), hrest]

theorem find?_own (h : Heap a s ring M) (hfit : FitsOwn a s ring r) :
    (M.ring.find? fun x => r ≤ M.sizeAt a.startPtr x) =
      ring.find? fun x => r ≤ s.mem.read64 x := by
  rw [← h.own]
  refine find?_filter_of_owned (fun x hx hown => ?_) hfit
  rw [sizeAt_node h hx hown]

theorem allocMalloc_eq (a : Allocator) (s : State) (size : ℕ) : allocMalloc a s size =
    (if s.head ≠ 0 then search s.mem s.head (roundUp size) (2 ^ 64) s.head else some none).bind
      fun found => match found with
        | some current => some (current + 16, a, take s current (roundUp size))
        | none => some (append a s (roundUp size)) := by
  rw [allocMalloc]
  split_ifs <;> rfl

/-- A request does to memory what it does to the abstract heap. -/
theorem malloc_refines (h : Heap a s ring M) {size : ℕ}
    (hsize : a.lastPtr + 24 + roundUp size < 2 ^ 64) (hfit : FitsOwn a s ring (roundUp size)) :
    ∃ a' s', allocMalloc a s size =
        some ((M.malloc a.startPtr a.size (roundUp size)).1, a', s') ∧
      a'.startPtr = a.startPtr ∧ a'.size = a.size ∧
      Leads a s ring M.blocks a' s' (M.malloc a.startPtr a.size (roundUp size)).2 ∧
      SameInside 32 a.startPtr (M.malloc a.startPtr a.size (roundUp size)).2.blocks s.mem
        s'.mem := by
  have hsearch := search_run (r := roundUp size) h.list h.nodes
  have hown := find?_own h hfit
  have hle := h.mapped.le
  have hpage := Nat.le_of_dvd h.mapped.base_pos h.mapped.page
  have hlast := h.tiled.last ▸ le_endOf a.startPtr M.blocks
  rw [allocMalloc_eq, hsearch, Option.bind_some, Model.malloc, hown]
  cases hfind : ring.find? fun x => roundUp size ≤ s.mem.read64 x with
  | some x =>
    refine ⟨a, take s x (roundUp size), rfl, rfl, rfl, ?_⟩
    have hx := List.mem_of_find?_eq_some hfind
    have hfits : roundUp size ≤ s.mem.read64 x := by simpa using List.find?_some hfind
    rcases h.node_cases hx with ⟨b, hb, hfree, -⟩ | ⟨hother, -⟩
    · obtain ⟨pre, post, hM, heq⟩ := mem_located_split hb
      simp only at hM heq
      subst heq
      by_cases hsplit : roundUp size + 40 ≤ b.size
      · exact take_split h hM hfree hsplit
      · exact take_whole h hM hfree hsplit (by omega)
    · have := hfit x hfind
      rw [(mem_others.mp hother).2] at this
      cases this
  | none =>
    have hroom := h.room
    simp only [h.tiled.last]
    by_cases hfits : a.lastPtr + (roundUp size + 24) ≤ a.startPtr + a.size
    · obtain ⟨s', happend, hleads⟩ := append_leads h hfits
      rw [if_pos hfits, happend]
      exact ⟨_, _, rfl, rfl, rfl, hleads⟩
    · rw [if_neg hfits, append, if_pos (by omega)]
      exact ⟨_, _, rfl, rfl, rfl, Leads.refl h, SameInside.refl _ _ _ _⟩

end Malloc

end LowLevel.Allocators.Explicit
