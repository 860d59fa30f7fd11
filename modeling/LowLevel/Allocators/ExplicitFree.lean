import LowLevel.Allocators.ExplicitMalloc

/-! # Giving blocks back to the explicit allocator

A block that is given back absorbs the free block after it and merges into the
free block before it; both leave the list, and the merged block is its new head.
-/

namespace LowLevel.Allocators.Explicit

open Memory

section Neighbours

variable {start x y : ℕ} {b : Block} {pre post : List Block}

theorem mem_freeAddrs_right (post : List Block) :
    y ∈ freeAddrs x post ↔ (y = x ∧ freeRight post ≠ []) ∨
      y ∈ freeAddrs (endOf x (freeRight post)) (afterMerge post) := by
  conv_lhs => rw [← freeRight_append post, freeAddrs_append, List.mem_append]
  rcases freeRight_cases post with ⟨c, rest, -, hc, hright, -⟩ | ⟨hright, -, -⟩
  · simp [hright, hc, freeAddrs, located]
  · simp [hright, freeAddrs, located]

theorem lt_of_mem_afterMerge (h : y ∈ freeAddrs (endOf x (freeRight post)) (afterMerge post)) :
    x < y := by
  obtain ⟨d, hd, hfree⟩ := mem_freeAddrs.mp h
  have hb := located_bounds hd
  rcases freeRight_cases post with ⟨c, rest, -, -, hright, -⟩ | ⟨hright, hafter, hhead⟩
  · rw [hright, endOf_cons, endOf_nil] at hb
    simp only [Block.extent] at hb
    omega
  · rw [hright, hafter, endOf_nil] at hd
    cases post with
    | nil => cases hd
    | cons c rest =>
      rcases List.mem_cons.mp hd with heq | hd
      · obtain rfl : d = c := congrArg Prod.snd heq
        rw [hhead d rfl] at hfree
        cases hfree
      · have := located_bounds hd
        simp only [Block.extent] at this
        omega

theorem mem_freeAddrs_left (pre : List Block) :
    y ∈ freeAddrs start pre ↔ (y = endOf start (beforeMerge pre) ∧ freeLeft pre ≠ []) ∨
      y ∈ freeAddrs start (beforeMerge pre) := by
  conv_lhs => rw [← beforeMerge_append pre, freeAddrs_append, List.mem_append]
  rcases freeLeft_cases pre with ⟨c, rest, -, hc, hleft, -⟩ | ⟨hleft, -, -⟩
  · simp [hleft, hc, freeAddrs, located, or_comm]
  · simp [hleft, freeAddrs, located]

/-- The address after a block is a free block only if that is merged. -/
theorem notMem_freeAddrs_next (hright : freeRight post = []) :
    endOf start pre + b.extent ∉ freeAddrs start (pre ++ b :: post) := by
  rw [List.append_cons, freeAddrs_append, endOf_append, endOf_cons, endOf_nil, List.mem_append,
    mem_freeAddrs_right post]
  rintro (h | ⟨-, h⟩ | h)
  · obtain ⟨c, hc, -⟩ := mem_freeAddrs.mp h
    have := located_bounds hc
    simp only [endOf_append, endOf_cons, endOf_nil, Block.extent] at this
    omega
  · exact h hright
  · exact absurd (lt_of_mem_afterMerge h) (lt_irrefl _)

theorem mem_freeAddrs_release (hlive : b.free = false) :
    y ∈ freeAddrs start (release pre b post) ↔ y = endOf start (beforeMerge pre) ∨
      (y ∈ freeAddrs start (pre ++ b :: post) ∧ y ≠ endOf start pre + b.extent) ∧
        y ≠ endOf start (beforeMerge pre) := by
  have hle : endOf start (beforeMerge pre) ≤ endOf start pre := by
    conv_rhs => rw [← beforeMerge_append pre, endOf_append]
    exact le_endOf ..
  have hbefore : y ∈ freeAddrs start (beforeMerge pre) → y < endOf start (beforeMerge pre) := by
    intro hy
    obtain ⟨c, hc, -⟩ := mem_freeAddrs.mp hy
    have := located_bounds hc
    simp only [Block.extent] at this
    omega
  have hafter := @lt_of_mem_afterMerge (endOf start pre + b.extent) y post
  have hnew : freeAddrs start (release pre b post) = freeAddrs start (beforeMerge pre) ++
      endOf start (beforeMerge pre) ::
        freeAddrs (endOf (endOf start pre + b.extent) (freeRight post)) (afterMerge post) := by
    rw [release, freeAddrs_append, freeAddrs_cons, endOf_merged]
    rfl
  have hold : freeAddrs start (pre ++ b :: post) =
      freeAddrs start pre ++ freeAddrs (endOf start pre + b.extent) post := by
    rw [freeAddrs_append, freeAddrs_cons, hlive]
    rfl
  rw [hnew, hold, List.mem_append, List.mem_append, List.mem_cons, mem_freeAddrs_left pre,
    mem_freeAddrs_right post]
  constructor
  · rintro (hy | hy | hy)
    · have := hbefore hy
      exact Or.inr ⟨⟨Or.inl (Or.inr hy), by omega⟩, by omega⟩
    · exact Or.inl hy
    · have := hafter hy
      exact Or.inr ⟨⟨Or.inr (Or.inr hy), by omega⟩, by omega⟩
  · rintro (hy | ⟨⟨(⟨hy, -⟩ | hy) | (⟨hy, -⟩ | hy), hne⟩, hne'⟩)
    · exact Or.inr (Or.inl hy)
    · exact absurd hy hne'
    · exact Or.inl hy
    · exact absurd hy hne
    · exact Or.inr (Or.inr hy)

end Neighbours

structure Absorbed (a : Allocator) (s : State) (l : List ℕ) (s' : State) (l' : List ℕ) (y : ℕ) :
    Prop where
  list : FreeList s' l'
  nodes : Nodes l'
  own : l'.filter a.owns = (l.filter a.owns).filter (· ≠ y)
  others : others a l' = others a l
  links : LinksOnly l s.mem s'.mem
  subset : l' ⊆ l

section Coalesce

variable {a : Allocator} {s : State} {l : List ℕ} {y n : ℕ} {b : Block}
  {bs pre post : List Block}

theorem LinksOnly.mono {l l' : List ℕ} {m m' : Memory} (h : LinksOnly l m m') (hl : l ⊆ l') :
    LinksOnly l' m m' :=
  fun y hy => h y fun x hx => hy x (hl hx)

theorem absorbed_unlink (hlist : FreeList s l) (hnodes : Nodes l) (hy : y ∈ l)
    (hown : a.owns y = true) :
    ∃ l', Absorbed a s l (unlink s y (prevOf s.mem y) (nextOf s.mem y)) l' y ∧
      LinksOnly l' s.mem (unlink s y (prevOf s.mem y) (nextOf s.mem y)).mem := by
  obtain ⟨l₁, l₂, rfl⟩ := List.append_of_mem hy
  obtain ⟨hlist', hlinks⟩ := unlink_run hlist hnodes
  obtain ⟨hown', hothers⟩ := own_remove rfl hnodes.nodup hown
  have hsub : l₁ ++ l₂ ⊆ l₁ ++ y :: l₂ :=
    ((List.sublist_cons_self y l₂).append_left l₁).subset
  exact ⟨l₁ ++ l₂, ⟨hlist', hnodes.rest, hown', hothers, hlinks.mono hsub, hsub⟩, hlinks⟩

theorem absorbed_skip (hlist : FreeList s l) (hnodes : Nodes l) (hy : y ∉ l.filter a.owns) :
    Absorbed a s l s l y where
  list := hlist
  nodes := hnodes
  own := by
    symm
    rw [List.filter_eq_self]
    intro z hz
    rw [decide_eq_true_iff]
    rintro rfl
    exact hy hz
  others := rfl
  links := LinksOnly.refl _ _
  subset := List.Subset.refl _

/-- The list beside the blocks while one of them is given back. -/
structure Linking (a : Allocator) (s : State) (l : List ℕ) (bs : List Block) : Prop where
  list : FreeList s l
  nodes : Nodes l
  tiled : Tiled s.mem a.startPtr bs a.lastPtr
  room : a.lastPtr ≤ a.startPtr + a.size
  sizes : ∀ b ∈ bs, b.free = true → 16 ≤ b.size
  spare : ∀ x ∈ l, x ∈ freeAddrs a.startPtr bs ∨ x + 32 ≤ a.startPtr ∨ a.startPtr + a.size ≤ x

theorem Linking.absorbed {s' : State} {l' : List ℕ} (h : Linking a s l bs)
    (habs : Absorbed a s l s' l' y) : Linking a s' l' bs where
  list := habs.list
  nodes := habs.nodes
  tiled := links_tiled h.sizes (h.tiled.last ▸ h.room) h.spare (fun y _ _ => habs.links y) h.tiled
  room := h.room
  sizes := h.sizes
  spare x hx := h.spare x (habs.subset hx)

/-- A free block that is still a node is absorbed. -/
theorem Linking.absorb (h : Linking a s l bs) {c : Block} (hc : (y, c) ∈ located a.startPtr bs)
    (hy : y ∈ l) : s.mem.read64 (y + 8) = (if c.free then 0 else 1) ∧
      ∃ l', Absorbed a s l (unlink s y (prevOf s.mem y) (nextOf s.mem y)) l' y ∧
        LinksOnly l' s.mem (unlink s y (prevOf s.mem y) (nextOf s.mem y)).mem ∧
        (unlink s y (prevOf s.mem y) (nextOf s.mem y)).mem.read64 y = c.size := by
  obtain ⟨l', hl', hlinks⟩ := absorbed_unlink h.list h.nodes hy
    (owns_of_located hc (h.tiled.last ▸ h.room))
  exact ⟨(h.tiled.tags _ hc).allocated, l', hl', hlinks, ((h.absorbed hl').tiled.tags _ hc).size⟩

theorem coalesceFront_run (h : Linking a s l (pre ++ b :: post))
    (hmem : ∀ y, y ∈ l.filter a.owns ↔ y ∈ freeAddrs a.startPtr (pre ++ b :: post)) :
    ∃ s' l', coalesceFront a s (endOf a.startPtr pre + 16) b.size =
        (b.size + extents (freeRight post), s') ∧
      Absorbed a s l s' l' (endOf a.startPtr pre + b.extent) ∧ LinksOnly l' s.mem s'.mem := by
  have hnext : endOf a.startPtr pre + 16 + b.size + 8 = endOf a.startPtr pre + b.extent := by
    rw [Block.extent]
    omega
  have hlast := h.tiled.last
  rw [endOf_append, endOf_cons] at hlast
  rw [coalesceFront, hnext]
  have hloc : ∀ c rest, post = c :: rest → (endOf a.startPtr pre + b.extent, c) ∈
      located a.startPtr (pre ++ b :: post) := by
    rintro c rest rfl
    rw [List.append_cons]
    simpa using mem_located_middle a.startPtr (pre ++ [b]) c rest
  rcases freeRight_cases post with ⟨c, rest, hpost, hc, hright, -⟩ | ⟨hright, -, hhead⟩
  · have hin := List.mem_filter.mp
      ((hmem _).mpr (mem_freeAddrs.mpr ⟨c, hloc c rest hpost, hc⟩))
    obtain ⟨hflag, l', hl', hlinks, hsize⟩ := h.absorb (hloc c rest hpost) hin.1
    have hbounds := h.tiled.bounds (hloc c rest hpost)
    simp only [Block.extent] at hbounds
    rw [hc] at hflag
    rw [if_pos ⟨by rw [Block.extent]; omega, hflag⟩]
    refine ⟨_, l', ?_, hl', hlinks⟩
    rw [hright]
    exact congrArg (fun n => (b.size + (n + 24), _)) hsize
  · have hskip : ¬ (endOf a.startPtr pre + b.extent < a.lastPtr ∧
        s.mem.read64 (endOf a.startPtr pre + b.extent + 8) = 0) := by
      rintro ⟨hlt, hflag⟩
      cases post with
      | nil =>
        rw [endOf_nil] at hlast
        omega
      | cons c rest =>
        have := (h.tiled.tags _ (hloc c rest rfl)).allocated
        rw [hhead c rfl, hflag] at this
        cases this
    rw [if_neg hskip]
    refine ⟨s, l, by rw [hright]; rfl, absorbed_skip h.list h.nodes fun hin => ?_,
      LinksOnly.refl _ _⟩
    exact notMem_freeAddrs_next hright ((hmem _).mp hin)

theorem coalesceBack_run (h : Linking a s l (pre ++ b :: post)) (hlive : b.free = false)
    (hsub : ∀ y ∈ l.filter a.owns, y ∈ freeAddrs a.startPtr (pre ++ b :: post))
    (hmem : ∀ y ∈ freeAddrs a.startPtr pre, y ∈ l) :
    ∃ s' l', coalesceBack a s (endOf a.startPtr pre + 16) n =
        (endOf a.startPtr (beforeMerge pre), n + extents (freeLeft pre), s') ∧
      Absorbed a s l s' l' (endOf a.startPtr (beforeMerge pre)) ∧
      LinksOnly l' s.mem s'.mem := by
  have hskip : beforeMerge pre = pre → freeLeft pre = [] →
      (endOf a.startPtr pre + 16 - 16, n, s) =
        (endOf a.startPtr (beforeMerge pre), n + extents (freeLeft pre), s) ∧
      Absorbed a s l s l (endOf a.startPtr (beforeMerge pre)) := by
    intro hbefore hleft
    rw [hbefore, hleft]
    refine ⟨rfl, absorbed_skip h.list h.nodes fun hin => ?_⟩
    obtain ⟨d, hd, hfree⟩ := mem_freeAddrs.mp (hsub _ hin)
    rw [located_inj hd (mem_located_middle ..), hlive] at hfree
    cases hfree
  rcases eq_or_ne pre [] with rfl | hne
  · obtain ⟨heq, habs⟩ := hskip rfl rfl
    rw [coalesceBack, if_neg (by rw [endOf_nil]; omega)]
    exact ⟨s, l, heq, habs, LinksOnly.refl _ _⟩
  · obtain ⟨rest, c, hc⟩ := h.tiled.precedes hne
    have hinside := hc.inside
    have hflag := hc.allocated
    have hleft := hc.left
    have hbefore := hc.before
    rw [coalesceBack, if_pos (by omega)]
    simp only [hc.footer, hc.header]
    cases hfree : c.free with
    | true =>
      rw [hfree, if_pos rfl] at hflag hleft hbefore
      have hmid : (endOf a.startPtr rest, c) ∈ located a.startPtr pre := by
        rw [hc.split]
        exact mem_located_middle ..
      have hloc : (endOf a.startPtr rest, c) ∈ located a.startPtr (pre ++ b :: post) := by
        rw [located_append]
        exact List.mem_append_left _ hmid
      have hin : endOf a.startPtr rest ∈ l := hmem _ (mem_freeAddrs.mpr ⟨c, hmid, hfree⟩)
      obtain ⟨-, l', hl', hlinks, -⟩ := h.absorb hloc hin
      rw [if_pos hflag, hbefore, hleft]
      exact ⟨_, l', rfl, hl', hlinks⟩
    | false =>
      rw [hfree] at hflag hleft hbefore
      rw [if_neg (by rw [hflag]; simp)]
      obtain ⟨heq, habs⟩ := hskip hbefore hleft
      exact ⟨s, l, heq, habs, LinksOnly.refl _ _⟩

end Coalesce

section Free

variable {a : Allocator} {s : State} {ring : List ℕ} {M : Model} {b : Block}
  {pre post : List Block}

theorem Heap.linking (h : Heap a s ring M) : Linking a s ring M.blocks where
  list := h.list
  nodes := h.nodes
  tiled := h.tiled
  room := h.room
  sizes := h.sizes
  spare x hx := by
    rcases h.node_cases hx with ⟨c, hc, hfree, -⟩ | ⟨-, hout⟩
    · exact Or.inl (mem_freeAddrs.mpr ⟨c, hc, hfree⟩)
    · exact Or.inr hout

theorem Spare.merge {start y : ℕ} (h : Spare start (pre ++ b :: post) y) :
    Spare start (release pre b post) y := by
  obtain ⟨w, hw, hfree, hlo, hhi⟩ := h
  rw [merge_parts, located_append, located_append, List.mem_append, List.mem_append] at hw
  rw [endOf_merge_parts] at hw
  rcases hw with (hw | hw) | hw
  · exact ⟨w, by rw [release, located_append]; exact List.mem_append_left _ hw, hfree, hlo, hhi⟩
  · have hb := located_bounds hw
    rw [← endOf_append, endOf_merge_parts] at hb
    exact ⟨_, mem_located_middle .., rfl, by simp only; omega, by simp only; omega⟩
  · refine ⟨w, ?_, hfree, hlo, hhi⟩
    rw [release, located_append]
    exact List.mem_append_right _ (List.mem_cons_of_mem _ hw)

theorem mergeTags_run (m : Memory) (hdr : ℕ) {size : ℕ} (hlt : size < 2 ^ 64) :
    m.AgreeOutside (mergeTags m hdr size) hdr (hdr + (size + 24)) ∧
      Tags (mergeTags m hdr size) (hdr, ⟨size, true⟩) ∧
      ∀ k, hdr + 16 ≤ k → k < hdr + 16 + size → mergeTags m hdr size k = m k := by
  unfold mergeTags
  refine ⟨?_, ⟨?_, ?_, ?_⟩, ?_⟩
  · exact (((AgreeOutside.refl _ _ _).write64 (by omega) (by omega)).write64 (by omega)
      (by omega)).write64 (by omega) (by omega)
  · simp (disch := omega) only [read64_write64_of_disjoint, read64_write64_self]
  · simp (disch := omega) only [read64_write64_of_disjoint, read64_write64_self]
    rfl
  · simp (disch := omega) only [read64_write64_self]
  · intro k hk hk'
    simp (disch := omega) only [write64_of_disjoint]

theorem Model.free_eq (hM : M.blocks = pre ++ b :: post) :
    M.free a.startPtr (endOf a.startPtr pre) = {
      blocks := release pre b post
      ring := endOf a.startPtr (beforeMerge pre) ::
        (M.ring.filter (· ≠ endOf a.startPtr pre + b.extent)).filter
          (· ≠ endOf a.startPtr (beforeMerge pre)) } := by
  rw [Model.free, hM, zipper_middle]

theorem sizes_release (hsizes : ∀ c ∈ pre ++ b :: post, c.free = true → 16 ≤ c.size)
    (hmerged : 16 ≤ (merged pre b post).size) :
    ∀ c ∈ release pre b post, c.free = true → 16 ≤ c.size := by
  rw [merge_parts] at hsizes
  intro c hc hfree
  rcases List.mem_append.mp hc with hc | hc
  · exact hsizes c (by simp [hc]) hfree
  · rcases List.mem_cons.mp hc with rfl | hc
    · exact hmerged
    · exact hsizes c (by simp [hc]) hfree

theorem perm_release (h : Heap a s ring M) (hM : M.blocks = pre ++ b :: post)
    (hlive : b.free = false) :
    (M.free a.startPtr (endOf a.startPtr pre)).ring.Perm
      (freeAddrs a.startPtr (release pre b post)) := by
  have hring : M.ring.Nodup := h.perm.nodup_iff.mpr (freeAddrs_nodup ..)
  rw [Model.free_eq hM, List.perm_ext_iff_of_nodup _ (freeAddrs_nodup ..)]
  · intro y
    rw [mem_freeAddrs_release hlive, List.mem_cons, List.mem_filter, List.mem_filter,
      h.perm.mem_iff, hM]
    simp only [decide_eq_true_eq]
  · refine List.nodup_cons.mpr ⟨?_, (hring.filter _).filter _⟩
    simp

theorem merge_leads {s₂ : State} {l : List ℕ} (h : Heap a s ring M)
    (hM : M.blocks = pre ++ b :: post) (hlive : b.free = false)
    (hmerged : 16 ≤ (merged pre b post).size) (hlink : Linking a s₂ l (pre ++ b :: post))
    (hown : endOf a.startPtr (beforeMerge pre) :: l.filter a.owns =
      (M.free a.startPtr (endOf a.startPtr pre)).ring)
    (hothers : others a l = others a ring)
    (hsame : Untouched a ring (release pre b post) s.mem s₂.mem)
    (hinside : SameInside 32 a.startPtr (release pre b post) s.mem s₂.mem) {s' : State}
    (hs' : s' = push ⟨mergeTags s₂.mem (endOf a.startPtr (beforeMerge pre))
      (merged pre b post).size, s₂.head⟩ (endOf a.startPtr (beforeMerge pre))) :
    Leads a s ring (release pre b post) a s' (M.free a.startPtr (endOf a.startPtr pre)) ∧
      SameInside 32 a.startPtr (release pre b post) s.mem s'.mem := by
  subst hs'
  have hperm := perm_release h hM hlive
  have hsep := h.separated
  have hsizes := h.sizes
  have hend := h.endOf_le
  rw [hM] at hsep hsizes hend
  have hsizes' := sizes_release hsizes hmerged
  have hroom' : endOf a.startPtr (release pre b post) ≤ a.startPtr + a.size :=
    (endOf_release ..).trans_le hend
  have hloc : (endOf a.startPtr (beforeMerge pre), merged pre b post) ∈
      located a.startPtr (release pre b post) := mem_located_middle ..
  have hhdr := owns_of_located hloc hroom'
  have hbounds := located_bounds hloc
  have hle := h.mapped.le
  simp only [Block.extent] at hbounds
  have hlt : (merged pre b post).size < 2 ^ 64 := by omega
  have hown' : (endOf a.startPtr (beforeMerge pre) :: l).filter a.owns =
      (M.free a.startPtr (endOf a.startPtr pre)).ring := by
    rw [List.filter_cons_of_pos hhdr, hown]
  have hothers' : others a (endOf a.startPtr (beforeMerge pre) :: l) = others a ring := by
    rw [others, List.filter_cons_of_neg (by simp [hhdr])]
    exact hothers
  have hnew : Nodes (endOf a.startPtr (beforeMerge pre) :: l) :=
    nodes_of_parts h.mapped hroom' (hown' ▸ hperm) h.nodes hothers' h.foreign
  obtain ⟨hagree, htags, hkept⟩ := mergeTags_run s₂.mem (endOf a.startPtr (beforeMerge pre)) hlt
  have hcases := h.placed (fun y hy => hperm.subset (hown' ▸ hy)) hothers'
  -- no other node has its links in the merged block
  have hlist : FreeList ⟨mergeTags s₂.mem (endOf a.startPtr (beforeMerge pre))
      (merged pre b post).size, s₂.head⟩ l := by
    refine freeList_congr hlink.list fun y hy k hk hk' => hagree k ?_
    have hne : y ≠ endOf a.startPtr (beforeMerge pre) := by
      rintro rfl
      exact (List.nodup_cons.mp hnew.nodup).1 hy
    have hapart := links_apart hsizes' hroom' hcases (List.mem_cons_of_mem _ hy) hloc hne
    simp only [Block.extent] at hapart
    omega
  obtain ⟨hlist', hlinks⟩ := push_run hlist hnew
  have hblocks : (M.free a.startPtr (endOf a.startPtr pre)).blocks = release pre b post := by
    rw [Model.free_eq hM]
  refine ⟨⟨_, h.rebuild (hblocks ▸ ?_) h.room (hblocks ▸ hsizes') (hblocks ▸ hsep.release) hlist'
    hown' hothers' (hblocks ▸ hperm), hothers', ?_⟩, ?_⟩
  · exact links_tiled hsizes' hroom' hcases (fun y _ _ => hlinks y)
      (hlink.tiled.release hagree htags)
  · refine (hsame.trans (.of_agreeOutside hloc rfl hroom' hagree)).trans
      (.of_linksOnly hroom' (fun y hy => ?_) hlinks)
    cases hy' : a.owns y with
    | false => exact Or.inr (hothers' ▸ mem_others.mpr ⟨hy, hy'⟩)
    | true =>
      exact Or.inl (spare_of_mem hsizes' (hperm.subset (hown' ▸ List.mem_filter.mpr ⟨hy, hy'⟩)))
  · refine (hinside.trans ?_).trans (sameInside_links hsizes' hroom' hcases hlinks)
    rw [release, List.append_cons]
    refine SameInside.splice ?_ fun z hz _ k hk hk' => ?_
    · rw [endOf_append, endOf_cons, endOf_nil]
      exact hagree
    · obtain rfl := List.mem_singleton.mp hz
      exact hkept k (by omega) hk'

/-- Absorbing the block to the right leaves the free blocks to the left in the list. -/
theorem left_mem {l : List ℕ} (h : Heap a s ring M) (hM : M.blocks = pre ++ b :: post)
    (hown : l.filter a.owns = M.ring.filter (· ≠ endOf a.startPtr pre + b.extent)) :
    ∀ y ∈ freeAddrs a.startPtr pre, y ∈ l := by
  intro y hy
  have hlt : y < endOf a.startPtr pre := by
    obtain ⟨c, hc, -⟩ := mem_freeAddrs.mp hy
    have := located_bounds hc
    simp only [Block.extent] at this
    omega
  have hmem : y ∈ l.filter a.owns := by
    rw [hown, List.mem_filter, h.perm.mem_iff, hM, freeAddrs_append]
    exact ⟨List.mem_append_left _ hy, by rw [decide_eq_true_iff]; omega⟩
  exact (List.mem_filter.mp hmem).1

/-- Giving a block back does to memory what it does to the abstract heap. -/
theorem free_refines (h : Heap a s ring M) (hM : M.blocks = pre ++ b :: post)
    (hlive : b.free = false) (hmerged : 16 ≤ (merged pre b post).size) :
    ∃ s', allocFree a s (endOf a.startPtr pre + 16) = (0, s') ∧
      Leads a s ring (release pre b post) a s' (M.free a.startPtr (endOf a.startPtr pre)) ∧
      SameInside 32 a.startPtr (release pre b post) s.mem s'.mem := by
  have hloc : (endOf a.startPtr pre, b) ∈ located a.startPtr M.blocks := hM ▸ mem_located_middle ..
  have hbounds := h.tiled.bounds hloc
  simp only [Block.extent] at hbounds
  have htags := h.tags_at hM
  have hflag := htags.allocated
  rw [hlive] at hflag
  have hlink := h.linking
  rw [hM] at hlink
  -- the neighbours leave the list
  obtain ⟨s₁, l₁, hfront, habs₁, hlinks₁⟩ := coalesceFront_run hlink fun y => by
    rw [h.own, h.perm.mem_iff, hM]
  have hlink₁ := hlink.absorbed habs₁
  have hown₁ : l₁.filter a.owns = M.ring.filter (· ≠ endOf a.startPtr pre + b.extent) := by
    rw [habs₁.own, h.own]
  have hsub₁ : ∀ y ∈ l₁.filter a.owns, y ∈ freeAddrs a.startPtr (pre ++ b :: post) := by
    intro y hy
    rw [hown₁, List.mem_filter, h.perm.mem_iff, hM] at hy
    exact hy.1
  obtain ⟨s₂, l₂, hback, habs₂, hlinks₂⟩ := coalesceBack_run
    (n := b.size + extents (freeRight post)) hlink₁ hlive hsub₁ (left_mem h hM hown₁)
  have hfree : allocFree a s (endOf a.startPtr pre + 16) = (0, push ⟨mergeTags s₂.mem
      (endOf a.startPtr (beforeMerge pre)) (merged pre b post).size, s₂.head⟩
      (endOf a.startPtr (beforeMerge pre))) := by
    rw [allocFree, if_neg (by omega), Nat.add_sub_cancel, if_neg (by rw [hflag]; simp),
      htags.size]
    simp only [hfront, hback]
    rfl
  have hown₂ : endOf a.startPtr (beforeMerge pre) :: l₂.filter a.owns =
      (M.free a.startPtr (endOf a.startPtr pre)).ring := by
    rw [habs₂.own, hown₁, Model.free_eq hM]
  have hothers₂ : others a l₂ = others a ring := habs₂.others.trans habs₁.others
  -- unlinking changes links of nodes only, and these are in free blocks
  have hroom' : endOf a.startPtr (release pre b post) ≤ a.startPtr + a.size := by
    rw [endOf_release, ← hM]
    exact h.endOf_le
  have hspare : ∀ y ∈ ring, Spare a.startPtr (release pre b post) y ∨ y ∈ others a ring := by
    intro y hy
    cases hy' : a.owns y with
    | true => exact Or.inl (hM ▸ h.spare hy hy').merge
    | false => exact Or.inr (mem_others.mpr ⟨hy, hy'⟩)
  refine ⟨_, hfree, merge_leads h hM hlive hmerged (hlink₁.absorbed habs₂) hown₂ hothers₂ ?_ ?_ rfl⟩
  · exact Untouched.trans (.of_linksOnly hroom' hspare habs₁.links)
      (.of_linksOnly hroom' (fun y hy => hspare y (habs₁.subset hy)) habs₂.links)
  -- the block after the merged one is no longer a node, so its links stay as they are
  · refine sameInside_links (sizes_release (hM ▸ h.sizes) hmerged) hroom' (l := l₁) ?_
      fun y hy => (hlinks₂ y fun x hx => hy x (habs₂.subset hx)).trans (hlinks₁ y hy)
    refine h.placed (fun y hy => (mem_freeAddrs_release hlive).mpr ?_) habs₁.others
    rw [hown₁, List.mem_filter, h.perm.mem_iff, hM, decide_eq_true_eq] at hy
    exact (eq_or_ne y _).imp_right fun hne => ⟨hy, hne⟩

end Free

end LowLevel.Allocators.Explicit
