import LowLevel.Allocators.Alignment

/-! # Fragmentation

Free blocks are never neighbours, so there is at most one more of them than
blocks in use. A block in use is hardly larger than its request, and new space
is taken only if every free block is too small. So the requests that are in use
bound the space that an allocator needs, whatever happened before.
-/

namespace LowLevel.Allocators

section Blocks

variable {a r : ℕ} {b : Block} {bs : List Block} {live : List (ℕ × ℕ)}

/-- Of elements that are never neighbours there is at most one more than of the others. -/
theorem countP_le_of_isChain {α : Type*} {f : α → Bool} {l : List α}
    (h : l.IsChain fun x y => ¬ (f x = true ∧ f y = true)) :
    l.countP f ≤ l.countP (fun x => !f x) + 1 := by
  have hhead : l.countP f ≤ l.countP (fun x => !f x) + if l.head?.any f then 1 else 0 := by
    induction l with
    | nil => exact Nat.le_refl 0
    | cons x l ih =>
      obtain ⟨hnext, hrest⟩ := List.isChain_cons.mp h
      have hle := ih hrest
      cases hx : f x with
      | false =>
        simp only [List.countP_cons, List.head?_cons, Option.any_some, hx, Bool.not_false, if_true,
          Bool.false_eq_true, if_false]
        split at hle <;> omega
      | true =>
        have hnone : l.head?.any f = false := by
          rw [Option.any_eq_false]
          intro y hy
          simpa [hx] using hnext y hy
        simp only [hnone, List.countP_cons, List.head?_cons, Option.any_some, hx, Bool.not_true,
          if_true, Bool.false_eq_true, if_false] at hle ⊢
        omega
  split at hhead <;> omega

def liveExtents (a : ℕ) (bs : List Block) : ℕ := ((liveBlocks a bs).map fun z => z.2.extent).sum

theorem length_liveBlocks (a : ℕ) (bs : List Block) :
    (liveBlocks a bs).length = bs.countP fun b => !b.free := by
  induction bs generalizing a with
  | nil => rfl
  | cons b bs ih =>
    rw [liveBlocks_cons, List.length_append, ih, List.countP_cons]
    cases b.free <;> simp [Nat.add_comm]

theorem extents_eq (a : ℕ) (bs : List Block) :
    extents bs = liveExtents a bs + extents (bs.filter Block.free) := by
  unfold liveExtents
  induction bs generalizing a with
  | nil => rfl
  | cons b bs ih =>
    rw [extents_cons, liveBlocks_cons, ih (a + b.extent), List.map_append, List.sum_append]
    cases hb : b.free with
    | false =>
      rw [List.filter_cons_of_neg (by rw [hb]; decide)]
      simp only [Bool.false_eq_true, if_false, List.map_cons, List.map_nil, List.sum_singleton]
      omega
    | true =>
      rw [List.filter_cons_of_pos hb, extents_cons]
      simp only [if_true, List.map_nil, List.sum_nil]
      omega

theorem extents_free_le (hsmall : ∀ b ∈ bs, b.free = true → b.size < r) :
    extents (bs.filter Block.free) ≤ bs.countP Block.free * (r + 23) := by
  induction bs with
  | nil => exact Nat.zero_le _
  | cons b bs ih =>
    have hle := ih fun c hc => hsmall c (List.mem_cons_of_mem _ hc)
    cases hb : b.free with
    | false => simpa [hb] using hle
    | true =>
      have hlt := hsmall b (List.mem_cons_self ..) hb
      rw [List.filter_cons_of_pos hb, extents_cons, List.countP_cons_of_pos hb, Nat.succ_mul,
        Block.extent]
      omega

/-- The most that a request takes: what rounding adds, what is too small to be cut off, and the
tags. -/
def footprint (n : ℕ) : ℕ := n + 78

/-- The space that is enough for the requests in use and one more, in whatever order they were
made. -/
def demand (live : List (ℕ × ℕ)) (n : ℕ) : ℕ :=
  (live.map fun y => footprint y.2).sum + (live.length + 2) * (n + 39)

/-- No live pointer has a block much larger than what was requested. -/
def Snug (a : ℕ) (bs : List Block) (live : List (ℕ × ℕ)) : Prop :=
  ∀ y ∈ live, ∃ z ∈ liveBlocks a bs, y.1 = z.1 + 16 ∧ z.2.extent ≤ footprint y.2

theorem liveExtents_le (howned : Owned a bs live) (hsnug : Snug a bs live) :
    liveExtents a bs ≤ (live.map fun y => footprint y.2).sum := by
  have : Nonempty Block := ⟨⟨0, false⟩⟩
  choose! block hblock hptr hle using hsnug
  have hmap : (live.map block).map (fun z => z.1 + 16) = live.map Prod.fst := by
    rw [List.map_map]
    exact List.map_congr_left fun y hy => (hptr y hy).symm
  have hnodup : (live.map block).Nodup := by
    apply List.Nodup.of_map (fun z => z.1 + 16)
    rw [hmap]
    exact howned.nodup
  have hsub : live.map block ⊆ liveBlocks a bs := by
    rintro z hz
    obtain ⟨y, hy, rfl⟩ := List.mem_map.mp hz
    exact hblock y hy
  have hlen : (liveBlocks a bs).length ≤ (live.map block).length := by
    have hlen := howned.perm.length_eq
    rw [List.length_map, List.length_map] at hlen
    rw [List.length_map, hlen]
  have hperm := (List.subperm_of_subset hnodup hsub).perm_of_length_le hlen
  rw [liveExtents, ← (hperm.map fun z => z.2.extent).sum_eq, List.map_map]
  exact List.sum_le_sum hle

/-- If every free block is too small for a request, the blocks and the request need no more space
than the requests in use demand. -/
theorem extents_le_demand {n : ℕ} (howned : Owned a bs live) (hsnug : Snug a bs live)
    (hsep : Separated bs) (hsmall : ∀ b ∈ bs, b.free = true → b.size < r) (hr : r < n + 16) :
    extents bs + (r + 24) ≤ demand live n := by
  have hlive := liveExtents_le howned hsnug
  have hfree := extents_free_le hsmall
  have hcount := countP_le_of_isChain (f := Block.free) hsep
  have hlen := howned.perm.length_eq
  rw [List.length_map, List.length_map, length_liveBlocks] at hlen
  rw [← hlen] at hcount
  have hmul : bs.countP Block.free * (r + 23) ≤ (live.length + 1) * (n + 39) :=
    Nat.mul_le_mul hcount (by omega)
  have hsplit : (live.length + 2) * (n + 39) = (live.length + 1) * (n + 39) + (n + 39) :=
    Nat.succ_mul ..
  rw [extents_eq a, demand, hsplit]
  omega

theorem Served.block_snug {p n : ℕ} {bs' : List Block} (h : Served a r bs p bs') (hp : p ≠ 0)
    (hr : r < n + 16) : ∃ z ∈ liveBlocks a bs', p = z.1 + 16 ∧ z.2.extent ≤ footprint n := by
  cases h with
  | carve pre b post hfree hle =>
    refine ⟨(endOf a pre, handed r b), ?_, rfl, ?_⟩
    · rw [liveBlocks_append, liveBlocks_append, liveBlocks_carve]
      exact List.mem_append_left _ (List.mem_append_right _ (List.mem_singleton_self _))
    · simp only [Block.extent, handed, footprint]
      split_ifs <;> omega
  | concat =>
    refine ⟨(endOf a bs, ⟨r, false⟩), ?_, rfl, ?_⟩
    · rw [liveBlocks_append]
      exact List.mem_append_right _ (List.mem_singleton_self _)
    · simp only [Block.extent, footprint]
      omega
  | full => exact absurd rfl hp

theorem Served.endOf_eq {p : ℕ} {bs' : List Block} (h : Served a r bs p bs') :
    endOf a bs' = endOf a bs ∨ p = endOf a bs + 16 ∧ endOf a bs' = endOf a bs + (r + 24) := by
  cases h with
  | carve pre b post =>
    left
    rw [endOf_append, endOf_append, endOf_carve, endOf_append, endOf_cons]
  | concat =>
    right
    rw [endOf_append, endOf_cons, endOf_nil, Block.extent]
    exact ⟨rfl, rfl⟩
  | full => exact Or.inl rfl

end Blocks

/-- An allocator that keeps free blocks apart and refuses a request only if it has to. -/
structure Frugal {σ τ : Type} (L : Layout σ) (I : Interface σ) (J : Interface τ) (rules : Rules)
    (base size : ℕ) (blocks : τ → List Block) (Rep : σ → τ → Prop) : Prop where
  fits : FirstFits L I J rules base blocks Rep
  tiled : ∀ {h t}, Rep h t → Tiled (L.mem h) base (blocks t) (L.control h).lastPtr
  separated : ∀ {h t}, Rep h t → Separated (blocks t)
  small : ∀ {h t n}, Rep h t → n ≤ rules.maxSize → roundUp n < n + 16
  full : ∀ {h t n h' t'}, Rep h t → n ≤ rules.maxSize → I.malloc n h = some (0, h') →
    J.malloc n t = some (0, t') → (∀ b ∈ blocks t, b.free = true → b.size < roundUp n) ∧
      base + size < endOf base (blocks t) + (roundUp n + 24)

/-- The region is tiled by the blocks of the live pointers, which take their footprints at most,
and by free ones, of which there is at most one more. -/
structure Compact (m : Memory) (base last : ℕ) (live : List (ℕ × ℕ)) (bs : List Block) :
    Prop where
  tiled : Tiled m base bs last
  owned : Owned base bs live
  inUse : liveExtents base bs ≤ (live.map fun y => footprint y.2).sum
  free : bs.countP Block.free ≤ live.length + 1

/-- Whatever a client did before, its requests in use bound the space: they waste little of it, a
request whose demand the region meets is served, and as long as the demand of the requests stays
below a bound no space after it is touched. -/
structure Economical {σ : Type} (L : Layout σ) (I : Interface σ) (rules : Rules) (heap : σ)
    (base size : ℕ) : Prop where
  compact : ∀ c, (Client.machine I rules heap).Reachable c →
    ∃ bs, Compact (L.mem c.heap) base (L.control c.heap).lastPtr c.live bs
  served : ∀ c n, (Client.machine I rules heap).Reachable c → rules.minSize ≤ n →
    demand c.live n ≤ size → ∃ p c', p ≠ 0 ∧ c.step I rules (.malloc n) = some c' ∧
      c'.live = (p, n) :: c.live
  bounded : ∀ bound acts c, (Client.machine I rules heap).run { heap } acts = some c →
    ((Client.machine I rules heap).AllSteps { heap } acts fun c act =>
      ∀ n, act = .malloc n → demand c.live n ≤ bound) → (L.control c.heap).lastPtr ≤ base + bound

section Runs

variable {σ τ : Type} {L : Layout σ} {I : Interface σ} {J : Interface τ} {rules : Rules}
  {base size : ℕ} {blocks : τ → List Block} {Rep : σ → τ → Prop} {heap : σ} {c c' : Client σ}
  {d : Client τ} {act : Action}

structure Packed (base : ℕ) (blocks : τ → List Block) (Rep : σ → τ → Prop) (c : Client σ)
    (d : Client τ) : Prop where
  agree : Agree base blocks Rep c d
  snug : Snug base (blocks d.heap) c.live

theorem le_demand (live : List (ℕ × ℕ)) (n : ℕ) : n ≤ demand live n := by
  have hmul : 1 * (n + 39) ≤ (live.length + 2) * (n + 39) := Nat.mul_le_mul_right _ (by omega)
  unfold demand
  omega

variable (hfrugal : Frugal L I J rules base size blocks Rep)

include hfrugal

theorem Packed.compact (h : Packed base blocks Rep c d) :
    Compact (L.mem c.heap) base (L.control c.heap).lastPtr c.live (blocks d.heap) := by
  constructor
  case tiled => exact hfrugal.tiled h.agree.heap
  case owned => exact h.agree.owned
  case inUse => exact liveExtents_le h.agree.owned h.snug
  case free =>
    have hcount := countP_le_of_isChain (f := Block.free) (hfrugal.separated h.agree.heap)
    rw [← length_liveBlocks base, ← List.length_map (f := fun z => z.1 + 16),
      ← h.agree.owned.perm.length_eq, List.length_map] at hcount
    exact hcount

/-- A request either fails, and then the region is smaller than its demand, or gets a block; and
it takes new space only if its demand is as large. -/
theorem Packed.malloc {n : ℕ} (h : Packed base blocks Rep c d) (hmin : rules.minSize ≤ n)
    (hmax : n ≤ rules.maxSize) : ∃ p c' d', c.exec I (.malloc n) = some c' ∧
      Packed base blocks Rep c' d' ∧ (p = 0 → size < demand c.live n) ∧
      (p ≠ 0 → c'.live = (p, n) :: c.live) ∧
      ((L.control c'.heap).lastPtr = (L.control c.heap).lastPtr ∨
        (L.control c'.heap).lastPtr ≤ base + demand c.live n) := by
  obtain ⟨p, h', t', r, hI, hJ, hrep, hr, hserved, -⟩ :=
    hfrugal.fits.simulates.malloc h.agree.heap hmin hmax
  obtain ⟨-, hserved', hnew⟩ := hfrugal.fits.malloc h.agree.heap hmax hI hJ
  obtain ⟨c', d', hc, -, hagree, hc', hd', hkept⟩ := h.agree.malloc hI hJ hrep hr hserved
  have hround := hfrugal.small h.agree.heap hmax
  have hsep := hfrugal.separated h.agree.heap
  have hlive : c'.live = if p = 0 then c.live else (p, n) :: c.live := by
    rw [← Option.some.inj ((Client.exec_malloc hI).symm.trans hc)]
  have hwaste : (∀ b ∈ blocks d.heap, b.free = true → b.size < roundUp n) →
      endOf base (blocks d.heap) + (roundUp n + 24) ≤ base + demand c.live n := by
    intro hsmall
    have hle := extents_le_demand h.agree.owned h.snug hsep hsmall hround
    rw [endOf_eq]
    omega
  refine ⟨p, c', d', hc, ⟨hagree, ?_⟩, ?_, fun hp => hlive.trans (if_neg hp), ?_⟩
  · intro y hy
    rw [hd']
    have hold : ∀ y ∈ c.live, ∃ z ∈ liveBlocks base (blocks t'), y.1 = z.1 + 16 ∧
        z.2.extent ≤ footprint y.2 := by
      intro y hy
      obtain ⟨z, hz, hptr, hle⟩ := h.snug y hy
      exact ⟨z, hserved'.subset hz, hptr, hle⟩
    rw [hlive] at hy
    split_ifs at hy with hp
    · exact hold y hy
    · rcases List.mem_cons.mp hy with rfl | hy
      · exact hserved'.block_snug hp hround
      · exact hold y hy
  · rintro rfl
    obtain ⟨hsmall, hroom⟩ := hfrugal.full h.agree.heap hmax hI hJ
    have hle := hwaste hsmall
    omega
  · rw [hc', hfrugal.fits.last hrep, hfrugal.fits.last h.agree.heap]
    rcases hserved'.endOf_eq with hend | ⟨hp, hend⟩
    · exact Or.inl hend
    · rw [hend]
      exact Or.inr (hwaste (hnew hp))

theorem Packed.step (h : Packed base blocks Rep c d) (hstep : c.step I rules act = some c') :
    (∃ d', Packed base blocks Rep c' d') ∧
      ((L.control c'.heap).lastPtr ≤ (L.control c.heap).lastPtr ∨
        ∃ n, act = .malloc n ∧ (L.control c'.heap).lastPtr ≤ base + demand c.live n) := by
  obtain ⟨hact, hexec⟩ := Option.ite_none_right_eq_some.mp hstep
  cases act with
  | malloc n =>
    obtain ⟨hmin, hmax⟩ := Client.allowed_malloc.mp hact
    obtain ⟨p, c'', d', hc, hpacked, -, -, hend⟩ := h.malloc hfrugal hmin hmax
    obtain rfl : c'' = c' := Option.some.inj (hc.symm.trans hexec)
    refine ⟨⟨d', hpacked⟩, ?_⟩
    rcases hend with hsame | hle
    · exact Or.inl hsame.le
    · exact Or.inr ⟨n, rfl, hle⟩
  | free p =>
    have hp : p ∈ c.live.map Prod.fst := by
      simpa only [hfrugal.fits.simulates.once, Bool.false_eq_true, false_and, or_false] using
        Client.allowed_free.mp hact
    obtain ⟨pre, b, post, hblocks, hlive, rfl⟩ := h.agree.split hp
    obtain ⟨code, h', t', hI, hJ, hrep, hblocks', -⟩ :=
      hfrugal.fits.simulates.free h.agree.heap hblocks hlive
    obtain ⟨c'', d', hc, -, hagree, hc', hd', hleft⟩ :=
      h.agree.free hI hJ hrep rfl hblocks hlive hblocks'
    obtain rfl : c'' = c' := Option.some.inj (hc.symm.trans hexec)
    constructor
    · refine ⟨d', hagree, ?_⟩
      intro y hy
      rw [hleft] at hy
      obtain ⟨hy, hne⟩ := List.mem_filter.mp hy
      obtain ⟨z, hz, hptr, hle⟩ := h.snug y hy
      have hne : y.1 ≠ endOf base pre + 16 := of_decide_eq_true hne
      rw [hd', hblocks']
      exact ⟨z, mem_liveBlocks_release (hblocks ▸ hz) (by omega), hptr, hle⟩
    · left
      rw [hc', hfrugal.fits.last hrep, hfrugal.fits.last h.agree.heap, hblocks', hblocks,
        endOf_release]
  | reset =>
    obtain ⟨hcode, hrep, hblocks⟩ := hfrugal.fits.simulates.reset h.agree.heap
    obtain ⟨c'', d', hc, -, hagree, hc', hd'⟩ := h.agree.reset hcode hrep hblocks
    obtain rfl : c'' = c' := Option.some.inj (hc.symm.trans hexec)
    constructor
    · refine ⟨d', hagree, ?_⟩
      rw [← Option.some.inj hexec]
      rintro y ⟨⟩
    · left
      rw [hc', hfrugal.fits.last hrep, hfrugal.fits.last h.agree.heap, hblocks]
      exact le_endOf base _
  | write q i v =>
    obtain ⟨y, hy, rfl, hi⟩ := Client.allowed_write.mp hact
    obtain ⟨c'', d', hc, -, hagree, hlive, hblocks, -⟩ :=
      hfrugal.fits.simulates.exec_write v h.agree hy hi
    obtain rfl : c'' = c' := Option.some.inj (hc.symm.trans hexec)
    constructor
    · refine ⟨d', hagree, ?_⟩
      rw [hblocks, hlive]
      exact h.snug
    · left
      rw [hfrugal.fits.last hagree.heap, hfrugal.fits.last h.agree.heap, hblocks]

theorem Packed.reachable {t : τ} (hstart : Agree base blocks Rep { heap } { heap := t })
    (hc : (Client.machine I rules heap).Reachable c) : ∃ d, Packed base blocks Rep c d := by
  refine hc.invariant (P := fun c => ∃ d, Packed base blocks Rep c d) ⟨_, hstart, ?_⟩ ?_
  · rintro y ⟨⟩
  · rintro c act c' ⟨d, hd⟩ hstep
    exact (hd.step hfrugal hstep).1

theorem economical {t : τ} (hstart : Agree base blocks Rep { heap } { heap := t })
    (ht : blocks t = []) (hmax : rules.maxSize = size) :
    Economical L I rules heap base size := by
  constructor
  case compact =>
    intro c hc
    obtain ⟨d, hd⟩ := Packed.reachable hfrugal hstart hc
    exact ⟨_, hd.compact hfrugal⟩
  case served =>
    intro c n hc hmin hroom
    obtain ⟨d, hd⟩ := Packed.reachable hfrugal hstart hc
    have hle : n ≤ rules.maxSize := hmax.symm ▸ (le_demand c.live n).trans hroom
    obtain ⟨p, c', d', hexec, -, hnull, hlive, -⟩ := hd.malloc hfrugal hmin hle
    have hp : p ≠ 0 := fun hp => absurd hroom (Nat.not_le_of_lt (hnull hp))
    refine ⟨p, c', hp, ?_, hlive hp⟩
    rw [Client.step, if_pos (Client.allowed_malloc.mpr ⟨hmin, hle⟩), hexec]
  case bounded =>
    intro bound acts c hrun hdemand
    have hinv := Machine.run_along (M := Client.machine I rules heap)
      (Q := fun c => (∃ d, Packed base blocks Rep c d) ∧
        (L.control c.heap).lastPtr ≤ base + bound) ?_ ?_ (List.prefix_refl acts) hrun
    · exact hinv.2
    · refine ⟨⟨_, hstart, by rintro y ⟨⟩⟩, ?_⟩
      rw [hfrugal.fits.last hstart.heap, ht]
      exact Nat.le_add_right ..
    · rintro pre act c₁ c₂ hbegin hpre ⟨⟨d, hd⟩, hle⟩ hstep
      obtain ⟨hd', hend | ⟨n, rfl, hend⟩⟩ := hd.step hfrugal hstep
      · exact ⟨hd', hend.trans hle⟩
      · have hn := hdemand pre _ c₁ c₂ hbegin hpre hstep n rfl
        exact ⟨hd', by omega⟩

end Runs

theorem Coalescing.frugal (base size : ℕ) : Frugal layout interface
    (FirstFit.interface base size) (regionRules size) base size id (Decodes base size) where
  fits := firstFits base size
  tiled h := h.tiled
  separated h := h.separated
  small := by
    rintro ⟨a, m⟩ bs n hrep hmax
    have hlast := hrep.no_overflow hmax
    rw [FirstFit.roundUp16] at hlast
    exact (roundUp_spec (by omega)).2.1
  full := by
    rintro ⟨a, m⟩ bs n h' bs' hrep hmax - hJ
    have hlast := hrep.no_overflow hmax
    rw [FirstFit.roundUp16] at hlast
    have hnull : (FirstFit.malloc base size n bs).1 = 0 :=
      congrArg Prod.fst (Option.some.inj hJ)
    rw [FirstFit.roundUp_eq (by omega)]
    rcases FirstFit.malloc_cases base size n bs with ⟨pre, b, post, -, -, -, -, heq⟩ | ⟨hall, heq⟩
    · rw [heq] at hnull
      cases hnull
    · constructor
      · intro b hb hfree
        simpa [FirstFit.unfit, hfree] using hall b hb
      · rw [heq] at hnull
        split_ifs at hnull with hroom
        rw [id_eq]
        omega

theorem Explicit.Placement.full_inversion {start limit r : ℕ} {bs bs' : List Block}
    {l l' : List ℕ} (h : Placement start limit r bs l 0 bs' l') :
    (∀ b ∈ bs, b.free = true → b.size < r) ∧ start + limit < endOf start bs + (24 + r) := by
  generalize hp : 0 = p at h
  cases h with
  | full bs l hnone hroom => exact ⟨hnone, hroom⟩
  | _ => cases hp

theorem Explicit.frugal (base size : ℕ) : Frugal layout interface
    (Model.interface base size) (regionRules size) base size Model.blocks (Sized base size) where
  fits := firstFits base size
  tiled := by
    rintro h M ⟨⟨rfl, rfl, hheap⟩, -⟩
    exact hheap.tiled
  separated h := h.heap.separated
  small h hmax := (roundUp_spec (h.no_overflow hmax).1).2.1
  full := by
    rintro h M n h' M' ⟨⟨rfl, -, hheap⟩, -⟩ - - hJ
    have hplace := malloc_placement hheap size (roundUp n)
    have hnull : (M.malloc h.1.startPtr size (roundUp n)).1 = 0 :=
      congrArg Prod.fst (Option.some.inj hJ)
    rw [hnull] at hplace
    obtain ⟨hsmall, hroom⟩ := hplace.full_inversion
    exact ⟨hsmall, by omega⟩

theorem economical_regions {size mmap : ℕ} {a a' b b' : Allocator} {s s' : Explicit.State}
    (m : Memory) (hmapped : Mapped mmap size)
    (hinit : Coalescing.allocInit a size mmap = (0, a')) (hhead : s.head = 0)
    (hinit' : Explicit.allocInit b s size mmap = (0, b', s')) :
    Economical Coalescing.layout Coalescing.interface (Coalescing.regionRules size) (a', m) mmap
        size ∧
      Economical Explicit.layout Explicit.interface (Explicit.regionRules size) (b', s') mmap
        size :=
  ⟨economical (Coalescing.frugal mmap size) (Coalescing.init_agree m hmapped hinit) rfl rfl,
    economical (Explicit.frugal mmap size) (Explicit.init_sound hmapped hhead hinit') rfl rfl⟩

theorem economical_regions_page : ∃ c,
    (Client.machine Coalescing.interface (Coalescing.regionRules 4096)
      (⟨4096, 4096, 4096⟩, fun _ => 0)).Reachable c ∧ c.live = [(4248, 100), (4112, 100)] ∧
    ∃ p c', p ≠ 0 ∧ c.step Coalescing.interface (Coalescing.regionRules 4096) (.malloc 800) =
      some c' ∧ c'.live = (p, 800) :: c.live := by
  have hrun : ((Client.machine Coalescing.interface (Coalescing.regionRules 4096)
      (⟨4096, 4096, 4096⟩, fun _ => 0)).run { heap := (⟨4096, 4096, 4096⟩, fun _ => 0) }
      [.malloc 100, .malloc 100]).map Client.live = some [(4248, 100), (4112, 100)] := by
    decide +kernel
  obtain ⟨c, hc, hlive⟩ := Option.map_eq_some_iff.mp hrun
  have hall := economical_regions (a := {}) (b := {}) (s := ⟨fun _ => 0, 0⟩) (fun _ => 0)
    Explicit.page_mapped rfl rfl rfl
  exact ⟨c, ⟨_, hc⟩, hlive, hall.1.served c 800 ⟨_, hc⟩ (Nat.zero_le _) (by rw [hlive]; decide)⟩

end LowLevel.Allocators
