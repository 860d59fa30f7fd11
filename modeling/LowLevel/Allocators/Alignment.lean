import LowLevel.Allocators.DoubleFree
import LowLevel.Allocators.Placement

/-! # Alignment of payloads

A block takes its payload and three words of tags, so with payload sizes that
are multiples of sixteen the block after it is not aligned. As long as every
pointer handed out is aligned there is one block in use at most, and it is the
first of the region.
-/

namespace LowLevel.Allocators

/-- The heap has one block of an aligned size, or the front of it is in use. -/
inductive OneBlock : List Block → Prop where
  | none : OneBlock []
  | one (n : ℕ) (free : Bool) (hn : 16 ∣ n) : OneBlock [⟨n, free⟩]
  | front (r k : ℕ) (hr : 16 ∣ r) (hk : 16 ∣ r + k + 24) : OneBlock [⟨r, false⟩, ⟨k, true⟩]

section Blocks

variable {base r p : ℕ} {b : Block} {bs bs' pre post : List Block}

theorem Served.inversion (h : Served base r bs p bs') (hp : p ≠ 0) :
    (∃ pre b post, bs = pre ++ b :: post ∧ b.free = true ∧ r ≤ b.size ∧
      p = endOf base pre + 16 ∧ bs' = pre ++ Allocators.carve r b ++ post) ∨
      (p = endOf base bs + 16 ∧ bs' = bs ++ [⟨r, false⟩]) := by
  cases h with
  | carve pre b post hfree hr => exact Or.inl ⟨pre, b, post, rfl, hfree, hr, rfl, rfl⟩
  | concat => exact Or.inr ⟨rfl, rfl⟩
  | full => exact absurd rfl hp

theorem OneBlock.carve (hr : 16 ∣ r) (hb : 16 ∣ b.size) : OneBlock (carve r b) := by
  unfold Allocators.carve
  split_ifs with hsplit
  · exact .front r _ hr (by omega)
  · exact .one _ _ hb

/-- A pointer is aligned exactly if it is the start of the region: nothing is in use, and the space
used before is enough if there is any. -/
theorem OneBlock.served (h : OneBlock bs) (hserved : Served base r bs p bs') (hp : p ≠ 0)
    (hbase : 16 ∣ base) (hr : 16 ∣ r)
    (hnew : p = endOf base bs + 16 → ∀ b ∈ bs, b.free = true → b.size < r) :
    (16 ∣ p ↔ liveBlocks base bs = [] ∧ (bs = [] ∨ r + 24 ≤ extents bs)) ∧
      (16 ∣ p → OneBlock bs') := by
  have hcases := hserved.inversion hp
  cases h with
  | none =>
    rcases hcases with ⟨pre, b, post, hbs, -⟩ | ⟨rfl, rfl⟩
    · simp at hbs
    · refine ⟨iff_of_true ?_ ⟨rfl, Or.inl rfl⟩, fun _ => .one r _ hr⟩
      rw [endOf_nil]
      omega
  | one n free hn =>
    rcases hcases with ⟨pre, b, post, hbs, hfree, hle, rfl, rfl⟩ | ⟨rfl, rfl⟩
    · obtain ⟨rfl, hrest⟩ : pre = [] ∧ b :: post = [⟨n, free⟩] := by
        simpa [eq_comm, List.append_eq_cons_iff] using hbs
      obtain ⟨rfl, rfl⟩ := List.cons.inj hrest
      obtain rfl : free = true := hfree
      refine ⟨iff_of_true ?_ ⟨rfl, Or.inr ?_⟩, fun _ => ?_⟩
      · rw [endOf_nil]
        omega
      · simp only [extents_cons, extents_nil, Block.extent] at hle ⊢
        omega
      · simpa using OneBlock.carve hr hn
    · have hodd : ¬ 16 ∣ endOf base [⟨n, free⟩] + 16 := by
        simp only [endOf_cons, endOf_nil, Block.extent]
        omega
      refine ⟨iff_of_false hodd ?_, fun h => absurd h hodd⟩
      rintro ⟨hlive, hroom⟩
      cases free with
      | false => simp [liveBlocks, located] at hlive
      | true =>
        have hlt := hnew rfl ⟨n, true⟩ (List.mem_singleton_self _) rfl
        simp only [List.cons_ne_nil, extents_cons, extents_nil, Block.extent, false_or] at hlt hroom
        omega
  | front r₀ k hr₀ hk =>
    have hodd : ¬ 16 ∣ p := by
      rcases hcases with ⟨pre, b, post, hbs, hfree, -, rfl, -⟩ | ⟨rfl, -⟩
      · cases pre with
        | nil =>
          obtain ⟨rfl, -⟩ := List.cons.inj hbs
          cases hfree
        | cons c pre =>
          obtain ⟨rfl, hrest⟩ := List.cons.inj hbs
          obtain ⟨rfl, -⟩ : pre = [] ∧ b :: post = [⟨k, true⟩] := by
            simpa [eq_comm, List.append_eq_cons_iff] using hrest
          simp only [endOf_cons, endOf_nil, Block.extent]
          omega
      · simp only [endOf_cons, endOf_nil, Block.extent]
        omega
    refine ⟨iff_of_false hodd ?_, fun h => absurd h hodd⟩
    rintro ⟨hlive, -⟩
    simp [liveBlocks, located] at hlive

theorem OneBlock.release (h : OneBlock (pre ++ b :: post)) (hlive : b.free = false) :
    OneBlock (release pre b post) := by
  generalize hbs : pre ++ b :: post = bs at h
  cases h with
  | none => simp at hbs
  | one n free hn =>
    obtain ⟨rfl, hrest⟩ : pre = [] ∧ b :: post = [⟨n, free⟩] := by
      simpa [List.append_eq_cons_iff] using hbs
    obtain ⟨rfl, rfl⟩ := List.cons.inj hrest
    exact .one n true hn
  | front r k hr hk =>
    cases pre with
    | nil =>
      obtain ⟨rfl, rfl⟩ := List.cons.inj hbs
      refine .one _ true ?_
      simp only [freeRight, freeLeft, if_true, extents_cons, extents_nil, Block.extent,
        List.reverse_nil]
      omega
    | cons c pre =>
      obtain ⟨rfl, hrest⟩ := List.cons.inj hbs
      obtain ⟨rfl, hrest⟩ : pre = [] ∧ b :: post = [⟨k, true⟩] := by
        simpa [List.append_eq_cons_iff] using hrest
      obtain ⟨rfl, -⟩ := List.cons.inj hrest
      cases hlive

end Blocks

/-- An allocator that takes new space only if no free block is large enough. -/
structure FirstFits {σ τ : Type} (L : Layout σ) (I : Interface σ) (J : Interface τ) (rules : Rules)
    (base : ℕ) (blocks : τ → List Block) (Rep : σ → τ → Prop) : Prop where
  simulates : Simulates I J rules base L.mem blocks Rep
  start : ∀ {h t}, Rep h t → (L.control h).startPtr = base ∧ 16 ∣ base
  last : ∀ {h t}, Rep h t → (L.control h).lastPtr = endOf base (blocks t)
  malloc : ∀ {h t n p h' t'}, Rep h t → n ≤ rules.maxSize → I.malloc n h = some (p, h') →
    J.malloc n t = some (p, t') → 16 ∣ roundUp n ∧
      Served base (roundUp n) (blocks t) p (blocks t') ∧
      (p = endOf base (blocks t) + 16 → ∀ b ∈ blocks t, b.free = true → b.size < roundUp n)

/-- A request is made while nothing is in use, and the space used before is enough for it. -/
def soleRequest {σ : Type} (L : Layout σ) (c : Client σ) (n : ℕ) : Prop :=
  c.live = [] ∧ ((L.control c.heap).lastPtr = (L.control c.heap).startPtr ∨
    (L.control c.heap).startPtr + (roundUp n + 24) ≤ (L.control c.heap).lastPtr)

section Runs

variable {σ τ : Type} {L : Layout σ} {I : Interface σ} {J : Interface τ} {rules : Rules} {base : ℕ}
  {blocks : τ → List Block} {Rep : σ → τ → Prop} {heap : σ} {c c' : Client σ} {d : Client τ}
  {acts : List Action} {act : Action}

def PayloadsAligned (I : Interface σ) (rules : Rules) (heap : σ) (acts : List Action) : Prop :=
  ∀ pre c, pre <+: acts → (Client.machine I rules heap).run { heap } pre = some c →
    ∀ p ∈ c.returned, 16 ∣ p

/-- Every request of the run that gets memory is the only one in use and fits into the space used
before. -/
def OneAtATime (L : Layout σ) (I : Interface σ) (rules : Rules) (heap : σ) (acts : List Action) :
    Prop :=
  ∀ pre n c c', pre ++ [.malloc n] <+: acts →
    (Client.machine I rules heap).run { heap } pre = some c →
    (Client.machine I rules heap).step c (.malloc n) = some c' → c'.returned ≠ c.returned →
    soleRequest L c n

structure Orderly (base : ℕ) (blocks : τ → List Block) (Rep : σ → τ → Prop) (c : Client σ)
    (d : Client τ) : Prop where
  agree : Agree base blocks Rep c d
  blocks : OneBlock (blocks d.heap)
  returned : ∀ p ∈ c.returned, 16 ∣ p

variable (hfits : FirstFits L I J rules base blocks Rep)

include hfits

theorem Orderly.soleRequest_iff {n : ℕ} (h : Orderly base blocks Rep c d) :
    soleRequest L c n ↔ liveBlocks base (blocks d.heap) = [] ∧
      (blocks d.heap = [] ∨ roundUp n + 24 ≤ extents (blocks d.heap)) := by
  have hlive : c.live = [] ↔ liveBlocks base (blocks d.heap) = [] := by
    rw [← List.length_eq_zero_iff, ← List.length_eq_zero_iff, ← List.length_map (f := Prod.fst),
      h.agree.owned.perm.length_eq, List.length_map]
  have hlast := hfits.last h.agree.heap
  have hempty : extents (blocks d.heap) = 0 ↔ blocks d.heap = [] := by
    cases blocks d.heap with
    | nil => simp
    | cons b bs => simp [Block.extent]
  rw [endOf_eq] at hlast
  rw [soleRequest, hlive, hlast, (hfits.start h.agree.heap).1, ← hempty]
  refine and_congr_right fun _ => ?_
  omega

/-- A request of an orderly client: the pointer is aligned exactly if the request is the only one
and fits, and then the heap stays orderly. -/
theorem Orderly.malloc {n : ℕ} (h : Orderly base blocks Rep c d)
    (hact : c.allowed I rules (.malloc n) = true) (hexec : c.exec I (.malloc n) = some c') :
    (c'.returned ≠ c.returned → (∀ p ∈ c'.returned, 16 ∣ p) → soleRequest L c n) ∧
      ((c'.returned ≠ c.returned → soleRequest L c n ∨ ∀ p ∈ c'.returned, 16 ∣ p) →
        ∃ d', Orderly base blocks Rep c' d') := by
  obtain ⟨hmin, hmax⟩ := Client.allowed_malloc.mp hact
  obtain ⟨p, h', t', r, hI, hJ, hrep, hr, hserved, -⟩ :=
    hfits.simulates.malloc h.agree.heap hmin hmax
  obtain ⟨hround, hserved', hnew⟩ := hfits.malloc h.agree.heap hmax hI hJ
  obtain ⟨c'', d', hc, -, hagree, -, hd', -⟩ := h.agree.malloc hI hJ hrep hr hserved
  obtain rfl : c'' = c' := Option.some.inj (hc.symm.trans hexec)
  have hreturned : c''.returned = if p = 0 then c.returned else p :: c.returned := by
    rw [← Option.some.inj ((Client.exec_malloc hI).symm.trans hc)]
  by_cases hp : p = 0
  · rw [if_pos hp] at hreturned
    refine ⟨fun hne => absurd hreturned hne, fun _ => ⟨d', hagree, ?_, ?_⟩⟩
    · rw [hd', hserved'.eq_of_null hp]
      exact h.blocks
    · rw [hreturned]
      exact h.returned
  · rw [if_neg hp] at hreturned
    obtain ⟨hiff, hone⟩ := h.blocks.served hserved' hp (hfits.start h.agree.heap).2 hround hnew
    rw [← h.soleRequest_iff hfits] at hiff
    have hmem : p ∈ c''.returned := by simp [hreturned]
    refine ⟨fun _ hall => hiff.mp (hall p hmem), fun hgood => ?_⟩
    have hp16 : 16 ∣ p := by
      rcases hgood (by simp [hreturned]) with hsole | hall
      · exact hiff.mpr hsole
      · exact hall p hmem
    refine ⟨d', hagree, hd' ▸ hone hp16, fun q hq => ?_⟩
    rw [hreturned] at hq
    rcases List.mem_cons.mp hq with rfl | hq
    · exact hp16
    · exact h.returned q hq

theorem Orderly.step (h : Orderly base blocks Rep c d)
    (hstep : c.step I rules act = some c')
    (hgood : ∀ n, act = .malloc n → c'.returned ≠ c.returned →
      soleRequest L c n ∨ ∀ p ∈ c'.returned, 16 ∣ p) :
    ∃ d', Orderly base blocks Rep c' d' := by
  obtain ⟨hact, hexec⟩ := Option.ite_none_right_eq_some.mp hstep
  cases act with
  | malloc n => exact (h.malloc hfits hact hexec).2 (hgood n rfl)
  | free p =>
    have hp : p ∈ c.live.map Prod.fst := by
      simpa only [hfits.simulates.once, Bool.false_eq_true, false_and, or_false] using
        Client.allowed_free.mp hact
    obtain ⟨pre, b, post, hblocks, hlive, rfl⟩ := h.agree.split hp
    obtain ⟨code, h', t', hI, hJ, hrep, hblocks', -⟩ :=
      hfits.simulates.free h.agree.heap hblocks hlive
    obtain ⟨c'', d', hc, -, hagree, -, hd', -⟩ :=
      h.agree.free hI hJ hrep rfl hblocks hlive hblocks'
    obtain rfl : c'' = c' := Option.some.inj (hc.symm.trans hexec)
    refine ⟨d', hagree, ?_, ?_⟩
    · rw [hd', hblocks']
      exact OneBlock.release (hblocks ▸ h.blocks) hlive
    · rw [← Option.some.inj ((Client.exec_free hI).symm.trans hc)]
      exact h.returned
  | reset =>
    obtain ⟨hcode, hrep, hblocks⟩ := hfits.simulates.reset h.agree.heap
    obtain ⟨c'', d', hc, -, hagree, -, hd'⟩ := h.agree.reset hcode hrep hblocks
    obtain rfl : c'' = c' := Option.some.inj (hc.symm.trans hexec)
    refine ⟨d', hagree, ?_, ?_⟩
    · rw [hd', hblocks]
      exact .none
    · rw [← Option.some.inj hexec]
      exact fun p hp => absurd hp List.not_mem_nil
  | write q i v =>
    obtain ⟨y, hy, rfl, hi⟩ := Client.allowed_write.mp hact
    obtain ⟨c'', d', hc, -, hagree, -, hblocks, -⟩ :=
      hfits.simulates.exec_write v h.agree hy hi
    obtain rfl : c'' = c' := Option.some.inj (hc.symm.trans hexec)
    refine ⟨d', hagree, hblocks ▸ h.blocks, ?_⟩
    rw [← Option.some.inj hexec]
    exact h.returned

/-- The pointers of a run are all aligned exactly if its requests are served one at a time, from
the start of the region. -/
theorem payloadsAligned_iff {t : τ} (hstart : Agree base blocks Rep { heap } { heap := t })
    (ht : blocks t = []) : PayloadsAligned I rules heap acts ↔ OneAtATime L I rules heap acts := by
  have hinit : Orderly base blocks Rep { heap } { heap := t } :=
    ⟨hstart, ht ▸ .none, fun p hp => absurd hp List.not_mem_nil⟩
  have hiff : PayloadsAligned I rules heap acts ↔
      (Client.machine I rules heap).AllSteps { heap } acts fun c act => ∀ n c', act = .malloc n →
        c.step I rules act = some c' → c'.returned ≠ c.returned → soleRequest L c n := by
    refine Machine.always_iff (I := fun c => ∃ d, Orderly base blocks Rep c d) ⟨_, hinit⟩ ?_ ?_ ?_
    · rintro c ⟨d, hd⟩
      exact hd.returned
    · rintro c act c' ⟨d, hd⟩ hstep hsole
      exact hd.step hfits hstep fun n hn hreturned => Or.inl (hsole n c' hn hstep hreturned)
    · rintro c act c' ⟨d, hd⟩ hstep haligned n c'' rfl hstep' hreturned
      obtain rfl : c' = c'' := Option.some.inj (hstep.symm.trans hstep')
      obtain ⟨hact, hexec⟩ := Option.ite_none_right_eq_some.mp hstep
      exact (hd.malloc hfits hact hexec).1 hreturned haligned
  constructor
  · intro haligned pre n c c' hbegin hrun hstep hreturned
    exact hiff.mp haligned pre _ c c' hbegin hrun hstep n c' rfl hstep hreturned
  · intro hsole
    refine hiff.mpr ?_
    rintro pre act c - hbegin hrun - n c' rfl hstep hreturned
    exact hsole pre n c c' hbegin hrun hstep hreturned

end Runs

theorem endOf_middle_ne (base : ℕ) (pre : List Block) (b : Block) (post : List Block) :
    endOf base pre ≠ endOf base (pre ++ b :: post) := by
  have := le_endOf (endOf base pre + b.extent) post
  rw [endOf_append, endOf_cons]
  rw [Block.extent] at *
  omega

theorem Coalescing.firstFits (base size : ℕ) : FirstFits layout interface
    (FirstFit.interface base size) (regionRules size) base id (Decodes base size) where
  simulates := simulates base size
  start h := ⟨h.start_eq, (by decide : 16 ∣ 4096).trans h.mapped.page⟩
  last h := h.tiled.last.symm
  malloc := by
    rintro ⟨a, m⟩ bs n p h' bs' hrep hmax hI hJ
    obtain ⟨rfl, rfl⟩ : (FirstFit.malloc base size n bs).1 = p ∧
        (FirstFit.malloc base size n bs).2 = bs' := Prod.mk.inj (Option.some.inj hJ)
    have hn : n + 15 < 2 ^ 64 := by
      have := hrep.mapped.le
      have := hrep.mapped.base_pos
      have hmax : n ≤ size := hmax
      omega
    rw [FirstFit.roundUp_eq hn]
    refine ⟨by unfold FirstFit.roundUp16; omega, FirstFit.malloc_served base size n bs, ?_⟩
    rcases FirstFit.malloc_cases base size n bs with ⟨pre, b, post, rfl, -, -, -, heq⟩ | ⟨hall, -⟩
    · intro hp
      rw [heq] at hp
      exact absurd (Nat.add_right_cancel hp) (endOf_middle_ne base pre b post)
    · intro _ b hb hfree
      simpa [FirstFit.unfit, hfree] using hall b hb

theorem Explicit.Placement.none_fits {start limit r p : ℕ} {bs bs' : List Block} {l l' : List ℕ}
    (h : Placement start limit r bs l p bs' l') (hp : p = endOf start bs + 16) :
    ∀ b ∈ bs, b.free = true → b.size < r := by
  cases h with
  | split pre b post => exact absurd (Nat.add_right_cancel hp) (endOf_middle_ne start pre b post)
  | whole pre b post => exact absurd (Nat.add_right_cancel hp) (endOf_middle_ne start pre b post)
  | append bs l hnone => exact hnone
  | full bs l hnone => exact hnone

theorem Explicit.firstFits (base size : ℕ) : FirstFits layout interface
    (Model.interface base size) (regionRules size) base Model.blocks (Sized base size) where
  simulates := simulates base size
  start := by
    rintro h M ⟨⟨rfl, rfl, hheap⟩, -⟩
    exact ⟨rfl, (by decide : 16 ∣ 4096).trans hheap.mapped.page⟩
  last := by
    rintro h M ⟨⟨rfl, rfl, hheap⟩, -⟩
    exact hheap.tiled.last.symm
  malloc := by
    rintro h M n p h' M' ⟨hrep, -⟩ hmax hI hJ
    obtain ⟨hn, hlast⟩ := hrep.no_overflow hmax
    obtain ⟨-, -, -, hserved, -, -⟩ := hrep.malloc hlast
    obtain ⟨rfl, rfl⟩ : (M.malloc base size (roundUp n)).1 = p ∧
        (M.malloc base size (roundUp n)).2 = M' := Prod.mk.inj (Option.some.inj hJ)
    refine ⟨Nat.dvd_of_mod_eq_zero (roundUp_spec hn).2.2, hserved, ?_⟩
    obtain ⟨rfl, -, hheap⟩ := hrep
    exact (malloc_placement hheap size (roundUp n)).none_fits

/-- In every run of a client of either allocator, all pointers handed out are multiples of sixteen
exactly if its requests are served one at a time from the start of the region. -/
theorem aligned_iff_oneAtATime {size mmap : ℕ} {a a' b b' : Allocator} {s s' : Explicit.State}
    (m : Memory) (hmapped : Mapped mmap size)
    (hinit : Coalescing.allocInit a size mmap = (0, a')) (hhead : s.head = 0)
    (hinit' : Explicit.allocInit b s size mmap = (0, b', s')) (acts : List Action) :
    (PayloadsAligned Coalescing.interface (Coalescing.regionRules size) (a', m) acts ↔
      OneAtATime Coalescing.layout Coalescing.interface (Coalescing.regionRules size) (a', m)
        acts) ∧
    (PayloadsAligned Explicit.interface (Explicit.regionRules size) (b', s') acts ↔
      OneAtATime Explicit.layout Explicit.interface (Explicit.regionRules size) (b', s') acts) :=
  ⟨payloadsAligned_iff (Coalescing.firstFits mmap size)
      (Coalescing.init_agree m hmapped hinit) rfl,
    payloadsAligned_iff (Explicit.firstFits mmap size)
      (Explicit.init_sound hmapped hhead hinit') rfl⟩

theorem second_not_aligned :
    ¬ PayloadsAligned Coalescing.interface (Coalescing.regionRules 4096)
        (⟨4096, 4096, 4096⟩, fun _ => 0) [.malloc 16, .malloc 16] ∧
      ¬ PayloadsAligned Explicit.interface (Explicit.regionRules 4096) Explicit.pageInit.2
        [.malloc 16, .malloc 16] := by
  constructor
  · intro h
    have hrun : ((Client.machine Coalescing.interface (Coalescing.regionRules 4096)
        (⟨4096, 4096, 4096⟩, fun _ => 0)).run { heap := (⟨4096, 4096, 4096⟩, fun _ => 0) }
        [.malloc 16, .malloc 16]).map Client.returned = some [4152, 4112] := by decide +kernel
    obtain ⟨c, hc, hreturned⟩ := Option.map_eq_some_iff.mp hrun
    exact absurd (h _ c (List.prefix_refl _) hc 4152 (by simp [hreturned])) (by decide)
  · intro h
    have hrun : ((Client.machine Explicit.interface (Explicit.regionRules 4096)
        Explicit.pageInit.2).run { heap := Explicit.pageInit.2 }
        [.malloc 16, .malloc 16]).map Client.returned = some [4152, 4112] := by decide +kernel
    obtain ⟨c, hc, hreturned⟩ := Option.map_eq_some_iff.mp hrun
    exact absurd (h _ c (List.prefix_refl _) hc 4152 (by simp [hreturned])) (by decide)

theorem aligned_iff_oneAtATime_page :
    (PayloadsAligned Coalescing.interface (Coalescing.regionRules 4096)
        (⟨4096, 4096, 4096⟩, fun _ => 0) [.malloc 16, .free 4112, .malloc 10] ↔
      OneAtATime Coalescing.layout Coalescing.interface (Coalescing.regionRules 4096)
        (⟨4096, 4096, 4096⟩, fun _ => 0) [.malloc 16, .free 4112, .malloc 10]) ∧
    (PayloadsAligned Explicit.interface (Explicit.regionRules 4096) Explicit.pageInit.2
        [.malloc 16, .free 4112, .malloc 10] ↔
      OneAtATime Explicit.layout Explicit.interface (Explicit.regionRules 4096)
        Explicit.pageInit.2 [.malloc 16, .free 4112, .malloc 10]) :=
  aligned_iff_oneAtATime (a := {}) (b := {}) (s := ⟨fun _ => 0, 0⟩) (fun _ => 0)
    Explicit.page_mapped rfl rfl rfl _

end LowLevel.Allocators
