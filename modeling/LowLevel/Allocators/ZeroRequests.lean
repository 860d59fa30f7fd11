import LowLevel.Allocators.DoubleFree

/-! # Requests of no bytes

A request of zero bytes is rounded to zero, so its block has no payload. It is a
block like the others while it is in use. When it is given back between blocks
in use, the links are written over its own footer and what follows; when a
neighbour is free, the merged block has room for them.
-/

namespace LowLevel.Allocators.Explicit

open Memory

/-- Requests of any size up to that of the region, none included. -/
def zeroRules (size : ℕ) : Rules := { minSize := 0, maxSize := size }

/-- The region is tiled, and the free blocks have room for their links. -/
def Sturdy (h : Allocator × State) : Prop :=
  ∃ bs, Tiled h.2.mem h.1.startPtr bs h.1.lastPtr ∧ ∀ b ∈ bs, b.free = true → 16 ≤ b.size

def rightFree (a : Allocator) (m : Memory) (ptr : ℕ) : Bool :=
  ptr + m.read64 (ptr - 16) + 8 < a.lastPtr ∧ m.read64 (ptr + m.read64 (ptr - 16) + 8 + 8) = 0

/-- The block of a pointer has room for the links, or is merged when it is given back. -/
def roomToFree (a : Allocator) (m : Memory) (ptr : ℕ) : Bool :=
  16 ≤ m.read64 (ptr - 16) ∨ leftFree a m ptr ∨ rightFree a m ptr

def roomToAct (c : Client (Allocator × State)) : Action → Bool
  | .free ptr => roomToFree c.heap.1 c.heap.2.mem ptr
  | _ => true

section Free

variable {a : Allocator} {s : State} {ring : List ℕ} {M : Model} {b : Block}
  {pre post : List Block} {ptr : ℕ}

theorem extents_pos {bs : List Block} (h : bs ≠ []) : 24 ≤ extents bs := by
  cases bs with
  | nil => exact absurd rfl h
  | cons c bs =>
    rw [extents_cons, Block.extent]
    omega

theorem merged_room {m : Memory} (h : Tiled m a.startPtr (pre ++ b :: post) a.lastPtr)
    (hroom : roomToFree a m (endOf a.startPtr pre + 16) = true) :
    16 ≤ (merged pre b post).size := by
  have hsize : m.read64 (endOf a.startPtr pre + 16 - 16) = b.size := by
    rw [Nat.add_sub_cancel]
    exact (h.tags _ (mem_located_middle ..)).size
  simp only [roomToFree, decide_eq_true_eq] at hroom
  simp only [merged]
  rcases hroom with hroom | hleft | hright
  · rw [hsize] at hroom
    omega
  · have := extents_pos ((leftFree_iff h).mp hleft)
    omega
  · have hfront := Coalescing.coalesceForward_eq h
    rw [rightFree, hsize, decide_eq_true_eq] at hright
    rw [Coalescing.coalesceForward, if_pos hright] at hfront
    omega

theorem allocFree_alone {hdr n : ℕ} (hlo : a.startPtr ≤ hdr) (hhi : hdr + 16 < a.lastPtr)
    (hsize : s.mem.read64 hdr = n) (hflag : s.mem.read64 (hdr + 8) ≠ 0)
    (hroom : roomToFree a s.mem (hdr + 16) = false) :
    allocFree a s (hdr + 16) = (0, push ⟨mergeTags s.mem hdr n, s.head⟩ hdr) := by
  have hsub : hdr + 16 - 16 = hdr := Nat.add_sub_cancel ..
  have hnot : ¬ (16 ≤ s.mem.read64 (hdr + 16 - 16) ∨ leftFree a s.mem (hdr + 16) = true ∨
      rightFree a s.mem (hdr + 16) = true) := by
    simpa [roomToFree] using hroom
  obtain ⟨-, hleft, hright⟩ := (not_or.mp hnot).imp_right not_or.mp
  rw [leftFree, decide_eq_true_iff, not_and, hsub] at hleft
  rw [rightFree, decide_eq_true_iff, hsub, hsize] at hright
  have hfront : coalesceFront a s (hdr + 16) n = (n, s) := by
    rw [coalesceFront, if_neg hright]
  have hback : coalesceBack a s (hdr + 16) n = (hdr, n, s) := by
    rw [coalesceBack, hsub]
    split_ifs with hstart
    · simp only [if_neg (hleft hstart)]
    · rfl
  rw [allocFree, if_neg (by omega), hsub, if_neg hflag, hsize, hfront]
  dsimp only
  rw [hback]

theorem located_of_headers {m : Memory} {x last : ℕ} {bs : List Block} (pre : List Block)
    (h : Tiled m x bs last) (hheaders : ∀ z ∈ located x pre, m.read64 z.1 = z.2.size)
    (hlt : endOf x pre < last) : ∃ c, (endOf x pre, c) ∈ located x bs := by
  induction pre generalizing x bs with
  | nil =>
    cases bs with
    | nil =>
      have := h.last
      simp only [endOf_nil] at this hlt
      omega
    | cons c bs => exact ⟨c, List.mem_cons_self ..⟩
  | cons d pre ih =>
    rw [endOf_cons] at hlt ⊢
    have hle := le_endOf (x + d.extent) pre
    cases bs with
    | nil =>
      have := h.last
      rw [Block.extent] at *
      simp only [endOf_nil] at this
      omega
    | cons c bs =>
      have hsize : c.size = d.size := by
        rw [← hheaders (x, d) (List.mem_cons_self ..)]
        exact (h.tags (x, c) (List.mem_cons_self ..)).size.symm
      have hext : x + c.extent = x + d.extent := by
        rw [Block.extent, Block.extent, hsize]
      have hrest : Tiled m (x + d.extent) bs last := by
        refine ⟨fun z hz => h.tags z (List.mem_cons_of_mem _ ?_), ?_⟩
        · rwa [hext]
        · rw [← hext, ← endOf_cons]
          exact h.last
      obtain ⟨e, he⟩ := ih hrest (fun z hz => hheaders z (List.mem_cons_of_mem _ hz)) hlt
      refine ⟨e, List.mem_cons_of_mem _ ?_⟩
      rwa [hext]

/-- Putting a node into the list writes to links of nodes only. -/
theorem push_linksOnly {l : List ℕ} {hdr : ℕ}
    (hl : s.head ≠ 0 → s.head ∈ l ∧ s.mem.read64 (s.head + 16) ∈ l) :
    LinksOnly (hdr :: l) s.mem (push s hdr).mem := by
  have hhdr : hdr ∈ hdr :: l := List.mem_cons_self ..
  rw [push]
  split_ifs with hhead
  · exact ((LinksOnly.refl _ _).write_prev hhdr).write_next hhdr
  · obtain ⟨hfirst, htail⟩ := hl hhead
    exact ((((LinksOnly.refl _ _).write_prev hhdr).write_next hhdr).write_next
      (List.mem_cons_of_mem _ htail)).write_prev (List.mem_cons_of_mem _ hfirst)

theorem FreeList.head_mem {l : List ℕ} (h : FreeList s l) (hhead : s.head ≠ 0) : s.head ∈ l := by
  have heq := h.head
  cases l with
  | nil => exact absurd heq hhead
  | cons x l =>
    rw [heq]
    exact List.mem_cons_self ..

theorem pushed_header {m : Memory} (h : Heap a s ring M) (hM : M.blocks = pre ++ b :: post)
    (hlive : b.free = false)
    (hm : s.mem.AgreeOutside m (endOf a.startPtr pre) (endOf a.startPtr pre + b.extent))
    {z : ℕ × Block} (hz : z ∈ located a.startPtr M.blocks) (hle : z.1 ≤ endOf a.startPtr pre)
    {k : ℕ} (hk : z.1 ≤ k) (hk' : k < z.1 + 16) :
    (push ⟨m, s.head⟩ (endOf a.startPtr pre)).mem k = m k := by
  have hmem : (endOf a.startPtr pre, b) ∈ located a.startPtr M.blocks := hM ▸ mem_located_middle ..
  have hnodes : s.head ≠ 0 → s.head ∈ ring ∧ m.read64 (s.head + 16) ∈ ring := by
    intro hhead
    have hfirst := h.list.head_mem hhead
    have hne : s.head ≠ endOf a.startPtr pre := by
      rintro heq
      rcases h.node_cases hfirst with ⟨c, hc, hfree, -⟩ | ⟨-, hout⟩
      · rw [heq] at hc
        rw [located_inj hc hmem, hlive] at hfree
        cases hfree
      · have hb := located_bounds hmem
        have hend := h.endOf_le
        simp only [Block.extent] at hb
        omega
    have hout := h.links_outside hfirst hmem hne
    simp only at hout
    refine ⟨hfirst, ?_⟩
    rw [hm.read64 (by omega)]
    exact (h.list.links_mem hfirst).1
  refine push_linksOnly (s := ⟨m, s.head⟩) hnodes k fun x hx => ?_
  rcases List.mem_cons.mp hx with rfl | hx
  · omega
  · rcases eq_or_ne x z.1 with rfl | hne
    · exact Or.inl hk'
    · have hout := h.links_outside hx hz hne
      rw [Block.extent] at hout
      omega

theorem push_not_sturdy (h : Heap a s ring M) (hM : M.blocks = pre ++ b :: post)
    (hlive : b.free = false) (hsmall : b.size < 16) :
    ¬ Sturdy (a, push ⟨mergeTags s.mem (endOf a.startPtr pre) b.size, s.head⟩
      (endOf a.startPtr pre)) := by
  rintro ⟨bs, htiled, hsizes⟩
  simp only at htiled
  have hmem : (endOf a.startPtr pre, b) ∈ located a.startPtr M.blocks := hM ▸ mem_located_middle ..
  have hbounds := h.tiled.bounds hmem
  simp only [Block.extent] at hbounds
  have hlt : b.size < 2 ^ 64 := by omega
  obtain ⟨hagree, htags, -⟩ := mergeTags_run s.mem (endOf a.startPtr pre) hlt
  have hheader := @pushed_header a s ring M b pre post _ h hM hlive hagree
  obtain ⟨c, hc⟩ : ∃ c, (endOf a.startPtr pre, c) ∈ located a.startPtr bs := by
    refine located_of_headers pre htiled (fun z hz => ?_) (by omega)
    have hz' : z ∈ located a.startPtr M.blocks := by
      rw [hM, located_append]
      exact List.mem_append_left _ hz
    have hb := located_bounds hz
    rw [Block.extent] at hb
    rw [← (h.tiled.tags z hz').size,
      read64_congr fun k hk hk' => hheader hz' (by omega) hk (by omega)]
    exact hagree.read64 (by omega)
  have hc' := htiled.tags _ hc
  have hsize : c.size = b.size := by
    rw [← htags.size, ← hc'.size]
    exact read64_congr fun k hk hk' => hheader hmem le_rfl hk (by simp only at hk'; omega)
  have hflag : (if c.free then 0 else 1) = 0 := by
    rw [← hc'.allocated,
      read64_congr fun k hk hk' => hheader hmem le_rfl (by simp only at hk ⊢; omega)
        (by simp only at hk' ⊢; omega)]
    exact htags.allocated
  have hfree : c.free = true := by
    by_contra hno
    rw [if_neg hno] at hflag
    cases hflag
  have := hsizes c (mem_of_located hc) hfree
  omega

end Free

section Runs

variable {base size : ℕ} {rules : Rules} {c c' : Client (Allocator × State)} {d : Client Model}
  {act : Action}

/-- A client beside one of the abstract allocator; blocks in use may be without room for links. -/
abbrev Loose (base size : ℕ) := Agree base Model.blocks (Rep base size)

theorem Loose.sturdy (h : Loose base size c d) : Sturdy c.heap := by
  obtain ⟨⟨rfl, rfl, hheap⟩, -, -, -, -⟩ := h
  exact ⟨_, hheap.tiled, hheap.sizes⟩

theorem Loose.malloc {n : ℕ} (h : Loose base size c d) (hn : n ≤ roundUp n)
    (hlast : c.heap.1.lastPtr + 24 + roundUp n < 2 ^ 64)
    (hexec : c.exec interface (.malloc n) = some c') : ∃ d', Loose base size c' d' := by
  obtain ⟨h', heq, hrep', hserved, -, -⟩ := h.heap.malloc hlast
  obtain ⟨c'', d', hc, -, hagree, -, -, -⟩ :=
    Agree.malloc (J := Model.interface base size) h heq rfl hrep' hn hserved
  obtain rfl : c'' = c' := Option.some.inj (hc.symm.trans hexec)
  exact ⟨d', hagree⟩

theorem Loose.free {p : ℕ} (h : Loose base size c d) (hp : p ∈ c.live.map Prod.fst)
    (hroom : roomToFree c.heap.1 c.heap.2.mem p = true)
    (hexec : c.exec interface (.free p) = some c') : ∃ d', Loose base size c' d' := by
  obtain ⟨pre, b, post, hblocks, hlive, rfl⟩ := h.split hp
  have hmerged : 16 ≤ (merged pre b post).size := by
    have htiled := h.heap.heap.tiled
    rw [hblocks] at htiled
    rw [← h.heap.start] at hroom
    exact merged_room htiled hroom
  obtain ⟨h', heq, hrep', hblocks', -, -⟩ := h.heap.free hblocks hlive hmerged
  obtain ⟨c'', d', hc, -, hagree, -, -, -⟩ := Agree.free (J := Model.interface base size) h
    heq (by simp only [Model.interface, Nat.add_sub_cancel]) hrep' rfl hblocks hlive hblocks'
  obtain rfl : c'' = c' := Option.some.inj (hc.symm.trans hexec)
  exact ⟨d', hagree⟩

theorem Loose.free_not_sturdy {p : ℕ} (h : Loose base size c d) (hp : p ∈ c.live.map Prod.fst)
    (hroom : roomToFree c.heap.1 c.heap.2.mem p = false)
    (hexec : c.exec interface (.free p) = some c') : ¬ Sturdy c'.heap := by
  obtain ⟨pre, b, post, hblocks, hlive, rfl⟩ := h.split hp
  obtain ⟨rfl, -, hheap⟩ := h.heap
  have hmem := hblocks ▸ mem_located_middle c.heap.1.startPtr pre b post
  have htags := hheap.tiled.tags _ hmem
  have hbounds := hheap.tiled.bounds hmem
  simp only [Block.extent] at hbounds
  have hflag := htags.allocated
  rw [hlive] at hflag
  have hfree := allocFree_alone hbounds.1 (by omega) htags.size (by rw [hflag]; simp) hroom
  have hsmall : b.size < 16 := by
    have hnot : ¬ 16 ≤ c.heap.2.mem.read64 (endOf c.heap.1.startPtr pre + 16 - 16) := by
      intro h16
      have hyes : roomToFree c.heap.1 c.heap.2.mem (endOf c.heap.1.startPtr pre + 16) = true :=
        decide_eq_true (Or.inl h16)
      rw [hroom] at hyes
      cases hyes
    rw [Nat.add_sub_cancel] at hnot
    have := htags.size
    simp only at this
    omega
  rw [← Option.some.inj hexec]
  simp only [hfree]
  exact push_not_sturdy hheap hblocks hlive hsmall

theorem Loose.reset (h : Loose base size c d) (hexec : c.exec interface .reset = some c') :
    ∃ d', Loose base size c' d' := by
  obtain ⟨hcode, hrep⟩ := h.heap.reset
  obtain ⟨c'', d', hc, -, hagree, -, -⟩ :=
    Agree.reset (J := Model.interface base size) h hcode hrep rfl
  obtain rfl : c'' = c' := Option.some.inj (hc.symm.trans hexec)
  exact ⟨d', hagree⟩

theorem Loose.write {q i : ℕ} {v : UInt8} (h : Loose base size c d)
    (hact : c.allowed interface rules (.write q i v) = true)
    (hexec : c.exec interface (.write q i v) = some c') : ∃ d', Loose base size c' d' := by
  obtain ⟨y, hy, rfl, hi⟩ := Client.allowed_write.mp hact
  obtain ⟨z, hz, hyz, -⟩ := h.owned.block hy
  have hsize := (h.heap.blockSize hz).1
  rw [← hyz] at hsize
  have hrep := h.heap.poke (k := y.1 + i) v hz (by omega) (by omega)
  obtain ⟨c'', d', hc, -, hagree, -, -, -⟩ :=
    Agree.write (J := Model.interface base size) h hrep rfl
  obtain rfl : c'' = c' := Option.some.inj (hc.symm.trans hexec)
  exact ⟨d', hagree⟩

theorem Loose.step (h : Loose base size c d) (honce : rules.refree = false)
    (hstep : c.step interface rules act = some c')
    (hsmall : ∀ n, act = .malloc n → n ≤ roundUp n ∧ c.heap.1.lastPtr + 24 + roundUp n < 2 ^ 64)
    (hroom : roomToAct c act = true) : ∃ d', Loose base size c' d' := by
  obtain ⟨hact, hexec⟩ := Option.ite_none_right_eq_some.mp hstep
  cases act with
  | malloc n => exact h.malloc (hsmall n rfl).1 (hsmall n rfl).2 hexec
  | free p =>
    have hp : p ∈ c.live.map Prod.fst := by
      simpa only [honce, Bool.false_eq_true, false_and, or_false] using Client.allowed_free.mp hact
    exact h.free hp hroom hexec
  | reset => exact h.reset hexec
  | write q i v => exact h.write hact hexec

theorem Loose.zero_step (h : Loose base size c d)
    (hstep : c.step interface (zeroRules size) act = some c') (hroom : roomToAct c act = true) :
    ∃ d', Loose base size c' d' := by
  refine h.step rfl hstep ?_ hroom
  rintro n rfl
  obtain ⟨hact, -⟩ := Option.ite_none_right_eq_some.mp hstep
  obtain ⟨hn, hlast⟩ := h.heap.no_overflow (Client.allowed_malloc.mp hact).2
  exact ⟨(roundUp_spec hn).1, hlast⟩

variable {a a' : Allocator} {s s' : State} {mmap : ℕ}

theorem init_loose (hmapped : Mapped mmap size) (hhead : s.head = 0)
    (hinit : allocInit a s size mmap = (0, a', s')) :
    Loose mmap size { heap := (a', s') } { heap := {} } := by
  have h := init_sound hmapped hhead hinit
  exact ⟨h.heap.toRep, h.owned, h.live, h.returned, h.log⟩

/-- In all states of the run, the region is tiled and free blocks have room for the links. -/
def StaysSturdy (size : ℕ) (heap : Allocator × State) (acts : List Action) : Prop :=
  ∀ pre c, pre <+: acts →
    (Client.machine interface (zeroRules size) heap).run { heap } pre = some c → Sturdy c.heap

/-- Every block the run gives back has room for the links, or a free neighbour. -/
def FreesWithRoom (size : ℕ) (heap : Allocator × State) (acts : List Action) : Prop :=
  ∀ pre act c c', pre ++ [act] <+: acts →
    (Client.machine interface (zeroRules size) heap).run { heap } pre = some c →
    (Client.machine interface (zeroRules size) heap).step c act = some c' → roomToAct c act = true

/-- With requests of zero bytes the heap stays in order exactly along the runs that give blocks
without payload back beside a free block only. -/
theorem staysSturdy_iff (hmapped : Mapped mmap size) (hhead : s.head = 0)
    (hinit : allocInit a s size mmap = (0, a', s')) (acts : List Action) :
    StaysSturdy size (a', s') acts ↔ FreesWithRoom size (a', s') acts := by
  refine Machine.always_iff (P := fun c => Sturdy c.heap) (I := fun c => ∃ d, Loose mmap size c d)
    (C := fun c act => roomToAct c act = true) ⟨_, init_loose hmapped hhead hinit⟩ ?_ ?_ ?_
  · rintro c ⟨d, hd⟩
    exact hd.sturdy
  · rintro c act c' ⟨d, hd⟩ hstep hroom
    exact hd.zero_step hstep hroom
  · rintro c act c' ⟨d, hd⟩ hstep hsturdy
    -- a step without room leads to a state that is not in order
    obtain ⟨hact, hexec⟩ := Option.ite_none_right_eq_some.mp hstep
    cases act with
    | free p =>
      have hp : p ∈ c.live.map Prod.fst := by
        simpa [zeroRules] using Client.allowed_free.mp hact
      by_contra hno
      exact hd.free_not_sturdy hp (Bool.not_eq_true _ ▸ hno) hexec hsturdy
    | _ => rfl

/-- A request of zero bytes that is given back. -/
theorem zero_not_sturdy : ¬ StaysSturdy 4096 pageInit.2 [.malloc 0, .free 4112] := by
  intro h
  have hrun : ((Client.machine interface (zeroRules 4096) pageInit.2).run { heap := pageInit.2 }
      [.malloc 0, .free 4112]).map (fun c => (c.heap.1, c.heap.2.mem.read64 4096,
        c.heap.2.mem.read64 4104)) = some (⟨4096, 4120, 4096⟩, 0, 0) := by decide +kernel
  obtain ⟨c, hc, heq⟩ := Option.map_eq_some_iff.mp hrun
  obtain ⟨hctl, heq⟩ := Prod.mk.inj heq
  obtain ⟨hsize, hflag⟩ := Prod.mk.inj heq
  obtain ⟨bs, htiled, hsizes⟩ := h _ c (List.prefix_refl _) hc
  rw [hctl] at htiled
  -- the first block of every tiling has no payload and is free
  cases bs with
  | nil => cases htiled.last
  | cons b bs =>
    have htags := htiled.tags (4096, b) (List.mem_cons_self ..)
    have hb : b.size = 0 := htags.size.symm.trans hsize
    have hfree : b.free = true := by
      have := htags.allocated.symm.trans hflag
      by_contra hno
      rw [if_neg hno] at this
      cases this
    have := hsizes b (List.mem_cons_self ..) hfree
    omega

/-- A block without payload between two others, given back beside a free one. -/
theorem staysSturdy_iff_page : StaysSturdy 4096 pageInit.2
    [.malloc 16, .malloc 0, .malloc 16, .free 4112, .free 4152] ↔
      FreesWithRoom 4096 pageInit.2 [.malloc 16, .malloc 0, .malloc 16, .free 4112, .free 4152] :=
  staysSturdy_iff (a := {}) (s := ⟨fun _ => 0, 0⟩) page_mapped rfl rfl _

end Runs

end LowLevel.Allocators.Explicit
