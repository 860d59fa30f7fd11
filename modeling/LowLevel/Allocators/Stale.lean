import LowLevel.Allocators.Simulation

/-! # What is left of blocks that were given back

A pointer that was given back is recognised by the allocated flag in front of
it. When its block was merged into the one before, that word is left as it was,
and where free blocks are linked the links of a later remainder may be written
over it. A client is watched for the pointers it gave back, as long as nothing
that overlaps their blocks is handed out.
-/

namespace LowLevel.Allocators

open Memory

/-- Where an allocator keeps its blocks, and whether the free ones are linked through the first two
words of their payloads. -/
structure Layout (σ : Type) where
  control : σ → Allocator
  mem : σ → Memory
  linked : Bool

/-- The bytes of a free block in front of what nobody writes to. -/
def Layout.lead {σ : Type} (L : Layout σ) : ℕ := if L.linked then 32 else 16

/-- A pointer that was given back, with the payload size of its block; `cleared` tells whether the
word in front of it was last written as the flag of a free block. -/
structure Freed where
  ptr : ℕ
  size : ℕ
  cleared : Bool
  deriving DecidableEq

/-- A footer is in front of the block of a pointer, and leads to a free block. -/
def leftFree (a : Allocator) (m : Memory) (ptr : ℕ) : Bool :=
  a.startPtr < ptr - 16 ∧ m.read64 (ptr - 40 - m.read64 (ptr - 24) + 8) = 0

/-- A block from `hdr` to `next` was handed out. It is followed by what was left of a free block if
it ends in front of the old block: a flag or, where blocks are linked, a link was written over the
word in question if it ends there or a few bytes before. -/
def Freed.handedOut (linked : Bool) (hdr next : ℕ) (f : Freed) : Option Freed :=
  if next ≤ f.ptr - 16 ∨ f.ptr + f.size + 8 ≤ hdr then
    some { f with cleared :=
      if next = f.ptr - 16 then true
      else if linked ∧ (next + 8 = f.ptr - 16 ∨ next + 16 = f.ptr - 16) then false
      else f.cleared }
  else none

/-- A client with the pointers it gave back whose blocks were not handed out since. -/
structure Watched (σ : Type) where
  client : Client σ
  freed : List Freed := []

namespace Watched

variable {σ : Type} (L : Layout σ) (I : Interface σ) (rules : Rules)

def follow (w : Watched σ) : Action → Client σ → List Freed
  | .malloc _, c =>
    let ptr := c.log.getLastD 0
    if ptr = 0 then w.freed
    else w.freed.filterMap
      (Freed.handedOut L.linked (ptr - 16) (ptr + (L.mem c.heap).read64 (ptr - 16) + 8))
  | .free ptr, _ => {
      ptr
      size := (L.mem w.client.heap).read64 (ptr - 16)
      cleared := !leftFree (L.control w.client.heap) (L.mem w.client.heap) ptr } :: w.freed
  | .reset, _ => []
  | .write .., _ => w.freed

def step (w : Watched σ) (act : Action) : Option (Watched σ) :=
  (w.client.step I rules act).map fun c => ⟨c, w.follow L act c⟩

def machine (heap : σ) : Machine (Watched σ) Action := ⟨⟨{ heap }, []⟩, step L I rules⟩

end Watched

def Aligned (bs : List Block) : Prop := ∀ b ∈ bs, 8 ∣ b.size

section Aligned

variable {a r p : ℕ} {b : Block} {bs bs' pre post : List Block} {z : ℕ × Block}

theorem Aligned.extents (h : Aligned bs) : 8 ∣ extents bs := by
  induction bs with
  | nil => exact dvd_zero 8
  | cons b bs ih =>
    have hb := h b (List.mem_cons_self ..)
    have hbs := ih fun c hc => h c (List.mem_cons_of_mem _ hc)
    rw [extents_cons, Block.extent]
    omega

theorem Aligned.located (h : Aligned bs) (ha : 8 ∣ a) (hz : z ∈ located a bs) : 8 ∣ z.1 := by
  obtain ⟨pre, post, rfl, heq⟩ := mem_located_split hz
  have hpre : Aligned pre := fun c hc => h c (List.mem_append_left _ hc)
  rw [heq, endOf_eq]
  exact Nat.dvd_add ha hpre.extents

theorem Aligned.served (h : Aligned bs) (hserved : Served a r bs p bs') (hr : 8 ∣ r) :
    Aligned bs' := by
  intro c hc
  rcases hserved.size_cases hc with heq | ⟨b, hb, heq | ⟨hsplit, heq⟩⟩
  · exact heq ▸ hr
  · exact heq ▸ h b hb
  · have := h b hb
    omega

theorem Aligned.release (h : Aligned (pre ++ b :: post)) : Aligned (release pre b post) := by
  have hb := h b (by simp)
  rw [merge_parts] at h
  have hleft : Aligned (freeLeft pre) := fun c hc => h c (by simp [hc])
  have hright : Aligned (freeRight post) := fun c hc => h c (by simp [hc])
  have := hleft.extents
  have := hright.extents
  intro c hc
  rcases List.mem_append.mp hc with hc | hc
  · exact h c (by simp [hc])
  · rcases List.mem_cons.mp hc with rfl | hc
    · simp only [merged]
      omega
    · exact h c (by simp [hc])

end Aligned

def Freed.Within (f : Freed) (z : ℕ × Block) : Prop :=
  z.1 + 16 ≤ f.ptr ∧ f.ptr + f.size + 8 ≤ z.1 + z.2.extent

structure FreeWords (linked : Bool) (a : ℕ) (bs : List Block) (m : Memory) : Prop where
  base : 8 ∣ a
  aligned : Aligned bs
  flags : ∀ z ∈ located a bs, z.2.free = true → m.read64 (z.1 + 8) = 0
  links : linked = true → ∀ z ∈ located a bs, z.2.free = true →
    m.read64 (z.1 + 16) ≠ 0 ∧ m.read64 (z.1 + 24) ≠ 0

/-- The old block of a pointer is still free, and the word in front of the pointer is zero if that
is what was last written there. -/
structure Stale (a : ℕ) (bs : List Block) (m : Memory) (f : Freed) : Prop where
  inside : ∃ z ∈ located a bs, z.2.free = true ∧ f.Within z
  aligned : 8 ∣ f.ptr
  flag : m.read64 (f.ptr - 8) = 0 ↔ f.cleared = true

section Words

variable {σ : Type} {L : Layout σ} {a : ℕ} {bs bs' : List Block} {m m' : Memory} {f : Freed}
  {z z' : ℕ × Block}

theorem FreeWords.cases (h : FreeWords L.linked a bs m) (hz : z ∈ located a bs)
    (hfree : z.2.free = true) (hf : f.Within z) (haligned : 8 ∣ f.ptr) :
    (f.ptr = z.1 + 16 ∧ m.read64 (f.ptr - 8) = 0) ∨
      (L.linked = true ∧ (f.ptr = z.1 + 24 ∨ f.ptr = z.1 + 32) ∧ m.read64 (f.ptr - 8) ≠ 0) ∨
      z.1 + L.lead ≤ f.ptr - 8 := by
  obtain ⟨hlo, hhi⟩ := hf
  have hdvd := h.aligned.located h.base hz
  rcases eq_or_ne f.ptr (z.1 + 16) with heq | hne
  · refine Or.inl ⟨heq, ?_⟩
    rw [heq]
    exact h.flags z hz hfree
  · cases hlinked : L.linked with
    | false =>
      simp only [Layout.lead, hlinked]
      refine Or.inr (Or.inr ?_)
      simp only [Bool.false_eq_true, if_false]
      omega
    | true =>
      obtain ⟨hprev, hnext⟩ := h.links hlinked z hz hfree
      by_cases hlink : f.ptr = z.1 + 24 ∨ f.ptr = z.1 + 32
      · refine Or.inr (Or.inl ⟨rfl, hlink, ?_⟩)
        rcases hlink with heq | heq <;> rw [heq]
        · exact hprev
        · exact hnext
      · simp only [Layout.lead, hlinked, if_true]
        omega

theorem SameInside.read64 {lead : ℕ} (h : SameInside lead a bs m m') (hz : z ∈ located a bs)
    (hfree : z.2.free = true) (hf : f.Within z) (hlead : z.1 + lead ≤ f.ptr - 8) :
    m'.read64 (f.ptr - 8) = m.read64 (f.ptr - 8) := by
  obtain ⟨hlo, hhi⟩ := hf
  rw [Block.extent] at hhi
  exact read64_congr fun k hk hk' => h z hz hfree k (by omega) (by omega)

theorem FreeWords.flag_iff (h : FreeWords L.linked a bs m) (h' : FreeWords L.linked a bs' m')
    (hsame : SameInside L.lead a bs' m m') (hz : z ∈ located a bs) (hfree : z.2.free = true)
    (hf : f.Within z) (hz' : z' ∈ located a bs') (hfree' : z'.2.free = true) (hf' : f.Within z')
    (haligned : 8 ∣ f.ptr) (hstart : z'.1 = z.1 ∨ z'.1 + 24 ≤ z.1) :
    m'.read64 (f.ptr - 8) = 0 ↔ m.read64 (f.ptr - 8) = 0 := by
  have hlead : L.lead ≤ 32 := by
    unfold Layout.lead
    split_ifs <;> omega
  have hlo := hf.1
  rcases hstart with hstart | hstart
  · rcases h.cases hz hfree hf haligned with ⟨heq, hzero⟩ | ⟨hlinked, heq, hzero⟩ | hin
    · rcases h'.cases hz' hfree' hf' haligned with ⟨-, hzero'⟩ | ⟨-, heq', -⟩ | hin'
      · exact iff_of_true hzero' hzero
      · omega
      · exact absurd hin' (by unfold Layout.lead; split_ifs <;> omega)
    · rcases h'.cases hz' hfree' hf' haligned with ⟨heq', -⟩ | ⟨-, -, hzero'⟩ | hin'
      · omega
      · exact iff_of_false hzero' hzero
      · rw [hsame.read64 hz' hfree' hf' hin']
    · rw [hsame.read64 hz' hfree' hf' (hstart ▸ hin)]
  · rw [hsame.read64 hz' hfree' hf' (by omega)]

end Words

theorem located_after {a h : ℕ} {bs : List Block} {x z : ℕ × Block} (hx : x ∈ located a bs)
    (hz : z ∈ located a bs) (hlo : x.1 + x.2.extent ≤ h) (hhi : h < x.1 + x.2.extent + 24)
    (hstart : z.1 ≤ h) (hend : h < z.1 + z.2.extent) : z.1 = x.1 + x.2.extent := by
  obtain ⟨pre, post, rfl, heq⟩ := mem_located_split hx
  rw [located_append, List.mem_append] at hz
  rcases hz with hz | hz
  · have := located_bounds hz
    omega
  · rcases List.mem_cons.mp hz with rfl | hz
    · simp only at *
      omega
    · cases post with
      | nil => cases hz
      | cons c post =>
        rcases List.mem_cons.mp hz with rfl | hz
        · simp only [heq]
        · have := located_bounds hz
          have hc : 24 ≤ c.extent := Nat.le_add_left ..
          omega

/-- The block that is handed out, and what becomes of the free blocks: they stay as they are, but
the one it is carved from, of which only a remainder may be left. -/
theorem Served.carved {a r p : ℕ} {bs bs' : List Block} (h : Served a r bs p bs') (hp : p ≠ 0) :
    ∃ x, x.1 + 16 = p ∧ x ∈ located a bs' ∧ ∀ z ∈ located a bs, z.2.free = true →
      z ∈ located a bs' ∨ (z.1 = x.1 ∧ (x.2.extent = z.2.extent ∨ ∃ d : Block,
        (x.1 + x.2.extent, d) ∈ located a bs' ∧ d.free = true ∧
          x.1 + x.2.extent + d.extent = z.1 + z.2.extent)) := by
  cases h with
  | carve pre b post hfree hr =>
    refine ⟨(endOf a pre, handed r b), rfl, ?_, fun z hz _ => ?_⟩
    · have hlive : (endOf a pre, handed r b) ∈
          liveBlocks a (pre ++ Allocators.carve r b ++ post) := by
        rw [liveBlocks_append, liveBlocks_append, liveBlocks_carve]
        simp
      exact liveBlocks_located hlive
    · rw [located_append, List.mem_append] at hz
      rw [located_append, located_append, endOf_append, endOf_carve, List.mem_append,
        List.mem_append]
      rcases hz with hz | hz
      · exact Or.inl (Or.inl (Or.inl hz))
      · rcases List.mem_cons.mp hz with rfl | hz
        · refine Or.inr ⟨rfl, ?_⟩
          unfold handed Allocators.carve
          split_ifs with hsplit
          · refine Or.inr ⟨⟨b.size - r - 24, true⟩, ?_, rfl, ?_⟩
            · exact List.mem_append_left _ (List.mem_append_right _ (by simp [located]))
            · simp only [Block.extent]
              omega
          · exact Or.inl rfl
        · exact Or.inl (Or.inr hz)
  | concat =>
    refine ⟨(endOf a bs, ⟨r, false⟩), rfl, mem_located_middle a bs _ [], fun z hz _ => Or.inl ?_⟩
    rw [located_append]
    exact List.mem_append_left _ hz
  | full => exact absurd rfl hp

theorem located_release {a : ℕ} {pre post : List Block} {b : Block} {z : ℕ × Block}
    (hz : z ∈ located a (pre ++ b :: post)) (hfree : z.2.free = true) (hlive : b.free = false) :
    ∃ z' ∈ located a (release pre b post), z'.2.free = true ∧ z'.1 ≤ z.1 ∧
      z.1 + z.2.extent ≤ z'.1 + z'.2.extent ∧ (z'.1 = z.1 ∨ z'.1 + 24 ≤ z.1) := by
  have hmerged : (endOf a (beforeMerge pre), merged pre b post) ∈ located a (release pre b post) :=
    mem_located_middle ..
  have hkeep : z ∈ located a (release pre b post) → ∃ z' ∈ located a (release pre b post),
      z'.2.free = true ∧ z'.1 ≤ z.1 ∧ z.1 + z.2.extent ≤ z'.1 + z'.2.extent ∧
        (z'.1 = z.1 ∨ z'.1 + 24 ≤ z.1) :=
    fun h => ⟨z, h, hfree, le_rfl, le_rfl, Or.inl rfl⟩
  rw [merge_parts, located_append, located_append, List.mem_append, List.mem_append,
    endOf_merge_parts] at hz
  rcases hz with (hz | hz) | hz
  · refine hkeep ?_
    rw [release, located_append]
    exact List.mem_append_left _ hz
  · have hb := located_bounds hz
    rw [← endOf_append, endOf_merge_parts] at hb
    refine ⟨_, hmerged, rfl, hb.1, hb.2, ?_⟩
    -- a block inside the merged one is its first part, or has a part before it
    rw [located_append, List.mem_append] at hz
    rcases hz with hz | hz
    · rcases freeLeft_cases pre with ⟨c, rest, -, -, hleft, hbefore⟩ | ⟨hleft, -, -⟩
      · rw [hleft] at hz
        obtain rfl := List.mem_singleton.mp hz
        exact Or.inl rfl
      · rw [hleft] at hz
        cases hz
    · rcases List.mem_cons.mp hz with rfl | hz
      · rw [hlive] at hfree
        cases hfree
      · have hlo := (located_bounds hz).1
        have hle := le_endOf (endOf a (beforeMerge pre)) (freeLeft pre)
        rw [Block.extent] at hlo
        exact Or.inr (by simp only; omega)
  · refine hkeep ?_
    rw [release, located_append]
    exact List.mem_append_right _ (List.mem_cons_of_mem _ hz)

theorem leftFree_iff {a : Allocator} {m : Memory} {last : ℕ} {b : Block} {pre post : List Block}
    (h : Tiled m a.startPtr (pre ++ b :: post) last) :
    leftFree a m (endOf a.startPtr pre + 16) = true ↔ freeLeft pre ≠ [] := by
  rw [leftFree, decide_eq_true_iff, Nat.add_sub_cancel]
  rcases eq_or_ne pre [] with rfl | hne
  · simp [freeLeft, freeRight]
  · obtain ⟨rest, c, hc⟩ := h.precedes hne
    rw [hc.footer, hc.header, hc.allocated, hc.left]
    cases c.free with
    | true => exact iff_of_true ⟨hc.inside, rfl⟩ (List.cons_ne_nil _ _)
    | false => exact iff_of_false (fun h => by cases h.2) (fun h => h rfl)

namespace Stale

variable {σ : Type} {L : Layout σ} {a p r : ℕ} {bs bs' pre post : List Block} {b : Block}
  {m m' : Memory} {f f' : Freed}

theorem malloc (h : Stale a bs m f) (hw : FreeWords L.linked a bs m)
    (hw' : FreeWords L.linked a bs' m') (hsame : SameInside L.lead a bs' m m')
    (hserved : Served a r bs p bs') (hp : p ≠ 0) (htags : ∀ z ∈ located a bs', Tags m' z)
    (hf : f.handedOut L.linked (p - 16) (p + m'.read64 (p - 16) + 8) = some f') :
    Stale a bs' m' f' := by
  obtain ⟨⟨z, hz, hfree, hin⟩, haligned, hflag⟩ := h
  obtain ⟨x, rfl, hx, hcarved⟩ := hserved.carved hp
  have hnext : x.1 + 16 + m'.read64 (x.1 + 16 - 16) + 8 = x.1 + x.2.extent := by
    rw [Nat.add_sub_cancel, (htags x hx).size, Block.extent]
    omega
  rw [hnext, Nat.add_sub_cancel, Freed.handedOut] at hf
  obtain ⟨hapart, hf⟩ := Option.ite_none_right_eq_some.mp hf
  obtain rfl := Option.some.inj hf
  obtain ⟨hlo, hhi⟩ := hin
  -- the block around the old one: as before, or the remainder
  obtain ⟨z', hz', hfree', hin', hsplit⟩ : ∃ z' ∈ located a bs', z'.2.free = true ∧
      f.Within z' ∧ (z' = z ∨ z'.1 = x.1 + x.2.extent) := by
    rcases hcarved z hz hfree with hz' | ⟨hstart, hwhole | ⟨d, hd, hdfree, hend⟩⟩
    · exact ⟨z, hz', hfree, ⟨hlo, hhi⟩, Or.inl rfl⟩
    · omega
    · have hext : 24 ≤ x.2.extent := Nat.le_add_left ..
      exact ⟨_, hd, hdfree, ⟨by simp only; omega, by simp only; omega⟩, Or.inr rfl⟩
  refine ⟨⟨z', hz', hfree', hin'⟩, haligned, ?_⟩
  have hafter : ∀ k ≤ 16, x.1 + x.2.extent + k = f.ptr - 16 → f.ptr = z'.1 + (k + 16) := by
    intro k hk heq
    obtain ⟨hlo', hhi'⟩ := hin'
    have := located_after (h := f.ptr - 16) hx hz' (by omega) (by omega) (by omega) (by omega)
    omega
  have hcases := hw'.cases hz' hfree' hin' haligned
  have hlead : 16 ≤ L.lead := by
    unfold Layout.lead
    split_ifs <;> omega
  simp only
  split_ifs with hstart hlink
  · have := hafter 0 (by omega) hstart
    rcases hcases with ⟨-, hzero⟩ | ⟨-, hne, -⟩ | hdeep
    · exact iff_of_true hzero rfl
    · omega
    · omega
  · have hpos : f.ptr = z'.1 + 24 ∨ f.ptr = z'.1 + 32 :=
      hlink.2.imp (hafter 8 (by omega)) (hafter 16 le_rfl)
    rcases hcases with ⟨heq, -⟩ | ⟨-, -, hne⟩ | hdeep
    · omega
    · exact iff_of_false hne (by simp)
    · rw [Layout.lead, if_pos hlink.1] at hdeep
      omega
  · rw [← hflag]
    rcases hsplit with rfl | hremainder
    · exact hw.flag_iff hw' hsame hz hfree ⟨hlo, hhi⟩ hz' hfree' hin' haligned (Or.inl rfl)
    · rcases hcases with ⟨heq, -⟩ | ⟨hlinked, hor, -⟩ | hdeep
      · exact absurd (by omega) hstart
      · exact absurd ⟨hlinked, by omega⟩ hlink
      · rw [hsame.read64 hz' hfree' hin' hdeep]

theorem free (h : Stale a (pre ++ b :: post) m f) (hw : FreeWords L.linked a (pre ++ b :: post) m)
    (hw' : FreeWords L.linked a (release pre b post) m')
    (hsame : SameInside L.lead a (release pre b post) m m') (hlive : b.free = false) :
    Stale a (release pre b post) m' f := by
  obtain ⟨⟨z, hz, hfree, hlo, hhi⟩, haligned, hflag⟩ := h
  obtain ⟨z', hz', hfree', hle, hend, hstart⟩ := located_release hz hfree hlive
  have hin' : f.Within z' := ⟨by omega, by omega⟩
  refine ⟨⟨z', hz', hfree', hin'⟩, haligned, ?_⟩
  rw [← hflag]
  exact hw.flag_iff hw' hsame hz hfree ⟨hlo, hhi⟩ hz' hfree' hin' haligned hstart

theorem freed (hw : FreeWords L.linked a (pre ++ b :: post) m)
    (hw' : FreeWords L.linked a (release pre b post) m')
    (hsame : SameInside L.lead a (release pre b post) m m') (hlive : b.free = false)
    (htags : Tags m (endOf a pre, b)) {cleared : Bool}
    (hcleared : cleared = true ↔ freeLeft pre = []) :
    Stale a (release pre b post) m' ⟨endOf a pre + 16, b.size, cleared⟩ := by
  have hmem : (endOf a pre, b) ∈ located a (pre ++ b :: post) := mem_located_middle ..
  have hmerged : (endOf a (beforeMerge pre), merged pre b post) ∈ located a (release pre b post) :=
    mem_located_middle ..
  have hdvd := hw.aligned.located hw.base hmem
  have hend := endOf_merged a pre b post
  have hle := le_endOf (endOf a pre + b.extent) (freeRight post)
  have hpre : endOf a pre = endOf (endOf a (beforeMerge pre)) (freeLeft pre) := by
    rw [← endOf_append, beforeMerge_append]
  have hge := le_endOf (endOf a (beforeMerge pre)) (freeLeft pre)
  have hin : Freed.Within ⟨endOf a pre + 16, b.size, cleared⟩
      (endOf a (beforeMerge pre), merged pre b post) := by
    constructor
    · simp only
      omega
    · have hext : b.extent = b.size + 24 := rfl
      simp only
      omega
  refine ⟨⟨_, hmerged, rfl, hin⟩, ?_, ?_⟩
  · simp only at hdvd ⊢
    omega
  · rw [hcleared]
    have hcases := hw'.cases hmerged rfl hin (by simp only at hdvd ⊢; omega)
    have hflag := htags.allocated
    rw [hlive] at hflag
    rcases freeLeft_cases pre with ⟨c, rest, -, -, hleft, -⟩ | ⟨hleft, -, -⟩
    · -- the word is inside the merged block and still the old flag
      rw [hleft] at hpre ⊢
      rw [endOf_cons, endOf_nil, Block.extent] at hpre
      have hlead : L.lead ≤ 32 := by
        unfold Layout.lead
        split_ifs <;> omega
      rw [hsame.read64 hmerged rfl hin (by simp only; omega)]
      refine iff_of_false ?_ (List.cons_ne_nil _ _)
      simp only [show endOf a pre + 16 - 8 = endOf a pre + 8 by omega] at hflag ⊢
      rw [hflag]
      exact one_ne_zero
    · rw [hleft, endOf_nil] at hpre
      rcases hcases with ⟨-, hzero⟩ | ⟨-, hor, -⟩ | hdeep
      · exact iff_of_true hzero hleft
      · simp only at hor
        omega
      · unfold Layout.lead at hdeep
        simp only at hdeep
        split_ifs at hdeep <;> omega

theorem congr (h : Stale a bs m f) (hm : ∀ z ∈ located a bs, z.2.free = true →
    ∀ k, z.1 ≤ k → k < z.1 + z.2.extent → m' k = m k) : Stale a bs m' f := by
  obtain ⟨⟨z, hz, hfree, hlo, hhi⟩, haligned, hflag⟩ := h
  refine ⟨⟨z, hz, hfree, hlo, hhi⟩, haligned, ?_⟩
  rw [← hflag, read64_congr fun k hk hk' => hm z hz hfree k (by omega) (by omega)]

end Stale

end LowLevel.Allocators
