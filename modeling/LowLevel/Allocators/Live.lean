import LowLevel.Allocators.BlockList
import Mathlib.Data.List.Nodup

/-! # Blocks in use

The live blocks of a heap, and how serving a request and giving a block back
change them. A client owns the heap when its live pointers are the payloads of
the live blocks, each large enough for what was requested.
-/

namespace LowLevel.Allocators

def liveBlocks (a : ℕ) (bs : List Block) : List (ℕ × Block) :=
  (located a bs).filter fun x => !x.2.free

def handed (r : ℕ) (b : Block) : Block := ⟨if r + 40 ≤ b.size then r else b.size, false⟩

/-- A request of `r` bytes is served from the blocks: a free block is carved, a new one is
appended, or there is no room. -/
inductive Served (a r : ℕ) : List Block → ℕ → List Block → Prop where
  | carve (pre : List Block) (b : Block) (post : List Block) (hfree : b.free = true)
      (hr : r ≤ b.size) :
      Served a r (pre ++ b :: post) (endOf a pre + 16) (pre ++ carve r b ++ post)
  | concat (bs : List Block) : Served a r bs (endOf a bs + 16) (bs ++ [⟨r, false⟩])
  | full (bs : List Block) : Served a r bs 0 bs

/-- The live pointers of a client, with the sizes it requested, are the live blocks. -/
structure Owned (a : ℕ) (bs : List Block) (live : List (ℕ × ℕ)) : Prop where
  perm : (live.map Prod.fst).Perm ((liveBlocks a bs).map fun z => z.1 + 16)
  fits : ∀ y ∈ live, ∀ z ∈ liveBlocks a bs, y.1 = z.1 + 16 → y.2 ≤ z.2.size

def SameBlock (z : ℕ × Block) (m m' : Memory) : Prop :=
  ∀ k, z.1 ≤ k → k < z.1 + z.2.extent → m' k = m k

/-- The bytes inside the free blocks are as before, from `lead` bytes after the header's address
up to the footer. -/
def SameInside (lead a : ℕ) (bs : List Block) (m m' : Memory) : Prop :=
  ∀ z ∈ located a bs, z.2.free = true → ∀ k, z.1 + lead ≤ k → k < z.1 + 16 + z.2.size → m' k = m k

section Blocks

variable {a r : ℕ} {b : Block} {bs pre post : List Block} {z : ℕ × Block}

theorem mem_liveBlocks : z ∈ liveBlocks a bs ↔ z ∈ located a bs ∧ z.2.free = false := by
  simp [liveBlocks]

@[simp] theorem liveBlocks_append (a : ℕ) (bs cs : List Block) :
    liveBlocks a (bs ++ cs) = liveBlocks a bs ++ liveBlocks (endOf a bs) cs := by
  simp [liveBlocks]

theorem liveBlocks_cons (a : ℕ) (b : Block) (bs : List Block) :
    liveBlocks a (b :: bs) = (if b.free then [] else [(a, b)]) ++ liveBlocks (a + b.extent) bs := by
  cases hb : b.free <;> simp [liveBlocks, located, hb]

theorem liveBlocks_freeRight (a : ℕ) (bs : List Block) : liveBlocks a (freeRight bs) = [] := by
  apply List.eq_nil_iff_forall_not_mem.mpr
  intro z hz
  obtain ⟨hmem, hlive⟩ := mem_liveBlocks.mp hz
  obtain ⟨cs, ds, hbs, -⟩ := mem_located_split hmem
  have : z.2.free = true := freeRight_free (by rw [hbs]; simp)
  simp [hlive] at this

theorem endOf_carve (a r : ℕ) (b : Block) : endOf a (carve r b) = a + b.extent := by
  rw [endOf_eq, extents_carve]

theorem liveBlocks_carve (a r : ℕ) (b : Block) : liveBlocks a (carve r b) = [(a, handed r b)] := by
  unfold carve handed
  split_ifs <;> rfl

theorem le_handed (hr : r ≤ b.size) : r ≤ (handed r b).size := by
  unfold handed
  split_ifs
  · exact le_rfl
  · exact hr

theorem liveBlocks_beforeMerge (a : ℕ) (pre : List Block) :
    liveBlocks a (beforeMerge pre) = liveBlocks a pre := by
  conv_rhs => rw [← beforeMerge_append pre]
  rw [liveBlocks_append, freeLeft, liveBlocks_freeRight, List.append_nil]

theorem liveBlocks_release (a : ℕ) (pre : List Block) (b : Block) (post : List Block) :
    liveBlocks a (release pre b post) =
      liveBlocks a pre ++ liveBlocks (endOf a pre + b.extent) post := by
  conv_rhs => rw [← freeRight_append post]
  rw [release, liveBlocks_append, liveBlocks_cons, liveBlocks_beforeMerge, endOf_merged,
    liveBlocks_append _ (freeRight post), liveBlocks_freeRight]
  rfl

theorem liveBlocks_located (h : z ∈ liveBlocks a bs) : z ∈ located a bs := (mem_liveBlocks.mp h).1

theorem liveBlocks_nodup (a : ℕ) (bs : List Block) :
    ((liveBlocks a bs).map fun z => z.1 + 16).Nodup := by
  have hpair : (liveBlocks a bs).Pairwise fun x y => x.1 + 16 ≠ y.1 + 16 := by
    refine ((located_pairwise a bs).filter _).imp ?_
    intro x y h
    rw [Block.extent] at h
    omega
  exact List.pairwise_map.mpr hpair

end Blocks

theorem sameBlock_of_free {a : ℕ} {bs : List Block} {m m' : Memory} {w z : ℕ × Block}
    (hw : w ∈ located a bs) (hfree : w.2.free = true)
    (hm : m.AgreeOutside m' w.1 (w.1 + w.2.extent)) (hz : z ∈ liveBlocks a bs) :
    SameBlock z m m' := by
  intro k hk hk'
  obtain ⟨hz, hlive⟩ := mem_liveBlocks.mp hz
  rcases located_disjoint hz hw with rfl | hd | hd
  · rw [hfree] at hlive
    cases hlive
  · exact hm k (by omega)
  · exact hm k (by omega)

namespace SameInside

variable {lead a : ℕ} {bs pre mid post : List Block} {m m' m'' : Memory}

theorem refl (lead a : ℕ) (bs : List Block) (m : Memory) : SameInside lead a bs m m :=
  fun _ _ _ _ _ _ => rfl

theorem trans (h : SameInside lead a bs m m') (h' : SameInside lead a bs m' m'') :
    SameInside lead a bs m m'' :=
  fun z hz hfree k hk hk' => (h' z hz hfree k hk hk').trans (h z hz hfree k hk hk')

theorem splice (hm : m.AgreeOutside m' (endOf a pre) (endOf a (pre ++ mid)))
    (hmid : SameInside lead (endOf a pre) mid m m') :
    SameInside lead a (pre ++ mid ++ post) m m' := by
  intro z hz hfree k hk hk'
  rw [located_append, located_append, List.mem_append, List.mem_append] at hz
  rcases hz with (hz | hz) | hz
  · have hb := located_bounds hz
    rw [Block.extent] at hb
    exact hm k (by omega)
  · exact hmid z hz hfree k hk hk'
  · have hb := located_bounds hz
    exact hm k (by omega)

end SameInside

/-- A block after a request has the size of an old one, that of the request, or what it left of a
free block. -/
theorem Served.size_cases {p a r : ℕ} {bs bs' : List Block} {c : Block} (h : Served a r bs p bs')
    (hc : c ∈ bs') :
    c.size = r ∨ ∃ b ∈ bs, c.size = b.size ∨ (r + 40 ≤ b.size ∧ c.size = b.size - r - 24) := by
  cases h with
  | carve pre b post hfree hle =>
    rw [List.mem_append, List.mem_append] at hc
    rcases hc with (hc | hc) | hc
    · exact Or.inr ⟨c, by simp [hc], Or.inl rfl⟩
    · unfold Allocators.carve at hc
      split_ifs at hc with hsplit
      · rcases List.mem_cons.mp hc with rfl | hc
        · exact Or.inl rfl
        · obtain rfl := List.mem_singleton.mp hc
          exact Or.inr ⟨b, by simp, Or.inr ⟨hsplit, rfl⟩⟩
      · obtain rfl := List.mem_singleton.mp hc
        exact Or.inr ⟨b, by simp, Or.inl rfl⟩
    · exact Or.inr ⟨c, by simp [hc], Or.inl rfl⟩
  | concat =>
    rcases List.mem_append.mp hc with hc | hc
    · exact Or.inr ⟨c, hc, Or.inl rfl⟩
    · obtain rfl := List.mem_singleton.mp hc
      exact Or.inl rfl
  | full => exact Or.inr ⟨c, hc, Or.inl rfl⟩

theorem Served.subset {p : ℕ} {bs bs' : List Block} {a r : ℕ} (h : Served a r bs p bs') :
    liveBlocks a bs ⊆ liveBlocks a bs' := by
  cases h with
  | carve pre b post hfree hr =>
    rw [liveBlocks_append, liveBlocks_cons, if_pos hfree, List.nil_append, liveBlocks_append,
      liveBlocks_append, liveBlocks_carve, endOf_append, endOf_carve]
    intro z hz
    rcases List.mem_append.mp hz with hz | hz
    · exact List.mem_append_left _ (List.mem_append_left _ hz)
    · exact List.mem_append_right _ hz
  | concat =>
    rw [liveBlocks_append]
    exact List.subset_append_left ..
  | full => exact List.Subset.refl _

theorem Served.eq_of_null {p : ℕ} {bs bs' : List Block} {a r : ℕ} (h : Served a r bs p bs')
    (hp : p = 0) : bs' = bs := by
  cases h with
  | carve => omega
  | concat => omega
  | full => rfl

theorem mem_liveBlocks_release {a : ℕ} {b : Block} {pre post : List Block} {z : ℕ × Block}
    (hz : z ∈ liveBlocks a (pre ++ b :: post)) (hne : z.1 ≠ endOf a pre) :
    z ∈ liveBlocks a (release pre b post) := by
  rw [liveBlocks_release]
  rw [liveBlocks_append, liveBlocks_cons, List.mem_append, List.mem_append] at hz
  rcases hz with hz | hz | hz
  · exact List.mem_append_left _ hz
  · split_ifs at hz
    · cases hz
    · obtain rfl := List.mem_singleton.mp hz
      exact absurd rfl hne
  · exact List.mem_append_right _ hz

namespace Owned

variable {a r x p k : ℕ} {b : Block} {bs bs' pre post : List Block} {live : List (ℕ × ℕ)}

theorem init (a : ℕ) : Owned a [] [] := ⟨.refl _, fun _ h => by cases h⟩

theorem nodup (h : Owned a bs live) : (live.map Prod.fst).Nodup :=
  h.perm.nodup_iff.mpr (liveBlocks_nodup a bs)

theorem block (h : Owned a bs live) {y : ℕ × ℕ} (hy : y ∈ live) :
    ∃ z ∈ liveBlocks a bs, y.1 = z.1 + 16 ∧ y.2 ≤ z.2.size := by
  have hmem : y.1 ∈ (liveBlocks a bs).map fun z => z.1 + 16 :=
    h.perm.subset (List.mem_map_of_mem hy)
  obtain ⟨z, hz, heq⟩ := List.mem_map.mp hmem
  exact ⟨z, hz, heq.symm, h.fits y hy z hz heq.symm⟩

theorem insert {L₁ L₂ : List (ℕ × Block)} {z : ℕ × Block} (h : Owned a bs live)
    (hold : liveBlocks a bs = L₁ ++ L₂) (hnew : liveBlocks a bs' = L₁ ++ z :: L₂)
    (hsize : k ≤ z.2.size) : Owned a bs' ((z.1 + 16, k) :: live) := by
  have hnd := liveBlocks_nodup a bs'
  rw [hnew, List.map_append, List.map_cons, List.nodup_middle, List.nodup_cons,
    ← List.map_append, ← hold] at hnd
  constructor
  case perm =>
    rw [hnew, List.map_append, List.map_cons, List.map_cons]
    refine (List.Perm.cons _ ?_).trans List.perm_middle.symm
    rw [← List.map_append, ← hold]
    exact h.perm
  case fits =>
    intro y hy w hw heq
    rw [hnew, List.perm_middle.mem_iff, ← hold, List.mem_cons] at hw
    rcases List.mem_cons.mp hy with rfl | hy' <;> rcases hw with rfl | hw
    · exact hsize
    · exact absurd (List.mem_map.mpr ⟨w, hw, by omega⟩) hnd.1
    · refine absurd ?_ hnd.1
      rw [← heq]
      exact h.perm.subset (List.mem_map_of_mem hy')
    · exact h.fits y hy' w hw heq

theorem malloc (h : Owned a bs live) (hserved : Served a r bs p bs') (hk : k ≤ r) :
    Owned a bs' (if p = 0 then live else (p, k) :: live) := by
  cases hserved with
  | carve pre b post hfree hr =>
    rw [if_neg (by omega)]
    have hold : liveBlocks a (pre ++ b :: post) =
        liveBlocks a pre ++ liveBlocks (endOf a pre + b.extent) post := by
      rw [liveBlocks_append, liveBlocks_cons, if_pos hfree, List.nil_append]
    refine h.insert (z := (endOf a pre, handed r b)) hold ?_ (hk.trans (le_handed hr))
    rw [liveBlocks_append, liveBlocks_append, liveBlocks_carve, endOf_append, endOf_carve,
      List.append_assoc, List.singleton_append]
  | concat =>
    rw [if_neg (by omega)]
    refine h.insert (z := (endOf a bs, ⟨r, false⟩)) (List.append_nil _).symm ?_ hk
    rw [liveBlocks_append]
    rfl
  | full =>
    rw [if_pos rfl]
    exact h

theorem free (h : Owned a (pre ++ b :: post) live) (hlive : b.free = false)
    (hp : p = endOf a pre + 16) :
    Owned a (release pre b post) (live.filter fun y => y.1 ≠ p) := by
  have hold : liveBlocks a (pre ++ b :: post) =
      liveBlocks a pre ++ (endOf a pre, b) :: liveBlocks (endOf a pre + b.extent) post := by
    rw [liveBlocks_append, liveBlocks_cons, hlive]
    rfl
  have hnew := liveBlocks_release a pre b post
  have hnd := liveBlocks_nodup a (pre ++ b :: post)
  rw [hold, List.map_append, List.map_cons, List.nodup_middle, List.nodup_cons,
    ← List.map_append, ← hnew, ← hp] at hnd
  constructor
  case perm =>
    have hfilter : (live.filter fun y => y.1 ≠ p).map Prod.fst =
        (live.map Prod.fst).filter (· ≠ p) := by
      rw [List.filter_map]
      rfl
    rw [hfilter]
    refine (h.perm.filter _).trans ?_
    rw [hold, List.map_append, List.map_cons, ← hp]
    refine (List.perm_middle.filter _).trans ?_
    rw [List.filter_cons_of_neg (by simp), ← List.map_append, ← hnew, List.filter_eq_self.mpr]
    intro q hq
    rw [decide_eq_true_iff]
    rintro rfl
    exact hnd.1 hq
  case fits =>
    intro y hy z hz heq
    refine h.fits y (List.mem_filter.mp hy).1 z ?_ heq
    rw [hnew] at hz
    rw [hold, List.perm_middle.mem_iff]
    exact List.mem_cons_of_mem _ hz

end Owned

end LowLevel.Allocators
