import LowLevel.Allocators.Blocks
import Mathlib.Data.List.Chain

/-! # Operations on block lists

What the boundary-tag allocators do, in terms of the list of blocks: a free
block is carved for a request, and a block that is given back is merged with the
free blocks next to it. Neighbouring blocks are then never both free.
-/

namespace LowLevel.Allocators

def Separated (bs : List Block) : Prop := bs.IsChain fun b c => ¬ (b.free = true ∧ c.free = true)

def extents (bs : List Block) : ℕ := (bs.map Block.extent).sum

/-- The blocks before an address, the block there, and the blocks after it. -/
def zipper (x : ℕ) : ℕ → List Block → Option (List Block × Block × List Block)
  | _, [] => none
  | a, b :: bs =>
    if a = x then some ([], b, bs)
    else (zipper x (a + b.extent) bs).map fun z => (b :: z.1, z.2.1, z.2.2)

/-- Hand out a free block for a request; what is left becomes a block if it is large enough. -/
def carve (r : ℕ) (b : Block) : List Block :=
  if r + 40 ≤ b.size then [⟨r, false⟩, ⟨b.size - r - 24, true⟩] else [⟨b.size, false⟩]

def freeRight : List Block → List Block
  | b :: _ => if b.free then [b] else []
  | [] => []

def freeLeft (bs : List Block) : List Block := freeRight bs.reverse

/-- A block that is given back, merged with its free neighbours. -/
def merged (pre : List Block) (b : Block) (post : List Block) : Block :=
  ⟨b.size + extents (freeRight post) + extents (freeLeft pre), true⟩

def beforeMerge (pre : List Block) : List Block := pre.take (pre.length - (freeLeft pre).length)

def afterMerge (post : List Block) : List Block := post.drop (freeRight post).length

def release (pre : List Block) (b : Block) (post : List Block) : List Block :=
  beforeMerge pre ++ merged pre b post :: afterMerge post

variable {a r x : ℕ} {b c : Block} {bs pre post : List Block}

theorem endOf_eq (a : ℕ) (bs : List Block) : endOf a bs = a + extents bs := rfl

@[simp] theorem extents_nil : extents [] = 0 := rfl

@[simp] theorem extents_cons (b : Block) (bs : List Block) :
    extents (b :: bs) = b.extent + extents bs := rfl

@[simp] theorem extents_append (bs cs : List Block) :
    extents (bs ++ cs) = extents bs + extents cs := by
  simp [extents]

theorem zipper_middle (a : ℕ) (pre : List Block) (b : Block) (post : List Block) :
    zipper (endOf a pre) a (pre ++ b :: post) = some (pre, b, post) := by
  induction pre generalizing a with
  | nil => simp [zipper]
  | cons c pre ih =>
    have hlt : a < endOf a (c :: pre) := by
      have := le_endOf (a + c.extent) pre
      rw [endOf_cons, Block.extent] at *
      omega
    rw [List.cons_append, zipper, if_neg (by omega), endOf_cons, ih, Option.map_some]

theorem extents_carve (r : ℕ) (b : Block) : extents (carve r b) = b.extent := by
  unfold carve
  split_ifs with h
  · simp [Block.extent]
    omega
  · simp [Block.extent]

theorem beforeMerge_append (pre : List Block) : beforeMerge pre ++ freeLeft pre = pre := by
  rcases List.eq_nil_or_concat pre with rfl | ⟨pre, p, rfl⟩
  · rfl
  · cases hp : p.free <;> simp [beforeMerge, freeLeft, freeRight, hp]

theorem freeRight_append (post : List Block) : freeRight post ++ afterMerge post = post := by
  cases post with
  | nil => rfl
  | cons c post => cases hc : c.free <;> simp [afterMerge, freeRight, hc]

theorem extents_release : extents (release pre b post) = extents (pre ++ b :: post) := by
  conv_rhs => rw [← beforeMerge_append pre, ← freeRight_append post]
  simp only [release, merged, extents_append, extents_cons, Block.extent]
  omega

theorem endOf_merged (start : ℕ) (pre : List Block) (b : Block) (post : List Block) :
    endOf start (beforeMerge pre) + (merged pre b post).extent =
      endOf (endOf start pre + b.extent) (freeRight post) := by
  conv_rhs => rw [← beforeMerge_append pre]
  simp only [endOf_eq, extents_append, merged, Block.extent]
  omega

theorem merge_parts (pre : List Block) (b : Block) (post : List Block) : pre ++ b :: post =
    beforeMerge pre ++ (freeLeft pre ++ b :: freeRight post) ++ afterMerge post := by
  conv_lhs => rw [← beforeMerge_append pre, ← freeRight_append post]
  simp only [List.append_assoc, List.cons_append]

theorem endOf_merge_parts (start : ℕ) (pre : List Block) (b : Block) (post : List Block) :
    endOf start (beforeMerge pre ++ (freeLeft pre ++ b :: freeRight post)) =
      endOf start (beforeMerge pre) + (merged pre b post).extent := by
  simp only [endOf_eq, extents_append, extents_cons, merged, Block.extent]
  omega

theorem endOf_release (start : ℕ) (pre : List Block) (b : Block) (post : List Block) :
    endOf start (release pre b post) = endOf start (pre ++ b :: post) := by
  rw [endOf_eq, extents_release, endOf_eq]

theorem Tiled.release {m m' : Memory} {last : ℕ} (h : Tiled m a (pre ++ b :: post) last)
    (hm : m.AgreeOutside m' (endOf a (beforeMerge pre))
      (endOf a (beforeMerge pre) + (merged pre b post).extent))
    (htags : Tags m' (endOf a (beforeMerge pre), merged pre b post)) :
    Tiled m' a (release pre b post) last := by
  rw [merge_parts] at h
  rw [Allocators.release, List.append_cons]
  refine h.splice ?_ ?_ ?_
  · rwa [endOf_merge_parts]
  · intro z hz
    obtain rfl := List.mem_singleton.mp hz
    exact htags
  · rw [endOf_merge_parts, endOf_cons, endOf_nil]

theorem Tiled.carve {m m' : Memory} {last : ℕ} (h : Tiled m a (pre ++ b :: post) last)
    (hm : m.AgreeOutside m' (endOf a pre) (endOf a pre + b.extent))
    (htags : ∀ z ∈ located (endOf a pre) (carve r b), Tags m' z) :
    Tiled m' a (pre ++ carve r b ++ post) last := by
  rw [List.append_cons] at h
  refine h.splice ?_ htags ?_
  · rwa [endOf_append, endOf_cons, endOf_nil]
  · rw [endOf_eq, extents_carve, endOf_append, endOf_cons, endOf_nil]

theorem freeRight_free (h : c ∈ freeRight post) : c.free = true := by
  cases post with
  | nil => cases h
  | cons d post =>
    cases hd : d.free with
    | false => simp [freeRight, hd] at h
    | true =>
      obtain rfl : c = d := by simpa [freeRight, hd] using h
      exact hd

theorem beforeMerge_reverse (pre : List Block) :
    beforeMerge pre = (afterMerge pre.reverse).reverse := by
  rw [afterMerge, List.drop_reverse, List.reverse_reverse]
  rfl

theorem freeRight_cases (post : List Block) :
    (∃ c rest, post = c :: rest ∧ c.free = true ∧ freeRight post = [c] ∧ afterMerge post = rest) ∨
      (freeRight post = [] ∧ afterMerge post = post ∧ ∀ c ∈ post.head?, c.free = false) := by
  cases post with
  | nil => exact Or.inr ⟨rfl, rfl, fun c hc => by cases hc⟩
  | cons c rest =>
    cases hc : c.free with
    | true =>
      exact Or.inl ⟨c, rest, rfl, hc, by simp [freeRight, hc], by simp [afterMerge, freeRight, hc]⟩
    | false =>
      refine Or.inr ⟨by simp [freeRight, hc], by simp [afterMerge, freeRight, hc], ?_⟩
      intro d hd
      obtain rfl := Option.some.inj hd
      exact hc

theorem freeLeft_cases (pre : List Block) :
    (∃ c rest, pre = rest ++ [c] ∧ c.free = true ∧ freeLeft pre = [c] ∧ beforeMerge pre = rest) ∨
      (freeLeft pre = [] ∧ beforeMerge pre = pre ∧ ∀ c ∈ pre.getLast?, c.free = false) := by
  rcases freeRight_cases pre.reverse with ⟨c, rest, hpre, hc, hright, hafter⟩ | ⟨hright, hafter, hc⟩
  · refine Or.inl ⟨c, rest.reverse, ?_, hc, hright, ?_⟩
    · rw [← List.reverse_reverse pre, hpre, List.reverse_cons]
    · rw [beforeMerge_reverse, hafter]
  · refine Or.inr ⟨hright, ?_, ?_⟩
    · rw [beforeMerge_reverse, hafter, List.reverse_reverse]
    · rwa [List.head?_reverse] at hc

theorem separated_append : Separated (pre ++ post) ↔ Separated pre ∧ Separated post ∧
    ∀ b ∈ pre.getLast?, ∀ c ∈ post.head?, ¬ (b.free = true ∧ c.free = true) :=
  List.isChain_append

theorem separated_cons : Separated (b :: bs) ↔
    (∀ c ∈ bs.head?, ¬ (b.free = true ∧ c.free = true)) ∧ Separated bs :=
  List.isChain_cons

/-- What the words in front of a block say of the block before it. -/
structure Precedes (m : Memory) (a : ℕ) (pre rest : List Block) (c : Block) : Prop where
  split : pre = rest ++ [c]
  inside : a < endOf a pre
  footer : m.read64 (endOf a pre + 16 - 24) = c.size
  header : endOf a pre + 16 - 40 - c.size = endOf a rest
  allocated : m.read64 (endOf a rest + 8) = if c.free then 0 else 1
  left : freeLeft pre = if c.free then [c] else []
  before : beforeMerge pre = if c.free then rest else pre

theorem Tiled.precedes {m : Memory} {last : ℕ} (h : Tiled m a (pre ++ b :: post) last)
    (hne : pre ≠ []) : ∃ rest c, Precedes m a pre rest c := by
  obtain ⟨rest, c, hpre⟩ := (List.eq_nil_or_concat pre).resolve_left hne
  rw [List.concat_eq_append] at hpre
  have hloc : (endOf a rest, c) ∈ located a (pre ++ b :: post) := by
    rw [hpre, List.append_assoc]
    exact mem_located_middle ..
  have htags := h.tags _ hloc
  have hstart := le_endOf a rest
  have hend : endOf a pre = endOf a rest + (c.size + 24) := by
    rw [hpre, endOf_append, endOf_cons, endOf_nil, Block.extent]
  have hleft : freeLeft pre = (if c.free then [c] else []) ∧
      beforeMerge pre = if c.free then rest else pre := by
    rcases freeLeft_cases pre with ⟨d, rest', hpre', hd, hleft, hbefore⟩ | ⟨hleft, hbefore, hlast⟩
    · obtain ⟨rfl, hcd⟩ := List.append_inj' (hpre.symm.trans hpre') rfl
      obtain rfl : c = d := List.singleton_inj.mp hcd
      rw [hd]
      exact ⟨hleft, hbefore⟩
    · rw [hlast c (by rw [hpre]; simp)]
      exact ⟨hleft, hbefore⟩
  refine ⟨rest, c, hpre, by omega, ?_, by omega, htags.allocated, hleft.1, hleft.2⟩
  exact (congrArg m.read64 (by simp only; omega)).trans htags.footer

theorem separated_reverse : Separated bs.reverse ↔ Separated bs := by
  unfold Separated
  rw [List.isChain_reverse]
  simp only [and_comm]

theorem afterMerge_head (h : Separated post) : ∀ c ∈ (afterMerge post).head?, c.free = false := by
  rcases freeRight_cases post with ⟨d, rest, rfl, hd, -, hafter⟩ | ⟨-, hafter, hhead⟩
  · intro c hc
    rw [hafter] at hc
    simpa [hd] using (separated_cons.mp h).1 c hc
  · rwa [hafter]

theorem beforeMerge_getLast (h : Separated pre) :
    ∀ c ∈ (beforeMerge pre).getLast?, c.free = false := by
  rw [beforeMerge_reverse, List.getLast?_reverse]
  exact afterMerge_head (separated_reverse.mpr h)

theorem Separated.afterMerge (h : Separated post) : Separated (afterMerge post) :=
  List.IsChain.drop h _

theorem Separated.beforeMerge (h : Separated pre) : Separated (beforeMerge pre) :=
  List.IsChain.take h _

theorem Separated.release (h : Separated (pre ++ b :: post)) :
    Separated (release pre b post) := by
  obtain ⟨hpre, hpost, -⟩ := separated_append.mp h
  have hpost := (separated_cons.mp hpost).2
  refine separated_append.mpr ⟨hpre.beforeMerge, separated_cons.mpr ⟨?_, hpost.afterMerge⟩, ?_⟩
  · intro e he
    simp [afterMerge_head hpost e he]
  · intro d hd e _
    simp [beforeMerge_getLast hpre d hd]

theorem Separated.carve (h : Separated (pre ++ b :: post)) (hb : b.free = true) (r : ℕ) :
    Separated (pre ++ carve r b ++ post) := by
  obtain ⟨hpre, hpost, hlast⟩ := separated_append.mp h
  obtain ⟨hhead, hpost⟩ := separated_cons.mp hpost
  have hnext : ∀ c ∈ post.head?, c.free = false := by
    intro c hc
    simpa [hb] using hhead c hc
  rw [List.append_assoc]
  refine separated_append.mpr ⟨hpre, ?_, ?_⟩
  · unfold Allocators.carve
    split_ifs with hr
    · refine separated_cons.mpr ⟨by simp, separated_cons.mpr ⟨?_, hpost⟩⟩
      intro e he
      simp [hnext e he]
    · exact separated_cons.mpr ⟨by simp, hpost⟩
  · intro d hd e he
    unfold Allocators.carve at he
    split_ifs at he <;>
    · obtain rfl := Option.some.inj he
      simp

theorem Separated.concat (h : Separated bs) (r : ℕ) : Separated (bs ++ [⟨r, false⟩]) := by
  refine separated_append.mpr ⟨h, List.isChain_singleton _, ?_⟩
  intro d _ e he
  obtain rfl := Option.some.inj he
  simp

end LowLevel.Allocators
