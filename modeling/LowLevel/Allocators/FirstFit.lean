import LowLevel.Allocators.Client
import LowLevel.Allocators.Live

/-! # First fit on block lists

The abstract allocator: its state is the list of blocks in address order, and
what is left of the region after them is unused. A request takes the first free
block that is large enough, else new space; a block that is given back is merged
with the free blocks next to it.
-/

namespace LowLevel.Allocators.FirstFit

def roundUp16 (n : ℕ) : ℕ := (n + 15) / 16 * 16

def unfit (r : ℕ) (b : Block) : Bool := !(b.free && r ≤ b.size)

variable (base limit : ℕ)

def malloc (n : ℕ) (bs : List Block) : ℕ × List Block :=
  let r := roundUp16 n
  let pre := bs.takeWhile (unfit r)
  match bs.dropWhile (unfit r) with
  | b :: post => (endOf base pre + 16, pre ++ carve r b ++ post)
  | [] =>
    if endOf base bs + (24 + r) ≤ base + limit then (endOf base bs + 16, bs ++ [⟨r, false⟩])
    else (0, bs)

def free (ptr : ℕ) (bs : List Block) : ℕ × List Block :=
  match zipper (ptr - 16) base bs with
  | some (pre, b, post) => if b.free then (1, bs) else (0, release pre b post)
  | none => (1, bs)

def blockSize (ptr : ℕ) (bs : List Block) : ℕ :=
  match zipper (ptr - 16) base bs with
  | some (_, b, _) => b.size
  | none => 0

def interface : Interface (List Block) where
  malloc n bs := some (malloc base limit n bs)
  free ptr bs := some (free base ptr bs)
  reset _ := (0, [])
  poke _ _ bs := bs
  blockSize ptr bs := blockSize base ptr bs

theorem le_roundUp16 (n : ℕ) : n ≤ roundUp16 n := by
  unfold roundUp16
  omega

theorem roundUp_eq {n : ℕ} (hn : n + 15 < 2 ^ 64) : roundUp n = roundUp16 n := by
  have := roundUp_spec hn
  unfold roundUp16
  omega

omit base limit in
theorem unfit_cases (r : ℕ) (bs : List Block) :
    (∃ pre b post, bs = pre ++ b :: post ∧ (∀ c ∈ pre, unfit r c = true) ∧ b.free = true ∧
      r ≤ b.size ∧ bs.takeWhile (unfit r) = pre ∧ bs.dropWhile (unfit r) = b :: post) ∨
    (∀ c ∈ bs, unfit r c = true) ∧ bs.dropWhile (unfit r) = [] := by
  have hsplit := List.takeWhile_append_dropWhile (p := unfit r) (l := bs)
  have hpre : ∀ c ∈ bs.takeWhile (unfit r), unfit r c = true :=
    List.all_eq_true.mp List.all_takeWhile
  cases hdrop : bs.dropWhile (unfit r) with
  | nil =>
    rw [hdrop, List.append_nil] at hsplit
    exact Or.inr ⟨hsplit ▸ hpre, rfl⟩
  | cons b post =>
    have hb : unfit r b = false := by
      have := List.head?_dropWhile_not (unfit r) bs
      simpa [hdrop] using this
    have hfit : b.free = true ∧ r ≤ b.size := by simpa [unfit] using hb
    rw [hdrop] at hsplit
    exact Or.inl ⟨_, b, post, hsplit.symm, hpre, hfit.1, hfit.2, rfl, rfl⟩

theorem malloc_cases (n : ℕ) (bs : List Block) :
    (∃ pre b post, bs = pre ++ b :: post ∧ (∀ c ∈ pre, unfit (roundUp16 n) c = true) ∧
      b.free = true ∧ roundUp16 n ≤ b.size ∧
      malloc base limit n bs = (endOf base pre + 16, pre ++ carve (roundUp16 n) b ++ post)) ∨
    (∀ c ∈ bs, unfit (roundUp16 n) c = true) ∧ malloc base limit n bs =
      if endOf base bs + (24 + roundUp16 n) ≤ base + limit then
        (endOf base bs + 16, bs ++ [⟨roundUp16 n, false⟩])
      else (0, bs) := by
  rcases unfit_cases (roundUp16 n) bs with
    ⟨pre, b, post, hbs, hpre, hfree, hr, htake, hdrop⟩ | ⟨hall, hdrop⟩
  · refine Or.inl ⟨pre, b, post, hbs, hpre, hfree, hr, ?_⟩
    rw [malloc, hdrop, htake]
  · refine Or.inr ⟨hall, ?_⟩
    rw [malloc, hdrop]

theorem malloc_served (n : ℕ) (bs : List Block) :
    Served base (roundUp16 n) bs (malloc base limit n bs).1 (malloc base limit n bs).2 := by
  rcases malloc_cases base limit n bs with
    ⟨pre, b, post, rfl, -, hfree, hr, heq⟩ | ⟨-, heq⟩
  · rw [heq]
    exact .carve pre b post hfree hr
  · rw [heq]
    split_ifs
    · exact .concat bs
    · exact .full bs

end LowLevel.Allocators.FirstFit
