import LowLevel.Foundations.Memory
import Mathlib.Algebra.Order.BigOperators.Group.List
import Mathlib.Data.List.Pairwise

/-! # Blocks with boundary tags

A heap is a sequence of adjacent blocks, each a header of two words (payload
size and allocated flag), the payload, and a footer that repeats the size. The
layout of a block list is computed from its start address; memory represents it
when every block carries its tags.
-/

namespace LowLevel.Allocators

open Memory

structure Block where
  size : ℕ
  free : Bool
  deriving DecidableEq

def Block.extent (b : Block) : ℕ := b.size + 24

def endOf (a : ℕ) (bs : List Block) : ℕ := a + (bs.map Block.extent).sum

def located : ℕ → List Block → List (ℕ × Block)
  | _, [] => []
  | a, b :: bs => (a, b) :: located (a + b.extent) bs

def freeAddrs (a : ℕ) (bs : List Block) : List ℕ :=
  ((located a bs).filter fun x => x.2.free).map Prod.fst

structure Tags (m : Memory) (x : ℕ × Block) : Prop where
  size : m.read64 x.1 = x.2.size
  allocated : m.read64 (x.1 + 8) = if x.2.free then 0 else 1
  footer : m.read64 (x.1 + 16 + x.2.size) = x.2.size

/-- The blocks tile the addresses from `a` up to `last`. -/
structure Tiled (m : Memory) (a : ℕ) (bs : List Block) (last : ℕ) : Prop where
  tags : ∀ x ∈ located a bs, Tags m x
  last : endOf a bs = last

section Layout

variable {a n : ℕ} {b : Block} {bs pre mid post : List Block} {x y : ℕ × Block}

@[simp] theorem endOf_nil (a : ℕ) : endOf a [] = a := rfl

@[simp] theorem endOf_cons (a : ℕ) (b : Block) (bs : List Block) :
    endOf a (b :: bs) = endOf (a + b.extent) bs := by
  simp only [endOf, List.map_cons, List.sum_cons]
  omega

@[simp] theorem endOf_append (a : ℕ) (bs cs : List Block) :
    endOf a (bs ++ cs) = endOf (endOf a bs) cs := by
  simp only [endOf, List.map_append, List.sum_append]
  omega

theorem le_endOf (a : ℕ) (bs : List Block) : a ≤ endOf a bs := Nat.le_add_right ..

@[simp] theorem located_append (a : ℕ) (bs cs : List Block) :
    located a (bs ++ cs) = located a bs ++ located (endOf a bs) cs := by
  induction bs generalizing a with
  | nil => rfl
  | cons b bs ih => simp [located, ih]

@[simp] theorem freeAddrs_append (a : ℕ) (bs cs : List Block) :
    freeAddrs a (bs ++ cs) = freeAddrs a bs ++ freeAddrs (endOf a bs) cs := by
  simp [freeAddrs]

theorem freeAddrs_cons (a : ℕ) (b : Block) (bs : List Block) :
    freeAddrs a (b :: bs) = (if b.free then [a] else []) ++ freeAddrs (a + b.extent) bs := by
  cases hb : b.free <;> simp [freeAddrs, located, hb]

theorem located_bounds (h : x ∈ located a bs) : a ≤ x.1 ∧ x.1 + x.2.extent ≤ endOf a bs := by
  induction bs generalizing a with
  | nil => cases h
  | cons b bs ih =>
    rw [endOf_cons]
    rcases List.mem_cons.mp h with rfl | h
    · exact ⟨le_rfl, le_endOf _ bs⟩
    · have := ih h
      omega

theorem located_pairwise (a : ℕ) (bs : List Block) :
    (located a bs).Pairwise fun x y => x.1 + x.2.extent ≤ y.1 := by
  induction bs generalizing a with
  | nil => exact List.Pairwise.nil
  | cons b bs ih => exact List.Pairwise.cons (fun y hy => (located_bounds hy).1) (ih _)

theorem located_disjoint (hx : x ∈ located a bs) (hy : y ∈ located a bs) :
    x = y ∨ x.1 + x.2.extent ≤ y.1 ∨ y.1 + y.2.extent ≤ x.1 := by
  have hlater := List.pairwise_iff_getElem.mp (located_pairwise a bs)
  obtain ⟨i, hi, rfl⟩ := List.getElem_of_mem hx
  obtain ⟨j, hj, rfl⟩ := List.getElem_of_mem hy
  rcases Nat.lt_trichotomy i j with hij | rfl | hij
  · exact Or.inr (Or.inl (hlater i j hi hj hij))
  · exact Or.inl rfl
  · exact Or.inr (Or.inr (hlater j i hj hi hij))

theorem located_inj {c : Block} (hb : (n, b) ∈ located a bs) (hc : (n, c) ∈ located a bs) :
    b = c := by
  rcases located_disjoint hb hc with heq | h | h
  · exact congrArg Prod.snd heq
  · simp only [Block.extent] at h
    omega
  · simp only [Block.extent] at h
    omega

theorem mem_located_split (h : x ∈ located a bs) :
    ∃ pre post, bs = pre ++ x.2 :: post ∧ x.1 = endOf a pre := by
  induction bs generalizing a with
  | nil => cases h
  | cons b bs ih =>
    rcases List.mem_cons.mp h with rfl | h
    · exact ⟨[], bs, rfl, rfl⟩
    · obtain ⟨pre, post, rfl, hx⟩ := ih h
      exact ⟨b :: pre, post, rfl, by rw [endOf_cons, hx]⟩

theorem mem_located_middle (a : ℕ) (pre : List Block) (b : Block) (post : List Block) :
    (endOf a pre, b) ∈ located a (pre ++ b :: post) := by
  rw [located_append]
  exact List.mem_append_right _ (List.mem_cons_self ..)

theorem mem_freeAddrs : n ∈ freeAddrs a bs ↔ ∃ b, (n, b) ∈ located a bs ∧ b.free = true := by
  simp only [freeAddrs, List.mem_map, List.mem_filter, Prod.exists]
  constructor
  · rintro ⟨x, b, ⟨hmem, hb⟩, rfl⟩
    exact ⟨b, hmem, hb⟩
  · rintro ⟨b, hmem, hb⟩
    exact ⟨n, b, ⟨hmem, hb⟩, rfl⟩

theorem freeAddrs_pairwise (a : ℕ) (bs : List Block) :
    (freeAddrs a bs).Pairwise fun x y => x + 24 ≤ y := by
  have hpair : ((located a bs).filter fun x => x.2.free).Pairwise fun x y => x.1 + 24 ≤ y.1 := by
    refine (located_pairwise a bs).filter _ |>.imp ?_
    intro x y h
    rw [Block.extent] at h
    omega
  exact List.pairwise_map.mpr hpair

end Layout

section Tiling

variable {m m' : Memory} {a last : ℕ} {b : Block} {bs pre mid mid' post : List Block}
  {x : ℕ × Block}

/-- The tags depend on the header and the footer only. -/
theorem Tags.congr (h : Tags m x) (hhead : ∀ y, x.1 ≤ y → y < x.1 + 16 → m' y = m y)
    (hfoot : ∀ y, x.1 + 16 + x.2.size ≤ y → y < x.1 + x.2.extent → m' y = m y) : Tags m' x := by
  unfold Block.extent at hfoot
  constructor
  case size => exact (read64_congr fun y _ _ => hhead y (by omega) (by omega)).trans h.size
  case allocated =>
    exact (read64_congr fun y _ _ => hhead y (by omega) (by omega)).trans h.allocated
  case footer => exact (read64_congr fun y _ _ => hfoot y (by omega) (by omega)).trans h.footer

theorem Tags.frame (h : Tags m x) (hm : ∀ y, x.1 ≤ y → y < x.1 + x.2.extent → m' y = m y) :
    Tags m' x := by
  unfold Block.extent at hm
  refine h.congr (fun y _ _ => hm y (by omega) (by omega)) fun y _ hy => hm y (by omega) ?_
  rw [Block.extent] at hy
  omega

theorem Tiled.bounds (h : Tiled m a bs last) (hx : x ∈ located a bs) :
    a ≤ x.1 ∧ x.1 + x.2.extent ≤ last :=
  h.last ▸ located_bounds hx

theorem Tiled.splice (h : Tiled m a (pre ++ mid ++ post) last)
    (hm : m.AgreeOutside m' (endOf a pre) (endOf a (pre ++ mid)))
    (htags : ∀ x ∈ located (endOf a pre) mid', Tags m' x)
    (hend : endOf (endOf a pre) mid' = endOf a (pre ++ mid)) :
    Tiled m' a (pre ++ mid' ++ post) last := by
  constructor
  case tags =>
    intro x hx
    rw [located_append, located_append, List.mem_append, List.mem_append] at hx
    rcases hx with (hx | hx) | hx
    · have hb := located_bounds hx
      refine (h.tags x (by simp [hx])).frame fun y _ _ => hm y (by omega)
    · exact htags x hx
    · rw [endOf_append, hend] at hx
      have hb := located_bounds hx
      refine (h.tags x (by rw [located_append]; exact List.mem_append_right _ hx)).frame
        fun y _ _ => hm y (by omega)
  case last => rw [endOf_append, endOf_append, hend, ← endOf_append, h.last]

theorem Tiled.poke (h : Tiled m a bs last) {k : ℕ} (v : UInt8) (hx : x ∈ located a bs)
    (hk : x.1 + 16 ≤ k) (hk' : k < x.1 + 16 + x.2.size) : Tiled (m.poke k v) a bs last := by
  refine ⟨fun w hw => ?_, h.last⟩
  have hout : k < w.1 ∨ w.1 + w.2.extent ≤ k ∨ (w.1 + 16 ≤ k ∧ k < w.1 + 16 + w.2.size) := by
    rcases located_disjoint hx hw with rfl | hd | hd
    · exact Or.inr (Or.inr ⟨hk, hk'⟩)
    · rw [Block.extent] at hd
      omega
    · omega
  rw [Block.extent] at hout
  refine (h.tags w hw).congr (fun y _ _ => poke_of_ne ?_) fun y _ hy => poke_of_ne ?_
  · omega
  · rw [Block.extent] at hy
    omega

theorem Tiled.concat (h : Tiled m a bs last) (hm : m.AgreeOutside m' last (last + b.extent))
    (htags : Tags m' (last, b)) : Tiled m' a (bs ++ [b]) (last + b.extent) := by
  constructor
  case tags =>
    intro x hx
    rw [located_append, h.last, List.mem_append] at hx
    rcases hx with hx | hx
    · have hb := h.bounds hx
      exact (h.tags x hx).frame fun y _ _ => hm y (by omega)
    · simp only [located, List.mem_singleton] at hx
      exact hx ▸ htags
  case last => rw [endOf_append, h.last, endOf_cons, endOf_nil]

end Tiling

end LowLevel.Allocators
