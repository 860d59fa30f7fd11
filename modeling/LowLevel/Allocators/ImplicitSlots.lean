import LowLevel.Allocators.Implicit
import LowLevel.Allocators.Slots
import Mathlib.Algebra.Order.Ring.Nat

/-! # The implicit list allocates without splitting

The headers of an instance describe its blocks, and the walk over them finds the
block that first fit finds in the list.
-/

namespace LowLevel.Allocators

open Memory Slots FirstFit

namespace Implicit

variable {base size n r : ℕ} {a : Allocator} {m : Memory} {b : Block} {bs pre post : List Block}

def HeaderAt (m : Memory) (base off : ℕ) (b : Block) : Prop :=
  m.read64 (base + off) = b.size ∧ m.read64 (base + off + 8) = if b.free then 0 else 1

structure Laid (base size : ℕ) (h : Allocator × Memory) (bs : List Block) : Prop where
  eq : h.1 = ⟨base, base + span bs, size⟩
  mapped : Mapped base size
  room : span bs ≤ size
  headers : Each (fun off _ => HeaderAt h.2 base off) 0 0 bs

theorem search_pass {off i last : ℕ} (fuel : ℕ)
    (h : Each (fun off _ => HeaderAt m base off) off i pre) (hlast : base + off + span pre ≤ last)
    (hpre : ∀ c ∈ pre, unfit r c = true) :
    search m last r (fuel + pre.length) (base + off) =
      search m last r fuel (base + off + span pre) := by
  induction pre generalizing off i with
  | nil => rfl
  | cons b pre ih =>
    obtain ⟨⟨hsize, hflag⟩, hrest⟩ := h
    rw [span_cons] at hlast
    have hfit : ¬ (m.read64 (base + off + 8) = 0 ∧ r ≤ m.read64 (base + off)) := by
      rw [hflag, hsize]
      rintro ⟨hfree, hr⟩
      have hb := hpre b (List.mem_cons_self ..)
      cases hb' : b.free with
      | true => simp [unfit, hb', hr] at hb
      | false => simp [hb'] at hfree
    have hnext := ih hrest (by omega) fun c hc => hpre c (List.mem_cons_of_mem _ hc)
    rw [List.length_cons, ← Nat.add_assoc, search, if_pos (by omega)]
    simp only [parseHeader, Nat.add_sub_cancel]
    rw [show base + off + 16 - 8 = base + off + 8 by omega, if_neg hfit, hsize,
      show base + off + 16 + b.size = base + (off + (b.size + 16)) by omega, hnext, span_cons]
    congr 1
    omega

theorem search_found (h : Each (fun off _ => HeaderAt m base off) 0 0 (pre ++ b :: post))
    (hlen : pre.length < 2 ^ 64) (hpre : ∀ c ∈ pre, unfit r c = true) (hfree : b.free = true)
    (hr : r ≤ b.size) :
    search m (base + span (pre ++ b :: post)) r (2 ^ 64) base = some (true, base + span pre) := by
  obtain ⟨hsize, hflag⟩ := h.middle
  rw [Nat.zero_add] at hsize hflag
  obtain ⟨fuel, hfuel⟩ : ∃ fuel, 2 ^ 64 = fuel + 1 + pre.length :=
    ⟨2 ^ 64 - 1 - pre.length, by omega⟩
  have hle : base + 0 + span pre < base + span (pre ++ b :: post) := by
    rw [span_append, span_cons]
    omega
  have hpass := search_pass (fuel + 1) (each_append.mp h).1 hle.le hpre
  simp only [Nat.add_zero] at hpass hle
  rw [hfuel, hpass, search, if_pos hle]
  simp only [parseHeader, Nat.add_sub_cancel]
  rw [show base + span pre + 16 - 8 = base + span pre + 8 by omega, if_pos]
  refine ⟨?_, hsize ▸ hr⟩
  rw [hflag, hfree]
  rfl

theorem search_none (h : Each (fun off _ => HeaderAt m base off) 0 0 bs)
    (hlen : bs.length < 2 ^ 64) (hbs : ∀ c ∈ bs, unfit r c = true) :
    search m (base + span bs) r (2 ^ 64) base = some (false, base + span bs) := by
  obtain ⟨fuel, hfuel⟩ : ∃ fuel, 2 ^ 64 = fuel + 1 + bs.length :=
    ⟨2 ^ 64 - 1 - bs.length, by omega⟩
  have hle : base + 0 + span bs ≤ base + span bs := le_rfl
  have hpass := search_pass (fuel + 1) h hle hbs
  simp only [Nat.add_zero] at hpass
  rw [hfuel, hpass, search, if_neg (lt_irrefl _)]

theorem HeaderAt.write {off x v : ℕ} (h : HeaderAt m base off b)
    (hx : x + 8 ≤ base + off ∨ base + off + 16 ≤ x) : HeaderAt (m.write64 x v) base off b := by
  refine ⟨?_, ?_⟩
  · rw [read64_write64_of_disjoint (by omega), h.1]
  · rw [read64_write64_of_disjoint (by omega), h.2]

theorem headers_flag (free : Bool) (h : Each (fun off _ => HeaderAt m base off) 0 0
    (pre ++ b :: post)) :
    Each (fun off _ => HeaderAt (m.write64 (base + span pre + 8) (if free then 0 else 1)) base off)
      0 0 (pre ++ ⟨b.size, free⟩ :: post) := by
  refine h.replace rfl (fun x j d hx _ _ _ hd => hd.write (by omega)) ⟨?_, ?_⟩
  · rw [read64_write64_of_disjoint (by omega)]
    simpa using h.middle.1
  · exact read64_write64_self (by split_ifs <;> omega)

theorem Laid.no_overflow {h : Allocator × Memory} (hlaid : Laid base size h bs) (hn : n ≤ size) :
    h.1.lastPtr + 16 + roundUp16 n < 2 ^ 64 := by
  obtain ⟨heq, hmapped, hroom, -⟩ := hlaid
  have hle := hmapped.le
  have hpage := Nat.le_of_dvd hmapped.base_pos hmapped.page
  rw [heq]
  unfold roundUp16
  simp only
  omega

/-- A request that does not overflow gets the block that allocation without splitting gives, or
changes nothing. -/
theorem malloc_runs (h : Laid base size (a, m) bs) (hn : a.lastPtr + 16 + roundUp16 n < 2 ^ 64) :
    ∃ p h', interface.malloc n (a, m) = some (p, h') ∧
      Laid base size h' (Slots.malloc size n bs).2 ∧
      (p = 0 ∧ h' = (a, m) ∧ (Slots.malloc size n bs).1 = 0 ∨
        p = base + (Slots.malloc size n bs).1 ∧ (Slots.malloc size n bs).1 ≠ 0) := by
  obtain ⟨rfl, hmapped, hroom, hheaders⟩ := h
  simp only at hheaders hn
  have hle := hmapped.le
  have hlen := headers_le_span bs
  have hround : n + 15 < 2 ^ 64 := by
    unfold roundUp16 at hn
    omega
  rcases malloc_cases size n bs with ⟨pre, b, post, rfl, hpre, hfree, hr, heq⟩ | ⟨hunfit, heq⟩
  · rw [List.length_append] at hlen
    have hsearch := search_found hheaders (by omega) hpre hfree hr
    have hspan : span (pre ++ ⟨b.size, false⟩ :: post) = span (pre ++ b :: post) := by simp
    rw [heq]
    refine ⟨base + (span pre + 16),
      (⟨base, base + span (pre ++ b :: post), size⟩, m.write64 (base + span pre + 8) 1),
      ?_, ⟨by rw [hspan], hmapped, by rwa [hspan], headers_flag false hheaders⟩,
      Or.inr ⟨rfl, by simp⟩⟩
    simp only [interface, allocMalloc, roundUp_eq hround, hsearch, Option.map_some,
      Bool.true_eq_false, false_and, if_false, Nat.add_assoc base (span pre) 16]
  · have hsearch := search_none hheaders (by omega) hunfit
    rw [heq]
    by_cases hfits : span bs + (16 + roundUp16 n) ≤ size
    · rw [if_pos hfits]
      refine ⟨base + (span bs + 16), (⟨base, base + span bs + 16 + roundUp16 n, size⟩,
        (m.write64 (base + span bs) (roundUp16 n)).write64 (base + span bs + 8) 1),
        ?_, ⟨?_, hmapped, ?_, ?_⟩, Or.inr ⟨rfl, by simp⟩⟩
      · simp only [interface, allocMalloc, roundUp_eq hround, hsearch, Option.map_some, true_and]
        rw [if_neg (by omega), if_pos trivial, Nat.mod_eq_of_lt hn, Nat.add_assoc base (span bs) 16]
      · simp only [span_append, span_cons, span_nil, Allocator.mk.injEq, true_and, and_true]
        omega
      · simp only [span_append, span_cons, span_nil]
        omega
      · refine hheaders.concat (fun x j d hx _ hd => (hd.write (by omega)).write (by omega)) ?_
        refine ⟨?_, read64_write64_self (by omega)⟩
        rw [read64_write64_of_disjoint (by omega), read64_write64_self (by omega)]
    · rw [if_neg hfits]
      refine ⟨0, (⟨base, base + span bs, size⟩, m), ?_, ⟨rfl, hmapped, hroom, hheaders⟩,
        Or.inl ⟨rfl, rfl, rfl⟩⟩
      simp only [interface, allocMalloc, roundUp_eq hround, hsearch, Option.map_some, true_and]
      rw [if_pos (by omega)]

theorem malloc_mirrors (h : Laid base size (a, m) bs) (hn : n ≤ size) :
    ∃ h', (interface.relative base).malloc n (a, m) = some ((Slots.malloc size n bs).1, h') ∧
      Laid base size h' (Slots.malloc size n bs).2 := by
  obtain ⟨p, h', heq, hlaid, hp⟩ := malloc_runs h (h.no_overflow hn)
  refine ⟨h', ?_, hlaid⟩
  rcases hp with ⟨rfl, -, hnull⟩ | ⟨rfl, -⟩
  · rw [hnull]
    exact Interface.relative_null heq
  · exact Interface.relative_malloc heq h.mapped.base_pos

theorem free_mirrors (h : Laid base size (a, m) (pre ++ b :: post))
    (hin : span pre + 16 < span (pre ++ b :: post)) :
    ∃ h', (interface.relative base).free (span pre + 16) (a, m) =
        some ((Slots.free (span pre + 16) (pre ++ b :: post)).1, h') ∧
      Laid base size h' (Slots.free (span pre + 16) (pre ++ b :: post)).2 := by
  obtain ⟨rfl, hmapped, hroom, hheaders⟩ := h
  simp only at hheaders
  obtain ⟨-, hflag⟩ := hheaders.middle
  rw [Nat.zero_add] at hflag
  have hspan : span (pre ++ ⟨b.size, true⟩ :: post) = span (pre ++ b :: post) := by simp
  rw [free_middle]
  simp only [Interface.relative, interface, allocFree]
  rw [if_neg (by omega)]
  simp only [parseHeader, show base + (span pre + 16) - 8 = base + span pre + 8 by omega, hflag]
  cases hfree : b.free with
  | true => exact ⟨_, rfl, ⟨rfl, hmapped, hroom, hheaders⟩⟩
  | false =>
    simp only [Bool.false_eq_true, if_false, one_ne_zero]
    exact ⟨_, rfl, ⟨by rw [hspan], hmapped, by rwa [hspan], headers_flag true hheaders⟩⟩

/-- The allocator acts as allocation without splitting. -/
theorem mirrors (base size : ℕ) :
    Mirrors (interface.relative base) size (Laid base size) where
  malloc := fun h _ _ hn => malloc_mirrors h hn
  free := by
    rintro ⟨a, m⟩ pre b post h hsizes
    refine free_mirrors h ?_
    have h16 := hsizes b (by simp)
    rw [span_append, span_cons]
    omega
  reset := by
    rintro ⟨a, m⟩ bs ⟨rfl, hmapped, -, -⟩
    have hreset := Allocator.reset_eq (a := ⟨base, base + span bs, size⟩) hmapped.base_pos
    simp only [Interface.relative, interface, allocReset, hreset]
    exact ⟨trivial, rfl, hmapped, Nat.zero_le _, trivial⟩
  poke := by
    rintro ⟨a, m⟩ pre b post i v ⟨rfl, hmapped, hroom, hheaders⟩ hi
    refine ⟨rfl, hmapped, hroom, ?_⟩
    simp only at hheaders
    -- a store into a payload is in no header
    have hkeep : ∀ x d, x + (d.size + 16) ≤ span pre ∨ span pre + (b.size + 16) ≤ x ∨ x = span pre →
        HeaderAt m base x d → HeaderAt (m.poke (base + (span pre + 16 + i)) v) base x d := by
      intro x d hx hd
      refine ⟨(read64_congr fun y _ _ => poke_of_ne ?_).trans hd.1,
        (read64_congr fun y _ _ => poke_of_ne ?_).trans hd.2⟩
      · omega
      · omega
    refine hheaders.replace rfl (fun x j d hx _ _ _ => hkeep x d (by omega)) ?_
    exact hkeep _ _ (by omega) (by simpa using hheaders.middle)
  blockSize := by
    rintro ⟨a, m⟩ pre b post ⟨-, -, -, hheaders⟩
    have hsize := hheaders.middle.1
    rw [Nat.zero_add] at hsize
    simp only [Interface.relative, interface, parseHeader]
    rw [show base + (span pre + 16) - 16 = base + span pre by omega, hsize]

end Implicit

end LowLevel.Allocators
