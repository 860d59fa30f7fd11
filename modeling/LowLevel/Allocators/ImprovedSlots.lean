import LowLevel.Allocators.Improved
import LowLevel.Allocators.Slots
import Mathlib.Algebra.Order.Ring.Nat

/-! # The structure of arrays allocates without splitting

The entries of the meta region describe the blocks of the data region. An entry
is smaller than the smallest block with its header, so the entries never run out
before the data.
-/

namespace LowLevel.Allocators

open Memory Slots FirstFit

namespace Improved

variable {base data size n r : ℕ} {a : SoaAllocator} {m : Memory} {b : Block}
  {bs pre post : List Block}

/-- The entry of a block at an index, and the pointer to it in the data region. -/
structure EntryAt (m : Memory) (base data off i : ℕ) (b : Block) : Prop where
  size : m.read64 (base + 24 * i) = b.size
  allocated : m.read64 (base + 24 * i + 8) = if b.free then 0 else 1
  payload : m.read64 (base + 24 * i + 16) = data + off + 16
  back : m.read64 (data + off + 8) = base + 24 * i

structure Laid (base data size : ℕ) (h : SoaAllocator × Memory) (bs : List Block) : Prop where
  eq : h.1 = ⟨base, base + 24 * bs.length, data, size⟩
  mapped : Mapped base size
  mappedData : Mapped data size
  apart : base + size ≤ data ∨ data + size ≤ base
  room : span bs ≤ size
  sizes : ∀ b ∈ bs, 16 ≤ b.size
  entries : Each (EntryAt h.2 base data) 0 0 bs

theorem search_pass {off i last : ℕ} (fuel : ℕ) (h : Each (EntryAt m base data) off i pre)
    (hlast : base + 24 * (i + pre.length) ≤ last) (hpre : ∀ c ∈ pre, unfit r c = true) :
    search m last r (fuel + pre.length) (base + 24 * i) =
      search m last r fuel (base + 24 * (i + pre.length)) := by
  induction pre generalizing off i with
  | nil => rfl
  | cons b pre ih =>
    obtain ⟨hentry, hrest⟩ := h
    rw [List.length_cons] at hlast
    have hfit : ¬ (m.read64 (base + 24 * i + 8) = 0 ∧ r ≤ m.read64 (base + 24 * i)) := by
      rw [hentry.allocated, hentry.size]
      rintro ⟨hfree, hr⟩
      have hb := hpre b (List.mem_cons_self ..)
      cases hb' : b.free with
      | true => simp [unfit, hb', hr] at hb
      | false => simp [hb'] at hfree
    have hnext := ih hrest (by omega) fun c hc => hpre c (List.mem_cons_of_mem _ hc)
    rw [List.length_cons, ← Nat.add_assoc, search, if_pos (by omega), if_neg hfit,
      show base + 24 * i + 24 = base + 24 * (i + 1) by omega, hnext]
    congr 1
    omega

theorem search_found (h : Each (EntryAt m base data) 0 0 (pre ++ b :: post))
    (hlen : pre.length < 2 ^ 64) (hpre : ∀ c ∈ pre, unfit r c = true) (hfree : b.free = true)
    (hr : r ≤ b.size) :
    search m (base + 24 * (pre ++ b :: post).length) r (2 ^ 64) base =
      some (some (base + 24 * pre.length)) := by
  have hentry := h.middle
  rw [Nat.zero_add, Nat.zero_add] at hentry
  obtain ⟨fuel, hfuel⟩ : ∃ fuel, 2 ^ 64 = fuel + 1 + pre.length :=
    ⟨2 ^ 64 - 1 - pre.length, by omega⟩
  have hle : base + 24 * (0 + pre.length) < base + 24 * (pre ++ b :: post).length := by
    rw [List.length_append, List.length_cons]
    omega
  have hpass := search_pass (fuel + 1) (each_append.mp h).1 hle.le hpre
  simp only [Nat.zero_add, Nat.mul_zero, Nat.add_zero] at hpass hle
  rw [hfuel, hpass, search, if_pos hle, if_pos]
  refine ⟨?_, hentry.size ▸ hr⟩
  rw [hentry.allocated, hfree]
  rfl

theorem search_none (h : Each (EntryAt m base data) 0 0 bs) (hlen : bs.length < 2 ^ 64)
    (hbs : ∀ c ∈ bs, unfit r c = true) :
    search m (base + 24 * bs.length) r (2 ^ 64) base = some none := by
  obtain ⟨fuel, hfuel⟩ : ∃ fuel, 2 ^ 64 = fuel + 1 + bs.length :=
    ⟨2 ^ 64 - 1 - bs.length, by omega⟩
  have hle : base + 24 * (0 + bs.length) ≤ base + 24 * bs.length := by omega
  have hpass := search_pass (fuel + 1) h hle hbs
  simp only [Nat.zero_add, Nat.mul_zero, Nat.add_zero] at hpass
  rw [hfuel, hpass, search, if_neg (lt_irrefl _)]

theorem EntryAt.write {off i x v : ℕ} (h : EntryAt m base data off i b)
    (hmeta : x + 8 ≤ base + 24 * i ∨ base + 24 * i + 24 ≤ x)
    (hdata : x + 8 ≤ data + off + 8 ∨ data + off + 16 ≤ x) :
    EntryAt (m.write64 x v) base data off i b := by
  constructor
  case size => rw [read64_write64_of_disjoint (by omega), h.size]
  case allocated => rw [read64_write64_of_disjoint (by omega), h.allocated]
  case payload => rw [read64_write64_of_disjoint (by omega), h.payload]
  case back => rw [read64_write64_of_disjoint (by omega), h.back]

theorem length_le (h : Laid base data size (a, m) bs) : 24 * bs.length ≤ size := by
  have := length_le_span h.sizes
  have := h.room
  omega

theorem blockStart_eq (h : Laid base data size (a, m) bs) : blockStart a m = data + span bs := by
  obtain ⟨rfl, -, -, -, -, -, hentries⟩ := h
  simp only at hentries
  rcases List.eq_nil_or_concat bs with rfl | ⟨pre, b, hbs⟩
  · simp [blockStart]
  · rw [List.concat_eq_append] at hbs
    subst hbs
    have hentry := hentries.middle
    simp only [Nat.zero_add] at hentry
    have hlen : base + 24 * (pre ++ [b]).length - 24 = base + 24 * pre.length := by
      simp
      omega
    rw [blockStart, if_neg (by simp)]
    simp only [hlen, hentry.payload, hentry.size, span_append, span_cons, span_nil]
    omega

theorem entries_flag (free : Bool) (h : Laid base data size (a, m) (pre ++ b :: post)) :
    Each (EntryAt (m.write64 (base + 24 * pre.length + 8) (if free then 0 else 1)) base data)
      0 0 (pre ++ ⟨b.size, free⟩ :: post) := by
  have hlen := length_le h
  obtain ⟨-, -, -, hapart, hroom, -, hentries⟩ := h
  simp only at hentries
  have hentry := hentries.middle
  simp only [Nat.zero_add] at hentry
  simp only [span_append, span_cons, List.length_append, List.length_cons] at hroom hlen
  refine hentries.replace rfl (fun x j d hx hx' hj _ hd => hd.write (by omega) ?_) ?_
  · simp only [span_append, span_cons] at hx'
    omega
  · constructor
    case size => rw [read64_write64_of_disjoint (by omega), hentry.size]
    case allocated => exact read64_write64_self (by split_ifs <;> omega)
    case payload => rw [read64_write64_of_disjoint (by omega), hentry.payload]
    case back => rw [read64_write64_of_disjoint (by omega), hentry.back]

theorem laid_flag (free : Bool) (h : Laid base data size (a, m) (pre ++ b :: post)) :
    Laid base data size (a, m.write64 (base + 24 * pre.length + 8) (if free then 0 else 1))
      (pre ++ ⟨b.size, free⟩ :: post) := by
  have hspan : span (pre ++ ⟨b.size, free⟩ :: post) = span (pre ++ b :: post) := by simp
  constructor
  case eq => simpa using h.eq
  case mapped => exact h.mapped
  case mappedData => exact h.mappedData
  case apart => exact h.apart
  case room => exact hspan.trans_le h.room
  case sizes =>
    intro c hc
    rcases List.mem_append.mp hc with hc | hc
    · exact h.sizes c (by simp [hc])
    · rcases List.mem_cons.mp hc with rfl | hc
      · exact h.sizes b (by simp)
      · exact h.sizes c (by simp [hc])
  case entries => exact entries_flag free h

theorem append_run (h : Laid base data size (a, m) bs) (hr : 16 ≤ r)
    (hfits : span bs + (16 + r) ≤ size) :
    ∃ h', append a m r = (.payload (data + (span bs + 16)), h') ∧
      Laid base data size h' (bs ++ [⟨r, false⟩]) := by
  have hstart := blockStart_eq h
  have hlen := length_le_span h.sizes
  obtain ⟨rfl, hmapped, hmappedData, hapart, hroom, hsizes, hentries⟩ := h
  simp only at hentries hsizes
  have hle := hmapped.le
  have hle' := hmappedData.le
  have hmeta : base + 24 * bs.length + 24 ≤ base + size := by omega
  refine ⟨(⟨base, base + 24 * bs.length + 24, data, size⟩,
    (((m.write64 (base + 24 * bs.length) r).write64 (base + 24 * bs.length + 8) 1).write64
      (base + 24 * bs.length + 16) (data + span bs + 16)).write64 (data + span bs + 8)
      (base + 24 * bs.length)), ?_, ?_⟩
  · simp only [append, hstart]
    rw [if_neg (by omega), if_neg (by omega), Nat.add_assoc data (span bs) 16,
      show data + (span bs + 16) - 8 = data + span bs + 8 by omega]
  · refine ⟨?_, hmapped, hmappedData, hapart, ?_, ?_, ?_⟩
    · simp only [List.length_append, List.length_singleton, SoaAllocator.mk.injEq, true_and,
        and_true]
      omega
    · simp only [span_append, span_cons, span_nil]
      omega
    · intro c hc
      rcases List.mem_append.mp hc with hc | hc
      · exact hsizes c hc
      · obtain rfl := List.mem_singleton.mp hc
        exact hr
    · refine hentries.concat (fun x j d hx hj hd => ?_) ?_
      · exact (((hd.write (by omega) (by omega)).write (by omega) (by omega)).write (by omega)
          (by omega)).write (by omega) (by omega)
      · constructor <;>
          simp (disch := omega) only [read64_write64_of_disjoint, read64_write64_self]
        rfl

/-- A request is served as by the abstract allocator, and never fails for want of entries. -/
theorem serve_run (h : Laid base data size (a, m) bs) (hn : 1 ≤ n) (hle : n ≤ size) :
    ∃ o h', serve a m n = some (o, h') ∧ o ≠ .metaFull ∧
      Laid base data size h' (Slots.malloc size n bs).2 ∧
      ((Slots.malloc size n bs).1 ≠ 0 ∧ o = .payload (data + (Slots.malloc size n bs).1) ∨
        (Slots.malloc size n bs).1 = 0 ∧ o.ptr = 0) := by
  have hlen := length_le_span h.sizes
  have hstart := blockStart_eq h
  have hmap := h.mapped.le
  have hmap' := h.mappedData.le
  have hpage := Nat.le_of_dvd h.mapped.base_pos h.mapped.page
  have hpage' := Nat.le_of_dvd h.mappedData.base_pos h.mappedData.page
  have hroom := h.room
  have hround := roundUp_spec (n := n) (by omega)
  rw [roundUp_eq (n := n) (by omega)] at hround
  have ha : a = ⟨base, base + 24 * bs.length, data, size⟩ := h.eq
  have hserve : ∀ found, search m (base + 24 * bs.length) (roundUp16 n) (2 ^ 64) base =
      some found → serve a m n = some (found.elim (append a m (roundUp16 n)) fun current =>
        (.payload ((m.write64 (current + 8) 1).read64 (current + 16)), a,
          m.write64 (current + 8) 1)) := by
    intro found hfound
    rw [serve, ha, if_neg (by simp only; omega), roundUp_eq (n := n) (by omega)]
    cases found with
    | none => exact congrArg (Option.map _) hfound
    | some current => exact congrArg (Option.map _) hfound
  rcases malloc_cases size n bs with ⟨pre, b, post, rfl, hpre, hfree, hr, heq⟩ | ⟨hunfit, heq⟩
  · have hentry := h.entries.middle
    simp only [Nat.zero_add] at hentry
    simp only [List.length_append, List.length_cons] at hlen
    rw [heq, hserve _ (search_found h.entries (by omega) hpre hfree hr)]
    refine ⟨_, _, rfl, by simp, laid_flag false h, Or.inl ⟨by simp, ?_⟩⟩
    rw [read64_write64_of_disjoint (by omega), hentry.payload, Nat.add_assoc]
  · rw [heq, hserve _ (search_none h.entries (by omega) hunfit)]
    by_cases hfits : span bs + (16 + roundUp16 n) ≤ size
    · obtain ⟨h', happend, hlaid⟩ := append_run h (by omega) hfits
      rw [if_pos hfits, happend]
      exact ⟨_, h', rfl, by simp, hlaid, Or.inl ⟨by simp, rfl⟩⟩
    · rw [if_neg hfits, append, hstart, ha, if_pos (by simp only; omega)]
      exact ⟨_, _, rfl, by simp, ha ▸ h, Or.inr ⟨rfl, rfl⟩⟩

theorem malloc_mirrors (h : Laid base data size (a, m) bs) (hn : 1 ≤ n) (hle : n ≤ size) :
    ∃ h', (interface.relative data).malloc n (a, m) = some ((Slots.malloc size n bs).1, h') ∧
      Laid base data size h' (Slots.malloc size n bs).2 := by
  obtain ⟨o, h', hserve, -, hlaid, ho⟩ := serve_run h hn hle
  refine ⟨h', ?_, hlaid⟩
  rcases ho with ⟨hne, rfl⟩ | ⟨hzero, hptr⟩
  · apply Interface.relative_malloc _ h.mappedData.base_pos
    simp only [interface, allocMalloc, hserve, Option.map_some, Outcome.ptr]
  · rw [hzero]
    apply Interface.relative_null
    simp only [interface, allocMalloc, hserve, Option.map_some, hptr]

theorem allocFree_block (h : Laid base data size (a, m) (pre ++ b :: post)) :
    allocFree a m (data + (span pre + 16)) =
      if b.free then (1, m) else (0, m.write64 (base + 24 * pre.length + 8) 0) := by
  have hentry := h.entries.middle
  have hroom := h.room
  have h16 := h.sizes b (by simp)
  have ha : a = ⟨base, base + 24 * (pre ++ b :: post).length, data, size⟩ := h.eq
  have hpos := h.mapped.base_pos
  simp only [Nat.zero_add] at hentry
  simp only [span_append, span_cons] at hroom
  have hhdr : m.read64 (data + (span pre + 16) - 8) = base + 24 * pre.length := by
    rw [show data + (span pre + 16) - 8 = data + span pre + 8 by omega, hentry.back]
  have hlt : base + 24 * pre.length < base + 24 * (pre ++ b :: post).length := by
    simp only [List.length_append, List.length_cons]
    omega
  rw [allocFree, ha, if_neg (by simp only; omega), if_neg (by simp only; omega)]
  simp only [hhdr]
  rw [if_neg (by omega), if_neg (by rw [hentry.payload]; omega), hentry.allocated]
  cases b.free <;> rfl

theorem payloadSize_block {h : SoaAllocator × Memory}
    (hlaid : Laid base data size h (pre ++ b :: post)) :
    payloadSize h.2 (data + (span pre + 16)) = b.size := by
  have hentry := hlaid.entries.middle
  simp only [Nat.zero_add] at hentry
  rw [payloadSize, show data + (span pre + 16) - 8 = data + span pre + 8 by omega, hentry.back,
    hentry.size]

theorem free_mirrors (h : Laid base data size (a, m) (pre ++ b :: post)) :
    ∃ h', (interface.relative data).free (span pre + 16) (a, m) =
        some ((Slots.free (span pre + 16) (pre ++ b :: post)).1, h') ∧
      Laid base data size h' (Slots.free (span pre + 16) (pre ++ b :: post)).2 := by
  rw [free_middle]
  simp only [Interface.relative, interface, allocFree_block h]
  cases b.free with
  | true => exact ⟨_, rfl, h⟩
  | false => exact ⟨_, rfl, laid_flag true h⟩

/-- The allocator acts as allocation without splitting. -/
theorem mirrors (base data size : ℕ) :
    Mirrors (interface.relative data) size (Laid base data size) where
  malloc := fun h _ hn hle => malloc_mirrors h hn hle
  free := fun h _ => free_mirrors h
  reset := by
    rintro ⟨a, m⟩ bs ⟨rfl, hmapped, hmappedData, hapart, -, -, -⟩
    simp only [Interface.relative, interface, allocReset, if_neg hmapped.base_pos.ne']
    exact ⟨trivial, rfl, hmapped, hmappedData, hapart, Nat.zero_le _,
      fun b hb => absurd hb List.not_mem_nil, trivial⟩
  poke := by
    rintro ⟨a, m⟩ pre b post i v h hi
    have hlen := length_le h
    obtain ⟨rfl, hmapped, hmappedData, hapart, hroom, hsizes, hentries⟩ := h
    refine ⟨rfl, hmapped, hmappedData, hapart, hroom, hsizes, ?_⟩
    simp only at hentries
    simp only [span_append, span_cons, List.length_append, List.length_cons] at hroom hlen
    -- a store into a payload is in no entry and in no header
    have hkeep : ∀ x j d, x + (d.size + 16) ≤ span pre ∨ span pre + (b.size + 16) ≤ x ∨
        x = span pre → j < pre.length + (post.length + 1) → EntryAt m base data x j d →
        EntryAt (m.poke (data + (span pre + 16 + i)) v) base data x j d := by
      intro x j d hx hj hd
      constructor
      case size => exact (read64_congr fun y _ _ => poke_of_ne (by omega)).trans hd.size
      case allocated => exact (read64_congr fun y _ _ => poke_of_ne (by omega)).trans hd.allocated
      case payload => exact (read64_congr fun y _ _ => poke_of_ne (by omega)).trans hd.payload
      case back => exact (read64_congr fun y _ _ => poke_of_ne (by omega)).trans hd.back
    refine hentries.replace rfl
      (fun x j d hx _ _ hj => hkeep x j d (by omega) (by simpa using hj)) ?_
    exact hkeep _ _ _ (by omega) (by omega) (by simpa using hentries.middle)
  blockSize := fun h => payloadSize_block h

end Improved

end LowLevel.Allocators
