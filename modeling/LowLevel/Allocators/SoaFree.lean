import LowLevel.Allocators.SoaAgreement

/-! # Which pointers the structure of arrays takes back

The word in front of a pointer is trusted only if it is the address of an entry
that points back. Whatever a client stored there, a pointer is taken back exactly
if it is one of those in use.
-/

namespace LowLevel.Allocators

open Memory Slots

def Slots.taken : ℕ → List Block → List ℕ
  | _, [] => []
  | x, b :: bs => (if b.free then [] else [x + 16]) ++ taken (x + (b.size + 16)) bs

namespace Slots

variable {x p : ℕ} {b : Block} {bs pre post : List Block}

theorem taken_append (x : ℕ) (bs cs : List Block) :
    taken x (bs ++ cs) = taken x bs ++ taken (x + span bs) cs := by
  induction bs generalizing x with
  | nil => rfl
  | cons b bs ih =>
    rw [List.cons_append, taken, taken, ih, span_cons, List.append_assoc, Nat.add_assoc]

theorem taken_bounds (h : p ∈ taken x bs) : x < p ∧ p ≤ x + span bs := by
  induction bs generalizing x with
  | nil => cases h
  | cons b bs ih =>
    rw [span_cons]
    rcases List.mem_append.mp h with h | h
    · split_ifs at h
      · cases h
      · obtain rfl := List.mem_singleton.mp h
        omega
    · have := ih h
      omega

theorem mem_taken_split (h : p ∈ taken x bs) :
    ∃ pre b post, bs = pre ++ b :: post ∧ b.free = false ∧ p = x + (span pre + 16) := by
  induction bs generalizing x with
  | nil => cases h
  | cons b bs ih =>
    rcases List.mem_append.mp h with h | h
    · split_ifs at h with hfree
      · cases h
      · obtain rfl := List.mem_singleton.mp h
        exact ⟨[], b, bs, rfl, by simpa using hfree, rfl⟩
    · obtain ⟨pre, c, post, rfl, hc, hp⟩ := ih h
      exact ⟨b :: pre, c, post, rfl, hc, by rw [hp, span_cons]; omega⟩

theorem mem_taken_middle : p ∈ taken x (pre ++ b :: post) ↔
    p ∈ taken x pre ∨ (b.free = false ∧ p = x + (span pre + 16)) ∨
      p ∈ taken (x + span pre + (b.size + 16)) post := by
  rw [taken_append, taken, List.mem_append, List.mem_append]
  cases hb : b.free <;> simp [Nat.add_assoc]

theorem mem_taken_set (hfree : b.free = true) : p ∈ taken x (pre ++ ⟨b.size, false⟩ :: post) ↔
    p = x + (span pre + 16) ∨ p ∈ taken x (pre ++ b :: post) := by
  rw [mem_taken_middle, mem_taken_middle, hfree]
  tauto

theorem mem_taken_clear : p ∈ taken x (pre ++ ⟨b.size, true⟩ :: post) ↔
    p ∈ taken x (pre ++ b :: post) ∧ p ≠ x + (span pre + 16) := by
  rw [mem_taken_middle, mem_taken_middle]
  constructor
  · rintro (h | h | h)
    · have := taken_bounds h
      exact ⟨Or.inl h, by omega⟩
    · exact absurd h.1 (by simp)
    · have := taken_bounds h
      exact ⟨Or.inr (Or.inr h), by omega⟩
  · rintro ⟨h | ⟨-, h⟩ | h, hne⟩
    · exact Or.inl h
    · exact absurd h hne
    · exact Or.inr (Or.inr h)

theorem mem_taken_malloc (limit n : ℕ) (bs : List Block) :
    p ∈ taken x (malloc limit n bs).2 ↔
      ((malloc limit n bs).1 ≠ 0 ∧ p = x + (malloc limit n bs).1) ∨ p ∈ taken x bs := by
  rcases malloc_cases limit n bs with ⟨pre, b, post, rfl, -, hfree, -, heq⟩ | ⟨-, heq⟩
  · rw [heq, mem_taken_set hfree]
    simp
  · rw [heq]
    split_ifs
    · rw [taken_append, List.mem_append]
      simp [taken, or_comm, Nat.add_assoc]
    · simp

end Slots

namespace Improved

variable {base data size ptr n : ℕ} {a : SoaAllocator} {m : Memory} {bs : List Block}

theorem entry_of_range {header : ℕ} (hlo : base ≤ header) (hhi : header < base + 24 * bs.length)
    (hmod : (header - base) % 24 = 0) :
    ∃ pre b post, bs = pre ++ b :: post ∧ header = base + 24 * pre.length := by
  obtain ⟨i, hi⟩ : ∃ i, header - base = 24 * i := ⟨_, (Nat.mul_div_cancel' (by omega)).symm⟩
  have hlt : i < bs.length := by omega
  refine ⟨bs.take i, bs.get ⟨i, hlt⟩, bs.drop (i + 1), ?_, ?_⟩
  · rw [List.get_eq_getElem, ← List.drop_eq_getElem_cons, List.take_append_drop]
  · rw [List.length_take, Nat.min_eq_left hlt.le]
    omega

/-- A pointer that is not in use is refused, whatever the word in front of it is. -/
theorem allocFree_refused (h : Laid base data size (a, m) bs) (hptr : ptr ∉ taken data bs) :
    allocFree a m ptr = (1, m) := by
  have ha : a = ⟨base, base + 24 * bs.length, data, size⟩ := h.eq
  rw [allocFree]
  split_ifs with h₁ h₂
  · rfl
  · rfl
  · simp only
    split_ifs with hrange hback hflag
    · rfl
    · rfl
    · rfl
    -- the word is the address of an entry in use that points back to the pointer
    · refine absurd ?_ hptr
      rw [ha] at hrange
      simp only [not_or, not_lt, not_le, not_not] at hrange hback
      obtain ⟨hlo, hhi, hmod⟩ := hrange
      obtain ⟨pre, b, post, rfl, hheader⟩ := entry_of_range hlo hhi hmod
      have hentry := h.entries.middle
      simp only [Nat.zero_add] at hentry
      rw [hheader, hentry.payload] at hback
      rw [hheader, hentry.allocated] at hflag
      refine mem_taken_middle.mpr (Or.inr (Or.inl ⟨?_, ?_⟩))
      · by_contra hno
        exact hflag (if_pos (Bool.not_eq_false _ ▸ hno))
      · omega

structure Tracked (base data size : ℕ) (c : Client (SoaAllocator × Memory)) (bs : List Block) :
    Prop where
  laid : Laid base data size c.heap bs
  live : ∀ p, p ∈ c.live.map Prod.fst ↔ p ∈ taken data bs

/-- A client may try to free any pointer, and store anything into the payloads it holds. -/
def allows (size : ℕ) (c : Client (SoaAllocator × Memory)) : Action → Bool
  | .malloc n => 1 ≤ n ∧ n ≤ size
  | .free ptr => ptr < 2 ^ 64
  | .reset => true
  | .write ptr i _ => ptr ∈ c.live.map Prod.fst ∧ i < payloadSize c.heap.2 ptr

def machine (size : ℕ) (heap : SoaAllocator × Memory) :
    Machine (Client (SoaAllocator × Memory)) Action where
  init := { heap }
  step c act := if allows size c act then c.exec interface act else none

section Runs

variable {c c' : Client (SoaAllocator × Memory)} {act : Action}

theorem Tracked.malloc (h : Tracked base data size c bs) (hn : 1 ≤ n) (hle : n ≤ size)
    (hexec : c.exec interface (.malloc n) = some c') : ∃ bs', Tracked base data size c' bs' := by
  obtain ⟨o, h', hserve, -, hlaid, ho⟩ := serve_run h.laid hn hle
  have heq : interface.malloc n c.heap = some (o.ptr, h') := by
    simp only [interface, allocMalloc, hserve, Option.map_some]
  obtain rfl := Option.some.inj ((Client.exec_malloc heq).symm.trans hexec)
  refine ⟨_, hlaid, ?_⟩
  intro p
  rw [mem_taken_malloc, ← h.live]
  rcases ho with ⟨hne, rfl⟩ | ⟨hnull, hptr⟩
  · have hpos := h.laid.mappedData.base_pos
    have hptr : (Outcome.payload (data + (Slots.malloc size n bs).1)).ptr ≠ 0 := by
      rw [Outcome.ptr]
      omega
    simp only [if_neg hptr]
    rw [List.map_cons, List.mem_cons, and_iff_right hne, Outcome.ptr]
  · simp only [hptr, if_true, hnull, ne_eq, not_true, false_and, false_or]

/-- A call with any pointer: one in use is given back, another changes nothing. -/
theorem Tracked.free_cases (h : Tracked base data size c bs) (ptr : ℕ) :
    (∃ pre b post, bs = pre ++ b :: post ∧ b.free = false ∧ ptr = data + (span pre + 16) ∧
      ptr ∈ c.live.map Prod.fst ∧ allocFree c.heap.1 c.heap.2 ptr =
        (0, c.heap.2.write64 (base + 24 * pre.length + 8) 0)) ∨
    ptr ∉ c.live.map Prod.fst ∧ allocFree c.heap.1 c.heap.2 ptr = (1, c.heap.2) := by
  by_cases hptr : ptr ∈ taken data bs
  · obtain ⟨pre, b, post, rfl, hlive, rfl⟩ := mem_taken_split hptr
    refine Or.inl ⟨pre, b, post, rfl, hlive, rfl, (h.live _).mpr hptr, ?_⟩
    rw [allocFree_block h.laid, hlive]
    rfl
  · exact Or.inr ⟨fun hmem => hptr ((h.live _).mp hmem), allocFree_refused h.laid hptr⟩

theorem Tracked.free (h : Tracked base data size c bs)
    (hexec : c.exec interface (.free ptr) = some c') : ∃ bs', Tracked base data size c' bs' := by
  have hfilter : ∀ p, p ∈ (c.live.filter fun x => x.1 ≠ ptr).map Prod.fst ↔
      p ∈ c.live.map Prod.fst ∧ p ≠ ptr := by
    intro p
    simp only [List.mem_map, List.mem_filter, decide_eq_true_eq]
    constructor
    · rintro ⟨y, ⟨hy, hne⟩, rfl⟩
      exact ⟨⟨y, hy, rfl⟩, hne⟩
    · rintro ⟨⟨y, hy, rfl⟩, hne⟩
      exact ⟨y, ⟨hy, hne⟩, rfl⟩
  rcases h.free_cases ptr with ⟨pre, b, post, rfl, -, rfl, -, heq⟩ | ⟨hnot, heq⟩
  · have hfree : interface.free (data + (span pre + 16)) c.heap =
        some (0, c.heap.1, c.heap.2.write64 (base + 24 * pre.length + 8) 0) := by
      simp only [interface, heq]
    obtain rfl := Option.some.inj ((Client.exec_free hfree).symm.trans hexec)
    refine ⟨_, laid_flag true h.laid, ?_⟩
    intro p
    rw [hfilter, h.live, mem_taken_clear]
  · have hfree : interface.free ptr c.heap = some (1, c.heap) := by
      simp only [interface, heq]
    obtain rfl := Option.some.inj ((Client.exec_free hfree).symm.trans hexec)
    refine ⟨bs, h.laid, ?_⟩
    intro p
    rw [hfilter, h.live, and_iff_left_iff_imp]
    rintro hp rfl
    exact hnot ((h.live _).mpr hp)

theorem Tracked.payload (h : Tracked base data size c bs) (hptr : ptr ∈ c.live.map Prod.fst) :
    ∃ pre b post, bs = pre ++ b :: post ∧ ptr = data + (span pre + 16) ∧
      payloadSize c.heap.2 ptr = b.size := by
  obtain ⟨pre, b, post, rfl, -, rfl⟩ := mem_taken_split ((h.live _).mp hptr)
  exact ⟨pre, b, post, rfl, rfl, payloadSize_block h.laid⟩

theorem Tracked.step (h : Tracked base data size c bs) {heap : SoaAllocator × Memory}
    (hstep : (machine size heap).step c act = some c') : ∃ bs', Tracked base data size c' bs' := by
  obtain ⟨hact, hexec⟩ := Option.ite_none_right_eq_some.mp hstep
  cases act with
  | malloc n =>
    obtain ⟨hn, hle⟩ := of_decide_eq_true hact
    exact h.malloc hn hle hexec
  | free ptr => exact h.free hexec
  | reset =>
    obtain ⟨-, hlaid⟩ := (mirrors base data size).reset h.laid
    obtain rfl := Option.some.inj hexec
    exact ⟨[], hlaid, fun p => Iff.rfl⟩
  | write ptr i v =>
    obtain ⟨hptr, hi⟩ := of_decide_eq_true hact
    obtain ⟨pre, b, post, rfl, rfl, hsize⟩ := h.payload hptr
    have hlaid := (mirrors base data size).poke (i := i) v h.laid (hsize ▸ hi)
    obtain rfl := Option.some.inj hexec
    refine ⟨_, ?_, h.live⟩
    rw [Nat.add_assoc]
    exact hlaid

/-- In every reachable state and for every pointer, a call to free it succeeds exactly if the
pointer is in use; then only the allocated word of its entry is cleared, and otherwise nothing
changes. -/
theorem free_accepts_live {a a' : SoaAllocator} {metaMap dataMap : ℕ} (m : Memory)
    (hmeta : Mapped metaMap size) (hdata : Mapped dataMap size)
    (hapart : metaMap + size ≤ dataMap ∨ dataMap + size ≤ metaMap)
    (hinit : allocInit a size metaMap dataMap = (0, a'))
    (hc : (machine size (a', m)).Reachable c) (ptr : ℕ) :
    ((allocFree c.heap.1 c.heap.2 ptr).1 = 0 ↔ ptr ∈ c.live.map Prod.fst) ∧
    (ptr ∈ c.live.map Prod.fst → ∃ entry, c.heap.2.read64 (ptr - 8) = entry ∧
      c.heap.2.read64 (entry + 16) = ptr ∧ c.heap.2.read64 (entry + 8) = 1 ∧
      (allocFree c.heap.1 c.heap.2 ptr).2 = c.heap.2.write64 (entry + 8) 0) ∧
    (ptr ∉ c.live.map Prod.fst → allocFree c.heap.1 c.heap.2 ptr = (1, c.heap.2)) := by
  obtain rfl := init_eq hinit
  obtain ⟨bs, h⟩ : ∃ bs, Tracked metaMap dataMap size c bs := by
    refine hc.invariant (P := fun c => ∃ bs, Tracked metaMap dataMap size c bs) ?_ ?_
    · exact ⟨[], ⟨rfl, hmeta, hdata, hapart, Nat.zero_le _,
        fun b hb => absurd hb List.not_mem_nil, trivial⟩, fun p => Iff.rfl⟩
    · rintro c act c' ⟨bs, h⟩ hstep
      exact h.step hstep
  rcases h.free_cases ptr with ⟨pre, b, post, rfl, hlive, rfl, hmem, heq⟩ | ⟨hnot, heq⟩
  · have hentry := h.laid.entries.middle
    simp only [Nat.zero_add] at hentry
    refine ⟨?_, fun _ => ⟨metaMap + 24 * pre.length, ?_, ?_, ?_, ?_⟩, fun hno => absurd hmem hno⟩
    · rw [heq]
      exact iff_of_true rfl hmem
    · rw [show dataMap + (span pre + 16) - 8 = dataMap + span pre + 8 by omega, hentry.back]
    · rw [hentry.payload, Nat.add_assoc]
    · rw [hentry.allocated, hlive]
      rfl
    · rw [heq]
  · refine ⟨?_, fun hmem => absurd hmem hnot, fun _ => heq⟩
    rw [heq]
    exact iff_of_false one_ne_zero hnot

/-- A payload with bytes that look like the address of its own entry. -/
theorem free_accepts_live_forged : ∃ c, (machine 4096 (⟨4096, 4096, 12288, 4096⟩, fun _ => 0)).run
    { heap := (⟨4096, 4096, 12288, 4096⟩, fun _ => 0) } [.malloc 32, .write 12304 9 16] = some c ∧
      c.heap.2.read64 (12320 - 8) = 4096 ∧
      allocFree c.heap.1 c.heap.2 12320 = (1, c.heap.2) ∧
      (allocFree c.heap.1 c.heap.2 12304).1 = 0 := by
  have hrun : ((machine 4096 (⟨4096, 4096, 12288, 4096⟩, fun _ => 0)).run
      { heap := (⟨4096, 4096, 12288, 4096⟩, fun _ => 0) } [.malloc 32, .write 12304 9 16]).map
      (fun c => (c.live.map Prod.fst, c.heap.2.read64 (12320 - 8))) = some ([12304], 4096) := by
    decide +kernel
  obtain ⟨c, hc, heq⟩ := Option.map_eq_some_iff.mp hrun
  obtain ⟨hlive, hword⟩ := Prod.mk.inj heq
  have hpage : Mapped 4096 4096 := ⟨by decide, by decide, by decide⟩
  have hfree := fun ptr => free_accepts_live (a := {}) (fun _ => 0) hpage
    (⟨by decide, by decide, by decide⟩ : Mapped 12288 4096) (Or.inl (by decide)) rfl ⟨_, hc⟩ ptr
  refine ⟨c, hc, hword, (hfree 12320).2.2 ?_, (hfree 12304).1.mpr ?_⟩
  · simp [hlive]
  · simp [hlive]

end Runs

end Improved

end LowLevel.Allocators
