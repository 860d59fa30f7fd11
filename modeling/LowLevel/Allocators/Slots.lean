import LowLevel.Allocators.FirstFit

/-! # Allocation without splitting

The abstract allocator behind the implicit list and its structure of arrays: the
blocks stay where they are, a free one is handed out whole, and pointers are
offsets from the start of the region. An implementation that acts as this one on
a region has the same runs.
-/

namespace LowLevel.Allocators.Slots

open FirstFit

def span (bs : List Block) : ℕ := (bs.map fun b => b.size + 16).sum

/-- The blocks before a payload offset, the block there, and those after it. -/
def locate (off : ℕ) : ℕ → List Block → Option (List Block × Block × List Block)
  | _, [] => none
  | x, b :: bs =>
    if x + 16 = off then some ([], b, bs)
    else (locate off (x + (b.size + 16)) bs).map fun z => (b :: z.1, z.2.1, z.2.2)

def malloc (limit n : ℕ) (bs : List Block) : ℕ × List Block :=
  let r := roundUp16 n
  let pre := bs.takeWhile (unfit r)
  match bs.dropWhile (unfit r) with
  | b :: post => (span pre + 16, pre ++ ⟨b.size, false⟩ :: post)
  | [] => if span bs + (16 + r) ≤ limit then (span bs + 16, bs ++ [⟨r, false⟩]) else (0, bs)

def free (off : ℕ) (bs : List Block) : ℕ × List Block :=
  match locate off 0 bs with
  | some (pre, b, post) => if b.free then (1, bs) else (0, pre ++ ⟨b.size, true⟩ :: post)
  | none => (1, bs)

def blockSize (off : ℕ) (bs : List Block) : ℕ :=
  match locate off 0 bs with
  | some (_, b, _) => b.size
  | none => 0

def interface (limit : ℕ) : Interface (List Block) where
  malloc n bs := some (malloc limit n bs)
  free off bs := some (free off bs)
  reset _ := (0, [])
  poke _ _ bs := bs
  blockSize off bs := blockSize off bs

def slots : ℕ → List Block → List (ℕ × ℕ)
  | _, [] => []
  | x, b :: bs => (x + 16, b.size) :: slots (x + (b.size + 16)) bs

/-- A property of every block with its offset and its index. -/
def Each (P : ℕ → ℕ → Block → Prop) : ℕ → ℕ → List Block → Prop
  | _, _, [] => True
  | off, i, b :: bs => P off i b ∧ Each P (off + (b.size + 16)) (i + 1) bs

section Lists

variable {P P' : ℕ → ℕ → Block → Prop} {off i n r x limit : ℕ} {b : Block}
  {bs cs pre post : List Block}

@[simp] theorem span_nil : span [] = 0 := rfl

@[simp] theorem span_cons (b : Block) (bs : List Block) :
    span (b :: bs) = b.size + 16 + span bs := rfl

@[simp] theorem span_append (bs cs : List Block) : span (bs ++ cs) = span bs + span cs := by
  simp [span]

theorem each_append : Each P off i (bs ++ cs) ↔
    Each P off i bs ∧ Each P (off + span bs) (i + bs.length) cs := by
  induction bs generalizing off i with
  | nil => simp [Each]
  | cons b bs ih =>
    simp only [List.cons_append, Each, ih, and_assoc, span_cons, List.length_cons]
    rw [show off + (b.size + 16) + span bs = off + (b.size + 16 + span bs) by omega,
      show i + 1 + bs.length = i + (bs.length + 1) by omega]

theorem Each.imp (h : Each P off i bs)
    (hP : ∀ x j b, off ≤ x → x + (b.size + 16) ≤ off + span bs → i ≤ j → j < i + bs.length →
      P x j b → P' x j b) : Each P' off i bs := by
  induction bs generalizing off i with
  | nil => trivial
  | cons b bs ih =>
    simp only [span_cons, List.length_cons] at hP
    refine ⟨hP off i b le_rfl (by omega) le_rfl (by omega) h.1, ih h.2 ?_⟩
    intro x j c hx hx' hj hj'
    exact hP x j c (by omega) (by omega) (by omega) (by omega)

theorem Each.middle (h : Each P off i (pre ++ b :: post)) :
    P (off + span pre) (i + pre.length) b :=
  (each_append.mp h).2.1

theorem Each.replace {c : Block} (h : Each P 0 0 (pre ++ b :: post)) (hc : c.size = b.size)
    (hP : ∀ x j d, x + (d.size + 16) ≤ span pre ∨ span pre + (b.size + 16) ≤ x →
      x + (d.size + 16) ≤ span (pre ++ b :: post) → j ≠ pre.length →
      j < (pre ++ b :: post).length → P x j d → P' x j d)
    (hnew : P' (span pre) pre.length c) : Each P' 0 0 (pre ++ c :: post) := by
  obtain ⟨hpre, -, hpost⟩ := each_append.mp h
  simp only [Nat.zero_add, span_append, span_cons, List.length_append, List.length_cons] at *
  refine each_append.mpr ⟨hpre.imp ?_, ?_, ?_⟩
  · intro x j d _ hx _ hj
    exact hP x j d (Or.inl (by omega)) (by omega) (by omega) (by omega)
  · simpa using hnew
  · rw [hc]
    simp only [Nat.zero_add]
    refine hpost.imp ?_
    intro x j d hx hx' hj hj'
    exact hP x j d (Or.inr hx) (by omega) (by omega) (by omega)

theorem Each.concat (h : Each P 0 0 bs)
    (hP : ∀ x j d, x + (d.size + 16) ≤ span bs → j < bs.length → P x j d → P' x j d)
    (hnew : P' (span bs) bs.length b) : Each P' 0 0 (bs ++ [b]) := by
  refine each_append.mpr ⟨h.imp ?_, ?_, trivial⟩
  · intro x j d _ hx _ hj
    exact hP x j d (by omega) (by omega)
  · simpa using hnew

theorem headers_le_span (bs : List Block) : 16 * bs.length ≤ span bs := by
  induction bs with
  | nil => exact le_rfl
  | cons b bs ih =>
    rw [span_cons, List.length_cons]
    omega

theorem length_le_span (hsizes : ∀ b ∈ bs, 16 ≤ b.size) : 32 * bs.length ≤ span bs := by
  induction bs with
  | nil => exact le_rfl
  | cons b bs ih =>
    have := ih fun c hc => hsizes c (List.mem_cons_of_mem _ hc)
    have := hsizes b (List.mem_cons_self ..)
    rw [span_cons, List.length_cons]
    omega

theorem locate_middle (x : ℕ) (pre : List Block) (b : Block) (post : List Block) :
    locate (x + span pre + 16) x (pre ++ b :: post) = some (pre, b, post) := by
  induction pre generalizing x with
  | nil => simp [locate]
  | cons c pre ih =>
    have := ih (x + (c.size + 16))
    rw [span_cons, List.cons_append, locate, if_neg (by omega),
      show x + (c.size + 16 + span pre) + 16 = x + (c.size + 16) + span pre + 16 by omega, this,
      Option.map_some]

theorem free_middle : free (span pre + 16) (pre ++ b :: post) =
    if b.free then (1, pre ++ b :: post) else (0, pre ++ ⟨b.size, true⟩ :: post) := by
  have := locate_middle 0 pre b post
  rw [Nat.zero_add] at this
  rw [free, this]

theorem blockSize_middle : blockSize (span pre + 16) (pre ++ b :: post) = b.size := by
  have := locate_middle 0 pre b post
  rw [Nat.zero_add] at this
  rw [blockSize, this]

theorem malloc_cases (limit n : ℕ) (bs : List Block) :
    (∃ pre b post, bs = pre ++ b :: post ∧ (∀ c ∈ pre, unfit (roundUp16 n) c = true) ∧
      b.free = true ∧ roundUp16 n ≤ b.size ∧
      malloc limit n bs = (span pre + 16, pre ++ ⟨b.size, false⟩ :: post)) ∨
    (∀ c ∈ bs, unfit (roundUp16 n) c = true) ∧ malloc limit n bs =
      if span bs + (16 + roundUp16 n) ≤ limit then (span bs + 16, bs ++ [⟨roundUp16 n, false⟩])
      else (0, bs) := by
  rcases unfit_cases (roundUp16 n) bs with
    ⟨pre, b, post, hbs, hpre, hfree, hr, htake, hdrop⟩ | ⟨hall, hdrop⟩
  · refine Or.inl ⟨pre, b, post, hbs, hpre, hfree, hr, ?_⟩
    rw [malloc, hdrop, htake]
  · refine Or.inr ⟨hall, ?_⟩
    rw [malloc, hdrop]

end Lists

section Slots

variable {x n limit : ℕ} {b c : Block} {bs pre post : List Block} {y : ℕ × ℕ}

theorem slots_append (x : ℕ) (bs cs : List Block) :
    slots x (bs ++ cs) = slots x bs ++ slots (x + span bs) cs := by
  induction bs generalizing x with
  | nil => rfl
  | cons b bs ih => simp only [List.cons_append, slots, ih, span_cons, Nat.add_assoc]

theorem slots_replace (hc : c.size = b.size) :
    slots x (pre ++ c :: post) = slots x (pre ++ b :: post) := by
  rw [slots_append, slots_append, slots, slots, hc]

theorem mem_slots_split (h : y ∈ slots x bs) :
    ∃ pre b post, bs = pre ++ b :: post ∧ y.1 = x + span pre + 16 ∧ y.2 = b.size := by
  induction bs generalizing x with
  | nil => cases h
  | cons b bs ih =>
    rcases List.mem_cons.mp h with rfl | h
    · exact ⟨[], b, bs, rfl, rfl, rfl⟩
    · obtain ⟨pre, c, post, rfl, h₁, h₂⟩ := ih h
      exact ⟨b :: pre, c, post, rfl, by rw [h₁, span_cons]; omega, h₂⟩

theorem malloc_slots (limit n : ℕ) (bs : List Block) :
    slots 0 bs ⊆ slots 0 (malloc limit n bs).2 ∧ ((malloc limit n bs).1 = 0 ∨
      ∃ k, ((malloc limit n bs).1, k) ∈ slots 0 (malloc limit n bs).2 ∧ n ≤ k) := by
  have hn := le_roundUp16 n
  rcases malloc_cases limit n bs with ⟨pre, b, post, rfl, -, -, hr, heq⟩ | ⟨-, heq⟩
  · rw [heq]
    simp only [slots_replace (b := b) (c := ⟨b.size, false⟩) rfl]
    refine ⟨List.Subset.refl _, Or.inr ⟨b.size, ?_, by omega⟩⟩
    rw [slots_append, slots]
    simp
  · rw [heq]
    split_ifs
    · rw [slots_append]
      refine ⟨List.subset_append_left .., Or.inr ⟨roundUp16 n, ?_, hn⟩⟩
      simp [slots]
    · exact ⟨List.Subset.refl _, Or.inl rfl⟩

theorem locate_sound {off : ℕ} (h : locate off x bs = some (pre, b, post)) :
    bs = pre ++ b :: post := by
  induction bs generalizing x pre with
  | nil => cases h
  | cons c bs ih =>
    rw [locate] at h
    split_ifs at h
    · cases h
      rfl
    · obtain ⟨z, hz, heq⟩ := Option.map_eq_some_iff.mp h
      cases heq
      rw [ih hz, List.cons_append]

theorem free_slots (off : ℕ) (bs : List Block) : slots 0 (free off bs).2 = slots 0 bs := by
  rw [free]
  cases hloc : locate off 0 bs with
  | none => rfl
  | some z =>
    obtain ⟨pre, b, post⟩ := z
    obtain rfl := locate_sound hloc
    simp only
    split_ifs
    · rfl
    · exact slots_replace rfl

theorem sizes_replace {pre post : List Block} {b b' : Block}
    (h : ∀ c ∈ pre ++ b :: post, 16 ≤ c.size) (hb : b'.size = b.size) :
    ∀ c ∈ pre ++ b' :: post, 16 ≤ c.size := by
  intro c hc
  rcases List.mem_append.mp hc with hc | hc
  · exact h c (by simp [hc])
  · rcases List.mem_cons.mp hc with rfl | hc
    · exact hb ▸ h b (by simp)
    · exact h c (by simp [hc])

theorem free_sizes {off : ℕ} (h : ∀ b ∈ bs, 16 ≤ b.size) : ∀ b ∈ (free off bs).2, 16 ≤ b.size := by
  rw [free]
  cases hloc : locate off 0 bs with
  | none => exact h
  | some z =>
    obtain ⟨pre, b, post⟩ := z
    obtain rfl := locate_sound hloc
    simp only
    split_ifs
    · exact h
    · exact sizes_replace h rfl

theorem malloc_sizes (h : ∀ b ∈ bs, 16 ≤ b.size) (hn : 1 ≤ n) :
    ∀ b ∈ (malloc limit n bs).2, 16 ≤ b.size := by
  rcases malloc_cases limit n bs with ⟨pre, b, post, rfl, -, -, -, heq⟩ | ⟨-, heq⟩
  · rw [heq]
    exact sizes_replace h rfl
  · rw [heq]
    split_ifs
    · intro c hc
      rcases List.mem_append.mp hc with hc | hc
      · exact h c hc
      · obtain rfl := List.mem_singleton.mp hc
        simp only [roundUp16]
        omega
    · exact h

end Slots

structure Held (d : Client (List Block)) : Prop where
  sizes : ∀ b ∈ d.heap, 16 ≤ b.size
  returned : ∀ p ∈ d.returned, ∃ k, (p, k) ∈ slots 0 d.heap
  live : ∀ y ∈ d.live, ∃ k, (y.1, k) ∈ slots 0 d.heap ∧ y.2 ≤ k

/-- An implementation acts as the abstract allocator on a region of the given size. -/
structure Mirrors {σ : Type} (I : Interface σ) (size : ℕ) (Rep : σ → List Block → Prop) :
    Prop where
  malloc : ∀ {h bs n}, Rep h bs → (∀ b ∈ bs, 16 ≤ b.size) → 1 ≤ n → n ≤ size →
    ∃ h', I.malloc n h = some ((malloc size n bs).1, h') ∧ Rep h' (malloc size n bs).2
  free : ∀ {h pre b post}, Rep h (pre ++ b :: post) → (∀ c ∈ pre ++ b :: post, 16 ≤ c.size) →
    ∃ h', I.free (span pre + 16) h = some ((free (span pre + 16) (pre ++ b :: post)).1, h') ∧
      Rep h' (free (span pre + 16) (pre ++ b :: post)).2
  reset : ∀ {h bs}, Rep h bs → (I.reset h).1 = 0 ∧ Rep (I.reset h).2 []
  poke : ∀ {h pre b post i} (v : UInt8), Rep h (pre ++ b :: post) → i < b.size →
    Rep (I.poke (span pre + 16 + i) v h) (pre ++ b :: post)
  blockSize : ∀ {h pre b post}, Rep h (pre ++ b :: post) → I.blockSize (span pre + 16) h = b.size

/-- Requests up to the size of the region; any pointer since the last reset may be freed. -/
def regionRules (size : ℕ) : Rules := { minSize := 1, maxSize := size, refree := true }

/-- A client of an implementation beside one of the abstract allocator. -/
structure Beside {σ : Type} (Rep : σ → List Block → Prop) (c : Client σ)
    (d : Client (List Block)) : Prop where
  heap : Rep c.heap d.heap
  live : c.live = d.live
  returned : c.returned = d.returned
  log : c.log = d.log
  held : Held d

namespace Mirrors

variable {σ : Type} {I : Interface σ} {size : ℕ} {Rep : σ → List Block → Prop} {c : Client σ}
  {d : Client (List Block)} {act : Action} (hI : Mirrors I size Rep)

include hI

theorem block (h : Beside Rep c d) {y : ℕ × ℕ} (hy : y ∈ c.live) :
    ∃ pre b post, d.heap = pre ++ b :: post ∧ y.1 = span pre + 16 ∧
      I.blockSize y.1 c.heap = b.size ∧ (interface size).blockSize y.1 d.heap = b.size := by
  obtain ⟨k, hk, -⟩ := h.held.live y (h.live ▸ hy)
  obtain ⟨pre, b, post, hbs, heq, -⟩ := mem_slots_split hk
  simp only [Nat.zero_add] at heq
  refine ⟨pre, b, post, hbs, heq, ?_, ?_⟩
  · rw [heq]
    exact hI.blockSize (hbs ▸ h.heap)
  · rw [heq, hbs]
    exact blockSize_middle

theorem allowed_eq (h : Beside Rep c d) (act : Action) :
    d.allowed (interface size) (regionRules size) act = c.allowed I (regionRules size) act := by
  cases act with
  | malloc n => rfl
  | free p => simp only [Client.allowed, h.live, h.returned]
  | reset => rfl
  | write p i v =>
    rw [Bool.eq_iff_iff, Client.allowed_write, Client.allowed_write, ← h.live]
    refine exists_congr fun y => and_congr_right fun hy => and_congr_right ?_
    rintro rfl
    obtain ⟨pre, b, post, -, -, hsize, hsize'⟩ := hI.block h hy
    rw [hsize, hsize']

theorem exec_malloc {n : ℕ} (h : Beside Rep c d)
    (hact : c.allowed I (regionRules size) (.malloc n) = true) :
    ∃ c' d', c.exec I (.malloc n) = some c' ∧ d.exec (interface size) (.malloc n) = some d' ∧
      Beside Rep c' d' := by
  obtain ⟨hheap, hlive, hret, hlog, hsizes, hheld, hpay⟩ := id h
  obtain ⟨hmin, hmax⟩ := Client.allowed_malloc.mp hact
  obtain ⟨h', heq, hrep⟩ := hI.malloc hheap hsizes hmin hmax
  obtain ⟨hsub, hptr⟩ := malloc_slots size n d.heap
  have hJ : (interface size).malloc n d.heap =
      some ((Slots.malloc size n d.heap).1, (Slots.malloc size n d.heap).2) := rfl
  refine ⟨_, _, Client.exec_malloc heq, Client.exec_malloc hJ,
    ⟨hrep, by simp only [hlive], by simp only [hret], by simp only [hlog],
      malloc_sizes hsizes hmin, ?_, ?_⟩⟩
  · intro p hp
    simp only at hp
    split_ifs at hp with hzero
    · obtain ⟨k, hk⟩ := hheld p hp
      exact ⟨k, hsub hk⟩
    · rcases List.mem_cons.mp hp with rfl | hp
      · obtain ⟨k, hk, -⟩ := hptr.resolve_left hzero
        exact ⟨k, hk⟩
      · obtain ⟨k, hk⟩ := hheld p hp
        exact ⟨k, hsub hk⟩
  · intro y hy
    simp only at hy
    split_ifs at hy with hzero
    · obtain ⟨k, hk, hle⟩ := hpay y hy
      exact ⟨k, hsub hk, hle⟩
    · rcases List.mem_cons.mp hy with rfl | hy
      · exact hptr.resolve_left hzero
      · obtain ⟨k, hk, hle⟩ := hpay y hy
        exact ⟨k, hsub hk, hle⟩

omit hI in
/-- A pointer that may be given back, for the first time or again, is that of a slot. -/
theorem slot_of_free {p : ℕ} (h : Beside Rep c d)
    (hact : c.allowed I (regionRules size) (.free p) = true) : ∃ k, (p, k) ∈ slots 0 d.heap := by
  rcases Client.allowed_free.mp hact with hp | ⟨-, hp⟩
  · obtain ⟨y, hy, rfl⟩ := List.mem_map.mp hp
    obtain ⟨k, hk, -⟩ := h.held.live y (h.live ▸ hy)
    exact ⟨k, hk⟩
  · exact h.held.returned p (h.returned ▸ hp)

theorem exec_free {p : ℕ} (h : Beside Rep c d)
    (hact : c.allowed I (regionRules size) (.free p) = true) :
    ∃ c' d', c.exec I (.free p) = some c' ∧ d.exec (interface size) (.free p) = some d' ∧
      Beside Rep c' d' := by
  obtain ⟨k, hk⟩ := slot_of_free h hact
  obtain ⟨hheap, hlive, hret, hlog, hsizes, hheld, hpay⟩ := id h
  obtain ⟨pre, b, post, hbs, heq, -⟩ := mem_slots_split hk
  simp only [Nat.zero_add] at heq
  subst heq
  rw [hbs] at hheap hsizes
  obtain ⟨h', hfree, hrep⟩ := hI.free hheap hsizes
  rw [← hbs] at hfree hrep
  have hJ : (interface size).free (span pre + 16) d.heap =
      some ((Slots.free (span pre + 16) d.heap).1, (Slots.free (span pre + 16) d.heap).2) := rfl
  refine ⟨_, _, Client.exec_free hfree, Client.exec_free hJ,
    ⟨hrep, by simp only [hlive], hret, by simp only [hlog], free_sizes (hbs ▸ hsizes), ?_, ?_⟩⟩
  · simp only [free_slots]
    exact hheld
  · simp only [free_slots]
    exact fun y hy => hpay y (List.mem_filter.mp hy).1

theorem exec_write {p i : ℕ} {v : UInt8} (h : Beside Rep c d)
    (hact : c.allowed I (regionRules size) (.write p i v) = true) :
    ∃ c' d', c.exec I (.write p i v) = some c' ∧ d.exec (interface size) (.write p i v) = some d' ∧
      Beside Rep c' d' := by
  obtain ⟨y, hy, rfl, hi⟩ := Client.allowed_write.mp hact
  obtain ⟨pre, b, post, hbs, heq, hsize, -⟩ := hI.block h hy
  obtain ⟨hheap, hlive, hret, hlog, hheld⟩ := h
  refine ⟨_, _, rfl, rfl, ⟨?_, hlive, hret, hlog, hheld⟩⟩
  simp only [interface, heq]
  rw [hbs] at hheap ⊢
  exact hI.poke v hheap (hsize ▸ hi)

theorem exec (h : Beside Rep c d) (hact : c.allowed I (regionRules size) act = true) :
    ∃ c' d', c.exec I act = some c' ∧ d.exec (interface size) act = some d' ∧
      Beside Rep c' d' := by
  cases act with
  | malloc n => exact hI.exec_malloc h hact
  | free p => exact hI.exec_free h hact
  | reset =>
    obtain ⟨hcode, hrep⟩ := hI.reset h.heap
    refine ⟨_, _, rfl, rfl, ⟨hrep, rfl, rfl, by simp only [h.log, hcode]; rfl, ?_, ?_, ?_⟩⟩
    · exact fun b hb => absurd hb List.not_mem_nil
    · exact fun p hp => absurd hp List.not_mem_nil
    · exact fun y hy => absurd hy List.not_mem_nil
  | write p i v => exact hI.exec_write h hact

/-- An implementation and the abstract allocator make the same steps. -/
theorem step_rel (h : Beside Rep c d) (act : Action) : Option.Rel (Beside Rep)
    (c.step I (regionRules size) act) (d.step (interface size) (regionRules size) act) := by
  unfold Client.step
  rw [hI.allowed_eq h]
  split_ifs with hact
  · obtain ⟨c', d', hc, hd, hbeside⟩ := hI.exec h hact
    rw [hc, hd]
    exact .some hbeside
  · exact .none

theorem run_rel {h : σ} (hrep : Rep h []) (acts : List Action) : Option.Rel (Beside Rep)
    ((Client.machine I (regionRules size) h).run { heap := h } acts)
    ((Client.machine (interface size) (regionRules size) []).run { heap := [] } acts) := by
  refine Machine.run_rel (R := Beside Rep) (fun _ _ act h => hI.step_rel h act) ?_ acts
  refine ⟨hrep, rfl, rfl, rfl, ?_, ?_, ?_⟩
  · exact fun b hb => absurd hb List.not_mem_nil
  · exact fun p hp => absurd hp List.not_mem_nil
  · exact fun y hy => absurd hy List.not_mem_nil

end Mirrors

end LowLevel.Allocators.Slots
