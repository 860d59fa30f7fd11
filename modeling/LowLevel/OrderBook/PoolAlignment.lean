import LowLevel.OrderBook.PoolBytes

/-! # Where the pool reads and writes links

The links of free slots are accessed as objects of type `Pointer`, which have to
be aligned to eight bytes. The slots follow one another at the size of an
element, if that is more than the size of a link, and nothing rounds it up.
Memory is traced here: it notes the addresses of these accesses.
-/

namespace LowLevel.OrderBook.PoolBytes

/-- Memory, and the addresses at which a `Pointer` was read or written. -/
structure Traced where
  mem : Memory
  accesses : List ℕ := []

namespace Traced

/-- `pointer->next = next` -/
def setNext (t : Traced) (pointer next : ℕ) : Traced :=
  ⟨t.mem.write64 pointer next, pointer :: t.accesses⟩

/-- `pointer->next` -/
def next (t : Traced) (pointer : ℕ) : ℕ × Traced :=
  (t.mem.read64 pointer, { t with accesses := pointer :: t.accesses })

def linkSlots (buffer length used : ℕ) : ℕ → ℕ → Traced → Option Traced
  | 0, _, _ => none
  | fuel + 1, current, t =>
    if buffer < current then
      let current := (current + 2 ^ 64 - used) % 2 ^ 64
      if inRegion buffer length current then
        linkSlots buffer length used fuel current (t.setNext current ((current + used) % 2 ^ 64))
      else none
    else some t

end Traced

structure TracedPool where
  buffer : ℕ
  freeHead : ℕ
  mem : Traced

namespace TracedPool

def construct (sizeofT size mmap : ℕ) (m : Memory) : Option TracedPool :=
  if mmap = Allocators.MAP_FAILED then none
  else
    let length := regionSize sizeofT size
    let current := (mmap + (size - 1) * usedSize sizeofT % 2 ^ 64) % 2 ^ 64
    let t : Traced := { mem := m }
    if inRegion mmap length current then
      ((t.setNext current 0).linkSlots mmap length (usedSize sizeofT) (size + 1) current).map
        fun t => ⟨mmap, mmap, t⟩
    else none

def full (p : TracedPool) : Bool := p.freeHead = 0

def allocate (p : TracedPool) : ℕ × TracedPool :=
  if p.full then (0, p)
  else
    let (freeHead, mem) := p.mem.next p.freeHead
    (p.freeHead, { p with freeHead, mem })

def deallocate (p : TracedPool) (pointer : ℕ) : TracedPool :=
  { p with freeHead := pointer, mem := p.mem.setNext pointer p.freeHead }

end TracedPool

/-- A pool with the slots its client holds, and all pointers that were returned to it. -/
structure TracedClient where
  pool : TracedPool
  live : List ℕ := []
  returned : List ℕ := []

namespace TracedClient

def step (sizeofT : ℕ) (c : TracedClient) : Action → Option TracedClient
  | .allocate =>
    let r := c.pool.allocate
    some ⟨r.2, if r.1 = 0 then c.live else r.1 :: c.live, r.1 :: c.returned⟩
  | .deallocate pointer =>
    if pointer ∈ c.live then
      some { c with pool := c.pool.deallocate pointer, live := c.live.erase pointer }
    else none
  | .write pointer i v =>
    if pointer ∈ c.live ∧ i < usedSize sizeofT then
      let mem := { c.pool.mem with mem := c.pool.mem.mem.poke (pointer + i) v }
      some { c with pool := { c.pool with mem } }
    else none

def machine (sizeofT : ℕ) (p : TracedPool) : Machine TracedClient Action :=
  ⟨{ pool := p }, step sizeofT⟩

/-- Every access to a link is aligned, and so is every pointer returned. -/
def Aligned (alignofT : ℕ) (c : TracedClient) : Prop :=
  (∀ p ∈ c.pool.mem.accesses, 8 ∣ p) ∧ ∀ p ∈ c.returned, alignofT ∣ p

end TracedClient

section Erase

def TracedPool.erase (p : TracedPool) : Pool := ⟨p.buffer, p.freeHead, p.mem.mem⟩

def TracedClient.erase (c : TracedClient) : Client := ⟨c.pool.erase, c.live⟩

theorem linkSlots_erase (buffer length used fuel current : ℕ) (t : Traced) :
    (t.linkSlots buffer length used fuel current).map Traced.mem =
      linkSlots buffer length used fuel current t.mem := by
  induction fuel generalizing current t with
  | zero => rfl
  | succ fuel ih =>
    rw [Traced.linkSlots, linkSlots]
    simp only
    split_ifs
    · exact ih ..
    · rfl
    · rfl

theorem construct_erase (sizeofT size mmap : ℕ) (m : Memory) :
    (TracedPool.construct sizeofT size mmap m).map TracedPool.erase =
      construct sizeofT size mmap m := by
  unfold TracedPool.construct construct
  simp only
  split_ifs
  · rfl
  · have hrun := linkSlots_erase mmap (regionSize sizeofT size) (usedSize sizeofT) (size + 1)
      ((mmap + (size - 1) * usedSize sizeofT % 2 ^ 64) % 2 ^ 64)
      (Traced.setNext { mem := m } ((mmap + (size - 1) * usedSize sizeofT % 2 ^ 64) % 2 ^ 64) 0)
    change _ = Option.map _ (linkSlots _ _ _ _ _ (Traced.setNext { mem := m } _ 0).mem)
    rw [← hrun, Option.map_map, Option.map_map]
    rfl
  · rfl

theorem allocate_erase (p : TracedPool) :
    (p.allocate.1, p.allocate.2.erase) = allocate p.erase := by
  unfold TracedPool.allocate allocate
  have hfull : full p.erase = p.full := rfl
  rw [hfull]
  split_ifs <;> rfl

theorem step_erase (sizeofT : ℕ) (c : TracedClient) (act : Action) :
    (c.step sizeofT act).map TracedClient.erase = step sizeofT c.erase act := by
  cases act with
  | allocate =>
    have hresult : c.pool.allocate.1 = (allocate c.pool.erase).1 :=
      congrArg Prod.fst (allocate_erase c.pool)
    have hpool : c.pool.allocate.2.erase = (allocate c.pool.erase).2 :=
      congrArg Prod.snd (allocate_erase c.pool)
    simp only [TracedClient.step, step, TracedClient.erase, Option.map_some, hresult, hpool]
    rfl
  | deallocate p =>
    rw [TracedClient.step, step]
    by_cases hp : p ∈ c.live
    · rw [if_pos hp, if_pos (show p ∈ c.erase.live from hp)]
      rfl
    · rw [if_neg hp, if_neg (show p ∉ c.erase.live from hp)]
      rfl
  | write p i v =>
    rw [TracedClient.step, step]
    by_cases hp : p ∈ c.live ∧ i < usedSize sizeofT
    · rw [if_pos hp, if_pos (show p ∈ c.erase.live ∧ _ from hp)]
      rfl
    · rw [if_neg hp, if_neg (show ¬ (p ∈ c.erase.live ∧ _) from hp)]
      rfl

end Erase

section Accesses

variable {buffer length sizeofT size used n fuel p : ℕ} {t t' : Traced}

theorem linkSlots_accesses (hused : 0 < used) (hend : buffer + n * used < 2 ^ 64)
    (hrun : t.linkSlots buffer length used fuel (buffer + n * used) = some t') :
    p ∈ t'.accesses ↔ p ∈ t.accesses ∨ ∃ i < n, p = buffer + i * used := by
  cases fuel with
  | zero => cases hrun
  | succ fuel =>
    induction n generalizing fuel t with
    | zero =>
      rw [Traced.linkSlots, if_neg (by omega)] at hrun
      obtain rfl := Option.some.inj hrun
      simp
    | succ n ih =>
      rw [Nat.succ_mul] at hend
      have hback : (buffer + (n + 1) * used + 2 ^ 64 - used) % 2 ^ 64 = buffer + n * used := by
        rw [step_back (by rw [Nat.succ_mul]; omega) (by rw [Nat.succ_mul]; omega) hused,
          Nat.succ_mul]
        omega
      rw [Traced.linkSlots, if_pos (by rw [Nat.succ_mul]; omega)] at hrun
      simp only [hback] at hrun
      obtain ⟨-, hrun⟩ := Option.ite_none_right_eq_some.mp hrun
      cases fuel with
      | zero => cases hrun
      | succ fuel =>
        rw [ih (by omega) fuel hrun, Traced.setNext, List.mem_cons]
        constructor
        · rintro ((rfl | hp) | ⟨i, hi, rfl⟩)
          · exact .inr ⟨n, Nat.lt_succ_self n, rfl⟩
          · exact .inl hp
          · exact .inr ⟨i, hi.trans (Nat.lt_succ_self n), rfl⟩
        · rintro (hp | ⟨i, hi, rfl⟩)
          · exact .inl (.inr hp)
          · rcases Nat.lt_succ_iff_lt_or_eq.mp hi with hi | rfl
            · exact .inr ⟨i, hi, rfl⟩
            · exact .inl (.inl rfl)

/-- The constructor accesses every slot, and nothing else. -/
theorem construct_accesses {mmap : ℕ} {m : Memory} {pool : TracedPool} (hsize : 1 ≤ size)
    (hend : mmap + size * usedSize sizeofT ≤ 2 ^ 63)
    (hpool : TracedPool.construct sizeofT size mmap m = some pool) :
    p ∈ pool.mem.accesses ↔ p ∈ slots mmap sizeofT size := by
  obtain ⟨-, hpool⟩ := Option.ite_none_left_eq_some.mp hpool
  obtain ⟨-, hpool⟩ := Option.ite_none_right_eq_some.mp hpool
  obtain ⟨t, hrun, rfl⟩ := Option.map_eq_some_iff.mp hpool
  have hused : 0 < usedSize sizeofT := Nat.lt_of_lt_of_le (by decide) (usedSize_le sizeofT).2
  have hlast : (size - 1) * usedSize sizeofT + usedSize sizeofT = size * usedSize sizeofT := by
    rw [← Nat.succ_mul, Nat.succ_eq_add_one, Nat.sub_add_cancel hsize]
  rw [lastSlot_eq (regionSize_eq (by omega)) hsize (by omega)] at hrun
  rw [linkSlots_accesses hused (by omega) hrun, mem_slots, Traced.setNext, List.mem_singleton]
  constructor
  · rintro (rfl | ⟨i, hi, rfl⟩)
    · exact ⟨size - 1, by omega, rfl⟩
    · exact ⟨i, by omega, rfl⟩
  · rintro ⟨i, hi, rfl⟩
    rcases Nat.lt_or_ge i (size - 1) with hlt | hge
    · exact .inr ⟨i, hlt, rfl⟩
    · obtain rfl : i = size - 1 := by omega
      exact .inl rfl

theorem allocate_accesses (pool : TracedPool) : pool.allocate.1 = pool.freeHead ∧
    ((pool.freeHead = 0 ∧ pool.allocate.2.mem.accesses = pool.mem.accesses) ∨
      (pool.freeHead ≠ 0 ∧
        pool.allocate.2.mem.accesses = pool.freeHead :: pool.mem.accesses)) := by
  unfold TracedPool.allocate TracedPool.full
  split_ifs with hfull
  · have hzero := of_decide_eq_true hfull
    exact ⟨hzero.symm, .inl ⟨hzero, rfl⟩⟩
  · exact ⟨rfl, .inr ⟨fun hzero => hfull (decide_eq_true hzero), rfl⟩⟩

end Accesses

/-- The slots are what the pool accesses and what it returns. -/
structure TracedKept (buffer sizeofT size : ℕ) (c : TracedClient) : Prop where
  kept : ∃ free, Kept buffer sizeofT size c.erase free
  accesses : ∀ p, p ∈ c.pool.mem.accesses ↔ p ∈ slots buffer sizeofT size
  returned : ∀ p ∈ c.returned, p = 0 ∨ p ∈ slots buffer sizeofT size

section TracedRuns

variable {buffer sizeofT size p : ℕ} {c c' : TracedClient} {act : Action}

theorem TracedKept.head (h : TracedKept buffer sizeofT size c) :
    c.pool.freeHead = 0 ∨ c.pool.freeHead ∈ slots buffer sizeofT size := by
  obtain ⟨free, hkept⟩ := h.kept
  rcases hkept.head with ⟨hzero, -⟩ | ⟨-, rest, rfl, -⟩
  · exact .inl hzero
  · exact .inr (hkept.slot_free (List.mem_cons_self ..))

theorem TracedKept.live (h : TracedKept buffer sizeofT size c) (hp : p ∈ c.live) :
    p ∈ slots buffer sizeofT size := by
  obtain ⟨free, hkept⟩ := h.kept
  exact hkept.slot_live hp

theorem TracedKept.access (h : TracedKept buffer sizeofT size c)
    (hp : p ∈ slots buffer sizeofT size) (q : ℕ) :
    q ∈ p :: c.pool.mem.accesses ↔ q ∈ slots buffer sizeofT size := by
  rw [List.mem_cons, h.accesses]
  constructor
  · rintro (rfl | hq)
    · exact hp
    · exact hq
  · exact .inr

theorem TracedKept.step (h : TracedKept buffer sizeofT size c) (hbuffer : 0 < buffer)
    (hend : buffer + size * usedSize sizeofT ≤ 2 ^ 63) (hstep : c.step sizeofT act = some c') :
    TracedKept buffer sizeofT size c' := by
  obtain ⟨free, hkept⟩ := h.kept
  have herase : PoolBytes.step sizeofT c.erase act = some c'.erase := by
    rw [← step_erase, hstep, Option.map_some]
  have hkept' := hkept.step hbuffer hend herase
  cases act with
  | allocate =>
    obtain rfl := Option.some.inj hstep
    obtain ⟨hresult, haccesses⟩ := allocate_accesses c.pool
    refine ⟨hkept', ?_, ?_⟩
    · rcases haccesses with ⟨-, haccesses⟩ | ⟨hne, haccesses⟩
      · rw [haccesses]
        exact h.accesses
      · rw [haccesses]
        exact h.access (h.head.resolve_left hne)
    · intro p hp
      rcases List.mem_cons.mp hp with rfl | hp
      · rw [hresult]
        exact h.head
      · exact h.returned p hp
  | deallocate p =>
    obtain ⟨hp, hc⟩ := Option.ite_none_right_eq_some.mp hstep
    obtain rfl := Option.some.inj hc
    exact ⟨hkept', h.access (h.live hp), h.returned⟩
  | write p i v =>
    obtain ⟨-, hc⟩ := Option.ite_none_right_eq_some.mp hstep
    obtain rfl := Option.some.inj hc
    exact ⟨hkept', h.accesses, h.returned⟩

theorem TracedKept.init {mmap : ℕ} (m : Memory) (hsize : 1 ≤ size) (hbuffer : 0 < mmap)
    (hend : mmap + size * usedSize sizeofT ≤ 2 ^ 63) :
    ∃ pool, TracedPool.construct sizeofT size mmap m = some pool ∧
      TracedKept mmap sizeofT size { pool } := by
  obtain ⟨q, hq, hkept⟩ := construct_kept m (regionSize_eq (by omega)) hsize hbuffer hend
  rw [← construct_erase] at hq
  obtain ⟨pool, hpool, rfl⟩ := Option.map_eq_some_iff.mp hq
  refine ⟨pool, hpool, ⟨_, hkept⟩, fun p => construct_accesses hsize hend hpool, ?_⟩
  intro p hp
  cases hp

end TracedRuns

section Alignment

variable {buffer sizeofT size k p : ℕ}

theorem dvd_usedSize_iff : 8 ∣ usedSize sizeofT ↔ sizeofT ≤ 8 ∨ 8 ∣ sizeofT := by
  unfold usedSize
  rcases Nat.le_total sizeofT 8 with hle | hle
  · rw [max_eq_right hle]
    exact iff_of_true (dvd_refl 8) (.inl hle)
  · rw [max_eq_left hle]
    constructor
    · exact .inr
    · rintro (hle' | hdvd)
      · rw [hle.antisymm hle']
      · exact hdvd

theorem slots_aligned_iff (hbuffer : 8 ∣ buffer) (hsize : 1 ≤ size) :
    (∀ p ∈ slots buffer sizeofT size, 8 ∣ p) ↔ size = 1 ∨ sizeofT ≤ 8 ∨ 8 ∣ sizeofT := by
  rw [← dvd_usedSize_iff]
  constructor
  · intro hall
    rcases hsize.eq_or_lt with heq | hlt
    · exact .inl heq.symm
    · have hsecond := hall _ (mem_slots.mpr ⟨1, hlt, rfl⟩)
      rw [Nat.one_mul] at hsecond
      exact .inr ((Nat.dvd_add_right hbuffer).mp hsecond)
  · rintro hcond p hp
    obtain ⟨i, hi, rfl⟩ := mem_slots.mp hp
    rcases hcond with rfl | hdvd
    · obtain rfl : i = 0 := by omega
      simpa using hbuffer
    · exact Nat.dvd_add hbuffer (hdvd.mul_left i)

/-- The alignment of an element divides the stride in any case: it divides the size of the element,
and if that is less than eight, it divides eight. -/
theorem slots_dvd (hT : 1 ≤ sizeofT) (hdvd : 2 ^ k ∣ sizeofT) (hk : 2 ^ k ≤ 4096)
    (hpage : 4096 ∣ buffer) (hp : p ∈ slots buffer sizeofT size) : 2 ^ k ∣ p := by
  obtain ⟨i, -, rfl⟩ := mem_slots.mp hp
  have hbuffer : 2 ^ k ∣ buffer := by
    refine dvd_trans ?_ hpage
    have hle : k ≤ 12 := (Nat.pow_le_pow_iff_right (by decide : 1 < 2)).mp hk
    exact pow_dvd_pow 2 hle
  have hused : 2 ^ k ∣ usedSize sizeofT := by
    unfold usedSize
    rcases Nat.le_total sizeofT 8 with hle | hle
    · rw [max_eq_right hle]
      have hk3 : k ≤ 3 := (Nat.pow_le_pow_iff_right (by decide : 1 < 2)).mp
        ((Nat.le_of_dvd hT hdvd).trans hle)
      exact pow_dvd_pow 2 hk3
    · rwa [max_eq_left hle]
  exact Nat.dvd_add hbuffer (hused.mul_left i)

theorem TracedKept.aligned_iff {c : TracedClient} (h : TracedKept buffer sizeofT size c)
    (hT : 1 ≤ sizeofT) (hdvd : 2 ^ k ∣ sizeofT) (hk : 2 ^ k ≤ 4096) (hsize : 1 ≤ size)
    (hpage : 4096 ∣ buffer) :
    c.Aligned (2 ^ k) ↔ size = 1 ∨ sizeofT ≤ 8 ∨ 8 ∣ sizeofT := by
  have hbuffer : 8 ∣ buffer := dvd_trans (by decide) hpage
  have hreturned : ∀ p ∈ c.returned, 2 ^ k ∣ p := by
    intro p hp
    rcases h.returned p hp with rfl | hp
    · exact dvd_zero _
    · exact slots_dvd hT hdvd hk hpage hp
  unfold TracedClient.Aligned
  simp only [h.accesses, slots_aligned_iff hbuffer hsize]
  exact and_iff_left hreturned

/-- In every state of a pool the accesses to its links are aligned exactly if there is one slot
only, or the stride is that of a link, or the size of an element is a multiple of it. -/
theorem aligned_iff_stride {mmap : ℕ} (m : Memory) (hT : 1 ≤ sizeofT) (hdvd : 2 ^ k ∣ sizeofT)
    (hk : 2 ^ k ≤ 4096) (hsize : 1 ≤ size) (hpage : 4096 ∣ mmap) (hbuffer : 0 < mmap)
    (hend : mmap + size * usedSize sizeofT ≤ 2 ^ 63) :
    ∃ pool, TracedPool.construct sizeofT size mmap m = some pool ∧
      ∀ c, (TracedClient.machine sizeofT pool).Reachable c →
        (c.Aligned (2 ^ k) ↔ size = 1 ∨ sizeofT ≤ 8 ∨ 8 ∣ sizeofT) := by
  obtain ⟨pool, hpool, hinit⟩ := TracedKept.init m hsize hbuffer hend
  refine ⟨pool, hpool, ?_⟩
  intro c hc
  have hkept : TracedKept mmap sizeofT size c :=
    hc.invariant (P := TracedKept mmap sizeofT size) hinit
      fun _ _ _ h hstep => h.step hbuffer hend hstep
  exact hkept.aligned_iff hT hdvd hk hsize hpage

/-- Elements of 24 bytes, as the tests of the pool have them. -/
theorem aligned_iff_stride_orders : ∃ pool c,
    TracedPool.construct 24 3 4096 (fun _ => 0) = some pool ∧
      (TracedClient.machine 24 pool).run { pool } [.allocate, .allocate, .deallocate 4096] =
        some c ∧ c.returned = [4120, 4096] ∧ c.Aligned 8 := by
  have hrun : ((TracedPool.construct 24 3 4096 (fun _ => 0)).bind fun pool =>
      (TracedClient.machine 24 pool).run { pool } [.allocate, .allocate, .deallocate 4096]).map
        TracedClient.returned = some [4120, 4096] := by decide +kernel
  obtain ⟨c, hbind, hreturned⟩ := Option.map_eq_some_iff.mp hrun
  obtain ⟨pool, hpool, hc⟩ := Option.bind_eq_some_iff.mp hbind
  obtain ⟨pool', hpool', hiff⟩ := @aligned_iff_stride 24 3 3 4096 (fun _ => 0) (by decide)
    (by decide) (by decide) (by decide) (by decide) (by decide) (by decide)
  obtain rfl : pool' = pool := Option.some.inj (hpool'.symm.trans hpool)
  exact ⟨pool', c, hpool, hc, hreturned, (hiff c ⟨_, hc⟩).mpr (.inr (.inr (by decide)))⟩

/-- Two elements of three 32-bit numbers: the link of the second slot is at 4108. -/
theorem not_aligned_three_words : ∃ pool,
    TracedPool.construct 12 2 4096 (fun _ => 0) = some pool ∧ 4108 ∈ pool.mem.accesses ∧
      ¬ TracedClient.Aligned 4 { pool } := by
  have hrun : (TracedPool.construct 12 2 4096 (fun _ => 0)).map (fun pool => pool.mem.accesses) =
      some [4096, 4108] := by decide +kernel
  obtain ⟨pool, hpool, haccesses⟩ := Option.map_eq_some_iff.mp hrun
  have hmem : 4108 ∈ pool.mem.accesses := by
    rw [haccesses]
    decide
  refine ⟨pool, hpool, hmem, ?_⟩
  rintro ⟨hall, -⟩
  exact absurd (hall 4108 hmem) (by decide)

end Alignment

end LowLevel.OrderBook.PoolBytes
