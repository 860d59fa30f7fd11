import LowLevel.Allocators.Client
import LowLevel.Foundations.FreeList
import Mathlib.Data.List.Perm.Basic

/-! # The bytes of the pool allocator

The pool on memory: a slot that is not in use holds the address of the next such
slot in its first eight bytes, and a slot in use belongs to its owner. Zero is
the null pointer. The pool is parametrised by the size of an element and the
number of slots.
-/

namespace LowLevel.OrderBook.PoolBytes

open Memory

/-- The bytes of a slot: an element or a link, whichever is larger. -/
def usedSize (sizeofT : ℕ) : ℕ := max sizeofT 8

structure Pool where
  buffer : ℕ
  freeHead : ℕ
  mem : Memory

/-- What `mmap` is asked for. The product is one of `size_t`, and wraps around. -/
def regionSize (sizeofT size : ℕ) : ℕ := size * usedSize sizeofT % 2 ^ 64

/-- Whether a link at this address lies in the region; to store it elsewhere is a fault. -/
def inRegion (buffer length pointer : ℕ) : Bool :=
  buffer ≤ pointer ∧ pointer + 8 ≤ buffer + length

/-- The loop of the constructor: from the last slot down, each slot is linked to the next one. -/
def linkSlots (buffer length used : ℕ) : ℕ → ℕ → Memory → Option Memory
  | 0, _, _ => none
  | fuel + 1, current, m =>
    if buffer < current then
      let current := (current + 2 ^ 64 - used) % 2 ^ 64
      if inRegion buffer length current then
        linkSlots buffer length used fuel current (m.write64 current ((current + used) % 2 ^ 64))
      else none
    else some m

/-- The constructor, given what `mmap` returns; without memory it throws. The loop is given one
step for each slot and one to end. -/
def construct (sizeofT size mmap : ℕ) (m : Memory) : Option Pool :=
  if mmap = Allocators.MAP_FAILED then none
  else
    let length := regionSize sizeofT size
    let current := (mmap + (size - 1) * usedSize sizeofT % 2 ^ 64) % 2 ^ 64
    if inRegion mmap length current then
      (linkSlots mmap length (usedSize sizeofT) (size + 1) current (m.write64 current 0)).map
        fun m => ⟨mmap, mmap, m⟩
    else none

def full (p : Pool) : Bool := p.freeHead = 0

def allocate (p : Pool) : ℕ × Pool :=
  if full p then (0, p)
  else (p.freeHead, { p with freeHead := p.mem.read64 p.freeHead })

def deallocate (p : Pool) (pointer : ℕ) : Pool :=
  { p with freeHead := pointer, mem := p.mem.write64 pointer p.freeHead }

structure Client where
  pool : Pool
  live : List ℕ := []

inductive Action where
  | allocate
  | deallocate (pointer : ℕ)
  | write (pointer i : ℕ) (v : UInt8)
  deriving DecidableEq

/-- A client gives back slots it holds, and stores anything into them. -/
def step (sizeofT : ℕ) (c : Client) : Action → Option Client
  | .allocate =>
    let r := allocate c.pool
    some ⟨r.2, if r.1 = 0 then c.live else r.1 :: c.live⟩
  | .deallocate pointer =>
    if pointer ∈ c.live then some ⟨deallocate c.pool pointer, c.live.erase pointer⟩ else none
  | .write pointer i v =>
    if pointer ∈ c.live ∧ i < usedSize sizeofT then
      some { c with pool := { c.pool with mem := c.pool.mem.poke (pointer + i) v } }
    else none

def machine (sizeofT : ℕ) (p : Pool) : Machine Client Action := ⟨{ pool := p }, step sizeofT⟩

def slots (buffer sizeofT size : ℕ) : List ℕ :=
  (List.range size).map fun i => buffer + i * usedSize sizeofT

def toLink (v : ℕ) : Option ℕ := if v = 0 then none else some v

def linkAt (m : Memory) (p : ℕ) : Option (Option ℕ) := some (toLink (m.read64 p))

section Slots

variable {buffer sizeofT size p q : ℕ}

theorem usedSize_le (sizeofT : ℕ) : sizeofT ≤ usedSize sizeofT ∧ 8 ≤ usedSize sizeofT :=
  ⟨le_max_left .., le_max_right ..⟩

theorem mem_slots : p ∈ slots buffer sizeofT size ↔
    ∃ i < size, p = buffer + i * usedSize sizeofT := by
  simp only [slots, List.mem_map, List.mem_range, eq_comm]

theorem slots_apart (hp : p ∈ slots buffer sizeofT size) (hq : q ∈ slots buffer sizeofT size)
    (hne : p ≠ q) : p + usedSize sizeofT ≤ q ∨ q + usedSize sizeofT ≤ p := by
  obtain ⟨i, -, rfl⟩ := mem_slots.mp hp
  obtain ⟨j, -, rfl⟩ := mem_slots.mp hq
  rcases Nat.lt_trichotomy i j with hij | rfl | hij
  · have := Nat.mul_le_mul_right (usedSize sizeofT) (Nat.succ_le_of_lt hij)
    rw [Nat.succ_mul] at this
    omega
  · exact absurd rfl hne
  · have := Nat.mul_le_mul_right (usedSize sizeofT) (Nat.succ_le_of_lt hij)
    rw [Nat.succ_mul] at this
    omega

theorem slots_nodup (buffer sizeofT size : ℕ) : (slots buffer sizeofT size).Nodup := by
  refine List.nodup_range.map ?_
  intro i j hij
  have hpos : 0 < usedSize sizeofT := Nat.lt_of_lt_of_le (by decide) (usedSize_le sizeofT).2
  exact Nat.eq_of_mul_eq_mul_right hpos (Nat.add_left_cancel hij)

theorem slots_bounds (hp : p ∈ slots buffer sizeofT size) :
    buffer ≤ p ∧ p + usedSize sizeofT ≤ buffer + size * usedSize sizeofT := by
  obtain ⟨i, hi, rfl⟩ := mem_slots.mp hp
  have := Nat.mul_le_mul_right (usedSize sizeofT) (Nat.succ_le_of_lt hi)
  rw [Nat.succ_mul] at this
  omega

end Slots

section Construct

variable {buffer length used sizeofT size n fuel current : ℕ} {m m' : Memory}

theorem inRegion_iff {pointer : ℕ} : inRegion buffer length pointer = true ↔
    buffer ≤ pointer ∧ pointer + 8 ≤ buffer + length :=
  decide_eq_true_iff

theorem step_back (hle : used ≤ current) (hlt : current < 2 ^ 64) (hused : 0 < used) :
    (current + 2 ^ 64 - used) % 2 ^ 64 = current - used := by
  omega

theorem linkSlots_run (hused : 8 ≤ used) (hroom : n * used ≤ length)
    (hend : buffer + n * used < 2 ^ 64) (hfuel : n < fuel) :
    ∃ m', linkSlots buffer length used fuel (buffer + n * used) m = some m' ∧
      (∀ i < n, m'.read64 (buffer + i * used) = buffer + (i + 1) * used) ∧
      ∀ i, n ≤ i → m'.read64 (buffer + i * used) = m.read64 (buffer + i * used) := by
  induction n generalizing fuel m with
  | zero =>
    obtain ⟨fuel, rfl⟩ : ∃ k, fuel = k + 1 := ⟨fuel - 1, by omega⟩
    refine ⟨m, ?_, fun i hi => by omega, fun i _ => rfl⟩
    rw [linkSlots, if_neg (by omega)]
  | succ n ih =>
    obtain ⟨fuel, rfl⟩ : ∃ k, fuel = k + 1 := ⟨fuel - 1, by omega⟩
    rw [Nat.succ_mul] at hroom hend
    have hback : (buffer + (n + 1) * used + 2 ^ 64 - used) % 2 ^ 64 = buffer + n * used := by
      rw [step_back (by rw [Nat.succ_mul]; omega) (by rw [Nat.succ_mul]; omega) (by omega),
        Nat.succ_mul]
      omega
    have hnext : (buffer + n * used + used) % 2 ^ 64 = buffer + (n + 1) * used := by
      rw [Nat.mod_eq_of_lt (by omega), Nat.succ_mul, Nat.add_assoc]
    have hin : inRegion buffer length (buffer + n * used) = true := inRegion_iff.mpr (by omega)
    obtain ⟨m', hrun, hlinked, hsame⟩ := @ih fuel
      (m.write64 (buffer + n * used) (buffer + (n + 1) * used)) (by omega) (by omega) (by omega)
    refine ⟨m', ?_, fun i hi => ?_, fun i hi => ?_⟩
    · rw [linkSlots, if_pos (by rw [Nat.succ_mul]; omega)]
      simp only [hback, hnext, if_pos hin, hrun]
    · rcases Nat.lt_succ_iff_lt_or_eq.mp hi with hlt | rfl
      · exact hlinked i hlt
      · rw [hsame i le_rfl, read64_write64_self (by rw [Nat.succ_mul]; omega)]
    · have hle := Nat.mul_le_mul_right used hi
      rw [Nat.succ_mul] at hle
      rw [hsame i (by omega), read64_write64_of_disjoint (by omega)]

/-- The loop leaves the region unless it ends at its first byte. -/
theorem linkSlots_dvd (hused : 0 < used) (hlength : used ≤ length)
    (hend : buffer + length ≤ 2 ^ 63) (hin : inRegion buffer length current = true)
    (hrun : linkSlots buffer length used fuel current m = some m') : used ∣ current - buffer := by
  induction fuel generalizing current m with
  | zero => cases hrun
  | succ fuel ih =>
    obtain ⟨hlow, hhigh⟩ := inRegion_iff.mp hin
    rw [linkSlots] at hrun
    split at hrun
    · obtain ⟨hin', hrun⟩ := Option.ite_none_right_eq_some.mp hrun
      have hnext := inRegion_iff.mp hin'
      -- below the region the address is less than the buffer or, past zero, in the upper half
      have hle : buffer + used ≤ current := by omega
      rw [step_back (by omega) (by omega) hused] at hin' hrun
      obtain ⟨k, hk⟩ := ih hin' hrun
      exact ⟨k + 1, by rw [Nat.mul_succ]; omega⟩
    · rw [show current - buffer = 0 by omega]
      exact dvd_zero used

theorem regionSize_eq (h : size * usedSize sizeofT < 2 ^ 64) :
    regionSize sizeofT size = size * usedSize sizeofT :=
  Nat.mod_eq_of_lt h

theorem lastSlot_eq (hregion : regionSize sizeofT size = n * usedSize sizeofT)
    (hn : 1 ≤ n) (hend : buffer + n * usedSize sizeofT < 2 ^ 64) :
    (buffer + (size - 1) * usedSize sizeofT % 2 ^ 64) % 2 ^ 64 =
      buffer + (n - 1) * usedSize sizeofT := by
  have hwrap := Nat.div_add_mod (size * usedSize sizeofT) (2 ^ 64)
  rw [show size * usedSize sizeofT % 2 ^ 64 = _ from hregion] at hwrap
  have hle := Nat.mul_le_mul_right (usedSize sizeofT) hn
  rw [Nat.sub_one_mul, Nat.sub_one_mul]
  omega

theorem region_of_construct (hused : usedSize sizeofT < 2 ^ 64) (hsize : 1 ≤ size)
    (hend : buffer + regionSize sizeofT size ≤ 2 ^ 63)
    (hpool : (construct sizeofT size buffer m).isSome) :
    ∃ n, 1 ≤ n ∧ regionSize sizeofT size = n * usedSize sizeofT := by
  obtain ⟨pool, hpool⟩ := Option.isSome_iff_exists.mp hpool
  obtain ⟨-, hpool⟩ := Option.ite_none_left_eq_some.mp hpool
  obtain ⟨hin, hpool⟩ := Option.ite_none_right_eq_some.mp hpool
  obtain ⟨m', hrun, -⟩ := Option.map_eq_some_iff.mp hpool
  have hle := Nat.mul_le_mul_right (usedSize sizeofT) hsize
  have hmod : regionSize sizeofT size = size * usedSize sizeofT % 2 ^ 64 := rfl
  have h8 := (usedSize_le sizeofT).2
  have hbounds := inRegion_iff.mp hin
  rw [Nat.sub_one_mul] at hin hrun hbounds
  have hlength : usedSize sizeofT ≤ regionSize sizeofT size := by omega
  have hlast : (buffer + (size * usedSize sizeofT - usedSize sizeofT) % 2 ^ 64) % 2 ^ 64 =
      buffer + (regionSize sizeofT size - usedSize sizeofT) := by
    omega
  rw [hlast] at hin hrun
  obtain ⟨k, hk⟩ := linkSlots_dvd (by omega) hlength hend hin hrun
  refine ⟨k + 1, Nat.succ_pos k, ?_⟩
  rw [Nat.succ_mul, Nat.mul_comm k]
  omega

end Construct

/-- The links visit the free slots, and every slot is either free or held. -/
structure Kept (buffer sizeofT size : ℕ) (c : Client) (free : List ℕ) : Prop where
  chain : FreeChain (linkAt c.pool.mem) (toLink c.pool.freeHead) free
  perm : (free ++ c.live).Perm (slots buffer sizeofT size)

structure Contract (buffer sizeofT size : ℕ) (c : Client) : Prop where
  /-- The list from the head is finite and visits each slot that is not held once. -/
  list : ∃ free, FreeChain (linkAt c.pool.mem) (toLink c.pool.freeHead) free ∧ free.Nodup ∧
    ∀ p, p ∈ free ↔ p ∈ slots buffer sizeofT size ∧ p ∉ c.live
  /-- The slots held are slots, each once. -/
  live : c.live.Nodup ∧ ∀ p ∈ c.live, p ∈ slots buffer sizeofT size
  allocate : (allocate c.pool).1 ≠ 0 →
    ∃ i < size, (allocate c.pool).1 = buffer + i * usedSize sizeofT ∧
      (allocate c.pool).1 ∉ c.live
  null : (PoolBytes.allocate c.pool).1 = 0 ↔ c.live.length = size
  full : full c.pool = true ↔ c.live.length = size
  apart : ∀ p ∈ c.live, ∀ q ∈ c.live, p ≠ q → p + sizeofT ≤ q ∨ q + sizeofT ≤ p
  /-- Neither operation stores into a slot that is held and stays so. -/
  spares : ∀ q ∈ c.live, ∀ i < usedSize sizeofT,
    (PoolBytes.allocate c.pool).2.mem (q + i) = c.pool.mem (q + i) ∧
      ∀ p ∈ c.live, p ≠ q → (deallocate c.pool p).mem (q + i) = c.pool.mem (q + i)

section Runs

variable {buffer sizeofT size : ℕ} {c c' : Client} {free : List ℕ} {act : Action}

theorem Kept.slot_free (h : Kept buffer sizeofT size c free) {p : ℕ} (hp : p ∈ free) :
    p ∈ slots buffer sizeofT size :=
  h.perm.subset (List.mem_append_left _ hp)

theorem Kept.slot_live (h : Kept buffer sizeofT size c free) {p : ℕ} (hp : p ∈ c.live) :
    p ∈ slots buffer sizeofT size :=
  h.perm.subset (List.mem_append_right _ hp)

theorem Kept.nodup (h : Kept buffer sizeofT size c free) : (free ++ c.live).Nodup :=
  h.perm.nodup_iff.mpr (slots_nodup buffer sizeofT size)

theorem Kept.disjoint (h : Kept buffer sizeofT size c free) {p q : ℕ} (hp : p ∈ free)
    (hq : q ∈ c.live) : p ≠ q := by
  rintro rfl
  exact List.disjoint_of_nodup_append h.nodup hp hq

theorem Kept.length (h : Kept buffer sizeofT size c free) :
    free.length + c.live.length = size := by
  have := h.perm.length_eq
  rwa [List.length_append, slots, List.length_map, List.length_range] at this

theorem Kept.head (h : Kept buffer sizeofT size c free) :
    (c.pool.freeHead = 0 ∧ free = []) ∨ (c.pool.freeHead ≠ 0 ∧ ∃ rest,
      free = c.pool.freeHead :: rest ∧
      FreeChain (linkAt c.pool.mem) (toLink (c.pool.mem.read64 c.pool.freeHead)) rest) := by
  have hchain := h.chain
  cases free with
  | nil =>
    have hnull : toLink c.pool.freeHead = none := hchain
    unfold toLink at hnull
    split_ifs at hnull with hzero
    exact Or.inl ⟨hzero, rfl⟩
  | cons p rest =>
    obtain ⟨hlink, n, hn, hrest⟩ := hchain
    unfold toLink at hlink
    split_ifs at hlink with hzero
    obtain rfl := Option.some.inj hlink
    obtain rfl := Option.some.inj hn
    exact Or.inr ⟨hzero, rest, rfl, hrest⟩

theorem Kept.freeHead_lt (h : Kept buffer sizeofT size c free)
    (hend : buffer + size * usedSize sizeofT ≤ 2 ^ 63) : c.pool.freeHead < 2 ^ 64 := by
  rcases h.head with ⟨hzero, -⟩ | ⟨-, rest, rfl, -⟩
  · omega
  · have := slots_bounds (h.slot_free (List.mem_cons_self ..))
    omega

theorem Kept.frame (h : Kept buffer sizeofT size c free) {p : ℕ} {m : Memory} (hp : p ∈ c.live)
    (hm : c.pool.mem.AgreeOutside m p (p + usedSize sizeofT)) :
    FreeChain (linkAt m) (toLink c.pool.freeHead) free := by
  refine h.chain.frame fun q hq => ?_
  have h8 := (usedSize_le sizeofT).2
  have hapart := slots_apart (h.slot_free hq) (h.slot_live hp) (h.disjoint hq hp)
  rw [linkAt, linkAt, hm.read64 (by omega)]

theorem Kept.allocate (h : Kept buffer sizeofT size c free)
    (hstep : step sizeofT c .allocate = some c') : ∃ free', Kept buffer sizeofT size c' free' := by
  obtain rfl := Option.some.inj hstep
  rcases h.head with ⟨hzero, rfl⟩ | ⟨hne, rest, rfl, hrest⟩
  · refine ⟨[], ?_⟩
    simp only [PoolBytes.allocate, PoolBytes.full, hzero, decide_true, if_true]
    exact h
  · refine ⟨rest, ?_, ?_⟩
    · simpa only [PoolBytes.allocate, PoolBytes.full, hne, decide_false, Bool.false_eq_true,
        if_false] using hrest
    · simp only [PoolBytes.allocate, PoolBytes.full, hne, decide_false, Bool.false_eq_true,
        if_false]
      exact List.perm_middle.trans h.perm

theorem Kept.deallocate (h : Kept buffer sizeofT size c free) (hbuffer : 0 < buffer)
    (hend : buffer + size * usedSize sizeofT ≤ 2 ^ 63) {p : ℕ}
    (hstep : step sizeofT c (.deallocate p) = some c') :
    ∃ free', Kept buffer sizeofT size c' free' := by
  obtain ⟨hp, hc⟩ := Option.ite_none_right_eq_some.mp hstep
  obtain rfl := Option.some.inj hc
  have hbounds := slots_bounds (h.slot_live hp)
  have h8 := (usedSize_le sizeofT).2
  refine ⟨p :: free, ⟨?_, toLink c.pool.freeHead, ?_, ?_⟩, ?_⟩
  · exact if_neg (show p ≠ 0 by omega)
  · simp only [PoolBytes.deallocate, linkAt, read64_write64_self (h.freeHead_lt hend)]
  · exact h.frame hp ((AgreeOutside.refl _ _ _).write64 le_rfl (by omega))
  · refine List.Perm.trans ?_ h.perm
    rw [List.cons_append]
    exact List.perm_middle.symm.trans (List.Perm.append_left _ (List.perm_cons_erase hp).symm)

theorem Kept.step (h : Kept buffer sizeofT size c free) (hbuffer : 0 < buffer)
    (hend : buffer + size * usedSize sizeofT ≤ 2 ^ 63)
    (hstep : step sizeofT c act = some c') : ∃ free', Kept buffer sizeofT size c' free' := by
  cases act with
  | allocate => exact h.allocate hstep
  | deallocate p => exact h.deallocate hbuffer hend hstep
  | write p i v =>
    obtain ⟨⟨hp, hi⟩, hc⟩ := Option.ite_none_right_eq_some.mp hstep
    obtain rfl := Option.some.inj hc
    refine ⟨free, h.frame hp ?_, h.perm⟩
    intro x hx
    exact poke_of_ne (by omega)

theorem Kept.null_iff (h : Kept buffer sizeofT size c free) :
    c.pool.freeHead = 0 ↔ c.live.length = size := by
  have hlength := h.length
  rcases h.head with ⟨hzero, rfl⟩ | ⟨hne, rest, rfl, -⟩
  · rw [List.length_nil, Nat.zero_add] at hlength
    exact iff_of_true hzero hlength
  · rw [List.length_cons] at hlength
    exact iff_of_false hne (by omega)

theorem Kept.contract (h : Kept buffer sizeofT size c free) : Contract buffer sizeofT size c := by
  obtain ⟨hfree, hlive, hdisjoint⟩ := List.nodup_append.mp h.nodup
  have hfst : (PoolBytes.allocate c.pool).1 = c.pool.freeHead := by
    unfold PoolBytes.allocate PoolBytes.full
    split_ifs with hzero
    · exact (of_decide_eq_true hzero).symm
    · rfl
  constructor
  case list =>
    refine ⟨free, h.chain, hfree, fun p => ?_⟩
    constructor
    · intro hp
      exact ⟨h.slot_free hp, fun hq => h.disjoint hp hq rfl⟩
    · rintro ⟨hp, hnot⟩
      exact (List.mem_append.mp (h.perm.mem_iff.mpr hp)).resolve_right hnot
  case live => exact ⟨hlive, fun p hp => h.slot_live hp⟩
  case allocate =>
    rw [hfst]
    intro hne
    rcases h.head with ⟨hzero, -⟩ | ⟨-, rest, rfl, -⟩
    · exact absurd hzero hne
    · obtain ⟨i, hi, heq⟩ := mem_slots.mp (h.slot_free (List.mem_cons_self ..))
      exact ⟨i, hi, heq, fun hmem => h.disjoint (List.mem_cons_self ..) hmem rfl⟩
  case null =>
    rw [hfst]
    exact h.null_iff
  case full =>
    rw [PoolBytes.full, decide_eq_true_iff]
    exact h.null_iff
  case apart =>
    intro p hp q hq hne
    have hle := (usedSize_le sizeofT).1
    have := slots_apart (h.slot_live hp) (h.slot_live hq) hne
    omega
  case spares =>
    intro q hq i hi
    constructor
    · unfold PoolBytes.allocate
      split_ifs <;> rfl
    · intro p hp hne
      have h8 := (usedSize_le sizeofT).2
      have := slots_apart (h.slot_live hp) (h.slot_live hq) hne
      exact write64_of_disjoint (by omega)

theorem construct_kept {mmap n : ℕ} (m : Memory)
    (hregion : regionSize sizeofT size = n * usedSize sizeofT) (hn : 1 ≤ n) (hbuffer : 0 < mmap)
    (hend : mmap + n * usedSize sizeofT ≤ 2 ^ 63) :
    ∃ p, construct sizeofT size mmap m = some p ∧
      Kept mmap sizeofT n { pool := p } (slots mmap sizeofT n) := by
  have h8 := (usedSize_le sizeofT).2
  have hslots : n ≤ size := by
    have hle : n * usedSize sizeofT ≤ size * usedSize sizeofT := hregion ▸ Nat.mod_le ..
    exact Nat.le_of_mul_le_mul_right hle (by omega)
  have hlast : (n - 1) * usedSize sizeofT + usedSize sizeofT = n * usedSize sizeofT := by
    rw [← Nat.succ_mul, Nat.succ_eq_add_one, Nat.sub_add_cancel hn]
  have hcurrent := lastSlot_eq hregion hn (show mmap + n * usedSize sizeofT < 2 ^ 64 by omega)
  have hin : inRegion mmap (n * usedSize sizeofT) (mmap + (n - 1) * usedSize sizeofT) = true :=
    inRegion_iff.mpr (by omega)
  obtain ⟨m', hrun, hlinked, hsame⟩ := @linkSlots_run mmap (n * usedSize sizeofT)
    (usedSize sizeofT) (n - 1) (size + 1) (m.write64 (mmap + (n - 1) * usedSize sizeofT) 0) h8
    (by omega) (by omega) (by omega)
  have hlink : ∀ i < n, linkAt m' (mmap + i * usedSize sizeofT) =
      some (if i + 1 < n then some (mmap + (i + 1) * usedSize sizeofT) else none) := by
    intro i hi
    rw [linkAt]
    split_ifs with hnext
    · rw [hlinked i (by omega)]
      exact congrArg some (if_neg (by omega))
    · obtain rfl : i = n - 1 := by omega
      rw [hsame _ le_rfl, read64_write64_self (by omega)]
      rfl
  refine ⟨⟨mmap, mmap, m'⟩, ?_, ?_, ?_⟩
  · rw [construct, if_neg (by rw [Allocators.MAP_FAILED]; omega)]
    simp only [hcurrent, hregion, if_pos hin, hrun, Option.map_some]
  · have hchain := FreeChain.map_range (f := fun i => mmap + i * usedSize sizeofT) hlink
    simp only [if_pos (show 0 < n from hn), Nat.zero_mul, Nat.add_zero] at hchain
    rwa [show toLink mmap = some mmap from if_neg hbuffer.ne']
  · rw [List.append_nil]

theorem Kept.reachable {p : Pool} (h : Kept buffer sizeofT size { pool := p } free)
    (hbuffer : 0 < buffer) (hend : buffer + size * usedSize sizeofT ≤ 2 ^ 63)
    (hc : (machine sizeofT p).Reachable c) : ∃ free', Kept buffer sizeofT size c free' := by
  refine hc.invariant (P := fun c => ∃ free, Kept buffer sizeofT size c free) ⟨_, h⟩ ?_
  rintro c act c' ⟨free, h⟩ hstep
  exact h.step hbuffer hend hstep

/-- The list of a pool has one number of slots only. -/
theorem Kept.size_eq {n : ℕ} (h : Kept buffer sizeofT n c (slots buffer sizeofT n))
    (hcontract : Contract buffer sizeofT size c) (hlive : c.live = []) : n = size := by
  obtain ⟨free, hchain, hnodup, hmem⟩ := hcontract.list
  obtain rfl := hchain.unique h.chain
  have hperm : (slots buffer sizeofT n).Perm (slots buffer sizeofT size) := by
    rw [List.perm_ext_iff_of_nodup hnodup (slots_nodup ..)]
    intro p
    rw [hmem p, hlive]
    exact and_iff_left List.not_mem_nil
  simpa only [slots, List.length_map, List.length_range] using hperm.length_eq

/-- The constructor makes a pool, and the pool keeps its contract in every state that is reachable
then, exactly if the size of the region does not wrap around. -/
theorem pool_contract_iff {mmap : ℕ} (m : Memory) (hsize : 1 ≤ size)
    (hused : usedSize sizeofT < 2 ^ 64) (hbuffer : 0 < mmap)
    (hend : mmap + regionSize sizeofT size ≤ 2 ^ 63) :
    (∃ p, construct sizeofT size mmap m = some p ∧
      ∀ c, (machine sizeofT p).Reachable c → Contract mmap sizeofT size c) ↔
        size * usedSize sizeofT < 2 ^ 64 := by
  constructor
  · rintro ⟨p, hp, hcontract⟩
    obtain ⟨n, hn, hregion⟩ := region_of_construct hused hsize hend (by rw [hp]; rfl)
    rw [hregion] at hend
    obtain ⟨p', hp', hkept⟩ := construct_kept m hregion hn hbuffer hend
    obtain rfl : p' = p := Option.some.inj (hp'.symm.trans hp)
    obtain rfl := hkept.size_eq (hcontract _ ⟨[], rfl⟩) rfl
    omega
  · intro hwrap
    have hregion := regionSize_eq hwrap
    rw [hregion] at hend
    obtain ⟨p, hp, hkept⟩ := construct_kept m hregion hsize hbuffer hend
    refine ⟨p, hp, fun c hc => ?_⟩
    obtain ⟨free, h⟩ := hkept.reachable hbuffer hend hc
    exact h.contract

/-- A pool of three slots of two bytes, of which one is held and written over. -/
theorem pool_contract_iff_three : ∃ p c, construct 2 3 4096 (fun _ => 0) = some p ∧
    (machine 2 p).run { pool := p } [.allocate, .allocate, .write 4096 0 171, .deallocate 4104] =
      some c ∧ c.live = [4096] ∧ Contract 4096 2 3 c := by
  have hrun : ((construct 2 3 4096 (fun _ => 0)).bind fun p => (machine 2 p).run { pool := p }
      [.allocate, .allocate, .write 4096 0 171, .deallocate 4104]).map Client.live =
        some [4096] := by decide +kernel
  obtain ⟨c, hbind, hlive⟩ := Option.map_eq_some_iff.mp hrun
  obtain ⟨p, hp, hc⟩ := Option.bind_eq_some_iff.mp hbind
  obtain ⟨p', hp', hcontract⟩ := (@pool_contract_iff 2 3 4096 (fun _ => 0) (by decide) (by decide)
    (by decide) (by decide)).mpr (by decide)
  obtain rfl : p' = p := Option.some.inj (hp'.symm.trans hp)
  exact ⟨p', c, hp, hc, hlive, hcontract c ⟨_, hc⟩⟩

/-- The region of so many slots of eight bytes has eight bytes, and the pool one slot. -/
theorem not_contract_oneSlot : ∃ p c, construct 8 (2 ^ 61 + 1) 4096 (fun _ => 0) = some p ∧
    (machine 8 p).run { pool := p } [.allocate] = some c ∧ c.live = [4096] ∧
      (allocate c.pool).1 = 0 ∧ ¬ Contract 4096 8 (2 ^ 61 + 1) c := by
  have hrun : ((construct 8 (2 ^ 61 + 1) 4096 (fun _ => 0)).bind fun p =>
      (machine 8 p).run { pool := p } [.allocate]).map (fun c => (c.live, (allocate c.pool).1)) =
        some ([4096], 0) := by decide +kernel
  obtain ⟨c, hbind, heq⟩ := Option.map_eq_some_iff.mp hrun
  obtain ⟨p, hp, hc⟩ := Option.bind_eq_some_iff.mp hbind
  obtain ⟨hlive, hnull⟩ := Prod.mk.inj heq
  refine ⟨p, c, hp, hc, hlive, hnull, ?_⟩
  intro hcontract
  have hlength := hcontract.null.mp hnull
  rw [hlive] at hlength
  cases hlength

end Runs

end LowLevel.OrderBook.PoolBytes
