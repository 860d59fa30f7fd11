import LowLevel.Foundations.Turns
import Mathlib.Data.UInt

/-! # Cells and counters of the bounded queues

The single- and the multi-producer queue share their ring of cells, their
`dequeue`, and the last stores of their `enqueue`. Every thread moves by one
load or store at a time. Counters are 64-bit and wrap; a counter of ticket `t`
is `t` modulo `2 ^ 64`, and a queue has a power of two of cells, so the ticket
stays at cell `t % S` across the wrap.
-/

namespace LowLevel.Queues

variable {T : Type*}

/-- The sizes that the `static_assert` of the queues admits. -/
def Admitted (S : UInt64) : Prop := S ≠ 0 ∧ S &&& (S - 1) = 0

instance (S : UInt64) : Decidable (Admitted S) := inferInstanceAs (Decidable (_ ∧ _))

/-- The index `pos & mask_`. -/
def slot (S pos : UInt64) : ℕ := (pos &&& (S - 1)).toNat

abbrev Buffer (T : Type*) := ℕ → Cell UInt64 T

def Buffer.init : Buffer T := fun i => ⟨UInt64.ofNat i, .unspecified⟩

def Buffer.setSequence (buffer : Buffer T) (i : ℕ) (sequence : UInt64) : Buffer T :=
  Function.update buffer i { buffer i with sequence }

def Buffer.setData (buffer : Buffer T) (i : ℕ) (data : Content T) : Buffer T :=
  Function.update buffer i { buffer i with data }

/-- The consumer in `dequeue`. A read of the data is not atomic. -/
inductive Consumer (T : Type*) where
  | idle
  | wait (pos : UInt64)
  | read (pos : UInt64)
  | reading (pos : UInt64)
  | release (pos : UInt64) (data : T)
  | advance (pos : UInt64) (data : T)

/-- The part of the two queues that `dequeue` works on, and the values it has returned. -/
structure Queue (T : Type*) where
  buffer : Buffer T := Buffer.init
  dequeuePtr : UInt64 := 0
  consumer : Consumer T := .idle
  received : List T := []

/-- One step of the consumer. The values of its completed calls are recorded. -/
def Queue.dequeue (S : UInt64) (junk : T) (q : Queue T) : Queue T :=
  match q.consumer with
  | .idle => { q with consumer := .wait q.dequeuePtr }
  | .wait pos =>
    if (q.buffer (slot S pos)).sequence = pos + 1 then { q with consumer := .read pos } else q
  | .read pos => { q with consumer := .reading pos }
  | .reading pos =>
    -- `std::move` leaves an unspecified value behind
    { q with
      buffer := q.buffer.setData (slot S pos) .unspecified
      consumer := .release pos ((q.buffer (slot S pos)).data.read junk) }
  | .release pos data =>
    { q with
      buffer := q.buffer.setSequence (slot S pos) (pos + S)
      consumer := .advance pos data }
  | .advance pos data =>
    { q with dequeuePtr := pos + 1, received := q.received ++ [data], consumer := .idle }

def Queue.taken (q : Queue T) : List T :=
  match q.consumer with
  | .release _ data | .advance _ data => q.received ++ [data]
  | _ => q.received

/-- A producer that owns the cell of `pos`, before, during or after the write of its data. -/
structure Writer (T : Type*) where
  pos : UInt64
  data : T
  phase : WritePhase := .before

/-- The last steps of `enqueue`: write the data and publish the cell. -/
def Writer.store (S : UInt64) (buffer : Buffer T) (w : Writer T) : Buffer T × Option (Writer T) :=
  match w.phase with
  | .before => (buffer.setData (slot S w.pos) .torn, some { w with phase := .during })
  | .during => (buffer.setData (slot S w.pos) (.value w.data), some { w with phase := .after })
  | .after => (buffer.setSequence (slot S w.pos) (w.pos + 1), none)

theorem Writer.same_of_store {S : UInt64} {buffer : Buffer T} {w w' : Writer T}
    (h : (w.store S buffer).2 = some w') : w'.pos = w.pos ∧ w'.data = w.data := by
  unfold Writer.store at h
  cases hphase : w.phase <;> rw [hphase] at h
  · rw [← Option.some.inj h]
    exact ⟨rfl, rfl⟩
  · rw [← Option.some.inj h]
    exact ⟨rfl, rfl⟩
  · cases h

section Counters

variable {S : UInt64}

theorem ofNat_eq_iff {a b : ℕ} : UInt64.ofNat a = UInt64.ofNat b ↔ a % 2 ^ 64 = b % 2 ^ 64 := by
  rw [← UInt64.toNat_inj, UInt64.toNat_ofNat', UInt64.toNat_ofNat']

theorem nodup_ofNat_range {n : ℕ} (h : n ≤ 2 ^ 64) : ((List.range n).map UInt64.ofNat).Nodup := by
  apply List.Nodup.map_on _ List.nodup_range
  intro a ha b hb heq
  rw [List.mem_range] at ha hb
  rw [ofNat_eq_iff] at heq
  omega

theorem ofNat_succ (t : ℕ) : UInt64.ofNat (t + 1) = UInt64.ofNat t + 1 := UInt64.ofNat_add ..

theorem ofNat_add_toNat (t : ℕ) (S : UInt64) :
    UInt64.ofNat (t + S.toNat) = UInt64.ofNat t + S := by
  rw [UInt64.ofNat_add, UInt64.ofNat_toNat]

theorem ofNat_ne (a b : ℕ) (hab : a < b) (hb : b ≤ a + S.toNat) :
    UInt64.ofNat a ≠ UInt64.ofNat b := by
  rw [ne_eq, ofNat_eq_iff]
  have := S.toNat_lt
  omega

theorem Admitted.powerOfTwo (h : Admitted S) : ∃ k, k < 64 ∧ S.toNat = 2 ^ k := by
  obtain ⟨hne, hand⟩ := h
  have hpos : S.toNat ≠ 0 := fun he => hne (UInt64.toNat_inj.mp he)
  have hsub : (S - 1).toNat = S.toNat - 1 := by
    rw [UInt64.toNat_sub_of_le]
    · rfl
    · rw [UInt64.le_iff_toNat_le]
      exact Nat.one_le_iff_ne_zero.mpr hpos
  have hand' : S.toNat &&& (S.toNat - 1) = 0 := by
    rw [← hsub, ← UInt64.toNat_and, hand]
    rfl
  obtain ⟨k, hk⟩ := (Nat.and_sub_one_eq_zero_iff_isPowerOfTwo hpos).mp hand'
  refine ⟨k, ?_, hk⟩
  have hlt := S.toNat_lt
  rw [hk] at hlt
  exact (Nat.pow_lt_pow_iff_right (by decide)).mp hlt

theorem slot_ofNat (h : Admitted S) (t : ℕ) : slot S (UInt64.ofNat t) = t % S.toNat := by
  obtain ⟨k, hk, hS⟩ := h.powerOfTwo
  have hsub : (S - 1).toNat = 2 ^ k - 1 := by
    rw [UInt64.toNat_sub_of_le, hS]
    · rfl
    · rw [UInt64.le_iff_toNat_le, hS]
      exact Nat.one_le_two_pow
  rw [slot, UInt64.toNat_and, UInt64.toNat_ofNat', hsub, Nat.and_two_pow_sub_one_eq_mod, hS]
  exact Nat.mod_mod_of_dvd t (Nat.pow_dvd_pow 2 (Nat.le_of_lt hk))

end Counters

end LowLevel.Queues
