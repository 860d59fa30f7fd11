import Mathlib.Algebra.Order.Ring.Nat
import Mathlib.Tactic.Ring

/-! # Bytes of numbers and fixed buffers

A word of `w` bytes is given by its bytes in storage order, least significant
first. Buffers have a fixed length; a store replaces the bytes of one window
and every disjoint window reads as before.
-/

namespace LowLevel

/-- The byte of a number with weight `256 ^ i`. -/
def byte (n i : ℕ) : UInt8 := UInt8.ofNat (n / 256 ^ i)

/-- The number stored as the first `w` bytes of `f`. -/
def ofBytes (f : ℕ → UInt8) : ℕ → ℕ
  | 0 => 0
  | w + 1 => ofBytes f w + (f w).toNat * 256 ^ w

variable {f g : ℕ → UInt8} {w v n i : ℕ}

theorem ofBytes_lt (f : ℕ → UInt8) (w : ℕ) : ofBytes f w < 256 ^ w := by
  induction w with
  | zero => simp [ofBytes]
  | succ w ih =>
    have hb : (f w).toNat + 1 ≤ 256 := (f w).toNat_lt
    calc ofBytes f w + (f w).toNat * 256 ^ w
        < 256 ^ w + (f w).toNat * 256 ^ w := Nat.add_lt_add_right ih _
      _ = ((f w).toNat + 1) * 256 ^ w := by ring
      _ ≤ 256 * 256 ^ w := Nat.mul_le_mul_right _ hb
      _ = 256 ^ (w + 1) := by ring

theorem ofBytes_congr (h : ∀ i < w, f i = g i) : ofBytes f w = ofBytes g w := by
  induction w with
  | zero => rfl
  | succ w ih =>
    rw [ofBytes, ofBytes, ih fun i hi => h i (by omega), h w (by omega)]

theorem ofBytes_byte (n w : ℕ) : ofBytes (byte n) w = n % 256 ^ w := by
  induction w with
  | zero => simp [ofBytes, Nat.mod_one]
  | succ w ih =>
    rw [ofBytes, ih, byte, UInt8.toNat_ofNat', pow_succ 256 w, Nat.mod_mul (x := n),
      Nat.mul_comm]

theorem byte_ofBytes (hi : i < w) : byte (ofBytes f w) i = f i := by
  induction w with
  | zero => omega
  | succ w ih =>
    apply UInt8.toNat_inj.mp
    rw [byte, UInt8.toNat_ofNat', ofBytes]
    rcases Nat.lt_succ_iff_lt_or_eq.mp hi with hlt | rfl
    · -- the top byte contributes a multiple of `256 ^ (i + 1)` and drops out
      have hi' := congrArg UInt8.toNat (ih hlt)
      rw [byte, UInt8.toNat_ofNat'] at hi'
      obtain ⟨d, rfl⟩ := Nat.exists_eq_add_of_lt hlt
      have hsplit : (f (i + d + 1)).toNat * 256 ^ (i + d + 1) =
          256 ^ i * (2 ^ 8 * ((f (i + d + 1)).toNat * 256 ^ d)) := by ring
      rw [hsplit, Nat.add_mul_div_left _ _ (Nat.pow_pos (by decide)),
        Nat.add_mul_mod_self_left, hi']
    · rw [Nat.add_mul_div_right _ _ (Nat.pow_pos (by decide)), Nat.div_eq_of_lt (ofBytes_lt f i),
        Nat.zero_add, Nat.mod_eq_of_lt (f i).toNat_lt]

/-- The number with its `w` bytes in the opposite order. -/
def bswap (w n : ℕ) : ℕ := ofBytes (fun i => byte n (w - 1 - i)) w

theorem bswap_lt (w n : ℕ) : bswap w n < 256 ^ w := ofBytes_lt _ w

theorem bswap_bswap (h : n < 256 ^ w) : bswap w (bswap w n) = n := by
  have hcongr : bswap w (bswap w n) = ofBytes (byte n) w := by
    apply ofBytes_congr
    intro i hi
    rw [bswap, byte_ofBytes (by omega)]
    congr 1
    omega
  rw [hcongr, ofBytes_byte, Nat.mod_eq_of_lt h]

def window (b : Vector UInt8 n) (off i : ℕ) : UInt8 := b[off + i]?.getD 0

/-- A buffer with `w` bytes stored at an offset. -/
def write (b : Vector UInt8 n) (off w : ℕ) (f : ℕ → UInt8) (_ : off + w ≤ n) : Vector UInt8 n :=
  Vector.ofFn fun i => if off ≤ i.1 ∧ i.1 < off + w then f (i.1 - off) else b.get i

section Buffer

variable {b : Vector UInt8 n} {off off' : ℕ} (h : off + w ≤ n)

theorem window_write_self (hi : i < w) : window (write b off w f h) off i = f i := by
  have hlt : off + i < n := by omega
  rw [window, Vector.getElem?_eq_getElem hlt, write, Vector.getElem_ofFn, if_pos (by simp; omega)]
  simp

theorem window_write_of_disjoint (hi : i < v) (hd : off' + v ≤ off ∨ off + w ≤ off') :
    window (write b off w f h) off' i = window b off' i := by
  unfold window
  by_cases hlt : off' + i < n
  · rw [Vector.getElem?_eq_getElem hlt, Vector.getElem?_eq_getElem hlt, write,
      Vector.getElem_ofFn, if_neg (by simp; omega)]
    rfl
  · rw [Vector.getElem?_eq_none (by omega), Vector.getElem?_eq_none (by omega)]

theorem write_congr (hfg : ∀ i < w, f i = g i) : write b off w f h = write b off w g h := by
  unfold write
  congr 1
  ext i : 1
  split_ifs with hi
  · exact hfg _ (by omega)
  · rfl

theorem getElem_write (hi : i < n) :
    (write b off w f h)[i] = if off ≤ i ∧ i < off + w then f (i - off) else b[i] :=
  Vector.getElem_ofFn _

/-- The operation copies one window of a fixed buffer into its argument. -/
def Copies (op : Vector UInt8 n → Vector UInt8 n) (buf : Vector UInt8 n) (off w : ℕ) : Prop :=
  ∃ h : off + w ≤ n, ∀ b, op b = write b off w (window buf off) h

theorem Copies.getElem {op : Vector UInt8 n → Vector UInt8 n} {buf : Vector UInt8 n}
    (hop : Copies op buf off w) (hi : i < n) :
    (op b)[i] = if off ≤ i ∧ i < off + w then buf[i] else b[i] := by
  obtain ⟨h, hop⟩ := hop
  rw [hop, getElem_write]
  split_ifs with hin
  · rw [window, Nat.add_sub_cancel' hin.1, Vector.getElem?_eq_getElem hi]
    rfl
  · rfl

/-- Copying windows in any order and any number of times ends in the copied buffer, provided
that the windows cover every byte that was different. -/
theorem foldl_copies {ops : List (Vector UInt8 n → Vector UInt8 n)} {buf : Vector UInt8 n}
    (hops : ∀ op ∈ ops, ∃ off w, Copies op buf off w)
    (hcover : ∀ i (hi : i < n), b[i] = buf[i] ∨
      ∃ op ∈ ops, ∃ off w, Copies op buf off w ∧ off ≤ i ∧ i < off + w) :
    ops.foldl (fun b op => op b) b = buf := by
  induction ops generalizing b with
  | nil =>
    apply Vector.ext
    intro i hi
    simpa using hcover i hi
  | cons op ops ih =>
    apply ih fun op' hop' => hops op' (List.mem_cons_of_mem _ hop')
    intro i hi
    obtain ⟨off, w, hop⟩ := hops op (List.mem_cons_self ..)
    rcases hcover i hi with heq | ⟨op', hmem, off', w', hop', hin⟩
    · left
      rw [hop.getElem hi, heq, ite_self]
    · rcases List.mem_cons.mp hmem with rfl | hmem
      · left
        rw [hop'.getElem hi, if_pos hin]
      · exact Or.inr ⟨op', hmem, off', w', hop', hin⟩

end Buffer

end LowLevel
