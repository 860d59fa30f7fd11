import LowLevel.Foundations.Bytes

/-! # Byte-addressed memory

Memory is a function from addresses to bytes; a word of eight bytes is stored
least significant byte first. Words that do not overlap do not affect each
other.
-/

namespace LowLevel

abbrev Memory := ℕ → UInt8

namespace Memory

variable {m m' : Memory} {a b v x : ℕ}

def read64 (m : Memory) (a : ℕ) : ℕ := ofBytes (fun i => m (a + i)) 8

def write64 (m : Memory) (a v : ℕ) : Memory :=
  fun x => if a ≤ x ∧ x < a + 8 then byte v (x - a) else m x

def poke (m : Memory) (a : ℕ) (c : UInt8) : Memory := Function.update m a c

theorem read64_lt (m : Memory) (a : ℕ) : m.read64 a < 2 ^ 64 := ofBytes_lt _ 8

theorem read64_congr (h : ∀ x, a ≤ x → x < a + 8 → m x = m' x) : m.read64 a = m'.read64 a :=
  ofBytes_congr fun _ _ => h _ (by omega) (by omega)

@[simp] theorem read64_write64_self (hv : v < 2 ^ 64) : (m.write64 a v).read64 a = v := by
  have hword : (m.write64 a v).read64 a = ofBytes (byte v) 8 := by
    apply ofBytes_congr
    intro i hi
    rw [write64, if_pos (by omega), Nat.add_sub_cancel_left]
  rw [hword, ofBytes_byte]
  exact Nat.mod_eq_of_lt hv

theorem write64_of_disjoint (h : x < a ∨ a + 8 ≤ x) : m.write64 a v x = m x :=
  if_neg (by omega)

theorem read64_write64_of_disjoint (h : b + 8 ≤ a ∨ a + 8 ≤ b) :
    (m.write64 a v).read64 b = m.read64 b :=
  read64_congr fun _ _ _ => write64_of_disjoint (by omega)

theorem poke_of_ne {c : UInt8} (h : x ≠ a) : m.poke a c x = m x := Function.update_of_ne h _ _

def AgreeOutside (m m' : Memory) (lo hi : ℕ) : Prop := ∀ x, x < lo ∨ hi ≤ x → m' x = m x

theorem AgreeOutside.refl (m : Memory) (lo hi : ℕ) : m.AgreeOutside m lo hi := fun _ _ => rfl

theorem AgreeOutside.write64 {lo hi : ℕ} (h : m.AgreeOutside m' lo hi) (hlo : lo ≤ a)
    (hhi : a + 8 ≤ hi) : m.AgreeOutside (m'.write64 a v) lo hi := by
  intro x hx
  rw [write64_of_disjoint (by omega), h x hx]

theorem AgreeOutside.read64 {lo hi : ℕ} (h : m.AgreeOutside m' lo hi)
    (ha : a + 8 ≤ lo ∨ hi ≤ a) : m'.read64 a = m.read64 a :=
  read64_congr fun x _ _ => h x (by omega)

end Memory

end LowLevel
