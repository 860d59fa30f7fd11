import Mathlib.Data.Nat.Notation
import Mathlib.Logic.Function.Basic

/-! # Turns on a ring of cells

A ring of `S` cells serves an unbounded sequence of tickets, ticket `t` at
cell `t % S`. A ticket is drawn and held by a producer, published, drawn and
emptied by a consumer, and released to the ticket one lap later. The cell
shows this through its sequence number alone, which is `c t` before the
publication, `c (t + 1)` after it, and `c (t + S)` after the release. The
counter `c` may wrap, as long as it tells the numbers of one lap apart.
-/

namespace LowLevel

inductive Content (T : Type*) where
  | unspecified
  | torn
  | value (v : T)

/-- What a read returns; `junk` stands for whatever an unspecified or torn object gives. -/
def Content.read {T : Type*} (junk : T) : Content T → T
  | value v => v
  | _ => junk

structure Cell (C T : Type*) where
  sequence : C
  data : Content T

/-- A write is not atomic: it has not begun, is under way, or is complete. -/
inductive WritePhase where
  | before
  | during
  | after
  deriving DecidableEq

inductive Turn (P Q T : Type*) where
  | unclaimed
  | held (p : P) (phase : WritePhase) (v : T)
  | published (v : T)
  | claimed (q : Q) (v : T)
  | taken (q : Q) (v : T)
  | released (v : T)

namespace Turn

variable {P Q T C : Type*}

def value? : Turn P Q T → Option T
  | unclaimed => none
  | held _ _ v | published v | claimed _ v | taken _ v | released v => some v

def isConsumed : Turn P Q T → Bool
  | claimed .. | taken .. | released _ => true
  | _ => false

def isReleased : Turn P Q T → Bool
  | released _ => true
  | _ => false

/-- How the cell of ticket `t` looks in each stage up to the release. -/
def cell (c : ℕ → C) (t : ℕ) : Turn P Q T → Cell C T
  | unclaimed | held _ .before _ => ⟨c t, .unspecified⟩
  | held _ .during _ => ⟨c t, .torn⟩
  | held _ .after v => ⟨c t, .value v⟩
  | published v | claimed _ v => ⟨c (t + 1), .value v⟩
  | taken .. | released _ => ⟨c (t + 1), .unspecified⟩

theorem cell_sequence (c : ℕ → C) (t : ℕ) (x : Turn P Q T) :
    (x.cell c t).sequence = c t ∨ (x.cell c t).sequence = c (t + 1) := by
  cases x with
  | unclaimed => exact .inl rfl
  | held p phase v => cases phase <;> exact .inl rfl
  | published v => exact .inr rfl
  | claimed q v => exact .inr rfl
  | taken q v => exact .inr rfl
  | released v => exact .inr rfl

end Turn

section Turns

variable {P Q T C : Type*} {S : ℕ} {c : ℕ → C} {buffer : ℕ → Cell C T} {turn : ℕ → Turn P Q T}
  {log log' : List T} {d d' t u : ℕ} {v : T} {y : Turn P Q T}

def Ready (S : ℕ) (turn : ℕ → Turn P Q T) (t : ℕ) : Prop :=
  ∀ u, u + S = t → (turn u).isReleased = true

/-- The buffer shows the turns: the values in ticket order are `log`, and consumers have drawn
the first `d` tickets. -/
structure Turns (S : ℕ) (c : ℕ → C) (buffer : ℕ → Cell C T) (turn : ℕ → Turn P Q T)
    (log : List T) (d : ℕ) : Prop where
  log : ∀ t, (turn t).value? = log[t]?
  consumed : ∀ t, (turn t).isConsumed = true ↔ t < d
  ready : ∀ t, turn t ≠ .unclaimed → Ready S turn t
  cell : ∀ t, (turn t).isReleased = false → Ready S turn t →
    buffer (t % S) = (turn t).cell c t

namespace Turns

theorem unclaimed_iff (h : Turns S c buffer turn log d) : turn t = .unclaimed ↔ log.length ≤ t := by
  rw [← List.getElem?_eq_none_iff, ← h.log t]
  cases turn t <;> simp [Turn.value?]

theorem released_of_lap (h : Turns S c buffer turn log d) (k : ℕ)
    (hr : (turn (t + k * S)).isReleased = true) : (turn t).isReleased = true := by
  induction k with
  | zero => simpa using hr
  | succ k ih =>
    apply ih
    apply h.ready (t + (k + 1) * S)
    · intro hu
      rw [hu] at hr
      cases hr
    · rw [Nat.succ_mul, Nat.add_assoc]

theorem current_inj (h : Turns S c buffer turn log d) (ht : (turn t).isReleased = false)
    (hrt : Ready S turn t) (hu : (turn u).isReleased = false) (hru : Ready S turn u)
    (heq : t % S = u % S) : t = u := by
  have key : ∀ {a b}, a < b → a % S = b % S → (turn a).isReleased = false → Ready S turn b →
      False := by
    intro a b hab hmod ha hb
    obtain ⟨k, hk⟩ : ∃ k, b = a + k * S := by
      obtain ⟨k, hk⟩ := Nat.dvd_of_mod_eq_zero (Nat.sub_mod_eq_zero_of_mod_eq hmod.symm)
      refine ⟨k, ?_⟩
      rw [Nat.mul_comm, ← hk]
      omega
    cases k with
    | zero => omega
    | succ k =>
      have := h.released_of_lap k (hb (a + k * S) (by rw [hk, Nat.succ_mul]; omega))
      rw [ha] at this
      cases this
  rcases Nat.lt_trichotomy t u with hlt | rfl | hlt
  · exact (key hlt heq ht hru).elim
  · rfl
  · exact (key hlt heq.symm hu hrt).elim

theorem update (h : Turns S c buffer turn log d) (ht : (turn t).isReleased = false)
    (hready : Ready S turn t) (hy : y.isReleased = false)
    (hlog : ∀ u, (Function.update turn t y u).value? = log'[u]?)
    (hcons : ∀ u, (Function.update turn t y u).isConsumed = true ↔ u < d') :
    Turns S c (Function.update buffer (t % S) (y.cell c t)) (Function.update turn t y) log' d' := by
  have hrel : ∀ u, (Function.update turn t y u).isReleased = (turn u).isReleased := by
    intro u
    by_cases hu : u = t
    · rw [hu, Function.update_self, hy, ht]
    · rw [Function.update_of_ne hu]
  have hrdy : ∀ u, Ready S (Function.update turn t y) u ↔ Ready S turn u := by
    intro u
    simp only [Ready, hrel]
  constructor
  case log => exact hlog
  case consumed => exact hcons
  case ready =>
    intro u hu
    rw [hrdy]
    by_cases hut : u = t
    · exact hut ▸ hready
    · rw [Function.update_of_ne hut] at hu
      exact h.ready u hu
  case cell =>
    intro u hu hru
    rw [hrel] at hu
    rw [hrdy] at hru
    by_cases hut : u = t
    · rw [hut, Function.update_self, Function.update_self]
    · have hne : u % S ≠ t % S := fun he => hut (h.current_inj hu hru ht hready he)
      rw [Function.update_of_ne hne, Function.update_of_ne hut]
      exact h.cell u hu hru

/-- A producer draws the next ticket; the cell does not show it. -/
theorem claim (h : Turns S c buffer turn log d) (hready : Ready S turn log.length) (p : P)
    (v : T) :
    Turns S c buffer (Function.update turn log.length (.held p .before v)) (log ++ [v]) d := by
  have hun := h.unclaimed_iff.mpr (Nat.le_refl log.length)
  have hcell : (Turn.held p .before v : Turn P Q T).cell c log.length =
      buffer (log.length % S) := by
    rw [h.cell _ (by rw [hun]; rfl) hready, hun]
    rfl
  rw [← Function.update_eq_self (log.length % S) buffer, ← hcell]
  apply h.update (by rw [hun]; rfl) hready rfl
  · intro u
    rcases eq_or_ne u log.length with rfl | hu
    · rw [Function.update_self, List.getElem?_concat_length]; rfl
    · rw [Function.update_of_ne hu, h.log u]
      rcases Nat.lt_or_ge u log.length with hlt | hge
      · rw [List.getElem?_append_left hlt]
      · rw [List.getElem?_eq_none hge, List.getElem?_eq_none]
        rw [List.length_append, List.length_singleton]
        omega
  · intro u
    rcases eq_or_ne u log.length with rfl | hu
    · rw [Function.update_self, ← h.consumed, hun]; rfl
    · rw [Function.update_of_ne hu, h.consumed]

/-- A drawn ticket moves on under its holder. -/
theorem advance {x : Turn P Q T} (h : Turns S c buffer turn log d) (ht : turn t = x)
    (hx : x ≠ .unclaimed) (hr : x.isReleased = false) (hy : y.isReleased = false)
    (hval : y.value? = x.value?) (hcons : y.isConsumed = x.isConsumed) :
    Turns S c (Function.update buffer (t % S) (y.cell c t)) (Function.update turn t y) log d := by
  subst ht
  apply h.update hr (h.ready t hx) hy
  · intro u
    rcases eq_or_ne u t with rfl | hu
    · rw [Function.update_self, hval, h.log]
    · rw [Function.update_of_ne hu, h.log]
  · intro u
    rcases eq_or_ne u t with rfl | hu
    · rw [Function.update_self, hcons, h.consumed]
    · rw [Function.update_of_ne hu, h.consumed]

/-- A consumer draws the next published ticket; the cell does not show it. -/
theorem draw (h : Turns S c buffer turn log d) (hd : turn d = .published v) (q : Q) :
    Turns S c buffer (Function.update turn d (.claimed q v)) log (d + 1) := by
  have hready := h.ready d (by rw [hd]; nofun)
  have hcell : (Turn.claimed q v : Turn P Q T).cell c d = buffer (d % S) := by
    rw [h.cell d (by rw [hd]; rfl) hready, hd]
    rfl
  rw [← Function.update_eq_self (d % S) buffer, ← hcell]
  apply h.update (by rw [hd]; rfl) hready rfl
  · intro u
    rcases eq_or_ne u d with rfl | hu
    · rw [Function.update_self, ← h.log, hd]; rfl
    · rw [Function.update_of_ne hu, h.log]
  · intro u
    rcases eq_or_ne u d with rfl | hu
    · rw [Function.update_self]; simp [Turn.isConsumed]
    · rw [Function.update_of_ne hu, h.consumed]
      omega

/-- The last stage: the cell passes to the ticket one lap later. -/
theorem release {q : Q} (h : Turns S c buffer turn log d) (ht : turn t = .taken q v) :
    Turns S c (Function.update buffer (t % S) ⟨c (t + S), .unspecified⟩)
      (Function.update turn t (.released v)) log d := by
  have htr : (turn t).isReleased = false := by rw [ht]; rfl
  have hready := h.ready t (by rw [ht]; nofun)
  have hnext : turn (t + S) = .unclaimed := by
    by_contra hne
    have := h.ready _ hne t rfl
    rw [htr] at this
    cases this
  have hother : ∀ u, u ≠ t → Function.update turn t (.released v) u = turn u :=
    fun u hu => Function.update_of_ne hu ..
  have hrdy : ∀ u, u ≠ t + S → Ready S (Function.update turn t (.released v)) u →
      Ready S turn u := by
    intro u hu hru w hw
    have := hru w hw
    rwa [hother w (by omega)] at this
  constructor
  case log =>
    intro u
    rw [← h.log u]
    by_cases hu : u = t
    · rw [hu, Function.update_self, ht]; rfl
    · rw [hother u hu]
  case consumed =>
    intro u
    rw [← h.consumed u]
    by_cases hu : u = t
    · rw [hu, Function.update_self, ht]; rfl
    · rw [hother u hu]
  case ready =>
    intro u hu w hw
    by_cases hwt : w = t
    · rw [hwt, Function.update_self]; rfl
    · rw [hother w hwt]
      apply h.ready u _ w hw
      by_cases hut : u = t
      · rw [hut, ht]; nofun
      · rwa [hother u hut] at hu
  case cell =>
    intro u hu hru
    have hut : u ≠ t := by
      rintro rfl
      rw [Function.update_self] at hu
      cases hu
    rw [hother u hut] at hu ⊢
    by_cases huS : u = t + S
    · rw [huS, Nat.add_mod_right, Function.update_self, hnext]; rfl
    · have hne : u % S ≠ t % S :=
        fun he => hut (h.current_inj hu (hrdy u huS hru) htr hready he)
      rw [Function.update_of_ne hne]
      exact h.cell u hu (hrdy u huS hru)

/-- What producers and consumers learn from a sequence number, on a counter that tells the
numbers of one lap apart. -/
theorem ready_of_sequence (h : Turns S c buffer turn log d) (hS : 2 ≤ S)
    (hc : ∀ a b, a < b → b ≤ a + S → c a ≠ c b)
    (hseq : (buffer (log.length % S)).sequence = c log.length) : Ready S turn log.length := by
  intro u hu
  by_contra hr
  rw [Bool.not_eq_true] at hr
  have hne : turn u ≠ .unclaimed := by
    rw [ne_eq, h.unclaimed_iff]
    omega
  have hcell := h.cell u hr (h.ready u hne)
  rw [← hu, Nat.add_mod_right, hcell] at hseq
  rcases (turn u).cell_sequence c u with he | he
  · exact hc u (u + S) (by omega) (by omega) (he.symm.trans hseq)
  · exact hc (u + 1) (u + S) (by omega) (by omega) (he.symm.trans hseq)

theorem published_of_sequence (h : Turns S c buffer turn log d) (hS : 1 ≤ S)
    (hc : ∀ a b, a < b → b ≤ a + S → c a ≠ c b)
    (hseq : (buffer (d % S)).sequence = c (d + 1)) : ∃ v, turn d = .published v := by
  have hcons : (turn d).isConsumed = false := by
    rw [← Bool.not_eq_true, h.consumed]
    omega
  have hrel : (turn d).isReleased = false := by
    cases hx : turn d <;> rw [hx] at hcons <;> first | rfl | cases hcons
  have hready : Ready S turn d := by
    intro u hu
    by_contra hr
    rw [Bool.not_eq_true] at hr
    have hucons := (h.consumed u).mpr (by omega)
    have hcell := h.cell u hr (h.ready u (by rintro he; rw [he] at hucons; cases hucons))
    rw [← hu, Nat.add_mod_right, hcell] at hseq
    have hshow : ((turn u).cell c u).sequence = c (u + 1) := by
      cases hx : turn u <;> rw [hx] at hucons <;> first | rfl | cases hucons
    exact hc (u + 1) (u + S + 1) (by omega) (by omega) (hshow.symm.trans hseq)
  have hcell := h.cell d hrel hready
  rw [hcell] at hseq
  have hnext := hc d (d + 1) (by omega) (by omega)
  cases hx : turn d with
  | unclaimed => rw [hx] at hseq; exact (hnext hseq).elim
  | held p phase v => rw [hx] at hseq; cases phase <;> exact (hnext hseq).elim
  | published v => exact ⟨v, rfl⟩
  | claimed q v => rw [hx] at hcons; cases hcons
  | taken q v => rw [hx] at hcons; cases hcons
  | released v => rw [hx] at hrel; cases hrel

theorem log_le (h : Turns S c buffer turn log d) {r : ℕ}
    (hr : ∀ t, (turn t).isReleased = true → t < r) : log.length ≤ r + S := by
  by_contra hlt
  have hne : turn (r + S) ≠ .unclaimed := by
    rw [ne_eq, h.unclaimed_iff]
    omega
  have := hr r (h.ready _ hne r rfl)
  omega

end Turns

end Turns

end LowLevel
