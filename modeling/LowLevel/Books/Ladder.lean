import LowLevel.Books.Simulation
import Mathlib.Data.List.Nodup
import Mathlib.Data.List.Perm.Subperm
import Mathlib.Data.List.TakeWhile

/-! # Ladders

What a side of a book means: its orders in priority order, each with the number
of its insert, and the table of the inserts that ids resolve to. A new order
goes behind all orders of a better or equal price. Ids come from a counter that
may wrap around, so an id can resolve to the last of several inserts; the
table is exact for as long as ids are not handed out twice.
-/

namespace LowLevel.Books

structure Ladder where
  rows : List (ℕ × Order) := []
  keys : ℕ → Option ℕ := fun _ => none

namespace Ladder

/-- Whether a resting order keeps its place before a new order at a price. -/
def stays (side : Side) (price : ℕ) (r : ℕ × Order) : Bool := !side.better price r.2.price

def insert (l : Ladder) (side : Side) (n : ℕ) (order : Order) : Ladder where
  rows := l.rows.takeWhile (stays side order.price) ++
    (n, order) :: l.rows.dropWhile (stays side order.price)
  keys := Function.update l.keys order.id (some n)

def ops (side : Side) : SideOps Ladder where
  waiting l := !l.rows.isEmpty
  price l := l.rows.head?.map fun r => r.2.price
  front l := l.rows.head?.map Prod.snd
  resize l size :=
    match l.rows with
    | [] => none
    | r :: rows => some { l with rows := (r.1, { r.2 with size }) :: rows }
  pop l :=
    match l.rows with
    | [] => none
    | r :: rows => some ⟨rows, Function.update l.keys r.2.id none⟩
  insert l n order := some (l.insert side n order)
  cancel l id := some ((l.keys id).map fun n =>
    ⟨l.rows.filter fun r => r.1 ≠ n, Function.update l.keys id none⟩)

/-- A row has priority over another: a better price, or the same price and an
earlier insert. -/
def Ahead (side : Side) (r r' : ℕ × Order) : Prop :=
  side.better r.2.price r'.2.price ∨ r.2.price = r'.2.price ∧ r.1 < r'.1

variable {side : Side} {ids : ℕ → ℕ} {q : ℕ → Prop} {n : ℕ} {l : Ladder} {r : ℕ × Order}
  {rows : List (ℕ × Order)}

/-- The ladder after `n` inserts, where the `m`th order got the id `ids m`. As
long as `q n` holds, every resting order can be found. -/
structure Inv (side : Side) (ids : ℕ → ℕ) (q : ℕ → Prop) (n : ℕ) (l : Ladder) : Prop where
  sorted : l.rows.Pairwise (Ahead side)
  nodup : (l.rows.map Prod.fst).Nodup
  inserted : ∀ r ∈ l.rows, r.1 < n
  idOf : ∀ r ∈ l.rows, r.2.id = ids r.1
  sound : ∀ {i m}, l.keys i = some m → i = ids m ∧ m ∈ l.rows.map Prod.fst
  known : q n → ∀ r ∈ l.rows, l.keys r.2.id = some r.1

theorem inv_init : Inv side ids q 0 {} where
  sorted := .nil
  nodup := .nil
  inserted := by simp
  idOf := by simp
  sound := by simp
  known := by simp

theorem Inv.mono (h : Inv side ids q n l) (hq : q (n + 1) → q n) : Inv side ids q (n + 1) l :=
  { h with
    inserted := fun r hr => (h.inserted r hr).trans (Nat.lt_succ_self n)
    known := fun hn => h.known (hq hn) }

theorem Inv.length_le (h : Inv side ids q n l) : l.rows.length ≤ n := by
  have hsub : l.rows.map Prod.fst ⊆ List.range n := by
    intro m hm
    obtain ⟨r, hr, rfl⟩ := List.mem_map.mp hm
    exact List.mem_range.mpr (h.inserted r hr)
  simpa using (h.nodup.subperm hsub).length_le

theorem Side.better_trans {p p' p'' : ℕ} (h : side.better p p') (h' : side.better p' p'') :
    side.better p p'' := by
  cases side <;> simp [Side.better] at * <;> omega

theorem Side.better_total {p p' : ℕ} (h : side.better p p' = false) :
    side.better p' p = true ∨ p = p' := by
  cases side <;> simp [Side.better] at * <;> omega

theorem better_of_mem_dropWhile {price : ℕ} (hs : rows.Pairwise (Ahead side))
    (hr : r ∈ rows.dropWhile (stays side price)) : side.better price r.2.price := by
  induction rows with
  | nil => simp at hr
  | cons r₀ rows ih =>
    obtain ⟨hahead, hs⟩ := List.pairwise_cons.mp hs
    by_cases h₀ : stays side price r₀
    · rw [List.dropWhile_cons_of_pos h₀] at hr
      exact ih hs hr
    · rw [List.dropWhile_cons_of_neg h₀] at hr
      have hb : side.better price r₀.2.price := by simpa [stays] using h₀
      rcases List.mem_cons.mp hr with rfl | hr
      · exact hb
      · rcases hahead r hr with h | ⟨h, -⟩
        · exact Side.better_trans hb h
        · rwa [← h]

theorem mem_insert {order : Order} :
    r ∈ (l.insert side n order).rows ↔ r ∈ l.rows ∨ r = (n, order) := by
  rw [insert, List.mem_append, List.mem_cons, or_left_comm, ← List.mem_append,
    List.takeWhile_append_dropWhile, or_comm]

theorem insert_perm (l : Ladder) (side : Side) (n : ℕ) (order : Order) :
    (l.insert side n order).rows.Perm ((n, order) :: l.rows) := by
  refine List.perm_middle.trans ?_
  rw [List.takeWhile_append_dropWhile]

theorem Inv.insert (h : Inv side ids q n l) (hq : q (n + 1) → q n)
    (hfresh : q (n + 1) → ∀ m < n, ids m ≠ ids n) (order : Order) :
    Inv side ids q (n + 1) (l.insert side n { order with id := ids n }) := by
  have hperm := l.insert_perm side n { order with id := ids n }
  refine ⟨?_, ?_, ?_, ?_, ?_, ?_⟩
  · refine List.pairwise_append.mpr ⟨h.sorted.sublist (List.takeWhile_sublist _), ?_, ?_⟩
    · refine List.pairwise_cons.mpr ⟨fun r hr => ?_, h.sorted.sublist (List.dropWhile_sublist _)⟩
      exact .inl (better_of_mem_dropWhile h.sorted hr)
    · intro r hr r' hr'
      have hstay : side.better order.price r.2.price = false := by
        simpa [stays] using List.mem_takeWhile_imp hr
      have hlt := h.inserted r ((List.takeWhile_sublist _).mem hr)
      have hnew : Ahead side r (n, { order with id := ids n }) := by
        rcases Side.better_total hstay with hb | hb
        · exact .inl hb
        · exact .inr ⟨hb.symm, hlt⟩
      rcases List.mem_cons.mp hr' with rfl | hr'
      · exact hnew
      · have hb := better_of_mem_dropWhile h.sorted hr'
        rcases hnew with hn | ⟨hn, -⟩
        · exact .inl (Side.better_trans hn hb)
        · exact .inl (by rw [hn]; exact hb)
  · rw [(hperm.map Prod.fst).nodup_iff, List.map_cons, List.nodup_cons]
    refine ⟨fun hm => ?_, h.nodup⟩
    obtain ⟨r, hr, hrn⟩ := List.mem_map.mp hm
    exact absurd (h.inserted r hr) (by simp at hrn; omega)
  · intro r hr
    rcases mem_insert.mp hr with hr | rfl
    · exact (h.inserted r hr).trans (Nat.lt_succ_self n)
    · exact Nat.lt_succ_self n
  · intro r hr
    rcases mem_insert.mp hr with hr | rfl
    · exact h.idOf r hr
    · rfl
  · intro i m hm
    rw [(hperm.map Prod.fst).mem_iff, List.map_cons, List.mem_cons]
    by_cases hi : i = ids n
    · subst hi
      have : n = m := by simpa [Ladder.insert] using hm
      subst this
      exact ⟨rfl, .inl rfl⟩
    · have hm' : l.keys i = some m := by simpa [Ladder.insert, hi] using hm
      exact ⟨(h.sound hm').1, .inr (h.sound hm').2⟩
  · intro hqn r hr
    rcases mem_insert.mp hr with hr | rfl
    · have hne : r.2.id ≠ ids n := by
        rw [h.idOf r hr]
        exact hfresh hqn _ (h.inserted r hr)
      simpa [Ladder.insert, hne] using h.known (hq hqn) r hr
    · simp [Ladder.insert]

theorem Inv.remove (h : Inv side ids q n l) {m : ℕ} (hsub : rows.Sublist l.rows)
    (hne : m ∉ rows.map Prod.fst) (hall : ∀ r ∈ l.rows, r.1 ≠ m → r ∈ rows)
    (hm : m ∈ l.rows.map Prod.fst) :
    Inv side ids q n ⟨rows, Function.update l.keys (ids m) none⟩ where
  sorted := h.sorted.sublist hsub
  nodup := h.nodup.sublist (hsub.map _)
  inserted r hr := h.inserted r (hsub.mem hr)
  idOf r hr := h.idOf r (hsub.mem hr)
  sound {i k} hk := by
    by_cases hi : i = ids m
    · simp [hi] at hk
    · have hk' : l.keys i = some k := by simpa [hi] using hk
      obtain ⟨hik, hmem⟩ := h.sound hk'
      obtain ⟨r, hr, rfl⟩ := List.mem_map.mp hmem
      refine ⟨hik, List.mem_map_of_mem (hall r hr fun he => hi ?_)⟩
      rw [hik, he]
  known hqn r hr := by
    have hr' := hsub.mem hr
    obtain ⟨r₀, hr₀, rfl⟩ := List.mem_map.mp hm
    -- two rows that the table tells apart have different ids
    have hid : r.2.id ≠ ids r₀.1 := by
      intro he
      have h₁ := h.known hqn r hr'
      rw [he, ← h.idOf r₀ hr₀, h.known hqn r₀ hr₀] at h₁
      exact hne (by rw [Option.some.inj h₁]; exact List.mem_map_of_mem hr)
    exact (Function.update_of_ne hid ..).trans (h.known hqn r hr')

theorem Inv.pop (h : Inv side ids q n l) (hl : l.rows = r :: rows) :
    Inv side ids q n ⟨rows, Function.update l.keys r.2.id none⟩ := by
  have hn := h.nodup
  rw [hl, List.map_cons, List.nodup_cons] at hn
  rw [h.idOf r (by simp [hl])]
  refine h.remove (by simp [hl]) hn.1 ?_ (by simp [hl])
  intro r' hr' hne
  rw [hl] at hr'
  rcases List.mem_cons.mp hr' with rfl | hr'
  · exact absurd rfl hne
  · exact hr'

theorem Inv.cancel (h : Inv side ids q n l) {i m : ℕ} (hi : l.keys i = some m) :
    Inv side ids q n ⟨l.rows.filter fun r => r.1 ≠ m, Function.update l.keys i none⟩ := by
  obtain ⟨rfl, hm⟩ := h.sound hi
  refine h.remove List.filter_sublist ?_ ?_ hm
  · simp
  · intro r hr hne
    simpa using ⟨hr, hne⟩

theorem filter_row {rows₁ rows₂ : List (ℕ × Order)}
    (hn : ((rows₁ ++ r :: rows₂).map Prod.fst).Nodup) :
    (rows₁ ++ r :: rows₂).filter (fun r' => r'.1 ≠ r.1) = rows₁ ++ rows₂ := by
  rw [List.map_append, List.map_cons, List.nodup_middle, List.nodup_cons, ← List.map_append] at hn
  have hkeep : ∀ r' ∈ rows₁ ++ rows₂, r'.1 ≠ r.1 := fun r' hr' he =>
    hn.1 (he ▸ List.mem_map_of_mem hr')
  rw [List.filter_append, List.filter_cons_of_neg (by simp), ← List.filter_append,
    List.filter_eq_self]
  simpa using hkeep

theorem Inv.resize (h : Inv side ids q n l) (hl : l.rows = r :: rows) (size : ℕ) :
    Inv side ids q n ⟨(r.1, { r.2 with size }) :: rows, l.keys⟩ := by
  obtain ⟨hs, hn, hlt, hid, hsound, hknown⟩ := h
  rw [hl] at hs hn hlt hid hsound hknown
  refine ⟨?_, hn, ?_, ?_, hsound, fun hqn => ?_⟩
  · exact List.pairwise_cons.mpr ⟨(List.pairwise_cons.mp hs).1, (List.pairwise_cons.mp hs).2⟩
  · simpa using hlt
  · simpa using hid
  · simpa using hknown hqn

end Ladder

end LowLevel.Books
