import LowLevel.Books.Ladder

/-! # Books refine ladders

A way to store a side represents a ladder when its steps act as those of the
ladder. A class whose sides represent ladders then behaves as the same class
over ladders, and what is shown for ladders holds for it: a book is never left
crossed, and the inserts are counted by the operations that make them.
-/

namespace LowLevel.Books

open Ladder

variable {σ : Type}

def BookClass.ladder (C : BookClass σ) : BookClass Ladder where
  ops := Ladder.ops
  init _ := {}
  accepts := C.accepts
  issue := C.issue
  marketPrice := C.marketPrice

/-- The steps of a side act as those of the ladder it represents. -/
structure Represents (S : SideOps σ) (side : Side) (ids : ℕ → ℕ) (q : ℕ → Prop)
    (Rep : σ → Ladder → Prop) : Prop where
  waiting {n s l} : Inv side ids q n l → Rep s l → S.waiting s = !l.rows.isEmpty
  price {n s l r rows} : Inv side ids q n l → Rep s l → l.rows = r :: rows →
    S.price s = some r.2.price
  front {n s l r rows} : Inv side ids q n l → Rep s l → l.rows = r :: rows →
    S.front s = some r.2
  resize {n s l r rows} (size : ℕ) : Inv side ids q n l → Rep s l → l.rows = r :: rows →
    ∃ s', S.resize s size = some s' ∧ Rep s' ⟨(r.1, { r.2 with size }) :: rows, l.keys⟩
  pop {n s l r rows} : Inv side ids q n l → Rep s l → l.rows = r :: rows →
    ∃ s', S.pop s = some s' ∧ Rep s' ⟨rows, Function.update l.keys r.2.id none⟩
  unknown {n s l i} : Inv side ids q n l → Rep s l → l.keys i = none → S.cancel s i = some none
  cancel {n s l i m} : Inv side ids q n l → Rep s l → l.keys i = some m →
    ∃ s', S.cancel s i = some (some s') ∧
      Rep s' ⟨l.rows.filter fun r => r.1 ≠ m, Function.update l.keys i none⟩

theorem Represents.sideSim {S : SideOps σ} {side : Side} {ids : ℕ → ℕ} {q : ℕ → Prop}
    {Rep : σ → Ladder → Prop} (h : Represents S side ids q Rep) (hq : ∀ n, q (n + 1) → q n) :
    SideSim S (Ladder.ops side) Eq Eq Eq (fun l => l.rows.length)
      fun n s l => Inv side ids q n l ∧ Rep s l := by
  have hwaiting : ∀ {n s l}, Inv side ids q n l ∧ Rep s l → S.waiting s →
      ∃ r rows, l.rows = r :: rows := by
    rintro n s ⟨rows, keys⟩ ⟨hi, hr⟩ hw
    rw [h.waiting hi hr] at hw
    cases rows with
    | nil => simp at hw
    | cons r rows => exact ⟨r, rows, rfl⟩
  constructor
  case mono => exact fun ⟨hi, hr⟩ => ⟨hi.mono (hq _), hr⟩
  case len_le => exact fun ⟨hi, _⟩ => hi.length_le
  case waiting => exact fun ⟨hi, hr⟩ => h.waiting hi hr
  case price =>
    rintro n s l ⟨hi, hr⟩ hw
    obtain ⟨r, rows, hl⟩ := hwaiting ⟨hi, hr⟩ hw
    exact ⟨_, _, h.price hi hr hl, by simp [Ladder.ops, hl], rfl⟩
  case front =>
    rintro n s l ⟨hi, hr⟩ hw
    obtain ⟨r, rows, hl⟩ := hwaiting ⟨hi, hr⟩ hw
    exact ⟨_, _, h.front hi hr hl, by simp [Ladder.ops, hl], rfl⟩
  case resize =>
    rintro n s l size ⟨hi, hr⟩ hw
    obtain ⟨r, rows, hl⟩ := hwaiting ⟨hi, hr⟩ hw
    obtain ⟨s', hs', hr'⟩ := h.resize size hi hr hl
    have hi' := hi.resize hl size
    refine ⟨s', _, hs', by simp only [Ladder.ops, hl], ⟨hi', hr'⟩, ?_, by simp [hl]⟩
    simp [h.waiting hi' hr']
  case pop =>
    rintro n s l ⟨hi, hr⟩ hw
    obtain ⟨r, rows, hl⟩ := hwaiting ⟨hi, hr⟩ hw
    obtain ⟨s', hs', hr'⟩ := h.pop hi hr hl
    exact ⟨s', _, hs', by simp only [Ladder.ops, hl], ⟨hi.pop hl, hr'⟩, by simp [hl]⟩
  case cancel =>
    rintro n s l i _ ⟨hi, hr⟩ rfl
    cases hk : l.keys i with
    | none => exact .inl ⟨h.unknown hi hr hk, by simp [Ladder.ops, hk]⟩
    | some m =>
      obtain ⟨s', hs', hr'⟩ := h.cancel hi hr hk
      exact .inr ⟨s', _, hs', by simp only [Ladder.ops, hk, Option.map_some],
        hi.cancel hk, hr'⟩

/-- A class whose sides represent ladders is simulated by the class over ladders. -/
def refinement (C : BookClass σ) (ids counter : ℕ → ℕ) (q : ℕ → Prop)
    (Rep : Side → σ → Ladder → Prop) (hq : ∀ n, q (n + 1) → q n)
    (hrep : ∀ side, Represents (C.ops side) side ids q (Rep side))
    (hissue : ∀ n, C.issue (counter n) = (ids n, counter (n + 1))) :
    ClassSim C C.ladder Eq Eq where
  prices _ := Eq
  len l := l.rows.length
  sides side n s l := Inv side ids q n l ∧ Rep side s l
  reports := reports_eq
  sim side := (hrep side).sideSim hq
  compare := by rintro _ _ _ _ rfl rfl; rfl
  ids := ids
  ids' := ids
  counter := counter
  counter' := counter
  issue := hissue
  issue' := hissue

theorem ClassSim.Rel.inserts {C : BookClass σ} {M : ClassSim C C.ladder Eq Eq} {b : Book σ}
    {a : Book Ladder} (h : M.Rel b a) (op : Op) : C.ladder.inserts a op = C.inserts b op := by
  cases op with
  | marketOrder side order =>
    rw [BookClass.inserts, BookClass.inserts, h.waiting]
  | _ => rfl

def Uncrossed (a : Book Ladder) : Prop :=
  ∀ r ∈ (a.sides .buy).rows, ∀ r' ∈ (a.sides .sell).rows, r.2.price < r'.2.price

/-- Every order that a ladder holds has the price of one that another holds. -/
def PricesIn (l l' : Ladder) : Prop :=
  ∀ r ∈ l.rows, ∃ r' ∈ l'.rows, r'.2.price = r.2.price

theorem PricesIn.refl (l : Ladder) : PricesIn l l := fun r hr => ⟨r, hr, rfl⟩

theorem PricesIn.trans {l l' l'' : Ladder} (h : PricesIn l l') (h' : PricesIn l' l'') :
    PricesIn l l'' := by
  intro r hr
  obtain ⟨r', hr', he⟩ := h r hr
  obtain ⟨r'', hr'', he'⟩ := h' r' hr'
  exact ⟨r'', hr'', he'.trans he⟩

theorem Uncrossed.set {a : Book Ladder} (h : Uncrossed a) {side : Side} {l : Ladder}
    (hl : PricesIn l (a.sides side)) : Uncrossed (a.set side l) := by
  cases side with
  | buy =>
    intro r hr r' hr'
    rw [Book.set_sides_self] at hr
    rw [Book.set_sides_of_ne _ (by decide)] at hr'
    obtain ⟨r₀, hr₀, he⟩ := hl r hr
    exact he ▸ h r₀ hr₀ r' hr'
  | sell =>
    intro r hr r' hr'
    rw [Book.set_sides_of_ne _ (by decide)] at hr
    rw [Book.set_sides_self] at hr'
    obtain ⟨r₀, hr₀, he⟩ := hl r' hr'
    exact he ▸ h r hr r₀ hr₀

theorem uncrossed_of_crossed {C : BookClass σ} {a : Book Ladder}
    (hs : ∀ side, (a.sides side).rows.Pairwise (Ahead side))
    (h : C.ladder.crossed a = some false) : Uncrossed a := by
  intro x hx y hy
  cases hb : (a.sides .buy).rows with
  | nil => simp [hb] at hx
  | cons x₀ xs =>
    cases hc : (a.sides .sell).rows with
    | nil => simp [hc] at hy
    | cons y₀ ys =>
      have hlt : x₀.2.price < y₀.2.price := by
        simpa [BookClass.crossed, BookClass.ladder, Ladder.ops, hb, hc] using h
      have hx₀ : x.2.price ≤ x₀.2.price := by
        rcases List.mem_cons.mp (hb ▸ hx) with rfl | hx
        · exact Nat.le_refl _
        · have hahead := (List.pairwise_cons.mp (hb ▸ hs .buy)).1 x hx
          simp only [Ahead, Side.better, decide_eq_true_eq] at hahead
          omega
      have hy₀ : y₀.2.price ≤ y.2.price := by
        rcases List.mem_cons.mp (hc ▸ hy) with rfl | hy
        · exact Nat.le_refl _
        · have hahead := (List.pairwise_cons.mp (hc ▸ hs .sell)).1 y hy
          simp only [Ahead, Side.better, decide_eq_true_eq] at hahead
          omega
      omega

/-- A sweep removes orders and reduces sizes; unless nothing remains to be filled
or the side is empty, it ends with the id of an order it met. -/
theorem sweep_ladder {side : Side} {fuel remaining last id : ℕ} {l l' : Ladder}
    (h : (Ladder.ops side).sweep fuel l remaining last = some (l', id)) :
    PricesIn l' l ∧ (id = last ∧ (remaining = 0 ∨ l.rows = []) ∨
      0 < remaining ∧ ∃ r ∈ l.rows, id = r.2.id) := by
  induction fuel generalizing l remaining last with
  | zero => simp [SideOps.sweep] at h
  | succ fuel ih =>
    obtain ⟨rows, keys⟩ := l
    cases rows with
    | nil =>
      obtain ⟨rfl, rfl⟩ : (⟨[], keys⟩ : Ladder) = l' ∧ last = id := by
        simpa [SideOps.sweep, Ladder.ops] using h
      exact ⟨.refl _, .inl ⟨rfl, .inr rfl⟩⟩
    | cons r rows =>
      rcases Nat.eq_zero_or_pos remaining with rfl | hpos
      · obtain ⟨rfl, rfl⟩ : (⟨r :: rows, keys⟩ : Ladder) = l' ∧ last = id := by
          simpa [SideOps.sweep] using h
        exact ⟨.refl _, .inl ⟨rfl, .inl rfl⟩⟩
      · by_cases hle : r.2.size ≤ remaining
        · have h' : (Ladder.ops side).sweep fuel ⟨rows, Function.update keys r.2.id none⟩
              (remaining - r.2.size) r.2.id = some (l', id) := by
            simpa [SideOps.sweep, Ladder.ops, hpos, hle] using h
          obtain ⟨hin, hid⟩ := ih h'
          refine ⟨hin.trans fun r' hr' => ⟨r', List.mem_cons_of_mem _ hr', rfl⟩, .inr ⟨hpos, ?_⟩⟩
          rcases hid with ⟨hid, -⟩ | ⟨-, r', hr', hid⟩
          · exact ⟨r, List.mem_cons_self .., hid⟩
          · exact ⟨r', List.mem_cons_of_mem _ hr', hid⟩
        · have h' : (Ladder.ops side).sweep fuel
              ⟨(r.1, { r.2 with size := r.2.size - remaining }) :: rows, keys⟩ 0 r.2.id =
                some (l', id) := by
            simpa [SideOps.sweep, Ladder.ops, hpos, hle] using h
          obtain ⟨hin, hid⟩ := ih h'
          refine ⟨hin.trans ?_, .inr ⟨hpos, ?_⟩⟩
          · intro r' hr'
            rcases List.mem_cons.mp hr' with rfl | hr'
            · exact ⟨r, List.mem_cons_self .., rfl⟩
            · exact ⟨r', List.mem_cons_of_mem _ hr', rfl⟩
          · rcases hid with ⟨hid, -⟩ | ⟨-, r', hr', hid⟩
            · exact ⟨r, List.mem_cons_self .., hid⟩
            · rcases List.mem_cons.mp hr' with rfl | hr'
              · exact ⟨r, List.mem_cons_self .., hid⟩
              · exact ⟨r', List.mem_cons_of_mem _ hr', hid⟩

section Step

variable {C : BookClass σ} {a a' : Book Ladder} {r : Reply}

theorem Uncrossed.insertOrder (h : Uncrossed a)
    (hs : ∀ side, (a'.sides side).rows.Pairwise (Ahead side)) {side : Side} {order : Order} {i : ℕ}
    (hi : C.ladder.insertOrder side a order = some (i, a')) : Uncrossed a' := by
  rcases BookClass.insertOrder_cases hi with ⟨-, -, rfl⟩ | ⟨-, hexit, -⟩
  · exact h
  · exact uncrossed_of_crossed hs hexit

theorem Uncrossed.step (h : Uncrossed a)
    (hs : ∀ side, (a'.sides side).rows.Pairwise (Ahead side)) {op : Op}
    (hstep : C.ladder.step a op = some (r, a')) : Uncrossed a' := by
  rcases BookClass.step_cases hstep with ⟨side, order, i, -, hi⟩ | ⟨side, id, i, -, hi⟩ |
    ⟨side, order, i, -, hi⟩ | ⟨-, rfl⟩
  · exact h.insertOrder hs hi
  · rcases BookClass.cancelOrder_cases hi with ⟨-, -, rfl⟩ | ⟨l, hl, -, rfl⟩
    · exact h
    · refine h.set fun x hx => ⟨x, ?_, rfl⟩
      simp only [BookClass.ladder, Ladder.ops, Option.some.injEq, Option.map_eq_some_iff] at hl
      obtain ⟨m, -, rfl⟩ := hl
      exact List.mem_of_mem_filter hx
  · obtain ⟨l, lastId, hl, hcases⟩ := BookClass.marketOrder_cases hi
    have hswept : Uncrossed (a.set side.opposite l) := h.set (sweep_ladder hl).1
    rcases hcases with ⟨-, -, rfl⟩ | ⟨-, hi⟩
    · exact hswept
    · exact hswept.insertOrder hs hi
  · exact h

theorem step_inserted (hpos : ∀ side, ∀ r ∈ (a.sides side).rows, r.2.id ≠ 0)
    (hacc : ∀ side, C.accepts (C.marketPrice side)) {op : Op}
    (hstep : C.ladder.step a op = some (r, a')) :
    a'.inserted = a.inserted + (C.ladder.inserts a op).toNat := by
  rcases BookClass.step_cases hstep with ⟨side, order, i, rfl, hi⟩ | ⟨side, id, i, rfl, hi⟩ |
    ⟨side, order, i, rfl, hi⟩ | ⟨rfl, rfl⟩
  · rcases BookClass.insertOrder_cases hi with ⟨ha, -, rfl⟩ | ⟨ha, -, hn⟩
    · simp [BookClass.inserts, ha]
    · simp [BookClass.inserts, ha, hn]
  · rcases BookClass.cancelOrder_cases hi with ⟨-, -, rfl⟩ | ⟨l, -, -, rfl⟩
    · rfl
    · rfl
  · obtain ⟨l, lastId, hl, hcases⟩ := BookClass.marketOrder_cases hi
    obtain ⟨-, hid⟩ := sweep_ladder hl
    have hinserts : C.ladder.inserts a (.marketOrder side order) = true ↔
        order.size = 0 ∨ (a.sides side.opposite).rows = [] := by
      simp [BookClass.inserts, BookClass.ladder, Ladder.ops]
    rcases hcases with ⟨h0, -, rfl⟩ | ⟨h0, hi⟩
    · have : ¬ C.ladder.inserts a (.marketOrder side order) = true := by
        rw [hinserts]
        rintro hnone
        obtain ⟨hrem, x, hx, -⟩ := hid.resolve_left fun h => h0 h.1
        rcases hnone with hz | hz
        · omega
        · simp [hz] at hx
      simp [this]
    · have hnone := hid.resolve_right fun ⟨_, x, hx, hxid⟩ => hpos _ x hx (hxid ▸ h0)
      have hins := hinserts.mpr hnone.2
      rcases BookClass.insertOrder_cases hi with ⟨ha, -, -⟩ | ⟨-, -, hn⟩
      · exact absurd (hacc side) (by simpa [BookClass.ladder] using ha)
      · simp [hins, hn]
  · rfl

end Step

end LowLevel.Books
