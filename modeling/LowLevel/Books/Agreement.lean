import LowLevel.Books.SortedVector

/-! # The list book and the sorted vector book agree

Both classes number orders from 2 on and order a side by price and id. Before
the counter wraps around a new id is above all others, so both put a new order
behind all orders of its price, as a ladder does, and both cancel what the
table of the ladder finds.
-/

namespace LowLevel.Books

open Ladder DoublyLinked

/-- The id of the order inserted after `n` others, and the counter after `n` inserts. -/
def preIds (n : ℕ) : ℕ := (n + 2) % 2 ^ 64
def preCounter (n : ℕ) : ℕ := (n + 1) % 2 ^ 64

theorem preIncrement_preCounter (n : ℕ) :
    preIncrement (preCounter n) = (preIds n, preCounter (n + 1)) := by
  simp [preIncrement, preCounter, preIds]

theorem preIds_eq {n : ℕ} (h : n + 2 < 2 ^ 64) : preIds n = n + 2 := by
  rw [preIds, Nat.mod_eq_of_lt h]

/-- A class that numbers orders with `++counter`, takes every price and stores a
new order as a ladder does if its id is above all others. -/
structure Numbered {σ : Type} (C : BookClass σ) where
  Rep : σ → Ladder → Prop
  init (side : Side) : Rep (C.init side) {}
  issue (n : ℕ) : C.issue (preCounter n) = (preIds n, preCounter (n + 1))
  accepts (price : ℕ) : C.accepts price = true
  represents (side : Side) : Represents (C.ops side) side preIds (fun _ => True) Rep
  insert {side n s l} (order : Order) : Inv side preIds (fun _ => True) n l → Rep s l →
    (∀ r ∈ l.rows, r.2.id < order.id) →
      ∃ s', (C.ops side).insert s n order = some s' ∧ Rep s' (l.insert side n order)

theorem Ladder.Inv.id_eq {side : Side} {n : ℕ} {l : Ladder}
    (h : Inv side preIds (fun _ => True) n l) (hn : n + 1 < 2 ^ 64) {r : ℕ × Order}
    (hr : r ∈ l.rows) : r.2.id = r.1 + 2 := by
  have hlt := h.inserted r hr
  rw [h.idOf r hr, preIds_eq (by omega)]

namespace Numbered

variable {σ : Type} {C : BookClass σ} {N : Numbered C} {b : Book σ} {a : Book Ladder}

def sim (N : Numbered C) : ClassSim C C.ladder Eq Eq :=
  refinement C preIds preCounter (fun _ => True) (fun _ => N.Rep) (fun _ _ => trivial)
    N.represents N.issue

theorem rel_empty (N : Numbered C) : N.sim.Rel C.empty C.ladder.empty where
  inserted := rfl
  counter := rfl
  counter' := rfl
  sides side := ⟨inv_init, N.init side⟩

theorem canInsert (h : N.sim.Rel b a) (hn : b.inserted + 2 < 2 ^ 64) (side : Side) (order : Order) :
    N.sim.CanInsert b a side order order := by
  obtain ⟨hi, hr⟩ := h.sides side
  have hid : ∀ r ∈ (a.sides side).rows, r.2.id < preIds b.inserted := by
    intro r hr
    have hlt := hi.inserted r hr
    rw [hi.id_eq (by omega) hr, preIds_eq hn]
    omega
  have hfresh : ∀ m < b.inserted, preIds m ≠ preIds b.inserted := by
    intro m hm
    rw [preIds_eq hn, preIds_eq (by omega)]
    omega
  obtain ⟨s, hs, hr'⟩ := N.insert { order with id := preIds b.inserted } hi hr hid
  exact ⟨rfl, s, _, hs, rfl, hi.insert (fun _ => trivial) (fun _ => hfresh) order, hr'⟩

theorem id_ne_zero (h : N.sim.Rel b a) (hn : b.inserted + 1 < 2 ^ 64) :
    ∀ side, ∀ r ∈ (a.sides side).rows, r.2.id ≠ 0 := by
  intro side r hr
  rw [(h.sides side).1.id_eq hn hr]
  omega

theorem swept (h : N.sim.Rel b a) (hn : b.inserted + 1 < 2 ^ 64) {side : Side} {fuel size : ℕ}
    {s : σ} (hs : (C.ops side).sweep fuel (b.sides side) size 0 = some (s, 0))
    (hf : b.inserted + 1 < fuel) : size = 0 ∨ (a.sides side).rows = [] := by
  have hle := (N.sim.sim side).len_le (h.sides side)
  obtain ⟨s', l, i, i', hs', hl, -, hI⟩ := (N.sim.sim side).sweep reports_eq (h.sides side) rfl
    size fuel fuel (.inr (by omega)) (.inr (by omega))
  obtain ⟨rfl, rfl⟩ : s = s' ∧ 0 = i := by
    have heq := hs.symm.trans hs'
    simpa using heq
  subst hI
  rcases (sweep_ladder hl).2 with ⟨-, hnone⟩ | ⟨-, r, hr, hid⟩
  · exact hnone
  · exact absurd hid.symm (id_ne_zero h hn side r hr)

theorem admits (h : N.sim.Rel b a) (hn : b.inserted + 1 < 2 ^ 64) (op : Op)
    (hop : C.inserts b op → b.inserted + 2 < 2 ^ 64) : N.sim.Admits b a op op := by
  cases op with
  | insertOrder side order =>
    exact .insertOrder rfl fun _ => canInsert h (hop (N.accepts _)) side order
  | cancelOrder side id => exact .cancelOrder rfl
  | marketOrder side order =>
    refine .marketOrder rfl rfl fun s hs _ => canInsert h (hop ?_) side _
    have hnone := swept h hn hs (by omega)
    rw [BookClass.inserts, (N.sim.sim side.opposite).waiting (h.sides side.opposite)]
    simpa [BookClass.ladder, Ladder.ops] using hnone
  | topOfBook => exact .topOfBook

theorem inserted_step (h : N.sim.Rel b a) (hn : b.inserted + 1 < 2 ^ 64) {op : Op} {r : Reply}
    {a' : Book Ladder} (hstep : C.ladder.step a op = some (r, a')) :
    a'.inserted = b.inserted + (C.inserts b op).toNat := by
  rw [step_inserted (id_ne_zero h hn) (fun side => N.accepts _) hstep, h.inserts, h.inserted]

theorem insertCount_ladder (h : N.sim.Rel b a) (ops : List Op)
    (hn : b.inserted + C.insertCount b ops < 2 ^ 63) :
    C.ladder.insertCount a ops = C.insertCount b ops := by
  induction ops generalizing b a with
  | nil => rfl
  | cons op ops ih =>
    have hb : b.inserted + 1 < 2 ^ 64 := by omega
    obtain ⟨r, r', b', a', hb', ha', -, h'⟩ :=
      ClassSim.step h (admits h hb op fun _ => by omega)
    have hcount := inserted_step h hb ha'
    rw [h'.inserted] at hcount
    simp only [BookClass.insertCount, hb', ha', Option.elim_some, h.inserts] at hn ⊢
    rw [ih h' (by omega)]

theorem run (h : N.sim.Rel b a) {ops : List Op}
    (hn : a.inserted + C.ladder.insertCount a ops < 2 ^ 63) :
    ∃ rs b' a', C.run b ops = some (rs, b') ∧ C.ladder.run a ops = some (rs, a') ∧
      N.sim.Rel b' a' ∧ a'.inserted < 2 ^ 63 := by
  induction ops generalizing b a with
  | nil => exact ⟨[], b, a, rfl, rfl, h, by omega⟩
  | cons op ops ih =>
    have hins := h.inserted
    have hb : b.inserted + 1 < 2 ^ 64 := by omega
    obtain ⟨r, r', b₁, a₁, hb₁, ha₁, hr, h₁⟩ :=
      ClassSim.step h (admits h hb op fun _ => by omega)
    have hcount := inserted_step h hb ha₁
    simp only [BookClass.insertCount, ha₁, Option.elim_some, h.inserts] at hn
    obtain ⟨rs, b', a', hb', ha', h', hn'⟩ := ih h₁ (by omega)
    obtain rfl := hr.eq
    refine ⟨r :: rs, b', a', ?_, ?_, h', hn'⟩
    · simp [BookClass.run, hb₁, hb']
    · simp [BookClass.run, ha₁, ha']

end Numbered

def listNumbered : Numbered listBook where
  Rep := ListSide.Rep
  init _ := ⟨isList_nil _, rfl⟩
  issue := preIncrement_preCounter
  accepts _ := rfl
  represents := ListSide.represents
  insert _ hi hr hid := ListSide.insert_rep hi hr hid

def vectorNumbered : Numbered sortedVector where
  Rep := SortedVector.Rep
  init _ := rfl
  issue := preIncrement_preCounter
  accepts _ := rfl
  represents := SortedVector.represents
  insert _ hi hr hid := ⟨_, rfl, SortedVector.insert_rep hi hr hid⟩

theorem gt_of_ahead {side : Side} {n : ℕ} {l : Ladder} (h : Inv side preIds (fun _ => True) n l)
    (hn : n + 1 < 2 ^ 64) : (l.rows.map Prod.snd).Pairwise fun o o' => Order.gt side o o' := by
  rw [List.pairwise_map]
  refine h.sorted.imp_of_mem fun {r r'} hr hr' hahead => ?_
  rw [Order.gt, h.id_eq hn hr, h.id_eq hn hr']
  rcases hahead with hb | ⟨he, hlt⟩
  · rw [if_pos hb]
  · simp [he, hlt]

theorem lt_eq_gt (side : Side) (o o' : Order) : Order.lt side o o' = Order.gt side o' o := by
  simp only [Order.lt, Order.gt, eq_comm]

/-- A side of the list book and the same side of the vector book, in priority
order: the list holds the orders best first, the vector the same orders best
last, and the index finds exactly the blocks of the list. -/
structure SameSide (side : Side) (s : ListSide) (book : List Order) (rows : List (ℕ × Order)) :
    Prop where
  list : IsList s.heap s.ends rows
  bestFirst : (rows.map Prod.snd).Pairwise fun o o' => Order.gt side o o'
  vector : book = (rows.map Prod.snd).reverse
  bestLast : book.Pairwise fun o o' => Order.lt side o o'
  index : ∀ id n, s.index id = some n ↔ ∃ order, (n, order) ∈ rows ∧ order.id = id

/-- Starting empty, the list book and the sorted vector book give the same
replies to any sequence of operations and hold the same orders after it. -/
theorem listBook_sortedVector_agree (ops : List Op)
    (hcount : listBook.insertCount listBook.empty ops < 2 ^ 63) :
    ∃ replies b v, listBook.run listBook.empty ops = some (replies, b) ∧
      sortedVector.run sortedVector.empty ops = some (replies, v) ∧
      ∀ side, ∃ rows, SameSide side (b.sides side) (v.sides side) rows := by
  have hladder := Numbered.insertCount_ladder listNumbered.rel_empty ops
    (by simpa [BookClass.empty] using hcount)
  have hn : listBook.ladder.empty.inserted + listBook.ladder.insertCount listBook.ladder.empty ops <
      2 ^ 63 := by
    rw [hladder]
    simpa [BookClass.empty] using hcount
  obtain ⟨rs, b, a, hb, ha, hba, hlt⟩ := Numbered.run listNumbered.rel_empty hn
  obtain ⟨rs', v, a', hv, ha', hva, -⟩ := Numbered.run vectorNumbered.rel_empty hn
  -- both refine the same class over ladders
  obtain ⟨rfl, rfl⟩ : rs = rs' ∧ a = a' := by
    have := ha.symm.trans ha'
    simpa using this
  refine ⟨rs, b, v, hb, hv, fun side => ⟨(a.sides side).rows, ?_⟩⟩
  obtain ⟨hi, hlist, hindex⟩ := hba.sides side
  obtain ⟨-, hvector⟩ := hva.sides side
  have hins := hba.inserted
  have hgt := gt_of_ahead hi (by omega)
  refine ⟨hlist, hgt, hvector, ?_, fun id n => ?_⟩
  · rw [hvector, List.pairwise_reverse]
    simpa only [lt_eq_gt] using hgt
  · rw [hindex]
    constructor
    · intro hk
      obtain ⟨rfl, hm⟩ := hi.sound hk
      obtain ⟨r, hr, rfl⟩ := List.mem_map.mp hm
      exact ⟨r.2, hr, hi.idOf r hr⟩
    · rintro ⟨order, hr, rfl⟩
      exact hi.known trivial _ hr

/-- A run with an order of size 0, a sweep, a cancel and an unmatched market order. -/
def mixedOps : List Op :=
  [.insertOrder .buy ⟨0, 10, 5⟩, .insertOrder .sell ⟨0, 12, 0⟩, .marketOrder .buy ⟨0, 0, 3⟩,
    .cancelOrder .buy 2, .marketOrder .sell ⟨0, 0, 4⟩, .topOfBook]

theorem listBook_sortedVector_agree_mixedOps :
    ∃ replies b v, listBook.run listBook.empty mixedOps = some (replies, b) ∧
      sortedVector.run sortedVector.empty mixedOps = some (replies, v) ∧
      ∀ side, ∃ rows, SameSide side (b.sides side) (v.sides side) rows :=
  listBook_sortedVector_agree mixedOps (by decide)

end LowLevel.Books
