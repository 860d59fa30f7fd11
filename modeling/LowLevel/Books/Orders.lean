import Mathlib.Algebra.Order.Ring.Nat
import Mathlib.Data.List.Basic
import Mathlib.Logic.Function.Basic

/-! # The benchmarked order books

Three classes implement one interface: limit inserts, cancels by id, market
sweeps and the top of the book. Their methods run the same loops and differ in
how one side of the book is stored, in the ids and in the prices they admit.
A side is given by the primitive steps the methods take on it, and the methods
are written once over them. A step is `none` where the source would follow a
null or dangling pointer; a loop is `none` once it runs longer than the number
of orders ever inserted allows.
-/

namespace LowLevel.Books

inductive Side | buy | sell
  deriving DecidableEq, Repr

/-- `BuyOrder` and `SellOrder`, which differ in their comparisons only. -/
structure Order where
  id : ℕ := 0
  price : ℕ := 0
  size : ℕ := 0
  deriving DecidableEq, Repr

/-- Whether a price comes strictly before another on a side: bids from the
highest, asks from the lowest. -/
def Side.better : Side → ℕ → ℕ → Bool
  | .buy, p, q => decide (q < p)
  | .sell, p, q => decide (p < q)

/-- `operator>`: a better price, or the same price and an older order. -/
def Order.gt (side : Side) (o₁ o₂ : Order) : Bool :=
  if side.better o₁.price o₂.price then true
  else if o₁.price = o₂.price then decide (o₁.id < o₂.id)
  else false

/-- `operator<`: a worse price, or the same price and a newer order. -/
def Order.lt (side : Side) (o₁ o₂ : Order) : Bool :=
  if side.better o₂.price o₁.price then true
  else if o₁.price = o₂.price then decide (o₂.id < o₁.id)
  else false

/-- The steps the methods of a book take on one of its sides. -/
structure SideOps (σ : Type) where
  /-- Whether the side has an order. -/
  waiting : σ → Bool
  /-- The price the matching loop compares. -/
  price : σ → Option ℕ
  /-- The order of highest priority. -/
  front : σ → Option Order
  /-- Write the size of the order of highest priority. -/
  resize : σ → ℕ → Option σ
  /-- Remove the order of highest priority. -/
  pop : σ → Option σ
  /-- Store an order, in a block at the given address if it needs one. -/
  insert : σ → ℕ → Order → Option σ
  /-- Remove the order with an id; the inner `none` is an unknown id. -/
  cancel : σ → ℕ → Option (Option σ)

structure BookClass (σ : Type) where
  ops : Side → SideOps σ
  /-- A side without orders. -/
  init : Side → σ
  /-- Whether an insert takes a price. -/
  accepts : ℕ → Bool
  /-- The id of a new order and the counter after it, from the counter before. -/
  issue : ℕ → ℕ × ℕ
  /-- The price at which an unmatched market order is inserted. -/
  marketPrice : Side → ℕ

/-- A book: the id counter, the number of orders inserted so far, which is the
address of the next block, and the two sides. -/
structure Book (σ : Type) where
  counter : ℕ := 1
  inserted : ℕ := 0
  sides : Side → σ

/-- The public operations; the id of a given order is ignored. -/
inductive Op
  | insertOrder (side : Side) (order : Order)
  | cancelOrder (side : Side) (id : ℕ)
  | marketOrder (side : Side) (order : Order)
  | topOfBook
  deriving DecidableEq, Repr

/-- What an operation returns: an id, or the best orders of both sides. -/
inductive Reply
  | id (n : ℕ)
  | top (buy sell : Order)
  deriving DecidableEq, Repr

def Side.opposite : Side → Side
  | .buy => .sell
  | .sell => .buy

def Book.set {σ : Type} (b : Book σ) (side : Side) (s : σ) : Book σ :=
  { b with sides := Function.update b.sides side s }

@[simp] theorem Book.set_sides_self {σ : Type} (b : Book σ) (side : Side) (s : σ) :
    (b.set side s).sides side = s := Function.update_self ..

theorem Book.set_sides_of_ne {σ : Type} (b : Book σ) {side side' : Side} (h : side' ≠ side)
    (s : σ) :
    (b.set side s).sides side' = b.sides side' := Function.update_of_ne h ..

@[simp] theorem Book.set_inserted {σ : Type} (b : Book σ) (side : Side) (s : σ) :
    (b.set side s).inserted = b.inserted := rfl

@[simp] theorem Book.set_counter {σ : Type} (b : Book σ) (side : Side) (s : σ) :
    (b.set side s).counter = b.counter := rfl

theorem Side.opposite_ne (side : Side) : side.opposite ≠ side := by cases side <;> decide

namespace SideOps

variable {σ : Type} (S : SideOps σ)

def popIf (s : σ) (size : ℕ) : Option σ :=
  if size = 0 then S.pop s else some s

/-- The loop of a market order over the opposite side; returns the id of the
last order it met. -/
def sweep : ℕ → σ → ℕ → ℕ → Option (σ × ℕ)
  | 0, _, _, _ => none
  | fuel + 1, s, remaining, lastId =>
    if 0 < remaining ∧ S.waiting s then do
      let n ← S.front s
      if n.size ≤ remaining then
        sweep fuel (← S.pop s) (remaining - n.size) n.id
      else
        sweep fuel (← S.resize s (n.size - remaining)) 0 n.id
    else some (s, lastId)

def top (s : σ) : Option Order :=
  if S.waiting s then S.front s else some {}

end SideOps

namespace BookClass

variable {σ : Type} (C : BookClass σ)

def empty : Book σ := { sides := C.init }

def crossed (b : Book σ) : Option Bool :=
  if (C.ops .buy).waiting (b.sides .buy) ∧ (C.ops .sell).waiting (b.sides .sell) then do
    let buy ← (C.ops .buy).price (b.sides .buy)
    let sell ← (C.ops .sell).price (b.sides .sell)
    some (decide (sell ≤ buy))
  else some false

def fill (b : Book σ) : Option (Book σ) := do
  let buy ← (C.ops .buy).front (b.sides .buy)
  let sell ← (C.ops .sell).front (b.sides .sell)
  let fill := min buy.size sell.size
  let buys ← (C.ops .buy).resize (b.sides .buy) (buy.size - fill)
  let sells ← (C.ops .sell).resize (b.sides .sell) (sell.size - fill)
  let buys ← (C.ops .buy).popIf buys (buy.size - fill)
  let sells ← (C.ops .sell).popIf sells (sell.size - fill)
  some ((b.set .buy buys).set .sell sells)

def matchLoop : ℕ → Bool → Book σ → Option (Bool × Book σ)
  | 0, _, _ => none
  | fuel + 1, did, b => do
    if ← C.crossed b then matchLoop fuel true (← C.fill b) else some (did, b)

/-- `match`: trade while the best prices cross. -/
def matchOrders (b : Book σ) : Option (Bool × Book σ) := C.matchLoop (2 * b.inserted + 1) false b

def insertOrder (side : Side) (b : Book σ) (order : Order) : Option (ℕ × Book σ) :=
  if C.accepts order.price then do
    let (id, counter) := C.issue b.counter
    let s ← (C.ops side).insert (b.sides side) b.inserted { order with id }
    let (_, b) ← C.matchOrders { b.set side s with counter, inserted := b.inserted + 1 }
    some (id, b)
  else some (0, b)

def cancelOrder (side : Side) (b : Book σ) (id : ℕ) : Option (ℕ × Book σ) := do
  match ← (C.ops side).cancel (b.sides side) id with
  | none => some (0, b)
  | some s => some (id, b.set side s)

/-- Fill an order against the opposite side at any price; insert it if it met
no resting order. -/
def marketOrder (side : Side) (b : Book σ) (order : Order) : Option (ℕ × Book σ) := do
  let (s, lastId) ← (C.ops side.opposite).sweep (b.inserted + 2) (b.sides side.opposite)
    order.size 0
  let b := b.set side.opposite s
  if lastId = 0 then C.insertOrder side b { order with price := C.marketPrice side }
  else some (lastId, b)

def insertBuyOrder := C.insertOrder .buy
def insertSellOrder := C.insertOrder .sell
def cancelBuyOrder := C.cancelOrder .buy
def cancelSellOrder := C.cancelOrder .sell
def marketBuyOrder := C.marketOrder .buy
def marketSellOrder := C.marketOrder .sell

def topOfBook (b : Book σ) : Option (Order × Order) := do
  some (← (C.ops .buy).top (b.sides .buy), ← (C.ops .sell).top (b.sides .sell))

def step (b : Book σ) : Op → Option (Reply × Book σ)
  | .insertOrder .buy order => (C.insertBuyOrder b order).map fun (n, b) => (.id n, b)
  | .insertOrder .sell order => (C.insertSellOrder b order).map fun (n, b) => (.id n, b)
  | .cancelOrder .buy id => (C.cancelBuyOrder b id).map fun (n, b) => (.id n, b)
  | .cancelOrder .sell id => (C.cancelSellOrder b id).map fun (n, b) => (.id n, b)
  | .marketOrder .buy order => (C.marketBuyOrder b order).map fun (n, b) => (.id n, b)
  | .marketOrder .sell order => (C.marketSellOrder b order).map fun (n, b) => (.id n, b)
  | .topOfBook => (C.topOfBook b).map fun (buy, sell) => (.top buy sell, b)

theorem step_insertOrder (b : Book σ) (side : Side) (order : Order) :
    C.step b (.insertOrder side order) =
      (C.insertOrder side b order).map fun (n, b) => (.id n, b) := by cases side <;> rfl

theorem step_cancelOrder (b : Book σ) (side : Side) (id : ℕ) :
    C.step b (.cancelOrder side id) =
      (C.cancelOrder side b id).map fun (n, b) => (.id n, b) := by cases side <;> rfl

theorem step_marketOrder (b : Book σ) (side : Side) (order : Order) :
    C.step b (.marketOrder side order) =
      (C.marketOrder side b order).map fun (n, b) => (.id n, b) := by cases side <;> rfl

theorem step_cases {C : BookClass σ} {b b' : Book σ} {op : Op} {r : Reply}
    (h : C.step b op = some (r, b')) :
    (∃ side order i, op = .insertOrder side order ∧ C.insertOrder side b order = some (i, b')) ∨
      (∃ side id i, op = .cancelOrder side id ∧ C.cancelOrder side b id = some (i, b')) ∨
      (∃ side order i, op = .marketOrder side order ∧ C.marketOrder side b order = some (i, b')) ∨
      (op = .topOfBook ∧ b' = b) := by
  cases op with
  | insertOrder side order =>
    rw [step_insertOrder, Option.map_eq_some_iff] at h
    obtain ⟨⟨i, b₁⟩, hi, heq⟩ := h
    cases heq
    exact Or.inl ⟨side, order, i, rfl, hi⟩
  | cancelOrder side id =>
    rw [step_cancelOrder, Option.map_eq_some_iff] at h
    obtain ⟨⟨i, b₁⟩, hi, heq⟩ := h
    cases heq
    exact Or.inr (Or.inl ⟨side, id, i, rfl, hi⟩)
  | marketOrder side order =>
    rw [step_marketOrder, Option.map_eq_some_iff] at h
    obtain ⟨⟨i, b₁⟩, hi, heq⟩ := h
    cases heq
    exact Or.inr (Or.inr (Or.inl ⟨side, order, i, rfl, hi⟩))
  | topOfBook =>
    rw [step, Option.map_eq_some_iff] at h
    obtain ⟨_, -, heq⟩ := h
    cases heq
    exact Or.inr (Or.inr (Or.inr ⟨rfl, rfl⟩))

/-- The replies of a sequence of operations and the book after it. -/
def run (b : Book σ) : List Op → Option (List Reply × Book σ)
  | [] => some ([], b)
  | op :: ops => do
    let (reply, b) ← C.step b op
    let (replies, b) ← run b ops
    some (reply :: replies, b)

/-- Whether an operation inserts an order: a market order does when it met no
resting order. -/
def inserts (b : Book σ) : Op → Bool
  | .insertOrder _ order => C.accepts order.price
  | .marketOrder side order =>
    order.size = 0 || !(C.ops side.opposite).waiting (b.sides side.opposite)
  | _ => false

def insertCount (b : Book σ) : List Op → ℕ
  | [] => 0
  | op :: ops =>
    (C.inserts b op).toNat + ((C.step b op).elim 0 fun (_, b) => insertCount b ops)

variable {C} {b b' : Book σ}

theorem fill_inserted (h : C.fill b = some b') : b'.inserted = b.inserted := by
  simp only [fill, Option.bind_eq_bind, Option.bind_eq_some_iff] at h
  obtain ⟨_, -, _, -, _, -, _, -, _, -, _, -, h⟩ := h
  cases h
  rfl

theorem matchLoop_crossed {fuel : ℕ} {did : Bool} (h : C.crossed b = some true)
    (hfill : C.fill b = some b') : C.matchLoop (fuel + 1) did b = C.matchLoop fuel true b' := by
  simp [matchLoop, h, hfill]

theorem matchLoop_uncrossed {fuel : ℕ} {did : Bool} (h : C.crossed b = some false) :
    C.matchLoop (fuel + 1) did b = some (did, b) := by
  simp [matchLoop, h]

theorem matchLoop_exit {fuel : ℕ} {did r : Bool} (h : C.matchLoop fuel did b = some (r, b')) :
    C.crossed b' = some false ∧ b'.inserted = b.inserted := by
  induction fuel generalizing did b with
  | zero => simp [matchLoop] at h
  | succ fuel ih =>
    simp only [matchLoop, Option.bind_eq_bind, Option.bind_eq_some_iff] at h
    obtain ⟨crossed, hcrossed, h⟩ := h
    cases crossed with
    | false =>
      obtain ⟨rfl, rfl⟩ : did = r ∧ b = b' := by simpa using h
      exact ⟨hcrossed, rfl⟩
    | true =>
      obtain ⟨b₁, hb₁, h⟩ : ∃ b₁, C.fill b = some b₁ ∧ C.matchLoop fuel true b₁ = some (r, b') := by
        simpa [Option.bind_eq_some_iff] using h
      obtain ⟨hexit, hn⟩ := ih h
      exact ⟨hexit, hn.trans (fill_inserted hb₁)⟩

theorem insertOrder_stored {side : Side} {order : Order} {l : σ} {r : Bool}
    (hacc : C.accepts order.price = true)
    (hinsert : (C.ops side).insert (b.sides side) b.inserted
      { order with id := (C.issue b.counter).1 } = some l)
    (hmatch : C.matchOrders { b.set side l with
      counter := (C.issue b.counter).2
      inserted := b.inserted + 1 } = some (r, b')) :
    C.insertOrder side b order = some ((C.issue b.counter).1, b') := by
  simp [insertOrder, hacc, hinsert, hmatch]

/-- An insert is rejected and changes nothing, or counts and leaves the book uncrossed. -/
theorem insertOrder_cases {side : Side} {order : Order} {i : ℕ}
    (h : C.insertOrder side b order = some (i, b')) :
    C.accepts order.price = false ∧ i = 0 ∧ b' = b ∨
      C.accepts order.price = true ∧ C.crossed b' = some false ∧
        b'.inserted = b.inserted + 1 := by
  rw [insertOrder] at h
  split at h
  · rename_i ha
    simp only [Option.bind_eq_bind, Option.bind_eq_some_iff] at h
    obtain ⟨s, -, ⟨r, b₁⟩, hm, h⟩ := h
    obtain ⟨hexit, hn⟩ := matchLoop_exit hm
    cases h
    exact .inr ⟨ha, hexit, hn⟩
  · rename_i ha
    cases h
    exact .inl ⟨by simpa using ha, rfl, rfl⟩

theorem marketOrder_cases {side : Side} {order : Order} {i : ℕ}
    (h : C.marketOrder side b order = some (i, b')) :
    ∃ s lastId, (C.ops side.opposite).sweep (b.inserted + 2) (b.sides side.opposite)
        order.size 0 = some (s, lastId) ∧
      (lastId ≠ 0 ∧ i = lastId ∧ b' = b.set side.opposite s ∨
        lastId = 0 ∧ C.insertOrder side (b.set side.opposite s)
          { order with price := C.marketPrice side } = some (i, b')) := by
  simp only [marketOrder, Option.bind_eq_bind, Option.bind_eq_some_iff] at h
  obtain ⟨⟨s, lastId⟩, hs, h⟩ := h
  refine ⟨s, lastId, hs, ?_⟩
  dsimp only at h
  split at h
  · rename_i h0
    exact .inr ⟨h0, h⟩
  · rename_i h0
    cases h
    exact .inl ⟨h0, rfl, rfl⟩

theorem cancelOrder_cases {side : Side} {id i : ℕ}
    (h : C.cancelOrder side b id = some (i, b')) :
    (C.ops side).cancel (b.sides side) id = some none ∧ i = 0 ∧ b' = b ∨
      ∃ s, (C.ops side).cancel (b.sides side) id = some (some s) ∧ i = id ∧ b' = b.set side s := by
  simp only [cancelOrder, Option.bind_eq_bind, Option.bind_eq_some_iff] at h
  obtain ⟨found, hfound, h⟩ := h
  cases found with
  | none =>
    cases h
    exact .inl ⟨hfound, rfl, rfl⟩
  | some s =>
    cases h
    exact .inr ⟨s, hfound, rfl, rfl⟩

theorem run_singleton {op : Op} {r : Reply} (h : C.step b op = some (r, b')) :
    C.run b [op] = some ([r], b') := by
  simp [run, h]

theorem run_append {b'' : Book σ} {ops ops' : List Op} {rs rs' : List Reply}
    (h : C.run b ops = some (rs, b')) (h' : C.run b' ops' = some (rs', b'')) :
    C.run b (ops ++ ops') = some (rs ++ rs', b'') := by
  induction ops generalizing b rs with
  | nil =>
    cases h
    exact h'
  | cons op ops ih =>
    simp only [run, Option.bind_eq_bind, Option.bind_eq_some_iff] at h
    obtain ⟨⟨r, b₁⟩, hb₁, ⟨rs₁, b₂⟩, hb₂, heq⟩ := h
    cases heq
    simp [run, hb₁, ih hb₂]

end BookClass

end LowLevel.Books
