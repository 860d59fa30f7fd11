import LowLevel.Books.Agreement
import LowLevel.Books.TickRuns
import Mathlib.Data.List.Forall2

/-! # The benchmark workload on the list book and the tick offset book

The benchmark replays one script on every book: limit prices from 1 to 1000 and
sizes from 1 to 100, on a tick offset book of 1024 levels. The ids of the two
books differ by one. They also differ in the price of an unmatched market order:
the list book inserts it beyond every limit price, the tick offset book at the
end of its array, and a market sell lands on level 1, which a limit sell may
already use. The order of priority is the same as long as this does not happen.
-/

namespace LowLevel.Books

open Ladder DoublyLinked

/-- The operations `generate` and `warmup` produce, with any id for a cancel. -/
def Op.inWorkload : Op → Bool
  | .insertOrder _ order =>
    1 ≤ order.price && order.price ≤ 1000 && 1 ≤ order.size && order.size ≤ 100
  | .marketOrder _ order => 1 ≤ order.size && order.size ≤ 100
  | _ => true

/-- The id of the list book for an id of the tick offset book. -/
def listId (id : ℕ) : ℕ := if id = 0 then 0 else id + 1

/-- The operation on the list book for one on the tick offset book. -/
def listOp : Op → Op
  | .cancelOrder side id => .cancelOrder side (listId id)
  | op => op

/-- Ids of the two books that stand for the same order, or for none. -/
def SameId (i i' : ℕ) : Prop := i = listId i'

structure SameOrder (o o' : Order) : Prop where
  id : SameId o.id o'.id
  size : o.size = o'.size

def SamePrice : Side → ℕ → ℕ → Prop
  | .buy, p, p' => p = p' ∧ 1 ≤ p ∧ p ≤ 1000 ∨ p = 2 ^ 64 - 1 ∧ p' = 1023
  | .sell, p, p' => p = p' ∧ 1 ≤ p ∧ p ≤ 1000 ∨ p = 0 ∧ p' = 1

structure SameRow (side : Side) (r r' : ℕ × Order) : Prop where
  label : r.1 = r'.1
  order : SameOrder r.2 r'.2
  price : SamePrice side r.2.price r'.2.price

/-- Ladders that hold the same orders in the same order of priority. -/
structure SameLadder (side : Side) (n : ℕ) (l l' : Ladder) : Prop where
  rows : List.Forall₂ (SameRow side) l.rows l'.rows
  keys {i i'} : SameId i i' → l.keys i = l'.keys i'
  length : l'.rows.length ≤ n

theorem sameId_iff {i i' j j' : ℕ} (h : SameId i i') (h' : SameId j j') : i = j ↔ i' = j' := by
  rw [SameId, listId] at h h'
  split at h <;> split at h' <;> omega

theorem reports_same : Reports SameId SameOrder where
  zero := rfl
  zero_iff h := sameId_iff h rfl
  default := ⟨rfl, rfl⟩
  size h := h.size
  id h := h.id

theorem samePrice_compare {p p' q q' : ℕ} (h : SamePrice .buy p p') (h' : SamePrice .sell q q') :
    q ≤ p ↔ q' ≤ p' := by
  simp only [SamePrice] at h h'
  omega

section SameLadder

variable {side : Side} {n : ℕ} {l l' : Ladder}

theorem SameLadder.update_keys (h : SameLadder side n l l') {j j' : ℕ} (hj : SameId j j')
    (v : Option ℕ) {i i' : ℕ} (hi : SameId i i') :
    Function.update l.keys j v i = Function.update l'.keys j' v i' := by
  by_cases he : i = j
  · subst he
    rw [(sameId_iff hi hj).mp rfl, Function.update_self, Function.update_self]
  · rw [Function.update_of_ne he, Function.update_of_ne (mt (sameId_iff hi hj).mpr he), h.keys hi]

theorem sideSim_same (side : Side) : SideSim (Ladder.ops side) (Ladder.ops side) SameId SameOrder
    (SamePrice side) (fun l => l.rows.length) (SameLadder side) := by
  have hwaiting : ∀ {n l l'}, SameLadder side n l l' → (Ladder.ops side).waiting l →
      ∃ r rows r' rows', l.rows = r :: rows ∧ l'.rows = r' :: rows' ∧ SameRow side r r' ∧
        List.Forall₂ (SameRow side) rows rows' := by
    intro n l l' h hw
    have hrows := h.rows
    cases hl : l.rows with
    | nil => simp [Ladder.ops, hl] at hw
    | cons r rows =>
      rw [hl] at hrows
      obtain ⟨r', rows', hr, hrest, hl'⟩ := List.forall₂_cons_left_iff.mp hrows
      exact ⟨r, rows, r', rows', rfl, hl', hr, hrest⟩
  constructor
  case mono => exact fun h => { h with length := h.length.trans (Nat.le_succ _) }
  case len_le => exact fun h => h.length
  case waiting =>
    intro n l l' h
    have hlen := h.rows.length_eq
    cases hl : l.rows <;> cases hl' : l'.rows <;> simp_all [Ladder.ops]
  case price =>
    intro n l l' h hw
    obtain ⟨r, rows, r', rows', hl, hl', hr, -⟩ := hwaiting h hw
    exact ⟨_, _, by simp [Ladder.ops, hl], by simp [Ladder.ops, hl'], hr.price⟩
  case front =>
    intro n l l' h hw
    obtain ⟨r, rows, r', rows', hl, hl', hr, -⟩ := hwaiting h hw
    exact ⟨_, _, by simp [Ladder.ops, hl], by simp [Ladder.ops, hl'], hr.order⟩
  case resize =>
    intro n l l' size h hw
    obtain ⟨r, rows, r', rows', hl, hl', hr, hrest⟩ := hwaiting h hw
    refine ⟨⟨(r.1, { r.2 with size }) :: rows, l.keys⟩,
      ⟨(r'.1, { r'.2 with size }) :: rows', l'.keys⟩,
      by simp only [Ladder.ops, hl], by simp only [Ladder.ops, hl'], ⟨?_, h.keys, ?_⟩, rfl,
        by simp [hl']⟩
    · exact .cons ⟨hr.label, ⟨hr.order.id, rfl⟩, hr.price⟩ hrest
    · simpa [hl'] using h.length
  case pop =>
    intro n l l' h hw
    obtain ⟨r, rows, r', rows', hl, hl', hr, hrest⟩ := hwaiting h hw
    have hlen := h.length
    rw [hl', List.length_cons] at hlen
    refine ⟨⟨rows, Function.update l.keys r.2.id none⟩,
      ⟨rows', Function.update l'.keys r'.2.id none⟩,
      by simp only [Ladder.ops, hl], by simp only [Ladder.ops, hl'],
      ⟨hrest, fun hi => h.update_keys hr.order.id none hi, Nat.le_of_succ_le hlen⟩, by simp [hl']⟩
  case cancel =>
    intro n l l' i i' h hi
    have hk := h.keys hi
    cases hm : l'.keys i' with
    | none =>
      rw [hm] at hk
      exact .inl ⟨by simp [Ladder.ops, hk], by simp [Ladder.ops, hm]⟩
    | some m =>
      rw [hm] at hk
      refine .inr ⟨⟨l.rows.filter fun r => r.1 ≠ m, Function.update l.keys i none⟩,
        ⟨l'.rows.filter fun r => r.1 ≠ m, Function.update l'.keys i' none⟩,
        by simp [Ladder.ops, hk], by simp [Ladder.ops, hm], ?_, fun hj => h.update_keys hi none hj,
          ?_⟩
      · refine List.rel_filter (fun r r' hr => ?_) h.rows
        simp [hr.label]
      · exact (List.length_filter_le _ _).trans h.length

/-- A limit price keeps its place in both books; so does the price of an unmatched
market order, unless it is a sell that finds a limit sell at price 1. -/
theorem samePrice_better {p p' q q' : ℕ} (hp : SamePrice side p p') (hq : SamePrice side q q')
    (hone : side = .sell → p = 0 → q ≠ 1) : side.better p q = side.better p' q' := by
  cases side with
  | buy =>
    simp only [SamePrice] at hp hq
    simp only [Side.better, decide_eq_decide]
    omega
  | sell =>
    have hone := hone rfl
    simp only [SamePrice] at hp hq
    simp only [Side.better, decide_eq_decide]
    omega

theorem SameLadder.insert (h : SameLadder side n l l') {order order' : Order}
    (horder : SameOrder order order') (hprice : SamePrice side order.price order'.price)
    (hone : side = .sell → order.price = 0 → ∀ r ∈ l.rows, r.2.price ≠ 1) :
    SameLadder side (n + 1) (l.insert side n order) (l'.insert side n order') := by
  have hsplit : ∀ {rows rows'}, List.Forall₂ (SameRow side) rows rows' →
      (side = .sell → order.price = 0 → ∀ r ∈ rows, r.2.price ≠ 1) →
      List.Forall₂ (SameRow side) (rows.takeWhile (stays side order.price))
          (rows'.takeWhile (stays side order'.price)) ∧
        List.Forall₂ (SameRow side) (rows.dropWhile (stays side order.price))
          (rows'.dropWhile (stays side order'.price)) := by
    intro rows rows' hrows hone
    induction hrows with
    | nil => exact ⟨.nil, .nil⟩
    | @cons r r' rows rows' hr hrows ih =>
      have hstay : stays side order.price r = stays side order'.price r' := by
        rw [stays, stays, samePrice_better hprice hr.price fun hs hp =>
          hone hs hp r (List.mem_cons_self ..)]
      obtain ⟨htake, hdrop⟩ := ih fun hs hp x hx => hone hs hp x (List.mem_cons_of_mem _ hx)
      by_cases hpos : stays side order.price r
      · rw [List.takeWhile_cons_of_pos hpos, List.dropWhile_cons_of_pos hpos,
          List.takeWhile_cons_of_pos (hstay ▸ hpos), List.dropWhile_cons_of_pos (hstay ▸ hpos)]
        exact ⟨.cons hr htake, hdrop⟩
      · rw [List.takeWhile_cons_of_neg hpos, List.dropWhile_cons_of_neg hpos,
          List.takeWhile_cons_of_neg (hstay ▸ hpos), List.dropWhile_cons_of_neg (hstay ▸ hpos)]
        exact ⟨.nil, .cons hr hrows⟩
  obtain ⟨htake, hdrop⟩ := hsplit h.rows hone
  refine ⟨List.rel_append htake (.cons ⟨rfl, horder, hprice⟩ hdrop), ?_, ?_⟩
  · exact fun hi => h.update_keys horder.id (some n) hi
  · rw [(l'.insert_perm side n order').length_eq]
    exact Nat.succ_le_succ h.length

end SameLadder

def workloadSim : ClassSim listBook.ladder (tickOffset 1024).ladder SameId SameOrder where
  prices := SamePrice
  len l := l.rows.length
  sides := SameLadder
  reports := reports_same
  sim := sideSim_same
  compare := samePrice_compare
  ids := preIds
  ids' := postIds
  counter := preCounter
  counter' := postCounter
  issue := preIncrement_preCounter
  issue' := postIncrement_postCounter

variable {a a' : Book Ladder}

theorem workloadSim_empty :
    workloadSim.Rel listBook.ladder.empty (tickOffset 1024).ladder.empty where
  inserted := rfl
  counter := rfl
  counter' := rfl
  sides _ := ⟨.nil, fun _ => rfl, Nat.le_refl _⟩

theorem workloadSim_canInsert (h : workloadSim.Rel a a') (hn : a.inserted + 2 < 2 ^ 64)
    {side : Side} {order order' : Order} (hsize : order.size = order'.size)
    (hprice : SamePrice side order.price order'.price)
    (hone : side = .sell → order.price = 0 → ∀ r ∈ (a.sides side).rows, r.2.price ≠ 1) :
    workloadSim.CanInsert a a' side order order' := by
  have hid : SameId (preIds a.inserted) (postIds a.inserted) := by
    rw [preIds_eq hn, postIds_eq (by omega), SameId, listId, if_neg (by omega)]
  exact ⟨hid, _, _, rfl, rfl, (h.sides side).insert ⟨hid, hsize⟩ hprice hone⟩

/-- The orders on a side of the list book, from the head on. -/
def restingOrders (b : Book ListSide) (side : Side) : List Order :=
  (walk (b.sides side).heap b.inserted (b.sides side).ends.head).map Prod.snd

/-- An insert finds the counter of the list book below its end. -/
def keepsCounter (b : Book ListSide) (op : Op) : Bool :=
  !listBook.inserts b op || decide (b.counter + 1 < 2 ^ 64)

/-- A market sell that finds no bid finds no limit sell at price 1 either. -/
def avoidsLevelOne (b : Book ListSide) : Op → Bool
  | .marketOrder .sell _ =>
    !(restingOrders b .buy).isEmpty || (restingOrders b .sell).all fun o => o.price ≠ 1
  | _ => true

/-- Every operation of a run keeps the counter and avoids level 1. -/
def comparable (b : Book ListSide) : List Op → Bool
  | [] => true
  | op :: ops => keepsCounter b op && avoidsLevelOne b op &&
    (listBook.step b op).elim true fun (_, b) => comparable b ops

structure SameBooks (b : Book ListSide) (t : Book TickSide) (a a' : Book Ladder) : Prop where
  list : listNumbered.sim.Rel b a
  same : workloadSim.Rel a a'
  tick : (tickSim 1024).Rel t a'
  counter : b.inserted + 1 < 2 ^ 64

variable {b : Book ListSide} {t : Book TickSide} {op : Op}

theorem restingOrders_eq (h : listNumbered.sim.Rel b a) (side : Side) :
    restingOrders b side = (a.sides side).rows.map Prod.snd := by
  obtain ⟨hi, hlist, -⟩ := h.sides side
  rw [restingOrders, hlist.walk hi.length_le]

theorem SameBooks.below (h : SameBooks b t a a') (hk : keepsCounter b op)
    (hins : listBook.inserts b op) : b.inserted + 2 < 2 ^ 64 := by
  have hcounter : b.counter = b.inserted + 1 := by
    rw [h.list.counter]
    exact Nat.mod_eq_of_lt h.counter
  simp only [keepsCounter, hins, Bool.not_true, Bool.false_or, decide_eq_true_eq] at hk
  omega

theorem SameBooks.admits (h : SameBooks b t a a') (hop : op.inWorkload)
    (hk : keepsCounter b (listOp op)) (hone : avoidsLevelOne b (listOp op)) :
    workloadSim.Admits a a' (listOp op) op := by
  have hn := h.list.inserted
  cases op with
  | insertOrder side order =>
    simp only [Op.inWorkload, Bool.and_eq_true, decide_eq_true_eq] at hop
    have hprice : SamePrice side order.price order.price := by
      cases side <;> exact .inl ⟨rfl, by omega, by omega⟩
    refine .insertOrder ?_ fun _ => workloadSim_canInsert h.same ?_ rfl hprice fun _ h0 => by omega
    · simp only [BookClass.ladder, listBook, tickOffset]
      simp
      omega
    · have := h.below hk rfl
      omega
  | cancelOrder side id => exact .cancelOrder rfl
  | marketOrder side order =>
    simp only [Op.inWorkload, Bool.and_eq_true, decide_eq_true_eq] at hop
    refine .marketOrder rfl (by cases side <;> rfl) fun s hs _ => ?_
    have hrows : (a.sides side.opposite).rows = [] := by
      rcases (sweep_ladder hs).2 with ⟨-, hnone⟩ | ⟨-, r, hr, hid⟩
      · exact hnone.resolve_left (by omega)
      · exact absurd hid.symm (Numbered.id_ne_zero h.list h.counter side.opposite r hr)
    have hins : listBook.inserts b (listOp (.marketOrder side order)) = true := by
      rw [← h.list.inserts]
      simp [listOp, BookClass.inserts, BookClass.ladder, Ladder.ops, hrows]
    have hbelow := h.below hk hins
    refine workloadSim_canInsert h.same (by omega) rfl ?_ ?_
    · cases side with
      | buy => exact .inr ⟨rfl, rfl⟩
      | sell => exact .inr ⟨rfl, rfl⟩
    · rintro rfl -
      simp only [Side.opposite] at hrows
      simp only [listOp, avoidsLevelOne, restingOrders_eq h.list, hrows, List.map_nil,
        List.isEmpty_nil, Bool.not_true, Bool.false_or] at hone
      simpa using hone
  | topOfBook => exact .topOfBook

theorem SameBooks.step (h : SameBooks b t a a') (hop : op.inWorkload)
    (hk : keepsCounter b (listOp op)) (hone : avoidsLevelOne b (listOp op)) :
    ∃ r r' b₁ t₁ a₁ a₁', listBook.step b (listOp op) = some (r, b₁) ∧
      (tickOffset 1024).step t op = some (r', t₁) ∧ ClassSim.Matches SameId SameOrder r r' ∧
      SameBooks b₁ t₁ a₁ a₁' := by
  have hlist := Numbered.admits h.list h.counter (listOp op) (h.below hk)
  obtain ⟨r, r₁, b₁, a₁, hb₁, ha₁, hr, hlist'⟩ := ClassSim.step h.list hlist
  obtain ⟨r₂, r₃, a₂, a₁', ha₂, ha₁', hm, hsame'⟩ := ClassSim.step h.same (h.admits hop hk hone)
  obtain ⟨r', r₄, t₁, a₂', ht₁, ha₂', hr', htick'⟩ :=
    ClassSim.step h.tick (tickSim_admits h.tick op)
  -- the steps over ladders are the same on both ends
  obtain ⟨rfl, rfl⟩ : r₁ = r₂ ∧ a₁ = a₂ := by
    have heq := ha₁.symm.trans ha₂
    simpa using heq
  obtain ⟨rfl, rfl⟩ : r₃ = r₄ ∧ a₁' = a₂' := by
    have heq := ha₁'.symm.trans ha₂'
    simpa using heq
  obtain rfl := hr.eq
  obtain rfl := hr'.eq
  have hcount := Numbered.inserted_step h.list h.counter ha₁
  refine ⟨r, r', b₁, t₁, a₁, a₁', hb₁, ht₁, hm, hlist', hsame', htick', ?_⟩
  rw [hlist'.inserted] at hcount
  have hcounter := h.counter
  cases hins : listBook.inserts b (listOp op) with
  | false =>
    rw [hins] at hcount
    simpa [hcount] using hcounter
  | true =>
    have hbelow := h.below hk hins
    rw [hins, Bool.toNat_true] at hcount
    omega

theorem SameBooks.run (h : SameBooks b t a a') {ops : List Op} (hops : ∀ op ∈ ops, op.inWorkload)
    (hc : comparable b (ops.map listOp)) :
    ∃ rs rs' b₁ t₁, listBook.run b (ops.map listOp) = some (rs, b₁) ∧
      (tickOffset 1024).run t ops = some (rs', t₁) ∧
      List.Forall₂ (ClassSim.Matches SameId SameOrder) rs rs' := by
  induction ops generalizing b t a a' with
  | nil => exact ⟨[], [], b, t, rfl, rfl, .nil⟩
  | cons op ops ih =>
    rw [List.map_cons, comparable, Bool.and_eq_true, Bool.and_eq_true] at hc
    obtain ⟨⟨hk, hone⟩, hrest⟩ := hc
    obtain ⟨r, r', b₁, t₁, a₁, a₁', hb₁, ht₁, hm, h₁⟩ :=
      h.step (hops op (List.mem_cons_self ..)) hk hone
    rw [hb₁, Option.elim_some] at hrest
    obtain ⟨rs, rs', b₂, t₂, hb₂, ht₂, hms⟩ :=
      ih h₁ (fun op hop => hops op (List.mem_cons_of_mem _ hop)) hrest
    refine ⟨r :: rs, r' :: rs', b₂, t₂, ?_, ?_, .cons hm hms⟩
    · simp [BookClass.run, hb₁, hb₂]
    · simp [BookClass.run, ht₁, ht₂]

/-- In every run of the workload that keeps the counter of the list book and in
which no market sell is inserted behind a limit sell at price 1, the list book
and the tick offset book give corresponding replies. -/
theorem workload_agrees_of_comparable (ops : List Op) (hops : ∀ op ∈ ops, op.inWorkload)
    (hc : comparable listBook.empty (ops.map listOp)) :
    ∃ rs rs' b t, listBook.run listBook.empty (ops.map listOp) = some (rs, b) ∧
      (tickOffset 1024).run (tickOffset 1024).empty ops = some (rs', t) ∧
      List.Forall₂ (ClassSim.Matches SameId SameOrder) rs rs' :=
  SameBooks.run ⟨listNumbered.rel_empty, workloadSim_empty, tickSim_empty 1024, by decide⟩ hops hc

/-- An unmatched market sell rests, is met by a limit sell at price 1 and filled first. -/
theorem workload_agrees_of_comparable_marketFirst : ∃ rs rs' b t,
    listBook.run listBook.empty ([.marketOrder .sell ⟨0, 0, 5⟩, .insertOrder .sell ⟨0, 1, 10⟩,
      .cancelOrder .sell 2, .insertOrder .buy ⟨0, 1000, 3⟩, .topOfBook].map listOp) = some (rs, b) ∧
      (tickOffset 1024).run (tickOffset 1024).empty [.marketOrder .sell ⟨0, 0, 5⟩,
        .insertOrder .sell ⟨0, 1, 10⟩, .cancelOrder .sell 2, .insertOrder .buy ⟨0, 1000, 3⟩,
        .topOfBook] = some (rs', t) ∧
      List.Forall₂ (ClassSim.Matches SameId SameOrder) rs rs' :=
  workload_agrees_of_comparable _ (by decide) (by decide)

/-- An unmatched market sell goes before a limit sell at price 1 in the list book
and behind it in the tick offset book. -/
theorem workload_disagrees_on_level_one : ∃ ops, (∀ op ∈ ops, op.inWorkload) ∧
    ∃ rs rs' b t, listBook.run listBook.empty (ops.map listOp) = some (rs, b) ∧
      (tickOffset 1024).run (tickOffset 1024).empty ops = some (rs', t) ∧
      ¬ List.Forall₂ (ClassSim.Matches SameId SameOrder) rs rs' := by
  refine ⟨[.insertOrder .sell ⟨0, 1, 10⟩, .marketOrder .sell ⟨0, 0, 5⟩, .topOfBook], by decide,
    [.id 2, .id 3, .top {} ⟨3, 0, 5⟩], [.id 1, .id 2, .top {} ⟨1, 1, 10⟩], _, _, rfl, rfl, ?_⟩
  intro h
  simp only [List.forall₂_cons] at h
  obtain ⟨-, -, htop, -⟩ := h
  cases htop with
  | top _ hsell => exact absurd hsell.size (by decide)

end LowLevel.Books
