import LowLevel.Books.TickOffset

/-! # Runs of the tick offset book

Every operation succeeds: no null level is followed, no index leaves the array
and no loop runs on. A level is null exactly without resting orders and holds
them in order of arrival otherwise; the best indices bound the levels in use
and never cross. Ids are 64 bits wide: while fewer than `2 ^ 64` orders have
been accepted they increase along each level and the tables are exact.
-/

namespace LowLevel.Books

open DoublyLinked Ladder TickSide

/-- The id of the order inserted after `n` others, and the counter after `n` inserts. -/
def postIds (n : ℕ) : ℕ := (n + 1) % 2 ^ 64
def postCounter (n : ℕ) : ℕ := (n + 1) % 2 ^ 64

theorem postIncrement_postCounter (n : ℕ) :
    postIncrement (postCounter n) = (postIds n, postCounter (n + 1)) := by
  simp [postIncrement, postCounter, postIds]

theorem postIds_eq {n : ℕ} (h : n + 1 < 2 ^ 64) : postIds n = n + 1 := by
  rw [postIds, Nat.mod_eq_of_lt h]

/-- Ids are not handed out twice during fewer than `2 ^ 64` inserts. -/
def tickSim (Size : ℕ) : ClassSim (tickOffset Size) (tickOffset Size).ladder Eq Eq :=
  refinement (tickOffset Size) postIds postCounter (· < 2 ^ 64) (Rep Size)
    (fun _ h => Nat.lt_of_succ_lt h) (TickSide.represents Size) postIncrement_postCounter

variable {Size : ℕ} {b : Book TickSide} {a : Book Ladder}

theorem tickSim_empty (Size : ℕ) :
    (tickSim Size).Rel (tickOffset Size).empty (tickOffset Size).ladder.empty where
  inserted := rfl
  counter := rfl
  counter' := rfl
  sides side := ⟨inv_init, fun _ => rfl, by simp [BookClass.empty, BookClass.ladder], rfl, rfl⟩

theorem tickSim_canInsert (h : (tickSim Size).Rel b a) {side : Side} {order : Order}
    (hp : (tickOffset Size).accepts order.price) :
    (tickSim Size).CanInsert b a side order order := by
  obtain ⟨hi, hr⟩ := h.sides side
  have hprice : 0 < order.price ∧ order.price < Size := by
    simp only [tickOffset, Bool.not_eq_true', Bool.or_eq_false_iff, decide_eq_false_iff_not] at hp
    omega
  obtain ⟨s, hs, hr'⟩ := TickSide.insert_rep hi hr { order with id := postIds b.inserted }
    hprice
  refine ⟨rfl, s, _, hs, rfl, hi.insert (fun hq => Nat.lt_of_succ_lt hq) (fun hq m hm => ?_) order,
    hr'⟩
  rw [postIds_eq (by omega), postIds_eq (by omega)]
  omega

theorem tickSim_admits (h : (tickSim Size).Rel b a) (op : Op) :
    (tickSim Size).Admits b a op op := by
  cases op with
  | insertOrder side order => exact .insertOrder rfl (tickSim_canInsert h)
  | cancelOrder side id => exact .cancelOrder rfl
  | marketOrder side order => exact .marketOrder rfl rfl fun _ _ hp => tickSim_canInsert h hp
  | topOfBook => exact .topOfBook

/-- Every run succeeds and is a run over ladders that are never left crossed. -/
theorem tickOffset_run (h : (tickSim Size).Rel b a) (hu : Uncrossed a) (ops : List Op) :
    ∃ rs b' a', (tickOffset Size).run b ops = some (rs, b') ∧
      (tickOffset Size).ladder.run a ops = some (rs, a') ∧ (tickSim Size).Rel b' a' ∧
      Uncrossed a' := by
  induction ops generalizing b a with
  | nil => exact ⟨[], b, a, rfl, rfl, h, hu⟩
  | cons op ops ih =>
    obtain ⟨r, r', b₁, a₁, hb₁, ha₁, hr, h₁⟩ := ClassSim.step h (tickSim_admits h op)
    obtain ⟨rs, b', a', hb', ha', h', hu'⟩ :=
      ih h₁ (hu.step (fun side => (h₁.sides side).1.sorted) ha₁)
    obtain rfl := hr.eq
    refine ⟨r :: rs, b', a', ?_, ?_, h', hu'⟩
    · simp [BookClass.run, hb₁, hb']
    · simp [BookClass.run, ha₁, ha']

/-- A side and the blocks that rest at each price, in order of arrival. -/
structure WellFormed (Size : ℕ) (side : Side) (s : TickSide) (queue : ℕ → List (ℕ × Order)) :
    Prop where
  null_iff : ∀ p, s.buffer p = none ↔ queue p = []
  list : ∀ p e, s.buffer p = some e → IsList s.heap e (queue p)
  arrival : ∀ p, (queue p).Pairwise fun r r' => r.1 < r'.1
  price : ∀ p, ∀ r ∈ queue p, r.2.price = p ∧ 1 ≤ p ∧ p ≤ Size - 1
  key : ∀ id n, s.keys id = some n → ∃ p order, (n, order) ∈ queue p ∧ order.id = id
  best : s.best = vacant Size side ∧ (∀ p, queue p = []) ∨
    queue s.best ≠ [] ∧ ∀ p, queue p ≠ [] → side.better p s.best = false

/-- Ids increase along each level and the table finds exactly the resting orders. -/
structure Identified (s : TickSide) (queue : ℕ → List (ℕ × Order)) : Prop where
  increasing : ∀ p, (queue p).Pairwise fun r r' => r.2.id < r'.2.id
  keys : ∀ id n, s.keys id = some n ↔ ∃ p order, (n, order) ∈ queue p ∧ order.id = id

theorem wellFormed_of_rep {side : Side} {ids : ℕ → ℕ} {q : ℕ → Prop} {n : ℕ} {s : TickSide}
    {l : Ladder} (hi : Inv side ids q n l) (h : Rep Size side s l) :
    WellFormed Size side s (atPrice l.rows) := by
  refine ⟨fun p => ?_, fun p e he => ?_, fun p => ?_, fun p r hr => ?_, fun id n hk => ?_, ?_⟩
  · have hlevel := h.levels p
    cases hb : s.buffer p with
    | none =>
      rw [hb] at hlevel
      exact ⟨fun _ => hlevel, fun _ => rfl⟩
    | some e =>
      rw [hb] at hlevel
      simpa using hlevel.1
  · have hlevel := h.levels p
    rw [he] at hlevel
    exact hlevel.2
  · refine (hi.sorted.sublist List.filter_sublist).imp_of_mem fun {x y} hx hy hahead => ?_
    rcases hahead with hb | ⟨-, hlt⟩
    · rw [(mem_atPrice.mp hx).2, (mem_atPrice.mp hy).2] at hb
      cases side <;> simp [Side.better] at hb
    · exact hlt
  · obtain ⟨hmem, rfl⟩ := mem_atPrice.mp hr
    have hp := h.prices r hmem
    exact ⟨rfl, by omega, by omega⟩
  · rw [h.keys] at hk
    obtain ⟨rfl, hm⟩ := hi.sound hk
    obtain ⟨r, hr, rfl⟩ := List.mem_map.mp hm
    exact ⟨r.2.price, r.2, mem_atPrice.mpr ⟨hr, rfl⟩, hi.idOf r hr⟩
  · have hbest := (h.best_le hi.sorted).1
    cases hl : l.rows with
    | nil =>
      refine .inl ⟨?_, fun p => rfl⟩
      rw [h.best, hl]
      rfl
    | cons r rows =>
      refine .inr ⟨?_, fun p hp => ?_⟩
      · rw [h.best, hl]
        exact List.ne_nil_of_mem (mem_atPrice.mpr ⟨List.mem_cons_self .., rfl⟩)
      · obtain ⟨x, hx⟩ := List.exists_mem_of_ne_nil _ hp
        obtain ⟨hmem, rfl⟩ := mem_atPrice.mp hx
        exact hbest x (hl ▸ hmem)

theorem identified_of_rep {side : Side} {n : ℕ} {s : TickSide} {l : Ladder}
    (hi : Inv side postIds (· < 2 ^ 64) n l) (h : Rep Size side s l) (hn : n < 2 ^ 64) :
    Identified s (atPrice l.rows) := by
  have hid : ∀ r ∈ l.rows, r.2.id = r.1 + 1 := by
    intro r hr
    have hlt := hi.inserted r hr
    rw [hi.idOf r hr, postIds_eq (by omega)]
  have hwf := wellFormed_of_rep hi h
  refine ⟨fun p => ?_, fun id m => ⟨hwf.key id m, ?_⟩⟩
  · refine (hwf.arrival p).imp_of_mem fun {x y} hx hy hlt => ?_
    rw [hid x (mem_atPrice.mp hx).1, hid y (mem_atPrice.mp hy).1]
    omega
  · rintro ⟨p, order, hr, rfl⟩
    rw [h.keys]
    exact hi.known hn _ (mem_atPrice.mp hr).1

theorem best_lt_best (hSize : 2 ≤ Size) (h : (tickSim Size).Rel b a) (hu : Uncrossed a) :
    (b.sides .buy).best < (b.sides .sell).best := by
  obtain ⟨-, hbuy⟩ := h.sides .buy
  obtain ⟨-, hsell⟩ := h.sides .sell
  rw [hbuy.best, hsell.best]
  cases hx : (a.sides .buy).rows with
  | nil =>
    cases hy : (a.sides .sell).rows with
    | nil => simp [bestPrice, vacant]; omega
    | cons y ys => simpa [bestPrice, vacant] using (hsell.prices y (by simp [hy])).1
  | cons x xs =>
    cases hy : (a.sides .sell).rows with
    | nil => simpa [bestPrice, vacant] using (hbuy.prices x (by simp [hx])).2
    | cons y ys => exact hu x (by simp [hx]) y (by simp [hy])

/-- After any sequence of operations with any prices, sizes and ids, the book is
well formed and not crossed, and no operation faults or loops. -/
theorem tickOffset_wellFormed (Size : ℕ) (hSize : 2 ≤ Size) (ops : List Op) :
    ∃ replies b, (tickOffset Size).run (tickOffset Size).empty ops = some (replies, b) ∧
      (b.sides .buy).best < (b.sides .sell).best ∧
      ∀ side, ∃ queue, WellFormed Size side (b.sides side) queue ∧
        (b.inserted < 2 ^ 64 → Identified (b.sides side) queue) := by
  obtain ⟨rs, b, a, hb, -, h, hu⟩ :=
    tickOffset_run (tickSim_empty Size) (by simp [Uncrossed, BookClass.empty, BookClass.ladder]) ops
  refine ⟨rs, b, hb, best_lt_best hSize h hu, fun side => ?_⟩
  obtain ⟨hi, hr⟩ := h.sides side
  exact ⟨_, wellFormed_of_rep hi hr, identified_of_rep hi hr⟩

theorem tickOffset_wellFormed_threeLevels : ∃ replies b,
    (tickOffset 3).run (tickOffset 3).empty [.insertOrder .buy ⟨0, 2, 1⟩,
      .marketOrder .sell ⟨0, 0, 2⟩,
      .marketOrder .sell ⟨0, 0, 0⟩, .cancelOrder .sell 2] = some (replies, b) ∧
      (b.sides .buy).best < (b.sides .sell).best ∧
      ∀ side, ∃ queue, WellFormed 3 side (b.sides side) queue ∧
        (b.inserted < 2 ^ 64 → Identified (b.sides side) queue) :=
  tickOffset_wellFormed 3 (by decide) _

structure Idle (n : ℕ) (a : Book Ladder) : Prop where
  counter : a.counter = postCounter n
  inserted : a.inserted = n
  buys : (a.sides .buy).rows = [(0, ⟨1, 1, 1⟩)]
  sells : (a.sides .sell).rows = [(1, ⟨2, 2, 1⟩)]

/-- The book when a bid without size has been stored, before it is matched. -/
def bidStored (n : ℕ) (sides : Side → Ladder) : Book Ladder :=
  ⟨postCounter (n + 1), n + 1, Function.update sides .buy
    ⟨[(n, ⟨postCounter n, 2, 0⟩), (0, ⟨1, 1, 1⟩)],
      Function.update (sides .buy).keys (postCounter n) (some n)⟩⟩

def bidFilled (n : ℕ) (sides : Side → Ladder) : Book Ladder :=
  ⟨postCounter (n + 1), n + 1, Function.update (Function.update sides .buy
    ⟨[(0, ⟨1, 1, 1⟩)], Function.update (sides .buy).keys (postCounter n) none⟩) .sell
      ⟨[(1, ⟨2, 2, 1⟩)], (sides .sell).keys⟩⟩

theorem matchOrders_bidStored {n : ℕ} {sides : Side → Ladder}
    (hs : (sides .sell).rows = [(1, ⟨2, 2, 1⟩)]) :
    (tickOffset 3).ladder.matchOrders (bidStored n sides) = some (true, bidFilled n sides) := by
  have hsell : Side.sell ≠ Side.buy := by decide
  have hcrossed : (tickOffset 3).ladder.crossed (bidStored n sides) = some true := by
    simp [BookClass.crossed, BookClass.ladder, Ladder.ops, bidStored, hs, hsell]
  have hfill : (tickOffset 3).ladder.fill (bidStored n sides) = some (bidFilled n sides) := by
    simp [BookClass.fill, BookClass.ladder, Ladder.ops, bidStored, bidFilled, hs, hsell,
      SideOps.popIf, Book.set]
  have huncrossed : (tickOffset 3).ladder.crossed (bidFilled n sides) = some false := by
    simp [BookClass.crossed, BookClass.ladder, Ladder.ops, bidFilled]
  have hfuel : 2 * (bidStored n sides).inserted + 1 = 2 * n + 1 + 1 + 1 := by
    simp only [bidStored]
    omega
  rw [BookClass.matchOrders, hfuel, BookClass.matchLoop_crossed hcrossed hfill,
    BookClass.matchLoop_uncrossed huncrossed]

/-- A bid without size that reaches the ask uses up an id and nothing else. -/
theorem Idle.step {n : ℕ} (h : Idle n a) :
    ∃ r a', (tickOffset 3).ladder.step a (.insertOrder .buy ⟨0, 2, 0⟩) = some (r, a') ∧
      Idle (n + 1) a' := by
  obtain ⟨counter, inserted, sides⟩ := a
  obtain ⟨hc, hn, hb, hs⟩ := h
  dsimp only at hc hn
  subst hc hn
  dsimp only at hb hs
  have hcounter : (postCounter inserted + 1) % 2 ^ 64 = postCounter (inserted + 1) :=
    congrArg Prod.snd (postIncrement_postCounter inserted)
  have hbid : { (Book.set ⟨postCounter inserted, inserted, sides⟩ .buy ((sides .buy).insert .buy
      inserted ⟨postCounter inserted, 2, 0⟩)) with
        counter := (postCounter inserted + 1) % 2 ^ 64
        inserted := inserted + 1 } = bidStored inserted sides := by
    rw [hcounter]
    simp [Ladder.insert, stays, hb, Side.better, bidStored, Book.set]
  have hstored : (tickOffset 3).ladder.insertOrder .buy ⟨postCounter inserted, inserted, sides⟩
      ⟨0, 2, 0⟩ = some (postCounter inserted, bidFilled inserted sides) := by
    refine BookClass.insertOrder_stored (r := true) (by decide) rfl ?_
    exact (congrArg _ hbid).trans (matchOrders_bidStored hs)
  refine ⟨.id (postCounter inserted), bidFilled inserted sides, ?_, rfl, rfl, rfl, rfl⟩
  rw [BookClass.step_insertOrder, hstored]
  rfl

theorem Idle.run {n : ℕ} (h : Idle n a) (k : ℕ) :
    ∃ rs a', (tickOffset 3).ladder.run a (List.replicate k (.insertOrder .buy ⟨0, 2, 0⟩)) =
      some (rs, a') ∧ Idle (n + k) a' := by
  induction k generalizing n a with
  | zero => exact ⟨[], a, rfl, h⟩
  | succ k ih =>
    obtain ⟨r, a₁, ha₁, h₁⟩ := h.step
    obtain ⟨rs, a', ha', h'⟩ := ih h₁
    refine ⟨r :: rs, a', ?_, by rwa [Nat.add_assoc, Nat.add_comm 1] at h'⟩
    simp [List.replicate_succ, BookClass.run, ha₁, ha']

theorem idle_two : ∃ rs a', (tickOffset 3).ladder.run (tickOffset 3).ladder.empty
    [.insertOrder .buy ⟨0, 1, 1⟩, .insertOrder .sell ⟨0, 2, 1⟩] = some (rs, a') ∧ Idle 2 a' :=
  ⟨_, _, rfl, rfl, rfl, rfl, rfl⟩

theorem Idle.second {n : ℕ} (h : Idle n a) :
    ∃ rs a', (tickOffset 3).ladder.run a [.insertOrder .buy ⟨0, 1, 1⟩] = some (rs, a') ∧
      (a'.sides .buy).rows = [(0, ⟨1, 1, 1⟩), (n, ⟨postCounter n, 1, 1⟩)] := by
  obtain ⟨counter, inserted, sides⟩ := a
  obtain ⟨hc, hn, hb, hs⟩ := h
  dsimp only at hc hn
  subst hc hn
  dsimp only at hb hs
  have hsell : Side.sell ≠ Side.buy := by decide
  have hstep : (tickOffset 3).ladder.step ⟨postCounter inserted, inserted, sides⟩
      (.insertOrder .buy ⟨0, 1, 1⟩) = some (.id (postCounter inserted),
        ⟨(postCounter inserted + 1) % 2 ^ 64, inserted + 1, Function.update sides .buy
          ⟨[(0, ⟨1, 1, 1⟩), (inserted, ⟨postCounter inserted, 1, 1⟩)],
            Function.update (sides .buy).keys (postCounter inserted) (some inserted)⟩⟩) := by
    rw [BookClass.step_insertOrder, BookClass.insertOrder, if_pos (by decide)]
    simp only [BookClass.matchOrders, BookClass.ladder, tickOffset, postIncrement]
    simp [BookClass.matchLoop, BookClass.crossed, Ladder.ops, Ladder.insert, stays, hb, hs,
      Side.better, hsell, Book.set]
  exact ⟨_, _, BookClass.run_singleton hstep, rfl⟩

/-- The id counter wraps around: after `2 ^ 64` inserts a level holds id 1 before id 0. -/
theorem tickOffset_ids_wrap : ∃ ops replies b e rows,
    (tickOffset 3).run (tickOffset 3).empty ops = some (replies, b) ∧
      (b.sides .buy).buffer 1 = some e ∧ IsList (b.sides .buy).heap e rows ∧
      rows.map (fun r => r.2.id) = [1, 0] := by
  obtain ⟨rs₁, a₁, ha₁, h₁⟩ := idle_two
  obtain ⟨rs₂, a₂, ha₂, h₂⟩ := h₁.run (2 ^ 64 - 3)
  obtain ⟨rs₃, a₃, ha₃, h₃⟩ := h₂.second
  have hladder := BookClass.run_append (BookClass.run_append ha₁ ha₂) ha₃
  obtain ⟨rs, b, a, hb, ha, h, -⟩ := tickOffset_run (tickSim_empty 3)
    (by simp [Uncrossed, BookClass.empty, BookClass.ladder]) (([.insertOrder .buy ⟨0, 1, 1⟩,
      .insertOrder .sell ⟨0, 2, 1⟩] ++ List.replicate (2 ^ 64 - 3) (.insertOrder .buy ⟨0, 2, 0⟩)) ++
        [.insertOrder .buy ⟨0, 1, 1⟩])
  obtain ⟨-, rfl⟩ : rs₁ ++ rs₂ ++ rs₃ = rs ∧ a₃ = a := by
    have heq := hladder.symm.trans ha
    simpa only [Option.some.injEq, Prod.mk.injEq] using heq
  obtain ⟨-, hr⟩ := h.sides .buy
  have hlevel := hr.levels 1
  rw [h₃] at hlevel
  obtain ⟨e, he, hlist⟩ := hlevel.of_ne_nil (by simp [atPrice])
  refine ⟨_, rs, b, e, _, hb, he, hlist, ?_⟩
  simp [atPrice, postCounter]

end LowLevel.Books
