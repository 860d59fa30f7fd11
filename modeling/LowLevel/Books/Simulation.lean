import LowLevel.Books.Orders

/-! # Simulations between book classes

Two ways to store a side are related by a relation on their states, indexed by
the number of orders inserted so far, that every primitive step keeps. Methods
are written once over the primitive steps, so related books stay related under
every method and their replies correspond. Ids and prices may differ between
the two classes, as long as ids correspond and the matching loop compares
corresponding prices alike.
-/

namespace LowLevel.Books

variable {σ τ : Type}

/-- The primitive steps of two ways to store a side keep a relation. `I` relates
ids, `E` orders and `P` prices; `len` bounds the number of orders. -/
structure SideSim (S : SideOps σ) (T : SideOps τ) (I : ℕ → ℕ → Prop)
    (E : Order → Order → Prop) (P : ℕ → ℕ → Prop) (len : τ → ℕ) (R : ℕ → σ → τ → Prop) :
    Prop where
  mono {n s t} : R n s t → R (n + 1) s t
  len_le {n s t} : R n s t → len t ≤ n
  waiting {n s t} : R n s t → S.waiting s = T.waiting t
  price {n s t} : R n s t → S.waiting s →
    ∃ p p', S.price s = some p ∧ T.price t = some p' ∧ P p p'
  front {n s t} : R n s t → S.waiting s →
    ∃ o o', S.front s = some o ∧ T.front t = some o' ∧ E o o'
  resize {n s t} (size : ℕ) : R n s t → S.waiting s →
    ∃ s' t', S.resize s size = some s' ∧ T.resize t size = some t' ∧ R n s' t' ∧
      S.waiting s' ∧ len t' = len t
  pop {n s t} : R n s t → S.waiting s →
    ∃ s' t', S.pop s = some s' ∧ T.pop t = some t' ∧ R n s' t' ∧ len t' < len t
  cancel {n s t i i'} : R n s t → I i i' →
    S.cancel s i = some none ∧ T.cancel t i' = some none ∨
      ∃ s' t', S.cancel s i = some (some s') ∧ T.cancel t i' = some (some t') ∧ R n s' t'

/-- How the ids and orders that two classes report correspond. -/
structure Reports (I : ℕ → ℕ → Prop) (E : Order → Order → Prop) : Prop where
  zero : I 0 0
  zero_iff {i i'} : I i i' → (i = 0 ↔ i' = 0)
  default : E {} {}
  size {o o'} : E o o' → o.size = o'.size
  id {o o'} : E o o' → I o.id o'.id

theorem reports_eq : Reports Eq Eq where
  zero := rfl
  zero_iff := by rintro _ _ rfl; rfl
  default := rfl
  size := by rintro _ _ rfl; rfl
  id := by rintro _ _ rfl; rfl

namespace SideSim

variable {S : SideOps σ} {T : SideOps τ} {I P : ℕ → ℕ → Prop} {E : Order → Order → Prop}
  {len : τ → ℕ} {R : ℕ → σ → τ → Prop} {n : ℕ} {s : σ} {t : τ}

/-- Enough iterations for a sweep: one for each order and two more, unless
nothing remains to be filled. -/
def Enough (remaining orders fuel : ℕ) : Prop :=
  remaining = 0 ∧ 0 < fuel ∨ orders + 1 < fuel

theorem sweep (h : SideSim S T I E P len R) (hE : Reports I E) (hR : R n s t)
    {last last' : ℕ} (hI : I last last') (remaining fuel fuel' : ℕ)
    (hf : Enough remaining (len t) fuel) (hf' : Enough remaining (len t) fuel') :
    ∃ s' t' id id', S.sweep fuel s remaining last = some (s', id) ∧
      T.sweep fuel' t remaining last' = some (t', id') ∧ R n s' t' ∧ I id id' := by
  induction fuel generalizing fuel' remaining last last' s t with
  | zero => rcases hf with ⟨-, hf⟩ | hf <;> omega
  | succ fuel ih =>
    obtain ⟨fuel', rfl⟩ : ∃ k, fuel' = k + 1 := by
      refine ⟨fuel' - 1, ?_⟩
      rcases hf' with ⟨-, hf'⟩ | hf' <;> omega
    by_cases hgo : 0 < remaining ∧ S.waiting s
    · obtain ⟨hrem, hw⟩ := hgo
      have hfuel : len t < fuel := by rcases hf with ⟨h0, -⟩ | hf <;> omega
      have hfuel' : len t < fuel' := by rcases hf' with ⟨h0, -⟩ | hf' <;> omega
      obtain ⟨o, o', ho, ho', hoE⟩ := h.front hR hw
      have hw' : T.waiting t = true := h.waiting hR ▸ hw
      simp only [SideOps.sweep, hrem, hw, hw', ho, ho', and_self, if_true, Option.bind_eq_bind,
        Option.bind_some, ← hE.size hoE]
      by_cases hle : o.size ≤ remaining
      · obtain ⟨s', t', hs, ht, hR', hlt⟩ := h.pop hR hw
        simp only [hle, if_true, hs, ht, Option.bind_some]
        exact ih hR' (hE.id hoE) _ fuel' (.inr (by omega)) (.inr (by omega))
      · obtain ⟨s', t', hs, ht, hR', -, -⟩ := h.resize (o.size - remaining) hR hw
        simp only [hle, if_false, hs, ht, Option.bind_some]
        exact ih hR' (hE.id hoE) _ fuel' (.inl ⟨rfl, by omega⟩) (.inl ⟨rfl, by omega⟩)
    · have hgo' : ¬ (0 < remaining ∧ T.waiting t) := by rwa [← h.waiting hR]
      refine ⟨s, t, last, last', ?_, ?_, hR, hI⟩
      · rw [SideOps.sweep, if_neg hgo]
      · rw [SideOps.sweep, if_neg hgo']

theorem popIf (h : SideSim S T I E P len R) (hR : R n s t) (hw : S.waiting s) (size : ℕ) :
    ∃ s' t', S.popIf s size = some s' ∧ T.popIf t size = some t' ∧ R n s' t' ∧
      len t' ≤ len t ∧ (size = 0 → len t' < len t) := by
  by_cases h0 : size = 0
  · obtain ⟨s', t', hs, ht, hR', hlt⟩ := h.pop hR hw
    exact ⟨s', t', by rw [SideOps.popIf, if_pos h0, hs], by rw [SideOps.popIf, if_pos h0, ht],
      hR', Nat.le_of_lt hlt, fun _ => hlt⟩
  · exact ⟨s, t, if_neg h0, if_neg h0, hR, Nat.le_refl _, fun h => absurd h h0⟩

theorem top (h : SideSim S T I E P len R) (hE : Reports I E) (hR : R n s t) :
    ∃ o o', S.top s = some o ∧ T.top t = some o' ∧ E o o' := by
  by_cases hw : S.waiting s
  · obtain ⟨o, o', ho, ho', hoE⟩ := h.front hR hw
    refine ⟨o, o', ?_, ?_, hoE⟩
    · rw [SideOps.top, if_pos hw, ho]
    · rw [SideOps.top, if_pos (h.waiting hR ▸ hw), ho']
  · refine ⟨{}, {}, ?_, ?_, hE.default⟩
    · rw [SideOps.top, if_neg hw]
    · rw [SideOps.top, if_neg (h.waiting hR ▸ hw)]

end SideSim

/-- Both sides of two classes are related, the matching loops of the two compare
prices alike, and the counters are functions of the number of inserts. -/
structure ClassSim (C : BookClass σ) (D : BookClass τ) (I : ℕ → ℕ → Prop)
    (E : Order → Order → Prop) where
  prices : Side → ℕ → ℕ → Prop
  len : τ → ℕ
  sides : Side → ℕ → σ → τ → Prop
  reports : Reports I E
  sim (side : Side) : SideSim (C.ops side) (D.ops side) I E (prices side) len (sides side)
  compare {p p' q q'} : prices .buy p p' → prices .sell q q' → (q ≤ p ↔ q' ≤ p')
  ids : ℕ → ℕ
  ids' : ℕ → ℕ
  counter : ℕ → ℕ
  counter' : ℕ → ℕ
  issue (n : ℕ) : C.issue (counter n) = (ids n, counter (n + 1))
  issue' (n : ℕ) : D.issue (counter' n) = (ids' n, counter' (n + 1))

namespace ClassSim

variable {C : BookClass σ} {D : BookClass τ} {I : ℕ → ℕ → Prop} {E : Order → Order → Prop}
  (M : ClassSim C D I E) {b : Book σ} {d : Book τ}

/-- Related books: the same number of inserts and related sides. -/
structure Rel (b : Book σ) (d : Book τ) : Prop where
  inserted : d.inserted = b.inserted
  counter : b.counter = M.counter b.inserted
  counter' : d.counter = M.counter' b.inserted
  sides (side : Side) : M.sides side b.inserted (b.sides side) (d.sides side)

variable {M}

theorem Rel.set (h : M.Rel b d) {side : Side} {s : σ} {t : τ} (hR : M.sides side b.inserted s t) :
    M.Rel (b.set side s) (d.set side t) where
  inserted := h.inserted
  counter := h.counter
  counter' := h.counter'
  sides side' := by
    by_cases hs : side' = side
    · subst hs
      simpa using hR
    · simpa only [Book.set_inserted, Book.set_sides_of_ne _ hs] using h.sides side'

theorem Rel.waiting (h : M.Rel b d) (side : Side) :
    (D.ops side).waiting (d.sides side) = (C.ops side).waiting (b.sides side) :=
  ((M.sim side).waiting (h.sides side)).symm

theorem crossed (h : M.Rel b d) :
    ∃ r, C.crossed b = some r ∧ D.crossed d = some r ∧
      (r = true → ∀ side, (C.ops side).waiting (b.sides side)) := by
  by_cases hw : (C.ops .buy).waiting (b.sides .buy) ∧ (C.ops .sell).waiting (b.sides .sell)
  · obtain ⟨p, p', hp, hp', hP⟩ := (M.sim .buy).price (h.sides .buy) hw.1
    obtain ⟨q, q', hq, hq', hQ⟩ := (M.sim .sell).price (h.sides .sell) hw.2
    refine ⟨decide (q ≤ p), ?_, ?_, fun _ side => ?_⟩
    · simp [BookClass.crossed, hw, hp, hq]
    · simp [BookClass.crossed, h.waiting, hw, hp', hq', M.compare hP hQ]
    · cases side with
      | buy => exact hw.1
      | sell => exact hw.2
  · refine ⟨false, if_neg hw, ?_, by simp⟩
    rw [BookClass.crossed, h.waiting, h.waiting, if_neg hw]

theorem fill (h : M.Rel b d) (hw : ∀ side, (C.ops side).waiting (b.sides side)) :
    ∃ b' d', C.fill b = some b' ∧ D.fill d = some d' ∧ M.Rel b' d' ∧
      M.len (d'.sides .buy) + M.len (d'.sides .sell) <
        M.len (d.sides .buy) + M.len (d.sides .sell) ∧ b'.inserted = b.inserted := by
  obtain ⟨x, x', hx, hx', hxE⟩ := (M.sim .buy).front (h.sides .buy) (hw .buy)
  obtain ⟨y, y', hy, hy', hyE⟩ := (M.sim .sell).front (h.sides .sell) (hw .sell)
  have hxs := M.reports.size hxE
  have hys := M.reports.size hyE
  obtain ⟨b₁, d₁, hb₁, hd₁, hR₁, hw₁, hl₁⟩ :=
    (M.sim .buy).resize (x.size - min x.size y.size) (h.sides .buy) (hw .buy)
  obtain ⟨s₁, e₁, hs₁, he₁, hQ₁, hv₁, hm₁⟩ :=
    (M.sim .sell).resize (y.size - min x.size y.size) (h.sides .sell) (hw .sell)
  obtain ⟨b₂, d₂, hb₂, hd₂, hR₂, hl₂, hlt₂⟩ :=
    (M.sim .buy).popIf hR₁ hw₁ (x.size - min x.size y.size)
  obtain ⟨s₂, e₂, hs₂, he₂, hQ₂, hm₂, hmt₂⟩ :=
    (M.sim .sell).popIf hQ₁ hv₁ (y.size - min x.size y.size)
  have hne : Side.buy ≠ Side.sell := by decide
  refine ⟨(b.set .buy b₂).set .sell s₂, (d.set .buy d₂).set .sell e₂, ?_, ?_,
    (h.set hR₂).set hQ₂, ?_, rfl⟩
  · simp [BookClass.fill, hx, hy, hb₁, hs₁, hb₂, hs₂]
  · simp [BookClass.fill, hx', hy', ← hxs, ← hys, hd₁, he₁, hd₂, he₂]
  · rw [Book.set_sides_self, Book.set_sides_of_ne _ hne, Book.set_sides_self]
    rcases Nat.le_total x.size y.size with hle | hle
    · have := hlt₂ (by omega)
      omega
    · have := hmt₂ (by omega)
      omega

theorem matchLoop (h : M.Rel b d) (did : Bool) (fuel fuel' : ℕ)
    (hf : M.len (d.sides .buy) + M.len (d.sides .sell) < fuel)
    (hf' : M.len (d.sides .buy) + M.len (d.sides .sell) < fuel') :
    ∃ r b' d', C.matchLoop fuel did b = some (r, b') ∧ D.matchLoop fuel' did d = some (r, d') ∧
      M.Rel b' d' ∧ b'.inserted = b.inserted := by
  induction fuel generalizing fuel' did b d with
  | zero => omega
  | succ fuel ih =>
    obtain ⟨fuel', rfl⟩ : ∃ k, fuel' = k + 1 := ⟨fuel' - 1, by omega⟩
    obtain ⟨r, hr, hr', hw⟩ := crossed h
    cases r with
    | false =>
      exact ⟨did, b, d, BookClass.matchLoop_uncrossed hr, BookClass.matchLoop_uncrossed hr', h, rfl⟩
    | true =>
      obtain ⟨b₁, d₁, hb₁, hd₁, h₁, hlt, hn⟩ := fill h (hw rfl)
      obtain ⟨r, b₂, d₂, hb₂, hd₂, h₂, hn₂⟩ := ih h₁ true fuel' (by omega) (by omega)
      refine ⟨r, b₂, d₂, ?_, ?_, h₂, hn₂.trans hn⟩
      · exact (BookClass.matchLoop_crossed hr hb₁).trans hb₂
      · exact (BookClass.matchLoop_crossed hr' hd₁).trans hd₂

theorem matchOrders (h : M.Rel b d) :
    ∃ r b' d', C.matchOrders b = some (r, b') ∧ D.matchOrders d = some (r, d') ∧ M.Rel b' d' ∧
      b'.inserted = b.inserted := by
  have hb := (M.sim .buy).len_le (h.sides .buy)
  have hs := (M.sim .sell).len_le (h.sides .sell)
  have hn := h.inserted
  exact matchLoop h false _ _ (by omega) (by omega)

variable (M) in
/-- The next order can be stored in both books, under corresponding ids. -/
def CanInsert (b : Book σ) (d : Book τ) (side : Side) (order order' : Order) : Prop :=
  I (M.ids b.inserted) (M.ids' b.inserted) ∧ ∃ s t,
    (C.ops side).insert (b.sides side) b.inserted { order with id := M.ids b.inserted } = some s ∧
    (D.ops side).insert (d.sides side) b.inserted { order' with id := M.ids' b.inserted } = some t ∧
    M.sides side (b.inserted + 1) s t

theorem insertOrder (h : M.Rel b d) (side : Side) (order order' : Order)
    (hacc : C.accepts order.price = D.accepts order'.price)
    (hcan : C.accepts order.price → M.CanInsert b d side order order') :
    ∃ i i' b' d', C.insertOrder side b order = some (i, b') ∧
      D.insertOrder side d order' = some (i', d') ∧ I i i' ∧ M.Rel b' d' := by
  by_cases ha : C.accepts order.price
  · obtain ⟨hI, s, t, hs, ht, hR⟩ := hcan ha
    have h₁ : M.Rel
        { b.set side s with counter := M.counter (b.inserted + 1), inserted := b.inserted + 1 }
        { d.set side t with
          counter := M.counter' (b.inserted + 1)
          inserted := b.inserted + 1 } := by
      refine ⟨rfl, rfl, rfl, fun side' => ?_⟩
      by_cases hside : side' = side
      · subst hside
        simpa using hR
      · simpa only [Book.set_sides_of_ne _ hside] using (M.sim side').mono (h.sides side')
    obtain ⟨r, b', d', hb', hd', h', -⟩ := matchOrders h₁
    refine ⟨_, _, b', d', ?_, ?_, hI, h'⟩
    · simp [BookClass.insertOrder, ha, h.counter, M.issue, hs, hb']
    · simp [BookClass.insertOrder, ← hacc, ha, h.counter', h.inserted, M.issue', ht, hd']
  · refine ⟨0, 0, b, d, ?_, ?_, M.reports.zero, h⟩
    · simp [BookClass.insertOrder, ha]
    · simp [BookClass.insertOrder, ← hacc, ha]

theorem cancelOrder (h : M.Rel b d) (side : Side) {i i' : ℕ} (hI : I i i') :
    ∃ j j' b' d', C.cancelOrder side b i = some (j, b') ∧
      D.cancelOrder side d i' = some (j', d') ∧ I j j' ∧ M.Rel b' d' := by
  rcases (M.sim side).cancel (h.sides side) hI with ⟨hs, ht⟩ | ⟨s, t, hs, ht, hR⟩
  · refine ⟨0, 0, b, d, ?_, ?_, M.reports.zero, h⟩
    · simp [BookClass.cancelOrder, hs]
    · simp [BookClass.cancelOrder, ht]
  · refine ⟨i, i', b.set side s, d.set side t, ?_, ?_, hI, h.set hR⟩
    · simp [BookClass.cancelOrder, hs]
    · simp [BookClass.cancelOrder, ht]

theorem marketOrder (h : M.Rel b d) {side : Side} {order order' : Order}
    (hsize : order.size = order'.size)
    (hacc : C.accepts (C.marketPrice side) = D.accepts (D.marketPrice side))
    (hcan : ∀ s, (C.ops side.opposite).sweep (b.inserted + 2) (b.sides side.opposite)
        order.size 0 = some (s, 0) → C.accepts (C.marketPrice side) →
      M.CanInsert b d side { order with price := C.marketPrice side }
        { order' with price := D.marketPrice side }) :
    ∃ i i' b' d', C.marketOrder side b order = some (i, b') ∧
      D.marketOrder side d order' = some (i', d') ∧ I i i' ∧ M.Rel b' d' := by
  have hle := (M.sim side.opposite).len_le (h.sides side.opposite)
  have hn := h.inserted
  obtain ⟨s, t, i, i', hs, ht, hR, hI⟩ := (M.sim side.opposite).sweep M.reports
    (h.sides side.opposite) M.reports.zero order.size (b.inserted + 2) (d.inserted + 2)
    (.inr (by omega)) (.inr (by omega))
  have h' : M.Rel (b.set side.opposite s) (d.set side.opposite t) := h.set hR
  by_cases h0 : i = 0
  · have h0' : i' = 0 := (M.reports.zero_iff hI).mp h0
    subst h0 h0'
    -- the sweep leaves the side of the order alone
    have hcan' : C.accepts (C.marketPrice side) → M.CanInsert (b.set side.opposite s)
        (d.set side.opposite t) side { order with price := C.marketPrice side }
        { order' with price := D.marketPrice side } := by
      intro ha
      simpa only [CanInsert, Book.set_inserted, Book.set_sides_of_ne _ side.opposite_ne.symm]
        using hcan s hs ha
    obtain ⟨j, j', b', d', hb', hd', hJ, h''⟩ := insertOrder h' side
      { order with price := C.marketPrice side } { order' with price := D.marketPrice side }
      hacc hcan'
    rw [hsize] at ht
    refine ⟨j, j', b', d', ?_, ?_, hJ, h''⟩
    · simp [BookClass.marketOrder, hs, hb']
    · simp [BookClass.marketOrder, ht, hd']
  · have h0' : i' ≠ 0 := fun h => h0 ((M.reports.zero_iff hI).mpr h)
    rw [hsize] at ht
    refine ⟨i, i', _, _, ?_, ?_, hI, h'⟩
    · simp [BookClass.marketOrder, hs, h0]
    · simp [BookClass.marketOrder, ht, h0']

theorem topOfBook (h : M.Rel b d) :
    ∃ x y x' y', C.topOfBook b = some (x, y) ∧ D.topOfBook d = some (x', y') ∧ E x x' ∧ E y y' := by
  obtain ⟨x, x', hx, hx', hxE⟩ := (M.sim .buy).top M.reports (h.sides .buy)
  obtain ⟨y, y', hy, hy', hyE⟩ := (M.sim .sell).top M.reports (h.sides .sell)
  refine ⟨x, y, x', y', ?_, ?_, hxE, hyE⟩
  · simp [BookClass.topOfBook, hx, hy]
  · simp [BookClass.topOfBook, hx', hy']

variable (I E) in
inductive Matches : Reply → Reply → Prop
  | id {i i' : ℕ} : I i i' → Matches (.id i) (.id i')
  | top {x y x' y' : Order} : E x x' → E y y' → Matches (.top x y) (.top x' y')

theorem Matches.eq {r r' : Reply} (h : Matches Eq Eq r r') : r = r' := by
  cases h with
  | id hI => rw [hI]
  | top hx hy => rw [hx, hy]

variable (M) in
/-- Corresponding operations, whose inserts both books can carry out. -/
inductive Admits (b : Book σ) (d : Book τ) : Op → Op → Prop
  | insertOrder {side : Side} {order order' : Order} :
    C.accepts order.price = D.accepts order'.price →
    (C.accepts order.price → M.CanInsert b d side order order') →
    Admits b d (.insertOrder side order) (.insertOrder side order')
  | cancelOrder {side : Side} {i i' : ℕ} : I i i' →
    Admits b d (.cancelOrder side i) (.cancelOrder side i')
  | marketOrder {side : Side} {order order' : Order} : order.size = order'.size →
    C.accepts (C.marketPrice side) = D.accepts (D.marketPrice side) →
    (∀ s, (C.ops side.opposite).sweep (b.inserted + 2) (b.sides side.opposite)
        order.size 0 = some (s, 0) → C.accepts (C.marketPrice side) →
      M.CanInsert b d side { order with price := C.marketPrice side }
        { order' with price := D.marketPrice side }) →
    Admits b d (.marketOrder side order) (.marketOrder side order')
  | topOfBook : Admits b d .topOfBook .topOfBook

theorem step (h : M.Rel b d) {op op' : Op} (ha : M.Admits b d op op') :
    ∃ r r' b' d', C.step b op = some (r, b') ∧ D.step d op' = some (r', d') ∧
      Matches I E r r' ∧ M.Rel b' d' := by
  cases ha with
  | @insertOrder side order order' hacc hcan =>
    obtain ⟨i, i', b', d', hb, hd, hI, h'⟩ := insertOrder h side order order' hacc hcan
    refine ⟨.id i, .id i', b', d', ?_, ?_, .id hI, h'⟩
    · rw [BookClass.step_insertOrder, hb]; rfl
    · rw [BookClass.step_insertOrder, hd]; rfl
  | @cancelOrder side i i' hI =>
    obtain ⟨j, j', b', d', hb, hd, hJ, h'⟩ := cancelOrder h side hI
    refine ⟨.id j, .id j', b', d', ?_, ?_, .id hJ, h'⟩
    · rw [BookClass.step_cancelOrder, hb]; rfl
    · rw [BookClass.step_cancelOrder, hd]; rfl
  | @marketOrder side order order' hsize hacc hcan =>
    obtain ⟨i, i', b', d', hb, hd, hI, h'⟩ := marketOrder h hsize hacc hcan
    refine ⟨.id i, .id i', b', d', ?_, ?_, .id hI, h'⟩
    · rw [BookClass.step_marketOrder, hb]; rfl
    · rw [BookClass.step_marketOrder, hd]; rfl
  | topOfBook =>
    obtain ⟨x, y, x', y', hb, hd, hx, hy⟩ := topOfBook h
    refine ⟨.top x y, .top x' y', b, d, ?_, ?_, .top hx hy, h⟩
    · rw [BookClass.step, hb]; rfl
    · rw [BookClass.step, hd]; rfl

end ClassSim

end LowLevel.Books
