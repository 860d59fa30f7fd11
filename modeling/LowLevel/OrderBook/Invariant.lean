import LowLevel.OrderBook.FlowGenerator
import LowLevel.OrderBook.Representation

/-! # The book invariant

The book is uncrossed, the counters are exact, and every entry of the key map
leads to a resting order under that key. The cached indices are the best
prices, which the early-exit scans restore after a removal: no level between
the old and the new best price is in use.
-/

namespace LowLevel.OrderBook

open DoublyLinked

namespace Resting

def sim (r : Resting) : SimOrder :=
  ⟨r.account, r.raw.userRefNum, r.raw.side, r.raw.price, r.currQty, r.seq⟩

@[simp] theorem sim_key (r : Resting) : r.sim.key = r.key := rfl
@[simp] theorem sim_id (r : Resting) : r.sim.id = r.id := rfl
@[simp] theorem sim_side (r : Resting) : r.sim.side = r.raw.side := rfl
@[simp] theorem sim_price (r : Resting) : r.sim.price = r.raw.price := rfl
@[simp] theorem sim_remainingQty (r : Resting) : r.sim.remainingQty = r.currQty := rfl
@[simp] theorem sim_arrivalSequence (r : Resting) : r.sim.arrivalSequence = r.seq := rfl

end Resting

def IsBestBuy (rs : List Resting) (idx : ℕ) : Prop :=
  (∀ r ∈ rs, r.raw.side = .B → r.raw.price ≤ idx) ∧
    ((∃ r ∈ rs, r.raw.side = .B ∧ r.raw.price = idx) ∨
      ((∀ r ∈ rs, r.raw.side ≠ .B) ∧ idx = 0))

/-- The lowest ask price, or the size of the buffer without asks. -/
def IsBestSell (B : ℕ) (rs : List Resting) (idx : ℕ) : Prop :=
  (∀ r ∈ rs, r.raw.side = .S → idx ≤ r.raw.price) ∧
    ((∃ r ∈ rs, r.raw.side = .S ∧ r.raw.price = idx) ∨
      ((∀ r ∈ rs, r.raw.side ≠ .S) ∧ idx = B))

variable {B A : ℕ} {s : Engine B A} {rs l₁ l₂ : List Resting} {free : List ℕ} {n : ℕ}
  {index : UInt64 → Option ℕ} {r : Resting}

/-- The engine holds the given resting orders, entered among the first `n` requests; `index`
gives the arrival number of the order a key leads to. -/
structure Book (s : Engine B A) (rs : List Resting) (free : List ℕ) (n : ℕ)
    (index : UInt64 → Option ℕ) : Prop where
  rep : Rep B s.allocator s.orderBuffer rs free
  side : ∀ r ∈ rs, r.raw.side = .B ∨ r.raw.side = .S
  qty_pos : ∀ r ∈ rs, 0 < r.currQty
  qty_le : ∀ r ∈ rs, r.currQty ≤ r.raw.quantity
  sorted : rs.Pairwise (·.seq < ·.seq)
  seq_lt : ∀ r ∈ rs, r.seq < n
  uncrossed : ∀ b ∈ rs, ∀ a ∈ rs, b.raw.side = .B → a.raw.side = .S → b.raw.price < a.raw.price
  buys : s.buyOrders = rs.countP (·.raw.side = .B)
  sells : s.sellOrders = rs.countP (·.raw.side = .S)
  bestBuy : IsBestBuy rs s.bestBuyIdx
  bestSell : IsBestSell B rs s.bestSellIdx
  map : ∀ k, (s.orderBlocksMap k = none ∧ index k = none) ∨
    ∃ r ∈ rs, s.orderBlocksMap k = some r.slot ∧ r.key = k ∧ index k = some r.seq

theorem Book.seq_inj (h : Book s rs free n index) {x y : Resting} (hx : x ∈ rs) (hy : y ∈ rs)
    (hseq : x.seq = y.seq) : x = y := by
  obtain ⟨i, hi, rfl⟩ := List.getElem_of_mem hx
  obtain ⟨j, hj, rfl⟩ := List.getElem_of_mem hy
  have hs := List.pairwise_iff_getElem.mp h.sorted
  rcases Nat.lt_trichotomy i j with hij | rfl | hij
  · have := hs i j hi hj hij
    omega
  · rfl
  · have := hs j i hj hi hij
    omega

theorem head_eq_none {a : Allocator OrderBlock A} {buf : ℕ → OrderList} {p : ℕ}
    (h : Rep B a buf rs free) (hp : p < B) : (buf p).head = none ↔ atPrice p rs = [] := by
  rw [(h.levels p hp).head, first_eq_none, List.map_eq_nil_iff]

/-- A level is in use exactly if it shows an order. -/
theorem head_ne_none {a : Allocator OrderBlock A} {buf : ℕ → OrderList} {p : ℕ}
    (h : Rep B a buf rs free) (hp : p < B) :
    (buf p).head ≠ none ↔ ∃ r ∈ rs, r.raw.price = p := by
  rw [Ne, head_eq_none h hp]
  constructor
  · intro hne
    obtain ⟨r, hr⟩ := List.exists_mem_of_ne_nil _ hne
    exact ⟨r, mem_atPrice.mp hr⟩
  · rintro ⟨r, hr, hrp⟩ hempty
    have hmem : r ∈ atPrice p rs := mem_atPrice.mpr ⟨hr, hrp⟩
    rw [hempty] at hmem
    cases hmem

theorem exists_head {a : Allocator OrderBlock A} {buf : ℕ → OrderList} {p : ℕ}
    (h : Rep B a buf rs free) (hp : p < B) (hne : ∃ r ∈ rs, r.raw.price = p) :
    ∃ l₁ r l₂, rs = l₁ ++ r :: l₂ ∧ r.raw.price = p ∧ (∀ x ∈ l₁, x.raw.price ≠ p) ∧
      (buf p).head = some r.slot := by
  cases hc : atPrice p rs with
  | nil =>
    obtain ⟨x, hx, hxp⟩ := hne
    have : x ∈ atPrice p rs := mem_atPrice.mpr ⟨hx, hxp⟩
    rw [hc] at this; cases this
  | cons r l =>
    obtain ⟨l₁, l₂, rfl, hl₁, hr, -⟩ := List.filter_eq_cons_iff.mp hc
    refine ⟨l₁, r, l₂, rfl, by simpa using hr, fun x hx => by simpa using hl₁ x hx, ?_⟩
    rw [(h.levels p hp).head, hc]
    rfl

namespace Engine

theorem scanSell_run (fuel : ℕ) (h : Rep B s.allocator s.orderBuffer rs free)
    (hf : B - s.bestSellIdx < fuel) (hle : s.bestSellIdx ≤ B) :
    ∃ k, scanSell fuel s = .ok (⟨⟩, { s with bestSellIdx := k }) ∧ s.bestSellIdx ≤ k ∧ k ≤ B ∧
      (0 < s.sellOrders →
        (∀ r ∈ rs, s.bestSellIdx ≤ r.raw.price → k ≤ r.raw.price) ∧
        (k < B → ∃ r ∈ rs, r.raw.price = k)) := by
  induction fuel generalizing s with
  | zero => omega
  | succ fuel ih =>
    unfold scanSell
    simp only [get_bind]
    by_cases hg : 0 < s.sellOrders ∧ s.bestSellIdx < B
    · rw [if_pos hg, bind_ok (level_apply hg.2)]
      by_cases hh : (s.orderBuffer s.bestSellIdx).head = none
      · rw [if_pos hh, modify_bind]
        obtain ⟨k, hk, hk₁, hk₂, hk₃⟩ := ih (s := { s with bestSellIdx := s.bestSellIdx + 1 }) h
          (by simp only; omega) hg.2
        refine ⟨k, hk, Nat.le_of_succ_le hk₁, hk₂, fun hpos => ⟨fun r hr hrp => ?_, (hk₃ hpos).2⟩⟩
        apply (hk₃ hpos).1 r hr
        -- the level just left holds no order
        have hne : r.raw.price ≠ s.bestSellIdx := fun hrp =>
          (head_ne_none h hg.2).mpr ⟨r, hr, hrp⟩ hh
        simp only
        omega
      · rw [if_neg hh]
        refine ⟨s.bestSellIdx, rfl, Nat.le_refl _, hle, fun _ => ⟨fun _ _ hrp => hrp, fun hk => ?_⟩⟩
        exact (head_ne_none h hk).mp hh
    · rw [if_neg hg]
      refine ⟨s.bestSellIdx, rfl, Nat.le_refl _, hle,
        fun hpos => ⟨fun _ _ hrp => hrp, fun hk => ?_⟩⟩
      exact absurd ⟨hpos, hk⟩ hg

theorem scanBuy_run (fuel : ℕ) (h : Rep B s.allocator s.orderBuffer rs free)
    (hf : s.bestBuyIdx < fuel) (hlt : s.bestBuyIdx < B) :
    ∃ k, scanBuy fuel s = .ok (⟨⟩, { s with bestBuyIdx := k }) ∧ k ≤ s.bestBuyIdx ∧
      (0 < s.buyOrders →
        (∀ r ∈ rs, r.raw.price ≤ s.bestBuyIdx → r.raw.price ≤ k) ∧
        (0 < k → ∃ r ∈ rs, r.raw.price = k)) := by
  induction fuel generalizing s with
  | zero => omega
  | succ fuel ih =>
    unfold scanBuy
    simp only [get_bind]
    by_cases hg : 0 < s.buyOrders ∧ 0 < s.bestBuyIdx
    · rw [if_pos hg, bind_ok (level_apply hlt)]
      by_cases hh : (s.orderBuffer s.bestBuyIdx).head = none
      · rw [if_pos hh, modify_bind]
        obtain ⟨k, hk, hk₁, hk₂⟩ := ih (s := { s with bestBuyIdx := s.bestBuyIdx - 1 }) h
          (by simp only; omega) (by simp only; omega)
        refine ⟨k, hk, Nat.le_trans hk₁ (Nat.sub_le _ _),
          fun hpos => ⟨fun r hr hrp => ?_, (hk₂ hpos).2⟩⟩
        apply (hk₂ hpos).1 r hr
        have hne : r.raw.price ≠ s.bestBuyIdx := fun hrp =>
          (head_ne_none h hlt).mpr ⟨r, hr, hrp⟩ hh
        simp only
        omega
      · rw [if_neg hh]
        refine ⟨s.bestBuyIdx, rfl, Nat.le_refl _, fun _ => ⟨fun _ _ hrp => hrp, fun _ => ?_⟩⟩
        exact (head_ne_none h hlt).mp hh
    · rw [if_neg hg]
      refine ⟨s.bestBuyIdx, rfl, Nat.le_refl _, fun hpos => ⟨fun _ _ hrp => hrp, fun hk => ?_⟩⟩
      exact absurd ⟨hpos, hk⟩ hg

theorem repairBestSell_run (h : Rep B s.allocator s.orderBuffer rs free)
    (hside : ∀ r ∈ rs, r.raw.side = .B ∨ r.raw.side = .S)
    (hsells : s.sellOrders = rs.countP (·.raw.side = .S)) (hle : s.bestSellIdx ≤ B)
    (hasks : ∀ r ∈ rs, r.raw.side = .S → s.bestSellIdx ≤ r.raw.price)
    (hbids : ∀ r ∈ rs, r.raw.side = .B → r.raw.price < s.bestSellIdx) :
    ∃ k, repairBestSell s = .ok (⟨⟩, { s with bestSellIdx := k }) ∧ IsBestSell B rs k := by
  obtain ⟨k, hk, hk₁, hk₂, hk₃⟩ := scanSell_run (B + 1) h (by omega) hle
  unfold repairBestSell
  rw [bind_ok hk, modify_apply]
  by_cases hz : s.sellOrders = 0
  · have hnone : ∀ r ∈ rs, r.raw.side ≠ .S := by
      rw [hsells, List.countP_eq_zero] at hz
      intro r hr
      simpa using hz r hr
    refine ⟨B, by simp [hz], fun r hr hs => absurd hs (hnone r hr), .inr ⟨hnone, rfl⟩⟩
  · obtain ⟨hmin, hused⟩ := hk₃ (Nat.pos_of_ne_zero hz)
    refine ⟨k, by simp [hz], fun r hr hs => hmin r hr (hasks r hr hs), .inl ?_⟩
    rw [hsells, ← ne_eq, ← Nat.pos_iff_ne_zero, List.countP_pos_iff] at hz
    obtain ⟨r, hr, hs⟩ := hz
    have hrk := hmin r hr (hasks r hr (by simpa using hs))
    obtain ⟨x, hx, rfl⟩ := hused (Nat.lt_of_le_of_lt hrk (h.price_lt r hr))
    -- a bid at this level would lie above the price of the removed ask
    rcases hside x hx with hb | hs
    · have hxlt := hbids x hx hb
      omega
    · exact ⟨x, hx, hs, rfl⟩

theorem repairBestBuy_run (h : Rep B s.allocator s.orderBuffer rs free)
    (hside : ∀ r ∈ rs, r.raw.side = .B ∨ r.raw.side = .S)
    (hbuys : s.buyOrders = rs.countP (·.raw.side = .B)) (hlt : s.bestBuyIdx < B)
    (hbids : ∀ r ∈ rs, r.raw.side = .B → r.raw.price ≤ s.bestBuyIdx)
    (hasks : ∀ r ∈ rs, r.raw.side = .S → s.bestBuyIdx < r.raw.price) :
    ∃ k, repairBestBuy s = .ok (⟨⟩, { s with bestBuyIdx := k }) ∧ IsBestBuy rs k := by
  obtain ⟨k, hk, hk₁, hk₂⟩ := scanBuy_run (B + 1) h (by omega) hlt
  unfold repairBestBuy
  rw [bind_ok hk, modify_apply]
  by_cases hz : s.buyOrders = 0
  · have hnone : ∀ r ∈ rs, r.raw.side ≠ .B := by
      rw [hbuys, List.countP_eq_zero] at hz
      intro r hr
      simpa using hz r hr
    refine ⟨0, by simp [hz], fun r hr hs => absurd hs (hnone r hr), .inr ⟨hnone, rfl⟩⟩
  · obtain ⟨hmax, hused⟩ := hk₂ (Nat.pos_of_ne_zero hz)
    refine ⟨k, by simp [hz], fun r hr hs => hmax r hr (hbids r hr hs), .inl ?_⟩
    rw [hbuys, ← ne_eq, ← Nat.pos_iff_ne_zero, List.countP_pos_iff] at hz
    obtain ⟨r, hr, hs⟩ := hz
    have hs : r.raw.side = .B := by simpa using hs
    have hrk := hmax r hr (hbids r hr hs)
    by_cases hk0 : k = 0
    · -- the scan stops at zero without looking, but the remaining bid is there
      exact ⟨r, hr, hs, by omega⟩
    · obtain ⟨x, hx, rfl⟩ := hused (Nat.pos_of_ne_zero hk0)
      rcases hside x hx with hb | hs
      · exact ⟨x, hx, hb, rfl⟩
      · have hxlt := hasks x hx hs
        omega

theorem book_init (hA : 0 < A) :
    Book ({} : Engine B A) [] (List.range A) 0 (fun _ => none) := by
  have hlinks : ∀ i < A, ({} : Allocator OrderBlock A).links i =
      some (if i + 1 < A then some (i + 1) else none) := fun i _ => rfl
  have hchain := FreeChain.range hlinks
  rw [if_pos hA] at hchain
  constructor
  case rep => exact ⟨fun p _ => isList_nil _, by simp, hchain, by simp⟩
  case bestBuy => exact ⟨by simp, .inr ⟨by simp, rfl⟩⟩
  case bestSell => exact ⟨by simp, .inr ⟨by simp, rfl⟩⟩
  case map => exact fun k => .inl ⟨rfl, rfl⟩
  all_goals simp

end Engine

section Operations

variable {s' : Engine B A}

theorem mem_of_mem_remove {x : Resting} (h : x ∈ l₁ ++ l₂) : x ∈ l₁ ++ r :: l₂ := by
  simp only [List.mem_append, List.mem_cons] at h ⊢
  tauto

theorem Book.sells_pos (h : Book s rs free n index) (hr : r ∈ rs) (hs : r.raw.side = .S) :
    0 < s.sellOrders := by
  rw [h.sells, List.countP_pos_iff]
  exact ⟨r, hr, by simp [hs]⟩

theorem Book.buys_pos (h : Book s rs free n index) (hr : r ∈ rs) (hs : r.raw.side = .B) :
    0 < s.buyOrders := by
  rw [h.buys, List.countP_pos_iff]
  exact ⟨r, hr, by simp [hs]⟩

theorem Book.repairSell (s' : Engine B A) (h : Book s (l₁ ++ r :: l₂) free n index)
    (hs : r.raw.side = .S) (hp : r.raw.price = s.bestSellIdx)
    (hrep : Rep B s'.allocator s'.orderBuffer (l₁ ++ l₂) (r.slot :: free))
    (hsells : s'.sellOrders = s.sellOrders - 1) (hbest : s'.bestSellIdx = s.bestSellIdx) :
    ∃ k, Engine.repairBestSell s' = .ok (⟨⟩, { s' with bestSellIdx := k }) ∧
      IsBestSell B (l₁ ++ l₂) k := by
  have hr : r ∈ l₁ ++ r :: l₂ := by simp
  have hlt := h.rep.price_lt r hr
  apply Engine.repairBestSell_run hrep
  · exact fun x hx => h.side x (mem_of_mem_remove hx)
  · rw [hsells, h.sells]
    simp [List.countP_append, hs]
  · omega
  · rw [hbest]
    exact fun x hx => h.bestSell.1 x (mem_of_mem_remove hx)
  · rw [hbest, ← hp]
    exact fun x hx hxs => h.uncrossed x (mem_of_mem_remove hx) r hr hxs hs

theorem Book.repairBuy (s' : Engine B A) (h : Book s (l₁ ++ r :: l₂) free n index)
    (hs : r.raw.side = .B) (hp : r.raw.price = s.bestBuyIdx)
    (hrep : Rep B s'.allocator s'.orderBuffer (l₁ ++ l₂) (r.slot :: free))
    (hbuys : s'.buyOrders = s.buyOrders - 1) (hbest : s'.bestBuyIdx = s.bestBuyIdx) :
    ∃ k, Engine.repairBestBuy s' = .ok (⟨⟩, { s' with bestBuyIdx := k }) ∧
      IsBestBuy (l₁ ++ l₂) k := by
  have hr : r ∈ l₁ ++ r :: l₂ := by simp
  have hlt := h.rep.price_lt r hr
  apply Engine.repairBestBuy_run hrep
  · exact fun x hx => h.side x (mem_of_mem_remove hx)
  · rw [hbuys, h.buys]
    simp [List.countP_append, hs]
  · omega
  · rw [hbest]
    exact fun x hx => h.bestBuy.1 x (mem_of_mem_remove hx)
  · rw [hbest, ← hp]
    exact fun x hx => h.uncrossed r hr x (mem_of_mem_remove hx) hs

theorem Book.remove (h : Book s (l₁ ++ r :: l₂) free n index)
    (hrep : Rep B s'.allocator s'.orderBuffer (l₁ ++ l₂) (r.slot :: free))
    (hbuys : s'.buyOrders = s.buyOrders - if r.raw.side = .B then 1 else 0)
    (hsells : s'.sellOrders = s.sellOrders - if r.raw.side = .S then 1 else 0)
    (hbuy : IsBestBuy (l₁ ++ l₂) s'.bestBuyIdx) (hsell : IsBestSell B (l₁ ++ l₂) s'.bestSellIdx)
    (hmap : s'.orderBlocksMap = Function.update s.orderBlocksMap r.key none) :
    Book s' (l₁ ++ l₂) (r.slot :: free) n (Function.update index r.key none) := by
  constructor
  case rep => exact hrep
  case side => exact fun x hx => h.side x (mem_of_mem_remove hx)
  case qty_pos => exact fun x hx => h.qty_pos x (mem_of_mem_remove hx)
  case qty_le => exact fun x hx => h.qty_le x (mem_of_mem_remove hx)
  case sorted => exact h.sorted.sublist (by simp)
  case seq_lt => exact fun x hx => h.seq_lt x (mem_of_mem_remove hx)
  case uncrossed =>
    intro b hb a ha
    exact h.uncrossed b (mem_of_mem_remove hb) a (mem_of_mem_remove ha)
  case buys =>
    rw [hbuys, h.buys]
    by_cases hs : r.raw.side = .B <;> simp [List.countP_append, hs]
  case sells =>
    rw [hsells, h.sells]
    by_cases hs : r.raw.side = .S <;> simp [List.countP_append, hs]
  case bestBuy => exact hbuy
  case bestSell => exact hsell
  case map =>
    intro k
    rw [hmap]
    by_cases hk : k = r.key
    · subst hk
      exact .inl ⟨Function.update_self .., Function.update_self ..⟩
    · rw [Function.update_of_ne hk, Function.update_of_ne hk]
      rcases h.map k with hnone | ⟨x, hx, hxs, hxk, hxi⟩
      · exact .inl hnone
      · refine .inr ⟨x, ?_, hxs, hxk, hxi⟩
        rcases List.mem_append.mp hx with hx | hx
        · exact List.mem_append_left _ hx
        · rcases List.mem_cons.mp hx with rfl | hx
          · exact absurd hxk.symm hk
          · exact List.mem_append_right _ hx

theorem Book.setQty (h : Book s (l₁ ++ r :: l₂) free n index) {q : ℕ} (hq : 0 < q)
    (hle : q ≤ r.currQty)
    (hrep : Rep B s'.allocator s'.orderBuffer (l₁ ++ { r with currQty := q } :: l₂) free)
    (hbuys : s'.buyOrders = s.buyOrders) (hsells : s'.sellOrders = s.sellOrders)
    (hbuy : s'.bestBuyIdx = s.bestBuyIdx) (hsell : s'.bestSellIdx = s.bestSellIdx)
    (hmap : s'.orderBlocksMap = s.orderBlocksMap) :
    Book s' (l₁ ++ { r with currQty := q } :: l₂) free n index := by
  have hr : r ∈ l₁ ++ r :: l₂ := by simp
  have hmem : ∀ P : Resting → Prop, P { r with currQty := q } → (∀ x ∈ l₁ ++ r :: l₂, P x) →
      ∀ x ∈ l₁ ++ { r with currQty := q } :: l₂, P x := by
    intro P hP hall x hx
    simp only [List.mem_append, List.mem_cons] at hx
    rcases hx with hx | rfl | hx
    · exact hall x (by simp [hx])
    · exact hP
    · exact hall x (by simp [hx])
  constructor
  case rep => exact hrep
  case side => exact hmem _ (h.side r hr) h.side
  case qty_pos => exact hmem _ hq h.qty_pos
  case qty_le => exact hmem _ (Nat.le_trans hle (h.qty_le r hr)) h.qty_le
  case sorted => simpa [List.pairwise_append] using h.sorted
  case seq_lt => exact hmem _ (h.seq_lt r hr) h.seq_lt
  case uncrossed =>
    have hb : ∀ b ∈ l₁ ++ r :: l₂, ∀ a ∈ l₁ ++ { r with currQty := q } :: l₂,
        b.raw.side = .B → a.raw.side = .S → b.raw.price < a.raw.price :=
      fun b hb => hmem _ (h.uncrossed b hb r hr) (h.uncrossed b hb)
    exact hmem _ (hb r hr) hb
  case buys => rw [hbuys, h.buys]; simp [List.countP_cons]
  case sells => rw [hsells, h.sells]; simp [List.countP_cons]
  case bestBuy =>
    rw [hbuy]
    simpa [IsBestBuy, or_imp, forall_and, or_and_right, exists_or] using h.bestBuy
  case bestSell =>
    rw [hsell]
    simpa [IsBestSell, or_imp, forall_and, or_and_right, exists_or] using h.bestSell
  case map =>
    intro k
    rw [hmap]
    rcases h.map k with hnone | ⟨x, hx, hxs, hxk, hxi⟩
    · exact .inl hnone
    · simp only [List.mem_append, List.mem_cons] at hx
      rcases hx with hx | rfl | hx
      · exact .inr ⟨x, by simp [hx], hxs, hxk, hxi⟩
      · exact .inr ⟨{ x with currQty := q }, by simp, hxs, hxk, hxi⟩
      · exact .inr ⟨x, by simp [hx], hxs, hxk, hxi⟩

/-- Resting an order overwrites whatever its key led to. -/
theorem Book.append {free' : List ℕ} (h : Book s rs free n index) (hseq : r.seq = n)
    (hside : r.raw.side = .B ∨ r.raw.side = .S) (hpos : 0 < r.currQty)
    (hle : r.currQty ≤ r.raw.quantity)
    (hcross : ∀ x ∈ rs, (r.raw.side = .B → x.raw.side = .S → r.raw.price < x.raw.price) ∧
      (x.raw.side = .B → r.raw.side = .S → x.raw.price < r.raw.price))
    (hrep : Rep B s'.allocator s'.orderBuffer (rs ++ [r]) free')
    (hbuys : s'.buyOrders = s.buyOrders + if r.raw.side = .B then 1 else 0)
    (hsells : s'.sellOrders = s.sellOrders + if r.raw.side = .S then 1 else 0)
    (hbuy : IsBestBuy (rs ++ [r]) s'.bestBuyIdx) (hsell : IsBestSell B (rs ++ [r]) s'.bestSellIdx)
    (hmap : s'.orderBlocksMap = Function.update s.orderBlocksMap r.key (some r.slot)) :
    Book s' (rs ++ [r]) free' (n + 1) (Function.update index r.key (some r.seq)) := by
  constructor
  case rep => exact hrep
  case side => exact List.forall_mem_append.mpr ⟨h.side, by simpa using hside⟩
  case qty_pos => exact List.forall_mem_append.mpr ⟨h.qty_pos, by simpa using hpos⟩
  case qty_le => exact List.forall_mem_append.mpr ⟨h.qty_le, by simpa using hle⟩
  case sorted =>
    refine List.pairwise_append.mpr ⟨h.sorted, by simp, fun x hx y hy => ?_⟩
    rw [List.mem_singleton.mp hy, hseq]
    exact h.seq_lt x hx
  case seq_lt =>
    refine List.forall_mem_append.mpr ⟨fun x hx => Nat.lt_succ_of_lt (h.seq_lt x hx), ?_⟩
    simp [hseq]
  case uncrossed =>
    intro b hb a ha hbs has
    simp only [List.mem_append, List.mem_singleton] at hb ha
    rcases hb with hb | rfl
    · rcases ha with ha | rfl
      · exact h.uncrossed b hb a ha hbs has
      · exact (hcross b hb).2 hbs has
    · rcases ha with ha | rfl
      · exact (hcross a ha).1 hbs has
      · exact absurd (hbs.symm.trans has) (by simp)
  case buys => rw [hbuys, h.buys]; simp [List.countP_append, List.countP_cons]
  case sells => rw [hsells, h.sells]; simp [List.countP_append, List.countP_cons]
  case bestBuy => exact hbuy
  case bestSell => exact hsell
  case map =>
    intro k
    rw [hmap]
    by_cases hk : k = r.key
    · subst hk
      exact .inr ⟨r, by simp, Function.update_self .., rfl, Function.update_self ..⟩
    · rw [Function.update_of_ne hk, Function.update_of_ne hk]
      rcases h.map k with hnone | ⟨x, hx, hxs⟩
      · exact .inl hnone
      · exact .inr ⟨x, List.mem_append_left _ hx, hxs⟩

theorem Book.exists_ask (h : Book s rs free n index) (hlt : s.bestSellIdx < B) :
    ∃ l₁ r l₂, rs = l₁ ++ r :: l₂ ∧ r.raw.side = .S ∧ r.raw.price = s.bestSellIdx ∧
      (∀ x ∈ l₁, x.raw.price ≠ r.raw.price) ∧
      (s.orderBuffer s.bestSellIdx).head = some r.slot := by
  rcases h.bestSell.2 with ⟨a, ha, has, hap⟩ | ⟨-, hB⟩
  · obtain ⟨l₁, r, l₂, hrs, hrp, hl₁, hhead⟩ := exists_head h.rep hlt ⟨a, ha, hap⟩
    have hr : r ∈ rs := by simp [hrs]
    refine ⟨l₁, r, l₂, hrs, ?_, hrp, by simpa [hrp] using hl₁, hhead⟩
    -- both sides share the level, but a bid there would cross the ask
    rcases h.side r hr with hb | hs
    · have hlt := h.uncrossed r hr a ha hb has
      omega
    · exact hs
  · omega

theorem Book.exists_bid (h : Book s rs free n index) (hpos : 0 < s.buyOrders) :
    ∃ l₁ r l₂, rs = l₁ ++ r :: l₂ ∧ r.raw.side = .B ∧ r.raw.price = s.bestBuyIdx ∧
      (∀ x ∈ l₁, x.raw.price ≠ r.raw.price) ∧
      (s.orderBuffer s.bestBuyIdx).head = some r.slot := by
  rw [h.buys, List.countP_pos_iff] at hpos
  obtain ⟨b, hb, hbs⟩ := hpos
  rcases h.bestBuy.2 with ⟨a, ha, has, hap⟩ | ⟨hnone, -⟩
  · obtain ⟨l₁, r, l₂, hrs, hrp, hl₁, hhead⟩ :=
      exists_head h.rep (hap ▸ h.rep.price_lt a ha) ⟨a, ha, hap⟩
    have hr : r ∈ rs := by simp [hrs]
    refine ⟨l₁, r, l₂, hrs, ?_, hrp, by simpa [hrp] using hl₁, hhead⟩
    rcases h.side r hr with hb | hs
    · exact hb
    · have hlt := h.uncrossed a ha r hr has hs
      omega
  · exact absurd (by simpa using hbs) (hnone b hb)

theorem IsBestBuy.append_buy {idx : ℕ} (h : IsBestBuy rs idx) (hs : r.raw.side = .B) :
    IsBestBuy (rs ++ [r]) (if idx < r.raw.price then r.raw.price else idx) := by
  obtain ⟨hmax, hused⟩ := h
  constructor
  · intro x hx hxs
    rcases List.mem_append.mp hx with hx | hx
    · have hxi := hmax x hx hxs
      split <;> omega
    · rw [List.mem_singleton.mp hx]
      split <;> omega
  · left
    by_cases hlt : idx < r.raw.price
    · rw [if_pos hlt]
      exact ⟨r, by simp, hs, rfl⟩
    · rw [if_neg hlt]
      rcases hused with ⟨x, hx, hxs, hxi⟩ | ⟨-, h0⟩
      · exact ⟨x, List.mem_append_left _ hx, hxs, hxi⟩
      · exact ⟨r, by simp, hs, by omega⟩

theorem IsBestBuy.append_sell {idx : ℕ} (h : IsBestBuy rs idx) (hs : r.raw.side = .S) :
    IsBestBuy (rs ++ [r]) idx := by
  simpa [IsBestBuy, or_imp, forall_and, or_and_right, exists_or, hs] using h

theorem IsBestSell.append_sell {idx : ℕ} (h : IsBestSell B rs idx) (hs : r.raw.side = .S)
    (hp : r.raw.price < B) :
    IsBestSell B (rs ++ [r]) (if r.raw.price < idx then r.raw.price else idx) := by
  obtain ⟨hmin, hused⟩ := h
  constructor
  · intro x hx hxs
    rcases List.mem_append.mp hx with hx | hx
    · have hxi := hmin x hx hxs
      split <;> omega
    · rw [List.mem_singleton.mp hx]
      split <;> omega
  · left
    by_cases hlt : r.raw.price < idx
    · rw [if_pos hlt]
      exact ⟨r, by simp, hs, rfl⟩
    · rw [if_neg hlt]
      rcases hused with ⟨x, hx, hxs, hxi⟩ | ⟨-, hB⟩
      · exact ⟨x, List.mem_append_left _ hx, hxs, hxi⟩
      · exact ⟨r, by simp, hs, by omega⟩

theorem IsBestSell.append_buy {idx : ℕ} (h : IsBestSell B rs idx) (hs : r.raw.side = .B) :
    IsBestSell B (rs ++ [r]) idx := by
  simpa [IsBestSell, or_imp, forall_and, or_and_right, exists_or, hs] using h

theorem exists_remove {side : SideEnum} {idx : ℕ}
    (h : ∃ x ∈ l₁ ++ r :: l₂, x.raw.side = side ∧ x.raw.price = idx)
    (hstay : r.raw.price ≠ idx ∨
      ∃ x ∈ l₁ ++ l₂, x.raw.side = side ∧ x.raw.price = r.raw.price) :
    ∃ x ∈ l₁ ++ l₂, x.raw.side = side ∧ x.raw.price = idx := by
  obtain ⟨x, hx, hxs, hxp⟩ := h
  by_cases hxr : x = r
  · subst hxr
    rcases hstay with hne | ⟨y, hy, hys, hyp⟩
    · exact absurd hxp hne
    · exact ⟨y, hy, hys, hyp.trans hxp⟩
  · refine ⟨x, ?_, hxs, hxp⟩
    simp only [List.mem_append, List.mem_cons, hxr, false_or] at hx
    exact List.mem_append.mpr hx

theorem IsBestBuy.remove_buy {idx : ℕ} (h : IsBestBuy (l₁ ++ r :: l₂) idx)
    (hstay : r.raw.price ≠ idx ∨
      ∃ x ∈ l₁ ++ l₂, x.raw.side = .B ∧ x.raw.price = r.raw.price)
    (hs : r.raw.side = .B) : IsBestBuy (l₁ ++ l₂) idx := by
  refine ⟨fun x hx => h.1 x (mem_of_mem_remove hx), .inl ?_⟩
  rcases h.2 with hthere | ⟨hnone, -⟩
  · exact exists_remove hthere hstay
  · exact absurd hs (hnone r (by simp))

theorem IsBestSell.remove_sell {idx : ℕ} (h : IsBestSell B (l₁ ++ r :: l₂) idx)
    (hstay : r.raw.price ≠ idx ∨
      ∃ x ∈ l₁ ++ l₂, x.raw.side = .S ∧ x.raw.price = r.raw.price)
    (hs : r.raw.side = .S) : IsBestSell B (l₁ ++ l₂) idx := by
  refine ⟨fun x hx => h.1 x (mem_of_mem_remove hx), .inl ?_⟩
  rcases h.2 with hthere | ⟨hnone, -⟩
  · exact exists_remove hthere hstay
  · exact absurd hs (hnone r (by simp))

theorem IsBestBuy.remove_sell {idx : ℕ} (h : IsBestBuy (l₁ ++ r :: l₂) idx)
    (hs : r.raw.side = .S) : IsBestBuy (l₁ ++ l₂) idx := by
  simpa [IsBestBuy, or_imp, forall_and, or_and_right, exists_or, hs] using h

theorem IsBestSell.remove_buy {idx : ℕ} (h : IsBestSell B (l₁ ++ r :: l₂) idx)
    (hs : r.raw.side = .B) : IsBestSell B (l₁ ++ l₂) idx := by
  simpa [IsBestSell, or_imp, forall_and, or_and_right, exists_or, hs] using h

theorem perm_swapRemove {os : List SimOrder} {i : ℕ}
    (hos : os.Perm ((l₁ ++ r :: l₂).map Resting.sim)) (hi : os[i]? = some r.sim) :
    (swapRemove os i).Perm ((l₁ ++ l₂).map Resting.sim) := by
  have h := (swapRemove_perm hi).trans hos
  rw [List.map_append, List.map_cons] at h
  rw [List.map_append]
  exact (h.trans List.perm_middle).cons_inv

theorem perm_set {os : List SimOrder} {i : ℕ} (hos : os.Perm ((l₁ ++ r :: l₂).map Resting.sim))
    (hi : os[i]? = some r.sim) (q : ℕ) :
    (os.set i { r.sim with remainingQty := q }).Perm
      ((l₁ ++ { r with currQty := q } :: l₂).map Resting.sim) := by
  obtain ⟨os', hos', hset⟩ := set_perm hi { r.sim with remainingQty := q }
  have h := hos'.trans hos
  rw [List.map_append, List.map_cons] at h
  rw [List.map_append, List.map_cons]
  exact hset.symm.trans (((h.trans List.perm_middle).cons_inv.cons _).trans List.perm_middle.symm)

end Operations

end LowLevel.OrderBook
