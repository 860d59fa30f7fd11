import LowLevel.OrderBook.Invariant

/-! # The matching loops

Each round of a matching loop trades with the order that a full scan of the
open orders selects. The engine finds it at the head of the level of a cached
index, because the index is the best price and a level is in arrival order.
-/

namespace LowLevel.OrderBook

open DoublyLinked FlowGenerator

variable {B A : ℕ} {s s' s₀ : Engine B A} {rs l₁ l₂ : List Resting} {free : List ℕ} {t n i : ℕ}
  {index : UInt64 → Option ℕ} {r : Resting} {m : Matching} {incoming : SimOrder}
  {account ref : UInt32} {order : EnterRequestView}

namespace SimOrder

theorem beats_irrefl (incoming x : SimOrder) : incoming.beats x x = false := by
  unfold beats
  split <;> simp

theorem beats_of_not_beats (incoming x y z : SimOrder) (hyz : incoming.beats y z = false)
    (hxz : incoming.beats x z = true) : incoming.beats y x = false := by
  by_cases hs : incoming.side = .B
  · simp only [beats, hs, if_true, Bool.or_eq_true, Bool.or_eq_false_iff, decide_eq_true_eq,
      decide_eq_false_iff_not] at hyz hxz ⊢
    omega
  · simp only [beats, hs, if_false, Bool.or_eq_true, Bool.or_eq_false_iff, decide_eq_true_eq,
      decide_eq_false_iff_not] at hyz hxz ⊢
    omega

end SimOrder

theorem best_eq_none {os : List SimOrder} {rule : SimOrder → SimOrder → Bool} :
    best rule incoming os = none ↔ ∀ x ∈ os, rule incoming x = false :=
  scanBest_eq_none incoming.beats_irrefl incoming.beats_of_not_beats

theorem best_eq_some {os : List SimOrder} (hos : os.Perm ((l₁ ++ r :: l₂).map Resting.sim))
    (hsorted : (l₁ ++ r :: l₂).Pairwise (·.seq < ·.seq))
    (hl₁ : ∀ x ∈ l₁, x.raw.price ≠ r.raw.price) (hok : incoming.reaches r.sim = true)
    (hbest : ∀ x ∈ l₁ ++ r :: l₂, incoming.reaches x.sim = true → x.raw.price ≠ r.raw.price →
      if incoming.side = .B then r.raw.price < x.raw.price else x.raw.price < r.raw.price) :
    ∃ i, best SimOrder.reaches incoming os = some (i, r.sim) ∧ os[i]? = some r.sim := by
  apply scanBest_eq_some incoming.beats_irrefl incoming.beats_of_not_beats _ hok
  · intro x hx hxok hne
    obtain ⟨y, hy, rfl⟩ := List.mem_map.mp (hos.mem_iff.mp hx)
    by_cases hp : y.raw.price = r.raw.price
    · -- at the same price the order stands behind in the level
      have hy₂ : y ∈ l₂ := by
        rcases List.mem_append.mp hy with hy | hy
        · exact absurd hp (hl₁ y hy)
        · rcases List.mem_cons.mp hy with rfl | hy
          · exact absurd rfl hne
          · exact hy
      have hlt := (List.pairwise_cons.mp (List.pairwise_append.mp hsorted).2.1).1 y hy₂
      simp [SimOrder.beats, hp, hlt]
    · have hworse := hbest y hy hxok hp
      unfold SimOrder.beats
      split at hworse <;> simp_all
  · rw [hos.mem_iff]
    exact List.mem_map.mpr ⟨r, by simp, rfl⟩

theorem fillMessages_append (account ref : UInt32) (t : ℕ) (fs : List Fill) (f : Fill) :
    fillMessages account ref t (fs ++ [f]) =
      fillMessages account ref t fs ++ legs account ref ((t + fs.length + 1) % 2 ^ 64) f := by
  induction fs generalizing t with
  | nil => simp [fillMessages]
  | cons g fs ih =>
    simp only [List.cons_append, fillMessages, ih, List.append_assoc, List.length_cons]
    rw [show t + 1 + fs.length = t + (fs.length + 1) by omega]

theorem eraseFilled_append (index : UInt64 → Option ℕ) (fs : List Fill) (f : Fill) :
    eraseFilled index (fs ++ [f]) = if f.resting.remainingQty ≤ f.qty then
      Function.update (eraseFilled index fs) f.resting.key none else eraseFilled index fs := by
  simp [eraseFilled, List.foldl_append]

def Engine.reported (s : Engine B A) (account ref : UInt32) (f : Fill) : Engine B A :=
  { s with
    matchCounter := (s.matchCounter + 1) % 2 ^ 64
    outgoingQueue := s.outgoingQueue ++ legs account ref ((s.matchCounter + 1) % 2 ^ 64) f }

theorem Engine.sendFills_run (h : Rep B s.allocator s.orderBuffer rs free) (hr : r ∈ rs) (q : ℕ) :
    sendFills account order r.slot q r.raw.price s =
      .ok (⟨⟩, s.reported account order.userRefNum ⟨r.sim, q⟩) := by
  obtain ⟨b, hb, hd⟩ := load_resting h hr
  have hkey : b.key = r.key := congrArg BlockData.key hd
  unfold sendFills
  simp only [modify_bind, get_bind, sendExecuted, publish]
  refine (bind_ok (load_apply (b := b) ?_)).trans ?_
  · exact hb
  rw [modify_apply, hkey]
  simp only [reported, legs, executed, Resting.key, orderKey_account, orderKey_userRefNum,
    List.append_assoc, List.cons_append, List.nil_append]
  rfl

/-- The engine has made the trades of a stage of the naive matcher since it was in state `s₀`,
when `t` trades had been made; it is processing the request number `n`. -/
structure Stage (account ref : UInt32) (s₀ : Engine B A) (t n : ℕ) (index : UInt64 → Option ℕ)
    (s : Engine B A) (m : Matching) (rs : List Resting) (free : List ℕ) : Prop where
  book : Book s rs free n (eraseFilled index m.fills)
  orders : m.openOrders.Perm (rs.map Resting.sim)
  outgoing : s.outgoingQueue = s₀.outgoingQueue ++ fillMessages account ref t m.fills
  trades : s.matchCounter = (t + m.fills.length) % 2 ^ 64
  counter : s.counter = s₀.counter

namespace Stage

theorem reported (h : Stage account ref s₀ t n index s m rs free) (f : Fill) :
    (s.reported account ref f).outgoingQueue =
        s₀.outgoingQueue ++ fillMessages account ref t (m.fills ++ [f]) ∧
      (s.reported account ref f).matchCounter = (t + (m.fills ++ [f]).length) % 2 ^ 64 := by
  have ht : (s.matchCounter + 1) % 2 ^ 64 = (t + m.fills.length + 1) % 2 ^ 64 := by
    rw [h.trades]
    omega
  constructor
  · simp only [Engine.reported]
    rw [h.outgoing, ht, fillMessages_append, List.append_assoc]
  · simp only [Engine.reported]
    rw [ht]
    simp [Nat.add_assoc]

theorem partly (h : Stage account ref s₀ t n index s m (l₁ ++ r :: l₂) free)
    (hi : m.openOrders[i]? = some r.sim) (hlt : m.remainingQty < r.currQty)
    {a : Allocator OrderBlock A}
    (ha : Rep B a s.orderBuffer (l₁ ++ { r with currQty := r.currQty - m.remainingQty } :: l₂)
      free) :
    Stage account ref s₀ t n index
      ((s.reported account ref ⟨r.sim, m.remainingQty⟩).setBook a s.orderBuffer)
      (trade m i r.sim) (l₁ ++ { r with currQty := r.currQty - m.remainingQty } :: l₂) free := by
  have hmin : min m.remainingQty r.currQty = m.remainingQty := Nat.min_eq_left (Nat.le_of_lt hlt)
  have hleft : r.currQty - m.remainingQty ≠ 0 := by omega
  obtain ⟨hout, htr⟩ := h.reported ⟨r.sim, m.remainingQty⟩
  have hfills : (trade m i r.sim).fills = m.fills ++ [⟨r.sim, m.remainingQty⟩] := by
    simp [trade, hmin]
  constructor
  case book =>
    rw [hfills, eraseFilled_append, if_neg (by simpa using hlt)]
    exact h.book.setQty (by omega) (by omega) ha rfl rfl rfl rfl rfl
  case orders =>
    have hopen : (trade m i r.sim).openOrders =
        m.openOrders.set i { r.sim with remainingQty := r.currQty - m.remainingQty } := by
      simp [trade, hmin, hleft]
    rw [hopen]
    exact perm_set h.orders hi _
  case outgoing => rw [hfills]; exact hout
  case trades => rw [hfills]; exact htr
  case counter => exact h.counter

theorem wholly (h : Stage account ref s₀ t n index s m (l₁ ++ r :: l₂) free)
    (hi : m.openOrders[i]? = some r.sim) (hle : r.currQty ≤ m.remainingQty)
    (hbook : Book s' (l₁ ++ l₂) (r.slot :: free) n
      (Function.update (eraseFilled index m.fills) r.key none))
    (hout : s'.outgoingQueue = (s.reported account ref ⟨r.sim, r.currQty⟩).outgoingQueue)
    (htr : s'.matchCounter = (s.reported account ref ⟨r.sim, r.currQty⟩).matchCounter)
    (hcount : s'.counter = s.counter) :
    Stage account ref s₀ t n index s' (trade m i r.sim) (l₁ ++ l₂) (r.slot :: free) := by
  have hmin : min m.remainingQty r.currQty = r.currQty := Nat.min_eq_right hle
  have hfills : (trade m i r.sim).fills = m.fills ++ [⟨r.sim, r.currQty⟩] := by
    simp [trade, hmin]
  obtain ⟨hout', htr'⟩ := h.reported ⟨r.sim, r.currQty⟩
  constructor
  case book =>
    rw [hfills, eraseFilled_append, if_pos (by simp)]
    exact hbook
  case orders =>
    have hopen : (trade m i r.sim).openOrders = swapRemove m.openOrders i := by
      simp [trade, hmin]
    rw [hopen]
    exact perm_swapRemove h.orders hi
  case outgoing => rw [hfills, hout, hout']
  case trades => rw [hfills, htr, htr']
  case counter => rw [hcount, h.counter]

end Stage

open Engine

/-- What one round of a matching loop does: it stops when the incoming order is used up or
nothing is within its reach, and otherwise makes the trade of the naive matcher. -/
def Round (loop : ℕ → ℕ → EngineM B A ℕ) (incoming : SimOrder) (account ref : UInt32)
    (s₀ : Engine B A) (t n : ℕ) (index : UInt64 → Option ℕ) (s : Engine B A) (m : Matching)
    (rs : List Resting) : Prop :=
  ((∀ fuel, loop (fuel + 1) m.remainingQty s = .ok (m.remainingQty, s)) ∧
    (m.remainingQty = 0 ∨ best SimOrder.reaches incoming m.openOrders = none)) ∨
  (m.remainingQty ≠ 0 ∧ ∃ i r s' rs' free',
    best SimOrder.reaches incoming m.openOrders = some (i, r) ∧
    (∀ fuel, loop (fuel + 1) m.remainingQty s = loop fuel (trade m i r).remainingQty s') ∧
    Stage account ref s₀ t n index s' (trade m i r) rs' free' ∧
    0 < rs.length ∧ ((trade m i r).remainingQty = 0 ∨ rs'.length < rs.length))

theorem Engine.loop_run {loop : ℕ → ℕ → EngineM B A ℕ}
    (hround : ∀ s m rs free, Stage account ref s₀ t n index s m rs free →
      Round loop incoming account ref s₀ t n index s m rs)
    (fuel k : ℕ) (h : Stage account ref s₀ t n index s m rs free)
    (hfuel : m.remainingQty = 0 ∧ 0 < fuel ∨ rs.length < fuel)
    (hk : m.remainingQty = 0 ∨ rs.length < k) :
    ∃ s' rs' free',
      loop fuel m.remainingQty s =
        .ok ((matchLoop SimOrder.reaches incoming k m).remainingQty, s') ∧
      Stage account ref s₀ t n index s' (matchLoop SimOrder.reaches incoming k m) rs' free' ∧
      ((matchLoop SimOrder.reaches incoming k m).remainingQty = 0 ∨
        ∀ x ∈ rs', incoming.reaches x.sim = false) := by
  induction fuel generalizing s m rs free k with
  | zero => omega
  | succ fuel ih =>
    rcases hround s m rs free h with ⟨hstop, hend⟩ |
      ⟨hq, i, r, s', rs', free', hbest, hstep, h', hpos, hlt⟩
    · have hloop : matchLoop SimOrder.reaches incoming k m = m := by
        cases k with
        | zero => rfl
        | succ k =>
          rcases hend with hq | hnone
          · simp [matchLoop, hq]
          · simp [matchLoop, hnone]
      rw [hloop]
      refine ⟨s, rs, free, hstop fuel, h, ?_⟩
      rcases hend with hq | hnone
      · exact .inl hq
      · right
        intro x hx
        apply best_eq_none.mp hnone
        rw [h.orders.mem_iff]
        exact List.mem_map.mpr ⟨x, hx, rfl⟩
    · cases k with
      | zero => omega
      | succ k =>
        have hloop : matchLoop SimOrder.reaches incoming (k + 1) m =
            matchLoop SimOrder.reaches incoming k (trade m i r) := by
          simp [matchLoop, hq, hbest]
        rw [hloop, hstep fuel]
        apply ih k h'
        · omega
        · omega

theorem trade_remainingQty (m : Matching) (i : ℕ) (r : SimOrder) :
    (trade m i r).remainingQty = m.remainingQty - r.remainingQty := by
  simp only [trade]
  omega

theorem Engine.matchBuy_fill
    (h : Stage account order.userRefNum s₀ t n index s m (l₁ ++ r :: l₂) free)
    (hs : r.raw.side = .S) (hp : r.raw.price = s.bestSellIdx) (hlt : s.bestSellIdx < B)
    (hhead : (s.orderBuffer s.bestSellIdx).head = some r.slot)
    (hi : m.openOrders[i]? = some r.sim) (hcross : s.bestSellIdx ≤ order.price)
    (hq : 0 < m.remainingQty) :
    ∃ s' rs' free',
      (∀ fuel, matchBuy account order (fuel + 1) m.remainingQty s =
        matchBuy account order fuel (trade m i r.sim).remainingQty s') ∧
      Stage account order.userRefNum s₀ t n index s' (trade m i r.sim) rs' free' ∧
      ((trade m i r.sim).remainingQty = 0 ∨ rs'.length < (l₁ ++ r :: l₂).length) := by
  have hr : r ∈ l₁ ++ r :: l₂ := by simp
  obtain ⟨b, hb, hd⟩ := load_resting h.book.rep hr
  have hbq : b.currQty = r.currQty := congrArg BlockData.currQty hd
  have hbk : b.key = r.key := congrArg BlockData.key hd
  have hsells := h.book.sells_pos hr hs
  have hstart : ∀ fuel, matchBuy account order (fuel + 1) m.remainingQty s = _ := fun fuel => by
    rw [matchBuy, get_bind, if_pos ⟨hsells, hlt, hcross, hq⟩, bind_ok (level_apply hlt), hhead,
      bind_ok (show deref (some r.slot) s = .ok (r.slot, s) from rfl), bind_ok (load_apply hb), hbq,
      ← hp, bind_ok (sendFills_run h.book.rep hr _),
      bind_ok (s := s.reported account order.userRefNum _) (load_apply hb), hbq]
  rcases Nat.lt_or_ge m.remainingQty r.currQty with hlt' | hge
  · obtain ⟨a, hstore, ha⟩ := setQty_run (s := s.reported account order.userRefNum _)
      h.book.rep hb hd (r.currQty - m.remainingQty)
    refine ⟨_, _, _, fun fuel => ?_, h.partly hi hlt' ha, .inl ?_⟩
    · rw [hstart, if_pos hlt', bind_ok (sub_apply (Nat.le_of_lt hlt')),
        Nat.min_eq_right (Nat.le_of_lt hlt'), bind_ok hstore, trade_remainingQty]
      simp [Nat.sub_eq_zero_of_le (Nat.le_of_lt hlt')]
      rfl
    · rw [trade_remainingQty]
      simp [Nat.le_of_lt hlt']
  · let s₂ : Engine B A := { s.reported account order.userRefNum ⟨r.sim, r.currQty⟩ with
      orderBlocksMap := Function.update s.orderBlocksMap r.key none
      sellOrders := s.sellOrders - 1 }
    obtain ⟨s₃, a, buf, hunlink, hdealloc, hrep⟩ := remove_run (s := s₂) h.book.rep
    obtain ⟨k, hrepair, hk⟩ := h.book.repairSell (s₂.setBook a buf) hs hp hrep rfl rfl
    have hbook : Book ({ s₂.setBook a buf with bestSellIdx := k } : Engine B A) (l₁ ++ l₂)
        (r.slot :: free) n (Function.update (eraseFilled index m.fills) r.key none) := by
      apply h.book.remove hrep
      · simp [hs, s₂, setBook, reported]
      · simp [hs, s₂, setBook, reported]
      · exact h.book.bestBuy.remove_sell hs
      · exact hk
      · rfl
    refine ⟨_, _, _, fun fuel => ?_, h.wholly hi hge hbook rfl rfl rfl, .inr ?_⟩
    · rw [hstart, if_neg (Nat.not_lt.mpr hge), Nat.min_eq_left hge, hbk]
      unfold eraseKey
      rw [modify_bind, get_bind]
      refine (bind_ok (sub_apply ?_)).trans ?_
      · exact hsells
      rw [modify_bind]
      refine (bind_ok (load_apply (b := b) ?_)).trans ?_
      · exact hb
      rw [hbq, bind_ok (sub_apply hge)]
      refine (bind_ok hunlink).trans ?_
      rw [bind_ok hdealloc, bind_ok hrepair, trade_remainingQty]
      rfl
    · simp

/-- The head check of the sell loop never stops it early: bids have a non-empty best level. -/
theorem Book.bidWaiting_run (h : Book s rs free n index) :
    bidWaiting s = .ok (decide (0 < s.buyOrders), s) := by
  unfold bidWaiting
  rw [get_bind]
  by_cases hpos : 0 < s.buyOrders
  · obtain ⟨l₁, r, l₂, rfl, -, hp, -, hhead⟩ := h.exists_bid hpos
    have hlt : s.bestBuyIdx < B := hp ▸ h.rep.price_lt r (by simp)
    rw [if_pos hpos, bind_ok (level_apply hlt), hhead]
    simp [hpos]
  · rw [if_neg hpos]
    simp [hpos]

theorem Engine.matchSell_fill {limit : ℕ}
    (h : Stage account order.userRefNum s₀ t n index s m (l₁ ++ r :: l₂) free)
    (hs : r.raw.side = .B) (hp : r.raw.price = s.bestBuyIdx)
    (hhead : (s.orderBuffer s.bestBuyIdx).head = some r.slot)
    (hi : m.openOrders[i]? = some r.sim) (hcross : limit ≤ s.bestBuyIdx)
    (hq : 0 < m.remainingQty) :
    ∃ s' rs' free',
      (∀ fuel, matchSell account order limit (fuel + 1) m.remainingQty s =
        matchSell account order limit fuel (trade m i r.sim).remainingQty s') ∧
      Stage account order.userRefNum s₀ t n index s' (trade m i r.sim) rs' free' ∧
      ((trade m i r.sim).remainingQty = 0 ∨ rs'.length < (l₁ ++ r :: l₂).length) := by
  have hr : r ∈ l₁ ++ r :: l₂ := by simp
  have hlt : s.bestBuyIdx < B := hp ▸ h.book.rep.price_lt r hr
  obtain ⟨b, hb, hd⟩ := load_resting h.book.rep hr
  have hbq : b.currQty = r.currQty := congrArg BlockData.currQty hd
  have hbk : b.key = r.key := congrArg BlockData.key hd
  have hbuys := h.book.buys_pos hr hs
  have hstart : ∀ fuel, matchSell account order limit (fuel + 1) m.remainingQty s = _ :=
    fun fuel => by
      rw [matchSell, get_bind, bind_ok h.book.bidWaiting_run,
        if_pos ⟨decide_eq_true hbuys, hcross, hq⟩, bind_ok (level_apply hlt), hhead,
        bind_ok (show deref (some r.slot) s = .ok (r.slot, s) from rfl), bind_ok (load_apply hb),
        hbq, ← hp, bind_ok (sendFills_run h.book.rep hr _),
        bind_ok (s := s.reported account order.userRefNum _) (load_apply hb), hbq]
  rcases Nat.lt_or_ge m.remainingQty r.currQty with hlt' | hge
  · obtain ⟨a, hstore, ha⟩ := setQty_run (s := s.reported account order.userRefNum _)
      h.book.rep hb hd (r.currQty - m.remainingQty)
    refine ⟨_, _, _, fun fuel => ?_, h.partly hi hlt' ha, .inl ?_⟩
    · rw [hstart, if_pos hlt', bind_ok (sub_apply (Nat.le_of_lt hlt')),
        Nat.min_eq_right (Nat.le_of_lt hlt'), bind_ok hstore, trade_remainingQty]
      simp [Nat.sub_eq_zero_of_le (Nat.le_of_lt hlt')]
      rfl
    · rw [trade_remainingQty]
      simp [Nat.le_of_lt hlt']
  · let s₂ : Engine B A := { s.reported account order.userRefNum ⟨r.sim, r.currQty⟩ with
      orderBlocksMap := Function.update s.orderBlocksMap r.key none
      buyOrders := s.buyOrders - 1 }
    obtain ⟨s₃, a, buf, hunlink, hdealloc, hrep⟩ := remove_run (s := s₂) h.book.rep
    obtain ⟨k, hrepair, hk⟩ := h.book.repairBuy (s₂.setBook a buf) hs hp hrep rfl rfl
    have hbook : Book ({ s₂.setBook a buf with bestBuyIdx := k } : Engine B A) (l₁ ++ l₂)
        (r.slot :: free) n (Function.update (eraseFilled index m.fills) r.key none) := by
      apply h.book.remove hrep
      · simp [hs, s₂, setBook, reported]
      · simp [hs, s₂, setBook, reported]
      · exact hk
      · exact h.book.bestSell.remove_buy hs
      · rfl
    refine ⟨_, _, _, fun fuel => ?_, h.wholly hi hge hbook rfl rfl rfl, .inr ?_⟩
    · rw [hstart, if_neg (Nat.not_lt.mpr hge), Nat.min_eq_left hge, hbk, get_bind]
      refine (bind_ok (sub_apply ?_)).trans ?_
      · exact hbuys
      unfold eraseKey
      rw [modify_bind, modify_bind]
      refine (bind_ok (load_apply (b := b) ?_)).trans ?_
      · exact hb
      rw [hbq, bind_ok (sub_apply hge)]
      refine (bind_ok hunlink).trans ?_
      rw [bind_ok hdealloc, bind_ok hrepair, trade_remainingQty]
      rfl
    · simp

theorem Engine.matchBuy_round (incoming : SimOrder) (hside : incoming.side = .B)
    (hprice : incoming.price = order.price)
    (h : Stage account order.userRefNum s₀ t n index s m rs free) :
    Round (matchBuy account order) incoming account order.userRefNum s₀ t n index s m rs := by
  by_cases hg : 0 < s.sellOrders ∧ s.bestSellIdx < B ∧ s.bestSellIdx ≤ order.price ∧
      0 < m.remainingQty
  · obtain ⟨-, hlt, hcross, hq⟩ := hg
    obtain ⟨l₁, r, l₂, rfl, hs, hp, hl₁, hhead⟩ := h.book.exists_ask hlt
    have hreach : incoming.reaches r.sim = true := by
      simp [SimOrder.reaches, hside, hs, hprice, hp, hcross]
    obtain ⟨i, hbest, hi⟩ := best_eq_some h.orders h.book.sorted hl₁ hreach (by
      intro x hx hxr hxp
      rw [if_pos hside]
      have hxs : x.raw.side = .S := by
        rcases h.book.side x hx with hb | hs
        · simp [SimOrder.reaches, hside, hb] at hxr
        · exact hs
      have hxmin := h.book.bestSell.1 x hx hxs
      omega)
    obtain ⟨s', rs', free', hrun, h', hless⟩ := matchBuy_fill h hs hp hlt hhead hi hcross hq
    have hpos : 0 < (l₁ ++ r :: l₂).length := List.length_pos_of_mem (a := r) (by simp)
    exact .inr ⟨Nat.pos_iff_ne_zero.mp hq, i, r.sim, s', rs', free', hbest, hrun, h', hpos, hless⟩
  · refine .inl ⟨fun fuel => ?_, ?_⟩
    · rw [matchBuy, get_bind, if_neg hg]
      rfl
    · by_cases hq : m.remainingQty = 0
      · exact .inl hq
      · right
        rw [best_eq_none]
        intro x hx
        obtain ⟨y, hy, rfl⟩ := List.mem_map.mp (h.orders.mem_iff.mp hx)
        rcases h.book.side y hy with hb | hs
        · simp [SimOrder.reaches, hside, hb]
        · -- an ask within reach would have kept the loop going
          have hsells := h.book.sells_pos hy hs
          have hmin := h.book.bestSell.1 y hy hs
          have hyB := h.book.rep.price_lt y hy
          have hfar : order.price < y.raw.price := by
            by_contra hnot
            exact hg ⟨hsells, by omega, by omega, by omega⟩
          simp [SimOrder.reaches, hside, hprice, hfar]

theorem Engine.matchSell_round (incoming : SimOrder) (hside : incoming.side = .S)
    (hprice : incoming.price = order.price)
    (h : Stage account order.userRefNum s₀ t n index s m rs free) :
    Round (matchSell account order (if order.price = MARKETPRICE then 0 else order.price)) incoming
      account order.userRefNum s₀ t n index s m rs := by
  generalize hlimit : (if order.price = MARKETPRICE then 0 else order.price) = limit
  by_cases hg : 0 < s.buyOrders ∧ limit ≤ s.bestBuyIdx ∧ 0 < m.remainingQty
  · obtain ⟨hbuys, hcross, hq⟩ := hg
    obtain ⟨l₁, r, l₂, rfl, hs, hp, hl₁, hhead⟩ := h.book.exists_bid hbuys
    have hreach : incoming.reaches r.sim = true := by
      simp [SimOrder.reaches, hside, hs, hprice, hp, hlimit, hcross]
    obtain ⟨i, hbest, hi⟩ := best_eq_some h.orders h.book.sorted hl₁ hreach (by
      intro x hx hxr hxp
      rw [if_neg (by simp [hside])]
      have hxs : x.raw.side = .B := by
        rcases h.book.side x hx with hb | hs
        · exact hb
        · simp [SimOrder.reaches, hside, hs] at hxr
      have hxmax := h.book.bestBuy.1 x hx hxs
      omega)
    obtain ⟨s', rs', free', hrun, h', hless⟩ := matchSell_fill h hs hp hhead hi hcross hq
    have hpos : 0 < (l₁ ++ r :: l₂).length := List.length_pos_of_mem (a := r) (by simp)
    exact .inr ⟨Nat.pos_iff_ne_zero.mp hq, i, r.sim, s', rs', free', hbest, hrun, h', hpos, hless⟩
  · refine .inl ⟨fun fuel => ?_, ?_⟩
    · have hg' : ¬ (decide (0 < s.buyOrders) = true ∧ limit ≤ s.bestBuyIdx ∧
          0 < m.remainingQty) := by simpa using hg
      rw [matchSell, get_bind, bind_ok h.book.bidWaiting_run, if_neg hg']
      rfl
    · by_cases hq : m.remainingQty = 0
      · exact .inl hq
      · right
        rw [best_eq_none]
        intro x hx
        obtain ⟨y, hy, rfl⟩ := List.mem_map.mp (h.orders.mem_iff.mp hx)
        rcases h.book.side y hy with hb | hs
        · have hbuys := h.book.buys_pos hy hb
          have hmax := h.book.bestBuy.1 y hy hb
          have hfar : y.raw.price < limit := by
            by_contra hnot
            exact hg ⟨hbuys, by omega, by omega⟩
          simp [SimOrder.reaches, hside, hprice, hlimit, hfar]
        · simp [SimOrder.reaches, hside, hs]

end LowLevel.OrderBook
