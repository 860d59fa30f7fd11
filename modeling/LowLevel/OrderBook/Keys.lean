import LowLevel.OrderBook.MatchLaws
import LowLevel.OrderBook.Runs

/-! # Orders and their keys

As long as no request rests under the key of an order that is still in the
book, the map leads from the key of every resting order to its block. Then the
index adds nothing to a search by key, and the engine refines the naive
matcher. A reused key hides the older order from its owner.
-/

namespace LowLevel.OrderBook

open DoublyLinked FlowGenerator Engine

variable {B A : ℕ} {s : Engine B A} {rs : List Resting} {free : List ℕ} {n : Indexed}
  {msgs : List InboundMessage} {index : UInt64 → Option ℕ} {os os' : List SimOrder}

/-- Keys are distinct, and the index leads from each to its order. -/
structure ExactIndex (index : UInt64 → Option ℕ) (os : List SimOrder) : Prop where
  nodup : (os.map SimOrder.key).Nodup
  lookup : ∀ o ∈ os, index o.key = some o.arrivalSequence

namespace ExactIndex

theorem perm (h : ExactIndex index os) (hp : os.Perm os') : ExactIndex index os' :=
  ⟨(hp.map _).nodup_iff.mp h.nodup, fun o ho => h.lookup o (hp.mem_iff.mpr ho)⟩

theorem remove {o : SimOrder} (h : ExactIndex index (o :: os)) :
    ExactIndex (Function.update index o.key none) os := by
  have hn := h.nodup
  rw [List.map_cons, List.nodup_cons] at hn
  refine ⟨hn.2, fun x hx => ?_⟩
  rw [Function.update_of_ne]
  · exact h.lookup x (List.mem_cons_of_mem _ hx)
  · intro he
    exact hn.1 (he ▸ List.mem_map.mpr ⟨x, hx, rfl⟩)

theorem setQty {o : SimOrder} (h : ExactIndex index (o :: os)) (q : ℕ) :
    ExactIndex index ({ o with remainingQty := q } :: os) := by
  refine ⟨h.nodup, fun x hx => ?_⟩
  rcases List.mem_cons.mp hx with rfl | hx
  · exact h.lookup o (List.mem_cons_self ..)
  · exact h.lookup x (List.mem_cons_of_mem _ hx)

theorem insert {o : SimOrder} (h : ExactIndex index os) (hfresh : ∀ x ∈ os, x.key ≠ o.key) :
    ExactIndex (Function.update index o.key (some o.arrivalSequence)) (o :: os) := by
  constructor
  · rw [List.map_cons, List.nodup_cons]
    refine ⟨fun hmem => ?_, h.nodup⟩
    obtain ⟨x, hx, he⟩ := List.mem_map.mp hmem
    exact hfresh x hx he
  · intro x hx
    rcases List.mem_cons.mp hx with rfl | hx
    · exact Function.update_self ..
    · rw [Function.update_of_ne (hfresh x hx)]
      exact h.lookup x hx

theorem trade {m : Matching} {i : ℕ} {r : SimOrder} (hi : m.openOrders[i]? = some r)
    (h : ExactIndex (eraseFilled index m.fills) m.openOrders) :
    ExactIndex (eraseFilled index (trade m i r).fills) (FlowGenerator.trade m i r).openOrders := by
  obtain ⟨os, hos, htrade⟩ := trade_perm hi
  rw [trade_fills, eraseFilled_append]
  refine ExactIndex.perm ?_ htrade.symm
  unfold leftover
  by_cases hle : r.remainingQty ≤ m.remainingQty
  · rw [if_pos hle, if_pos (by simp [hle])]
    exact (h.perm hos).remove
  · rw [if_neg hle, if_neg (by simp only; omega)]
    exact (h.perm hos).setQty _

theorem enter {account : UInt32} {order : EnterRequestView}
    (h : ExactIndex n.index n.openOrders)
    (hfresh : ∀ o ∈ n.openOrders, o.key ≠ orderKey account order.userRefNum) :
    ExactIndex (n.enterIndex A account order)
      (n.enter SimOrder.reaches A account order).openOrders := by
  have hm : ExactIndex (eraseFilled n.index (n.matching SimOrder.reaches account order).fills)
      (n.matching SimOrder.reaches account order).openOrders := by
    apply matching_invariant (P := fun m => ExactIndex (eraseFilled n.index m.fills) m.openOrders) h
    exact fun m i r h _ hbest => h.trade (best_spec hbest).1
  by_cases hrest : remainder A order (n.matching SimOrder.reaches account order) = .rested
  · simp only [Indexed.enterIndex, Naive.enter, hrest, if_true]
    refine ExactIndex.perm ?_ (List.perm_append_singleton ..).symm
    apply hm.insert (o := { n.incoming account order with remainingQty := _ })
    intro x hx
    obtain ⟨y, hy, q, rfl⟩ := mem_matchLoop hx
    exact hfresh y hy
  · simp only [Indexed.enterIndex, Naive.enter, hrest, if_false]
    exact hm

theorem cancel {found : Option SimOrder} {c : CancelRequestView}
    (h : ExactIndex n.index n.openOrders) (hfound : ∀ o, found = some o → o ∈ n.openOrders) :
    ExactIndex (n.cancelIndex found c) (n.toNaive.cancel found c).openOrders := by
  cases found with
  | none => exact h
  | some o =>
    unfold Indexed.cancelIndex Naive.cancel
    by_cases hle : o.remainingQty ≤ c.quantity
    · simp only [hle, if_true]
      exact h
    · simp only [hle, if_false]
      obtain ⟨os, hos, hreduce⟩ := reduce_perm (hfound o rfl) c.quantity
      refine ExactIndex.perm ?_ hreduce.symm
      split
      · exact (h.perm hos).remove
      · exact (h.perm hos).setQty _

end ExactIndex

theorem Indexed.mem_of_find {key : UInt64} {o : SimOrder} (h : n.find key = some o) :
    o ∈ n.openOrders := by
  obtain ⟨seq, -, hfind⟩ := Option.bind_eq_some_iff.mp h
  exact List.mem_of_find?_eq_some hfind

theorem ExactIndex.process {msg : InboundMessage} (h : ExactIndex n.index n.openOrders)
    (hfresh : ∀ order, msg.message = .enter order →
      ∀ o ∈ n.openOrders, o.key ≠ orderKey msg.account order.userRefNum) :
    ExactIndex (n.process A msg).1.index (n.process A msg).1.openOrders := by
  unfold Indexed.process
  cases hm : msg.message with
  | enter order => exact h.enter (hfresh order hm)
  | cancel c => exact h.cancel fun o ho => Indexed.mem_of_find ho
  | _ => exact h

def freshKey (s : Engine B A) (msg : InboundMessage) : Bool :=
  match msg.message with
  | .enter order => s.resting.all (·.2.key ≠ orderKey msg.account order.userRefNum)
  | _ => true

/-- Along a run, no enter request reuses the key of an order resting at that moment. -/
def freshKeys (s : Engine B A) : List InboundMessage → Bool
  | [] => true
  | msg :: msgs => freshKey s msg &&
    match process msg s with
    | .ok (_, s') => freshKeys s' msgs
    | .error _ => true

theorem Agrees.fresh_iff (h : Agrees s n rs free) (key : UInt64) :
    s.resting.all (·.2.key ≠ key) = true ↔ ∀ o ∈ n.openOrders, o.key ≠ key := by
  rw [List.all_eq_true]
  simp only [ne_eq, decide_not, Bool.not_eq_eq_eq_not, Bool.not_true, decide_eq_false_iff_not]
  rw [forall_resting h.book.rep]
  constructor
  · intro hall o ho
    obtain ⟨r, hr, rfl⟩ := List.mem_map.mp (h.orders.mem_iff.mp ho)
    exact hall r hr
  · intro hall r hr
    exact hall r.sim (h.orders.mem_iff.mpr (List.mem_map.mpr ⟨r, hr, rfl⟩))

theorem Agrees.fresh_of_freshKey {msg : InboundMessage} (h : Agrees s n rs free)
    (hfresh : freshKey s msg = true) (order : EnterRequestView) (hm : msg.message = .enter order) :
    ∀ o ∈ n.openOrders, o.key ≠ orderKey msg.account order.userRefNum := by
  unfold freshKey at hfresh
  rw [hm] at hfresh
  exact (h.fresh_iff _).mp hfresh

theorem freshKeys_cons {msg : InboundMessage} (h : Agrees s n rs free) (hmsg : Admissible B msg)
    (hfresh : freshKeys s (msg :: msgs) = true) :
    freshKey s msg = true ∧ ∃ s' rs' free', process msg s = .ok (⟨⟩, s') ∧
      Agrees s' (n.process A msg).1 rs' free' ∧ freshKeys s' msgs = true := by
  obtain ⟨s', rs', free', hrun, h', -⟩ := process_run msg h hmsg
  simp only [freshKeys, hrun, Bool.and_eq_true] at hfresh
  exact ⟨hfresh.1, s', rs', free', hrun, h', hfresh.2⟩

theorem exactIndex_run (h : Agrees s n rs free) (hx : ExactIndex n.index n.openOrders)
    (hmsgs : ∀ m ∈ msgs, Admissible B m) (hfresh : freshKeys s msgs = true) :
    ExactIndex (n.run A msgs).index (n.run A msgs).openOrders := by
  induction msgs generalizing s n rs free with
  | nil => exact hx
  | cons m msgs ih =>
    obtain ⟨hkey, s', rs', free', -, h', hrest⟩ := freshKeys_cons h (hmsgs m (by simp)) hfresh
    exact ih h' (hx.process (h.fresh_of_freshKey hkey))
      (fun x hx => hmsgs x (List.mem_cons_of_mem _ hx)) hrest

theorem freshKeys_of_append {pre post : List InboundMessage}
    (h : freshKeys s (pre ++ post) = true) : freshKeys s pre = true := by
  induction pre generalizing s with
  | nil => rfl
  | cons m pre ih =>
    simp only [List.cons_append, freshKeys, Bool.and_eq_true] at h ⊢
    refine ⟨h.1, ?_⟩
    cases hm : process m s with
    | ok x =>
      have hrest := h.2
      rw [hm] at hrest
      exact ih hrest
    | error e => rfl

section Exact

variable (h : Agrees s n rs free) (hx : ExactIndex n.index n.openOrders)

include h hx

theorem Agrees.map_resting {r : Resting} (hr : r ∈ rs) :
    s.orderBlocksMap r.key = some r.slot ∧ n.find r.key = some r.sim := by
  have hmem : ∀ x ∈ rs, x.sim ∈ n.openOrders :=
    fun x hx => h.orders.mem_iff.mpr (List.mem_map.mpr ⟨x, hx, rfl⟩)
  have hidx := hx.lookup r.sim (hmem r hr)
  rcases h.find_eq r.key with ⟨hmap, -⟩ | ⟨l₁, x, l₂, rfl, hmap, hkey, hfind⟩
  · rcases h.book.map r.key with ⟨-, hnone⟩ | ⟨x, hxr, hmap', -⟩
    · rw [Resting.sim_key, hnone] at hidx
      cases hidx
    · rw [hmap] at hmap'
      cases hmap'
  · -- two orders with this key would be one entry of the index
    have hxr : x = r := by
      have hidx' := hx.lookup x.sim (hmem x (by simp))
      rw [Resting.sim_key, hkey, ← Resting.sim_key, hidx] at hidx'
      have hseq : r.seq = x.seq := Option.some.inj hidx'
      exact (h.book.seq_inj hr (by simp) hseq).symm
    subst hxr
    exact ⟨hmap, hfind⟩

theorem Agrees.cancel_resting {r : Resting} (hr : r ∈ rs) {account userRefNum : UInt32}
    (hkey : r.key = orderKey account userRefNum) :
    ∃ s', process (cancelMessage account userRefNum 0) s = .ok (⟨⟩, s') ∧
      s'.outgoingQueue = s.outgoingQueue ++ [cancelled account userRefNum r.currQty 'U'] := by
  obtain ⟨s', -, -, hrun, -, hout⟩ :=
    process_run (cancelMessage account userRefNum 0) h trivial
  refine ⟨s', hrun, ?_⟩
  have hfind := (h.map_resting hx hr).2
  rw [hkey] at hfind
  have hpos := h.book.qty_pos r hr
  have hle : ¬ r.currQty ≤ 0 := by omega
  rw [hout]
  simp [Indexed.process, cancelMessage, hfind, Naive.cancelMessages, hle]

theorem Agrees.map_iff (k : UInt64) (i : ℕ) :
    s.orderBlocksMap k = some i ↔ ∃ c ∈ s.resting, c.1 = i ∧ c.2.key = k := by
  constructor
  · exact h.book.wellFormed.map k i
  · rw [exists_resting h.book.rep]
    rintro ⟨r, hr, rfl, rfl⟩
    exact (h.map_resting hx hr).1

end Exact

/-- The map is exactly the map from the key of each resting block to the block. -/
def MapExact (s : Engine B A) : Prop :=
  ∀ k i, s.orderBlocksMap k = some i ↔ ∃ c ∈ s.resting, c.1 = i ∧ c.2.key = k

def Cancellable (s : Engine B A) : Prop :=
  ∀ c ∈ s.resting, ∀ account userRefNum, c.2.key = orderKey account userRefNum →
    ∃ s', process (cancelMessage account userRefNum 0) s = .ok (⟨⟩, s') ∧
      s'.outgoingQueue = s.outgoingQueue ++ [cancelled account userRefNum c.2.currQty 'U']

theorem exactIndex_init : ExactIndex ({} : Indexed).index ({} : Indexed).openOrders :=
  ⟨List.nodup_nil, fun _ ho => by cases ho⟩

/-- In every state of a run whose enter requests do not reuse the key of a resting order, every
resting order is found under its own key. -/
theorem cancellable_of_freshKeys (hA : 0 < A) (hmsgs : ∀ m ∈ msgs, Admissible B m)
    (hfresh : freshKeys ({} : Engine B A) msgs = true) {pre : List InboundMessage}
    (hpre : pre <+: msgs) :
    ∃ s : Engine B A, run pre = .ok s ∧ MapExact s ∧ Cancellable s := by
  obtain ⟨post, rfl⟩ := hpre
  have hmsgs' : ∀ m ∈ pre, Admissible B m := fun m hm => hmsgs m (List.mem_append_left _ hm)
  obtain ⟨s, rs, free, hrun, h, -⟩ := run_agrees hA hmsgs'
  have hx := exactIndex_run (agrees_init hA) exactIndex_init hmsgs' (freshKeys_of_append hfresh)
  refine ⟨s, hrun, h.map_iff hx, ?_⟩
  unfold Cancellable
  rw [forall_resting h.book.rep]
  exact fun r hr account userRefNum hkey => h.cancel_resting hx hr hkey

/-- A witness run: the second bid has its own number. -/
theorem cancellable_of_freshKeys_twoBids :
    ∃ s : Engine 2 2, run [enterMessage 1 1 .B 50 0, enterMessage 1 2 .B 5 1] = .ok s ∧
      MapExact s ∧ Cancellable s :=
  cancellable_of_freshKeys (by decide) (by decide) (by decide +kernel) (List.prefix_rfl)

/-- Two bids of one client under one number; the cancel removes the second one. -/
def reusedKey : List InboundMessage :=
  [enterMessage 1 1 .B 50 0, enterMessage 1 1 .B 5 1, cancelMessage 1 1 0]

/-- The first bid still rests, but the map has lost its key and its owner gets a reject. -/
theorem reusedKey_hides_order : ∃ s : Engine 2 2, (∀ m ∈ reusedKey, Admissible 2 m) ∧
    run reusedKey = .ok s ∧ s.resting.map (·.2.key) = [orderKey 1 1] ∧ ¬ MapExact s ∧
    ∃ s', process (cancelMessage 1 1 0) s = .ok (⟨⟩, s') ∧
      s'.outgoingQueue = s.outgoingQueue ++ [cancelRejected 1 1] := by
  have hadm : ∀ m ∈ reusedKey, Admissible 2 m := by decide
  obtain ⟨s, rs, free, hrun, h, -⟩ := run_agrees (B := 2) (A := 2) (by decide) hadm
  have hstate : (run reusedKey : Except Fault (Engine 2 2)).map
      (fun s => (s.orderBlocksMap (orderKey 1 1), s.resting.map (·.2.key))) =
        .ok (none, [orderKey 1 1]) := by decide +kernel
  rw [hrun] at hstate
  simp only [Except.map, Except.ok.injEq, Prod.mk.injEq] at hstate
  obtain ⟨hmap, hrest⟩ := hstate
  refine ⟨s, hadm, hrun, hrest, ?_, ?_⟩
  · intro hexact
    obtain ⟨c, hc, hkey⟩ : ∃ c ∈ s.resting, c.2.key = orderKey 1 1 := by
      apply List.mem_map.mp
      rw [hrest]
      exact List.mem_singleton_self _
    rw [(hexact _ _).mpr ⟨c, hc, rfl, hkey⟩] at hmap
    cases hmap
  · obtain ⟨s', -, -, hstep, -, hout⟩ := process_run (cancelMessage 1 1 0) h trivial
    refine ⟨s', hstep, ?_⟩
    rw [hout]
    have hfind : (Indexed.run 2 {} reusedKey).find (orderKey 1 1) = none := by decide +kernel
    simp [Indexed.process, cancelMessage, hfind, Naive.cancelMessages]

section Naive

theorem crosses_eq_reaches {incoming o : SimOrder} (ho : o.price ≤ MARKETPRICE) :
    incoming.crosses o = incoming.reaches o := by
  unfold SimOrder.crosses SimOrder.reaches
  congr 1
  by_cases hm : incoming.price = MARKETPRICE
  · simp [hm, ho]
  · simp [hm]

theorem matching_crosses {account : UInt32} {order : EnterRequestView} (n : Naive)
    (hn : ∀ o ∈ n.openOrders, o.price ≤ MARKETPRICE) :
    n.matching SimOrder.crosses account order = n.matching SimOrder.reaches account order := by
  apply matchLoop_congr
  rintro x hx y ⟨q, rfl⟩
  exact crosses_eq_reaches (hn x hx)

theorem Agrees.find_naive (h : Agrees s n rs free) (hx : ExactIndex n.index n.openOrders)
    (key : UInt64) : n.toNaive.find key = n.find key := by
  unfold Naive.find
  cases hfind : n.openOrders.find? (·.key = key) with
  | none =>
    rcases h.find_eq key with ⟨-, hnone⟩ | ⟨l₁, r, l₂, rfl, -, hkey, -⟩
    · exact hnone.symm
    · have hr : r.sim ∈ n.openOrders := h.orders.mem_iff.mpr (by simp)
      exact absurd (List.find?_eq_none.mp hfind r.sim hr) (by simp [hkey])
  | some o =>
    obtain ⟨r, hr, rfl⟩ :=
      List.mem_map.mp (h.orders.mem_iff.mp (List.mem_of_find?_eq_some hfind))
    have hkey : r.sim.key = key := by simpa only [decide_eq_true_eq] using List.find?_some hfind
    rw [← hkey]
    exact (h.map_resting hx hr).2.symm

theorem process_naive (msg : InboundMessage) (hB : B ≤ MARKETPRICE) (h : Agrees s n rs free)
    (hx : ExactIndex n.index n.openOrders) :
    (n.process A msg).1.toNaive = (n.toNaive.process A msg).1 ∧
      (n.process A msg).2 = (n.toNaive.process A msg).2 := by
  have hprice : ∀ o ∈ n.openOrders, o.price ≤ MARKETPRICE := by
    intro o ho
    obtain ⟨r, hr, rfl⟩ := List.mem_map.mp (h.orders.mem_iff.mp ho)
    exact Nat.le_trans (Nat.le_of_lt (h.book.rep.price_lt r hr)) hB
  unfold Indexed.process Naive.process
  cases msg.message with
  | enter order =>
    simp [Naive.enter, Naive.enterMessages, Naive.outcome, matching_crosses n.toNaive hprice]
  | cancel c =>
    simp [h.find_naive hx]
  | _ => exact ⟨rfl, rfl⟩

theorem run_naive (hB : B ≤ MARKETPRICE) (h : Agrees s n rs free)
    (hx : ExactIndex n.index n.openOrders) (hmsgs : ∀ m ∈ msgs, Admissible B m)
    (hfresh : freshKeys s msgs = true) :
    (n.run A msgs).toNaive = n.toNaive.run A msgs ∧
      n.outputs A msgs = n.toNaive.outputs A msgs := by
  induction msgs generalizing s n rs free with
  | nil => exact ⟨rfl, rfl⟩
  | cons m msgs ih =>
    obtain ⟨hkey, s', rs', free', -, h', hrest⟩ := freshKeys_cons h (hmsgs m (by simp)) hfresh
    obtain ⟨hstate, hout⟩ := process_naive m hB h hx
    obtain ⟨hruns, houts⟩ := ih h' (hx.process (h.fresh_of_freshKey hkey))
      (fun x hx => hmsgs x (List.mem_cons_of_mem _ hx)) hrest
    rw [hstate] at hruns houts
    constructor
    · exact hruns
    · rw [Indexed.outputs, Naive.outputs, hout, houts]

structure OpenOrder where
  account : UInt32
  userRefNum : UInt32
  side : SideEnum
  price : ℕ
  quantity : ℕ
  orderReferenceNumber : ℕ
  deriving DecidableEq

def BlockData.openOrder (b : BlockData) : OpenOrder :=
  ⟨(b.key >>> 32).toUInt32, b.key.toUInt32, b.raw.side, b.raw.price, b.currQty, b.id⟩

def SimOrder.openOrder (o : SimOrder) : OpenOrder :=
  ⟨o.account, o.userRefNum, o.side, o.price, o.remainingQty, o.id⟩

theorem Agrees.openOrders_perm (h : Agrees s n rs free) :
    (s.resting.map (·.2.openOrder)).Perm (n.openOrders.map SimOrder.openOrder) := by
  have hcell : (rs.map Resting.cell).map (·.2.openOrder) =
      (rs.map Resting.sim).map SimOrder.openOrder := by
    rw [List.map_map, List.map_map]
    apply List.map_congr_left
    intro r _
    simp only [Function.comp_apply, BlockData.openOrder, SimOrder.openOrder, Resting.cell,
      Resting.data, Resting.key, orderKey_account, orderKey_userRefNum]
    rfl
  have hperm := (resting_perm h.book.rep).map (fun c : ℕ × BlockData => c.2.openOrder)
  rw [hcell] at hperm
  exact hperm.trans (h.orders.map _).symm

/-- The engine refines the naive matcher: it answers every message with the same messages and
rests the same orders. -/
theorem run_refines_naive (hB : B ≤ MARKETPRICE) (hA : 0 < A)
    (hmsgs : ∀ m ∈ msgs, Admissible B m) (hfresh : freshKeys ({} : Engine B A) msgs = true) :
    ∃ s : Engine B A, run msgs = .ok s ∧
      outputs ({} : Engine B A) msgs = .ok (Naive.outputs A {} msgs) ∧
      (s.resting.map (·.2.openOrder)).Perm
        ((Naive.run A {} msgs).openOrders.map SimOrder.openOrder) := by
  obtain ⟨s, rs, free, hrun, h, -, houts⟩ := run_agrees hA hmsgs
  obtain ⟨hstate, heq⟩ := run_naive hB (agrees_init hA) exactIndex_init hmsgs hfresh
  refine ⟨s, hrun, ?_, ?_⟩
  · rw [houts, heq]
  · have hperm := h.openOrders_perm
    rw [hstate] at hperm
    exact hperm

/-- A witness run: a partial fill of an ask by a market buy, and the cancel of the rest. -/
theorem run_refines_naive_partialFill : ∃ s : Engine 2 1,
    run [enterMessage 1 1 .S 5 1, enterMessage 2 1 .B 3 MARKETPRICE, cancelMessage 1 1 0] = .ok s ∧
      outputs ({} : Engine 2 1)
          [enterMessage 1 1 .S 5 1, enterMessage 2 1 .B 3 MARKETPRICE, cancelMessage 1 1 0] =
        .ok (Naive.outputs 1 {}
          [enterMessage 1 1 .S 5 1, enterMessage 2 1 .B 3 MARKETPRICE, cancelMessage 1 1 0]) ∧
      (s.resting.map (·.2.openOrder)).Perm ((Naive.run 1 {} [enterMessage 1 1 .S 5 1,
        enterMessage 2 1 .B 3 MARKETPRICE, cancelMessage 1 1 0]).openOrders.map
          SimOrder.openOrder) :=
  run_refines_naive (by decide) (by decide) (by decide) (by decide +kernel)

end Naive

end LowLevel.OrderBook
