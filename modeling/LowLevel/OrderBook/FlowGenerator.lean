import LowLevel.Foundations.Selection
import LowLevel.OrderBook.Engine

/-! # The naive matcher

The traffic generator keeps a plain, unordered list of open orders and finds
the best counterparty of an incoming order by a full scan. Here it also
answers with the messages the exchange owes its clients, rests at most as
many orders as the pool has slots, and serves reduce requests.

Two machines share this matcher. `Naive` finds the order to cancel by its
key. `Indexed` describes the engine on every book and for every client: it
takes a market buy for a limit at the market price, and it cancels through an
index that remembers the last order rested under a key and forgets the key
when any order under it is filled or cancelled.
-/

namespace LowLevel.OrderBook

structure SimOrder where
  account : UInt32
  userRefNum : UInt32
  side : SideEnum
  price : ℕ
  remainingQty : ℕ
  arrivalSequence : ℕ
  deriving DecidableEq

namespace SimOrder

def key (o : SimOrder) : UInt64 := orderKey o.account o.userRefNum

/-- The reference number under which the exchange accepted the order. -/
def id (o : SimOrder) : ℕ := (o.arrivalSequence + 1) % 2 ^ 64

/-- A resting order on the other side that the incoming order may trade with. -/
def crosses (incoming resting : SimOrder) : Bool :=
  decide (resting.side ≠ incoming.side) &&
    (decide (incoming.price = MARKETPRICE) ||
      if incoming.side = .B then decide (resting.price ≤ incoming.price)
      else decide (resting.price ≥ incoming.price))

/-- The rule of the engine: a market sell has no limit, a market buy has the market price. -/
def reaches (incoming resting : SimOrder) : Bool :=
  decide (resting.side ≠ incoming.side) &&
    if incoming.side = .B then decide (resting.price ≤ incoming.price)
    else decide ((if incoming.price = MARKETPRICE then 0 else incoming.price) ≤ resting.price)

def beats (incoming resting best : SimOrder) : Bool :=
  (if incoming.side = .B then decide (resting.price < best.price)
    else decide (resting.price > best.price)) ||
  decide (resting.price = best.price ∧ resting.arrivalSequence < best.arrivalSequence)

end SimOrder

/-- A trade of an incoming order with a resting one, recorded as it was before the trade. -/
structure Fill where
  resting : SimOrder
  qty : ℕ
  deriving DecidableEq

/-- The state of the matching loop: quantity left, open orders, and trades so far. -/
structure Matching where
  remainingQty : ℕ
  openOrders : List SimOrder
  fills : List Fill := []

namespace FlowGenerator

variable (rule : SimOrder → SimOrder → Bool)

def best (incoming : SimOrder) (openOrders : List SimOrder) : Option (ℕ × SimOrder) :=
  scanBest (rule incoming) incoming.beats openOrders 0 none

def trade (m : Matching) (i : ℕ) (resting : SimOrder) : Matching :=
  let fillQty := min m.remainingQty resting.remainingQty
  let left := resting.remainingQty - fillQty
  { remainingQty := m.remainingQty - fillQty
    openOrders :=
      if left = 0 then swapRemove m.openOrders i
      else m.openOrders.set i { resting with remainingQty := left }
    fills := m.fills ++ [⟨resting, fillQty⟩] }

/-- The matching loop. Every round but the last removes an order, which bounds its length. -/
def matchLoop (incoming : SimOrder) : ℕ → Matching → Matching
  | 0, m => m
  | fuel + 1, m =>
    if m.remainingQty = 0 then m
    else match best rule incoming m.openOrders with
      | none => m
      | some (i, resting) => matchLoop incoming fuel (trade m i resting)

def applyEnter (incoming : SimOrder) (openOrders : List SimOrder) : Matching :=
  matchLoop rule incoming (openOrders.length + 1) ⟨incoming.remainingQty, openOrders, []⟩

/-- Replace an open order by what a reduce request leaves of it. -/
def reduce (openOrders : List SimOrder) (o : SimOrder) (newQty : ℕ) : List SimOrder :=
  if newQty = 0 then swapRemove openOrders (openOrders.idxOf o)
  else openOrders.set (openOrders.idxOf o) { o with remainingQty := newQty }

end FlowGenerator

open FlowGenerator

def executed (account userRefNum : UInt32) (qty price : ℕ) (liquidity : Char) (matchNo : ℕ) :
    OutboundMessage :=
  ⟨account, .executed {
    userRefNum, quantity := qty, price, liquidityFlag := liquidity, matchNumber := matchNo }⟩

def cancelled (account userRefNum : UInt32) (qty : ℕ) (reason : Char) : OutboundMessage :=
  ⟨account, .cancelled { userRefNum, quantity := qty, reason }⟩

def cancelRejected (account userRefNum : UInt32) : OutboundMessage :=
  ⟨account, .cancelReject { userRefNum }⟩

/-- The two messages of a trade: the incoming order removes liquidity, the resting one added it. -/
def legs (account userRefNum : UInt32) (matchNo : ℕ) (f : Fill) : List OutboundMessage :=
  [executed account userRefNum f.qty f.resting.price 'R' matchNo,
    executed f.resting.account f.resting.userRefNum f.qty f.resting.price 'A' matchNo]

/-- The messages of consecutive trades, numbered from the trades already made. -/
def fillMessages (account userRefNum : UInt32) : ℕ → List Fill → List OutboundMessage
  | _, [] => []
  | n, f :: fs =>
    legs account userRefNum ((n + 1) % 2 ^ 64) f ++ fillMessages account userRefNum (n + 1) fs

inductive Remainder where
  | none
  | rested
  | cancelled (reason : Char)
  deriving DecidableEq

/-- A market order never rests, and a limit order only while the pool has room. -/
def remainder (A : ℕ) (order : EnterRequestView) (m : Matching) : Remainder :=
  if m.remainingQty = 0 then .none
  else if order.price = MARKETPRICE then .cancelled 'I'
  else if A ≤ m.openOrders.length then .cancelled 'Z'
  else .rested

def remainderMessages (account userRefNum : UInt32) (qty : ℕ) : Remainder → List OutboundMessage
  | .cancelled reason => [cancelled account userRefNum qty reason]
  | _ => []

/-- The open orders of the market, and how many orders and trades it has seen. -/
structure Naive where
  openOrders : List SimOrder := []
  nextArrivalSequence : ℕ := 0
  trades : ℕ := 0

namespace Naive

variable (rule : SimOrder → SimOrder → Bool) (A : ℕ) (n : Naive) (account : UInt32)

def incoming (order : EnterRequestView) : SimOrder :=
  ⟨account, order.userRefNum, order.side, order.price, order.quantity, n.nextArrivalSequence⟩

def matching (order : EnterRequestView) : Matching :=
  applyEnter rule (n.incoming account order) n.openOrders

def enter (order : EnterRequestView) : Naive :=
  let m := n.matching rule account order
  { openOrders :=
      if remainder A order m = .rested then
        m.openOrders ++ [{ n.incoming account order with remainingQty := m.remainingQty }]
      else m.openOrders
    nextArrivalSequence := n.nextArrivalSequence + 1
    trades := n.trades + m.fills.length }

/-- The answers to an enter request after its acceptance: the trades and the remainder. -/
def outcome (order : EnterRequestView) : List OutboundMessage :=
  let m := n.matching rule account order
  fillMessages account order.userRefNum n.trades m.fills ++
    remainderMessages account order.userRefNum m.remainingQty (remainder A order m)

def enterMessages (order : EnterRequestView) : List OutboundMessage :=
  ⟨account, Engine.accepted order (n.incoming account order).id⟩ :: n.outcome rule A account order

def cancel (found : Option SimOrder) (c : CancelRequestView) : Naive :=
  match found with
  | some o =>
    if o.remainingQty ≤ c.quantity then n
    else { n with openOrders := reduce n.openOrders o c.quantity }
  | none => n

def cancelMessages (found : Option SimOrder) (c : CancelRequestView) : List OutboundMessage :=
  match found with
  | some o =>
    if o.remainingQty ≤ c.quantity then [cancelRejected account c.userRefNum]
    else [cancelled account c.userRefNum (o.remainingQty - c.quantity) 'U']
  | none => [cancelRejected account c.userRefNum]

def find (key : UInt64) : Option SimOrder := n.openOrders.find? (·.key = key)

def process (msg : InboundMessage) : Naive × List OutboundMessage :=
  match msg.message with
  | .enter order =>
    (n.enter SimOrder.crosses A msg.account order,
      n.enterMessages SimOrder.crosses A msg.account order)
  | .cancel c =>
    let found := n.find (orderKey msg.account c.userRefNum)
    (n.cancel found c, cancelMessages msg.account found c)
  | _ => (n, [])

def run (msgs : List InboundMessage) : Naive := msgs.foldl (fun n m => (n.process A m).1) n

def outputs : Naive → List InboundMessage → List (List OutboundMessage)
  | _, [] => []
  | n, m :: ms => (n.process A m).2 :: outputs (n.process A m).1 ms

end Naive

/-- Forget the keys of the resting orders that were filled completely. -/
def eraseFilled {α : Type*} (index : UInt64 → Option α) (fills : List Fill) : UInt64 → Option α :=
  fills.foldl (fun index f =>
    if f.resting.remainingQty ≤ f.qty then Function.update index f.resting.key none
    else index) index

/-- The naive matcher with an index from keys to arrival numbers. -/
structure Indexed extends Naive where
  index : UInt64 → Option ℕ := fun _ => none

namespace Indexed

variable (A : ℕ) (n : Indexed)

def find (key : UInt64) : Option SimOrder :=
  (n.index key).bind fun seq => n.openOrders.find? (·.arrivalSequence = seq)

def enterIndex (account : UInt32) (order : EnterRequestView) : UInt64 → Option ℕ :=
  let m := n.matching SimOrder.reaches account order
  let index := eraseFilled n.index m.fills
  if remainder A order m = .rested then
    Function.update index (orderKey account order.userRefNum) (some n.nextArrivalSequence)
  else index

def cancelIndex (found : Option SimOrder) (c : CancelRequestView) : UInt64 → Option ℕ :=
  match found with
  | some o =>
    if o.remainingQty ≤ c.quantity then n.index
    else if c.quantity = 0 then Function.update n.index o.key none
    else n.index
  | none => n.index

def process (msg : InboundMessage) : Indexed × List OutboundMessage :=
  match msg.message with
  | .enter order =>
    (⟨n.toNaive.enter SimOrder.reaches A msg.account order, n.enterIndex A msg.account order⟩,
      n.enterMessages SimOrder.reaches A msg.account order)
  | .cancel c =>
    let found := n.find (orderKey msg.account c.userRefNum)
    (⟨n.toNaive.cancel found c, n.cancelIndex found c⟩, Naive.cancelMessages msg.account found c)
  | _ => (n, [])

def run (msgs : List InboundMessage) : Indexed := msgs.foldl (fun n m => (n.process A m).1) n

def outputs : Indexed → List InboundMessage → List (List OutboundMessage)
  | _, [] => []
  | n, m :: ms => (n.process A m).2 :: outputs (n.process A m).1 ms

end Indexed

end LowLevel.OrderBook
