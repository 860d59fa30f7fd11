import LowLevel.Network.Uring
import LowLevel.Trading.Gateway

/-! # The traffic generator

The benchmarks draw random requests: a book of limit orders that do not cross,
then a mix of orders and cancels. The generator applies every request to a list
of open orders of its own, from which it draws the order to cancel. Draws are a
list of numbers, each reduced to the range that is asked for, so that what is
proved holds for every seed; a loop that draws again ends with the list.
-/

namespace LowLevel.Trading

open OrderBook (SimOrder SideEnum MARKETPRICE)

def ENTER_ORDER_PERC : ℕ := 50
def CANCEL_ORDER_PERC : ℕ := 48
def MARKET_ORDER_PERC : ℕ := 2
def TOTAL_ORDERS : ℕ := ENTER_ORDER_PERC + CANCEL_ORDER_PERC + MARKET_ORDER_PERC
def CROSS_PERCENTAGE : ℕ := 5
def BUY_PRICES : List ℕ := [96, 97, 98, 99, 100]
def SPREAD : ℕ := 100
def SELL_PRICES : List ℕ := [100, 101, 102, 103, 104]
def QTYS : List ℕ := [5, 20, 100, 150, 200]
def CLIENT_NO : ℕ := 10

/-- A message, as far as it is copied into the payload, and the client that sends it. -/
abbrev Order := Network.InboundMessage × ℕ

structure FlowGenerator where
  rng : List ℕ
  warmBook : List Order := []
  benchOrders : List Order := []
  seqCounter : ℕ → UInt32 := fun _ => 0
  openOrders : List SimOrder := []
  nextArrivalSequence : ℕ := 0

/-- A draw below `n`. -/
def uniform (n : ℕ) : List ℕ → Option (ℕ × List ℕ)
  | [] => none
  | x :: rng => some (x % n, rng)

def enterBytes (side : SideEnum) (userRefNum : UInt32) (price qty : ℕ) : List UInt8 :=
  (Wire.enterRequest.build [.side side, .userRefNum userRefNum, .symbol [65, 65, 80, 76],
    .price (.ofNat price), .quantity (.ofNat qty)]).bytes.toList

def cancelBytes (userRefNum : UInt32) : List UInt8 :=
  (Wire.cancelRequest.build [.userRefNum userRefNum, .quantity 0]).bytes.toList

namespace FlowGenerator

/-- Apply an order to the open orders. Market orders never rest. -/
def applyEnter (g : FlowGenerator) (incoming : SimOrder) : FlowGenerator :=
  let m := OrderBook.FlowGenerator.applyEnter SimOrder.crosses incoming g.openOrders
  { g with openOrders :=
      if 0 < m.remainingQty ∧ incoming.price ≠ MARKETPRICE then
        m.openOrders ++ [{ incoming with remainingQty := m.remainingQty }]
      else m.openOrders }

def priceOffSpread (prices : List ℕ) : List ℕ → Option (ℕ × List ℕ)
  | [] => none
  | x :: rng =>
    if prices.getD (x % 5) 0 = SPREAD then priceOffSpread prices rng
    else some (prices.getD (x % 5) 0, rng)

def choosePrice (side : SideEnum) (warm market crosses : Bool) (rng : List ℕ) :
    Option (ℕ × List ℕ) :=
  if ¬ market ∧ ¬ warm ∧ crosses then
    (uniform 5 rng).map fun (i, rng) =>
      ((if side = .B then SELL_PRICES else BUY_PRICES).getD i 0, rng)
  else if ¬ market then priceOffSpread (if side = .B then BUY_PRICES else SELL_PRICES) rng
  else some (MARKETPRICE, rng)

def createEnterRequest (g : FlowGenerator) (clientIdx : ℕ) (side : SideEnum)
    (warm market crosses : Bool) : Option (Order × FlowGenerator) := do
  let (i, rng) ← uniform 5 g.rng
  let qty := QTYS.getD i 0
  let (price, rng) ← choosePrice side warm market crosses rng
  let account := UInt32.ofNat clientIdx
  let userRefNum := g.seqCounter clientIdx
  let incoming : SimOrder := ⟨account, userRefNum, side, price, qty, g.nextArrivalSequence⟩
  let g := { g with
    rng
    seqCounter := Function.update g.seqCounter clientIdx (userRefNum + 1)
    nextArrivalSequence := g.nextArrivalSequence + 1 }
  return ((⟨account, enterBytes side userRefNum price qty⟩, account.toNat), g.applyEnter incoming)

def createCancelOrder (g : FlowGenerator) : Option (Order × FlowGenerator) := do
  let (index, rng) ← uniform g.openOrders.length g.rng
  let order ← g.openOrders[index]?
  return ((⟨order.account, cancelBytes order.userRefNum⟩, order.account.toNat),
    { g with rng, openOrders := swapRemove g.openOrders index })

def sideOf (coin : ℕ) : SideEnum := if coin = 0 then .B else .S

/-- One round of the first loop: a limit order that does not cross. -/
def warmRound (g : FlowGenerator) : Option FlowGenerator := do
  let (coin, rng) ← uniform 2 g.rng
  let (clientIdx, rng) ← uniform CLIENT_NO rng
  let (order, g) ← { g with rng }.createEnterRequest clientIdx (sideOf coin) true false false
  return { g with warmBook := g.warmBook ++ [order] }

/-- One round of the second loop, which may draw a cancel in vain. -/
def benchRound (g : FlowGenerator) : Option FlowGenerator := do
  let (orderType, rng) ← uniform TOTAL_ORDERS g.rng
  if orderType < ENTER_ORDER_PERC then
    let (coin, rng) ← uniform 2 rng
    let (clientIdx, rng) ← uniform CLIENT_NO rng
    let (percent, rng) ← uniform 100 rng
    let (order, g) ← { g with rng }.createEnterRequest clientIdx (sideOf coin) false false
      (percent < CROSS_PERCENTAGE)
    return { g with benchOrders := g.benchOrders ++ [order] }
  else if ENTER_ORDER_PERC + CANCEL_ORDER_PERC ≤ orderType then
    let (coin, rng) ← uniform 2 rng
    let (clientIdx, rng) ← uniform CLIENT_NO rng
    let (order, g) ← { g with rng }.createEnterRequest clientIdx (sideOf coin) true true false
    return { g with benchOrders := g.benchOrders ++ [order] }
  else if g.openOrders = [] then return { g with rng }
  else
    let (order, g) ← { g with rng }.createCancelOrder
    return { g with benchOrders := g.benchOrders ++ [order] }

def warmUp : ℕ → FlowGenerator → Option FlowGenerator
  | 0, g => some g
  | n + 1, g => g.warmRound.bind (warmUp n)

/-- Rounds until there are enough orders; every round draws, which bounds their number. -/
def bench (n : ℕ) : ℕ → FlowGenerator → Option FlowGenerator
  | 0, g => if n ≤ g.benchOrders.length then some g else none
  | fuel + 1, g => if n ≤ g.benchOrders.length then some g else g.benchRound.bind (bench n fuel)

def generate (initialWarmOrders benchOrdersNo : ℕ) (draws : List ℕ) : Option FlowGenerator :=
  (warmUp initialWarmOrders { rng := draws }).bind (bench benchOrdersNo draws.length)

def messages (g : FlowGenerator) : List Network.InboundMessage :=
  (g.warmBook ++ g.benchOrders).map Prod.fst

end FlowGenerator

end LowLevel.Trading
