import LowLevel.Foundations.DoublyLinked
import LowLevel.OrderBook.Allocator
import LowLevel.OrderBook.Messages

/-! # The matching engine

One array of price levels is shared by both sides; each level is a doubly
linked list of pool blocks in arrival order. Two indices cache the best
prices, two counters the number of resting orders per side, and a hash map
finds the block of a key. Every dereference, array access and unsigned
subtraction is checked and faults when the source would misbehave. Loops are
cut off with a fault once they exceed a bound computed from the sizes.

`B` is `BUFFER_SIZE` and `A` is `ALLOCATOR_SIZE`. Publishing appends to the
outgoing queue, which a consumer is assumed to drain.
-/

namespace LowLevel.OrderBook

def MARKETPRICE : ℕ := 0x7FFFFFFF

structure OrderBlock where
  raw : EnterRequestView
  currQty : ℕ
  id : ℕ
  key : UInt64
  prev : Option ℕ
  next : Option ℕ
  deriving DecidableEq

instance : Inhabited OrderBlock := ⟨⟨⟨0, .B, 0, .replicate 8 0, 0, .Day, .Y, .A, .Y, .N,
  .replicate 14 0, 0⟩, 0, 0, 0, none, none⟩⟩

abbrev OrderList := Ends

structure Engine (B A : ℕ) where
  allocator : Allocator OrderBlock A := {}
  counter : ℕ := 0
  matchCounter : ℕ := 0
  orderBlocksMap : UInt64 → Option ℕ := fun _ => none
  buyOrders : ℕ := 0
  sellOrders : ℕ := 0
  orderBuffer : ℕ → OrderList := fun _ => {}
  bestBuyIdx : ℕ := 0
  bestSellIdx : ℕ := B
  outgoingQueue : List OutboundMessage := []

/-- Computations on an engine that may fault. -/
abbrev EngineM (B A : ℕ) := StateT (Engine B A) (Except Fault)

namespace Engine

variable {B A : ℕ}

def deref : Option ℕ → EngineM B A ℕ
  | some i => pure i
  | none => throw .nullDereference

/-- Read a block, which must be in use. -/
def load (i : ℕ) : EngineM B A OrderBlock := do
  match (← get).allocator.slot i with
  | .live b => pure b
  | .free _ => throw .useAfterFree

/-- Overwrite a block, which must be in use. -/
def store (i : ℕ) (b : OrderBlock) : EngineM B A Unit := do
  match (← get).allocator.slot i with
  | .live _ => modify fun s => { s with allocator := s.allocator.write i (.live b) }
  | .free _ => throw .useAfterFree

/-- Read a price level, whose index must lie inside the buffer. -/
def level (idx : ℕ) : EngineM B A OrderList := do
  if idx < B then pure ((← get).orderBuffer idx) else throw .outOfBounds

def setLevel (idx : ℕ) (list : OrderList) : EngineM B A Unit := do
  if idx < B then
    modify fun s => { s with orderBuffer := Function.update s.orderBuffer idx list }
  else throw .outOfBounds

/-- Unsigned subtraction that must not wrap. -/
def sub (a b : ℕ) : EngineM B A ℕ := if b ≤ a then pure (a - b) else throw .underflow

def allocate : EngineM B A (Option ℕ) := do
  let (p, a) ← (← get).allocator.allocate
  modify fun s => { s with allocator := a }
  pure p

def deallocate (i : ℕ) : EngineM B A Unit := do
  let a ← (← get).allocator.deallocate i
  modify fun s => { s with allocator := a }

def eraseKey (key : UInt64) : EngineM B A Unit :=
  modify fun s => { s with orderBlocksMap := Function.update s.orderBlocksMap key none }

def insertKey (key : UInt64) (block : ℕ) : EngineM B A Unit :=
  modify fun s => { s with orderBlocksMap := Function.update s.orderBlocksMap key (some block) }

/-- Point the predecessor, or the head of the list if there is none, at a block. -/
def linkNext (list : ℕ) (prev next : Option ℕ) : EngineM B A Unit :=
  match prev with
  | some p => do store p { ← load p with next }
  | none => do setLevel list { ← level list with head := next }

/-- Point the successor, or the tail of the list if there is none, back at a block. -/
def linkPrev (list : ℕ) (prev next : Option ℕ) : EngineM B A Unit :=
  match next with
  | some n => do store n { ← load n with prev }
  | none => do setLevel list { ← level list with tail := prev }

def unlink (block list : ℕ) : EngineM B A Unit := do
  let b ← load block
  linkNext list b.prev b.next
  let b ← load block
  linkPrev list b.prev b.next
  store block { ← load block with prev := none, next := none }

def appendList (block list : ℕ) : EngineM B A Unit := do
  let l ← level list
  store block { ← load block with next := none, prev := l.tail }
  linkNext list l.tail (some block)
  setLevel list { ← level list with tail := some block }

def publish (account : UInt32) (message : UOUCHMessage) : EngineM B A Unit :=
  modify fun s => { s with outgoingQueue := s.outgoingQueue ++ [⟨account, message⟩] }

/-- The accepted response echoes the request and adds the engine's order reference. -/
def accepted (order : EnterRequestView) (id : ℕ) : UOUCHMessage :=
  .accept {
    userRefNum := order.userRefNum
    side := order.side
    quantity := order.quantity
    symbol := order.symbol
    price := order.price
    timeInForce := order.timeInForce
    display := order.display
    orderReferenceNumber := id
    capacity := order.capacity.char
    interMarketSweepElig := order.interMarketSweepElig
    crossType := order.crossType
    orderState := .L
    clOrdID := order.clOrdID }

def sendAccepted (account : UInt32) (order : EnterRequestView) (id : ℕ) : EngineM B A Unit :=
  publish account (accepted order id)

def sendExecuted (account userRefNum : UInt32) (qty price : ℕ) (liquidity : Char)
    (matchNo : ℕ) : EngineM B A Unit :=
  publish account (.executed {
    userRefNum, quantity := qty, price, liquidityFlag := liquidity, matchNumber := matchNo })

def sendFills (account : UInt32) (order : EnterRequestView) (block qty price : ℕ) :
    EngineM B A Unit := do
  modify fun s => { s with matchCounter := (s.matchCounter + 1) % 2 ^ 64 }
  let matchNo := (← get).matchCounter
  sendExecuted account order.userRefNum qty price 'R' matchNo
  let b ← load block
  sendExecuted (b.key >>> 32).toUInt32 b.key.toUInt32 qty price 'A' matchNo

def sendCancelled (account userRefNum : UInt32) (qty : ℕ) (reason : Char) : EngineM B A Unit :=
  publish account (.cancelled { userRefNum, quantity := qty, reason })

def sendCancelRejected (account userRefNum : UInt32) : EngineM B A Unit :=
  publish account (.cancelReject { userRefNum })

def scanSell : ℕ → EngineM B A Unit
  | 0 => throw .nonTermination
  | fuel + 1 => do
    let s ← get
    if 0 < s.sellOrders ∧ s.bestSellIdx < B then
      if (← level s.bestSellIdx).head = none then
        modify fun s => { s with bestSellIdx := s.bestSellIdx + 1 }
        scanSell fuel

def scanBuy : ℕ → EngineM B A Unit
  | 0 => throw .nonTermination
  | fuel + 1 => do
    let s ← get
    if 0 < s.buyOrders ∧ 0 < s.bestBuyIdx then
      if (← level s.bestBuyIdx).head = none then
        modify fun s => { s with bestBuyIdx := s.bestBuyIdx - 1 }
        scanBuy fuel

def repairBestSell : EngineM B A Unit := do
  scanSell (B + 1)
  modify fun s => if s.sellOrders = 0 then { s with bestSellIdx := B } else s

def repairBestBuy : EngineM B A Unit := do
  scanBuy (B + 1)
  modify fun s => if s.buyOrders = 0 then { s with bestBuyIdx := 0 } else s

/-- The matching loop of a buy: hit the oldest order of the lowest ask level. -/
def matchBuy (account : UInt32) (order : EnterRequestView) : ℕ → ℕ → EngineM B A ℕ
  | 0, _ => throw .nonTermination
  | fuel + 1, currQty => do
    let s ← get
    if 0 < s.sellOrders ∧ s.bestSellIdx < B ∧ s.bestSellIdx ≤ order.price ∧ 0 < currQty then
      let list := s.bestSellIdx
      let block ← deref (← level list).head
      sendFills account order block (min (← load block).currQty currQty) list
      let b ← load block
      if currQty < b.currQty then
        store block { b with currQty := ← sub b.currQty currQty }
        matchBuy account order fuel 0
      else
        eraseKey b.key
        let n ← sub (← get).sellOrders 1
        modify fun s => { s with sellOrders := n }
        let rest ← sub currQty (← load block).currQty
        unlink block list
        deallocate block
        repairBestSell
        matchBuy account order fuel rest
    else pure currQty

/-- Whether there is a bid at the best index; the level is only read when there are bids. -/
def bidWaiting : EngineM B A Bool := do
  let s ← get
  if 0 < s.buyOrders then pure (decide ((← level s.bestBuyIdx).head ≠ none)) else pure false

/-- The matching loop of a sell: hit the oldest order of the highest bid level. -/
def matchSell (account : UInt32) (order : EnterRequestView) (limit : ℕ) :
    ℕ → ℕ → EngineM B A ℕ
  | 0, _ => throw .nonTermination
  | fuel + 1, currQty => do
    let s ← get
    if (← bidWaiting) ∧ limit ≤ s.bestBuyIdx ∧ 0 < currQty then
      let list := s.bestBuyIdx
      let block ← deref (← level list).head
      sendFills account order block (min (← load block).currQty currQty) list
      let b ← load block
      if currQty < b.currQty then
        store block { b with currQty := ← sub b.currQty currQty }
        matchSell account order limit fuel 0
      else
        let n ← sub (← get).buyOrders 1
        modify fun s => { s with buyOrders := n }
        eraseKey b.key
        let rest ← sub currQty (← load block).currQty
        unlink block list
        deallocate block
        repairBestBuy
        matchSell account order limit fuel rest
    else pure currQty

def insertBuyOrder (account : UInt32) (order : EnterRequestView) : EngineM B A ℕ := do
  modify fun s => { s with counter := (s.counter + 1) % 2 ^ 64 }
  let id := (← get).counter
  sendAccepted account order id
  let currQty ← matchBuy account order (A + 2) order.quantity
  if 0 < currQty then
    if order.price = MARKETPRICE then
      sendCancelled account order.userRefNum currQty 'I'
      return 0
    match ← allocate with
    | none =>
      sendCancelled account order.userRefNum currQty 'Z'
      return 0
    | some newBlock =>
      modify fun s =>
        if s.bestBuyIdx < order.price then { s with bestBuyIdx := order.price } else s
      let key := orderKey account order.userRefNum
      store newBlock { ← load newBlock with id, key, currQty }
      modify fun s => { s with buyOrders := s.buyOrders + 1 }
      store newBlock { ← load newBlock with raw := order }
      appendList newBlock order.price
      insertKey key newBlock
      return id
  else return 0

def insertSellOrder (account : UInt32) (order : EnterRequestView) : EngineM B A ℕ := do
  modify fun s => { s with counter := (s.counter + 1) % 2 ^ 64 }
  let id := (← get).counter
  sendAccepted account order id
  let limit := if order.price = MARKETPRICE then 0 else order.price
  let currQty ← matchSell account order limit (A + 2) order.quantity
  if 0 < currQty then
    if order.price = MARKETPRICE then
      sendCancelled account order.userRefNum currQty 'I'
      return 0
    match ← allocate with
    | none =>
      sendCancelled account order.userRefNum currQty 'Z'
      return 0
    | some newBlock =>
      modify fun s =>
        if order.price < s.bestSellIdx then { s with bestSellIdx := order.price } else s
      let key := orderKey account order.userRefNum
      store newBlock { ← load newBlock with id, key, currQty }
      modify fun s => { s with sellOrders := s.sellOrders + 1 }
      store newBlock { ← load newBlock with raw := order }
      appendList newBlock order.price
      insertKey key newBlock
      return id
  else return 0

def insertOrder (account : UInt32) (order : EnterRequestView) : EngineM B A ℕ :=
  match order.side with
  | .B => insertBuyOrder account order
  | .S => insertSellOrder account order
  | _ => throw .invalidSide

/-- Move a best price off a level that a cancel has emptied. -/
def repairBest (idx : ℕ) (isBuy : Bool) : EngineM B A Unit := do
  if (← level idx).head = none then
    let s ← get
    if isBuy ∧ idx = s.bestBuyIdx then repairBestBuy
    else if ¬ isBuy ∧ idx = s.bestSellIdx then repairBestSell

/-- Take an order that is cancelled as a whole out of the book. -/
def removeOrder (key : UInt64) (block idx : ℕ) (isBuy : Bool) : EngineM B A Unit := do
  eraseKey key
  unlink block idx
  deallocate block
  let sells ← sub (← get).sellOrders (if isBuy then 0 else 1)
  let buys ← sub (← get).buyOrders (if isBuy then 1 else 0)
  modify fun s => { s with sellOrders := sells, buyOrders := buys }
  repairBest idx isBuy

/-- Reduce an open order to a new size; returns the number of shares cancelled. -/
def cancelOrder (account : UInt32) (cancel : CancelRequestView) : EngineM B A ℕ := do
  let key := orderKey account cancel.userRefNum
  match (← get).orderBlocksMap key with
  | none =>
    sendCancelRejected account cancel.userRefNum
    return 0
  | some block =>
    let b ← load block
    let newQty := cancel.quantity
    if b.currQty ≤ newQty then
      sendCancelRejected account cancel.userRefNum
      return 0
    let cancelled ← sub b.currQty newQty
    if 0 < newQty then
      store block { b with currQty := newQty }
      sendCancelled account cancel.userRefNum cancelled 'U'
      return cancelled
    -- price and side are read before the slot is handed back
    removeOrder key block b.raw.price (decide (b.raw.side = .B))
    sendCancelled account cancel.userRefNum cancelled 'U'
    return cancelled

def process (msg : InboundMessage) : EngineM B A Unit :=
  match msg.message with
  | .enter order => do let _ ← insertOrder msg.account order
  | .cancel cancel => do let _ ← cancelOrder msg.account cancel
  | _ => pure ()

/-- Process a finite sequence of messages on a fresh engine. -/
def run (msgs : List InboundMessage) : Except Fault (Engine B A) :=
  (msgs.forM process).run {} |>.map Prod.snd

/-- The messages published during each message of a sequence. -/
def outputs (s : Engine B A) :
    List InboundMessage → Except Fault (List (List OutboundMessage))
  | [] => .ok []
  | msg :: msgs => do
    let (_, s') ← process msg s
    let rest ← outputs s' msgs
    return s'.outgoingQueue.drop s.outgoingQueue.length :: rest

end Engine

end LowLevel.OrderBook
