import Mathlib.Algebra.Order.Ring.Nat

/-! # OUCH messages

The decoded fields of the OUCH subset. A scoped enumeration over `char` can
hold any byte, so each one has its named values and all remaining codes.
Quantities and prices are natural numbers; account and reference numbers keep
their 32 bits, since they are packed into one key. The timestamp field is a
clock reading and is left out.
-/

namespace LowLevel.OrderBook

inductive SideEnum where
  | B | S | T | E
  | other (code : UInt8) (h : code ∉ [66, 83, 84, 69])
  deriving DecidableEq

inductive TimeInForceEnum where
  | Day | IOC | FOK | GTC | E
  | other (code : UInt8) (h : code ∉ [48, 51, 53, 54, 69])
  deriving DecidableEq

inductive DisplayEnum where
  | Y | N | A
  | other (code : UInt8) (h : code ∉ [89, 78, 65])
  deriving DecidableEq

inductive CapacityEnum where
  | A | P | R | O
  | other (code : UInt8) (h : code ∉ [65, 80, 82, 79])
  deriving DecidableEq

inductive InterMarketSweepEligEnum where
  | Y | N
  | other (code : UInt8) (h : code ∉ [89, 78])
  deriving DecidableEq

inductive CrossTypeEnum where
  | N | O | C | H | S | R | E | A
  | other (code : UInt8) (h : code ∉ [78, 79, 67, 72, 83, 82, 69, 65])
  deriving DecidableEq

inductive OrderStateEnum where
  | L | D
  | other (code : UInt8) (h : code ∉ [76, 68])
  deriving DecidableEq

/-- The character behind a capacity, as the accepted response carries it. -/
def CapacityEnum.char : CapacityEnum → UInt8
  | A => 65
  | P => 80
  | R => 82
  | O => 79
  | other code _ => code

/-- An enter request; fields that a builder leaves unset are zero bytes. -/
structure EnterRequestView where
  userRefNum : UInt32
  side : SideEnum
  quantity : ℕ
  symbol : Vector UInt8 8 := Vector.replicate 8 0
  price : ℕ
  timeInForce : TimeInForceEnum := .other 0 (by decide)
  display : DisplayEnum := .other 0 (by decide)
  capacity : CapacityEnum := .other 0 (by decide)
  interMarketSweepElig : InterMarketSweepEligEnum := .other 0 (by decide)
  crossType : CrossTypeEnum := .other 0 (by decide)
  clOrdID : Vector UInt8 14 := Vector.replicate 14 0
  appendageLength : UInt16 := 0
  deriving DecidableEq

structure CancelRequestView where
  userRefNum : UInt32
  quantity : ℕ
  deriving DecidableEq

structure AcceptResponseView where
  userRefNum : UInt32
  side : SideEnum
  quantity : ℕ
  symbol : Vector UInt8 8
  price : ℕ
  timeInForce : TimeInForceEnum
  display : DisplayEnum
  orderReferenceNumber : ℕ
  capacity : UInt8
  interMarketSweepElig : InterMarketSweepEligEnum
  crossType : CrossTypeEnum
  orderState : OrderStateEnum
  clOrdID : Vector UInt8 14
  appendageLength : UInt16 := 0
  deriving DecidableEq

structure CancelledResponseView where
  userRefNum : UInt32
  quantity : ℕ
  reason : Char
  deriving DecidableEq

structure CancelRejectResponseView where
  userRefNum : UInt32
  appendageLength : UInt16 := 0
  deriving DecidableEq

structure ExecutedResponseView where
  userRefNum : UInt32
  quantity : ℕ
  price : ℕ
  liquidityFlag : Char
  matchNumber : ℕ
  appendageLength : UInt16 := 0
  deriving DecidableEq

/-- The variant returned by `decode`. -/
inductive UOUCHMessage where
  | enter (v : EnterRequestView)
  | cancel (v : CancelRequestView)
  | accept (v : AcceptResponseView)
  | cancelled (v : CancelledResponseView)
  | cancelReject (v : CancelRejectResponseView)
  | executed (v : ExecutedResponseView)
  deriving DecidableEq

/-- What the receiver pushes to the engine: a message and the account of its connection. -/
structure InboundMessage where
  account : UInt32
  message : UOUCHMessage
  deriving DecidableEq

structure OutboundMessage where
  account : UInt32
  message : UOUCHMessage
  deriving DecidableEq

/-- Orders are identified by account and reference number, packed into one 64-bit key. -/
def orderKey (account userRefNum : UInt32) : UInt64 :=
  (account.toUInt64 <<< 32) ||| userRefNum.toUInt64

theorem toNat_orderKey (account userRefNum : UInt32) :
    (orderKey account userRefNum).toNat = account.toNat * 2 ^ 32 + userRefNum.toNat := by
  have ha := account.toNat_lt
  have hu := userRefNum.toNat_lt
  rw [orderKey, UInt64.toNat_or, UInt64.toNat_shiftLeft, UInt32.toNat_toUInt64,
    UInt32.toNat_toUInt64]
  have hs : account.toNat <<< 32 % 2 ^ 64 = account.toNat <<< 32 := by
    rw [Nat.shiftLeft_eq]; omega
  simp only [UInt64.reduceToNat, Nat.reduceMod, hs]
  rw [← Nat.shiftLeft_add_eq_or_of_lt hu, Nat.shiftLeft_eq]

@[simp] theorem orderKey_account (account userRefNum : UInt32) :
    (orderKey account userRefNum >>> 32).toUInt32 = account := by
  have hu := userRefNum.toNat_lt
  apply UInt32.toNat_inj.mp
  rw [UInt64.toNat_toUInt32, UInt64.toNat_shiftRight, toNat_orderKey]
  simp only [UInt64.reduceToNat, Nat.reduceMod, Nat.shiftRight_eq_div_pow]
  have := account.toNat_lt
  omega

@[simp] theorem orderKey_userRefNum (account userRefNum : UInt32) :
    (orderKey account userRefNum).toUInt32 = userRefNum := by
  have hu := userRefNum.toNat_lt
  apply UInt32.toNat_inj.mp
  rw [UInt64.toNat_toUInt32, toNat_orderKey]
  omega

theorem orderKey_inj {a a' u u' : UInt32} :
    orderKey a u = orderKey a' u' ↔ a = a' ∧ u = u' := by
  constructor
  · intro h
    exact ⟨by rw [← orderKey_account a u, h, orderKey_account],
      by rw [← orderKey_userRefNum a u, h, orderKey_userRefNum]⟩
  · rintro ⟨rfl, rfl⟩; rfl

namespace OutboundMessage

def key (o : OutboundMessage) : UInt64 :=
  orderKey o.account <| match o.message with
    | .enter v => v.userRefNum
    | .cancel v => v.userRefNum
    | .accept v => v.userRefNum
    | .cancelled v => v.userRefNum
    | .cancelReject v => v.userRefNum
    | .executed v => v.userRefNum

def isAccepted (o : OutboundMessage) : Bool :=
  match o.message with
  | .accept _ => true
  | _ => false

def isExecuted (o : OutboundMessage) : Bool :=
  match o.message with
  | .executed _ => true
  | _ => false

def isCancelled (o : OutboundMessage) : Bool :=
  match o.message with
  | .cancelled _ => true
  | _ => false

def quantity (o : OutboundMessage) : ℕ :=
  match o.message with
  | .cancelled v => v.quantity
  | .executed v => v.quantity
  | _ => 0

end OutboundMessage

end LowLevel.OrderBook
