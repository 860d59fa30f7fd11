import LowLevel.Wire.Fields

/-! # Views and builders

A view covers the bytes of one message and reads its fields in place; a builder
owns a zeroed buffer stamped with the type byte and writes the same fields. The
offsets stand once in each, as in the message header file. For every message
type there is a record of the values of all accessors, and a type of setter
calls with their effect on a builder and on such a record.
-/

namespace LowLevel.Wire

open CharEnum

open OrderBook (SideEnum TimeInForceEnum DisplayEnum CapacityEnum InterMarketSweepEligEnum
  CrossTypeEnum OrderStateEnum)

structure View (wireSize : ℕ) (type : UInt8) where
  p : Vector UInt8 wireSize
  deriving DecidableEq

structure Builder (wireSize : ℕ) (type : UInt8) where
  buf : Vector UInt8 wireSize

def Builder.fresh (wireSize : ℕ) (type : UInt8) (h : 0 + 1 ≤ wireSize := by decide) :
    Builder wireSize type :=
  ⟨storeChar (.replicate wireSize 0) 0 type h⟩

def Builder.bytes {wireSize : ℕ} {type : UInt8} (b : Builder wireSize type) :
    Vector UInt8 wireSize :=
  b.buf

abbrev EnterRequestView.TYPE : UInt8 := 'O'.toUInt8

abbrev EnterRequestView.WIRE_SIZE : ℕ := 47

abbrev EnterRequestView :=
  View EnterRequestView.WIRE_SIZE EnterRequestView.TYPE

abbrev EnterRequestBuilder :=
  Builder EnterRequestView.WIRE_SIZE EnterRequestView.TYPE

structure EnterRequest where
  userRefNum : UInt32 := 0
  side : SideEnum := ofChar 0
  quantity : UInt32 := 0
  symbol : Vector UInt8 8 := .replicate 8 0
  price : UInt64 := 0
  timeInForce : TimeInForceEnum := ofChar 0
  display : DisplayEnum := ofChar 0
  capacity : CapacityEnum := ofChar 0
  interMarketSweepElig : InterMarketSweepEligEnum := ofChar 0
  crossType : CrossTypeEnum := ofChar 0
  clOrdID : Vector UInt8 14 := .replicate 14 0
  appendageLength : UInt16 := 0
  deriving DecidableEq

namespace EnterRequestView

variable (v : EnterRequestView)

def userRefNum : UInt32 := loadBe32 v.p 1

def side : SideEnum := ofChar (loadChar v.p 5)

def quantity : UInt32 := loadBe32 v.p 6

def symbol : Vector UInt8 8 := loadStr v.p 10 8

def price : UInt64 := loadBe64 v.p 18

def timeInForce : TimeInForceEnum := ofChar (loadChar v.p 26)

def display : DisplayEnum := ofChar (loadChar v.p 27)

def capacity : CapacityEnum := ofChar (loadChar v.p 28)

def interMarketSweepElig : InterMarketSweepEligEnum := ofChar (loadChar v.p 29)

def crossType : CrossTypeEnum := ofChar (loadChar v.p 30)

def clOrdID : Vector UInt8 14 := loadStr v.p 31 14

def appendageLength : UInt16 := loadBe16 v.p 45

def fields : EnterRequest where
  userRefNum := userRefNum v
  side := side v
  quantity := quantity v
  symbol := symbol v
  price := price v
  timeInForce := timeInForce v
  display := display v
  capacity := capacity v
  interMarketSweepElig := interMarketSweepElig v
  crossType := crossType v
  clOrdID := clOrdID v
  appendageLength := appendageLength v

end EnterRequestView

namespace EnterRequestBuilder

variable (b : EnterRequestBuilder)

def userRefNum (x : UInt32) : EnterRequestBuilder := ⟨storeBe32 b.buf 1 x⟩

def side (x : SideEnum) : EnterRequestBuilder := ⟨storeChar b.buf 5 (toChar x)⟩

def quantity (x : UInt32) : EnterRequestBuilder := ⟨storeBe32 b.buf 6 x⟩

def symbol (x : List UInt8) : EnterRequestBuilder := ⟨storeStr b.buf 10 x 8⟩

def price (x : UInt64) : EnterRequestBuilder := ⟨storeBe64 b.buf 18 x⟩

def timeInForce (x : TimeInForceEnum) : EnterRequestBuilder := ⟨storeChar b.buf 26 (toChar x)⟩

def display (x : DisplayEnum) : EnterRequestBuilder := ⟨storeChar b.buf 27 (toChar x)⟩

def capacity (x : CapacityEnum) : EnterRequestBuilder := ⟨storeChar b.buf 28 (toChar x)⟩

def interMarketSweepElig (x : InterMarketSweepEligEnum) : EnterRequestBuilder :=
  ⟨storeChar b.buf 29 (toChar x)⟩

def crossType (x : CrossTypeEnum) : EnterRequestBuilder := ⟨storeChar b.buf 30 (toChar x)⟩

def clOrdID (x : List UInt8) : EnterRequestBuilder := ⟨storeStr b.buf 31 x 14⟩

def appendageLength (x : UInt16) : EnterRequestBuilder := ⟨storeBe16 b.buf 45 x⟩

inductive Setter where
  | userRefNum (x : UInt32)
  | side (x : SideEnum)
  | quantity (x : UInt32)
  | symbol (x : List UInt8)
  | price (x : UInt64)
  | timeInForce (x : TimeInForceEnum)
  | display (x : DisplayEnum)
  | capacity (x : CapacityEnum)
  | interMarketSweepElig (x : InterMarketSweepEligEnum)
  | crossType (x : CrossTypeEnum)
  | clOrdID (x : List UInt8)
  | appendageLength (x : UInt16)

def call : Setter → EnterRequestBuilder
  | .userRefNum x => userRefNum b x
  | .side x => side b x
  | .quantity x => quantity b x
  | .symbol x => symbol b x
  | .price x => price b x
  | .timeInForce x => timeInForce b x
  | .display x => display b x
  | .capacity x => capacity b x
  | .interMarketSweepElig x => interMarketSweepElig b x
  | .crossType x => crossType b x
  | .clOrdID x => clOrdID b x
  | .appendageLength x => appendageLength b x

end EnterRequestBuilder

namespace EnterRequest

def set (m : EnterRequest) : EnterRequestBuilder.Setter → EnterRequest
  | .userRefNum x => { m with userRefNum := x }
  | .side x => { m with side := x }
  | .quantity x => { m with quantity := x }
  | .symbol x => { m with symbol := padded 8 x }
  | .price x => { m with price := x }
  | .timeInForce x => { m with timeInForce := x }
  | .display x => { m with display := x }
  | .capacity x => { m with capacity := x }
  | .interMarketSweepElig x => { m with interMarketSweepElig := x }
  | .crossType x => { m with crossType := x }
  | .clOrdID x => { m with clOrdID := padded 14 x }
  | .appendageLength x => { m with appendageLength := x }

def setters (m : EnterRequest) : List EnterRequestBuilder.Setter :=
  [.userRefNum m.userRefNum, .side m.side, .quantity m.quantity, .symbol m.symbol.toList,
    .price m.price, .timeInForce m.timeInForce, .display m.display, .capacity m.capacity,
    .interMarketSweepElig m.interMarketSweepElig, .crossType m.crossType,
    .clOrdID m.clOrdID.toList, .appendageLength m.appendageLength]

end EnterRequest

abbrev CancelRequestView.TYPE : UInt8 := 'X'.toUInt8

abbrev CancelRequestView.WIRE_SIZE : ℕ := 9

abbrev CancelRequestView :=
  View CancelRequestView.WIRE_SIZE CancelRequestView.TYPE

abbrev CancelRequestBuilder :=
  Builder CancelRequestView.WIRE_SIZE CancelRequestView.TYPE

structure CancelRequest where
  userRefNum : UInt32 := 0
  quantity : UInt32 := 0
  deriving DecidableEq

namespace CancelRequestView

variable (v : CancelRequestView)

def userRefNum : UInt32 := loadBe32 v.p 1

def quantity : UInt32 := loadBe32 v.p 5

def fields : CancelRequest where
  userRefNum := userRefNum v
  quantity := quantity v

end CancelRequestView

namespace CancelRequestBuilder

variable (b : CancelRequestBuilder)

def userRefNum (x : UInt32) : CancelRequestBuilder := ⟨storeBe32 b.buf 1 x⟩

def quantity (x : UInt32) : CancelRequestBuilder := ⟨storeBe32 b.buf 5 x⟩

inductive Setter where
  | userRefNum (x : UInt32)
  | quantity (x : UInt32)

def call : Setter → CancelRequestBuilder
  | .userRefNum x => userRefNum b x
  | .quantity x => quantity b x

end CancelRequestBuilder

namespace CancelRequest

def set (m : CancelRequest) : CancelRequestBuilder.Setter → CancelRequest
  | .userRefNum x => { m with userRefNum := x }
  | .quantity x => { m with quantity := x }

def setters (m : CancelRequest) : List CancelRequestBuilder.Setter :=
  [.userRefNum m.userRefNum, .quantity m.quantity]

end CancelRequest

abbrev AcceptResponseView.TYPE : UInt8 := 'A'.toUInt8

abbrev AcceptResponseView.WIRE_SIZE : ℕ := 64

abbrev AcceptResponseView :=
  View AcceptResponseView.WIRE_SIZE AcceptResponseView.TYPE

abbrev AcceptResponseBuilder :=
  Builder AcceptResponseView.WIRE_SIZE AcceptResponseView.TYPE

structure AcceptResponse where
  timestamp : UInt64 := 0
  userRefNum : UInt32 := 0
  side : SideEnum := ofChar 0
  quantity : UInt32 := 0
  symbol : Vector UInt8 8 := .replicate 8 0
  price : UInt64 := 0
  timeInForce : TimeInForceEnum := ofChar 0
  display : DisplayEnum := ofChar 0
  orderReferenceNumber : UInt64 := 0
  capacity : UInt8 := 0
  interMarketSweepElig : InterMarketSweepEligEnum := ofChar 0
  crossType : CrossTypeEnum := ofChar 0
  orderState : OrderStateEnum := ofChar 0
  clOrdID : Vector UInt8 14 := .replicate 14 0
  appendageLength : UInt16 := 0
  deriving DecidableEq

namespace AcceptResponseView

variable (v : AcceptResponseView)

def timestamp : UInt64 := loadBe64 v.p 1

def userRefNum : UInt32 := loadBe32 v.p 9

def side : SideEnum := ofChar (loadChar v.p 13)

def quantity : UInt32 := loadBe32 v.p 14

def symbol : Vector UInt8 8 := loadStr v.p 18 8

def price : UInt64 := loadBe64 v.p 26

def timeInForce : TimeInForceEnum := ofChar (loadChar v.p 34)

def display : DisplayEnum := ofChar (loadChar v.p 35)

def orderReferenceNumber : UInt64 := loadBe64 v.p 36

def capacity : UInt8 := loadChar v.p 44

def interMarketSweepElig : InterMarketSweepEligEnum := ofChar (loadChar v.p 45)

def crossType : CrossTypeEnum := ofChar (loadChar v.p 46)

def orderState : OrderStateEnum := ofChar (loadChar v.p 47)

def clOrdID : Vector UInt8 14 := loadStr v.p 48 14

def appendageLength : UInt16 := loadBe16 v.p 62

def fields : AcceptResponse where
  timestamp := timestamp v
  userRefNum := userRefNum v
  side := side v
  quantity := quantity v
  symbol := symbol v
  price := price v
  timeInForce := timeInForce v
  display := display v
  orderReferenceNumber := orderReferenceNumber v
  capacity := capacity v
  interMarketSweepElig := interMarketSweepElig v
  crossType := crossType v
  orderState := orderState v
  clOrdID := clOrdID v
  appendageLength := appendageLength v

end AcceptResponseView

namespace AcceptResponseBuilder

variable (b : AcceptResponseBuilder)

def timestamp (x : UInt64) : AcceptResponseBuilder := ⟨storeBe64 b.buf 1 x⟩

def userRefNum (x : UInt32) : AcceptResponseBuilder := ⟨storeBe32 b.buf 9 x⟩

def side (x : SideEnum) : AcceptResponseBuilder := ⟨storeChar b.buf 13 (toChar x)⟩

def quantity (x : UInt32) : AcceptResponseBuilder := ⟨storeBe32 b.buf 14 x⟩

def symbol (x : List UInt8) : AcceptResponseBuilder := ⟨storeStr b.buf 18 x 8⟩

def price (x : UInt64) : AcceptResponseBuilder := ⟨storeBe64 b.buf 26 x⟩

def timeInForce (x : TimeInForceEnum) : AcceptResponseBuilder := ⟨storeChar b.buf 34 (toChar x)⟩

def display (x : DisplayEnum) : AcceptResponseBuilder := ⟨storeChar b.buf 35 (toChar x)⟩

def orderReferenceNumber (x : UInt64) : AcceptResponseBuilder := ⟨storeBe64 b.buf 36 x⟩

def capacity (x : UInt8) : AcceptResponseBuilder := ⟨storeChar b.buf 44 x⟩

def interMarketSweepElig (x : InterMarketSweepEligEnum) : AcceptResponseBuilder :=
  ⟨storeChar b.buf 45 (toChar x)⟩

def crossType (x : CrossTypeEnum) : AcceptResponseBuilder := ⟨storeChar b.buf 46 (toChar x)⟩

def orderState (x : OrderStateEnum) : AcceptResponseBuilder := ⟨storeChar b.buf 47 (toChar x)⟩

def clOrdID (x : List UInt8) : AcceptResponseBuilder := ⟨storeStr b.buf 48 x 14⟩

def appendageLength (x : UInt16) : AcceptResponseBuilder := ⟨storeBe16 b.buf 62 x⟩

inductive Setter where
  | timestamp (x : UInt64)
  | userRefNum (x : UInt32)
  | side (x : SideEnum)
  | quantity (x : UInt32)
  | symbol (x : List UInt8)
  | price (x : UInt64)
  | timeInForce (x : TimeInForceEnum)
  | display (x : DisplayEnum)
  | orderReferenceNumber (x : UInt64)
  | capacity (x : UInt8)
  | interMarketSweepElig (x : InterMarketSweepEligEnum)
  | crossType (x : CrossTypeEnum)
  | orderState (x : OrderStateEnum)
  | clOrdID (x : List UInt8)
  | appendageLength (x : UInt16)

def call : Setter → AcceptResponseBuilder
  | .timestamp x => timestamp b x
  | .userRefNum x => userRefNum b x
  | .side x => side b x
  | .quantity x => quantity b x
  | .symbol x => symbol b x
  | .price x => price b x
  | .timeInForce x => timeInForce b x
  | .display x => display b x
  | .orderReferenceNumber x => orderReferenceNumber b x
  | .capacity x => capacity b x
  | .interMarketSweepElig x => interMarketSweepElig b x
  | .crossType x => crossType b x
  | .orderState x => orderState b x
  | .clOrdID x => clOrdID b x
  | .appendageLength x => appendageLength b x

end AcceptResponseBuilder

namespace AcceptResponse

def set (m : AcceptResponse) : AcceptResponseBuilder.Setter → AcceptResponse
  | .timestamp x => { m with timestamp := x }
  | .userRefNum x => { m with userRefNum := x }
  | .side x => { m with side := x }
  | .quantity x => { m with quantity := x }
  | .symbol x => { m with symbol := padded 8 x }
  | .price x => { m with price := x }
  | .timeInForce x => { m with timeInForce := x }
  | .display x => { m with display := x }
  | .orderReferenceNumber x => { m with orderReferenceNumber := x }
  | .capacity x => { m with capacity := x }
  | .interMarketSweepElig x => { m with interMarketSweepElig := x }
  | .crossType x => { m with crossType := x }
  | .orderState x => { m with orderState := x }
  | .clOrdID x => { m with clOrdID := padded 14 x }
  | .appendageLength x => { m with appendageLength := x }

def setters (m : AcceptResponse) : List AcceptResponseBuilder.Setter :=
  [.timestamp m.timestamp, .userRefNum m.userRefNum, .side m.side, .quantity m.quantity,
    .symbol m.symbol.toList, .price m.price, .timeInForce m.timeInForce, .display m.display,
    .orderReferenceNumber m.orderReferenceNumber, .capacity m.capacity,
    .interMarketSweepElig m.interMarketSweepElig, .crossType m.crossType,
    .orderState m.orderState, .clOrdID m.clOrdID.toList, .appendageLength m.appendageLength]

end AcceptResponse

abbrev CancelledResponseView.TYPE : UInt8 := 'C'.toUInt8

abbrev CancelledResponseView.WIRE_SIZE : ℕ := 18

abbrev CancelledResponseView :=
  View CancelledResponseView.WIRE_SIZE CancelledResponseView.TYPE

abbrev CancelledResponseBuilder :=
  Builder CancelledResponseView.WIRE_SIZE CancelledResponseView.TYPE

structure CancelledResponse where
  timestamp : UInt64 := 0
  userRefNum : UInt32 := 0
  quantity : UInt32 := 0
  reason : UInt8 := 0
  deriving DecidableEq

namespace CancelledResponseView

variable (v : CancelledResponseView)

def timestamp : UInt64 := loadBe64 v.p 1

def userRefNum : UInt32 := loadBe32 v.p 9

def quantity : UInt32 := loadBe32 v.p 13

def reason : UInt8 := loadChar v.p 17

def fields : CancelledResponse where
  timestamp := timestamp v
  userRefNum := userRefNum v
  quantity := quantity v
  reason := reason v

end CancelledResponseView

namespace CancelledResponseBuilder

variable (b : CancelledResponseBuilder)

def timestamp (x : UInt64) : CancelledResponseBuilder := ⟨storeBe64 b.buf 1 x⟩

def userRefNum (x : UInt32) : CancelledResponseBuilder := ⟨storeBe32 b.buf 9 x⟩

def quantity (x : UInt32) : CancelledResponseBuilder := ⟨storeBe32 b.buf 13 x⟩

def reason (x : UInt8) : CancelledResponseBuilder := ⟨storeChar b.buf 17 x⟩

inductive Setter where
  | timestamp (x : UInt64)
  | userRefNum (x : UInt32)
  | quantity (x : UInt32)
  | reason (x : UInt8)

def call : Setter → CancelledResponseBuilder
  | .timestamp x => timestamp b x
  | .userRefNum x => userRefNum b x
  | .quantity x => quantity b x
  | .reason x => reason b x

end CancelledResponseBuilder

namespace CancelledResponse

def set (m : CancelledResponse) : CancelledResponseBuilder.Setter → CancelledResponse
  | .timestamp x => { m with timestamp := x }
  | .userRefNum x => { m with userRefNum := x }
  | .quantity x => { m with quantity := x }
  | .reason x => { m with reason := x }

def setters (m : CancelledResponse) : List CancelledResponseBuilder.Setter :=
  [.timestamp m.timestamp, .userRefNum m.userRefNum, .quantity m.quantity, .reason m.reason]

end CancelledResponse

abbrev CancelRejectResponseView.TYPE : UInt8 := 'I'.toUInt8

abbrev CancelRejectResponseView.WIRE_SIZE : ℕ := 15

abbrev CancelRejectResponseView :=
  View CancelRejectResponseView.WIRE_SIZE CancelRejectResponseView.TYPE

abbrev CancelRejectResponseBuilder :=
  Builder CancelRejectResponseView.WIRE_SIZE CancelRejectResponseView.TYPE

structure CancelRejectResponse where
  timestamp : UInt64 := 0
  userRefNum : UInt32 := 0
  appendageLength : UInt16 := 0
  deriving DecidableEq

namespace CancelRejectResponseView

variable (v : CancelRejectResponseView)

def timestamp : UInt64 := loadBe64 v.p 1

def userRefNum : UInt32 := loadBe32 v.p 9

def appendageLength : UInt16 := loadBe16 v.p 13

def fields : CancelRejectResponse where
  timestamp := timestamp v
  userRefNum := userRefNum v
  appendageLength := appendageLength v

end CancelRejectResponseView

namespace CancelRejectResponseBuilder

variable (b : CancelRejectResponseBuilder)

def timestamp (x : UInt64) : CancelRejectResponseBuilder := ⟨storeBe64 b.buf 1 x⟩

def userRefNum (x : UInt32) : CancelRejectResponseBuilder := ⟨storeBe32 b.buf 9 x⟩

def appendageLength (x : UInt16) : CancelRejectResponseBuilder := ⟨storeBe16 b.buf 13 x⟩

inductive Setter where
  | timestamp (x : UInt64)
  | userRefNum (x : UInt32)
  | appendageLength (x : UInt16)

def call : Setter → CancelRejectResponseBuilder
  | .timestamp x => timestamp b x
  | .userRefNum x => userRefNum b x
  | .appendageLength x => appendageLength b x

end CancelRejectResponseBuilder

namespace CancelRejectResponse

def set (m : CancelRejectResponse) : CancelRejectResponseBuilder.Setter → CancelRejectResponse
  | .timestamp x => { m with timestamp := x }
  | .userRefNum x => { m with userRefNum := x }
  | .appendageLength x => { m with appendageLength := x }

def setters (m : CancelRejectResponse) : List CancelRejectResponseBuilder.Setter :=
  [.timestamp m.timestamp, .userRefNum m.userRefNum, .appendageLength m.appendageLength]

end CancelRejectResponse

abbrev ExecutedResponseView.TYPE : UInt8 := 'E'.toUInt8

abbrev ExecutedResponseView.WIRE_SIZE : ℕ := 36

abbrev ExecutedResponseView :=
  View ExecutedResponseView.WIRE_SIZE ExecutedResponseView.TYPE

abbrev ExecutedResponseBuilder :=
  Builder ExecutedResponseView.WIRE_SIZE ExecutedResponseView.TYPE

structure ExecutedResponse where
  timestamp : UInt64 := 0
  userRefNum : UInt32 := 0
  quantity : UInt32 := 0
  price : UInt64 := 0
  liquidityFlag : UInt8 := 0
  matchNumber : UInt64 := 0
  appendageLength : UInt16 := 0
  deriving DecidableEq

namespace ExecutedResponseView

variable (v : ExecutedResponseView)

def timestamp : UInt64 := loadBe64 v.p 1

def userRefNum : UInt32 := loadBe32 v.p 9

def quantity : UInt32 := loadBe32 v.p 13

def price : UInt64 := loadBe64 v.p 17

def liquidityFlag : UInt8 := loadChar v.p 25

def matchNumber : UInt64 := loadBe64 v.p 26

def appendageLength : UInt16 := loadBe16 v.p 34

def fields : ExecutedResponse where
  timestamp := timestamp v
  userRefNum := userRefNum v
  quantity := quantity v
  price := price v
  liquidityFlag := liquidityFlag v
  matchNumber := matchNumber v
  appendageLength := appendageLength v

end ExecutedResponseView

namespace ExecutedResponseBuilder

variable (b : ExecutedResponseBuilder)

def timestamp (x : UInt64) : ExecutedResponseBuilder := ⟨storeBe64 b.buf 1 x⟩

def userRefNum (x : UInt32) : ExecutedResponseBuilder := ⟨storeBe32 b.buf 9 x⟩

def quantity (x : UInt32) : ExecutedResponseBuilder := ⟨storeBe32 b.buf 13 x⟩

def price (x : UInt64) : ExecutedResponseBuilder := ⟨storeBe64 b.buf 17 x⟩

def liquidityFlag (x : UInt8) : ExecutedResponseBuilder := ⟨storeChar b.buf 25 x⟩

def matchNumber (x : UInt64) : ExecutedResponseBuilder := ⟨storeBe64 b.buf 26 x⟩

def appendageLength (x : UInt16) : ExecutedResponseBuilder := ⟨storeBe16 b.buf 34 x⟩

inductive Setter where
  | timestamp (x : UInt64)
  | userRefNum (x : UInt32)
  | quantity (x : UInt32)
  | price (x : UInt64)
  | liquidityFlag (x : UInt8)
  | matchNumber (x : UInt64)
  | appendageLength (x : UInt16)

def call : Setter → ExecutedResponseBuilder
  | .timestamp x => timestamp b x
  | .userRefNum x => userRefNum b x
  | .quantity x => quantity b x
  | .price x => price b x
  | .liquidityFlag x => liquidityFlag b x
  | .matchNumber x => matchNumber b x
  | .appendageLength x => appendageLength b x

end ExecutedResponseBuilder

namespace ExecutedResponse

def set (m : ExecutedResponse) : ExecutedResponseBuilder.Setter → ExecutedResponse
  | .timestamp x => { m with timestamp := x }
  | .userRefNum x => { m with userRefNum := x }
  | .quantity x => { m with quantity := x }
  | .price x => { m with price := x }
  | .liquidityFlag x => { m with liquidityFlag := x }
  | .matchNumber x => { m with matchNumber := x }
  | .appendageLength x => { m with appendageLength := x }

def setters (m : ExecutedResponse) : List ExecutedResponseBuilder.Setter :=
  [.timestamp m.timestamp, .userRefNum m.userRefNum, .quantity m.quantity, .price m.price,
    .liquidityFlag m.liquidityFlag, .matchNumber m.matchNumber,
    .appendageLength m.appendageLength]

end ExecutedResponse

/-- The variant returned by `decode`. -/
inductive UOUCHMessage where
  | enter (v : EnterRequestView)
  | cancel (v : CancelRequestView)
  | accept (v : AcceptResponseView)
  | cancelled (v : CancelledResponseView)
  | cancelReject (v : CancelRejectResponseView)
  | executed (v : ExecutedResponseView)
  deriving DecidableEq

/-- The view of a given size at the start of a buffer, if the buffer is long enough. -/
def viewAt {n : ℕ} (bytes : Vector UInt8 n) (wireSize : ℕ) (type : UInt8) :
    Option (View wireSize type) :=
  if wireSize ≤ n then some ⟨.ofFn fun i => window bytes 0 i⟩ else none

/-- The view selected by the type byte; the source has no behaviour on other bytes. -/
def decode {n : ℕ} (bytes : Vector UInt8 n) : Option UOUCHMessage :=
  if window bytes 0 0 = EnterRequestView.TYPE then
    (viewAt bytes EnterRequestView.WIRE_SIZE _).map .enter
  else if window bytes 0 0 = CancelRequestView.TYPE then
    (viewAt bytes CancelRequestView.WIRE_SIZE _).map .cancel
  else if window bytes 0 0 = AcceptResponseView.TYPE then
    (viewAt bytes AcceptResponseView.WIRE_SIZE _).map .accept
  else if window bytes 0 0 = CancelledResponseView.TYPE then
    (viewAt bytes CancelledResponseView.WIRE_SIZE _).map .cancelled
  else if window bytes 0 0 = CancelRejectResponseView.TYPE then
    (viewAt bytes CancelRejectResponseView.WIRE_SIZE _).map .cancelReject
  else if window bytes 0 0 = ExecutedResponseView.TYPE then
    (viewAt bytes ExecutedResponseView.WIRE_SIZE _).map .executed
  else none

end LowLevel.Wire
