import LowLevel.OrderBook.Keys
import LowLevel.Wire.Stream

/-! # The engine between two byte streams

The queues carry payloads of bytes. The engine decodes a request in place, works
on the values of its accessors, and builds each answer with the builder of its
type. A clock stamps the answers; nothing else depends on it.
-/

namespace LowLevel.Trading

open OrderBook (Engine Indexed Admissible Agrees Fill SimOrder)

abbrev inSize : ℕ := max Wire.EnterRequestView.WIRE_SIZE Wire.CancelRequestView.WIRE_SIZE

structure InboundMessage where
  account : UInt32
  bytes : Vector UInt8 inSize

section Views

def enterFields (v : Wire.EnterRequestView) : OrderBook.EnterRequestView where
  userRefNum := v.userRefNum
  side := v.side
  quantity := v.quantity.toNat
  symbol := v.symbol
  price := v.price.toNat
  timeInForce := v.timeInForce
  display := v.display
  capacity := v.capacity
  interMarketSweepElig := v.interMarketSweepElig
  crossType := v.crossType
  clOrdID := v.clOrdID
  appendageLength := v.appendageLength

def cancelFields (v : Wire.CancelRequestView) : OrderBook.CancelRequestView where
  userRefNum := v.userRefNum
  quantity := v.quantity.toNat

def acceptFields (v : Wire.AcceptResponse) : OrderBook.AcceptResponseView where
  userRefNum := v.userRefNum
  side := v.side
  quantity := v.quantity.toNat
  symbol := v.symbol
  price := v.price.toNat
  timeInForce := v.timeInForce
  display := v.display
  orderReferenceNumber := v.orderReferenceNumber.toNat
  capacity := v.capacity
  interMarketSweepElig := v.interMarketSweepElig
  crossType := v.crossType
  orderState := v.orderState
  clOrdID := v.clOrdID
  appendageLength := v.appendageLength

def cancelledFields (v : Wire.CancelledResponse) : OrderBook.CancelledResponseView where
  userRefNum := v.userRefNum
  quantity := v.quantity.toNat
  reason := .ofNat v.reason.toNat

def cancelRejectFields (v : Wire.CancelRejectResponse) : OrderBook.CancelRejectResponseView where
  userRefNum := v.userRefNum
  appendageLength := v.appendageLength

def executedFields (v : Wire.ExecutedResponse) : OrderBook.ExecutedResponseView where
  userRefNum := v.userRefNum
  quantity := v.quantity.toNat
  price := v.price.toNat
  liquidityFlag := .ofNat v.liquidityFlag.toNat
  matchNumber := v.matchNumber.toNat
  appendageLength := v.appendageLength

def fields : Wire.UOUCHMessage → OrderBook.UOUCHMessage
  | .enter v => .enter (enterFields v)
  | .cancel v => .cancel (cancelFields v)
  | .accept v => .accept (acceptFields v.fields)
  | .cancelled v => .cancelled (cancelledFields v.fields)
  | .cancelReject v => .cancelReject (cancelRejectFields v.fields)
  | .executed v => .executed (executedFields v.fields)

end Views

def respond (stamp : UInt64) : OrderBook.UOUCHMessage → Option Wire.Response
  | .accept v => some <| .accept [.timestamp stamp, .userRefNum v.userRefNum, .side v.side,
      .quantity (.ofNat v.quantity), .symbol v.symbol.toList, .price (.ofNat v.price),
      .timeInForce v.timeInForce, .display v.display,
      .orderReferenceNumber (.ofNat v.orderReferenceNumber), .capacity v.capacity,
      .interMarketSweepElig v.interMarketSweepElig, .crossType v.crossType,
      .orderState v.orderState, .clOrdID v.clOrdID.toList]
  | .executed v => some <| .executed [.timestamp stamp, .userRefNum v.userRefNum,
      .quantity (.ofNat v.quantity), .price (.ofNat v.price),
      .liquidityFlag v.liquidityFlag.toUInt8, .matchNumber (.ofNat v.matchNumber)]
  | .cancelled v => some <| .cancelled [.timestamp stamp, .userRefNum v.userRefNum,
      .quantity (.ofNat v.quantity), .reason v.reason.toUInt8]
  | .cancelReject v => some <| .cancelReject [.timestamp stamp, .userRefNum v.userRefNum,
      .appendageLength 0]
  | _ => none

/-- The payloads of answers, of which `k` were published before. -/
def payloads (clock : ℕ → UInt64) (k : ℕ) (answers : List OrderBook.OutboundMessage) :
    List Wire.OutboundMessage :=
  (answers.zipIdx k).filterMap fun answer =>
    (respond (clock answer.2) answer.1.message).map (Wire.Response.publish answer.1.account)

/-- The request in a payload. `decode` makes a view of whatever type the first byte names; one that
would not fit the payload is that of an answer, which the engine does not look at. -/
def request (msg : InboundMessage) : Option OrderBook.UOUCHMessage :=
  (Wire.decode msg.bytes).map fields

/-- What the engine makes of a payload, and the payloads it publishes. -/
def process {B A : ℕ} (clock : ℕ → UInt64) (engine : Engine B A) (msg : InboundMessage) :
    Option (Engine B A × List Wire.OutboundMessage) :=
  match request msg with
  | none =>
    if window msg.bytes 0 0 = Wire.AcceptResponseView.TYPE then some (engine, []) else none
  | some message =>
    match Engine.process ⟨msg.account, message⟩ engine with
    | .ok (_, engine') => some (engine', payloads clock engine.outgoingQueue.length
        (engine'.outgoingQueue.drop engine.outgoingQueue.length))
    | .error _ => none

def read (bytes : List UInt8) : Option OrderBook.UOUCHMessage :=
  (Wire.decode bytes.toArray.toVector).map fields

/-- The values of an answer fit the fields of its type, and its codes are those the engine uses. -/
def Fits : OrderBook.UOUCHMessage → Prop
  | .accept v => v.quantity < 2 ^ 32 ∧ v.price < 2 ^ 64 ∧ v.orderReferenceNumber < 2 ^ 64 ∧
      v.appendageLength = 0
  | .executed v => v.quantity < 2 ^ 32 ∧ v.price < 2 ^ 64 ∧ v.matchNumber < 2 ^ 64 ∧
      v.liquidityFlag ∈ ['R', 'A'] ∧ v.appendageLength = 0
  | .cancelled v => v.quantity < 2 ^ 32 ∧ v.reason ∈ ['I', 'Z', 'U']
  | .cancelReject v => v.appendageLength = 0
  | _ => False

section Reading

variable {m : OrderBook.UOUCHMessage} {r : Wire.Response}

theorem decode_congr {n k : ℕ} {v : Vector UInt8 n} {w : Vector UInt8 k}
    (h : v.toList = w.toList) : Wire.decode v = Wire.decode w := by
  have hlen : n = k := by
    have := congrArg List.length h
    rwa [Vector.length_toList, Vector.length_toList] at this
  subst hlen
  rw [Vector.toList_inj.mp h]

theorem read_toList {n : ℕ} (v : Vector UInt8 n) : read v.toList = (Wire.decode v).map fields := by
  rw [read, decode_congr (w := v) (by simp)]

theorem padded_toList {n : ℕ} (v : Vector UInt8 n) : Wire.padded n v.toList = v := by
  apply Vector.ext
  intro i hi
  simp [Wire.padded]

def contents : Wire.Response → OrderBook.UOUCHMessage
  | .accept calls => .accept (acceptFields (calls.foldl Wire.AcceptResponse.set {}))
  | .executed calls => .executed (executedFields (calls.foldl Wire.ExecutedResponse.set {}))
  | .cancelled calls => .cancelled (cancelledFields (calls.foldl Wire.CancelledResponse.set {}))
  | .cancelReject calls =>
    .cancelReject (cancelRejectFields (calls.foldl Wire.CancelRejectResponse.set {}))

theorem read_bytes (r : Wire.Response) : read r.bytes = some (contents r) := by
  cases r with
  | accept calls =>
    refine (read_toList _).trans ?_
    rw [Wire.acceptResponse_roundTrips.decode_build calls]
    exact congrArg (fun v => some (OrderBook.UOUCHMessage.accept (acceptFields v)))
      (Wire.acceptResponse_roundTrips.fields_build calls)
  | executed calls =>
    refine (read_toList _).trans ?_
    rw [Wire.executedResponse_roundTrips.decode_build calls]
    exact congrArg (fun v => some (OrderBook.UOUCHMessage.executed (executedFields v)))
      (Wire.executedResponse_roundTrips.fields_build calls)
  | cancelled calls =>
    refine (read_toList _).trans ?_
    rw [Wire.cancelledResponse_roundTrips.decode_build calls]
    exact congrArg (fun v => some (OrderBook.UOUCHMessage.cancelled (cancelledFields v)))
      (Wire.cancelledResponse_roundTrips.fields_build calls)
  | cancelReject calls =>
    refine (read_toList _).trans ?_
    rw [Wire.cancelRejectResponse_roundTrips.decode_build calls]
    exact congrArg (fun v => some (OrderBook.UOUCHMessage.cancelReject (cancelRejectFields v)))
      (Wire.cancelRejectResponse_roundTrips.fields_build calls)

theorem toNat_ofNat32 {n : ℕ} (h : n < 2 ^ 32) : (UInt32.ofNat n).toNat = n :=
  UInt32.toNat_ofNat_of_lt' h

theorem toNat_ofNat64 {n : ℕ} (h : n < 2 ^ 64) : (UInt64.ofNat n).toNat = n :=
  UInt64.toNat_ofNat_of_lt' h

theorem reason_code {c : Char} (h : c ∈ ['I', 'Z', 'U']) : Char.ofNat c.toUInt8.toNat = c := by
  simp only [List.mem_cons, List.not_mem_nil, or_false] at h
  rcases h with rfl | rfl | rfl <;> rfl

theorem liquidity_code {c : Char} (h : c ∈ ['R', 'A']) : Char.ofNat c.toUInt8.toNat = c := by
  simp only [List.mem_cons, List.not_mem_nil, or_false] at h
  rcases h with rfl | rfl <;> rfl

theorem read_respond (h : Fits m) (stamp : UInt64) :
    ∃ r, respond stamp m = some r ∧ read r.bytes = some m := by
  cases m with
  | enter v => exact h.elim
  | cancel v => exact h.elim
  | accept v =>
    obtain ⟨hqty, hprice, hid, happendage⟩ := h
    refine ⟨_, rfl, ?_⟩
    rw [read_bytes, contents]
    simp [acceptFields, Wire.AcceptResponse.set, toNat_ofNat32 hqty, toNat_ofNat64 hprice,
      toNat_ofNat64 hid, padded_toList, ← happendage]
  | cancelled v =>
    obtain ⟨hqty, hreason⟩ := h
    refine ⟨_, rfl, ?_⟩
    rw [read_bytes, contents]
    simp [cancelledFields, Wire.CancelledResponse.set, toNat_ofNat32 hqty, reason_code hreason]
  | cancelReject v =>
    refine ⟨_, rfl, ?_⟩
    rw [read_bytes, contents]
    have happendage : v.appendageLength = 0 := h
    simp [cancelRejectFields, Wire.CancelRejectResponse.set, ← happendage]
  | executed v =>
    obtain ⟨hqty, hprice, hmatch, hflag, happendage⟩ := h
    refine ⟨_, rfl, ?_⟩
    rw [read_bytes, contents]
    simp [executedFields, Wire.ExecutedResponse.set, toNat_ofNat32 hqty, toNat_ofNat64 hprice,
      toNat_ofNat64 hmatch, liquidity_code hflag, ← happendage]

end Reading

section Bounds

open OrderBook.FlowGenerator

variable {A : ℕ} {n : Indexed} {o r : SimOrder} {os : List SimOrder} {fs : List Fill}
  {m : OrderBook.Matching} {account ref : UInt32}

/-- What is open came with a request, whose fields have 32 and 64 bits. -/
def Bounded (o : SimOrder) : Prop := o.remainingQty < 2 ^ 32 ∧ o.price < 2 ^ 64

def Sized : OrderBook.UOUCHMessage → Prop
  | .enter order => order.quantity < 2 ^ 32 ∧ order.price < 2 ^ 64
  | _ => True

theorem Bounded.setQty (h : Bounded o) {q : ℕ} (hq : q ≤ o.remainingQty) :
    Bounded { o with remainingQty := q } :=
  ⟨Nat.lt_of_le_of_lt hq h.1, h.2⟩

theorem trade_bounded {i : ℕ} (h : ∀ o ∈ m.openOrders, Bounded o)
    (hi : m.openOrders[i]? = some r) : ∀ o ∈ (trade m i r).openOrders, Bounded o := by
  obtain ⟨os, hos, htrade⟩ := OrderBook.trade_perm hi
  intro o ho
  rcases List.mem_append.mp (htrade.mem_iff.mp ho) with ho | ho
  · unfold OrderBook.leftover at ho
    split at ho
    · cases ho
    · obtain rfl := List.mem_singleton.mp ho
      exact (h r (List.mem_of_getElem? hi)).setQty (Nat.sub_le ..)
  · exact h o (hos.mem_iff.mpr (List.mem_cons_of_mem _ ho))

variable (account) in
/-- Open orders and trades stay bounded in the matching loop, and so does the rest. -/
theorem matching_bounded {order : OrderBook.EnterRequestView}
    (h : ∀ o ∈ n.openOrders, Bounded o) (hqty : order.quantity < 2 ^ 32) :
    (n.matching SimOrder.reaches account order).remainingQty < 2 ^ 32 ∧
      (∀ o ∈ (n.matching SimOrder.reaches account order).openOrders, Bounded o) ∧
      ∀ f ∈ (n.matching SimOrder.reaches account order).fills,
        f.qty < 2 ^ 32 ∧ f.resting.price < 2 ^ 64 := by
  apply OrderBook.matching_invariant (P := fun m => m.remainingQty < 2 ^ 32 ∧
    (∀ o ∈ m.openOrders, Bounded o) ∧ ∀ f ∈ m.fills, f.qty < 2 ^ 32 ∧ f.resting.price < 2 ^ 64)
  · exact ⟨hqty, h, nofun⟩
  · rintro m i r ⟨hrest, hopen, hfills⟩ - hbest
    have hi := (OrderBook.best_spec hbest).1
    refine ⟨?_, trade_bounded hopen hi, ?_⟩
    · rw [OrderBook.trade_remainingQty]
      exact Nat.lt_of_le_of_lt (Nat.sub_le ..) hrest
    · intro f hf
      rw [OrderBook.trade_fills, List.mem_append, List.mem_singleton] at hf
      rcases hf with hf | rfl
      · exact hfills f hf
      · exact ⟨Nat.lt_of_le_of_lt (Nat.min_le_left ..) hrest,
          (hopen r (List.mem_of_getElem? hi)).2⟩

theorem fits_executed {qty price matchNo : ℕ} {c : Char} (hqty : qty < 2 ^ 32)
    (hprice : price < 2 ^ 64) (hmatch : matchNo < 2 ^ 64) (hc : c ∈ ['R', 'A']) :
    Fits (OrderBook.executed account ref qty price c matchNo).message :=
  ⟨hqty, hprice, hmatch, hc, rfl⟩

theorem fits_cancelled {qty : ℕ} {c : Char} (hqty : qty < 2 ^ 32) (hc : c ∈ ['I', 'Z', 'U']) :
    Fits (OrderBook.cancelled account ref qty c).message :=
  ⟨hqty, hc⟩

theorem mod_lt (k : ℕ) : k % 2 ^ 64 < 2 ^ 64 := Nat.mod_lt _ (by decide)

theorem fits_fillMessages {t : ℕ} (h : ∀ f ∈ fs, f.qty < 2 ^ 32 ∧ f.resting.price < 2 ^ 64) :
    ∀ x ∈ OrderBook.fillMessages account ref t fs, Fits x.message := by
  induction fs generalizing t with
  | nil =>
    intro x hx
    cases hx
  | cons f fs ih =>
    intro x hx
    obtain ⟨hqty, hprice⟩ := h f (List.mem_cons_self ..)
    rw [OrderBook.fillMessages, OrderBook.legs, List.mem_append, List.mem_cons,
      List.mem_singleton] at hx
    rcases hx with (rfl | rfl) | hx
    · exact fits_executed hqty hprice (mod_lt _) (by decide)
    · exact fits_executed hqty hprice (mod_lt _) (by decide)
    · exact ih (fun f hf => h f (List.mem_cons_of_mem _ hf)) x hx

theorem fits_remainder {order : OrderBook.EnterRequestView} (hqty : m.remainingQty < 2 ^ 32) :
    ∀ x ∈ OrderBook.remainderMessages account ref m.remainingQty
      (OrderBook.remainder A order m), Fits x.message := by
  intro x hx
  unfold OrderBook.remainder at hx
  split_ifs at hx with hdone hmarket hroom
  · cases hx
  · obtain rfl := List.mem_singleton.mp hx
    exact fits_cancelled hqty (by decide)
  · obtain rfl := List.mem_singleton.mp hx
    exact fits_cancelled hqty (by decide)
  · cases hx

theorem enter_fits {order : OrderBook.EnterRequestView} (h : ∀ o ∈ n.openOrders, Bounded o)
    (hsized : Sized (.enter order)) :
    (∀ o ∈ (n.enter SimOrder.reaches A account order).openOrders, Bounded o) ∧
      ∀ x ∈ n.enterMessages SimOrder.reaches A account order, Fits x.message := by
  obtain ⟨hqty, hprice⟩ := hsized
  obtain ⟨hrest, hopen, hfills⟩ := matching_bounded account h hqty
  constructor
  · intro o ho
    unfold OrderBook.Naive.enter at ho
    dsimp only at ho
    split_ifs at ho with hrem
    · rcases List.mem_append.mp ho with ho | ho
      · exact hopen o ho
      · obtain rfl := List.mem_singleton.mp ho
        exact ⟨hrest, hprice⟩
    · exact hopen o ho
  · intro x hx
    rcases List.mem_cons.mp hx with rfl | hx
    · exact ⟨hqty, hprice, mod_lt _, rfl⟩
    · rcases List.mem_append.mp hx with hx | hx
      · exact fits_fillMessages hfills x hx
      · exact fits_remainder hrest x hx

theorem cancel_fits {c : OrderBook.CancelRequestView} {found : Option SimOrder}
    (h : ∀ o ∈ n.openOrders, Bounded o) (hfound : ∀ o, found = some o → o ∈ n.openOrders) :
    (∀ o ∈ (n.toNaive.cancel found c).openOrders, Bounded o) ∧
      ∀ x ∈ OrderBook.Naive.cancelMessages account found c, Fits x.message := by
  unfold OrderBook.Naive.cancel OrderBook.Naive.cancelMessages
  cases found with
  | none =>
    refine ⟨h, fun x hx => ?_⟩
    obtain rfl := List.mem_singleton.mp hx
    rfl
  | some o =>
    have ho := hfound o rfl
    dsimp only
    split_ifs with hle
    · refine ⟨h, fun x hx => ?_⟩
      obtain rfl := List.mem_singleton.mp hx
      rfl
    · constructor
      · obtain ⟨os, hos, hreduce⟩ := OrderBook.reduce_perm ho c.quantity
        intro y hy
        have hy := hreduce.mem_iff.mp hy
        have hmem : ∀ z ∈ os, Bounded z := fun z hz =>
          h z (hos.mem_iff.mpr (List.mem_cons_of_mem _ hz))
        split_ifs at hy with hzero
        · exact hmem y hy
        · rcases List.mem_cons.mp hy with rfl | hy
          · exact (h o ho).setQty (Nat.le_of_lt (Nat.lt_of_not_le hle))
          · exact hmem y hy
      · intro x hx
        obtain rfl := List.mem_singleton.mp hx
        exact fits_cancelled (Nat.lt_of_le_of_lt (Nat.sub_le ..) (h o ho).1) (by decide)

theorem process_fits {msg : OrderBook.InboundMessage} (h : ∀ o ∈ n.openOrders, Bounded o)
    (hsized : Sized msg.message) :
    (∀ o ∈ (n.process A msg).1.openOrders, Bounded o) ∧
      ∀ x ∈ (n.process A msg).2, Fits x.message := by
  unfold Indexed.process
  cases hm : msg.message with
  | enter order =>
    rw [hm] at hsized
    exact enter_fits h hsized
  | cancel c => exact cancel_fits h fun o ho => OrderBook.Indexed.mem_of_find ho
  | _ => exact ⟨h, fun x hx => by cases hx⟩

end Bounds

section Payloads

variable {B A : ℕ} {clock : ℕ → UInt64} {engine : Engine B A} {n : Indexed}
  {rs : List OrderBook.Resting} {free : List ℕ} {msg : InboundMessage}

def asked (msg : InboundMessage) : Option OrderBook.InboundMessage :=
  match request msg with
  | some (.enter order) => some ⟨msg.account, .enter order⟩
  | some (.cancel c) => some ⟨msg.account, .cancel c⟩
  | _ => none

/-- A payload of known type, whose request, if it is one, is admissible. -/
def Proper (B : ℕ) (msg : InboundMessage) : Prop :=
  (request msg = none → window msg.bytes 0 0 = Wire.AcceptResponseView.TYPE) ∧
    ∀ r, asked msg = some r → Admissible B r

instance (msg : InboundMessage) : Decidable (Proper B msg) :=
  inferInstanceAs (Decidable (_ ∧ ∀ r ∈ asked msg, Admissible B r))

def answer (A : ℕ) (n : Indexed) (msg : InboundMessage) :
    Indexed × List OrderBook.OutboundMessage :=
  match asked msg with
  | some r => n.process A r
  | none => (n, [])

/-- The answer that a client reads off the bytes sent for a payload. -/
def readMessage (msg : Wire.OutboundMessage) : Option OrderBook.OutboundMessage :=
  (msg.wire.bind read).map fun message => ⟨msg.account, message⟩

theorem asked_sized {r : OrderBook.InboundMessage} (h : asked msg = some r) :
    Sized r.message := by
  unfold asked request at h
  cases hdecode : Wire.decode msg.bytes with
  | none =>
    rw [hdecode] at h
    cases h
  | some message =>
    rw [hdecode] at h
    cases message with
    | enter v =>
      obtain rfl := Option.some.inj h
      exact ⟨UInt32.toNat_lt _, UInt64.toNat_lt _⟩
    | cancel v =>
      obtain rfl := Option.some.inj h
      trivial
    | _ => cases h

def Carries (msg : Wire.OutboundMessage) (answer : OrderBook.OutboundMessage) : Prop :=
  Fits answer.message ∧ ∃ stamp r, respond stamp answer.message = some r ∧
    msg = r.publish answer.account

theorem Carries.read {msg : Wire.OutboundMessage} {answer : OrderBook.OutboundMessage}
    (h : Carries msg answer) : readMessage msg = some answer := by
  obtain ⟨hfits, stamp, r, hr, rfl⟩ := h
  obtain ⟨r', hr', hread⟩ := read_respond hfits stamp
  obtain rfl : r = r' := Option.some.inj (hr.symm.trans hr')
  have haccount : (r.publish answer.account).account = answer.account := by cases r <;> rfl
  rw [readMessage, r.wire_publish, Option.bind_some, hread, haccount]
  rfl

theorem map_readMessage {out : List Wire.OutboundMessage}
    {answers : List OrderBook.OutboundMessage} (h : List.Forall₂ Carries out answers) :
    out.map readMessage = answers.map some := by
  induction h with
  | nil => rfl
  | cons hfirst _ ih => rw [List.map_cons, List.map_cons, hfirst.read, ih]

theorem carries_payloads {k : ℕ} {answers : List OrderBook.OutboundMessage}
    (h : ∀ x ∈ answers, Fits x.message) :
    List.Forall₂ Carries (payloads clock k answers) answers := by
  unfold payloads
  induction answers generalizing k with
  | nil => exact .nil
  | cons x answers ih =>
    have hx := h x (List.mem_cons_self ..)
    obtain ⟨r, hr, -⟩ := read_respond hx (clock k)
    rw [List.zipIdx_cons, List.filterMap_cons, hr]
    exact .cons ⟨hx, _, r, hr, rfl⟩ (ih fun y hy => h y (List.mem_cons_of_mem _ hy))

/-- The engine on payloads is in step with the indexed matcher. -/
structure InStep (engine : Engine B A) (n : Indexed) : Prop where
  agrees : ∃ rs free, Agrees engine n rs free
  bounded : ∀ o ∈ n.openOrders, Bounded o

theorem inStep_init (hA : 0 < A) : InStep ({} : Engine B A) {} :=
  ⟨⟨[], _, OrderBook.agrees_init hA⟩, nofun⟩

theorem process_some {message : OrderBook.UOUCHMessage} {engine' : Engine B A}
    {answers : List OrderBook.OutboundMessage} (hrequest : request msg = some message)
    (hrun : Engine.process ⟨msg.account, message⟩ engine = .ok (⟨⟩, engine'))
    (hout : engine'.outgoingQueue = engine.outgoingQueue ++ answers) :
    process clock engine msg =
      some (engine', payloads clock engine.outgoingQueue.length answers) := by
  unfold process
  rw [hrequest]
  simp only [hrun, hout, List.drop_left]

variable (clock) in
theorem InStep.process (h : InStep engine n) (hmsg : Proper B msg) :
    ∃ engine' out, process clock engine msg = some (engine', out) ∧
      InStep engine' (answer A n msg).1 ∧ List.Forall₂ Carries out (answer A n msg).2 := by
  obtain ⟨⟨rs, free, hagrees⟩, hbounded⟩ := h
  obtain ⟨hknown, hadmissible⟩ := hmsg
  have hact : ∀ r, asked msg = some r → request msg = some r.message → r.account = msg.account →
      ∃ engine' out, Trading.process clock engine msg = some (engine', out) ∧
        InStep engine' (n.process A r).1 ∧ List.Forall₂ Carries out (n.process A r).2 := by
    rintro ⟨account, message⟩ hr hrequest rfl
    obtain ⟨engine', rs', free', hrun, hagrees', hout⟩ :=
      OrderBook.process_run _ hagrees (hadmissible _ hr)
    obtain ⟨hbounded', hfits⟩ := process_fits (A := A) hbounded (asked_sized hr)
    exact ⟨engine', _, process_some hrequest hrun hout, ⟨⟨rs', free', hagrees'⟩, hbounded'⟩,
      carries_payloads hfits⟩
  -- what is not a request leaves the engine as it is
  have hskip : ∀ message, request msg = some message →
      Engine.process ⟨msg.account, message⟩ engine = .ok (⟨⟩, engine) →
      ∃ engine' out, Trading.process clock engine msg = some (engine', out) ∧
        InStep engine' n ∧ List.Forall₂ Carries out [] := by
    intro message hrequest hrun
    exact ⟨engine, _, process_some hrequest hrun (List.append_nil _).symm,
      ⟨⟨rs, free, hagrees⟩, hbounded⟩, .nil⟩
  unfold answer
  cases hrequest : request msg with
  | none =>
    have hasked : asked msg = none := by
      unfold asked
      rw [hrequest]
    rw [hasked]
    refine ⟨engine, [], ?_, ⟨⟨rs, free, hagrees⟩, hbounded⟩, .nil⟩
    unfold Trading.process
    rw [hrequest]
    exact if_pos (hknown hrequest)
  | some message =>
    cases message with
    | enter order =>
      have hasked : asked msg = some ⟨msg.account, .enter order⟩ := by
        unfold asked
        rw [hrequest]
      rw [hasked]
      exact hact _ hasked hrequest rfl
    | cancel c =>
      have hasked : asked msg = some ⟨msg.account, .cancel c⟩ := by
        unfold asked
        rw [hrequest]
      rw [hasked]
      exact hact _ hasked hrequest rfl
    | _ =>
      have hasked : asked msg = none := by
        unfold asked
        rw [hrequest]
      rw [hasked]
      exact hskip _ hrequest rfl

end Payloads

end LowLevel.Trading
