import LowLevel.Foundations.Awaiting
import LowLevel.OrderBook.Accounts
import LowLevel.Trading.Flow

/-! # The closed loop of the benchmark

One client sends a request and waits until its acknowledgement is read, and only
then the next request is sent. Between two requests a client may have more to
read than the acknowledgement, such as its share of the trades of others. The
loop never takes an old answer for a new one and never waits for one that does
not come, however the streams of the clients are cut into chunks.
-/

namespace LowLevel.Trading

open OrderBook (Engine Indexed Admissible)
open Exchange (wanted Whole wires Says answersTo answerKey front)
open FlowGenerator (Acked TakenFor)
open Wire (Response)

/-- The type bytes and the number by which an acknowledgement is known. -/
structure ExpectedAck where
  type : UInt8
  alternativeType : UInt8
  userRefNum : UInt32

namespace ExpectedAck

def awaited (expected : ExpectedAck) (response : UInt8 × UInt32) : Bool :=
  (response.1 = expected.type ∨ response.1 = expected.alternativeType) ∧
    response.2 = expected.userRefNum

/-- The type and the number of the acknowledgement of a request that is served. -/
def key (expected : ExpectedAck) : UInt8 × UInt32 := (expected.type, expected.userRefNum)

end ExpectedAck

def expectedAck (message : Network.InboundMessage) : ExpectedAck :=
  if message.bytes.head? = some Wire.CancelRequestView.TYPE then
    ⟨Wire.CancelledResponseView.TYPE, Wire.CancelRejectResponseView.TYPE,
      Wire.CancelRequestView.userRefNum ⟨front message _⟩⟩
  else ⟨Wire.AcceptResponseView.TYPE, 0, Wire.EnterRequestView.userRefNum ⟨front message _⟩⟩

def messageSize (message : Network.InboundMessage) : ℕ :=
  if message.bytes.head? = some Wire.CancelRequestView.TYPE then Wire.CancelRequestView.WIRE_SIZE
  else Wire.EnterRequestView.WIRE_SIZE

abbrev ResponseReader := Reassembly.Receiver UInt8 (UInt8 × UInt32)

/-- How much each call of `recv` returns around a request, and what stands in the payload of the
exchange behind its bytes. -/
structure Arrivals where
  before : List ℕ
  wait : List ℕ
  after : List ℕ
  rest : Vector UInt8 inSize

/-- The clients and the exchange: what was sent to an account and not received yet, the readers of
the clients, and the responses on which they stopped waiting. -/
structure Session (B A : ℕ) where
  engine : Engine B A := {}
  sockets : Int32 → List UInt8 := fun _ => []
  readers : ℕ → ResponseReader := fun _ => {}
  acks : List (ℕ × UInt8 × UInt32) := []

namespace Session

section Loop

variable {B A : ℕ} (clock : ℕ → UInt64) (accounts : ℕ → UInt32) (s : Session B A) (client : ℕ)

def send (message : Network.InboundMessage) (rest : Vector UInt8 inSize) :
    Option (Session B A) :=
  (process clock s.engine (payload ⟨accounts client,
    message.bytes.take (messageSize message)⟩ rest)).map fun (engine, out) =>
      { s with engine, sockets := fun fd => s.sockets fd ++ wires fd out }

/-- The socket and the reader of a client, after some bytes were received. -/
def received (reader : ResponseReader) (socket : List UInt8) : Session B A :=
  { s with
    readers := Function.update s.readers client reader
    sockets := Function.update s.sockets (accounts client).toInt32 socket }

def waitForAck (expected : ExpectedAck) (sizes : List ℕ) : Option (Session B A) :=
  let socket := s.sockets (accounts client).toInt32
  match (s.readers client).await Wire.ResponseReader.popResponse .nonTermination 1024
      expected.awaited (socket.length + 1) sizes socket with
  | .ok (some (reader, socket)) => some
    { s.received accounts client reader socket with
      acks := s.acks ++ reader.popped.getLast?.toList.map (client, ·) }
  | _ => none

def sendAndWaitForAck (message : Network.InboundMessage) (arrivals : Arrivals) :
    Option (Session B A) :=
  (s.send clock accounts client message arrivals.rest).bind fun s =>
    s.waitForAck accounts client (expectedAck message) arrivals.wait

def drainAvailable (sizes : List ℕ) : Option (Session B A) :=
  match (s.readers client).drainAvailable Wire.ResponseReader.popResponse .nonTermination 1024
      sizes (s.sockets (accounts client).toInt32) with
  | .ok (reader, socket) => some (s.received accounts client reader socket)
  | .error _ => none

def warmRound (order : Order) (arrivals : Arrivals) : Option (Session B A) := do
  let s ← s.sendAndWaitForAck clock accounts order.2 order.1 arrivals
  s.drainAvailable accounts order.2 arrivals.after

def benchRound (order : Order) (arrivals : Arrivals) : Option (Session B A) := do
  let s ← s.drainAvailable accounts order.2 arrivals.before
  let s ← s.sendAndWaitForAck clock accounts order.2 order.1 arrivals
  s.drainAvailable accounts order.2 arrivals.after

def run (warmBook benchOrders : List (Order × Arrivals)) : Option (Session B A) := do
  let s ← warmBook.foldlM (fun s (order, arrivals) => s.warmRound clock accounts order arrivals) s
  benchOrders.foldlM (fun s (order, arrivals) => s.benchRound clock accounts order arrivals) s

end Loop

end Session

section Requests

variable {accounts : ℕ → UInt32} {order : Order} {req : OrderBook.InboundMessage}

/-- The exchange reads a request off the message that a client sends. -/
structure Sends (accounts : ℕ → UInt32) (order : Order) (req : OrderBook.InboundMessage) :
    Prop where
  client : order.2 < CLIENT_NO
  whole : Whole order.1
  request : wanted ⟨accounts order.2, order.1.bytes⟩ = some req

theorem Sends.take_bytes (h : Sends accounts order req) :
    order.1.bytes.take (messageSize order.1) = order.1.bytes := by
  rw [List.take_eq_self_iff]
  unfold messageSize
  rcases h.whole with ⟨hhead, hlen⟩ | ⟨hhead, hlen⟩
  · rw [hhead, if_neg (by decide)]
    exact Nat.le_of_eq hlen
  · rw [hhead, if_pos rfl]
    exact Nat.le_of_eq hlen

theorem Sends.cases (h : Sends accounts order req) :
    (∃ v, req = ⟨accounts order.2, .enter v⟩ ∧
      expectedAck order.1 = ⟨Wire.AcceptResponseView.TYPE, 0, v.userRefNum⟩) ∨
    ∃ v, req = ⟨accounts order.2, .cancel v⟩ ∧ expectedAck order.1 =
      ⟨Wire.CancelledResponseView.TYPE, Wire.CancelRejectResponseView.TYPE, v.userRefNum⟩ := by
  have hrequest := h.request
  unfold wanted asked at hrequest
  unfold expectedAck
  rcases h.whole with ⟨hhead, hlen⟩ | ⟨hhead, hlen⟩
  · left
    rw [Exchange.request_enter ⟨accounts order.2, order.1.bytes⟩ _ hhead hlen] at hrequest
    obtain rfl := Option.some.inj hrequest
    rw [hhead, if_neg (by decide)]
    exact ⟨_, rfl, rfl⟩
  · right
    rw [Exchange.request_cancel ⟨accounts order.2, order.1.bytes⟩ _ hhead hlen] at hrequest
    obtain rfl := Option.some.inj hrequest
    rw [hhead, if_pos rfl]
    exact ⟨_, rfl, rfl⟩

theorem Sends.whole_sent (h : Sends accounts order req) :
    Whole ⟨accounts order.2, order.1.bytes⟩ := h.whole

theorem Sends.asked (h : Sends accounts order req) (rest : Vector UInt8 inSize) :
    asked (payload ⟨accounts order.2, order.1.bytes⟩ rest) = some req :=
  (Exchange.asked_whole h.whole_sent ⟨rest, rfl⟩).trans h.request

theorem Sends.proper {B : ℕ} (h : Sends accounts order req) (hadmissible : Admissible B req)
    (rest : Vector UInt8 inSize) : Proper B (payload ⟨accounts order.2, order.1.bytes⟩ rest) := by
  refine Exchange.Serviceable.proper ⟨h.whole_sent, ?_⟩ ⟨rest, rfl⟩
  intro r hr
  obtain rfl := Option.some.inj (h.request.symm.trans hr)
  exact hadmissible

theorem Sends.ack (h : Sends accounts order req) {answers : List OrderBook.OutboundMessage}
    (hacked : Acked req answers) : ∃ ack later, answers = ack :: later ∧
      ack.account = accounts order.2 ∧ answerKey ack = (expectedAck order.1).key ∧
      (expectedAck order.1).awaited (answerKey ack) = true := by
  rcases h.cases with ⟨v, rfl, hexpected⟩ | ⟨v, rfl, hexpected⟩
  · obtain ⟨id, later, rfl, -⟩ := hacked
    rw [hexpected]
    exact ⟨_, later, rfl, rfl, rfl, by simp [ExpectedAck.awaited, answerKey, Engine.accepted]⟩
  · obtain ⟨qty, -, rfl⟩ := hacked
    rw [hexpected]
    exact ⟨_, [], rfl, rfl, rfl, by simp [ExpectedAck.awaited, answerKey, OrderBook.cancelled]⟩

theorem Sends.not_awaited (h : Sends accounts order req) {a : OrderBook.OutboundMessage}
    (haccount : a.account = accounts order.2) (ha : ¬ TakenFor req a) :
    (expectedAck order.1).awaited (answerKey a) = false := by
  obtain ⟨account, message⟩ := a
  obtain rfl := haccount
  apply Bool.eq_false_iff.mpr
  intro hawaited
  apply ha
  obtain ⟨htype, hnumber⟩ := of_decide_eq_true hawaited
  rcases h.cases with ⟨v, rfl, hexpected⟩ | ⟨v, rfl, hexpected⟩
  · rw [hexpected] at htype hnumber
    refine ⟨rfl, ?_⟩
    cases message with
    | accept w => exact hnumber
    | _ =>
      simp only [answerKey] at htype
      exact absurd htype (by decide)
  · rw [hexpected] at htype hnumber
    refine ⟨rfl, ?_⟩
    cases message with
    | cancelled w => exact hnumber
    | cancelReject w => exact hnumber
    | _ =>
      simp only [answerKey] at htype
      exact absurd htype (by decide)

end Requests

namespace Session

section Rounds

open Wire.Response

variable {B A : ℕ} {clock : ℕ → UInt64} {accounts : ℕ → UInt32} {s : Session B A}
  {reqs : List OrderBook.InboundMessage} {req : OrderBook.InboundMessage} {order : Order}
  {client : ℕ} {sizes : List ℕ}

abbrev fd (accounts : ℕ → UInt32) (client : ℕ) : Int32 := (accounts client).toInt32

/-- The engine has answered some requests, and every client has read a beginning of the answers to
it, of which the rest is on its way. -/
structure Inv (accounts : ℕ → UInt32) (reqs : List OrderBook.InboundMessage) (s : Session B A) :
    Prop where
  engine : InStep s.engine (Indexed.run A {} reqs)
  pending : ∀ client < CLIENT_NO, SelfDelimiting.Pending bytes key
    ((answersTo (fd accounts client) (Indexed.outputs A {} reqs).flatten).map answerKey)
    (s.readers client) (s.sockets (fd accounts client))

variable (accounts) in
theorem inv_init (hA : 0 < A) : Inv accounts [] ({} : Session B A) :=
  ⟨inStep_init hA, fun _ _ => ⟨[], rfl, rfl⟩⟩

theorem fd_inj (haccounts : Set.InjOn accounts (Set.Iio CLIENT_NO)) {client' : ℕ}
    (hclient : client < CLIENT_NO) (hclient' : client' < CLIENT_NO)
    (h : fd accounts client = fd accounts client') : client = client' := by
  apply haccounts hclient hclient'
  have hfd := congrArg Int32.toUInt32 h
  rwa [UInt32.toUInt32_toInt32, UInt32.toUInt32_toInt32] at hfd

theorem Inv.received (h : Inv accounts reqs s)
    (haccounts : Set.InjOn accounts (Set.Iio CLIENT_NO)) (hclient : client < CLIENT_NO)
    {reader : ResponseReader} {socket : List UInt8}
    (hpending : SelfDelimiting.Pending bytes key
      ((answersTo (fd accounts client) (Indexed.outputs A {} reqs).flatten).map answerKey)
      reader socket) (acks : List (ℕ × UInt8 × UInt32)) :
    Inv accounts reqs { s.received accounts client reader socket with acks } := by
  refine ⟨h.engine, ?_⟩
  intro client' hclient'
  change SelfDelimiting.Pending _ _ _ (Function.update s.readers client reader client')
    (Function.update s.sockets (fd accounts client) socket (fd accounts client'))
  rcases eq_or_ne client' client with rfl | hne
  · rw [Function.update_self, Function.update_self]
    exact hpending
  · rw [Function.update_of_ne hne, Function.update_of_ne]
    · exact h.pending client' hclient'
    · exact fun hfd => hne (fd_inj haccounts hclient' hclient hfd)

theorem Inv.drainAvailable (h : Inv accounts reqs s)
    (haccounts : Set.InjOn accounts (Set.Iio CLIENT_NO)) (hclient : client < CLIENT_NO)
    (sizes : List ℕ) : ∃ s', s.drainAvailable accounts client sizes = some s' ∧
      Inv accounts reqs s' ∧ s'.acks = s.acks := by
  obtain ⟨reader, socket, hdrain, hpending⟩ := selfDelimiting.drainAvailable_pending
    .nonTermination 1024 sizes (h.pending client hclient)
  refine ⟨_, ?_, h.received haccounts hclient hpending s.acks, rfl⟩
  unfold Session.drainAvailable
  rw [hdrain]
  rfl

theorem pending_send {out : List Wire.OutboundMessage}
    {past answers : List OrderBook.OutboundMessage}
    {reader : ResponseReader} {socket : List UInt8} (fd : Int32)
    (hcarries : List.Forall₂ Carries out answers)
    (h : SelfDelimiting.Pending bytes key ((answersTo fd past).map answerKey) reader socket) :
    ∃ rest rs : List Response, List.Forall₂ Says rs (answersTo fd answers) ∧
      reader.buffered ++ (socket ++ wires fd out) = (rest ++ rs).flatMap bytes ∧
      reader.popped ++ rest.map key = (answersTo fd past).map answerKey := by
  obtain ⟨rest, heq, hall⟩ := h
  obtain ⟨rs, hwires, hsaid⟩ := Exchange.wires_responses fd hcarries
  refine ⟨rest, rs, hsaid, ?_, hall⟩
  rw [← List.append_assoc, heq, hwires, List.flatMap_append]

theorem answersTo_append (fd : Int32) (past answers : List OrderBook.OutboundMessage) :
    answersTo fd (past ++ answers) = answersTo fd past ++ answersTo fd answers :=
  List.filter_append ..

theorem outputs_flatten_snoc (reqs : List OrderBook.InboundMessage)
    (req : OrderBook.InboundMessage) :
    (Indexed.outputs A {} (reqs ++ [req])).flatten =
      (Indexed.outputs A {} reqs).flatten ++ ((Indexed.run A {} reqs).process A req).2 := by
  rw [FlowGenerator.outputs_snoc, List.flatten_append, List.flatten_singleton]

/-- The answers to a request go to the sockets behind those that nobody has read yet. -/
theorem Inv.sent (h : Inv accounts reqs s) {engine : Engine B A}
    {out : List Wire.OutboundMessage}
    (hengine : InStep engine ((Indexed.run A {} reqs).process A req).1)
    (hcarries : List.Forall₂ Carries out ((Indexed.run A {} reqs).process A req).2) :
    Inv accounts (reqs ++ [req])
      { s with engine, sockets := fun fd => s.sockets fd ++ wires fd out } := by
  constructor
  case engine =>
    rw [FlowGenerator.run_snoc]
    exact hengine
  case pending =>
    intro client hclient
    obtain ⟨rest, rs, hsaid, heq, hall⟩ := pending_send _ hcarries (h.pending client hclient)
    refine ⟨rest ++ rs, heq, ?_⟩
    rw [outputs_flatten_snoc, answersTo_append, List.map_append, List.map_append,
      ← List.append_assoc, hall, Exchange.said_keys hsaid]

/-- No answer of the past, read or not, is taken for the acknowledgement of the request. -/
theorem old_not_awaited (h : Sends accounts order req)
    (hunmistaken : ∀ a ∈ (Indexed.outputs A {} reqs).flatten, ¬ TakenFor req a)
    {k : UInt8 × UInt32} (hk : k ∈ (answersTo (fd accounts order.2)
      (Indexed.outputs A {} reqs).flatten).map answerKey) :
    (expectedAck order.1).awaited k = false := by
  obtain ⟨a, ha, rfl⟩ := List.mem_map.mp hk
  obtain ⟨ha, hfd⟩ := List.mem_filter.mp ha
  have hto := congrArg Int32.toUInt32 (of_decide_eq_true hfd)
  rw [UInt32.toUInt32_toInt32, UInt32.toUInt32_toInt32] at hto
  exact h.not_awaited hto (hunmistaken a ha)

variable (clock) in
/-- The wait ends with the answer to the request, and nothing behind it is lost. -/
theorem Inv.sendAndWaitForAck (h : Inv accounts reqs s)
    (haccounts : Set.InjOn accounts (Set.Iio CLIENT_NO)) (hsends : Sends accounts order req)
    (hadmissible : Admissible B req)
    (hacked : Acked req ((Indexed.run A {} reqs).process A req).2)
    (hunmistaken : ∀ a ∈ (Indexed.outputs A {} reqs).flatten, ¬ TakenFor req a)
    (arrivals : Arrivals) :
    ∃ s', s.sendAndWaitForAck clock accounts order.2 order.1 arrivals = some s' ∧
      Inv accounts (reqs ++ [req]) s' ∧
      s'.acks = s.acks ++ [(order.2, (expectedAck order.1).key)] := by
  obtain ⟨engine, out, hprocess, hengine, hcarries⟩ := h.engine.process clock
    (hsends.proper hadmissible arrivals.rest)
  unfold answer at hengine hcarries
  rw [hsends.asked] at hengine hcarries
  obtain ⟨ack, later, hanswers, haccount, hkey, hawaited⟩ := hsends.ack hacked
  -- the client has not read some old answers, and then comes the awaited one
  obtain ⟨rest, rs, hsaid, heq, hall⟩ :=
    pending_send _ hcarries (h.pending order.2 hsends.client)
  have hfirst : answersTo (fd accounts order.2) (ack :: later) =
      ack :: answersTo (fd accounts order.2) later := by
    apply List.filter_cons_of_pos
    rw [haccount]
    exact decide_eq_true rfl
  rw [hanswers, hfirst] at hsaid
  obtain ⟨r, rs, hr, hlater, rfl⟩ := List.forall₂_cons_right_iff.mp hsaid
  have hold : ∀ x ∈ rest, (expectedAck order.1).awaited (key x) = false := by
    intro x hx
    apply old_not_awaited hsends hunmistaken
    rw [← hall]
    exact List.mem_append_right _ (List.mem_map_of_mem hx)
  have hlimit : 0 < 1024 := by decide
  obtain ⟨reader, socket, hawait, hpopped, hrest⟩ := selfDelimiting.await_spec .nonTermination
    hlimit arrivals.wait (Nat.lt_succ_self _) heq hold (hr.2 ▸ hawaited)
  have hpending : SelfDelimiting.Pending bytes key ((answersTo (fd accounts order.2)
      (Indexed.outputs A {} (reqs ++ [req])).flatten).map answerKey) reader socket := by
    refine ⟨rs, hrest, ?_⟩
    rw [hpopped, hall, outputs_flatten_snoc, hanswers, answersTo_append, hfirst,
      List.map_append, List.map_cons, hr.2, Exchange.said_keys hlater, ← List.append_cons]
  refine ⟨_, ?_, (h.sent hengine hcarries).received haccounts hsends.client hpending
    (s.acks ++ [(order.2, (expectedAck order.1).key)]), rfl⟩
  unfold Session.sendAndWaitForAck send
  rw [hsends.take_bytes, hprocess]
  change Session.waitForAck _ _ _ _ _ = _
  unfold waitForAck
  dsimp only
  rw [hawait]
  dsimp only
  rw [hpopped, List.getLast?_concat, hr.2, hkey]
  rfl

/-- What a round does: the request is answered, and its client has read the acknowledgement. -/
def Rounds (accounts : ℕ → UInt32) (round : Session B A → Order → Arrivals → Option (Session B A)) :
    Prop :=
  ∀ {s : Session B A} {reqs : List OrderBook.InboundMessage} {req : OrderBook.InboundMessage}
    {order : Order}, Inv accounts reqs s → Sends accounts order req → Admissible B req →
    Acked req ((Indexed.run A {} reqs).process A req).2 →
    (∀ a ∈ (Indexed.outputs A {} reqs).flatten, ¬ TakenFor req a) → ∀ arrivals,
      ∃ s', round s order arrivals = some s' ∧ Inv accounts (reqs ++ [req]) s' ∧
        s'.acks = s.acks ++ [(order.2, (expectedAck order.1).key)]

/-- Requests whose acknowledgements can be waited for one after the other. -/
structure Awaitable (B A : ℕ) (reqs : List OrderBook.InboundMessage) : Prop where
  admissible : ∀ r ∈ reqs, Admissible B r
  acked : List.Forall₂ Acked reqs (Indexed.outputs A {} reqs)
  unmistaken : ∀ pre msg, pre ++ [msg] <+: reqs →
    ∀ a ∈ (Indexed.outputs A {} pre).flatten, ¬ TakenFor msg a

theorem Awaitable.ack {post : List OrderBook.InboundMessage}
    (h : Awaitable B A (reqs ++ req :: post)) :
    Acked req ((Indexed.run A {} reqs).process A req).2 := by
  have hacked := h.acked
  rw [OrderBook.outputs_append] at hacked
  have hlen : (Indexed.outputs A {} reqs).length = reqs.length := by
    have hall := hacked.length_eq
    have hpost (n : Indexed) (msgs : List OrderBook.InboundMessage) :
        (n.outputs A msgs).length = msgs.length := by
      induction msgs generalizing n with
      | nil => rfl
      | cons m msgs ih => rw [Indexed.outputs, List.length_cons, ih, List.length_cons]
    exact hpost {} reqs
  have hdrop := List.forall₂_drop reqs.length hacked
  rw [List.drop_left, ← hlen, List.drop_left] at hdrop
  exact (List.forall₂_cons.mp hdrop).1

theorem Inv.foldlM {round : Session B A → Order → Arrivals → Option (Session B A)}
    (hround : Rounds accounts round) (h : Inv accounts reqs s) (orders : List (Order × Arrivals))
    {more post : List OrderBook.InboundMessage}
    (hsends : List.Forall₂ (Sends accounts) (orders.map Prod.fst) more)
    (hreqs : Awaitable B A (reqs ++ more ++ post)) :
    ∃ s', orders.foldlM (fun s (order, arrivals) => round s order arrivals) s = some s' ∧
      Inv accounts (reqs ++ more) s' ∧
      s'.acks = s.acks ++ orders.map fun o => (o.1.2, (expectedAck o.1.1).key) := by
  induction orders generalizing s reqs more with
  | nil =>
    obtain rfl := List.forall₂_nil_left_iff.mp hsends
    refine ⟨s, rfl, ?_, (List.append_nil _).symm⟩
    rw [List.append_nil]
    exact h
  | cons o orders ih =>
    obtain ⟨order, arrivals⟩ := o
    obtain ⟨req, more, hfirst, hlater, rfl⟩ := List.forall₂_cons_left_iff.mp hsends
    rw [List.append_assoc, List.cons_append] at hreqs
    obtain ⟨s₁, hstep, h₁, hacks₁⟩ := hround h hfirst
      (hreqs.admissible req (List.mem_append_right _ (List.mem_cons_self ..))) hreqs.ack
      (hreqs.unmistaken reqs req ⟨more ++ post, by rw [← List.append_cons]⟩) arrivals
    rw [List.append_cons reqs req (more ++ post), ← List.append_assoc] at hreqs
    obtain ⟨s', hrun, h', hacks'⟩ := ih h₁ hlater hreqs
    refine ⟨s', ?_, ?_, ?_⟩
    · rw [List.foldlM_cons]
      exact Option.bind_eq_some_iff.mpr ⟨s₁, hstep, hrun⟩
    · rw [List.append_cons]
      exact h'
    · rw [hacks', hacks₁, List.map_cons, ← List.append_cons]

end Rounds

section Accounts

variable {B A : ℕ} {accounts : ℕ → UInt32} {reqs : List OrderBook.InboundMessage}
  {π : Equiv.Perm UInt32}

theorem acked_rename {req : OrderBook.InboundMessage} {answers : List OrderBook.OutboundMessage}
    (h : Acked req answers) :
    Acked (req.rename π) (answers.map (OrderBook.OutboundMessage.rename π)) := by
  obtain ⟨account, message⟩ := req
  cases message with
  | enter order =>
    obtain ⟨id, later, rfl, hlater⟩ := h
    refine ⟨id, later.map (OrderBook.OutboundMessage.rename π), rfl, ?_⟩
    intro a ha
    obtain ⟨a', ha', rfl⟩ := List.mem_map.mp ha
    rcases hlater a' ha' with hexecuted | ⟨hmarket, qty, rfl⟩
    · exact Or.inl hexecuted
    · exact Or.inr ⟨hmarket, qty, rfl⟩
  | cancel c =>
    obtain ⟨qty, hqty, rfl⟩ := h
    exact ⟨qty, hqty, rfl⟩
  | _ => exact h.elim

theorem takenFor_rename {req : OrderBook.InboundMessage} {a : OrderBook.OutboundMessage}
    (h : TakenFor (req.rename π) (a.rename π)) : TakenFor req a :=
  ⟨π.injective h.1, h.2⟩

theorem Awaitable.rename (h : Awaitable B A reqs) (π : Equiv.Perm UInt32) :
    Awaitable B A (reqs.map (OrderBook.InboundMessage.rename π)) := by
  have houts (msgs : List OrderBook.InboundMessage) :
      Indexed.outputs A {} (msgs.map (OrderBook.InboundMessage.rename π)) =
        (Indexed.outputs A {} msgs).map (List.map (OrderBook.OutboundMessage.rename π)) :=
    (OrderBook.run_rename π {} msgs).2
  constructor
  case admissible =>
    rw [List.forall_mem_map]
    exact fun r hr => (OrderBook.rename_admissible π).mpr (h.admissible r hr)
  case acked =>
    rw [houts, List.forall₂_map_left_iff, List.forall₂_map_right_iff]
    exact h.acked.imp fun _ _ => acked_rename
  case unmistaken =>
    intro pre msg hpre a ha htaken
    obtain ⟨l, hl, hsplit⟩ := List.prefix_map_iff.mp hpre
    obtain ⟨pre, last, rfl, rfl, hlast⟩ := List.map_eq_append_iff.mp hsplit.symm
    obtain ⟨msg, rfl, rfl⟩ := List.map_eq_singleton_iff.mp hlast
    rw [houts, ← List.map_flatten] at ha
    obtain ⟨a', ha', rfl⟩ := List.mem_map.mp ha
    exact h.unmistaken pre msg hl a' ha' (takenFor_rename htaken)

end Accounts

end Session

end LowLevel.Trading
