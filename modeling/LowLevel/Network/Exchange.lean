import LowLevel.Foundations.Machine
import LowLevel.OrderBook.Subjects

/-! # The exchange over the epoll device

The reader thread accepts clients and queues their messages, the engine thread
processes the queue, and the writer thread sends what the engine published. A
client is known to the engine by its descriptor only, which the kernel hands
out again once it is closed. Connections are numbered in the order in which
they were accepted, so that the number tells two clients of one descriptor
apart; the program itself has no such number.
-/

namespace LowLevel.Network

open OrderBook

abbrev Arrival := InboundMessage × ℕ

/-- `history` keeps the messages that the engine has processed and `written` those that were
sent, with the connection that had the descriptor at that moment. -/
structure Exchange (B A : ℕ) where
  clients : Int32 → Option ℕ := fun _ => none
  accepted : ℕ := 0
  queue : List Arrival := []
  engine : Engine B A := {}
  history : List Arrival := []
  written : List (OutboundMessage × Option ℕ) := []

namespace Exchange

variable {B A : ℕ}

inductive Event where
  | accept (clientFd : Int32)
  /-- The peer of a client has closed. -/
  | close (fd : Int32)
  | read (fd : Int32) (message : UOUCHMessage)
  deriving DecidableEq

/-- One ready descriptor. The kernel picks none that is in use, be it by a client or by the
process itself, whose descriptors are `own`. A client that cannot be registered is closed at
once, which leaves no trace. -/
def receiveMsg (own : Int32 → Bool) (x : Exchange B A) : Event → Option (Exchange B A)
  | .accept clientFd =>
    if 0 ≤ clientFd ∧ own clientFd = false ∧ x.clients clientFd = none then
      some { x with
        clients := Function.update x.clients clientFd (some x.accepted)
        accepted := x.accepted + 1 }
    else none
  | .close fd => do
    let _ ← x.clients fd
    return { x with clients := Function.update x.clients fd none }
  | .read fd message => do
    let connection ← x.clients fd
    return { x with queue := x.queue ++ [(⟨fd.toUInt32, message⟩, connection)] }

/-- The engine takes a message off the queue; it does not go on after a fault. -/
def process (x : Exchange B A) : Option (Exchange B A) :=
  match x.queue with
  | [] => none
  | arrival :: queue =>
    match Engine.process arrival.1 x.engine with
    | .ok (_, engine) => some { x with queue, engine, history := x.history ++ [arrival] }
    | .error _ => none

def sendMsg (x : Exchange B A) : Option (Exchange B A) := do
  let message ← x.engine.outgoingQueue[x.written.length]?
  return { x with written := x.written ++ [(message, x.clients message.account.toInt32)] }

inductive Action where
  | receive (event : Event)
  | process
  | send
  deriving DecidableEq

def step (own : Int32 → Bool) (x : Exchange B A) : Action → Option (Exchange B A)
  | .receive event => x.receiveMsg own event
  | .process => x.process
  | .send => x.sendMsg

def machine (B A : ℕ) (own : Int32 → Bool) : Machine (Exchange B A) Action := ⟨{}, step own⟩

section Ownership

def matcher (A : ℕ) (history : List Arrival) : Indexed :=
  Indexed.run A {} (history.map Prod.fst)

def reports (A : ℕ) (history : List Arrival) : List (OutboundMessage × Option ℕ) :=
  Indexed.reports A {} (history.map Prod.fst)

def entrant (history : List Arrival) (seq : ℕ) : Option ℕ :=
  (history.filter (isEnter ·.1))[seq]?.map Prod.snd

/-- The engine holds the orders of the matcher and has published its answers. -/
structure Follows (x : Exchange B A) : Prop where
  agrees : ∃ rs free, Agrees x.engine (matcher A x.history) rs free
  published : (reports A x.history).map Prod.fst = x.engine.outgoingQueue
  written : x.written.map Prod.fst <+: x.engine.outgoingQueue

structure Owned (x : Exchange B A) : Prop where
  /-- A cancel request that changed an order arrived on the connection that entered it. -/
  cancels : ∀ before msg connection after cancel o,
    x.history = before ++ (msg, connection) :: after → msg.message = .cancel cancel →
    (matcher A before).find (orderKey msg.account cancel.userRefNum) = some o →
    cancel.quantity < o.remainingQty → entrant x.history o.arrivalSequence = some connection
  /-- A notice that was written to a connection is about an order entered there. -/
  notices : ∀ (k : ℕ) (message : OutboundMessage) (connection : ℕ),
    x.written[k]? = some (message, some connection) → message.isNotice = true →
    ∃ seq, (reports A x.history)[k]? = some (message, some seq) ∧
      entrant x.history seq = some connection

/-- No order of an account rests, waits to enter or is owed a notice. -/
def settled (x : Exchange B A) (account : UInt32) : Bool :=
  x.engine.resting.all (fun c => c.2.openOrder.account ≠ account) &&
  x.queue.all (fun arrival => !(isEnter arrival.1 && arrival.1.account = account)) &&
  (x.engine.outgoingQueue.drop x.written.length).all
    fun message => !(message.isNotice && message.account = account)

/-- A descriptor is handed out again only when the orders entered under it are settled. -/
def settledFirst (x : Exchange B A) : Action → Bool
  | .receive (.accept clientFd) => x.settled clientFd.toUInt32
  | _ => true

end Ownership

end Exchange

end LowLevel.Network
