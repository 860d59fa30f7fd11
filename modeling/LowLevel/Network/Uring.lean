import LowLevel.Foundations.Machine
import LowLevel.Wire.Stream

/-! # The io_uring network device

Every operation on a socket is a request that the device hands to the kernel and
gets back with a result. The writer thread calls `sendMsg`; the reader thread
takes one completion at a time in `receiveMsg`. Both hold the submission mutex,
which the reader gives up while it enqueues a message, so that part is a step of
its own. The kernel completes any submitted request next, and completions may be
handled in any order.
-/

namespace LowLevel.Network

open Wire

abbrev kMaxReqSize : ℕ := max EnterRequestView.WIRE_SIZE CancelRequestView.WIRE_SIZE

/-- What was read from a connection, with the account of the connection; the bytes of the fixed
payload that were not read are left out. -/
structure InboundMessage where
  account : UInt32
  bytes : List UInt8
  deriving DecidableEq

inductive EventType where
  | accept
  | read
  | write
  deriving DecidableEq

structure Request where
  addr : ℕ
  type : EventType
  clientFd : Int32 := -1
  listenFd : Int32 := -1
  buf : List UInt8 := []
  deriving DecidableEq

/-- A submission: a request with the length of the buffer to receive into or to send. -/
structure Sqe where
  req : Request
  len : ℕ := 0
  deriving DecidableEq

structure Cqe where
  req : Request
  res : Int32
  deriving DecidableEq

/-- The reader thread waits for a completion, or holds a read request while it enqueues. -/
inductive Reader where
  | waiting
  | enqueuing (req : Request) (msg : InboundMessage)
  deriving DecidableEq

/-- The device, the kernel's side of its ring, and the bytes delivered to each client. Requests are
allocated at fresh addresses; `freed` records the deleted ones. -/
structure NetworkDeviceIOUring where
  queue : List InboundMessage := []
  inflightRequests : List ℕ := []
  fresh : ℕ := 0
  freed : List ℕ := []
  reader : Reader := .waiting
  claimed : List Sqe := []
  submitted : List Sqe := []
  completed : List Cqe := []
  streams : Int32 → List UInt8 := fun _ => []

namespace NetworkDeviceIOUring

variable (d : NetworkDeviceIOUring)

def claimSqe (req : Request) (len : ℕ) : NetworkDeviceIOUring := { d with
  claimed := d.claimed ++ [⟨req, len⟩]
  inflightRequests := d.inflightRequests.insert req.addr }

def queueAccept (listenFd : Int32) : NetworkDeviceIOUring :=
  { d with fresh := d.fresh + 1 }.claimSqe { addr := d.fresh, type := .accept, listenFd } 0

def queueRead (clientFd : Int32) : NetworkDeviceIOUring :=
  { d with fresh := d.fresh + 1 }.claimSqe
    { addr := d.fresh, type := .read, clientFd, buf := List.replicate kMaxReqSize 0 } kMaxReqSize

def queueWrite (req : Request) (len : ℕ) : NetworkDeviceIOUring :=
  d.claimSqe { req with type := .write } len

def submit : NetworkDeviceIOUring :=
  { d with submitted := d.submitted ++ d.claimed, claimed := [] }

def delete (req : Request) : NetworkDeviceIOUring := { d with freed := req.addr :: d.freed }

/-- The device with a pending accept on each listening socket. -/
def init (listeningFds : List Int32) : NetworkDeviceIOUring :=
  (listeningFds.foldl queueAccept {}).submit

/-- What is done with a request that is no longer in flight. -/
def handle (req : Request) (res : Int32) : NetworkDeviceIOUring :=
  if res < 0 then
    match req.type with
    | .accept => ((d.queueAccept req.listenFd).submit).delete req
    | _ => d.delete req
  else
    match req.type with
    | .accept => (((d.queueAccept req.listenFd).queueRead res).submit).delete req
    | .read =>
      if res = 0 then d.delete req
      else { d with
        reader := .enqueuing req ⟨req.clientFd.toUInt32, req.buf.take res.toNatClampNeg⟩ }
    | .write =>
      if res = 0 then d.delete req
      else if res.toNatClampNeg < req.buf.length then
        let req := { req with buf := req.buf.drop res.toNatClampNeg }
        (d.queueWrite req req.buf.length).submit
      else d.delete req

def receiveMsg (i : ℕ) : Option NetworkDeviceIOUring :=
  match d.reader, d.completed[i]? with
  | .waiting, some cqe => some <|
    { d with
      completed := d.completed.eraseIdx i
      inflightRequests := d.inflightRequests.erase cqe.req.addr }.handle cqe.req cqe.res
  | _, _ => none

def enqueued : Option NetworkDeviceIOUring :=
  match d.reader with
  | .waiting => none
  | .enqueuing req msg => some <|
    (({ d with reader := .waiting, queue := d.queue ++ [msg] }.queueRead
      req.clientFd).submit).delete req

def sendMsg (message : OutboundMessage) : ℕ × NetworkDeviceIOUring :=
  match sendSize (window message.bytes 0 0) with
  | none => (1, d)
  | some size =>
    let req : Request := {
      addr := d.fresh
      type := .write
      clientFd := message.account.toInt32
      buf := message.bytes.toList.take size }
    (0, ({ d with fresh := d.fresh + 1 }.queueWrite req size).submit)

/-- The kernel completes a submitted request. A receive puts data into the buffer, a send appends
as many bytes to the stream of the client as it reports. -/
def complete (i : ℕ) (res : Int32) (data : List UInt8) : Option NetworkDeviceIOUring :=
  match d.submitted[i]? with
  | none => none
  | some ⟨req, len⟩ =>
    let d := { d with submitted := d.submitted.eraseIdx i }
    match req.type with
    | .accept => some { d with completed := d.completed ++ [⟨req, res⟩] }
    | .read =>
      if data.length = res.toNatClampNeg ∧ data.length ≤ len then
        let req := { req with buf := data ++ req.buf.drop data.length }
        some { d with completed := d.completed ++ [⟨req, res⟩] }
      else none
    | .write =>
      if res.toNatClampNeg ≤ len then some { d with
        completed := d.completed ++ [⟨req, res⟩]
        streams := Function.update d.streams req.clientFd
          (d.streams req.clientFd ++ req.buf.take res.toNatClampNeg) }
      else none

inductive Action where
  | sendMsg (message : OutboundMessage)
  | receiveMsg (i : ℕ)
  | enqueued
  | complete (i : ℕ) (res : Int32) (data : List UInt8)

def step : Action → Option NetworkDeviceIOUring
  | .sendMsg message => some (d.sendMsg message).2
  | .receiveMsg i => d.receiveMsg i
  | .enqueued => d.enqueued
  | .complete i res data => d.complete i res data

def machine (listeningFds : List Int32) : Machine NetworkDeviceIOUring Action where
  init := init listeningFds
  step := step

end NetworkDeviceIOUring

end LowLevel.Network
