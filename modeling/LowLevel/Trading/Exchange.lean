import LowLevel.Foundations.Parts
import LowLevel.Network.UringRequests
import LowLevel.Trading.Main

/-! # The exchange on the network

The io_uring device around the three threads. The reader takes completions from
the ring and enqueues what was read, with the submission mutex given up while it
does; the writer submits one send for each answer it takes off the queue. The
kernel completes requests in any order in between. From the bytes of the clients
to the bytes for the clients, the system is the sequential engine.
-/

namespace LowLevel.Trading

open Network (NetworkDeviceIOUring)
open Network.NetworkDeviceIOUring (Traced)
open OrderBook (Engine Admissible WellFormed)
open Queues (Admitted Spsc)

variable {σ : Type*} {B A : ℕ} {S : UInt64} {clock : ℕ → UInt64} {listeningFds : List Int32}

/-- The payload for what a read returned. It is not initialised, so anything may stand behind the
bytes that are copied. -/
def payload (msg : Network.InboundMessage) (rest : Vector UInt8 inSize) : InboundMessage where
  account := msg.account
  bytes := .ofFn fun i => msg.bytes.getD i rest[i]

structure Exchange (σ : Type*) where
  networkDevice : Traced
  threads : Threads σ InboundMessage Wire.OutboundMessage

namespace Exchange

inductive Action where
  | complete (i : ℕ) (res : Int32) (data : List UInt8)
  | receiveMsg (i : ℕ) (rest : Vector UInt8 inSize)
  | reader
  | enqueued
  | engine (junk : InboundMessage)
  | writer (junk : Wire.OutboundMessage)

def onDevice (t : Traced) (act : NetworkDeviceIOUring.Action) : Option Traced :=
  (t.device.step act).map fun device => { t.observe act with device }

section Steps

variable (S : UInt64) (process : σ → InboundMessage → Option (σ × List Wire.OutboundMessage))
  (x : Exchange σ)

/-- Take a completion; a message that was read is passed to `enqueue` at once. -/
def receiveMsg (i : ℕ) (rest : Vector UInt8 inSize) : Option (Exchange σ) :=
  (onDevice x.networkDevice (.receiveMsg i)).bind fun networkDevice =>
    match networkDevice.device.reader with
    | .waiting => some { x with networkDevice }
    | .enqueuing _ msg =>
      (x.threads.step S process (.receive (payload msg rest))).map fun threads =>
        { networkDevice, threads }

/-- The rest of a read, once `enqueue` has returned. -/
def enqueued : Option (Exchange σ) :=
  match x.threads.incomingQueue.producer with
  | .idle => (onDevice x.networkDevice .enqueued).map fun networkDevice => { x with networkDevice }
  | _ => none

/-- A step of the writer, which sends what it has taken off the queue. -/
def writer (junk : Wire.OutboundMessage) : Option (Exchange σ) :=
  match x.threads.writerThread with
  | .dequeue => (x.threads.step S process (.writer junk)).map fun threads => { x with threads }
  | .send msg =>
    (onDevice x.networkDevice (.sendMsg msg)).bind fun networkDevice =>
      (x.threads.step S process (.writer junk)).map fun threads => { networkDevice, threads }

def step : Action → Option (Exchange σ)
  | .complete i res data => (onDevice x.networkDevice (.complete i res data)).map
      fun networkDevice => { x with networkDevice }
  | .receiveMsg i rest => x.receiveMsg S process i rest
  | .reader => (x.threads.step S process .reader).map fun threads => { x with threads }
  | .enqueued => x.enqueued
  | .engine junk =>
    (x.threads.step S process (.engine junk)).map fun threads => { x with threads }
  | .writer junk => x.writer S process junk

def machine (init : σ) (listeningFds : List Int32) : Machine (Exchange σ) Action where
  init := ⟨{ device := .init listeningFds }, { engine := init }⟩
  step := step S process

def deviceAction : Action → Option NetworkDeviceIOUring.Action
  | .complete i res data => some (.complete i res data)
  | .receiveMsg i _ => some (.receiveMsg i)
  | .enqueued => some .enqueued
  | .writer _ =>
    match x.threads.writerThread with
    | .dequeue => none
    | .send msg => some (.sendMsg msg)
  | _ => none

/-- The kernel hands out fresh descriptors and executes the sends to a client in order, none of
them fails, and nothing gets between a short send and its remainder. -/
def orderly (listeningFds : List Int32) (x : Exchange σ) (a : Action) : Bool :=
  (x.deviceAction a).all fun act =>
    x.networkDevice.device.inOrder act && x.networkDevice.device.unbroken act &&
      x.networkDevice.unused listeningFds act

end Steps

variable {process : σ → InboundMessage → Option (σ × List Wire.OutboundMessage)} {init : σ}
  {x x' : Exchange σ} {a : Action}

theorem step_device (hstep : x.step S process a = some x') :
    (x.deviceAction a = none ∧ x'.networkDevice = x.networkDevice) ∨
      ∃ act, x.deviceAction a = some act ∧
        onDevice x.networkDevice act = some x'.networkDevice := by
  cases a with
  | complete i res data =>
    obtain ⟨t, ht, rfl⟩ := Option.map_eq_some_iff.mp hstep
    exact Or.inr ⟨_, rfl, ht⟩
  | receiveMsg i rest =>
    obtain ⟨t, ht, hstep⟩ := Option.bind_eq_some_iff.mp hstep
    refine Or.inr ⟨_, rfl, ?_⟩
    split at hstep
    · obtain rfl := Option.some.inj hstep
      exact ht
    · obtain ⟨threads, -, rfl⟩ := Option.map_eq_some_iff.mp hstep
      exact ht
  | reader =>
    obtain ⟨threads, -, rfl⟩ := Option.map_eq_some_iff.mp hstep
    exact Or.inl ⟨rfl, rfl⟩
  | enqueued =>
    change x.enqueued = some x' at hstep
    unfold enqueued at hstep
    split at hstep
    · obtain ⟨t, ht, rfl⟩ := Option.map_eq_some_iff.mp hstep
      exact Or.inr ⟨_, rfl, ht⟩
    · cases hstep
  | engine junk =>
    obtain ⟨threads, -, rfl⟩ := Option.map_eq_some_iff.mp hstep
    exact Or.inl ⟨rfl, rfl⟩
  | writer junk =>
    change x.writer S process junk = some x' at hstep
    unfold writer at hstep
    unfold deviceAction
    split at hstep
    · obtain ⟨threads, -, rfl⟩ := Option.map_eq_some_iff.mp hstep
      exact Or.inl ⟨rfl, rfl⟩
    · obtain ⟨t, ht, hstep⟩ := Option.bind_eq_some_iff.mp hstep
      obtain ⟨threads, -, rfl⟩ := Option.map_eq_some_iff.mp hstep
      exact Or.inr ⟨_, rfl, ht⟩

theorem step_threads (hstep : x.step S process a = some x') :
    x'.threads = x.threads ∨ ∃ act, x.threads.step S process act = some x'.threads := by
  cases a with
  | complete i res data =>
    obtain ⟨t, -, rfl⟩ := Option.map_eq_some_iff.mp hstep
    exact Or.inl rfl
  | receiveMsg i rest =>
    obtain ⟨t, -, hstep⟩ := Option.bind_eq_some_iff.mp hstep
    split at hstep
    · obtain rfl := Option.some.inj hstep
      exact Or.inl rfl
    · obtain ⟨threads, hthreads, rfl⟩ := Option.map_eq_some_iff.mp hstep
      exact Or.inr ⟨_, hthreads⟩
  | reader =>
    obtain ⟨threads, hthreads, rfl⟩ := Option.map_eq_some_iff.mp hstep
    exact Or.inr ⟨_, hthreads⟩
  | enqueued =>
    change x.enqueued = some x' at hstep
    unfold enqueued at hstep
    split at hstep
    · obtain ⟨t, -, rfl⟩ := Option.map_eq_some_iff.mp hstep
      exact Or.inl rfl
    · cases hstep
  | engine junk =>
    obtain ⟨threads, hthreads, rfl⟩ := Option.map_eq_some_iff.mp hstep
    exact Or.inr ⟨_, hthreads⟩
  | writer junk =>
    change x.writer S process junk = some x' at hstep
    unfold writer at hstep
    split at hstep
    · obtain ⟨threads, hthreads, rfl⟩ := Option.map_eq_some_iff.mp hstep
      exact Or.inr ⟨_, hthreads⟩
    · obtain ⟨t, -, hstep⟩ := Option.bind_eq_some_iff.mp hstep
      obtain ⟨threads, hthreads, rfl⟩ := Option.map_eq_some_iff.mp hstep
      exact Or.inr ⟨_, hthreads⟩

theorem threads_partOf : Machine.PartOf ((machine S process init listeningFds).under
    (orderly listeningFds)) (Threads.machine S process init) threads :=
  ⟨rfl, fun _ _ _ hstep => step_threads (Machine.under_step.mp hstep).2⟩

theorem device_partOf : Machine.PartOf ((machine S process init listeningFds).under
    (orderly listeningFds)) ((Traced.machine listeningFds).under (Traced.unused listeningFds))
      networkDevice := by
  apply Machine.PartOf.under
  · rfl
  · intro s a s' hcond hstep
    rcases step_device hstep with ⟨-, hsame⟩ | ⟨act, hact, ht⟩
    · exact Or.inl hsame
    · unfold orderly at hcond
      rw [hact, Option.all_some] at hcond
      exact Or.inr ⟨act, (Bool.and_eq_true_iff.mp hcond).2, ht⟩

section Effects

variable {α β : Type*} {process : σ → α → Option (σ × List β)} {s s' : Threads σ α β}
  {d d' : NetworkDeviceIOUring}

theorem engine_step {junk : α} (hstep : s.step S process (.engine junk) = some s') :
    s'.incomingQueue.sent = s.incomingQueue.sent ∧
      s'.incomingQueue.producer = s.incomingQueue.producer ∧ s'.sent = s.sent := by
  simp only [Threads.step, Threads.engineStep] at hstep
  split at hstep
  · obtain ⟨q, hq, rfl⟩ := Option.map_eq_some_iff.mp hstep
    obtain ⟨hsent, hproducer, -⟩ := Spsc.step_consumer hq
    exact ⟨hsent, hproducer, rfl⟩
  · obtain ⟨result, -, rfl⟩ := Option.map_eq_some_iff.mp hstep
    exact ⟨rfl, rfl, rfl⟩
  · obtain rfl := Option.some.inj hstep
    exact ⟨rfl, rfl, rfl⟩
  · obtain ⟨q, -, rfl⟩ := Option.map_eq_some_iff.mp hstep
    exact ⟨rfl, rfl, rfl⟩
  · obtain ⟨q, -, rfl⟩ := Option.map_eq_some_iff.mp hstep
    exact ⟨rfl, rfl, rfl⟩

theorem writer_step {junk : β} (hstep : s.step S process (.writer junk) = some s') :
    s'.incomingQueue = s.incomingQueue ∧ s'.sent = s.sent ++ s.writerThread.inHand := by
  simp only [Threads.step, Threads.writerStep] at hstep
  split at hstep
  · next hthread =>
    obtain ⟨q, -, rfl⟩ := Option.map_eq_some_iff.mp hstep
    rw [hthread]
    exact ⟨rfl, (List.append_nil _).symm⟩
  · next msg hthread =>
    obtain rfl := Option.some.inj hstep
    rw [hthread]
    exact ⟨rfl, rfl⟩

theorem sendMsg_messages (d : NetworkDeviceIOUring) (msg : Wire.OutboundMessage) :
    (d.sendMsg msg).2.queue = d.queue ∧ (d.sendMsg msg).2.reader = d.reader := by
  unfold NetworkDeviceIOUring.sendMsg
  split <;> exact ⟨rfl, rfl⟩

theorem complete_messages {i : ℕ} {res : Int32} {data : List UInt8}
    (hstep : d.complete i res data = some d') : d'.queue = d.queue ∧ d'.reader = d.reader := by
  obtain ⟨sqe, l₁, l₂, buf, streams, -, -, rfl, -⟩ := Traced.complete_spec hstep
  exact ⟨rfl, rfl⟩

theorem handle_messages (d : NetworkDeviceIOUring) (req : Network.Request) (res : Int32) :
    (d.handle req res).queue = d.queue := by
  unfold NetworkDeviceIOUring.handle
  split
  · split <;> rfl
  · split
    · rfl
    · split <;> rfl
    · split
      · rfl
      · split <;> rfl

theorem receiveMsg_messages {i : ℕ} (hstep : d.receiveMsg i = some d') :
    d.reader = .waiting ∧ d'.queue = d.queue := by
  unfold NetworkDeviceIOUring.receiveMsg at hstep
  split at hstep
  · next cqe hreader hcqe =>
    obtain rfl := Option.some.inj hstep
    exact ⟨hreader, handle_messages ..⟩
  · cases hstep

theorem enqueued_messages (hstep : d.enqueued = some d') :
    ∃ req msg, d.reader = .enqueuing req msg ∧ d'.queue = d.queue ++ [msg] ∧
      d'.reader = .waiting := by
  unfold NetworkDeviceIOUring.enqueued at hstep
  split at hstep
  · cases hstep
  · next req msg hreader =>
    obtain rfl := Option.some.inj hstep
    exact ⟨req, msg, hreader, rfl, rfl⟩

end Effects

section Invariant

def Copied (msg : Network.InboundMessage) (p : InboundMessage) : Prop :=
  ∃ rest, p = payload msg rest

def wires (fd : Int32) (sent : List Wire.OutboundMessage) : List UInt8 :=
  sent.flatMap fun msg => if msg.account.toInt32 = fd then msg.wire.getD [] else []

def messages (d : NetworkDeviceIOUring) : List Network.InboundMessage := d.queue ++ d.messageInHand

/-- The queues carry what the device read and what it has to send. -/
structure Inv (x : Exchange σ) : Prop where
  calling : x.networkDevice.device.reader = .waiting → x.threads.incomingQueue.producer = .idle
  carried : List.Forall₂ Copied (messages x.networkDevice.device) x.threads.incomingQueue.sent
  settled : x.networkDevice.device.Settled
  outbound : ∀ fd, x.networkDevice.device.Outbound fd (wires fd x.threads.sent)

theorem inv_init (init : σ) (listeningFds : List Int32) :
    Inv (⟨{ device := .init listeningFds }, { engine := init }⟩ : Exchange σ) := by
  have houtbound := NetworkDeviceIOUring.init_outbound listeningFds
  have hqueue : ∀ (fds : List Int32) (d : NetworkDeviceIOUring),
      (fds.foldl NetworkDeviceIOUring.queueAccept d).queue = d.queue ∧
        (fds.foldl NetworkDeviceIOUring.queueAccept d).reader = d.reader := by
    intro fds
    induction fds with
    | nil => exact fun d => ⟨rfl, rfl⟩
    | cons fd fds ih => exact fun d => ih _
  constructor
  case calling => exact fun _ => rfl
  case carried =>
    obtain ⟨hq, hr⟩ := hqueue listeningFds {}
    have hnil : messages (.init listeningFds) = [] := by
      unfold messages NetworkDeviceIOUring.messageInHand NetworkDeviceIOUring.init
      simp [NetworkDeviceIOUring.submit, hq, hr]
    change List.Forall₂ Copied (messages (.init listeningFds)) []
    rw [hnil]
    exact .nil
  case settled => exact houtbound.1
  case outbound => exact houtbound.2

variable {t : Traced} {act : NetworkDeviceIOUring.Action}

theorem Inv.onDevice (h : Inv x) (hcond : x.orderly listeningFds a = true)
    (hact : x.deviceAction a = some act) (ht : onDevice x.networkDevice act = some t) :
    t.device.Settled ∧ ∀ fd, t.device.Outbound fd
      (wires fd x.threads.sent ++ NetworkDeviceIOUring.sentTo fd [act]) := by
  unfold orderly at hcond
  rw [hact, Option.all_some, Bool.and_eq_true, Bool.and_eq_true] at hcond
  obtain ⟨⟨hord, hunb⟩, -⟩ := hcond
  obtain ⟨d, hd, rfl⟩ := Option.map_eq_some_iff.mp ht
  exact ⟨NetworkDeviceIOUring.step_settled h.settled hord hd, fun fd =>
    NetworkDeviceIOUring.step_outbound h.settled (h.outbound fd) hord hunb hd⟩

theorem Inv.complete {i : ℕ} {res : Int32} {data : List UInt8} (h : Inv x)
    (hcond : x.orderly listeningFds (.complete i res data) = true)
    (hstep : x.step S process (.complete i res data) = some x') : Inv x' := by
  obtain ⟨t, ht, rfl⟩ := Option.map_eq_some_iff.mp hstep
  obtain ⟨hsettled, houtbound⟩ := h.onDevice hcond rfl ht
  obtain ⟨d, hd, rfl⟩ := Option.map_eq_some_iff.mp ht
  obtain ⟨hqueue, hreader⟩ := complete_messages hd
  constructor
  case calling =>
    intro hwaiting
    exact h.calling (hreader ▸ hwaiting)
  case carried =>
    have hsame : messages d = messages x.networkDevice.device := by
      unfold messages NetworkDeviceIOUring.messageInHand
      rw [hqueue, hreader]
    change List.Forall₂ Copied (messages d) _
    rw [hsame]
    exact h.carried
  case settled => exact hsettled
  case outbound =>
    intro fd
    have hout := houtbound fd
    rwa [NetworkDeviceIOUring.sentTo, List.flatMap_singleton, List.append_nil] at hout

theorem Inv.receiveMsg {i : ℕ} {rest : Vector UInt8 inSize} (h : Inv x)
    (hcond : x.orderly listeningFds (.receiveMsg i rest) = true)
    (hstep : x.receiveMsg S process i rest = some x') : Inv x' := by
  obtain ⟨t, ht, hstep⟩ := Option.bind_eq_some_iff.mp hstep
  obtain ⟨hsettled, houtbound⟩ := h.onDevice hcond rfl ht
  obtain ⟨d, hd, rfl⟩ := Option.map_eq_some_iff.mp ht
  obtain ⟨hwaiting, hqueue⟩ := receiveMsg_messages hd
  have hout : ∀ fd, d.Outbound fd (wires fd x.threads.sent) := by
    intro fd
    have hout := houtbound fd
    rwa [NetworkDeviceIOUring.sentTo, List.flatMap_singleton, List.append_nil] at hout
  have hcarried : List.Forall₂ Copied d.queue x.threads.incomingQueue.sent := by
    have hcarried := h.carried
    unfold messages NetworkDeviceIOUring.messageInHand at hcarried
    rw [hwaiting, List.append_nil] at hcarried
    rw [hqueue]
    exact hcarried
  split at hstep
  · next hreader =>
    obtain rfl := Option.some.inj hstep
    constructor
    case calling => exact fun _ => h.calling hwaiting
    case carried =>
      unfold messages NetworkDeviceIOUring.messageInHand
      rw [hreader, List.append_nil]
      exact hcarried
    case settled => exact hsettled
    case outbound => exact hout
  · next req msg hreader =>
    obtain ⟨threads, hthreads, rfl⟩ := Option.map_eq_some_iff.mp hstep
    obtain ⟨q, hq, rfl⟩ := Option.map_eq_some_iff.mp hthreads
    obtain ⟨-, rfl⟩ := Spsc.step_enqueue hq
    constructor
    case calling =>
      intro hreader'
      rw [hreader] at hreader'
      cases hreader'
    case carried =>
      unfold messages NetworkDeviceIOUring.messageInHand
      rw [hreader]
      exact List.rel_append hcarried (.cons ⟨rest, rfl⟩ .nil)
    case settled => exact hsettled
    case outbound => exact hout

theorem Inv.enqueued (h : Inv x) (hcond : x.orderly listeningFds .enqueued = true)
    (hstep : x.enqueued = some x') : Inv x' := by
  unfold Exchange.enqueued at hstep
  split at hstep
  · next hidle =>
    obtain ⟨t, ht, rfl⟩ := Option.map_eq_some_iff.mp hstep
    obtain ⟨hsettled, houtbound⟩ := h.onDevice hcond rfl ht
    obtain ⟨d, hd, rfl⟩ := Option.map_eq_some_iff.mp ht
    obtain ⟨req, msg, hreader, hqueue, hreader'⟩ := enqueued_messages hd
    constructor
    case calling => exact fun _ => hidle
    case carried =>
      have hsame : messages d = messages x.networkDevice.device := by
        unfold messages NetworkDeviceIOUring.messageInHand
        rw [hreader, hqueue, hreader', List.append_nil]
      change List.Forall₂ Copied (messages d) _
      rw [hsame]
      exact h.carried
    case settled => exact hsettled
    case outbound =>
      intro fd
      have hout := houtbound fd
      rwa [NetworkDeviceIOUring.sentTo, List.flatMap_singleton, List.append_nil] at hout
  · cases hstep

theorem Inv.writer {junk : Wire.OutboundMessage} (h : Inv x)
    (hcond : x.orderly listeningFds (.writer junk) = true)
    (hstep : x.writer S process junk = some x') : Inv x' := by
  unfold Exchange.writer at hstep
  unfold orderly at hcond
  split at hstep
  · next hthread =>
    obtain ⟨threads, hthreads, rfl⟩ := Option.map_eq_some_iff.mp hstep
    obtain ⟨hincoming, hsent⟩ := writer_step hthreads
    rw [hthread] at hsent
    have hsame : threads.sent = x.threads.sent := hsent.trans (List.append_nil _)
    constructor
    case calling =>
      rw [hincoming]
      exact h.calling
    case carried =>
      rw [hincoming]
      exact h.carried
    case settled => exact h.settled
    case outbound =>
      rw [hsame]
      exact h.outbound
  · next msg hthread =>
    obtain ⟨t, ht, hstep⟩ := Option.bind_eq_some_iff.mp hstep
    obtain ⟨threads, hthreads, rfl⟩ := Option.map_eq_some_iff.mp hstep
    have hact : x.deviceAction (.writer junk) = some (.sendMsg msg) := by
      unfold deviceAction
      rw [hthread]
    obtain ⟨hsettled, houtbound⟩ := h.onDevice hcond hact ht
    obtain ⟨d, hd, rfl⟩ := Option.map_eq_some_iff.mp ht
    obtain rfl := Option.some.inj hd
    obtain ⟨hqueue, hreader⟩ := sendMsg_messages x.networkDevice.device msg
    obtain ⟨hincoming, hsent⟩ := writer_step hthreads
    rw [hthread] at hsent
    constructor
    case calling =>
      intro hwaiting
      rw [hincoming]
      exact h.calling (hreader ▸ hwaiting)
    case carried =>
      have hsame : messages (x.networkDevice.device.sendMsg msg).2 =
          messages x.networkDevice.device := by
        unfold messages NetworkDeviceIOUring.messageInHand
        rw [hqueue, hreader]
      rw [hincoming]
      change List.Forall₂ Copied (messages (x.networkDevice.device.sendMsg msg).2) _
      rw [hsame]
      exact h.carried
    case settled => exact hsettled
    case outbound =>
      intro fd
      have hwires : wires fd threads.sent =
          wires fd x.threads.sent ++ NetworkDeviceIOUring.sentTo fd [.sendMsg msg] := by
        rw [hsent, wires, List.flatMap_append]
        rfl
      rw [hwires]
      exact houtbound fd

theorem Inv.step (h : Inv x) (hcond : x.orderly listeningFds a = true)
    (hstep : x.step S process a = some x') : Inv x' := by
  cases a with
  | complete i res data => exact h.complete hcond hstep
  | receiveMsg i rest => exact h.receiveMsg hcond hstep
  | reader =>
    obtain ⟨threads, hthreads, rfl⟩ := Option.map_eq_some_iff.mp hstep
    obtain ⟨q, hq, rfl⟩ := Option.map_eq_some_iff.mp hthreads
    obtain ⟨hcalling, hsent, -⟩ := Spsc.step_producer hq
    refine ⟨?_, ?_, h.settled, h.outbound⟩
    · intro hwaiting
      exact absurd (h.calling hwaiting) hcalling
    · exact hsent ▸ h.carried
  | enqueued => exact h.enqueued hcond hstep
  | engine junk =>
    obtain ⟨threads, hthreads, rfl⟩ := Option.map_eq_some_iff.mp hstep
    obtain ⟨hincoming, hproducer, hsent⟩ := engine_step hthreads
    refine ⟨?_, ?_, h.settled, ?_⟩
    · rw [hproducer]
      exact h.calling
    · rw [hincoming]
      exact h.carried
    · rw [hsent]
      exact h.outbound
  | writer junk => exact h.writer hcond hstep

theorem Inv.reachable (hx : ((machine S process init listeningFds).under
    (orderly listeningFds)).Reachable x) : Inv x := by
  refine hx.invariant (P := Inv) (inv_init init listeningFds) ?_
  intro x a x' h hstep
  obtain ⟨hcond, hstep⟩ := Machine.under_step.mp hstep
  exact h.step hcond hstep

end Invariant

section Requests

variable {msg : Network.InboundMessage} {rest : Vector UInt8 inSize} {p : InboundMessage}

def Whole (msg : Network.InboundMessage) : Prop :=
  msg.bytes.head? = some Wire.EnterRequestView.TYPE ∧
      msg.bytes.length = Wire.EnterRequestView.WIRE_SIZE ∨
    msg.bytes.head? = some Wire.CancelRequestView.TYPE ∧
      msg.bytes.length = Wire.CancelRequestView.WIRE_SIZE

instance (msg : Network.InboundMessage) : Decidable (Whole msg) :=
  inferInstanceAs (Decidable (_ ∧ _ ∨ _ ∧ _))

def wanted (msg : Network.InboundMessage) : Option OrderBook.InboundMessage :=
  asked (payload msg (.replicate _ 0))

theorem window_payload {i : ℕ} (hi : i < msg.bytes.length) (hin : i < inSize) :
    window (payload msg rest).bytes 0 i = msg.bytes.getD i 0 := by
  simp [window, payload, hi, hin]

def front (msg : Network.InboundMessage) (w : ℕ) : Vector UInt8 w :=
  .ofFn fun i => msg.bytes.getD i 0

theorem viewAt_payload {w : ℕ} (type : UInt8) (hlen : msg.bytes.length = w) (hw : w ≤ inSize) :
    Wire.viewAt (payload msg rest).bytes w type = some ⟨front msg w⟩ := by
  rw [Wire.viewAt, if_pos hw]
  refine congrArg (fun v => some (Wire.View.mk v)) (Vector.ext fun i hi => ?_)
  rw [front, Vector.getElem_ofFn, Vector.getElem_ofFn]
  exact window_payload (hlen ▸ hi) (Nat.lt_of_lt_of_le hi hw)

theorem window_first {type : UInt8} (hhead : msg.bytes.head? = some type) :
    window (payload msg rest).bytes 0 0 = type := by
  cases hbytes : msg.bytes with
  | nil =>
    rw [hbytes] at hhead
    cases hhead
  | cons b bytes =>
    rw [hbytes] at hhead
    rw [window_payload (by simp [hbytes]) (by decide), hbytes]
    exact Option.some.inj hhead

variable (msg rest) in
theorem request_enter (hhead : msg.bytes.head? = some Wire.EnterRequestView.TYPE)
    (hlen : msg.bytes.length = Wire.EnterRequestView.WIRE_SIZE) :
    request (payload msg rest) = some (.enter (enterFields ⟨front msg _⟩)) := by
  rw [request, Wire.decode, window_first hhead, if_pos rfl, viewAt_payload _ hlen (by decide)]
  rfl

variable (msg rest) in
theorem request_cancel (hhead : msg.bytes.head? = some Wire.CancelRequestView.TYPE)
    (hlen : msg.bytes.length = Wire.CancelRequestView.WIRE_SIZE) :
    request (payload msg rest) = some (.cancel (cancelFields ⟨front msg _⟩)) := by
  rw [request, Wire.decode, window_first hhead, if_neg (by decide), if_pos rfl,
    viewAt_payload _ hlen (by decide)]
  rfl

theorem request_whole (h : Whole msg) :
    ∃ message, ∀ rest, request (payload msg rest) = some message := by
  rcases h with ⟨hhead, hlen⟩ | ⟨hhead, hlen⟩
  · exact ⟨_, fun rest => request_enter msg rest hhead hlen⟩
  · exact ⟨_, fun rest => request_cancel msg rest hhead hlen⟩

theorem asked_whole (h : Whole msg) (hp : Copied msg p) : asked p = wanted msg := by
  obtain ⟨rest, rfl⟩ := hp
  obtain ⟨message, hrequest⟩ := request_whole h
  unfold wanted asked
  rw [hrequest rest, hrequest (.replicate _ 0)]
  rfl

/-- A read brought one whole request, and one that the engine serves. -/
def Serviceable (B : ℕ) (msg : Network.InboundMessage) : Prop :=
  Whole msg ∧ ∀ r, wanted msg = some r → Admissible B r

instance (B : ℕ) (msg : Network.InboundMessage) : Decidable (Serviceable B msg) :=
  inferInstanceAs (Decidable (Whole msg ∧ ∀ r ∈ wanted msg, Admissible B r))

theorem Serviceable.proper (hmsg : Serviceable B msg) (hp : Copied msg p) : Proper B p := by
  obtain ⟨h, hwanted⟩ := hmsg
  refine ⟨fun hnone => ?_, fun r hr => hwanted r (asked_whole h hp ▸ hr)⟩
  obtain ⟨rest, rfl⟩ := hp
  obtain ⟨message, hrequest⟩ := request_whole h
  rw [hrequest rest] at hnone
  cases hnone

end Requests

section Clients

variable {fd : Int32} {out : List Wire.OutboundMessage} {answers : List OrderBook.OutboundMessage}

/-- The type and the reference number of an answer, by which clients tell answers apart. -/
def answerKey (answer : OrderBook.OutboundMessage) : UInt8 × UInt32 :=
  match answer.message with
  | .enter v => (Wire.EnterRequestView.TYPE, v.userRefNum)
  | .cancel v => (Wire.CancelRequestView.TYPE, v.userRefNum)
  | .accept v => (Wire.AcceptResponseView.TYPE, v.userRefNum)
  | .cancelled v => (Wire.CancelledResponseView.TYPE, v.userRefNum)
  | .cancelReject v => (Wire.CancelRejectResponseView.TYPE, v.userRefNum)
  | .executed v => (Wire.ExecutedResponseView.TYPE, v.userRefNum)

def Says (r : Wire.Response) (answer : OrderBook.OutboundMessage) : Prop :=
  read r.bytes = some answer.message ∧ r.key = answerKey answer

def answersTo (fd : Int32) (answers : List OrderBook.OutboundMessage) :
    List OrderBook.OutboundMessage :=
  answers.filter (·.account.toInt32 = fd)

theorem Carries.response {msg : Wire.OutboundMessage} {answer : OrderBook.OutboundMessage}
    (h : Carries msg answer) : ∃ r : Wire.Response, msg.wire = some r.bytes ∧
      msg.account = answer.account ∧ Says r answer := by
  obtain ⟨hfits, stamp, r, hr, rfl⟩ := h
  obtain ⟨r', hr', hread⟩ := read_respond hfits stamp
  obtain rfl : r = r' := Option.some.inj (hr.symm.trans hr')
  refine ⟨r, r.wire_publish _, by cases r <;> rfl, hread, ?_⟩
  unfold answerKey
  cases hm : answer.message <;> rw [hm] at hr <;> cases hr <;> rfl

theorem wires_responses (fd : Int32) (h : List.Forall₂ Carries out answers) :
    ∃ rs : List Wire.Response, wires fd out = rs.flatMap Wire.Response.bytes ∧
      List.Forall₂ Says rs (answersTo fd answers) := by
  induction h with
  | nil => exact ⟨[], rfl, .nil⟩
  | @cons msg answer out answers hfirst _ ih =>
    obtain ⟨rs, hwires, hsaid⟩ := ih
    obtain ⟨r, hwire, haccount, hr⟩ := Carries.response hfirst
    unfold wires at hwires ⊢
    unfold answersTo at hsaid ⊢
    rw [List.flatMap_cons, List.filter_cons, hwires, hwire, haccount]
    by_cases hfd : answer.account.toInt32 = fd
    · refine ⟨r :: rs, ?_, ?_⟩
      · rw [if_pos hfd]
        rfl
      · rw [if_pos (decide_eq_true hfd)]
        exact .cons hr hsaid
    · refine ⟨rs, ?_, ?_⟩
      · rw [if_neg hfd]
        rfl
      · rw [if_neg (by simpa using hfd)]
        exact hsaid

/-- What reached a client is a beginning of some answers: the bytes are those of responses that say
them, and however the stream is cut into chunks, its reader takes a beginning of them off. -/
structure Delivered (stream : List UInt8) (answers : List OrderBook.OutboundMessage) : Prop where
  bytes : ∃ rs : List Wire.Response, List.Forall₂ Says rs answers ∧
    stream <+: rs.flatMap Wire.Response.bytes
  reader : ∀ acts, Reassembly.received acts <+: stream →
    ∃ r, Reassembly.Receiver.run Wire.ResponseReader.popResponse acts {} = .ok r ∧
      r.popped <+: answers.map answerKey

theorem said_keys {rs : List Wire.Response} (h : List.Forall₂ Says rs answers) :
    rs.map Wire.Response.key = answers.map answerKey := by
  induction h with
  | nil => rfl
  | cons hfirst _ ih => rw [List.map_cons, List.map_cons, hfirst.2, ih]

theorem delivered_of_said {stream : List UInt8} {rs : List Wire.Response}
    (hsaid : List.Forall₂ Says rs answers) (hstream : stream <+: rs.flatMap Wire.Response.bytes) :
    Delivered stream answers := by
  refine ⟨⟨rs, hsaid, hstream⟩, fun acts hacts => ?_⟩
  obtain ⟨future, hfuture⟩ := hacts.trans hstream
  have hpending : SelfDelimiting.Pending Wire.Response.bytes Wire.Response.key
      (rs.map Wire.Response.key) {} (Reassembly.received acts ++ future) :=
    ⟨rs, by simpa using hfuture, rfl⟩
  obtain ⟨r, hrun, rest, -, hall⟩ := Wire.Response.selfDelimiting.run_pending hpending
  refine ⟨r, hrun, ?_⟩
  rw [← said_keys hsaid]
  exact ⟨_, hall⟩

end Clients

section Exchange

open Network.NetworkDeviceIOUring.Traced (fromClient)

variable {x : Exchange (Engine B A)}

theorem mem_received {t : Traced} {msg : Network.InboundMessage} (h : t.Inv listeningFds)
    (hmsg : msg ∈ messages t.device) : msg ∈ t.received := by
  have horder := h.order msg.account.toInt32
  have hfrom : msg ∈ fromClient msg.account.toInt32 (messages t.device) := by
    unfold fromClient
    rw [UInt32.toUInt32_toInt32]
    exact List.mem_filter.mpr ⟨hmsg, decide_eq_true rfl⟩
  have hreceived : msg ∈ fromClient msg.account.toInt32 t.received := by
    rw [horder]
    apply List.mem_append_left
    unfold fromClient at hfrom ⊢
    rwa [messages, List.filter_append] at hfrom
  exact (List.mem_filter.mp hreceived).1

theorem fromClient_prefix {t : Traced} {done : List Network.InboundMessage}
    (h : t.Inv listeningFds) (hdone : done <+: messages t.device) (fd : Int32) :
    fromClient fd done <+: fromClient fd t.received := by
  rw [h.order]
  refine .trans ?_ (List.prefix_append ..)
  unfold fromClient
  rw [← List.filter_append]
  exact hdone.filter _

theorem filterMap_wanted {msgs : List Network.InboundMessage} {ps : List InboundMessage}
    (h : List.Forall₂ Copied msgs ps) (hwhole : ∀ msg ∈ msgs, Whole msg) :
    ps.filterMap asked = msgs.filterMap wanted := by
  induction h with
  | nil => rfl
  | @cons msg p msgs ps hfirst _ ih =>
    rw [List.filterMap_cons, List.filterMap_cons,
      asked_whole (hwhole msg (List.mem_cons_self ..)) hfirst,
      ih fun m hm => hwhole m (List.mem_cons_of_mem _ hm)]

/-- From socket to socket: the clients receive what one engine answers to the requests that were
read, taken in some order that keeps the requests of each client in the order of its reads. -/
theorem end_to_end (hS : Admitted S) (h2 : 2 ≤ S.toNat) (hA : 0 < A) (hnodup : listeningFds.Nodup)
    (hx : ((machine S (Trading.process clock) ({} : Engine B A) listeningFds).under
      (orderly listeningFds)).Reachable x)
    (hreads : ∀ msg ∈ x.networkDevice.received, Serviceable B msg) :
    ∃ done last, done <+: messages x.networkDevice.device ∧
      (messages x.networkDevice.device).length ≤ done.length + S.toNat + 3 ∧
      (∀ fd, fromClient fd done <+: fromClient fd x.networkDevice.received) ∧
      Engine.run (done.filterMap wanted) = .ok (last : Engine B A) ∧
      ∀ fd, Delivered (x.networkDevice.device.streams fd) (answersTo fd last.outgoingQueue) := by
  have h := Inv.reachable hx
  have hthreads := Threads.Inv.reachable hS h2 (threads_partOf.reachable hx)
  have hdevice : x.networkDevice.Inv listeningFds := by
    refine (device_partOf.reachable hx).invariant (P := Traced.Inv listeningFds)
      (Traced.inv_init hnodup) ?_
    intro t act t' ht hstep
    obtain ⟨hcond, hstep⟩ := Machine.under_step.mp hstep
    exact Traced.step_inv ht hcond hstep
  have hmessages : ∀ msg ∈ messages x.networkDevice.device, Serviceable B msg :=
    fun msg hmsg => hreads msg (mem_received hdevice hmsg)
  have hproper : ∀ p ∈ x.threads.incomingQueue.sent, Proper B p := by
    intro p hp
    obtain ⟨i, hi, rfl⟩ := List.getElem_of_mem hp
    have hi' : i < (messages x.networkDevice.device).length := h.carried.length_eq ▸ hi
    have hcopied := (List.forall₂_iff_get.mp h.carried).2 i hi' hi
    exact (hmessages _ (List.getElem_mem hi')).proper hcopied
  obtain ⟨payloads, last, hreceived, hrun, -, hcarries⟩ :=
    hthreads.published_run hS h2 hA hproper
  have hpayloads : payloads <+: x.threads.incomingQueue.sent :=
    .trans (hreceived ▸ List.prefix_append ..) (hthreads.received_sent hS h2)
  have hcopied : List.Forall₂ Copied
      ((messages x.networkDevice.device).take payloads.length) payloads := by
    have htake := List.forall₂_take payloads.length h.carried
    rwa [← List.prefix_iff_eq_take.mp hpayloads] at htake
  have hbegin := List.take_prefix payloads.length (messages x.networkDevice.device)
  refine ⟨_, last, hbegin, ?_, fromClient_prefix hdevice hbegin, ?_, ?_⟩
  · have hle := Threads.length_sent_le hthreads.incoming hS h2
    have hhand : x.threads.engineThread.inHand.length ≤ 1 := by
      cases x.threads.engineThread <;> simp [EngineThread.inHand]
    rw [hcopied.length_eq, h.carried.length_eq]
    rw [← hreceived, List.length_append] at hle
    omega
  · rw [← filterMap_wanted hcopied fun msg hmsg => (hmessages msg (hbegin.subset hmsg)).1]
    exact hrun
  · intro fd
    obtain ⟨rs, hwires, hsaid⟩ := wires_responses fd hcarries
    refine delivered_of_said hsaid ?_
    rw [← hwires]
    have hstream : x.networkDevice.device.streams fd <+: wires fd x.threads.sent := by
      rw [← (h.outbound fd).bytes, List.append_assoc]
      exact List.prefix_append ..
    obtain ⟨later, hlater⟩ : x.threads.sent <+:
        x.threads.outgoingQueue.sent ++ x.threads.engineThread.pending :=
      (hthreads.sent_prefix hS h2).trans (List.prefix_append ..)
    refine hstream.trans ⟨wires fd later, ?_⟩
    rw [← hlater, wires, wires, wires, List.flatMap_append]

/-- A client connects and enters an order, and its acceptance is sent and delivered. -/
def oneOrder : List Action :=
  [.complete 0 7 [], .receiveMsg 0 (.replicate _ 0),
    .complete 1 47 Threads.buyRequest.bytes.toList, .receiveMsg 0 (.replicate _ 0)] ++
  List.replicate 5 .reader ++ [.enqueued] ++ List.replicate 30 (.engine ⟨0, .replicate _ 0⟩) ++
  List.replicate 9 (.writer ⟨0, .replicate _ 0⟩) ++ [.complete 2 64 []]

theorem end_to_end_oneOrder : ∃ x : Exchange (Engine 2 2),
    (x.networkDevice.device.streams 7).length = 64 ∧
    ∃ done last, done <+: messages x.networkDevice.device ∧
      (messages x.networkDevice.device).length ≤ done.length + (2 : UInt64).toNat + 3 ∧
      (∀ fd, fromClient fd done <+: fromClient fd x.networkDevice.received) ∧
      Engine.run (done.filterMap wanted) = .ok (last : Engine 2 2) ∧
      ∀ fd, Delivered (x.networkDevice.device.streams fd) (answersTo fd last.outgoingQueue) := by
  obtain ⟨x, hrun, hx⟩ : ∃ x, ((machine 2 (Trading.process fun _ => 0) ({} : Engine 2 2) [3]).under
      (orderly [3])).run ⟨{ device := .init [3] }, { engine := {} }⟩ oneOrder = some x ∧
        decide ((∀ msg ∈ x.networkDevice.received, Serviceable 2 msg) ∧
          (x.networkDevice.device.streams 7).length = 64) = true := by
    apply (Option.any_eq_true _ _).mp
    decide +kernel
  obtain ⟨hreads, hlen⟩ := of_decide_eq_true hx
  exact ⟨x, hlen, end_to_end (by decide) (by decide) (by decide) (by decide) ⟨oneOrder, hrun⟩
    hreads⟩

end Exchange

end Exchange

end LowLevel.Trading
