import LowLevel.Queues.SpscProgress

/-! # The three threads of the exchange

The reader passes what it receives to the inbound queue, the engine takes the
messages off one at a time and publishes its answers to the outbound queue, and
the writer takes the answers off and sends them. Every thread moves by one load
or store of a queue at a time. The state of the engine belongs to its thread, so
what it does to that state between two queue operations is one step. The engine
is any function from a state and a message to a state and answers; where it has
no result the program ends.
-/

namespace LowLevel.Trading

open Queues

variable {σ α β : Type*}

/-- What the engine thread is at. Of the answers to a message, those left to publish are kept
between two calls of `enqueue` and within one. -/
inductive EngineThread (α β : Type*) where
  | dequeue
  | process (msg : α)
  | publish (pending : List β)
  | enqueue (pending : List β)

inductive WriterThread (β : Type*) where
  | dequeue
  | send (msg : β)

/-- The engine goes on with a message once `dequeue` has returned it. -/
def EngineThread.returned : Consumer α → EngineThread α β
  | .advance _ msg => .process msg
  | _ => .dequeue

/-- The engine goes on with the next answer once `enqueue` is done. -/
def EngineThread.enqueued (pending : List β) : Spsc.Producer β → EngineThread α β
  | .idle => .publish pending
  | _ => .enqueue pending

def EngineThread.inHand : EngineThread α β → List α
  | .process msg => [msg]
  | _ => []

/-- The answers that are not passed to `enqueue` yet. -/
def EngineThread.pending : EngineThread α β → List β
  | .publish pending | .enqueue pending => pending
  | _ => []

/-- The engine is inside `enqueue`. -/
def EngineThread.Enqueuing : EngineThread α β → Prop
  | .enqueue _ => True
  | _ => False

def WriterThread.returned : Consumer β → WriterThread β
  | .advance _ msg => .send msg
  | _ => .dequeue

def WriterThread.inHand : WriterThread β → List β
  | .send msg => [msg]
  | _ => []

section Threads

variable (c : Consumer α) (p : Spsc.Producer β) (pending : List β)

@[simp] theorem EngineThread.inHand_returned :
    (returned c : EngineThread α β).inHand = c.returns := by
  cases c <;> rfl

@[simp] theorem EngineThread.pending_returned : (returned c : EngineThread α β).pending = [] := by
  cases c <;> rfl

@[simp] theorem EngineThread.inHand_enqueued :
    (enqueued pending p : EngineThread α β).inHand = [] := by
  cases p <;> rfl

@[simp] theorem EngineThread.pending_enqueued :
    (enqueued pending p : EngineThread α β).pending = pending := by
  cases p <;> rfl

@[simp] theorem EngineThread.enqueuing_returned :
    ¬ (returned c : EngineThread α β).Enqueuing := by
  cases c <;> exact id

@[simp] theorem EngineThread.enqueuing_enqueued :
    (enqueued pending p : EngineThread α β).Enqueuing ↔ p ≠ .idle := by
  cases p <;> simp [enqueued, Enqueuing]

@[simp] theorem WriterThread.inHand_returned (c : Consumer β) :
    (returned c).inHand = c.returns := by
  cases c <;> rfl

end Threads

/-- The queues, the engine, what its thread and the writer are at, and the messages sent. -/
structure Threads (σ α β : Type*) where
  incomingQueue : Spsc α := {}
  engine : σ
  engineThread : EngineThread α β := .dequeue
  outgoingQueue : Spsc β := {}
  writerThread : WriterThread β := .dequeue
  sent : List β := []

namespace Threads

/-- The reader calls `enqueue` with a message, or one of the threads makes a step. -/
inductive Action (α β : Type*) where
  | receive (msg : α)
  | reader
  | engine (junk : α)
  | writer (junk : β)

section Steps

variable (S : UInt64) (process : σ → α → Option (σ × List β)) (s : Threads σ α β)

def engineStep (junk : α) : Option (Threads σ α β) :=
  match s.engineThread with
  | .dequeue => (Spsc.step S s.incomingQueue (.consumer junk)).map fun incomingQueue => { s with
      incomingQueue
      engineThread := .returned s.incomingQueue.consumer }
  | .process msg => (process s.engine msg).map fun result => { s with
      engine := result.1
      engineThread := .publish result.2 }
  | .publish [] => some { s with engineThread := .dequeue }
  | .publish (answer :: pending) =>
    (Spsc.step S s.outgoingQueue (.enqueue answer)).map fun outgoingQueue => { s with
      outgoingQueue
      engineThread := .enqueue pending }
  | .enqueue pending => (Spsc.step S s.outgoingQueue .producer).map fun outgoingQueue => { s with
      outgoingQueue
      engineThread := .enqueued pending outgoingQueue.producer }

def writerStep (junk : β) : Option (Threads σ α β) :=
  match s.writerThread with
  | .dequeue => (Spsc.step S s.outgoingQueue (.consumer junk)).map fun outgoingQueue => { s with
      outgoingQueue
      writerThread := .returned s.outgoingQueue.consumer }
  | .send msg => some { s with sent := s.sent ++ [msg], writerThread := .dequeue }

def step : Action α β → Option (Threads σ α β)
  | .receive msg => (Spsc.step S s.incomingQueue (.enqueue msg)).map fun incomingQueue =>
      { s with incomingQueue }
  | .reader => (Spsc.step S s.incomingQueue .producer).map fun incomingQueue =>
      { s with incomingQueue }
  | .engine junk => s.engineStep S process junk
  | .writer junk => s.writerStep S junk

def machine (init : σ) : Machine (Threads σ α β) (Action α β) :=
  ⟨{ engine := init }, step S process⟩

end Steps

def serve (process : σ → α → Option (σ × List β)) : σ → List α → Option (σ × List β)
  | engine, [] => some (engine, [])
  | engine, msg :: msgs => do
    let (engine, answers) ← process engine msg
    let (engine, rest) ← serve process engine msgs
    return (engine, answers ++ rest)

section Serve

variable {process : σ → α → Option (σ × List β)} {engine engine' : σ} {xs ys : List α}
  {out out' : List β}

theorem serve_append (h : serve process engine xs = some (engine', out)) :
    serve process engine (xs ++ ys) =
      (serve process engine' ys).map fun result => (result.1, out ++ result.2) := by
  induction xs generalizing engine out with
  | nil =>
    cases h
    simp
  | cons x xs ih =>
    obtain ⟨⟨engine₁, answers⟩, hx, h⟩ := Option.bind_eq_some_iff.mp h
    obtain ⟨⟨engine₂, rest⟩, hxs, h⟩ := Option.bind_eq_some_iff.mp h
    cases h
    rw [List.cons_append, serve, hx]
    simp only [Option.bind_eq_bind, Option.bind_some, ih hxs]
    cases serve process engine' ys <;> simp

theorem serve_concat {x : α} (h : serve process engine xs = some (engine', out)) :
    serve process engine (xs ++ [x]) =
      (process engine' x).map fun result => (result.1, out ++ result.2) := by
  rw [serve_append h, serve]
  cases process engine' x <;> simp [serve]

theorem serve_mono (h : serve process engine xs = some (engine', out)) (hxs : xs <+: ys)
    {engine'' : σ} (h' : serve process engine ys = some (engine'', out')) : out <+: out' := by
  obtain ⟨zs, rfl⟩ := hxs
  rw [serve_append h] at h'
  obtain ⟨⟨engine₃, rest⟩, -, heq⟩ := Option.map_eq_some_iff.mp h'
  cases heq
  exact ⟨rest, rfl⟩

end Serve

section Invariant

variable {S : UInt64} {process : σ → α → Option (σ × List β)} {init : σ} {s s' : Threads σ α β}

/-- Everything that was received is answered, in the hand of a thread, or in a queue. -/
structure Inv (S : UInt64) (process : σ → α → Option (σ × List β)) (init : σ)
    (s : Threads σ α β) : Prop where
  incoming : s.incomingQueue.Sound S
  outgoing : s.outgoingQueue.Sound S
  served : ∃ done out, s.incomingQueue.received = done ++ s.engineThread.inHand ∧
    serve process init done = some (s.engine, out) ∧
    s.outgoingQueue.sent ++ s.engineThread.pending = out
  written : s.outgoingQueue.received = s.sent ++ s.writerThread.inHand
  calling : s.engineThread.Enqueuing ↔ s.outgoingQueue.producer ≠ .idle

theorem inv_init (S : UInt64) (process : σ → α → Option (σ × List β)) (init : σ) :
    Inv S process init ({ engine := init } : Threads σ α β) := by
  constructor
  case incoming => exact Spsc.sound_init
  case outgoing => exact Spsc.sound_init
  case served => exact ⟨[], [], rfl, rfl, rfl⟩
  case written => rfl
  case calling => exact ⟨False.elim, fun h => h rfl⟩

theorem Inv.engineStep {junk : α} (h : Inv S process init s) (hS : Admitted S)
    (h2 : 2 ≤ S.toNat) (hstep : s.engineStep S process junk = some s') :
    Inv S process init s' := by
  obtain ⟨done, out, hreceived, hserve, hout⟩ := h.served
  have hcalling := h.calling
  unfold Threads.engineStep at hstep
  cases hthread : s.engineThread with
  | dequeue =>
    rw [hthread] at hstep hreceived hout hcalling
    obtain ⟨q, hq, rfl⟩ := Option.map_eq_some_iff.mp hstep
    refine ⟨h.incoming.step hS h2 hq, h.outgoing, ⟨done, out, ?_, hserve, ?_⟩, h.written, ?_⟩
    · obtain rfl := Option.some.inj hq
      rw [EngineThread.inHand_returned, Queue.dequeue_received, hreceived]
      exact congrArg (· ++ _) (List.append_nil done)
    · rw [EngineThread.pending_returned]
      exact hout
    · rw [← hcalling]
      exact iff_of_false (by simp) id
  | process msg =>
    rw [hthread] at hstep hreceived hout hcalling
    obtain ⟨⟨engine, answers⟩, hprocess, rfl⟩ := Option.map_eq_some_iff.mp hstep
    refine ⟨h.incoming, h.outgoing, ⟨done ++ [msg], out ++ answers, ?_, ?_, ?_⟩, h.written,
      hcalling⟩
    · exact hreceived.trans (List.append_nil _).symm
    · rw [serve_concat hserve, hprocess]
      rfl
    · exact congrArg (· ++ answers) ((List.append_nil _).symm.trans hout)
  | publish pending =>
    rw [hthread] at hstep hreceived hout hcalling
    cases pending with
    | nil =>
      obtain rfl := Option.some.inj hstep
      exact ⟨h.incoming, h.outgoing, ⟨done, out, hreceived, hserve, hout⟩, h.written, hcalling⟩
    | cons answer pending =>
      obtain ⟨q, hq, rfl⟩ := Option.map_eq_some_iff.mp hstep
      have hq' := h.outgoing.step hS h2 hq
      obtain ⟨-, rfl⟩ := Spsc.step_enqueue hq
      refine ⟨h.incoming, hq', ⟨done, out, hreceived, hserve, ?_⟩, h.written, ?_⟩
      · exact (List.append_assoc ..).trans hout
      · exact iff_of_true trivial nofun
  | enqueue pending =>
    rw [hthread] at hstep hreceived hout hcalling
    obtain ⟨q, hq, rfl⟩ := Option.map_eq_some_iff.mp hstep
    obtain ⟨-, hsent, hrec, -⟩ := Spsc.step_producer hq
    refine ⟨h.incoming, h.outgoing.step hS h2 hq, ⟨done, out, ?_, hserve, ?_⟩,
      hrec.trans h.written, EngineThread.enqueuing_enqueued ..⟩
    · rw [EngineThread.inHand_enqueued]
      exact hreceived
    · rw [EngineThread.pending_enqueued, hsent]
      exact hout

theorem Inv.writerStep {junk : β} (h : Inv S process init s) (hS : Admitted S)
    (h2 : 2 ≤ S.toNat) (hstep : s.writerStep S junk = some s') : Inv S process init s' := by
  have hwritten := h.written
  unfold Threads.writerStep at hstep
  cases hthread : s.writerThread with
  | dequeue =>
    rw [hthread] at hstep hwritten
    obtain ⟨q, hq, rfl⟩ := Option.map_eq_some_iff.mp hstep
    have hq' := h.outgoing.step hS h2 hq
    obtain rfl := Option.some.inj hq
    refine ⟨h.incoming, hq', h.served, ?_, h.calling⟩
    rw [WriterThread.inHand_returned, Queue.dequeue_received, hwritten]
    exact congrArg (· ++ _) (List.append_nil s.sent)
  | send msg =>
    rw [hthread] at hstep hwritten
    obtain rfl := Option.some.inj hstep
    exact ⟨h.incoming, h.outgoing, h.served, hwritten.trans (List.append_nil _).symm, h.calling⟩

theorem Inv.step {a : Action α β} (h : Inv S process init s) (hS : Admitted S)
    (h2 : 2 ≤ S.toNat) (hstep : s.step S process a = some s') : Inv S process init s' := by
  cases a with
  | receive msg =>
    obtain ⟨q, hq, rfl⟩ := Option.map_eq_some_iff.mp hstep
    have hq' := h.incoming.step hS h2 hq
    obtain ⟨-, rfl⟩ := Spsc.step_enqueue hq
    exact ⟨hq', h.outgoing, h.served, h.written, h.calling⟩
  | reader =>
    obtain ⟨q, hq, rfl⟩ := Option.map_eq_some_iff.mp hstep
    obtain ⟨done, out, hreceived, hserve, hout⟩ := h.served
    obtain ⟨-, -, hrec, -⟩ := Spsc.step_producer hq
    exact ⟨h.incoming.step hS h2 hq, h.outgoing, ⟨done, out, hrec.trans hreceived, hserve, hout⟩,
      h.written, h.calling⟩
  | engine junk => exact h.engineStep hS h2 hstep
  | writer junk => exact h.writerStep hS h2 hstep

theorem Inv.reachable (hS : Admitted S) (h2 : 2 ≤ S.toNat)
    (h : (machine S process init).Reachable s) : Inv S process init s :=
  h.invariant (P := Inv S process init) (inv_init S process init) fun _ _ _ hinv hstep =>
    hinv.step hS h2 hstep

end Invariant

end Threads

end LowLevel.Trading
