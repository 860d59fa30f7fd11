import LowLevel.Queues.Mpsc

/-! # The multi-producer multi-consumer queue

Producers and consumers draw tickets in the same way, each side by a
compare-and-swap on its own counter. A call that finds its cell a lap behind
gives up and returns false. Consumers copy the data out, so a cell keeps its
old value until the next producer overwrites it.
-/

namespace LowLevel.Queues

def Mpmc.Accepted (size : UInt64) : Prop := 2 < size ∧ size &&& (size - 1) = 0

instance (size : UInt64) : Decidable (Mpmc.Accepted size) := inferInstanceAs (Decidable (_ ∧ _))

/-- A thread that has no ticket yet: before a load of the counter, before a load of the sequence
number, or before the compare-and-swap. -/
inductive Mpmc.Seek where
  | load
  | loop (pos : UInt64)
  | cas (pos : UInt64)

inductive Mpmc.Outcome where
  | again (x : Seek)
  | refused
  | drawn (pos : UInt64)

/-- One step of the loop that `enqueue` and `dequeue` share. The cell of `pos` is there to take
when its sequence number is `pos + lead`. A weak compare-and-swap may fail spuriously. -/
def Mpmc.Seek.next {T : Type*} (S lead ptr : UInt64) (buffer : Buffer T) (spurious : Bool) :
    Seek → Outcome
  | .load => .again (.loop ptr)
  | .loop pos =>
    let cellPosition := (buffer (slot S pos)).sequence
    let diff := (cellPosition - (pos + lead)).toInt64
    if diff = 0 then .again (.cas pos)
    else if diff < 0 then .refused
    else .again .load
  | .cas pos => if ptr = pos ∧ spurious = false then .drawn pos else .again (.loop ptr)

inductive Mpmc.Producer (T : Type*) where
  | idle
  | seek (x : Seek) (data : T)
  | store (w : Writer T)

/-- A consumer in `dequeue`. The copy of the data is not atomic. -/
inductive Mpmc.Consumer (T : Type*) where
  | idle
  | seek (x : Seek)
  | read (pos : UInt64)
  | reading (pos : UInt64)
  | release (pos : UInt64) (data : T)

/-- A dequeue ticket: by whom it was drawn, in which of its calls, at which counter value. -/
structure Mpmc.Draw (Q : Type*) where
  consumer : Q
  call : ℕ
  pos : UInt64

/-- The queue with its threads. The history records the tickets, the completed calls of each
thread with their results, and how many cells were published and released. -/
structure Mpmc (P Q T : Type*) where
  buffer : Buffer T := Buffer.init
  enqueuePtr : UInt64 := 0
  dequeuePtr : UInt64 := 0
  producers : P → Mpmc.Producer T := fun _ => .idle
  consumers : Q → Mpmc.Consumer T := fun _ => .idle
  claims : List (Ticket P T) := []
  draws : List (Mpmc.Draw Q) := []
  sent : P → List (T × Bool) := fun _ => []
  got : Q → List (Option T) := fun _ => []
  published : ℕ := 0
  released : ℕ := 0

namespace Mpmc

variable {P Q T : Type*} {S : UInt64} {s s' : Mpmc P Q T} {p : P} {q : Q}

/-- Call one of the operations, or let a thread make a step in its call. -/
inductive Action (P Q T : Type*) where
  | enqueue (p : P) (data : T)
  | dequeue (q : Q)
  | producer (p : P) (spurious : Bool)
  | consumer (q : Q) (spurious : Bool) (junk : T)

variable [DecidableEq P] [DecidableEq Q]

def setProducer (s : Mpmc P Q T) (p : P) (x : Producer T) : Mpmc P Q T :=
  { s with producers := Function.update s.producers p x }

def setConsumer (s : Mpmc P Q T) (q : Q) (x : Consumer T) : Mpmc P Q T :=
  { s with consumers := Function.update s.consumers q x }

/-- A call of `enqueue` returns. -/
def returnSent (s : Mpmc P Q T) (p : P) (data : T) (result : Bool) : Mpmc P Q T :=
  { s.setProducer p .idle with sent := Function.update s.sent p (s.sent p ++ [(data, result)]) }

/-- A call of `dequeue` returns. -/
def returnGot (s : Mpmc P Q T) (q : Q) (result : Option T) : Mpmc P Q T :=
  { s.setConsumer q .idle with got := Function.update s.got q (s.got q ++ [result]) }

def enqueue (S : UInt64) (s : Mpmc P Q T) (p : P) (spurious : Bool) : Option (Mpmc P Q T) :=
  match s.producers p with
  | .idle => none
  | .seek x data =>
    match x.next S 0 s.enqueuePtr s.buffer spurious with
    | .again x => some (s.setProducer p (.seek x data))
    | .refused => some (s.returnSent p data false)
    | .drawn pos => some { s.setProducer p (.store { pos, data }) with
        enqueuePtr := pos + 1
        claims := s.claims ++ [⟨p, (s.sent p).length, pos, data⟩] }
  | .store w =>
    match (w.store S s.buffer).2 with
    | some w' => some { s.setProducer p (.store w') with buffer := (w.store S s.buffer).1 }
    | none => some { s.returnSent p w.data true with
        buffer := (w.store S s.buffer).1
        published := s.published + 1 }

def dequeue (S : UInt64) (s : Mpmc P Q T) (q : Q) (spurious : Bool) (junk : T) :
    Option (Mpmc P Q T) :=
  match s.consumers q with
  | .idle => none
  | .seek x =>
    match x.next S 1 s.dequeuePtr s.buffer spurious with
    | .again x => some (s.setConsumer q (.seek x))
    | .refused => some (s.returnGot q none)
    | .drawn pos => some { s.setConsumer q (.read pos) with
        dequeuePtr := pos + 1
        draws := s.draws ++ [⟨q, (s.got q).length, pos⟩] }
  | .read pos => some (s.setConsumer q (.reading pos))
  | .reading pos =>
    some (s.setConsumer q (.release pos ((s.buffer (slot S pos)).data.read junk)))
  | .release pos data => some { s.returnGot q (some data) with
      buffer := s.buffer.setSequence (slot S pos) (pos + (S - 1) + 1)
      released := s.released + 1 }

def step (S : UInt64) (s : Mpmc P Q T) : Action P Q T → Option (Mpmc P Q T)
  | .enqueue p data =>
    match s.producers p with
    | .idle => some (s.setProducer p (.seek .load data))
    | _ => none
  | .dequeue q =>
    match s.consumers q with
    | .idle => some (s.setConsumer q (.seek .load))
    | _ => none
  | .producer p spurious => s.enqueue S p spurious
  | .consumer q spurious junk => s.dequeue S q spurious junk

def machine (S : UInt64) : Machine (Mpmc P Q T) (Action P Q T) := ⟨{}, step S⟩

inductive Step (S : UInt64) (s : Mpmc P Q T) : Action P Q T → Mpmc P Q T → Prop
  | callEnqueue (p : P) (data : T) (h : s.producers p = .idle) :
    Step S s (.enqueue p data) (s.setProducer p (.seek .load data))
  | callDequeue (q : Q) (h : s.consumers q = .idle) :
    Step S s (.dequeue q) (s.setConsumer q (.seek .load))
  | seekEnqueue (p : P) (x y : Seek) (data : T) (spurious : Bool)
      (h : s.producers p = .seek x data)
      (hx : x.next S 0 s.enqueuePtr s.buffer spurious = .again y) :
    Step S s (.producer p spurious) (s.setProducer p (.seek y data))
  | seekDequeue (q : Q) (x y : Seek) (spurious : Bool) (junk : T)
      (h : s.consumers q = .seek x)
      (hx : x.next S 1 s.dequeuePtr s.buffer spurious = .again y) :
    Step S s (.consumer q spurious junk) (s.setConsumer q (.seek y))
  | refuseEnqueue (p : P) (x : Seek) (data : T) (spurious : Bool)
      (h : s.producers p = .seek x data) :
    Step S s (.producer p spurious) (s.returnSent p data false)
  | refuseDequeue (q : Q) (x : Seek) (spurious : Bool) (junk : T) (h : s.consumers q = .seek x) :
    Step S s (.consumer q spurious junk) (s.returnGot q none)
  | claim (p : P) (data : T) (spurious : Bool)
      (h : s.producers p = .seek (.cas s.enqueuePtr) data) :
    Step S s (.producer p spurious) { s.setProducer p (.store { pos := s.enqueuePtr, data }) with
      enqueuePtr := s.enqueuePtr + 1
      claims := s.claims ++ [⟨p, (s.sent p).length, s.enqueuePtr, data⟩] }
  | draw (q : Q) (spurious : Bool) (junk : T) (h : s.consumers q = .seek (.cas s.dequeuePtr)) :
    Step S s (.consumer q spurious junk) { s.setConsumer q (.read s.dequeuePtr) with
      dequeuePtr := s.dequeuePtr + 1
      draws := s.draws ++ [⟨q, (s.got q).length, s.dequeuePtr⟩] }
  | store (p : P) (w w' : Writer T) (spurious : Bool) (h : s.producers p = .store w)
      (hw : (w.store S s.buffer).2 = some w') :
    Step S s (.producer p spurious) { s.setProducer p (.store w') with
      buffer := (w.store S s.buffer).1 }
  | publish (p : P) (w : Writer T) (spurious : Bool) (h : s.producers p = .store w)
      (hw : (w.store S s.buffer).2 = none) :
    Step S s (.producer p spurious) { s.returnSent p w.data true with
      buffer := (w.store S s.buffer).1
      published := s.published + 1 }
  | read (q : Q) (pos : UInt64) (spurious : Bool) (junk : T) (h : s.consumers q = .read pos) :
    Step S s (.consumer q spurious junk) (s.setConsumer q (.reading pos))
  | copy (q : Q) (pos : UInt64) (spurious : Bool) (junk : T) (h : s.consumers q = .reading pos) :
    Step S s (.consumer q spurious junk)
      (s.setConsumer q (.release pos ((s.buffer (slot S pos)).data.read junk)))
  | release (q : Q) (pos : UInt64) (data : T) (spurious : Bool) (junk : T)
      (h : s.consumers q = .release pos data) :
    Step S s (.consumer q spurious junk) { s.returnGot q (some data) with
      buffer := s.buffer.setSequence (slot S pos) (pos + S)
      released := s.released + 1 }

theorem Seek.cas_of_drawn {lead ptr pos : UInt64} {buffer : Buffer T} {spurious : Bool} {x : Seek}
    (h : x.next S lead ptr buffer spurious = .drawn pos) : x = .cas ptr ∧ pos = ptr := by
  cases x with
  | load => cases h
  | loop pos' =>
    simp only [Seek.next] at h
    split at h
    · cases h
    · split at h <;> cases h
  | cas pos' =>
    simp only [Seek.next] at h
    split at h
    · rename_i hcas
      cases h
      exact ⟨by rw [hcas.1], hcas.1.symm⟩
    · cases h

theorem mask_succ (pos : UInt64) : pos + (S - 1) + 1 = pos + S := by
  rw [UInt64.add_assoc, UInt64.sub_add_cancel]

theorem step_of_eq {a : Action P Q T} (h : step S s a = some s') : Step S s a s' := by
  cases a with
  | enqueue p data =>
    simp only [step] at h
    split at h
    · rename_i hp
      cases h
      exact .callEnqueue p data hp
    · cases h
  | dequeue q =>
    simp only [step] at h
    split at h
    · rename_i hq
      cases h
      exact .callDequeue q hq
    · cases h
  | producer p spurious =>
    simp only [step, enqueue] at h
    split at h
    · cases h
    · rename_i x data hp
      split at h
      · rename_i y hx
        cases h
        exact .seekEnqueue p x y data spurious hp hx
      · cases h
        exact .refuseEnqueue p x data spurious hp
      · rename_i pos hx
        cases h
        obtain ⟨rfl, rfl⟩ := Seek.cas_of_drawn hx
        exact .claim p data spurious hp
    · rename_i w hp
      split at h
      · rename_i w' hw
        cases h
        exact .store p w w' spurious hp hw
      · rename_i hw
        cases h
        exact .publish p w spurious hp hw
  | consumer q spurious junk =>
    simp only [step, dequeue, mask_succ] at h
    split at h
    · cases h
    · rename_i x hq
      split at h
      · rename_i y hx
        cases h
        exact .seekDequeue q x y spurious junk hq hx
      · cases h
        exact .refuseDequeue q x spurious junk hq
      · rename_i pos hx
        cases h
        obtain ⟨rfl, rfl⟩ := Seek.cas_of_drawn hx
        exact .draw q spurious junk hq
    · rename_i pos hq
      cases h
      exact .read q pos spurious junk hq
    · rename_i pos hq
      cases h
      exact .copy q pos spurious junk hq
    · rename_i pos data hq
      cases h
      exact .release q pos data spurious junk hq

end Mpmc

end LowLevel.Queues
