import Mathlib.Data.Nat.Notation

/-! # The lock-based queue and its histories

Both operations of the lock-based queue run under its mutex, so each is one
step on the queue. A history lists the calls in the order in which they take
effect, with their results; it is one of the lock-based queue when every call
in it has the result that the lock-based queue gives at that point. A bounded
queue may also refuse a call of `enqueue` when it holds as many values as it
can.
-/

namespace LowLevel.Queues

namespace Lock

variable {T : Type*}

def enqueue (queue : List T) (value : T) : List T := queue ++ [value]

def deque : List T → Option T × List T
  | [] => (none, [])
  | front :: rest => (some front, rest)

end Lock

inductive Event (T : Type*) where
  | enqueue (value : T) (result : Bool)
  | deque (result : Option T)
  deriving DecidableEq

variable {T : Type*} {full : ℕ → Prop} {queue queue' : List T} {events : List (Event T)}
  {e : Event T}

/-- The effect of a call on the lock-based queue. The call may be refused when the number of
values meets `full`. -/
inductive Effect (full : ℕ → Prop) : List T → Event T → List T → Prop
  | enqueue (queue : List T) (value : T) :
    Effect full queue (.enqueue value true) (Lock.enqueue queue value)
  | refuse (queue : List T) (value : T) (h : full queue.length) :
    Effect full queue (.enqueue value false) queue
  | deque (queue : List T) : Effect full queue (.deque (Lock.deque queue).1) (Lock.deque queue).2

/-- The history is one of the lock-based queue, which holds `queue` after it. -/
inductive History (full : ℕ → Prop) : List (Event T) → List T → Prop
  | nil : History full [] []
  | snoc (events : List (Event T)) (e : Event T) (queue queue' : List T)
      (h : History full events queue) (he : Effect full queue e queue') :
    History full (events ++ [e]) queue'

namespace History

theorem enqueue (h : History full events queue) (value : T) :
    History full (events ++ [.enqueue value true]) (queue ++ [value]) :=
  .snoc _ _ _ _ h (.enqueue queue value)

theorem refuse (h : History full events queue) (value : T) (hfull : full queue.length) :
    History full (events ++ [.enqueue value false]) queue :=
  .snoc _ _ _ _ h (.refuse queue value hfull)

theorem empty (h : History full events []) : History full (events ++ [.deque none]) [] :=
  .snoc _ _ _ _ h (.deque [])

theorem deque {front : T} (h : History full events (front :: queue)) :
    History full (events ++ [.deque (some front)]) queue :=
  .snoc _ _ _ _ h (.deque (front :: queue))

end History

/-- The values added and the values removed, in the order of their events. -/
def added (events : List (Event T)) : List T :=
  events.filterMap fun e => match e with
    | .enqueue value true => some value
    | _ => none

def removed (events : List (Event T)) : List T :=
  events.filterMap fun e => match e with
    | .deque result => result
    | _ => none

theorem History.removed_append (h : History full events queue) :
    removed events ++ queue = added events := by
  induction h with
  | nil => rfl
  | snoc events e queue queue' h he ih =>
    simp only [added, removed, List.filterMap_append] at ih ⊢
    rw [← ih]
    cases he with
    | enqueue value => simp [Lock.enqueue]
    | refuse value hfull => simp
    | deque => cases queue <;> simp [Lock.deque]

end LowLevel.Queues
