import LowLevel.Foundations.Linearization
import LowLevel.Foundations.Machine

/-! # The lock-free stack

Threads push and pop nodes at one atomic pointer. A node is private to the
thread that made it until its exchange succeeds, and is not written to after
that. Shared pointers are compared by the identity of the node, and a node that
some thread still holds is not reused; so every node that is made is a new one.
-/

namespace LowLevel.Queues

open Linearization

/-- The stack that both operations are about. A call of `push` has no result. -/
inductive StackOp (T : Type*) where
  | push (value : T)
  | pop
  deriving DecidableEq

def StackOp.apply {T : Type*} : List T → StackOp T → Option T × List T
  | stack, .push value => (none, value :: stack)
  | [], .pop => (none, [])
  | value :: rest, .pop => (some value, rest)

structure LfStack.Node (T : Type*) where
  data : T
  prev : Option ℕ

inductive LfStack.Phase (T : Type*) where
  | idle
  | pushLoad (value : T)
  | pushExchange (n : ℕ)
  | pushReturn
  | popLoad
  | popTest (currHead : Option ℕ)
  | popExchange (currHead : ℕ) (prev : Option ℕ)
  | popReturn (currHead : Option ℕ)
  | crashed

/-- The stack with its threads. The calls record the history and the order of effects: a call
takes effect at its successful exchange. -/
structure LfStack (ι T : Type*) where
  head : Option ℕ := none
  nodes : ℕ → Option (LfStack.Node T) := fun _ => none
  made : ℕ := 0
  phase : ι → LfStack.Phase T := fun _ => .idle
  calls : Calls ι (StackOp T) (Option T) := {}
  fault : Bool := false

namespace LfStack

variable {ι T : Type*} [DecidableEq ι]

/-- Call an operation, or let a thread make its next step; an exchange may fail for no reason. -/
inductive Action (ι T : Type*) where
  | push (t : ι) (value : T)
  | pop (t : ι)
  | move (t : ι) (spurious : Bool)

def goTo (s : LfStack ι T) (t : ι) (p : Phase T) : LfStack ι T :=
  { s with phase := Function.update s.phase t p }

def crash (s : LfStack ι T) (t : ι) : LfStack ι T := { s.goTo t .crashed with fault := true }

def move (s : LfStack ι T) (t : ι) (spurious : Bool) : Option (LfStack ι T) :=
  match s.phase t with
  | .idle => none
  | .pushLoad value => some { s.goTo t (.pushExchange s.made) with
      nodes := Function.update s.nodes s.made (some ⟨value, s.head⟩)
      made := s.made + 1 }
  | .pushExchange n =>
    match s.nodes n with
    | none => some (s.crash t)
    | some node =>
      if s.head = node.prev ∧ spurious = false then
        some { s.goTo t .pushReturn with head := some n, calls := s.calls.settle t none }
      else some { s with nodes := Function.update s.nodes n (some { node with prev := s.head }) }
  | .pushReturn => some { s.goTo t .idle with calls := s.calls.ret t none }
  | .popLoad => some (s.goTo t (.popTest s.head))
  | .popTest none => some (s.goTo t (.popReturn none))
  | .popTest (some currHead) =>
    match s.nodes currHead with
    | none => some (s.crash t)
    | some node => some (s.goTo t (.popExchange currHead node.prev))
  | .popExchange currHead prev =>
    if s.head = some currHead ∧ spurious = false then
      some { s.goTo t (.popReturn (some currHead)) with
        head := prev
        calls := s.calls.settle t ((s.nodes currHead).map Node.data) }
    else some (s.goTo t (.popTest s.head))
  | .popReturn none => some (s.crash t)
  | .popReturn (some currHead) =>
    match s.nodes currHead with
    | none => some (s.crash t)
    | some node => some { s.goTo t .idle with calls := s.calls.ret t (some node.data) }
  | .crashed => none

def step (s : LfStack ι T) : Action ι T → Option (LfStack ι T)
  | .push t value =>
    match s.phase t with
    | .idle => some { s.goTo t (.pushLoad value) with calls := s.calls.call t (.push value) }
    | _ => none
  | .pop t =>
    match s.phase t with
    | .idle => some { s.goTo t .popLoad with calls := s.calls.call t .pop }
    | _ => none
  | .move t spurious => s.move t spurious

def machine (ι T : Type*) [DecidableEq ι] : Machine (LfStack ι T) (Action ι T) := ⟨{}, step⟩

end LfStack

end LowLevel.Queues
