import LowLevel.Foundations.Notifications

/-! # The stack behind a mutex

The operations of the stack run under the mutex of the object. A pop sleeps
until the stack holds a value, and a push notifies one sleeper while it still
has the mutex.
-/

namespace LowLevel.Queues

open Linearization Monitor

/-- The operations of `stack_s`. -/
inductive StackS.Op (T : Type*) where
  | empty
  | size
  | push (element : T)
  | pop
  | tryPop
  deriving DecidableEq

inductive StackS.Result (T : Type*) where
  | void
  | bool (b : Bool)
  | size (n : ℕ)
  | value (value : T)
  | optional (value : Option T)
  deriving DecidableEq

namespace StackS

variable {ι T : Type*}

/-- What an operation does once its predicate holds. A pop that finds the stack empty sleeps. -/
def apply : List T → Op T → Result T × List T
  | stack, .empty => (.bool stack.isEmpty, stack)
  | stack, .size => (.size stack.length, stack)
  | stack, .push element => (.void, element :: stack)
  | [], .pop => (.void, [])
  | top :: stack, .pop => (.value top, stack)
  | [], .tryPop => (.optional none, [])
  | top :: stack, .tryPop => (.optional (some top), stack)

def ready (stack : List T) : Op T → Bool
  | .pop => stack.length > 0
  | _ => true

def signals : Op T → Bool
  | .push _ => true
  | _ => false

def ops (T : Type*) : Ops (List T) (Op T) (Result T) := ⟨apply, ready, signals⟩

theorem waits_iff {op : Op T} : (ops T).Waits op ↔ op = .pop := by
  constructor
  · rintro ⟨stack, hstack⟩
    cases op with
    | pop => rfl
    | _ => cases hstack
  · rintro rfl
    exact ⟨[], rfl⟩

theorem counts (T : Type*) : (ops T).Counts List.length := by
  constructor
  case none =>
    intro stack op h
    obtain rfl := waits_iff.mp ⟨stack, h⟩
    cases stack with
    | nil => rfl
    | cons top stack => cases h
  case takes =>
    intro stack op hwaits h
    obtain rfl := waits_iff.mp hwaits
    cases stack with
    | nil => cases h
    | cons top stack => exact Nat.lt_succ_self _
  case gives =>
    intro stack op
    cases op with
    | push element => exact Nat.le_refl _
    | empty | size => exact Nat.le_refl _
    | pop | tryPop =>
      cases stack with
      | nil => exact Nat.le_refl _
      | cons top stack => exact Nat.le_succ _

variable [DecidableEq ι] {s : Monitor ι (List T) (Op T) (Result T)} {t : ι}

def machine (ι T : Type*) [DecidableEq ι] :
    Machine (Monitor ι (List T) (Op T) (Result T)) (Action ι (Op T)) :=
  Monitor.machine (ops T) []

/-- The calls have an order in which they are those of a stack and in which every pop finds a
value; and while pops sleep there are as many threads on their way to a pop, or to the wake-up of
one, as there are values on the stack. -/
structure Safe (s : Monitor ι (List T) (Op T) (Result T)) : Prop where
  linearizes : Linearizes apply [] s.calls.events s.calls.order s.data
  popped : ∀ e ∈ s.calls.order, e.op = .pop → ∃ value, e.res = .value value
  awaited : s.sleeping ≠ [] → ∃ ws : List ι, ws.Nodup ∧
    (∀ t ∈ ws, Underway (ops T) (s.phase t)) ∧ s.data.length ≤ ws.length

theorem reachable_safe (h : (machine ι T).Reachable s) : Safe s := by
  have hinv := inv_reachable h
  constructor
  case linearizes => exact hinv.calls.linearizes
  case popped =>
    intro e he hop
    obtain ⟨stack, hready, hres⟩ := hinv.entry he
    rw [hop] at hready hres
    cases stack with
    | nil => cases hready
    | cons top stack => exact ⟨top, hres⟩
  case awaited => exact watched_reachable (counts T) h

/-- Two pops sleep; a push wakes one of them, and has not returned yet. -/
def twoPops : List (Action ℕ (Op ℕ)) :=
  [0, 1].flatMap (fun t => [.call t .pop, .move t 0, .move t 0]) ++
    [.call 2 (.push 7), .move 2 0, .move 2 0, .move 2 1]

theorem reachable_safe_twoPops : ∃ s, (machine ℕ ℕ).Reachable s ∧
    s.data = [7] ∧ s.sleeping = [0] ∧ Safe s := by
  have hrun : ((machine ℕ ℕ).run { data := [] } twoPops).map (fun s => (s.data, s.sleeping)) =
      some ([7], [0]) := by decide +kernel
  obtain ⟨s, hs, heq⟩ := Option.map_eq_some_iff.mp hrun
  obtain ⟨hdata, hsleeping⟩ := Prod.mk.inj heq
  exact ⟨s, ⟨_, hs⟩, hdata, hsleeping, reachable_safe ⟨_, hs⟩⟩

theorem asleep_pop (h : (machine ι T).Reachable s) {op : Op T} (ht : s.phase t = .asleep op) :
    op = .pop := by
  have hknows := (inv_reachable h).knows t
  rw [ht] at hknows
  exact waits_iff.mp hknows.2

/-- From any state, if no more calls and no more wake-ups without a reason come, a fair schedule
makes all calls return but the pops for which there is no value. -/
theorem eventually_returns [Fintype ι] {sched : ℕ → Action ι (Op T)}
    (h : (machine ι T).Reachable s) (hmoves : ∀ n, ∃ t pick, sched n = .move t pick)
    (hfair : Machine.Fair Action.thread sched) :
    ∃ n, ∀ m, n ≤ m → ∀ t, ((machine ι T).along s sched m).phase t = .idle ∨
      ((machine ι T).along s sched m).phase t = .asleep .pop ∧
        ((machine ι T).along s sched m).data = [] := by
  obtain ⟨n, hn⟩ := eventually_quiet (counts T) h hmoves hfair
  refine ⟨n, fun m hm t => ?_⟩
  obtain ⟨hreach, hquiet, hleft⟩ := hn m hm
  rcases hquiet t with hidle | ⟨op, hop⟩
  · exact Or.inl hidle
  · obtain rfl := asleep_pop hreach hop
    refine Or.inr ⟨hop, List.length_eq_zero_iff.mp (hleft ?_)⟩
    have hmem := ((inv_reachable hreach).listed.mem t).mpr (by rw [hop]; rfl)
    exact List.ne_nil_of_mem hmem

def inTurn (n : ℕ) : Action Bool (Op ℕ) := .move (n % 2 == 1) 0

theorem inTurn_fair : Machine.Fair Action.thread inTurn := by
  intro t n
  cases t with
  | false =>
    have hturn : 2 * n % 2 = 0 := Nat.mul_mod_right 2 n
    exact ⟨2 * n, by omega, by rw [inTurn, hturn]; rfl⟩
  | true =>
    have hturn : (2 * n + 1) % 2 = 1 := Nat.mul_add_mod 2 n 1
    exact ⟨2 * n + 1, by omega, by rw [inTurn, hturn]; rfl⟩

/-- A pop sleeps when the call of a push begins. -/
theorem eventually_returns_inTurn : ∃ s : Monitor Bool (List ℕ) (Op ℕ) (Result ℕ),
    s.sleeping = [false] ∧ s.data = [] ∧ ∃ n, ∀ m, n ≤ m → ∀ t,
      ((machine Bool ℕ).along s inTurn m).phase t = .idle ∨
        ((machine Bool ℕ).along s inTurn m).phase t = .asleep .pop ∧
          ((machine Bool ℕ).along s inTurn m).data = [] := by
  have hrun : ((machine Bool ℕ).run { data := [] }
      [.call false .pop, .move false 0, .move false 0, .call true (.push 7)]).map
        (fun s => (s.sleeping, s.data)) = some ([false], []) := by decide +kernel
  obtain ⟨s, hs, heq⟩ := Option.map_eq_some_iff.mp hrun
  obtain ⟨hsleeping, hdata⟩ := Prod.mk.inj heq
  exact ⟨s, hsleeping, hdata, eventually_returns ⟨_, hs⟩ (fun n => ⟨_, _, rfl⟩) inTurn_fair⟩

end StackS

end LowLevel.Queues
