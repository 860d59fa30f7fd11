import LowLevel.Foundations.Machine
import Mathlib.Data.UInt

/-! # The thread pool

`S` workers take jobs from `S` queues, each first from its own and then from
the others, and sleep on one condition variable when they find none. Any
number of callers add jobs. Every operation on a queue is one step, and so is
every lock, unlock, wait and notification. A condition variable may wake a
waiter for no reason.
-/

namespace LowLevel

namespace ThreadPool

/-- A task: the promise for its result, the function and the argument. -/
structure Job (F A : Type*) where
  promise : ℕ
  func : F
  args : A

/-- A caller in `schedule_job`. -/
inductive Caller (F A : Type*) where
  | idle
  | fetch (job : Job F A)
  | push (q : ℕ) (job : Job F A)
  | lock
  | notify
  | unlock

/-- A worker in `thread_handler`. Between `lock` and `unlock` it is in `cv.wait`: it checks for a
stop request, evaluates the predicate queue by queue, and blocks; after a stop request it
evaluates the predicate once more. -/
inductive Worker (F A E V : Type*) where
  | loop
  | own
  | steal (i : ℕ)
  | lock
  | check
  | predicate (i : ℕ)
  | blocked
  | woken
  | last (i : ℕ)
  | unlock
  | run (job : Job F A)
  | fulfil (job : Job F A) (outcome : Except E V)
  | exited

end ThreadPool

open ThreadPool

/-- The pool with the threads that use it. `owner` holds `cv_mutex`. The history records the jobs
with the number of their promise, the promises that were queued, the ones that were taken and by
whom, and what they were fulfilled with. -/
structure ThreadPool (S : ℕ) (C F A E V : Type*) where
  queues : ℕ → List (Job F A) := fun _ => []
  nextQueue : UInt64 := 0
  owner : Option (C ⊕ Fin S) := none
  callers : C → Caller F A := fun _ => .idle
  workers : Fin S → Worker F A E V := fun _ => .loop
  stopped : Fin S → Bool := fun _ => false
  jobs : List (F × A) := []
  queued : List ℕ := []
  taken : List (Fin S × ℕ) := []
  fulfilled : List (ℕ × Except E V) := []

namespace ThreadPool

variable {S : ℕ} {C F A E V : Type*} {s s' : ThreadPool S C F A E V}

/-- Call `schedule_job`, let a thread make a step, wake a waiter for no reason, or request a
worker to stop. The outcome is used by a worker whose function returns or throws. -/
inductive Action (S : ℕ) (C F A E V : Type*) where
  | schedule (c : C) (func : F) (args : A)
  | caller (c : C)
  | worker (w : Fin S) (outcome : Except E V)
  | wake (w : Fin S)
  | stop (w : Fin S)

def Worker.wake : Worker F A E V → Worker F A E V
  | .blocked => .woken
  | x => x

/-- The worker is in `cv.wait`, so a stop request notifies the condition variable. -/
def Worker.waits : Worker F A E V → Bool
  | .check | .predicate _ | .blocked | .woken | .last _ => true
  | _ => false

def notifyAll (s : ThreadPool S C F A E V) : ThreadPool S C F A E V :=
  { s with workers := fun w => (s.workers w).wake }

def setWorker (s : ThreadPool S C F A E V) (w : Fin S) (x : Worker F A E V) :
    ThreadPool S C F A E V :=
  { s with workers := Function.update s.workers w x }

/-- `promises[q].dequeue()`: a worker takes a job or goes on. -/
def take (s : ThreadPool S C F A E V) (w : Fin S) (q : ℕ) (next : Worker F A E V) :
    ThreadPool S C F A E V :=
  match s.queues q with
  | [] => s.setWorker w next
  | job :: rest =>
    { s.setWorker w (.run job) with
      queues := Function.update s.queues q rest
      taken := s.taken ++ [(w, job.promise)] }

def threadHandler (yields : F → A → Except E V → Bool) (s : ThreadPool S C F A E V) (w : Fin S)
    (outcome : Except E V) : Option (ThreadPool S C F A E V) :=
  match s.workers w with
  | .loop => some (s.setWorker w (if s.stopped w then .exited else .own))
  | .own => some (s.take w w (.steal 0))
  | .steal i => some (if i = S then s.setWorker w .lock else s.take w i (.steal (i + 1)))
  | .lock | .woken =>
    if s.owner.isNone then some { s.setWorker w .check with owner := some (.inr w) } else none
  | .check => some (s.setWorker w (if s.stopped w then .last 0 else .predicate 0))
  | .predicate i =>
    if i = S then
      if s.stopped w then some (s.setWorker w (.last 0))
      else some { s.setWorker w .blocked with owner := none }
    else some (s.setWorker w (if (s.queues i).length > 0 then .unlock else .predicate (i + 1)))
  | .last i =>
    some (s.setWorker w (if i = S ∨ (s.queues i).length > 0 then .unlock else .last (i + 1)))
  | .unlock => some { s.setWorker w .loop with owner := none }
  | .run job =>
    if yields job.func job.args outcome then some (s.setWorker w (.fulfil job outcome)) else none
  | .fulfil job outcome =>
    some { s.setWorker w .loop with fulfilled := s.fulfilled ++ [(job.promise, outcome)] }
  | .blocked | .exited => none

def Worker.job? : Worker F A E V → Option (Job F A)
  | .run job | .fulfil job _ => some job
  | _ => none

def Worker.holds : Worker F A E V → Bool
  | .check | .predicate _ | .last _ | .unlock => true
  | _ => false

/-- How many queues a worker has found empty since it last held `cv_mutex`, if it is about to
block or has blocked. -/
def Worker.checked (S : ℕ) : Worker F A E V → Option ℕ
  | .predicate i => some i
  | .blocked => some S
  | _ => none

def Caller.notifying : Caller F A → Bool
  | .lock | .notify => true
  | _ => false

def Caller.holds : Caller F A → Bool
  | .notify | .unlock => true
  | _ => false

def Caller.job? : Caller F A → Option (Job F A)
  | .fetch job | .push _ job => some job
  | _ => none

/-- A worker moves on alone: it keeps its job and the mutex, has found one more queue empty if
it goes on with the predicate, and has an outcome of its function. -/
structure Worker.Moves (S : ℕ) (yields : F → A → Except E V → Bool) (queues : ℕ → List (Job F A))
    (x y : Worker F A E V) : Prop where
  job : y.job? = x.job?
  holds : y.holds = x.holds
  checked : ∀ i, y.checked S = some i →
    i = 0 ∨ ∃ j, i = j + 1 ∧ x.checked S = some j ∧ queues j = []
  outcome : ∀ job outcome, y = .fulfil job outcome → yields job.func job.args outcome = true

variable [DecidableEq C]

def setCaller (s : ThreadPool S C F A E V) (c : C) (x : Caller F A) : ThreadPool S C F A E V :=
  { s with callers := Function.update s.callers c x }

def scheduleJob (s : ThreadPool S C F A E V) (c : C) : Option (ThreadPool S C F A E V) :=
  match s.callers c with
  | .idle => none
  | .fetch job => some { s.setCaller c (.push (s.nextQueue.toNat % S) job) with
      nextQueue := s.nextQueue + 1 }
  | .push q job => some { s.setCaller c .lock with
      queues := Function.update s.queues q (s.queues q ++ [job])
      queued := s.queued ++ [job.promise] }
  | .lock =>
    if s.owner.isNone then some { s.setCaller c .notify with owner := some (.inl c) } else none
  | .notify => some (s.notifyAll.setCaller c .unlock)
  | .unlock => some { s.setCaller c .idle with owner := none }

def step (yields : F → A → Except E V → Bool) (s : ThreadPool S C F A E V) :
    Action S C F A E V → Option (ThreadPool S C F A E V)
  | .schedule c func args =>
    match s.callers c with
    | .idle => some { s.setCaller c (.fetch ⟨s.jobs.length, func, args⟩) with
        jobs := s.jobs ++ [(func, args)] }
    | _ => none
  | .caller c => s.scheduleJob c
  | .worker w outcome => s.threadHandler yields w outcome
  | .wake w => some (s.setWorker w (s.workers w).wake)
  | .stop w =>
    let s' := { s with stopped := Function.update s.stopped w true }
    some (if (s.workers w).waits then s'.notifyAll else s')

def machine (yields : F → A → Except E V → Bool) :
    Machine (ThreadPool S C F A E V) (Action S C F A E V) :=
  ⟨{}, step yields⟩

inductive Step (yields : F → A → Except E V → Bool) (s : ThreadPool S C F A E V) :
    ThreadPool S C F A E V → Prop
  | schedule (c : C) (func : F) (args : A) (h : s.callers c = .idle) :
    Step yields s { s.setCaller c (.fetch ⟨s.jobs.length, func, args⟩) with
      jobs := s.jobs ++ [(func, args)] }
  | fetch (c : C) (job : Job F A) (h : s.callers c = .fetch job) :
    Step yields s { s.setCaller c (.push (s.nextQueue.toNat % S) job) with
      nextQueue := s.nextQueue + 1 }
  | push (c : C) (q : ℕ) (job : Job F A) (h : s.callers c = .push q job) :
    Step yields s { s.setCaller c .lock with
      queues := Function.update s.queues q (s.queues q ++ [job])
      queued := s.queued ++ [job.promise] }
  | lockCaller (c : C) (h : s.callers c = .lock) (ho : s.owner = none) :
    Step yields s { s.setCaller c .notify with owner := some (.inl c) }
  | notify (c : C) (h : s.callers c = .notify) :
    Step yields s (s.notifyAll.setCaller c .unlock)
  | unlockCaller (c : C) (h : s.callers c = .unlock) :
    Step yields s { s.setCaller c .idle with owner := none }
  | take (w : Fin S) (q : ℕ) (job : Job F A) (rest : List (Job F A))
      (h : (s.workers w).job? = none ∧ (s.workers w).holds = false)
      (hjob : s.queues q = job :: rest) :
    Step yields s { s.setWorker w (.run job) with
      queues := Function.update s.queues q rest
      taken := s.taken ++ [(w, job.promise)] }
  | move (w : Fin S) (x : Worker F A E V) (h : (s.workers w).Moves S yields s.queues x) :
    Step yields s (s.setWorker w x)
  | lockWorker (w : Fin S) (h : s.workers w = .lock ∨ s.workers w = .woken)
      (ho : s.owner = none) :
    Step yields s { s.setWorker w .check with owner := some (.inr w) }
  | block (w : Fin S) (h : s.workers w = .predicate S) :
    Step yields s { s.setWorker w .blocked with owner := none }
  | unlockWorker (w : Fin S) (h : s.workers w = .unlock) :
    Step yields s { s.setWorker w .loop with owner := none }
  | fulfil (w : Fin S) (job : Job F A) (outcome : Except E V)
      (h : s.workers w = .fulfil job outcome) :
    Step yields s { s.setWorker w .loop with
      fulfilled := s.fulfilled ++ [(job.promise, outcome)] }
  | wake (w : Fin S) : Step yields s (s.setWorker w (s.workers w).wake)
  | stop (stopped : Fin S → Bool) : Step yields s { s with stopped }
  | stopWaiting (stopped : Fin S → Bool) : Step yields s { s.notifyAll with stopped }

theorem Worker.Moves.plain {yields : F → A → Except E V → Bool} {queues : ℕ → List (Job F A)}
    {x y : Worker F A E V} (hx : x.job? = none) (hy : y.job? = none) (hholds : y.holds = x.holds)
    (hchecked : y.checked S = none ∨ y.checked S = some 0) : x.Moves S yields queues y := by
  refine ⟨by rw [hx, hy], hholds, ?_, ?_⟩
  · intro i hi
    left
    rcases hchecked with hnone | hzero
    · rw [hnone] at hi
      cases hi
    · rw [hzero] at hi
      exact (Option.some.inj hi).symm
  · rintro job outcome rfl
    cases hy

theorem step_take {yields : F → A → Except E V → Bool} {w : Fin S} {q : ℕ} {x : Worker F A E V}
    (h : (s.workers w).job? = none ∧ (s.workers w).holds = false)
    (hx : x.job? = none ∧ x.holds = false ∧ x.checked S = none) :
    Step yields s (s.take w q x) := by
  unfold ThreadPool.take
  split
  · exact .move w x (.plain h.1 hx.1 (hx.2.1.trans h.2.symm) (.inl hx.2.2))
  · rename_i job rest hjob
    exact .take w q job rest h hjob

section Phases

variable {yields : F → A → Except E V → Bool} {w : Fin S} {outcome : Except E V}

theorem step_lock (hw : s.workers w = .lock ∨ s.workers w = .woken)
    (h : s.threadHandler yields w outcome = some s') : Step yields s s' := by
  unfold threadHandler at h
  obtain ⟨ho, heq⟩ : s.owner.isNone = true ∧
      some { s.setWorker w .check with owner := some (.inr w) } = some s' := by
    rcases hw with hw | hw
    · rw [hw] at h
      exact Option.ite_none_right_eq_some.mp h
    · rw [hw] at h
      exact Option.ite_none_right_eq_some.mp h
  obtain rfl := Option.some.inj heq
  exact .lockWorker w hw (Option.isNone_iff_eq_none.mp ho)

theorem step_predicate {i : ℕ} (hw : s.workers w = .predicate i)
    (h : s.threadHandler yields w outcome = some s') : Step yields s s' := by
  unfold threadHandler at h
  rw [hw] at h
  simp only at h
  split_ifs at h with hi hstopped hpos
  · subst hi
    cases h
    apply Step.move
    rw [hw]
    exact .plain rfl rfl rfl (.inl rfl)
  · subst hi
    cases h
    exact .block w hw
  · cases h
    apply Step.move
    rw [hw]
    exact .plain rfl rfl rfl (.inl rfl)
  · cases h
    apply Step.move
    rw [hw]
    refine ⟨rfl, rfl, ?_, nofun⟩
    rintro j ⟨⟩
    exact .inr ⟨i, rfl, rfl, List.length_eq_zero_iff.mp (Nat.eq_zero_of_not_pos hpos)⟩

theorem step_run {job : Job F A} (hw : s.workers w = .run job)
    (h : s.threadHandler yields w outcome = some s') : Step yields s s' := by
  unfold threadHandler at h
  rw [hw] at h
  obtain ⟨hyields, heq⟩ := Option.ite_none_right_eq_some.mp h
  obtain rfl := Option.some.inj heq
  apply Step.move
  rw [hw]
  refine ⟨rfl, rfl, nofun, ?_⟩
  rintro job outcome ⟨⟩
  exact hyields

theorem step_search (hw : s.workers w = .own ∨ ∃ i, s.workers w = .steal i)
    (h : s.threadHandler yields w outcome = some s') : Step yields s s' := by
  unfold threadHandler at h
  rcases hw with hw | ⟨i, hw⟩
  · rw [hw] at h
    cases h
    exact step_take (by rw [hw]; exact ⟨rfl, rfl⟩) ⟨rfl, rfl, rfl⟩
  · rw [hw] at h
    cases h
    split
    · apply Step.move
      rw [hw]
      exact .plain rfl rfl rfl (.inl rfl)
    · exact step_take (by rw [hw]; exact ⟨rfl, rfl⟩) ⟨rfl, rfl, rfl⟩

/-- The worker finds out whether it was asked to stop, or goes through the queues before it
leaves. -/
theorem step_asked (hw : s.workers w = .loop ∨ s.workers w = .check ∨ ∃ i, s.workers w = .last i)
    (h : s.threadHandler yields w outcome = some s') : Step yields s s' := by
  unfold threadHandler at h
  rcases hw with hw | hw | ⟨i, hw⟩
  all_goals
    rw [hw] at h
    cases h
    apply Step.move
    rw [hw]
    split
  all_goals exact .plain rfl rfl rfl (by simp [Worker.checked])

theorem step_of_threadHandler (h : s.threadHandler yields w outcome = some s') :
    Step yields s s' := by
  cases hw : s.workers w with
  | loop => exact step_asked (.inl hw) h
  | own => exact step_search (.inl hw) h
  | steal i => exact step_search (.inr ⟨i, hw⟩) h
  | lock => exact step_lock (.inl hw) h
  | woken => exact step_lock (.inr hw) h
  | check => exact step_asked (.inr (.inl hw)) h
  | predicate i => exact step_predicate hw h
  | last i => exact step_asked (.inr (.inr ⟨i, hw⟩)) h
  | run job => exact step_run hw h
  | unlock =>
    unfold threadHandler at h
    rw [hw] at h
    cases h
    exact .unlockWorker w hw
  | fulfil job outcome =>
    unfold threadHandler at h
    rw [hw] at h
    cases h
    exact .fulfil w job outcome hw
  | blocked | exited =>
    unfold threadHandler at h
    rw [hw] at h
    cases h

end Phases

theorem step_of_eq {yields : F → A → Except E V → Bool} {a : Action S C F A E V}
    (h : step yields s a = some s') : Step yields s s' := by
  cases a with
  | schedule c func args =>
    simp only [step] at h
    split at h
    · rename_i hc
      cases h
      exact .schedule c func args hc
    · cases h
  | caller c =>
    simp only [step, scheduleJob] at h
    split at h
    · cases h
    · rename_i job hc
      cases h
      exact .fetch c job hc
    · rename_i q job hc
      cases h
      exact .push c q job hc
    · rename_i hc
      split at h
      · rename_i ho
        cases h
        exact .lockCaller c hc (Option.isNone_iff_eq_none.mp ho)
      · cases h
    · rename_i hc
      cases h
      exact .notify c hc
    · rename_i hc
      cases h
      exact .unlockCaller c hc
  | worker w outcome => exact step_of_threadHandler h
  | wake w =>
    cases h
    exact .wake w
  | stop w =>
    simp only [step] at h
    split at h
    · cases h
      exact .stopWaiting _
    · cases h
      exact .stop _

end ThreadPool

end LowLevel
