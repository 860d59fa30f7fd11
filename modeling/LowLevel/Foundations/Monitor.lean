import LowLevel.Foundations.Linearization
import LowLevel.Foundations.Machine

/-! # Monitors

A monitor is an object behind one mutex and one condition variable. An operation
takes the mutex, sleeps until its predicate holds, takes effect, notifies one
sleeper if it is one that notifies, and gives the mutex back. A condition
variable may wake a sleeper for no reason.

The calls of a monitor are linearizable in the order in which their bodies run,
and each finds its predicate true there.
-/

namespace LowLevel

open Linearization

/-- Calls that are executed in the same order leave the same state. -/
theorem Linearization.Replays.unique {S O R : Type*} {apply : S → O → R × S} {init s s' : S}
    {order : List (Entry O R)} (h : Replays apply init order s)
    (h' : Replays apply init order s') : s = s' := by
  induction h generalizing s' with
  | nil =>
    generalize hnil : ([] : List (Entry O R)) = order at h'
    cases h' with
    | nil => rfl
    | snoc id op h' => simp at hnil
  | snoc id op h ih =>
    rename_i order x
    generalize hlist : order ++ [(⟨id, op, (apply x op).1⟩ : Entry O R)] = whole at h'
    cases h' with
    | nil => simp at hlist
    | snoc id' op' h' =>
      obtain ⟨rfl, hlast⟩ := List.append_inj' hlist rfl
      obtain ⟨-, rfl, -⟩ := Entry.mk.injEq .. ▸ List.singleton_inj.mp hlast
      rw [ih h']

/-- A call in an order of effects has the result that the object gives at that point. -/
theorem Linearization.Replays.split {S O R : Type*} {apply : S → O → R × S} {init s : S}
    {pre post : List (Entry O R)} {e : Entry O R}
    (h : Replays apply init (pre ++ e :: post) s) :
    ∃ x, Replays apply init pre x ∧ e.res = (apply x e.op).1 := by
  generalize hlist : pre ++ e :: post = order at h
  induction h generalizing post with
  | nil => simp at hlist
  | snoc id op h ih =>
    rcases List.eq_nil_or_concat post with rfl | ⟨post, last, rfl⟩
    · obtain ⟨rfl, hlast⟩ := List.append_inj' hlist rfl
      obtain rfl := List.singleton_inj.mp hlast
      exact ⟨_, h, rfl⟩
    · rw [List.concat_eq_append, ← List.cons_append, ← List.append_assoc] at hlist
      exact ih (List.append_inj' hlist rfl).1

/-- The operations of a monitor: what they do, the predicates that they wait for, and the ones
that notify. -/
structure Monitor.Ops (S O R : Type*) where
  apply : S → O → R × S
  ready : S → O → Bool
  signals : O → Bool

/-- A thread between two of its steps. It holds the mutex in `body`, `notify` and `unlock`. -/
inductive Monitor.Phase (O R : Type*) where
  | idle
  | lock (op : O)
  | body (op : O)
  | asleep (op : O)
  | woken (op : O)
  | notify (res : R)
  | unlock (res : R)
  | ret (res : R)

/-- The object with the threads that use it. A call takes effect at the step that runs its body. -/
structure Monitor (ι S O R : Type*) where
  data : S
  owner : Option ι := none
  sleeping : List ι := []
  phase : ι → Monitor.Phase O R := fun _ => .idle
  calls : Calls ι O R := {}

namespace Monitor

variable {ι S O R : Type*}

/-- Call an operation, let a thread make its next step, or wake a sleeper for no reason. A thread
that notifies wakes the sleeper that is picked. -/
inductive Action (ι O : Type*) where
  | call (t : ι) (op : O)
  | move (t : ι) (pick : ℕ)
  | wake (t : ι)

def Phase.wake : Phase O R → Phase O R
  | .asleep op => .woken op
  | p => p

def Phase.holds : Phase O R → Bool
  | .body _ | .notify _ | .unlock _ => true
  | _ => false

variable [DecidableEq ι]

def goTo (s : Monitor ι S O R) (t : ι) (p : Phase O R) : Monitor ι S O R :=
  { s with phase := Function.update s.phase t p }

def wake (s : Monitor ι S O R) (t : ι) : Monitor ι S O R :=
  { s.goTo t (s.phase t).wake with sleeping := s.sleeping.erase t }

/-- `notify_one`: one of the sleepers wakes, if there are any. -/
def notifyOne (s : Monitor ι S O R) (pick : ℕ) : Monitor ι S O R :=
  match s.sleeping[pick % s.sleeping.length]? with
  | some u => s.wake u
  | none => s

def move (ops : Ops S O R) (s : Monitor ι S O R) (t : ι) (pick : ℕ) : Option (Monitor ι S O R) :=
  match s.phase t with
  | .idle | .asleep _ => none
  | .lock op | .woken op =>
    if s.owner.isNone then some { s.goTo t (.body op) with owner := some t } else none
  | .body op =>
    if ops.ready s.data op then
      let res := (ops.apply s.data op).1
      some { s.goTo t (if ops.signals op then .notify res else .unlock res) with
        data := (ops.apply s.data op).2
        calls := s.calls.settle t res }
    else some { s.goTo t (.asleep op) with owner := none, sleeping := s.sleeping ++ [t] }
  | .notify res => some ((s.notifyOne pick).goTo t (.unlock res))
  | .unlock res => some { s.goTo t (.ret res) with owner := none }
  | .ret res => some { s.goTo t .idle with calls := s.calls.ret t res }

def step (ops : Ops S O R) (s : Monitor ι S O R) : Action ι O → Option (Monitor ι S O R)
  | .call t op =>
    match s.phase t with
    | .idle => some { s.goTo t (.lock op) with calls := s.calls.call t op }
    | _ => none
  | .move t pick => s.move ops t pick
  | .wake t => if t ∈ s.sleeping then some (s.wake t) else none

def machine (ops : Ops S O R) (init : S) : Machine (Monitor ι S O R) (Action ι O) :=
  ⟨{ data := init }, step ops⟩

inductive Step (ops : Ops S O R) (s : Monitor ι S O R) : Monitor ι S O R → Prop
  | call (t : ι) (op : O) (ht : s.phase t = .idle) :
    Step ops s { s.goTo t (.lock op) with calls := s.calls.call t op }
  | lock (t : ι) (op : O) (ht : s.phase t = .lock op ∨ s.phase t = .woken op)
      (howner : s.owner = none) :
    Step ops s { s.goTo t (.body op) with owner := some t }
  | run (t : ι) (op : O) (ht : s.phase t = .body op) (hready : ops.ready s.data op = true) :
    Step ops s { s.goTo t (if ops.signals op then .notify (ops.apply s.data op).1
        else .unlock (ops.apply s.data op).1) with
      data := (ops.apply s.data op).2
      calls := s.calls.settle t (ops.apply s.data op).1 }
  | sleep (t : ι) (op : O) (ht : s.phase t = .body op) (hready : ops.ready s.data op = false) :
    Step ops s { s.goTo t (.asleep op) with owner := none, sleeping := s.sleeping ++ [t] }
  | notify (t u : ι) (res : R) (ht : s.phase t = .notify res) (hu : u ∈ s.sleeping) :
    Step ops s ((s.wake u).goTo t (.unlock res))
  | quiet (t : ι) (res : R) (ht : s.phase t = .notify res) (hnone : s.sleeping = []) :
    Step ops s (s.goTo t (.unlock res))
  | unlock (t : ι) (res : R) (ht : s.phase t = .unlock res) :
    Step ops s { s.goTo t (.ret res) with owner := none }
  | ret (t : ι) (res : R) (ht : s.phase t = .ret res) :
    Step ops s { s.goTo t .idle with calls := s.calls.ret t res }
  | wake (t : ι) (ht : t ∈ s.sleeping) : Step ops s (s.wake t)

variable {ops : Ops S O R} {init : S} {s s' : Monitor ι S O R} {t u : ι} {op : O} {res : R}

theorem notifyOne_cases (s : Monitor ι S O R) (pick : ℕ) :
    (∃ u ∈ s.sleeping, s.notifyOne pick = s.wake u) ∨
      s.sleeping = [] ∧ s.notifyOne pick = s := by
  unfold notifyOne
  split
  · rename_i u hu
    exact Or.inl ⟨u, List.mem_of_getElem? hu, rfl⟩
  · rename_i hnone
    refine Or.inr ⟨?_, rfl⟩
    by_contra hne
    have hpos := List.length_pos_iff.mpr hne
    rw [List.getElem?_eq_none_iff] at hnone
    exact absurd (Nat.mod_lt pick hpos) (Nat.not_lt.mpr hnone)

theorem step_of_move {pick : ℕ} (h : s.move ops t pick = some s') : Step ops s s' := by
  unfold move at h
  cases ht : s.phase t with
  | idle | asleep op =>
    rw [ht] at h
    cases h
  | lock op | woken op =>
    rw [ht] at h
    obtain ⟨howner, heq⟩ := Option.ite_none_right_eq_some.mp h
    obtain rfl := Option.some.inj heq
    apply Step.lock t op _ (Option.isNone_iff_eq_none.mp howner)
    simp [ht]
  | body op =>
    rw [ht] at h
    simp only at h
    split at h
    · rename_i hready
      obtain rfl := Option.some.inj h
      exact .run t op ht hready
    · rename_i hready
      obtain rfl := Option.some.inj h
      exact .sleep t op ht (Bool.eq_false_iff.mpr hready)
  | notify res =>
    rw [ht] at h
    obtain rfl := Option.some.inj h
    rcases s.notifyOne_cases pick with ⟨u, hu, heq⟩ | ⟨hnone, heq⟩
    · rw [heq]
      exact .notify t u res ht hu
    · rw [heq]
      exact .quiet t res ht hnone
  | unlock res =>
    rw [ht] at h
    obtain rfl := Option.some.inj h
    exact .unlock t res ht
  | ret res =>
    rw [ht] at h
    obtain rfl := Option.some.inj h
    exact .ret t res ht

theorem step_of_eq {a : Action ι O} (h : step ops s a = some s') : Step ops s s' := by
  cases a with
  | call t op =>
    cases ht : s.phase t with
    | idle =>
      simp only [step, ht] at h
      obtain rfl := Option.some.inj h
      exact .call t op ht
    | _ =>
      simp only [step, ht] at h
      cases h
  | move t pick => exact step_of_move h
  | wake t =>
    obtain ⟨ht, heq⟩ := Option.ite_none_right_eq_some.mp h
    obtain rfl := Option.some.inj heq
    exact .wake t ht

section Safety

def Ops.Waits (ops : Ops S O R) (op : O) : Prop := ∃ x, ops.ready x op = false

def Phase.sleeps : Phase O R → Bool
  | .asleep _ => true
  | _ => false

def Knows (ops : Ops S O R) : Phase O R → Status O R → Prop
  | .idle, _ => True
  | .lock op, status | .body op, status => ∃ id, status = .called id op
  | .asleep op, status | .woken op, status => (∃ id, status = .called id op) ∧ ops.Waits op
  | .notify res, status | .unlock res, status | .ret res, status =>
    ∃ id op, status = .settled id op res

variable {owner : Option ι} {sleeping : List ι} {phase : ι → Phase O R} {p : Phase O R}

/-- The mutex is in the hands of the thread that is between its lock and its unlock. -/
def Held (owner : Option ι) (phase : ι → Phase O R) : Prop :=
  ∀ t, (phase t).holds = true ↔ owner = some t

structure Listed (sleeping : List ι) (phase : ι → Phase O R) : Prop where
  nodup : sleeping.Nodup
  mem : ∀ t, t ∈ sleeping ↔ (phase t).sleeps = true

theorem Held.keep (h : Held owner phase) (hp : p.holds = (phase t).holds) :
    Held owner (Function.update phase t p) := by
  intro u
  rcases eq_or_ne u t with rfl | hne
  · rw [Function.update_self, hp]
    exact h u
  · rw [Function.update_of_ne hne]
    exact h u

theorem Held.take (h : Held none phase) (hp : p.holds = true) :
    Held (some t) (Function.update phase t p) := by
  intro u
  rcases eq_or_ne u t with rfl | hne
  · rw [Function.update_self]
    exact iff_of_true hp rfl
  · rw [Function.update_of_ne hne, h u]
    constructor
    · rintro ⟨⟩
    · rintro heq
      exact absurd (Option.some.inj heq).symm hne

theorem Held.release (h : Held owner phase) (ht : (phase t).holds = true) (hp : p.holds = false) :
    Held none (Function.update phase t p) := by
  intro u
  constructor
  · intro hu
    rcases eq_or_ne u t with rfl | hne
    · rw [Function.update_self, hp] at hu
      cases hu
    · rw [Function.update_of_ne hne, h u, (h t).mp ht] at hu
      exact absurd (Option.some.inj hu).symm hne
  · rintro ⟨⟩

theorem Listed.keep (h : Listed sleeping phase) (hp : p.sleeps = (phase t).sleeps) :
    Listed sleeping (Function.update phase t p) := by
  refine ⟨h.nodup, fun u => ?_⟩
  rcases eq_or_ne u t with rfl | hne
  · rw [Function.update_self, hp]
    exact h.mem u
  · rw [Function.update_of_ne hne]
    exact h.mem u

theorem Listed.sleep (h : Listed sleeping phase) (ht : (phase t).sleeps = false)
    (hp : p.sleeps = true) : Listed (sleeping ++ [t]) (Function.update phase t p) := by
  have hnot : t ∉ sleeping := by
    rw [h.mem t, ht]
    exact Bool.false_ne_true
  constructor
  case nodup =>
    rw [← List.concat_eq_append, List.nodup_concat]
    exact ⟨hnot, h.nodup⟩
  case mem =>
    intro u
    rw [List.mem_append, List.mem_singleton]
    rcases eq_or_ne u t with rfl | hne
    · rw [Function.update_self]
      exact iff_of_true (Or.inr rfl) hp
    · rw [Function.update_of_ne hne, ← h.mem u]
      exact or_iff_left hne

theorem Phase.sleeps_wake (p : Phase O R) : p.wake.sleeps = false := by
  cases p <;> rfl

theorem Phase.holds_wake (p : Phase O R) : p.wake.holds = p.holds := by
  cases p <;> rfl

theorem Listed.wake (h : Listed sleeping phase) (t : ι) :
    Listed (sleeping.erase t) (Function.update phase t (phase t).wake) := by
  refine ⟨h.nodup.erase t, fun u => ?_⟩
  rw [h.nodup.mem_erase_iff]
  rcases eq_or_ne u t with rfl | hne
  · rw [Function.update_self, Phase.sleeps_wake]
    exact iff_of_false (fun hu => hu.1 rfl) Bool.false_ne_true
  · rw [Function.update_of_ne hne, ← h.mem u]
    exact and_iff_right hne

/-- The calls so far, in the order of their bodies; each was ready when it ran. -/
structure Inv (ops : Ops S O R) (init : S) (s : Monitor ι S O R) : Prop where
  calls : s.calls.Ok ops.apply init s.data
  enabled : ∀ pre e post x, s.calls.order = pre ++ e :: post →
    Replays ops.apply init pre x → ops.ready x e.op = true
  knows : ∀ t, Knows ops (s.phase t) (s.calls.status t)
  held : Held s.owner s.phase
  listed : Listed s.sleeping s.phase

theorem Knows.wake {status : Status O R} (h : Knows ops p status) : Knows ops p.wake status := by
  cases p with
  | asleep op => exact h
  | _ => exact h

namespace Inv

omit [DecidableEq ι] in
theorem start (ops : Ops S O R) (init : S) :
    Inv ops init ({ data := init } : Monitor ι S O R) := by
  constructor
  case calls => exact .start _ _
  case enabled =>
    intro pre e post x heq
    cases pre <;> cases heq
  case knows =>
    intro t
    trivial
  case held =>
    intro t
    constructor <;> rintro ⟨⟩
  case listed =>
    constructor
    · exact List.nodup_nil
    · intro t
      constructor <;> rintro ⟨⟩

/-- A thread moves; the others know what they knew. -/
theorem knows_update (h : Inv ops init s) {status : ι → Status O R}
    (hothers : ∀ u ≠ t, status u = s.calls.status u) (ht : Knows ops p (status t)) (u : ι) :
    Knows ops (Function.update s.phase t p u) (status u) := by
  rcases eq_or_ne u t with rfl | hne
  · rw [Function.update_self]
    exact ht
  · rw [Function.update_of_ne hne, hothers u hne]
    exact h.knows u

/-- A thread moves without a change to the calls and the data. -/
theorem move (h : Inv ops init s) (hp : Knows ops p (s.calls.status t))
    (hheld : Held owner (Function.update s.phase t p))
    (hlisted : Listed sleeping (Function.update s.phase t p)) :
    Inv ops init { s.goTo t p with owner, sleeping } where
  calls := h.calls
  enabled := h.enabled
  knows := h.knows_update (fun _ _ => rfl) hp
  held := hheld
  listed := hlisted

theorem wake (h : Inv ops init s) (t : ι) : Inv ops init (s.wake t) :=
  h.move (h.knows t).wake (h.held.keep (s.phase t).holds_wake) (h.listed.wake t)

/-- The thread that notifies has nothing left to do but to unlock. -/
theorem notified (h : Inv ops init s) (ht : s.phase t = .notify res) :
    Inv ops init (s.goTo t (.unlock res)) := by
  apply h.move
  · have hknows := h.knows t
    rw [ht] at hknows
    exact hknows
  · exact h.held.keep (by rw [ht]; rfl)
  · exact h.listed.keep (by rw [ht]; rfl)

omit [DecidableEq ι] in
/-- The call in whose body a thread is. -/
theorem called (h : Inv ops init s) (ht : s.phase t = .body op) :
    ∃ id, s.calls.status t = .called id op := by
  have hknows := h.knows t
  rw [ht] at hknows
  exact hknows

/-- Whoever evaluates its predicate finds the state that the calls so far have left. -/
theorem enabled_settle (h : Inv ops init s) (ht : s.phase t = .body op)
    (hready : ops.ready s.data op = true) {pre post : List (Entry O R)} {e : Entry O R} {x : S}
    (heq : (s.calls.settle t res).order = pre ++ e :: post)
    (hpre : Replays ops.apply init pre x) : ops.ready x e.op = true := by
  obtain ⟨id, hid⟩ := h.called ht
  rw [Calls.settle_eq hid] at heq
  rcases List.eq_nil_or_concat post with rfl | ⟨post, last, rfl⟩
  · obtain ⟨rfl, hlast⟩ := List.append_inj' heq rfl
    obtain rfl := List.singleton_inj.mp hlast
    rw [hpre.unique h.calls.replays]
    exact hready
  · rw [List.concat_eq_append, ← List.cons_append, ← List.append_assoc] at heq
    exact h.enabled pre e post x (List.append_inj' heq rfl).1 hpre

theorem step_call (h : Inv ops init s) (ht : s.phase t = .idle) (op : O) :
    Inv ops init { s.goTo t (.lock op) with calls := s.calls.call t op } where
  calls := h.calls.call t op
  enabled := h.enabled
  knows := h.knows_update (fun _ hu => Calls.status_call_of_ne hu) ⟨_, Calls.status_call_self⟩
  held := h.held.keep (by rw [ht]; rfl)
  listed := h.listed.keep (by rw [ht]; rfl)

theorem step_lock (h : Inv ops init s) (ht : s.phase t = .lock op ∨ s.phase t = .woken op)
    (howner : s.owner = none) :
    Inv ops init { s.goTo t (.body op) with owner := some t } := by
  have hheld := h.held
  rw [howner] at hheld
  apply h.move
  · have hknows := h.knows t
    rcases ht with ht | ht <;> rw [ht] at hknows
    · exact hknows
    · exact hknows.1
  · exact hheld.take rfl
  · apply h.listed.keep
    rcases ht with ht | ht <;> rw [ht] <;> rfl

/-- A body that runs settles its call, which was ready. -/
theorem step_run (h : Inv ops init s) (ht : s.phase t = .body op)
    (hready : ops.ready s.data op = true) :
    Inv ops init { s.goTo t (if ops.signals op then .notify (ops.apply s.data op).1
        else .unlock (ops.apply s.data op).1) with
      data := (ops.apply s.data op).2
      calls := s.calls.settle t (ops.apply s.data op).1 } := by
  obtain ⟨id, hid⟩ := h.called ht
  constructor
  case calls => exact h.calls.settle hid rfl
  case enabled =>
    intro pre e post x heq hpre
    exact h.enabled_settle ht hready heq hpre
  case knows =>
    apply h.knows_update (fun u hu => Calls.status_settle_of_ne hu)
    rw [Calls.status_settle_self hid]
    split <;> exact ⟨id, op, rfl⟩
  case held =>
    apply h.held.keep
    rw [ht]
    split <;> rfl
  case listed =>
    apply h.listed.keep
    rw [ht]
    split <;> rfl

theorem step_ret (h : Inv ops init s) (ht : s.phase t = .ret res) :
    Inv ops init { s.goTo t .idle with calls := s.calls.ret t res } := by
  have hknows := h.knows t
  rw [ht] at hknows
  obtain ⟨id, op, hsettled⟩ := hknows
  constructor
  case calls => exact h.calls.ret hsettled
  case enabled =>
    rw [Calls.ret_eq hsettled]
    exact h.enabled
  case knows => exact h.knows_update (fun u hu => Calls.status_ret_of_ne hu) trivial
  case held => exact h.held.keep (by rw [ht]; rfl)
  case listed => exact h.listed.keep (by rw [ht]; rfl)

theorem step (h : Inv ops init s) (hstep : Step ops s s') : Inv ops init s' := by
  cases hstep with
  | call t op ht => exact h.step_call ht op
  | lock t op ht howner => exact h.step_lock ht howner
  | run t op ht hready => exact h.step_run ht hready
  | sleep t op ht hready =>
    apply h.move
    · exact ⟨h.called ht, s.data, hready⟩
    · exact h.held.release (by rw [ht]; rfl) rfl
    · exact h.listed.sleep (by rw [ht]; rfl) rfl
  | notify t u res ht hu =>
    apply (h.wake u).notified
    have hne : t ≠ u := by
      rintro rfl
      have hsleeps := (h.listed.mem t).mp hu
      rw [ht] at hsleeps
      cases hsleeps
    exact (Function.update_of_ne hne ..).trans ht
  | quiet t res ht hnone => exact h.notified ht
  | unlock t res ht =>
    apply h.move
    · have hknows := h.knows t
      rw [ht] at hknows
      exact hknows
    · exact h.held.release (by rw [ht]; rfl) rfl
    · exact h.listed.keep (by rw [ht]; rfl)
  | ret t res ht => exact h.step_ret ht
  | wake t ht => exact h.wake t

end Inv

omit [DecidableEq ι] in
/-- A call that has taken effect was ready then, and has the result of that moment. -/
theorem Inv.entry (h : Inv ops init s) {e : Entry O R} (he : e ∈ s.calls.order) :
    ∃ x, ops.ready x e.op = true ∧ e.res = (ops.apply x e.op).1 := by
  obtain ⟨pre, post, heq⟩ := List.append_of_mem he
  have hreplays := h.calls.replays
  rw [heq] at hreplays
  obtain ⟨x, hpre, hres⟩ := hreplays.split
  exact ⟨x, h.enabled pre e post x heq hpre, hres⟩

theorem inv_reachable (h : (machine ops init).Reachable s) : Inv ops init s := by
  apply h.invariant (.start ops init)
  intro s a s' ih hstep
  exact ih.step (step_of_eq hstep)

end Safety

end Monitor

end LowLevel
