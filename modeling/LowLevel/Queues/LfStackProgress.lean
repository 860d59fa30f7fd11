import LowLevel.Foundations.Amortized
import LowLevel.Queues.LfStackRuns

/-! # Retries of the lock-free stack

An exchange fails spuriously, or because the head is not the one that the thread
has seen; then another thread has exchanged it since. So the retries of a thread
are paid by its spurious failures and by the calls that take effect.
-/

namespace LowLevel.Queues.LfStack

open Linearization

variable {ι T : Type*} {s s' : LfStack ι T} {entries : List (ℕ × T)} {t u : ι}

/-- The steps that a thread still needs if no other thread exchanges the head. -/
def left (s : LfStack ι T) (t : ι) : ℕ :=
  match s.phase t with
  | .idle | .crashed => 0
  | .pushLoad _ => 3
  | .pushExchange n => if (s.nodes n).map Node.prev = some s.head then 2 else 3
  | .pushReturn => 1
  | .popLoad => 4
  | .popTest currHead => if currHead = s.head then 3 else 5
  | .popExchange currHead _ => if some currHead = s.head then 2 else 4
  | .popReturn _ => 1

section Others

variable (hphase : s'.phase t = s.phase t)
  (hnodes : ∀ n, s.phase t = .pushExchange n → s'.nodes n = s.nodes n)

include hphase hnodes

theorem left_same (hhead : s'.head = s.head) : s'.left t = s.left t := by
  unfold left
  rw [hphase, hhead]
  cases hp : s.phase t with
  | pushExchange n => simp only [hnodes n hp]
  | _ => rfl

theorem left_exchanged : s'.left t ≤ s.left t + 2 := by
  unfold left
  rw [hphase]
  cases hp : s.phase t with
  | pushExchange n =>
    simp only [hnodes n hp]
    split <;> split <;> omega
  | popTest currHead =>
    simp only
    split <;> split <;> omega
  | popExchange currHead prev =>
    simp only
    split <;> split <;> omega
  | _ => exact Nat.le_add_right ..

end Others

variable [DecidableEq ι]

/-- What a step of a thread does to the others, and what is left for itself: the head stays, and
the step was needed or failed for no reason; or a call takes effect. -/
structure Pays (s s' : LfStack ι T) (u : ι) (spurious : Bool) : Prop where
  phase : ∀ t ≠ u, s'.phase t = s.phase t
  nodes : ∀ t ≠ u, ∀ n, s.phase t = .pushExchange n → s'.nodes n = s.nodes n
  self : s'.head = s.head ∧ s'.calls.order = s.calls.order ∧
      1 + s'.left u ≤ s.left u + (if spurious then 2 else 0) ∨
    s'.calls.order.length = s.calls.order.length + 1 ∧ 1 + s'.left u ≤ s.left u

theorem order_ret (calls : Calls ι (StackOp T) (Option T)) (t : ι) (res : Option T) :
    (calls.ret t res).order = calls.order := by
  unfold Calls.ret
  split <;> rfl

theorem order_settle {calls : Calls ι (StackOp T) (Option T)} {id : ℕ} {op : StackOp T}
    (h : calls.status t = .called id op) (res : Option T) :
    (calls.settle t res).order.length = calls.order.length + 1 := by
  rw [Calls.settle_eq h]
  exact List.length_append

theorem goTo_phase (p : Phase T) : ∀ t ≠ u, (s.goTo u p).phase t = s.phase t :=
  fun _ ht => Function.update_of_ne ht ..

/-- An exchange that fails although the head is the expected one fails for no reason. -/
theorem spurious_of_fail {P : Prop} {spurious : Bool} (hfail : ¬ (P ∧ spurious = false)) (h : P) :
    spurious = true := by
  by_contra hnot
  exact hfail ⟨h, Bool.not_eq_true _ ▸ hnot⟩

section Phases

variable {spurious : Bool}

theorem Inv.pays_make {value : T} (h : Inv s entries) (hp : s.phase u = .pushLoad value)
    (hmove : s.move u spurious = some s') : Pays s s' u spurious := by
  rw [LfStack.move, hp] at hmove
  obtain rfl := Option.some.inj hmove
  refine ⟨goTo_phase _, ?_, Or.inl ⟨rfl, rfl, ?_⟩⟩
  · intro t ht n hn
    obtain ⟨-, id, value, prev, hnode, -⟩ := h.own hn
    apply Function.update_of_ne
    rintro rfl
    rw [h.fresh _ le_rfl] at hnode
    cases hnode
  · simp [left, goTo, hp]

theorem Inv.pays_pushExchange {n : ℕ} (h : Inv s entries) (hp : s.phase u = .pushExchange n)
    (hmove : s.move u spurious = some s') : Pays s s' u spurious := by
  obtain ⟨-, id, value, prev, hnode, hcalled⟩ := h.own hp
  simp only [LfStack.move, hp, hnode] at hmove
  split at hmove
  · rename_i hhead
    obtain rfl := Option.some.inj hmove
    refine ⟨goTo_phase _, fun _ _ _ _ => rfl, Or.inr ⟨order_settle hcalled none, ?_⟩⟩
    simp [left, goTo, hp, hnode, hhead.1]
  · rename_i hfail
    obtain rfl := Option.some.inj hmove
    refine ⟨fun _ _ => rfl, ?_, Or.inl ⟨rfl, rfl, ?_⟩⟩
    · intro t ht m hm
      apply Function.update_of_ne
      rintro rfl
      exact ht (h.distinct t u m hm hp)
    · simp only [left, hp, hnode, Function.update_self, Option.map_some, Option.some.injEq, if_true]
      split
      · rename_i hprev
        simp [spurious_of_fail hfail hprev.symm]
      · omega

theorem Inv.pays_popTest {currHead : Option ℕ} (h : Inv s entries)
    (hp : s.phase u = .popTest currHead) (hmove : s.move u spurious = some s') :
    Pays s s' u spurious := by
  have hself := h.threads u
  rw [Knows, hp] at hself
  obtain ⟨n, node, id, rfl, hnode, -, -⟩ := hself
  simp only [LfStack.move, hp, hnode] at hmove
  obtain rfl := Option.some.inj hmove
  refine ⟨goTo_phase _, fun _ _ _ _ => rfl, Or.inl ⟨rfl, rfl, ?_⟩⟩
  by_cases hn : some n = s.head
  · simp [left, goTo, hp, hn]
  · simp [left, goTo, hp, hn]

theorem Inv.pays_popExchange {n : ℕ} {prev : Option ℕ} (h : Inv s entries)
    (hp : s.phase u = .popExchange n prev) (hmove : s.move u spurious = some s') :
    Pays s s' u spurious := by
  have hself := h.threads u
  rw [Knows, hp] at hself
  obtain ⟨-, id, value, -, hcalled⟩ := hself
  simp only [LfStack.move, hp] at hmove
  split at hmove
  · rename_i hhead
    obtain rfl := Option.some.inj hmove
    refine ⟨goTo_phase _, fun _ _ _ _ => rfl, Or.inr ⟨order_settle hcalled _, ?_⟩⟩
    simp [left, goTo, hp, hhead.1]
  · rename_i hfail
    obtain rfl := Option.some.inj hmove
    refine ⟨goTo_phase _, fun _ _ _ _ => rfl, Or.inl ⟨rfl, rfl, ?_⟩⟩
    simp only [left, goTo, hp, Function.update_self, if_true]
    split
    · rename_i hhead
      rw [if_pos (spurious_of_fail hfail hhead.symm)]
    · omega

theorem Inv.pays (h : Inv s entries) (hmove : s.move u spurious = some s') :
    Pays s s' u spurious := by
  have hself := h.threads u
  rw [Knows] at hself
  cases hp : s.phase u with
  | pushLoad value => exact h.pays_make hp hmove
  | pushExchange n => exact h.pays_pushExchange hp hmove
  | popTest currHead => exact h.pays_popTest hp hmove
  | popExchange n prev => exact h.pays_popExchange hp hmove
  | idle | crashed =>
    rw [LfStack.move, hp] at hmove
    cases hmove
  | pushReturn =>
    rw [LfStack.move, hp] at hmove
    obtain rfl := Option.some.inj hmove
    refine ⟨goTo_phase _, fun _ _ _ _ => rfl, Or.inl ⟨rfl, order_ret .., ?_⟩⟩
    simp [left, goTo, hp]
  | popLoad =>
    rw [LfStack.move, hp] at hmove
    obtain rfl := Option.some.inj hmove
    refine ⟨goTo_phase _, fun _ _ _ _ => rfl, Or.inl ⟨rfl, rfl, ?_⟩⟩
    simp [left, goTo, hp]
  | popReturn currHead =>
    rw [hp] at hself
    obtain ⟨n, id, value, prev, rfl, -, hnode, hsettled⟩ := hself
    simp only [LfStack.move, hp, hnode] at hmove
    obtain rfl := Option.some.inj hmove
    refine ⟨goTo_phase _, fun _ _ _ _ => rfl, Or.inl ⟨rfl, order_ret .., ?_⟩⟩
    simp [left, goTo, hp]

end Phases

section Runs

def Action.steps (t : ι) : Action ι T → Bool
  | .move u _ => u = t
  | _ => false

def Action.calls (t : ι) : Action ι T → Bool
  | .push u _ | .pop u => u = t
  | .move .. => false

/-- The action is a step of the thread in which an exchange fails for no reason. -/
def Action.spurious (t : ι) : Action ι T → Bool
  | .move u spurious => u = t && spurious
  | _ => false

/-- What a step of a thread costs, and what its actions bring. -/
def Action.cost (t : ι) (act : Action ι T) : ℕ := if act.steps t then 1 else 0

def Action.credit (t : ι) (act : Action ι T) : ℕ :=
  (if act.calls t then 4 else 0) + if act.spurious t then 2 else 0

variable (s u) in
theorem paid_of_call (p : Phase T) (calls : Calls ι (StackOp T) (Option T))
    (hp : ({ s.goTo u p with calls } : LfStack ι T).left u ≤ 4) (t : ι) :
    ({ s.goTo u p with calls } : LfStack ι T).left t ≤ s.left t + if u = t then 4 else 0 := by
  rcases eq_or_ne u t with rfl | hne
  · rw [if_pos rfl]
    exact hp.trans (Nat.le_add_left ..)
  · have hsame : ({ s.goTo u p with calls } : LfStack ι T).left t = s.left t :=
      left_same (Function.update_of_ne hne.symm ..) (fun _ _ => rfl) rfl
    rw [hsame]
    exact Nat.le_add_right ..

theorem Inv.paid {act : Action ι T} (h : Inv s entries) (hstep : s.step act = some s') (t : ι) :
    act.cost t + s'.left t + 2 * s.calls.order.length ≤
      s.left t + act.credit t + 2 * s'.calls.order.length := by
  cases act with
  | push u value =>
    simp only [LfStack.step] at hstep
    split at hstep
    · obtain rfl := Option.some.inj hstep
      have hcall := paid_of_call s u (.pushLoad value) (s.calls.call u (.push value))
        (by simp [left, goTo]) t
      simp only [Action.cost, Action.credit, Action.steps, Action.calls, Action.spurious,
        decide_eq_true_eq, Bool.false_eq_true, if_false, Calls.call] at hcall ⊢
      omega
    · cases hstep
  | pop u =>
    simp only [LfStack.step] at hstep
    split at hstep
    · obtain rfl := Option.some.inj hstep
      have hcall := paid_of_call s u .popLoad (s.calls.call u .pop) (by simp [left, goTo]) t
      simp only [Action.cost, Action.credit, Action.steps, Action.calls, Action.spurious,
        decide_eq_true_eq, Bool.false_eq_true, if_false, Calls.call] at hcall ⊢
      omega
    · cases hstep
  | move u spurious =>
    have hpays := h.pays hstep
    simp only [Action.cost, Action.credit, Action.steps, Action.calls, Action.spurious]
    rcases eq_or_ne u t with rfl | hne
    · simp only [decide_true, Bool.true_and, if_true, Bool.false_eq_true, if_false]
      rcases hpays.self with ⟨-, horder, hleft⟩ | ⟨horder, hleft⟩
      · rw [horder]
        omega
      · omega
    · simp only [hne, decide_false, Bool.false_and, Bool.false_eq_true, if_false]
      have hnodes := hpays.nodes t hne.symm
      rcases hpays.self with ⟨hhead, horder, -⟩ | ⟨horder, -⟩
      · rw [left_same (hpays.phase t hne.symm) hnodes hhead, horder]
        omega
      · have hleft := left_exchanged (hpays.phase t hne.symm) hnodes
        omega

/-- The number of steps that a thread makes is bounded by what it calls and by what succeeds: four
steps for each of its calls, two for each spurious failure and two for each call that has taken
effect. As long as no pop reads a null head, no thread waits for what the others leave undone. -/
theorem run_retries {acts : List (Action ι T)}
    (hrun : ((machine ι T).under seesNode).run {} acts = some s) (t : ι) :
    acts.countP (Action.steps t) ≤ 4 * acts.countP (Action.calls t) +
      2 * acts.countP (Action.spurious t) + 2 * s.calls.order.length := by
  have hpaid := Machine.run_amortized (M := (machine ι T).under seesNode)
    (I := ((machine ι T).under seesNode).Reachable) (Action.cost t) (Action.credit t)
    (fun s => s.left t) (fun s => 2 * s.calls.order.length) ?_ ?_ hrun
  · have hcost : (acts.map (Action.cost t)).sum = 1 * acts.countP (Action.steps t) :=
      Machine.sum_ite (Action.steps t) 1 acts
    have hcredit : (acts.map (Action.credit t)).sum =
        4 * acts.countP (Action.calls t) + 2 * acts.countP (Action.spurious t) := by
      rw [← Machine.sum_ite, ← Machine.sum_ite, ← List.sum_map_add]
      rfl
    have hstart : ({} : LfStack ι T).left t = 0 := rfl
    rw [hcost, hcredit, hstart] at hpaid
    omega
  · intro s₁ act s₂ hs₁ hs₂
    obtain ⟨entries, hinv⟩ := reachable_inv hs₁
    exact hinv.paid (Machine.under_step.mp hs₂).2 t
  · intro pre s₁ _ hpre
    exact ⟨pre, hpre⟩

/-- A push that goes back twice, for a spurious failure and for the push of another thread. -/
theorem run_retries_race : ∃ (s : LfStack ℕ ℕ) (acts : List (Action ℕ ℕ)),
    ((machine ℕ ℕ).under seesNode).run {} acts = some s ∧
    acts.countP (Action.steps 0) = 5 ∧ s.calls.order.length = 2 ∧
    acts.countP (Action.steps 0) ≤ 4 * acts.countP (Action.calls 0) +
      2 * acts.countP (Action.spurious 0) + 2 * s.calls.order.length := by
  have hrun : ((machine ℕ ℕ).under seesNode).run {} [.push 0 7, .push 1 9, .move 0 false,
      .move 0 true, .move 1 false, .move 1 false, .move 0 false, .move 0 false,
      .move 0 false] = some _ := rfl
  exact ⟨_, _, hrun, rfl, rfl, run_retries hrun 0⟩

end Runs

end LowLevel.Queues.LfStack
