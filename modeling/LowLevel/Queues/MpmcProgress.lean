import LowLevel.Foundations.Amortized
import LowLevel.Queues.MpmcRuns

/-! # Retries of the multi-producer multi-consumer queue

A thread without a ticket goes back in its loop for two reasons: a
compare-and-swap fails spuriously, or another thread of its side has drawn the
ticket that it was after. The cell of the current counter value is never ahead
of the counter, so there is no third reason. Whatever the other threads do, even
if they stop within their calls, the steps of a thread are therefore paid by its
calls, its spurious failures and the tickets of its side.
-/

namespace LowLevel.Queues.Mpmc

variable {P Q T : Type*} {S : UInt64} {s s' : Mpmc P Q T} {p : P} {q : Q} {a : Action P Q T}
  {acts : List (Action P Q T)} {view buffer : Buffer T} {turn : ℕ → Turn P Q T} {n : ℕ}

theorem exists_current {log : List T} {d : ℕ} (h : Turns S.toNat UInt64.ofNat view turn log d)
    (hS : 0 < S.toNat) (n : ℕ) (hn : (turn n).isReleased = false) :
    ∃ u, (u = n ∨ u + S.toNat ≤ n) ∧ view (n % S.toNat) = (turn u).cell UInt64.ofNat u := by
  induction n using Nat.strongRecOn with
  | _ n ih =>
    by_cases hready : Ready S.toNat turn n
    · exact ⟨n, Or.inl rfl, h.cell n hn hready⟩
    · obtain ⟨w, hw⟩ := not_forall.mp hready
      obtain ⟨rfl, hreleased⟩ := Classical.not_imp.mp hw
      obtain ⟨u, hu, hcell⟩ := ih w (by omega) (Bool.not_eq_true _ ▸ hreleased)
      refine ⟨u, Or.inr (by omega), ?_⟩
      rw [Nat.add_mod_right]
      exact hcell

theorem diff_le {k m : ℕ} (hk : k ≤ m) (hm : m ≤ 2 ^ 63) :
    (UInt64.ofNat k - UInt64.ofNat m).toInt64 ≤ 0 := by
  have hnat : (UInt64.ofNat k - UInt64.ofNat m).toNat = (2 ^ 64 - m + k) % 2 ^ 64 := by
    rw [UInt64.toNat_sub, UInt64.toNat_ofNat', UInt64.toNat_ofNat',
      Nat.mod_eq_of_lt (by omega : k < 2 ^ 64), Nat.mod_eq_of_lt (by omega : m < 2 ^ 64)]
  rw [Int64.le_iff_toInt_le]
  change (UInt64.ofNat k - UInt64.ofNat m).toBitVec.toInt ≤ 0
  rw [BitVec.toInt_eq_toNat_cond, UInt64.toNat_toBitVec, hnat]
  split <;> omega

section Seeking

/-- The steps that a thread still needs if no other thread of its side draws a ticket. -/
def Seek.left (ptr : UInt64) : Seek → ℕ
  | .load => 6
  | .loop pos => if pos = ptr then 5 else 7
  | .cas pos => if pos = ptr then 4 else 6

theorem Seek.four_le_left (ptr : UInt64) (x : Seek) : 4 ≤ x.left ptr := by
  cases x with
  | load => exact Nat.le_add_right 4 2
  | loop pos =>
    rw [left]
    split <;> decide
  | cas pos =>
    rw [left]
    split <;> decide

theorem Seek.left_drawn (ptr ptr' : UInt64) (x : Seek) : x.left ptr' ≤ x.left ptr + 2 := by
  cases x with
  | load => exact Nat.le_add_right ..
  | loop pos =>
    simp only [left]
    split <;> split <;> decide
  | cas pos =>
    simp only [left]
    split <;> split <;> decide

/-- A thread goes back only after a spurious failure, or if another thread drew a ticket. -/
theorem Seek.left_next {lead ptr : UInt64} {spurious : Bool} {x y : Seek}
    (hx : x.next S lead ptr buffer spurious = .again y)
    (hbehind : ((buffer (slot S ptr)).sequence - (ptr + lead)).toInt64 ≤ 0) :
    1 + y.left ptr ≤ x.left ptr + if spurious then 2 else 0 := by
  cases x with
  | load =>
    cases hx
    simp [left]
  | loop pos =>
    simp only [next] at hx
    split at hx
    · cases hx
      simp only [left]
      split <;> omega
    · rename_i hzero
      split at hx
      · cases hx
      · rename_i hneg
        cases hx
        have hpos : pos ≠ ptr := by
          rintro rfl
          rcases Int64.lt_or_eq_of_le hbehind with hlt | heq
          · exact hneg hlt
          · exact hzero heq
        simp only [left, if_neg hpos]
        omega
  | cas pos =>
    simp only [next] at hx
    split at hx
    · cases hx
    · rename_i hfail
      cases hx
      simp only [left, if_true]
      split
      · rename_i hpos
        have hspurious : spurious = true := by
          by_contra hnot
          exact hfail ⟨hpos.symm, Bool.not_eq_true _ ▸ hnot⟩
        rw [if_pos hspurious]
      · omega

end Seeking

section Behind

theorem diff_current {log : List T} {d k : ℕ} (hS : Admitted S)
    (hshows : Shows buffer view) (h : Turns S.toNat UInt64.ofNat view turn log d)
    (h2 : 2 ≤ S.toNat) (hn : (turn n).isReleased = false)
    (hnext : ((turn n).cell UInt64.ofNat n).sequence = UInt64.ofNat n ∨ k = 1)
    (hle : n + k ≤ 2 ^ 63) :
    ((buffer (slot S (UInt64.ofNat n))).sequence -
      (UInt64.ofNat n + UInt64.ofNat k)).toInt64 ≤ 0 := by
  obtain ⟨u, hu, hcell⟩ := exists_current h (by omega) n hn
  rw [slot_ofNat hS, hshows.sequence, hcell, ← UInt64.ofNat_add]
  rcases hu with rfl | hu
  · rcases hnext with hseq | rfl
    · rw [hseq]
      exact diff_le (Nat.le_add_right ..) hle
    · rcases (turn u).cell_sequence UInt64.ofNat u with hseq | hseq
      · rw [hseq]
        exact diff_le (Nat.le_succ u) hle
      · rw [hseq]
        exact diff_le (Nat.le_refl _) hle
  · rcases (turn u).cell_sequence UInt64.ofNat u with hseq | hseq
    · rw [hseq]
      exact diff_le (by omega) hle
    · rw [hseq]
      exact diff_le (by omega) hle

variable [DecidableEq P] [DecidableEq Q]

theorem Protocol.enqueue_behind (h : Protocol S s view turn) (hlog : s.Logged) (hS : Admitted S)
    (h2 : 2 ≤ S.toNat) (hlt : s.claims.length < 2 ^ 63) :
    ((s.buffer (slot S s.enqueuePtr)).sequence - (s.enqueuePtr + 0)).toInt64 ≤ 0 := by
  have hptr := hlog.claims.ptr
  rw [List.length_map] at hptr
  have hun := h.turns.unclaimed_iff.mpr (List.length_map Ticket.data).le
  rw [hptr]
  apply diff_current (k := 0) hS h.shows h.turns h2 _ _ hlt.le
  · rw [hun]
    rfl
  · rw [hun]
    exact Or.inl rfl

theorem Protocol.dequeue_behind (h : Protocol S s view turn) (hlog : s.Logged) (hS : Admitted S)
    (h2 : 2 ≤ S.toNat) (hlt : s.claims.length < 2 ^ 63) :
    ((s.buffer (slot S s.dequeuePtr)).sequence - (s.dequeuePtr + 1)).toInt64 ≤ 0 := by
  have hptr := hlog.draws.ptr
  rw [List.length_map] at hptr
  rw [hptr]
  apply diff_current (k := 1) hS h.shows h.turns h2 _ (Or.inr rfl)
    (Nat.lt_of_le_of_lt h.draws_le hlt)
  have hcons := h.turns.consumed s.draws.length
  cases hturn : turn s.draws.length with
  | released v =>
    rw [hturn] at hcons
    exact absurd (hcons.mp rfl) (Nat.lt_irrefl _)
  | _ => rfl

end Behind

section Steps

def storesLeft : WritePhase → ℕ
  | .before => 3
  | .during => 2
  | .after => 1

def Producer.left (ptr : UInt64) : Producer T → ℕ
  | .idle => 0
  | .seek x _ => x.left ptr
  | .store w => storesLeft w.phase

def Consumer.left (ptr : UInt64) : Consumer T → ℕ
  | .idle => 0
  | .seek x => x.left ptr
  | .read _ => 3
  | .reading _ => 2
  | .release .. => 1

def left (s : Mpmc P Q T) : P ⊕ Q → ℕ
  | .inl p => (s.producers p).left s.enqueuePtr
  | .inr q => (s.consumers q).left s.dequeuePtr

def tickets (s : Mpmc P Q T) : P ⊕ Q → ℕ
  | .inl _ => s.claims.length
  | .inr _ => s.draws.length

variable [DecidableEq P] [DecidableEq Q]

def Action.steps : P ⊕ Q → Action P Q T → Bool
  | .inl p, .producer p' _ => p' = p
  | .inr q, .consumer q' _ _ => q' = q
  | _, _ => false

def Action.calls : P ⊕ Q → Action P Q T → Bool
  | .inl p, .enqueue p' _ => p' = p
  | .inr q, .dequeue q' => q' = q
  | _, _ => false

/-- The action is a step of the thread in which a compare-and-swap fails for no reason. -/
def Action.spurious : P ⊕ Q → Action P Q T → Bool
  | .inl p, .producer p' spurious => p' = p && spurious
  | .inr q, .consumer q' spurious _ => q' = q && spurious
  | _, _ => false

/-- What a step of a thread costs, and what its actions bring. -/
def Action.cost (t : P ⊕ Q) (a : Action P Q T) : ℕ := if a.steps t then 1 else 0

def Action.credit (t : P ⊕ Q) (a : Action P Q T) : ℕ :=
  (if a.calls t then 6 else 0) + if a.spurious t then 2 else 0

theorem storesLeft_next {w w' : Writer T} (h : (w.store S buffer).2 = some w') :
    1 + storesLeft w'.phase = storesLeft w.phase := by
  unfold Writer.store at h
  cases hphase : w.phase <;> rw [hphase] at h
  · obtain rfl := Option.some.inj h
    rfl
  · obtain rfl := Option.some.inj h
    rfl
  · cases h

theorem storesLeft_pos (phase : WritePhase) : 1 ≤ storesLeft phase := by
  cases phase <;> decide

theorem paid_of_producer (x : Producer T) {spurious : Bool}
    (hs' : s'.producers = Function.update s.producers p x ∧ s'.enqueuePtr = s.enqueuePtr ∧
      s'.claims = s.claims)
    (hx : 1 + x.left s.enqueuePtr ≤ (s.producers p).left s.enqueuePtr + if spurious then 2 else 0)
    (p' : P) :
    (Action.producer p spurious : Action P Q T).cost (.inl p') + s'.left (.inl p') +
        2 * s.tickets (.inl p') ≤
      s.left (.inl p') + (Action.producer p spurious : Action P Q T).credit (.inl p') +
        2 * s'.tickets (.inl p') := by
  obtain ⟨hproducers, hptr, hclaims⟩ := hs'
  simp only [left, tickets, Action.cost, Action.credit, Action.steps, Action.calls,
    Action.spurious, hproducers, hptr, hclaims]
  rcases eq_or_ne p p' with rfl | hne
  · simp only [Function.update_self, decide_true, Bool.true_and, if_true, Bool.false_eq_true,
      if_false]
    omega
  · simp [hne, hne.symm]

theorem paid_of_consumer (x : Consumer T) {spurious : Bool} {junk : T}
    (hs' : s'.consumers = Function.update s.consumers q x ∧ s'.dequeuePtr = s.dequeuePtr ∧
      s'.draws = s.draws)
    (hx : 1 + x.left s.dequeuePtr ≤ (s.consumers q).left s.dequeuePtr + if spurious then 2 else 0)
    (q' : Q) :
    (Action.consumer q spurious junk : Action P Q T).cost (.inr q') + s'.left (.inr q') +
        2 * s.tickets (.inr q') ≤
      s.left (.inr q') + (Action.consumer q spurious junk : Action P Q T).credit (.inr q') +
        2 * s'.tickets (.inr q') := by
  obtain ⟨hconsumers, hptr, hdraws⟩ := hs'
  simp only [left, tickets, Action.cost, Action.credit, Action.steps, Action.calls,
    Action.spurious, hconsumers, hptr, hdraws]
  rcases eq_or_ne q q' with rfl | hne
  · simp only [Function.update_self, decide_true, Bool.true_and, if_true, Bool.false_eq_true,
      if_false]
    omega
  · simp [hne, hne.symm]

theorem Inv.producer_paid (h : Inv S s) (hS : Admitted S) (h2 : 2 ≤ S.toNat)
    (hlt : s.claims.length < 2 ^ 63) (hstep : Step S s a s') (p : P) :
    a.cost (.inl p) + s'.left (.inl p) + 2 * s.tickets (.inl p) ≤
      s.left (.inl p) + a.credit (.inl p) + 2 * s'.tickets (.inl p) := by
  obtain ⟨view, turn, hprot⟩ := h.protocol
  cases hstep with
  | callEnqueue p' data hp =>
    simp only [left, tickets, setProducer, Action.cost, Action.credit, Action.steps, Action.calls,
      Action.spurious]
    rcases eq_or_ne p p' with rfl | hne
    · simp [hp, Producer.left, Seek.left]
    · simp [hne, hne.symm]
  | seekEnqueue p' x y data spurious hp hx =>
    refine paid_of_producer (.seek y data) ?_ ?_ p
    · exact ⟨rfl, rfl, rfl⟩
    · rw [hp]
      exact Seek.left_next hx (hprot.enqueue_behind h.logged hS h2 hlt)
  | refuseEnqueue p' x data spurious hp =>
    refine paid_of_producer .idle ?_ ?_ p
    · exact ⟨rfl, rfl, rfl⟩
    · have hleft := x.four_le_left s.enqueuePtr
      rw [hp]
      simp only [Producer.left]
      omega
  | claim p' data spurious hp =>
    simp only [left, tickets, setProducer, Action.cost, Action.credit, Action.steps, Action.calls,
      Action.spurious, List.length_append, List.length_singleton]
    rcases eq_or_ne p p' with rfl | hne
    · simp [hp, Producer.left, Seek.left, storesLeft]
      omega
    · have hother : (s.producers p).left (s.enqueuePtr + 1) ≤
          (s.producers p).left s.enqueuePtr + 2 := by
        cases s.producers p with
        | seek x data => exact Seek.left_drawn ..
        | _ => exact Nat.le_add_right ..
      rw [Function.update_of_ne hne]
      simp [hne.symm]
      omega
  | store p' w w' spurious hp hw =>
    refine paid_of_producer (.store w') ?_ ?_ p
    · exact ⟨rfl, rfl, rfl⟩
    · have hleft := storesLeft_next hw
      rw [hp]
      simp only [Producer.left]
      omega
  | publish p' w spurious hp hw =>
    refine paid_of_producer .idle ?_ ?_ p
    · exact ⟨rfl, rfl, rfl⟩
    · have hleft := storesLeft_pos w.phase
      rw [hp]
      simp only [Producer.left]
      omega
  | _ => simp [left, tickets, setConsumer, returnGot, Action.cost, Action.credit, Action.steps]

theorem Inv.consumer_paid (h : Inv S s) (hS : Admitted S) (h2 : 2 ≤ S.toNat)
    (hlt : s.claims.length < 2 ^ 63) (hstep : Step S s a s') (q : Q) :
    a.cost (.inr q) + s'.left (.inr q) + 2 * s.tickets (.inr q) ≤
      s.left (.inr q) + a.credit (.inr q) + 2 * s'.tickets (.inr q) := by
  obtain ⟨view, turn, hprot⟩ := h.protocol
  cases hstep with
  | callDequeue q' hq =>
    simp only [left, tickets, setConsumer, Action.cost, Action.credit, Action.steps, Action.calls,
      Action.spurious]
    rcases eq_or_ne q q' with rfl | hne
    · simp [hq, Consumer.left, Seek.left]
    · simp [hne, hne.symm]
  | seekDequeue q' x y spurious junk hq hx =>
    refine paid_of_consumer (.seek y) ?_ ?_ q
    · exact ⟨rfl, rfl, rfl⟩
    · rw [hq]
      exact Seek.left_next hx (hprot.dequeue_behind h.logged hS h2 hlt)
  | refuseDequeue q' x spurious junk hq =>
    refine paid_of_consumer .idle ?_ ?_ q
    · exact ⟨rfl, rfl, rfl⟩
    · have hleft := x.four_le_left s.dequeuePtr
      rw [hq]
      simp only [Consumer.left]
      omega
  | draw q' spurious junk hq =>
    simp only [left, tickets, setConsumer, Action.cost, Action.credit, Action.steps, Action.calls,
      Action.spurious, List.length_append, List.length_singleton]
    rcases eq_or_ne q q' with rfl | hne
    · simp [hq, Consumer.left, Seek.left]
      omega
    · have hother : (s.consumers q).left (s.dequeuePtr + 1) ≤
          (s.consumers q).left s.dequeuePtr + 2 := by
        cases s.consumers q with
        | seek x => exact Seek.left_drawn ..
        | _ => exact Nat.le_add_right ..
      rw [Function.update_of_ne hne]
      simp [hne.symm]
      omega
  | read q' pos spurious junk hq =>
    refine paid_of_consumer (.reading pos) ?_ ?_ q
    · exact ⟨rfl, rfl, rfl⟩
    · rw [hq]
      exact Nat.le_add_right ..
  | copy q' pos spurious junk hq =>
    refine paid_of_consumer (.release pos ((s.buffer (slot S pos)).data.read junk)) ?_ ?_ q
    · exact ⟨rfl, rfl, rfl⟩
    · rw [hq]
      exact Nat.le_add_right ..
  | release q' pos data spurious junk hq =>
    refine paid_of_consumer .idle ?_ ?_ q
    · exact ⟨rfl, rfl, rfl⟩
    · rw [hq]
      exact Nat.le_add_right ..
  | _ => simp [left, tickets, setProducer, returnSent, Action.cost, Action.credit, Action.steps]

theorem Inv.paid (h : Inv S s) (hS : Accepted S) (hlt : s.claims.length < 2 ^ 63)
    (hstep : Step S s a s') (t : P ⊕ Q) :
    a.cost t + s'.left t + 2 * s.tickets t ≤ s.left t + a.credit t + 2 * s'.tickets t := by
  cases t with
  | inl p => exact h.producer_paid hS.admitted.1 hS.admitted.2 hlt hstep p
  | inr q => exact h.consumer_paid hS.admitted.1 hS.admitted.2 hlt hstep q

end Steps

section Runs

variable [DecidableEq P] [DecidableEq Q]

/-- The number of steps that a thread makes is bounded by what it calls and by what succeeds: six
steps for each of its calls, two for each spurious failure and two for each ticket that its side
has drawn. It is not bounded by, and never waits for, what the other threads leave undone. -/
theorem run_steps (hS : Accepted S) (hrun : (machine S).run {} acts = some s)
    (hlt : s.claims.length < 2 ^ 63) (t : P ⊕ Q) :
    acts.countP (Action.steps t) ≤ 6 * acts.countP (Action.calls t) +
      2 * acts.countP (Action.spurious t) + 2 * s.tickets t := by
  have hsmall : (machine S).Always {} acts fun s₁ => (machine S).Reachable s₁ ∧
      s₁.claims.length < 2 ^ 63 := by
    intro pre s₁ hbegin hpre
    refine ⟨⟨pre, hpre⟩, ?_⟩
    apply Machine.always_of_last (P := fun x => x.claims.length < 2 ^ 63) _ hrun hlt pre s₁ hbegin
      hpre
    intro x a x' hx hx'
    exact Nat.lt_of_le_of_lt (step_of_eq hx).claims_grow.length_le hx'
  have hpaid := Machine.run_amortized (Action.cost t) (Action.credit t) (fun s => s.left t)
    (fun s => 2 * s.tickets t) (fun s₁ a s₂ hs₁ hs₂ =>
      (inv_reachable hS hs₁.1 (by omega)).paid hS hs₁.2 (step_of_eq hs₂) t) hsmall hrun
  have hcost : (acts.map (Action.cost t)).sum = 1 * acts.countP (Action.steps t) :=
    Machine.sum_ite (Action.steps t) 1 acts
  have hcredit : (acts.map (Action.credit t)).sum =
      6 * acts.countP (Action.calls t) + 2 * acts.countP (Action.spurious t) := by
    rw [← Machine.sum_ite, ← Machine.sum_ite, ← List.sum_map_add]
    rfl
  have hstart : ({} : Mpmc P Q T).left t = 0 := by cases t <;> rfl
  rw [hcost, hcredit, hstart] at hpaid
  omega

/-- The producer that loses the first ticket makes more steps than it needs alone. -/
theorem run_steps_race : ∃ s : Mpmc Bool Bool ℕ, (machine 4).run {} race = some s ∧
    s.tickets (.inl false) = 2 ∧ race.countP (Action.steps (.inl false)) = 8 ∧
    race.countP (Action.steps (.inl false)) ≤ 6 * race.countP (Action.calls (.inl false)) +
      2 * race.countP (Action.spurious (.inl false)) + 2 * s.tickets (.inl false) := by
  have hrun : ((machine 4).run {} race).map (fun s => s.claims.length) = some 2 := by
    decide +kernel
  obtain ⟨s, hs, hlen⟩ := Option.map_eq_some_iff.mp hrun
  have hlt : s.claims.length < 2 ^ 63 := by
    rw [hlen]
    decide
  exact ⟨s, hs, hlen, by decide +kernel, run_steps (by decide) hs hlt _⟩

end Runs

end LowLevel.Queues.Mpmc
