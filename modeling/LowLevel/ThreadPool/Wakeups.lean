import LowLevel.ThreadPool.Pool

/-! # No lost wake-up

A job is queued before its caller takes `cv_mutex`, and a worker blocks with
`cv_mutex` in hand. So a worker that has found a queue empty, and has not been
woken since, has a notification ahead of it whenever that queue is no longer
empty.
-/

namespace LowLevel.ThreadPool

variable {S : ℕ} {C F A E V : Type*} {s s' : ThreadPool S C F A E V}
  {yields : F → A → Except E V → Bool} {owner : Option (C ⊕ Fin S)}
  {workers : Fin S → Worker F A E V} {callers : C → Caller F A}
  {queues queues' : ℕ → List (Job F A)} {w : Fin S} {c : C} {x : Worker F A E V}

/-- Who holds `cv_mutex`, and why the queues that a worker has found empty may be left alone. -/
structure Watched (owner : Option (C ⊕ Fin S)) (workers : Fin S → Worker F A E V)
    (callers : C → Caller F A) (queues : ℕ → List (Job F A)) : Prop where
  worker : ∀ w, (workers w).holds = true → owner = some (.inr w)
  caller : ∀ c, (callers c).holds = true → owner = some (.inl c)
  seen : ∀ w i, (workers w).checked S = some i → ∀ q < i, queues q ≠ [] →
    ∃ c, (callers c).notifying = true

@[simp] theorem Worker.holds_wake (x : Worker F A E V) : x.wake.holds = x.holds := by
  cases x <;> rfl

theorem Worker.checked_wake {i : ℕ} (h : x.wake.checked S = some i) :
    x.checked S = some i ∧ x.holds = true := by
  cases x with
  | predicate j => exact ⟨h, rfl⟩
  | _ => cases h

namespace Watched

theorem move (h : Watched owner workers callers queues)
    (hholds : x.holds = true → (workers w).holds = true)
    (hchecked : ∀ i, x.checked S = some i → i = 0 ∨ (workers w).checked S = some i ∨
      ∃ j, i = j + 1 ∧ (workers w).checked S = some j ∧ queues j = []) :
    Watched owner (Function.update workers w x) callers queues := by
  refine ⟨?_, h.caller, ?_⟩
  · intro w' hw'
    rcases eq_or_ne w' w with rfl | hne
    · rw [Function.update_self] at hw'
      exact h.worker w' (hholds hw')
    · rw [Function.update_of_ne hne] at hw'
      exact h.worker w' hw'
  · intro w' i hi q hq hne
    rcases eq_or_ne w' w with rfl | hww
    · rw [Function.update_self] at hi
      rcases hchecked i hi with rfl | hold | ⟨j, rfl, hj, hempty⟩
      · cases hq
      · exact h.seen w' i hold q hq hne
      · rcases Nat.lt_succ_iff_lt_or_eq.mp hq with hlt | rfl
        · exact h.seen w' j hj q hlt hne
        · exact (hne hempty).elim
    · rw [Function.update_of_ne hww] at hi
      exact h.seen w' i hi q hq hne

theorem lock (h : Watched none workers callers queues) (w : Fin S) :
    Watched (some (.inr w)) (Function.update workers w .check) callers queues := by
  refine ⟨?_, ?_, ?_⟩
  · intro w' hw'
    rcases eq_or_ne w' w with rfl | hne
    · rfl
    · rw [Function.update_of_ne hne] at hw'
      cases h.worker w' hw'
  · intro c hc
    cases h.caller c hc
  · intro w' i hi
    rcases eq_or_ne w' w with rfl | hne
    · rw [Function.update_self] at hi
      cases hi
    · rw [Function.update_of_ne hne] at hi
      exact h.seen w' i hi

theorem release (h : Watched owner workers callers queues) (hw : (workers w).holds = true)
    (hx : x.holds = false) (hchecked : ∀ i, x.checked S = some i → (workers w).checked S = some i) :
    Watched none (Function.update workers w x) callers queues := by
  have howner := h.worker w hw
  refine ⟨?_, ?_, ?_⟩
  · intro w' hw'
    rcases eq_or_ne w' w with rfl | hne
    · rw [Function.update_self, hx] at hw'
      cases hw'
    · rw [Function.update_of_ne hne] at hw'
      have := (h.worker w' hw').symm.trans howner
      exact (hne (Sum.inr.inj (Option.some.inj this))).elim
  · intro c hc
    cases (h.caller c hc).symm.trans howner
  · intro w' i hi
    rcases eq_or_ne w' w with rfl | hne
    · rw [Function.update_self] at hi
      exact h.seen w' i (hchecked i hi)
    · rw [Function.update_of_ne hne] at hi
      exact h.seen w' i hi

theorem shrink (h : Watched owner workers callers queues)
    (hq : ∀ q, queues' q ≠ [] → queues q ≠ []) : Watched owner workers callers queues' :=
  ⟨h.worker, h.caller, fun w i hi q hlt hne => h.seen w i hi q hlt (hq q hne)⟩

theorem wakeAll (h : Watched owner workers callers queues) :
    Watched owner (fun w => (workers w).wake) callers queues := by
  refine ⟨?_, h.caller, ?_⟩
  · intro w hw
    rw [Worker.holds_wake] at hw
    exact h.worker w hw
  · intro w i hi
    exact h.seen w i (Worker.checked_wake hi).1

variable [DecidableEq C]

theorem call {y : Caller F A} (h : Watched owner workers callers queues)
    (hholds : y.holds = true → (callers c).holds = true)
    (hnot : (callers c).notifying = true → y.notifying = true) :
    Watched owner workers (Function.update callers c y) queues := by
  refine ⟨h.worker, ?_, ?_⟩
  · intro c' hc'
    rcases eq_or_ne c' c with rfl | hne
    · rw [Function.update_self] at hc'
      exact h.caller c' (hholds hc')
    · rw [Function.update_of_ne hne] at hc'
      exact h.caller c' hc'
  · intro w i hi q hq hne
    obtain ⟨c', hc'⟩ := h.seen w i hi q hq hne
    refine ⟨c', ?_⟩
    rcases eq_or_ne c' c with rfl | hcc
    · rw [Function.update_self]
      exact hnot hc'
    · rwa [Function.update_of_ne hcc]

theorem push (h : Watched owner workers callers queues) (c : C) :
    Watched owner workers (Function.update callers c .lock) queues' := by
  refine ⟨h.worker, ?_, ?_⟩
  · intro c' hc'
    rcases eq_or_ne c' c with rfl | hne
    · rw [Function.update_self] at hc'
      cases hc'
    · rw [Function.update_of_ne hne] at hc'
      exact h.caller c' hc'
  · intro w i hi q hq hne
    exact ⟨c, by rw [Function.update_self]; rfl⟩

theorem lockCaller (h : Watched none workers callers queues) (c : C) :
    Watched (some (.inl c)) workers (Function.update callers c .notify) queues := by
  refine ⟨?_, ?_, ?_⟩
  · intro w hw
    cases h.worker w hw
  · intro c' hc'
    rcases eq_or_ne c' c with rfl | hne
    · rfl
    · rw [Function.update_of_ne hne] at hc'
      cases h.caller c' hc'
  · intro w i hi q hq hne
    exact ⟨c, by rw [Function.update_self]; rfl⟩

/-- The caller holds the mutex, so no worker is in the middle of the predicate, and none is
blocked after the notification. -/
theorem notify (h : Watched owner workers callers queues) (hc : callers c = .notify) :
    Watched owner (fun w => (workers w).wake) (Function.update callers c .unlock) queues := by
  have howner := h.caller c (by rw [hc]; rfl)
  refine ⟨h.wakeAll.worker, ?_, ?_⟩
  · intro c' hc'
    rcases eq_or_ne c' c with rfl | hne
    · exact howner
    · rw [Function.update_of_ne hne] at hc'
      exact h.caller c' hc'
  · intro w i hi
    cases (h.worker w (Worker.checked_wake hi).2).symm.trans howner

theorem unlockCaller (h : Watched owner workers callers queues) (hc : callers c = .unlock) :
    Watched none workers (Function.update callers c .idle) queues := by
  have howner := h.caller c (by rw [hc]; rfl)
  have hcall := h.call (c := c) (y := .idle) nofun (by rw [hc]; nofun)
  refine ⟨?_, ?_, hcall.seen⟩
  · intro w hw
    cases (h.worker w hw).symm.trans howner
  · intro c' hc'
    rcases eq_or_ne c' c with rfl | hne
    · rw [Function.update_self] at hc'
      cases hc'
    · rw [Function.update_of_ne hne] at hc'
      have := (h.caller c' hc').symm.trans howner
      exact (hne (Sum.inl.inj (Option.some.inj this))).elim

theorem step (h : Watched s.owner s.workers s.callers s.queues) (hstep : Step yields s s') :
    Watched s'.owner s'.workers s'.callers s'.queues := by
  cases hstep with
  | schedule c func args hc => exact h.call nofun (by rw [hc]; nofun)
  | fetch c job hc => exact h.call nofun (by rw [hc]; nofun)
  | push c q job hc => exact h.push c
  | lockCaller c hc ho =>
    rw [ho] at h
    exact h.lockCaller c
  | notify c hc => exact h.notify hc
  | unlockCaller c hc => exact h.unlockCaller hc
  | take w q job rest hw hjob =>
    have hmove := h.move (w := w) (x := .run job) nofun nofun
    apply hmove.shrink
    intro q' hq'
    rcases eq_or_ne q' q with rfl | hne
    · rw [hjob]
      nofun
    · simpa only [Function.update_of_ne hne] using hq'
  | move w x hx =>
    apply h.move
    · rw [hx.holds]
      exact id
    · intro i hi
      rcases hx.checked i hi with rfl | hj
      · exact .inl rfl
      · exact .inr (.inr hj)
  | lockWorker w hw ho =>
    rw [ho] at h
    exact h.lock w
  | block w hw => exact h.release (by rw [hw]; rfl) rfl fun i hi => by rwa [hw]
  | unlockWorker w hw => exact h.release (by rw [hw]; rfl) rfl nofun
  | fulfil w job outcome hw => exact h.move nofun nofun
  | wake w =>
    apply h.move
    · rw [Worker.holds_wake]
      exact id
    · intro i hi
      exact .inr (.inl (Worker.checked_wake hi).1)
  | stop stopped => exact h
  | stopWaiting stopped => exact h.wakeAll

end Watched

theorem watched_reachable [DecidableEq C] (h : (machine yields).Reachable s) :
    Watched s.owner s.workers s.callers s.queues := by
  refine h.invariant (P := fun s => Watched s.owner s.workers s.callers s.queues)
    ⟨nofun, nofun, nofun⟩ ?_
  intro s a s' ih hstep
  exact ih.step (step_of_eq hstep)

theorem Watched.awake (h : Watched owner workers callers queues) (w : Fin S)
    (hw : workers w = .blocked)
    {q : ℕ} (hq : q < S) (hne : queues q ≠ []) : ∃ c, (callers c).notifying = true :=
  h.seen w S (by rw [hw]; rfl) q hq hne

end LowLevel.ThreadPool
