import LowLevel.Foundations.Ledger
import LowLevel.ThreadPool.Wakeups
import Mathlib.Algebra.BigOperators.Group.Finset.Piecewise
import Mathlib.Algebra.Order.BigOperators.Group.Finset

/-! # No lost or repeated job

Every job that was queued is in one queue or was taken by one worker. A worker
keeps the job it has taken until it has fulfilled the promise.
-/

namespace LowLevel.ThreadPool

variable {S : ℕ} {C F A E V : Type*} {s s' : ThreadPool S C F A E V}
  {yields : F → A → Except E V → Bool} {workers : Fin S → Worker F A E V}
  {callers : C → Caller F A} {queues : ℕ → List (Job F A)} {jobs : List (F × A)}
  {queued : List ℕ} {taken : List (Fin S × ℕ)} {fulfilled : List (ℕ × Except E V)}
  {w : Fin S} {c : C} {q : ℕ} {job : Job F A}

/-- The job is the one that was scheduled under its promise. -/
def Job.Known (jobs : List (F × A)) (job : Job F A) : Prop :=
  jobs[job.promise]? = some (job.func, job.args)

theorem Job.Known.append (h : job.Known jobs) (x : F × A) : job.Known (jobs ++ [x]) :=
  get_of_prefix (List.prefix_append ..) h

def waiting (S : ℕ) (queues : ℕ → List (Job F A)) (j : ℕ) : ℕ :=
  ∑ q ∈ Finset.range S, ((queues q).map Job.promise).count j

theorem waiting_update (queues : ℕ → List (Job F A)) (hq : q < S) (x : List (Job F A)) (j : ℕ) :
    waiting S (Function.update queues q x) j + ((queues q).map Job.promise).count j =
      waiting S queues j + (x.map Job.promise).count j := by
  have hmem := Finset.mem_range.mpr hq
  unfold waiting
  rw [fun_update (fun l : List (Job F A) => (l.map Job.promise).count j),
    Finset.sum_update_of_mem hmem, Finset.sum_eq_add_sum_sdiff_singleton_of_mem hmem fun q =>
      ((queues q).map Job.promise).count j]
  omega

structure Queued (S : ℕ) (queues : ℕ → List (Job F A)) (callers : C → Caller F A)
    (jobs : List (F × A)) (queued taken : List ℕ) : Prop where
  bound : ∀ q, S ≤ q → queues q = []
  known : ∀ q, ∀ job ∈ queues q, job.Known jobs
  count : ∀ j, waiting S queues j + taken.count j = queued.count j
  once : queued.Nodup
  scheduled : ∀ j ∈ queued, j < jobs.length
  pending : ∀ c job, (callers c).job? = some job → job.Known jobs ∧ job.promise ∉ queued
  distinct : ∀ c c' job job', (callers c).job? = some job → (callers c').job? = some job' →
    job.promise = job'.promise → c = c'
  target : ∀ c q job, callers c = .push q job → q < S

namespace Queued

variable {takenIds : List ℕ}

theorem taken_nodup (h : Queued S queues callers jobs queued takenIds) : takenIds.Nodup := by
  rw [List.nodup_iff_count_le_one]
  intro j
  have hcount := h.count j
  have honce := List.nodup_iff_count_le_one.mp h.once j
  omega

theorem pos_waiting (hq : q < S) (hjob : job ∈ queues q) : 0 < waiting S queues job.promise := by
  unfold waiting
  apply Finset.sum_pos'
  · exact fun _ _ => Nat.zero_le _
  · exact ⟨q, Finset.mem_range.mpr hq, List.count_pos_iff.mpr (List.mem_map_of_mem hjob)⟩

theorem notMem_taken (h : Queued S queues callers jobs queued takenIds) (hq : q < S)
    (hjob : job ∈ queues q) : job.promise ∉ takenIds := by
  have hcount := h.count job.promise
  have honce := List.nodup_iff_count_le_one.mp h.once job.promise
  have hpos := pos_waiting hq hjob
  rw [← List.count_eq_zero]
  omega

theorem lt_of_mem (h : Queued S queues callers jobs queued takenIds) (hjob : job ∈ queues q) :
    q < S := by
  by_contra hge
  rw [h.bound q (Nat.le_of_not_lt hge)] at hjob
  cases hjob

theorem lt_jobs (hjob : job.Known jobs) : job.promise < jobs.length :=
  (List.getElem?_eq_some_iff.mp hjob).1

theorem bound_update (h : Queued S queues callers jobs queued takenIds) (hq : q < S)
    (l : List (Job F A)) : ∀ q', S ≤ q' → Function.update queues q l q' = [] := by
  intro q' hq'
  rw [Function.update_of_ne (by omega)]
  exact h.bound q' hq'

theorem known_update {l : List (Job F A)} (h : Queued S queues callers jobs queued takenIds)
    (hl : ∀ job ∈ l, job.Known jobs) : ∀ q', ∀ job ∈ Function.update queues q l q',
      job.Known jobs := by
  intro q' job hjob
  rcases eq_or_ne q' q with rfl | hne
  · rw [Function.update_self] at hjob
    exact hl job hjob
  · rw [Function.update_of_ne hne] at hjob
    exact h.known q' job hjob

theorem take {rest : List (Job F A)} (h : Queued S queues callers jobs queued takenIds)
    (hjob : queues q = job :: rest) :
    Queued S (Function.update queues q rest) callers jobs queued (takenIds ++ [job.promise]) := by
  have hmem : job ∈ queues q := hjob ▸ List.mem_cons_self ..
  have hq := h.lt_of_mem hmem
  refine ⟨h.bound_update hq rest, ?_, ?_, h.once, h.scheduled, h.pending, h.distinct, h.target⟩
  · apply h.known_update
    intro job' hjob'
    exact h.known q job' (hjob ▸ List.mem_cons_of_mem _ hjob')
  · intro j
    have hupdate := waiting_update queues hq rest j
    rw [hjob, List.map_cons, List.count_cons] at hupdate
    rw [← h.count j, List.count_append, List.count_singleton]
    omega

variable [DecidableEq C]

theorem call {x : Caller F A} (h : Queued S queues callers jobs queued takenIds)
    (hx : ∀ job, x.job? = some job → (callers c).job? = some job)
    (htarget : ∀ q job, x = .push q job → q < S) :
    Queued S queues (Function.update callers c x) jobs queued takenIds := by
  have hold : ∀ c' job, (Function.update callers c x c').job? = some job →
      (callers c').job? = some job := by
    intro c' job hjob
    rcases eq_or_ne c' c with rfl | hne
    · rw [Function.update_self] at hjob
      exact hx job hjob
    · rwa [Function.update_of_ne hne] at hjob
  refine ⟨h.bound, h.known, h.count, h.once, h.scheduled, ?_, ?_, ?_⟩
  · exact fun c' job hjob => h.pending c' job (hold c' job hjob)
  · intro c₁ c₂ job₁ job₂ h₁ h₂
    exact h.distinct c₁ c₂ job₁ job₂ (hold c₁ job₁ h₁) (hold c₂ job₂ h₂)
  · intro c' q job hjob
    rcases update_eq hjob with ⟨rfl, heq⟩ | ⟨-, heq⟩
    · exact htarget q job heq
    · exact h.target c' q job heq

theorem schedule (h : Queued S queues callers jobs queued takenIds) (hc : callers c = .idle)
    (func : F) (args : A) :
    Queued S queues (Function.update callers c (.fetch ⟨jobs.length, func, args⟩))
      (jobs ++ [(func, args)]) queued takenIds := by
  have hcases : ∀ {c' job}, (Function.update callers c (.fetch ⟨jobs.length, func, args⟩) c').job? =
      some job → (c' = c ∧ job = ⟨jobs.length, func, args⟩) ∨ (callers c').job? = some job := by
    intro c' job hjob
    rcases eq_or_ne c' c with rfl | hne
    · rw [Function.update_self] at hjob
      exact .inl ⟨rfl, (Option.some.inj hjob).symm⟩
    · rw [Function.update_of_ne hne] at hjob
      exact .inr hjob
  have hfresh : ∀ {c' job}, (callers c').job? = some job → job.promise ≠ jobs.length := by
    intro c' job hjob
    have := lt_jobs (h.pending c' job hjob).1
    omega
  constructor
  case bound => exact h.bound
  case known => exact fun q job hjob => (h.known q job hjob).append _
  case count => exact h.count
  case once => exact h.once
  case scheduled =>
    intro j hj
    have := h.scheduled j hj
    rw [List.length_append]
    omega
  case pending =>
    intro c' job hjob
    rcases hcases hjob with ⟨rfl, rfl⟩ | hold
    · refine ⟨List.getElem?_concat_length .., ?_⟩
      intro hmem
      exact Nat.lt_irrefl _ (h.scheduled _ hmem)
    · exact ⟨(h.pending c' job hold).1.append _, (h.pending c' job hold).2⟩
  case distinct =>
    intro c₁ c₂ job₁ job₂ h₁ h₂ heq
    rcases hcases h₁ with ⟨rfl, rfl⟩ | h₁' <;> rcases hcases h₂ with ⟨rfl, rfl⟩ | h₂'
    · rfl
    · exact (hfresh h₂' heq.symm).elim
    · exact (hfresh h₁' heq).elim
    · exact h.distinct c₁ c₂ job₁ job₂ h₁' h₂' heq
  case target =>
    intro c' q job hjob
    rcases update_eq hjob with ⟨-, heq⟩ | ⟨-, heq⟩
    · cases heq
    · exact h.target c' q job heq

theorem push (h : Queued S queues callers jobs queued takenIds) (hc : callers c = .push q job) :
    Queued S (Function.update queues q (queues q ++ [job])) (Function.update callers c .lock) jobs
      (queued ++ [job.promise]) takenIds := by
  have hq := h.target c q job hc
  have hjob : (callers c).job? = some job := by rw [hc]; rfl
  obtain ⟨hknown, hnot⟩ := h.pending c job hjob
  have hcall := h.call (c := c) (x := .lock) nofun nofun
  refine ⟨h.bound_update hq _, ?_, ?_, ?_, ?_, ?_, hcall.distinct, hcall.target⟩
  · apply h.known_update
    intro job' hjob'
    rcases List.mem_append.mp hjob' with hold | hnew
    · exact h.known q job' hold
    · obtain rfl := List.mem_singleton.mp hnew
      exact hknown
  · intro j
    have hupdate := waiting_update queues hq (queues q ++ [job]) j
    rw [List.map_append, List.count_append] at hupdate
    rw [List.count_append, ← h.count j]
    simp only [List.map_cons, List.map_nil] at hupdate
    omega
  · apply List.nodup_append.mpr
    refine ⟨h.once, List.nodup_singleton _, ?_⟩
    rintro x hx y hy rfl
    obtain rfl := List.mem_singleton.mp hy
    exact hnot hx
  · intro j hj
    rcases List.mem_append.mp hj with hold | hnew
    · exact h.scheduled j hold
    · obtain rfl := List.mem_singleton.mp hnew
      exact lt_jobs hknown
  · intro c' job' hjob'
    obtain ⟨hknown', hnot'⟩ := hcall.pending c' job' hjob'
    refine ⟨hknown', ?_⟩
    rw [List.mem_append, List.mem_singleton]
    rintro (hold | heq)
    · exact hnot' hold
    · have hne : c' ≠ c := by
        rintro rfl
        rw [Function.update_self] at hjob'
        cases hjob'
      rw [Function.update_of_ne hne] at hjob'
      exact hne (h.distinct c' c job' job hjob' hjob heq)

end Queued

structure Served (yields : F → A → Except E V → Bool) (workers : Fin S → Worker F A E V)
    (jobs : List (F × A)) (taken : List (Fin S × ℕ)) (fulfilled : List (ℕ × Except E V)) :
    Prop where
  hands : ∀ w job, (workers w).job? = some job →
    job.Known jobs ∧ (w, job.promise) ∈ taken ∧ job.promise ∉ fulfilled.map Prod.fst
  outcome : ∀ w job outcome, workers w = .fulfil job outcome →
    yields job.func job.args outcome = true
  once : (fulfilled.map Prod.fst).Nodup
  fulfilled : ∀ j outcome, (j, outcome) ∈ fulfilled → j ∈ taken.map Prod.snd ∧
    ∃ func args, jobs[j]? = some (func, args) ∧ yields func args outcome = true

@[simp] theorem Worker.job?_wake (x : Worker F A E V) : x.wake.job? = x.job? := by
  cases x <;> rfl

theorem Worker.wake_eq_fulfil {x : Worker F A E V} {outcome : Except E V}
    (h : x.wake = .fulfil job outcome) : x = .fulfil job outcome := by
  cases x with
  | blocked => cases h
  | _ => exact h

namespace Served

theorem move {x : Worker F A E V} (h : Served yields workers jobs taken fulfilled)
    (hjob : ∀ job, x.job? = some job → (workers w).job? = some job)
    (houtcome : ∀ job outcome, x = .fulfil job outcome → yields job.func job.args outcome = true) :
    Served yields (Function.update workers w x) jobs taken fulfilled := by
  refine ⟨?_, ?_, h.once, h.fulfilled⟩
  · intro w' job hjob'
    rcases map_update_eq hjob' with ⟨rfl, hx⟩ | ⟨-, hold⟩
    · exact h.hands w' job (hjob job hx)
    · exact h.hands w' job hold
  · intro w' job outcome hw'
    rcases update_eq hw' with ⟨-, heq⟩ | ⟨-, heq⟩
    · exact houtcome job outcome heq
    · exact h.outcome w' job outcome heq

theorem take (h : Served yields workers jobs taken fulfilled) (hknown : job.Known jobs)
    (hnot : job.promise ∉ taken.map Prod.snd) (w : Fin S) :
    Served yields (Function.update workers w (.run job)) jobs (taken ++ [(w, job.promise)])
      fulfilled := by
  refine ⟨?_, ?_, h.once, ?_⟩
  · intro w' job' hjob'
    rcases map_update_eq hjob' with ⟨rfl, hx⟩ | ⟨-, hold⟩
    · obtain rfl : job = job' := Option.some.inj hx
      refine ⟨hknown, List.mem_append_right _ (List.mem_singleton_self _), ?_⟩
      intro hmem
      obtain ⟨⟨j, outcome⟩, hmem, rfl⟩ := List.mem_map.mp hmem
      exact hnot (h.fulfilled _ outcome hmem).1
    · obtain ⟨hknown', hmem, hout⟩ := h.hands w' job' hold
      exact ⟨hknown', List.mem_append_left _ hmem, hout⟩
  · intro w' job' outcome hw'
    rcases update_eq hw' with ⟨-, heq⟩ | ⟨-, heq⟩
    · cases heq
    · exact h.outcome w' job' outcome heq
  · intro j outcome hmem
    obtain ⟨hj, hyields⟩ := h.fulfilled j outcome hmem
    rw [List.map_append]
    exact ⟨List.mem_append_left _ hj, hyields⟩

theorem fulfil {outcome : Except E V} (h : Served yields workers jobs taken fulfilled)
    (htaken : (taken.map Prod.snd).Nodup) (hw : workers w = .fulfil job outcome) :
    Served yields (Function.update workers w .loop) jobs taken
      (fulfilled ++ [(job.promise, outcome)]) := by
  obtain ⟨hknown, hmem, hnot⟩ := h.hands w job (by rw [hw]; rfl)
  have hmove := h.move (w := w) (x := .loop) nofun nofun
  refine ⟨?_, hmove.outcome, ?_, ?_⟩
  · intro w' job' hjob'
    obtain ⟨hknown', hmem', hnot'⟩ := hmove.hands w' job' hjob'
    refine ⟨hknown', hmem', ?_⟩
    rw [List.map_append, List.mem_append]
    rintro (hold | hnew)
    · exact hnot' hold
    · have hsame : job'.promise = job.promise := by simpa using hnew
      have hpair := List.inj_on_of_nodup_map htaken hmem' hmem hsame
      obtain rfl : w' = w := congrArg Prod.fst hpair
      rw [Function.update_self] at hjob'
      cases hjob'
  · rw [List.map_append]
    apply List.nodup_append.mpr
    refine ⟨h.once, List.nodup_singleton _, ?_⟩
    rintro x hx y hy rfl
    obtain rfl := List.mem_singleton.mp hy
    exact hnot hx
  · intro j outcome' hj
    rcases List.mem_append.mp hj with hold | hnew
    · exact h.fulfilled j outcome' hold
    · obtain ⟨rfl, rfl⟩ := Prod.mk.inj (List.mem_singleton.mp hnew)
      exact ⟨List.mem_map_of_mem hmem, job.func, job.args, hknown, h.outcome w job _ hw⟩

theorem wakeAll (h : Served yields workers jobs taken fulfilled) :
    Served yields (fun w => (workers w).wake) jobs taken fulfilled := by
  refine ⟨?_, ?_, h.once, h.fulfilled⟩
  · intro w job hjob
    rw [Worker.job?_wake] at hjob
    exact h.hands w job hjob
  · intro w job outcome hw
    exact h.outcome w job outcome (Worker.wake_eq_fulfil hw)

theorem schedule (h : Served yields workers jobs taken fulfilled) (x : F × A) :
    Served yields workers (jobs ++ [x]) taken fulfilled := by
  refine ⟨?_, h.outcome, h.once, ?_⟩
  · intro w job hjob
    obtain ⟨hknown, hrest⟩ := h.hands w job hjob
    exact ⟨hknown.append x, hrest⟩
  · intro j outcome hj
    obtain ⟨htaken, func, args, hjob, hyields⟩ := h.fulfilled j outcome hj
    exact ⟨htaken, func, args, get_of_prefix (List.prefix_append ..) hjob, hyields⟩

end Served

structure Accounted (yields : F → A → Except E V → Bool) (s : ThreadPool S C F A E V) : Prop where
  queued : Queued S s.queues s.callers s.jobs s.queued (s.taken.map Prod.snd)
  served : Served yields s.workers s.jobs s.taken s.fulfilled

theorem accounted_init : Accounted yields ({} : ThreadPool S C F A E V) := by
  refine ⟨⟨fun _ _ => rfl, nofun, ?_, List.nodup_nil, nofun, nofun, nofun, nofun⟩, nofun, nofun,
    List.nodup_nil, nofun⟩
  intro j
  simp [waiting]

theorem Accounted.step [DecidableEq C] (h : Accounted yields s) (hS : 1 ≤ S)
    (hstep : Step yields s s') : Accounted yields s' := by
  cases hstep with
  | schedule c func args hc =>
    exact ⟨h.queued.schedule hc func args, h.served.schedule (func, args)⟩
  | fetch c job hc =>
    refine ⟨h.queued.call (fun job' hjob' => by rw [hc]; exact hjob') ?_, h.served⟩
    rintro q job' ⟨⟩
    exact Nat.mod_lt _ hS
  | push c q job hc => exact ⟨h.queued.push hc, h.served⟩
  | lockCaller c hc ho => exact ⟨h.queued.call nofun nofun, h.served⟩
  | notify c hc => exact ⟨h.queued.call nofun nofun, h.served.wakeAll⟩
  | unlockCaller c hc => exact ⟨h.queued.call nofun nofun, h.served⟩
  | take w q job rest hw hjob =>
    have hmem : job ∈ s.queues q := hjob ▸ List.mem_cons_self ..
    have hnot := h.queued.notMem_taken (h.queued.lt_of_mem hmem) hmem
    refine ⟨?_, h.served.take (h.queued.known q job hmem) hnot w⟩
    rw [List.map_append]
    exact h.queued.take hjob
  | move w x hx =>
    refine ⟨h.queued, h.served.move ?_ hx.outcome⟩
    intro job hjob
    rw [← hx.job, hjob]
  | lockWorker w hw ho => exact ⟨h.queued, h.served.move nofun nofun⟩
  | block w hw => exact ⟨h.queued, h.served.move nofun nofun⟩
  | unlockWorker w hw => exact ⟨h.queued, h.served.move nofun nofun⟩
  | fulfil w job outcome hw => exact ⟨h.queued, h.served.fulfil h.queued.taken_nodup hw⟩
  | wake w =>
    refine ⟨h.queued, h.served.move ?_ ?_⟩
    · intro job hjob
      rwa [Worker.job?_wake] at hjob
    · intro job outcome heq
      exact h.served.outcome w job outcome (Worker.wake_eq_fulfil heq)
  | stop stopped => exact ⟨h.queued, h.served⟩
  | stopWaiting stopped => exact ⟨h.queued, h.served.wakeAll⟩

theorem accounted_reachable [DecidableEq C] (hS : 1 ≤ S) (h : (machine yields).Reachable s) :
    Accounted yields s := by
  refine h.invariant (P := fun s => Accounted yields s) accounted_init ?_
  intro s a s' ih hstep
  exact ih.step hS (step_of_eq hstep)

/-- Promises that wait in the queue `q`. -/
def promises (s : ThreadPool S C F A E V) (q : ℕ) : List ℕ := (s.queues q).map Job.promise

theorem waiting_eq_one {j : ℕ} (h : waiting S s.queues j = 1) :
    ∃ q < S, (s.promises q).count j = 1 ∧ ∀ q' < S, q' ≠ q → j ∉ s.promises q' := by
  obtain ⟨q, hq, hpos⟩ : ∃ q ∈ Finset.range S, (s.promises q).count j ≠ 0 := by
    by_contra hnone
    push Not at hnone
    have hzero : waiting S s.queues j = 0 := Finset.sum_eq_zero hnone
    omega
  have hsplit := Finset.sum_eq_add_sum_sdiff_singleton_of_mem hq fun q => (s.promises q).count j
  have hone : (s.promises q).count j +
      ∑ q' ∈ Finset.range S \ {q}, (s.promises q').count j = 1 := hsplit.symm.trans h
  refine ⟨q, Finset.mem_range.mp hq, by omega, ?_⟩
  intro q' hq' hne
  have hmem : q' ∈ Finset.range S \ {q} := by
    simpa using ⟨hq', hne⟩
  have hle := Finset.single_le_sum (f := fun q => (s.promises q).count j)
    (fun _ _ => Nat.zero_le _) hmem
  rw [← List.count_eq_zero]
  omega

/-- Every job that was queued waits once in one queue, or was taken by one worker and waits in
none. Promises are fulfilled at most once, with the result or the exception of the function and
the argument they were scheduled with. When a job waits and no caller is about to notify the
workers, some worker is not blocked. -/
structure Sound (yields : F → A → Except E V → Bool) (s : ThreadPool S C F A E V) : Prop where
  takenOnce : (s.taken.map Prod.snd).Nodup
  placed : ∀ j ∈ s.queued,
    (j ∈ s.taken.map Prod.snd ∧ ∀ q < S, j ∉ s.promises q) ∨
    (j ∉ s.taken.map Prod.snd ∧ ∃ q < S, (s.promises q).count j = 1 ∧
      ∀ q' < S, q' ≠ q → j ∉ s.promises q')
  fulfilledOnce : (s.fulfilled.map Prod.fst).Nodup
  fulfilled : ∀ j outcome, (j, outcome) ∈ s.fulfilled → j ∈ s.taken.map Prod.snd ∧
    ∃ func args, s.jobs[j]? = some (func, args) ∧ yields func args outcome = true
  awake : ¬ ((∃ q < S, s.queues q ≠ []) ∧ (∀ c, (s.callers c).notifying = false) ∧
    ∀ w, s.workers w = .blocked)

theorem Accounted.placed (h : Accounted yields s) {j : ℕ} (hj : j ∈ s.queued) :
    (j ∈ s.taken.map Prod.snd ∧ ∀ q < S, j ∉ s.promises q) ∨
    (j ∉ s.taken.map Prod.snd ∧ ∃ q < S, (s.promises q).count j = 1 ∧
      ∀ q' < S, q' ≠ q → j ∉ s.promises q') := by
  have hcount := h.queued.count j
  rw [h.queued.once.count, if_pos hj] at hcount
  rcases Nat.eq_zero_or_pos ((s.taken.map Prod.snd).count j) with hzero | hpos
  · right
    exact ⟨List.count_eq_zero.mp hzero, waiting_eq_one (by omega)⟩
  · left
    refine ⟨List.count_pos_iff.mp hpos, ?_⟩
    intro q hq hmem
    obtain ⟨job, hjob, rfl⟩ := List.mem_map.mp hmem
    have := Queued.pos_waiting hq hjob
    omega

/-- Every interleaving of any number of callers with the workers. -/
theorem reachable_sound [DecidableEq C] (hS : 1 ≤ S) (h : (machine yields).Reachable s) :
    Sound yields s := by
  have hacc := accounted_reachable hS h
  constructor
  case takenOnce => exact hacc.queued.taken_nodup
  case placed => exact fun j hj => hacc.placed hj
  case fulfilledOnce => exact hacc.served.once
  case fulfilled => exact hacc.served.fulfilled
  case awake =>
    rintro ⟨⟨q, hq, hne⟩, hquiet, hblocked⟩
    obtain ⟨c, hc⟩ := (watched_reachable h).awake ⟨0, hS⟩ (hblocked _) hq hne
    rw [hquiet c] at hc
    cases hc

/-- A function that throws the product of its number and its argument. -/
def throwsProduct (func args : ℕ) : Except ℕ ℕ → Bool
  | .error e => e == func * args
  | .ok _ => false

/-- A worker finds both queues empty; a job is queued before it blocks. The other worker steals
the job, and the notification wakes the first one. -/
def lateJob : List (Action 2 Unit ℕ ℕ ℕ ℕ) :=
  List.flatten [List.replicate 9 (.worker 0 (.ok 0)), [.schedule () 3 4, .caller (), .caller ()],
    [.worker 0 (.ok 0)], List.replicate 5 (.worker 1 (.error 12)), List.replicate 3 (.caller ()),
    [.schedule () 5 6, .caller (), .caller ()]]

theorem reachable_sound_lateJob : ∃ s : ThreadPool 2 Unit ℕ ℕ ℕ ℕ,
    (machine throwsProduct).Reachable s ∧ s.taken = [(1, 0)] ∧ s.queued = [0, 1] ∧
    s.promises 1 = [1] ∧ s.fulfilled.map Prod.fst = [0] ∧ Sound throwsProduct s := by
  have hrun : ((machine throwsProduct).run {} lateJob).map (fun s =>
      (s.taken, s.queued, s.promises 1, s.fulfilled.map Prod.fst)) =
      some ([(1, 0)], [0, 1], [1], [0]) := by decide +kernel
  obtain ⟨s, hs, heq⟩ := Option.map_eq_some_iff.mp hrun
  obtain ⟨htaken, hrest⟩ := Prod.mk.inj heq
  obtain ⟨hqueued, hrest⟩ := Prod.mk.inj hrest
  obtain ⟨hwaiting, hfulfilled⟩ := Prod.mk.inj hrest
  exact ⟨s, ⟨_, hs⟩, htaken, hqueued, hwaiting, hfulfilled, reachable_sound (by decide) ⟨_, hs⟩⟩

end LowLevel.ThreadPool
