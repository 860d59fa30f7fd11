import LowLevel.ThreadPool.Jobs

/-! # What a worker can do

From each place a worker goes on in one way, or it takes a job. A worker that
sleeps has not been asked to stop and one that has left has been, the mutex is
where it is held, and every job stays with its caller, its queue or its worker
until it is done.
-/

namespace LowLevel.ThreadPool

variable {S : ℕ} {C F A E V : Type*} {s s' : ThreadPool S C F A E V}
  {yields : F → A → Except E V → Bool} {w : Fin S}

section Places

inductive Worker.Goes (S : ℕ) (yields : F → A → Except E V → Bool) (stopped : Bool)
    (queues : ℕ → List (Job F A)) (w : ℕ) : Worker F A E V → Worker F A E V → Prop
  | exit (h : stopped = true) : Goes S yields stopped queues w .loop .exited
  | search (h : stopped = false) : Goes S yields stopped queues w .loop .own
  | own (h : queues w = []) : Goes S yields stopped queues w .own (.steal 0)
  | steal (i : ℕ) (hi : i ≠ S) (h : queues i = []) :
    Goes S yields stopped queues w (.steal i) (.steal (i + 1))
  | giveUp : Goes S yields stopped queues w (.steal S) .lock
  | lock : Goes S yields stopped queues w .lock .check
  | relock : Goes S yields stopped queues w .woken .check
  | stop (h : stopped = true) : Goes S yields stopped queues w .check (.last 0)
  | check (h : stopped = false) : Goes S yields stopped queues w .check (.predicate 0)
  | pass (i : ℕ) (hi : i ≠ S) (h : queues i = []) :
    Goes S yields stopped queues w (.predicate i) (.predicate (i + 1))
  | found (i : ℕ) (hi : i ≠ S) (h : queues i ≠ []) :
    Goes S yields stopped queues w (.predicate i) .unlock
  | stopLate (h : stopped = true) : Goes S yields stopped queues w (.predicate S) (.last 0)
  | block (h : stopped = false) : Goes S yields stopped queues w (.predicate S) .blocked
  | last (i : ℕ) (hi : i ≠ S) : Goes S yields stopped queues w (.last i) (.last (i + 1))
  | leave (i : ℕ) : Goes S yields stopped queues w (.last i) .unlock
  | unlock : Goes S yields stopped queues w .unlock .loop
  | run (job : Job F A) (outcome : Except E V) (h : yields job.func job.args outcome = true) :
    Goes S yields stopped queues w (.run job) (.fulfil job outcome)
  | fulfil (job : Job F A) (outcome : Except E V) :
    Goes S yields stopped queues w (.fulfil job outcome) .loop

/-- What a step of a worker changes: it goes on, or it takes a job. -/
structure Worked (yields : F → A → Except E V → Bool) (w : Fin S)
    (s s' : ThreadPool S C F A E V) : Prop where
  callers : s'.callers = s.callers
  stopped : s'.stopped = s.stopped
  queued : s'.queued = s.queued
  moved : (∃ x, (s.workers w).Goes S yields (s.stopped w) s.queues w x ∧
      s'.workers = Function.update s.workers w x ∧ s'.queues = s.queues ∧ s'.taken = s.taken) ∨
    ∃ job, s'.workers = Function.update s.workers w (.run job) ∧
      s'.taken = s.taken ++ [(w, job.promise)]

theorem worked_go {x : Worker F A E V} {owner : Option (C ⊕ Fin S)}
    {fulfilled : List (ℕ × Except E V)}
    (h : (s.workers w).Goes S yields (s.stopped w) s.queues w x) :
    Worked yields w s { s.setWorker w x with owner, fulfilled } :=
  ⟨rfl, rfl, rfl, Or.inl ⟨x, h, rfl, rfl, rfl⟩⟩

theorem worked_take {q : ℕ} {x : Worker F A E V}
    (h : s.queues q = [] → (s.workers w).Goes S yields (s.stopped w) s.queues w x) :
    Worked yields w s (s.take w q x) := by
  unfold ThreadPool.take
  split
  · rename_i hempty
    exact worked_go (h hempty)
  · exact ⟨rfl, rfl, rfl, Or.inr ⟨_, rfl, rfl⟩⟩

section Phases

variable {outcome : Except E V}

theorem worked_loop (hw : s.workers w = .loop)
    (h : s.threadHandler yields w outcome = some s') : Worked yields w s s' := by
  unfold threadHandler at h
  rw [hw] at h
  obtain rfl := Option.some.inj h
  apply worked_go
  rw [hw]
  split
  · rename_i hstopped
    exact .exit hstopped
  · rename_i hstopped
    exact .search (Bool.eq_false_of_not_eq_true hstopped)

theorem worked_steal {i : ℕ} (hw : s.workers w = .steal i)
    (h : s.threadHandler yields w outcome = some s') : Worked yields w s s' := by
  unfold threadHandler at h
  rw [hw] at h
  obtain rfl := Option.some.inj h
  split
  · rename_i hi
    subst hi
    apply worked_go
    rw [hw]
    exact .giveUp
  · rename_i hi
    apply worked_take
    rw [hw]
    exact .steal i hi

theorem worked_lock (hw : s.workers w = .lock ∨ s.workers w = .woken)
    (h : s.threadHandler yields w outcome = some s') : Worked yields w s s' := by
  unfold threadHandler at h
  rcases hw with hw | hw
  all_goals
    rw [hw] at h
    obtain ⟨-, heq⟩ := Option.ite_none_right_eq_some.mp h
    obtain rfl := Option.some.inj heq
    apply worked_go
    rw [hw]
    constructor

theorem worked_check (hw : s.workers w = .check)
    (h : s.threadHandler yields w outcome = some s') : Worked yields w s s' := by
  unfold threadHandler at h
  rw [hw] at h
  obtain rfl := Option.some.inj h
  apply worked_go
  rw [hw]
  split
  · rename_i hstopped
    exact .stop hstopped
  · rename_i hstopped
    exact .check (Bool.eq_false_of_not_eq_true hstopped)

theorem worked_predicate {i : ℕ} (hw : s.workers w = .predicate i)
    (h : s.threadHandler yields w outcome = some s') : Worked yields w s s' := by
  unfold threadHandler at h
  rw [hw] at h
  simp only at h
  split_ifs at h with hi hstopped hpos
  · subst hi
    obtain rfl := Option.some.inj h
    apply worked_go
    rw [hw]
    exact .stopLate hstopped
  · subst hi
    obtain rfl := Option.some.inj h
    apply worked_go
    rw [hw]
    exact .block (Bool.eq_false_of_not_eq_true hstopped)
  · obtain rfl := Option.some.inj h
    apply worked_go
    rw [hw]
    exact .found i hi (List.ne_nil_of_length_pos hpos)
  · obtain rfl := Option.some.inj h
    apply worked_go
    rw [hw]
    exact .pass i hi (List.length_eq_zero_iff.mp (Nat.eq_zero_of_not_pos hpos))

theorem worked_last {i : ℕ} (hw : s.workers w = .last i)
    (h : s.threadHandler yields w outcome = some s') : Worked yields w s s' := by
  unfold threadHandler at h
  rw [hw] at h
  obtain rfl := Option.some.inj h
  apply worked_go
  rw [hw]
  split
  · exact .leave i
  · rename_i hi
    exact .last i (not_or.mp hi).1

theorem worked_run {job : Job F A} (hw : s.workers w = .run job)
    (h : s.threadHandler yields w outcome = some s') : Worked yields w s s' := by
  unfold threadHandler at h
  rw [hw] at h
  obtain ⟨hyields, heq⟩ := Option.ite_none_right_eq_some.mp h
  obtain rfl := Option.some.inj heq
  apply worked_go
  rw [hw]
  exact .run job outcome hyields

theorem threadHandler_worked (h : s.threadHandler yields w outcome = some s') :
    Worked yields w s s' := by
  cases hw : s.workers w with
  | loop => exact worked_loop hw h
  | steal i => exact worked_steal hw h
  | lock => exact worked_lock (Or.inl hw) h
  | woken => exact worked_lock (Or.inr hw) h
  | check => exact worked_check hw h
  | predicate i => exact worked_predicate hw h
  | last i => exact worked_last hw h
  | run job => exact worked_run hw h
  | own =>
    unfold threadHandler at h
    rw [hw] at h
    obtain rfl := Option.some.inj h
    apply worked_take
    rw [hw]
    exact .own
  | unlock =>
    unfold threadHandler at h
    rw [hw] at h
    obtain rfl := Option.some.inj h
    apply worked_go
    rw [hw]
    exact .unlock
  | fulfil job outcome =>
    unfold threadHandler at h
    rw [hw] at h
    obtain rfl := Option.some.inj h
    apply worked_go
    rw [hw]
    exact .fulfil job outcome
  | blocked | exited =>
    unfold threadHandler at h
    rw [hw] at h
    cases h

end Phases

def Worker.Fits (S : ℕ) (stopped : Bool) : Worker F A E V → Prop
  | .steal i | .predicate i => i ≤ S
  | .last i => i ≤ S ∧ stopped = true
  | .blocked => stopped = false
  | .exited => stopped = true
  | _ => True

theorem Worker.Fits.wake {stopped : Bool} {x : Worker F A E V} (h : x.Fits S stopped) :
    x.wake.Fits S stopped := by
  cases x with
  | blocked => trivial
  | _ => exact h

theorem Worker.Fits.stop {x : Worker F A E V} {stopped : Bool} (h : x.Fits S stopped)
    (hx : x.wake = x) : x.Fits S true := by
  cases x with
  | blocked => cases hx
  | last i => exact ⟨h.1, rfl⟩
  | exited => rfl
  | _ => exact h

theorem Worker.Goes.fits {stopped : Bool} {queues : ℕ → List (Job F A)} {q : ℕ}
    {x y : Worker F A E V} (h : x.Goes S yields stopped queues q y) (hx : x.Fits S stopped) :
    y.Fits S stopped := by
  cases h with
  | exit hstopped => exact hstopped
  | own => exact Nat.zero_le S
  | steal i hi => exact Nat.lt_of_le_of_ne hx hi
  | stop hstopped => exact ⟨Nat.zero_le S, hstopped⟩
  | check => exact Nat.zero_le S
  | pass i hi => exact Nat.lt_of_le_of_ne hx hi
  | stopLate hstopped => exact ⟨Nat.zero_le S, hstopped⟩
  | block hstopped => exact hstopped
  | last i hi => exact ⟨Nat.lt_of_le_of_ne hx.1 hi, hx.2⟩
  | _ => trivial

def Placed (s : ThreadPool S C F A E V) : Prop := ∀ w, (s.workers w).Fits S (s.stopped w)

theorem Placed.update {x : Worker F A E V} (h : s.Placed) (hx : x.Fits S (s.stopped w))
    (u : Fin S) : (Function.update s.workers w x u).Fits S (s.stopped u) := by
  rcases eq_or_ne u w with rfl | hne
  · rwa [Function.update_self]
  · rw [Function.update_of_ne hne]
    exact h u

theorem Placed.worked (h : s.Placed) (hworked : Worked yields w s s') : s'.Placed := by
  intro u
  rw [hworked.stopped]
  rcases hworked.moved with ⟨x, hgoes, hworkers, -⟩ | ⟨job, hworkers, -⟩
  · rw [hworkers]
    exact h.update (hgoes.fits (h w)) u
  · rw [hworkers]
    exact h.update (x := .run job) trivial u

theorem Placed.stop (h : s.Placed) (hw : (s.workers w).wake = s.workers w) (u : Fin S) :
    (s.workers u).Fits S (Function.update s.stopped w true u) := by
  rcases eq_or_ne u w with rfl | hne
  · rw [Function.update_self]
    exact (h u).stop hw
  · rw [Function.update_of_ne hne]
    exact h u

theorem Placed.step [DecidableEq C] {a : Action S C F A E V} (h : s.Placed)
    (hstep : ThreadPool.step yields s a = some s') : s'.Placed := by
  cases a with
  | schedule c func args =>
    simp only [ThreadPool.step] at hstep
    split at hstep
    · obtain rfl := Option.some.inj hstep
      exact h
    · cases hstep
  | caller c =>
    simp only [ThreadPool.step, scheduleJob] at hstep
    split at hstep
    · cases hstep
    · obtain rfl := Option.some.inj hstep
      exact h
    · obtain rfl := Option.some.inj hstep
      exact h
    · obtain ⟨-, heq⟩ := Option.ite_none_right_eq_some.mp hstep
      obtain rfl := Option.some.inj heq
      exact h
    · obtain rfl := Option.some.inj hstep
      exact fun u => (h u).wake
    · obtain rfl := Option.some.inj hstep
      exact h
  | worker w outcome => exact h.worked (threadHandler_worked hstep)
  | wake w =>
    obtain rfl := Option.some.inj hstep
    exact h.update (h w).wake
  | stop w =>
    simp only [ThreadPool.step] at hstep
    split at hstep
    · obtain rfl := Option.some.inj hstep
      have hwoken : s.notifyAll.Placed := fun u => (h u).wake
      apply hwoken.stop
      cases hw : s.workers w <;> simp [notifyAll, hw, Worker.wake]
    · rename_i hwaits
      obtain rfl := Option.some.inj hstep
      apply h.stop
      cases hw : s.workers w with
      | blocked =>
        rw [hw] at hwaits
        exact absurd rfl hwaits
      | _ => rfl

theorem placed_reachable [DecidableEq C] (h : (machine yields).Reachable s) : s.Placed := by
  refine h.invariant (P := Placed) (fun _ => trivial) ?_
  intro s a s' ih hstep
  exact ih.step hstep

end Places

section History

/-- Who holds `cv_mutex` is where it is held, a job that was taken is in hand or done, and one that
was scheduled is queued or still with its caller. -/
structure Kept (s : ThreadPool S C F A E V) : Prop where
  worker : ∀ w, s.owner = some (.inr w) → (s.workers w).holds = true
  caller : ∀ c, s.owner = some (.inl c) → (s.callers c).holds = true
  taken : ∀ w j, (w, j) ∈ s.taken → j ∈ s.fulfilled.map Prod.fst ∨
    ∃ job, (s.workers w).job? = some job ∧ job.promise = j
  scheduled : ∀ j < s.jobs.length, j ∈ s.queued ∨
    ∃ c job, (s.callers c).job? = some job ∧ job.promise = j

theorem update_congr {ι α β : Type*} [DecidableEq ι] (g : α → β) {f : ι → α} {t : ι} {x : α}
    (h : g x = g (f t)) (u : ι) : g (Function.update f t x u) = g (f u) := by
  rcases eq_or_ne u t with rfl | hne
  · rw [Function.update_self, h]
  · rw [Function.update_of_ne hne]

namespace Kept

theorem work {x : Worker F A E V} (h : s.Kept) (hholds : x.holds = (s.workers w).holds)
    (hjob : x.job? = (s.workers w).job?) : (s.setWorker w x).Kept := by
  constructor
  case worker =>
    intro u hu
    exact (update_congr Worker.holds hholds u).trans (h.worker u hu)
  case caller => exact h.caller
  case taken =>
    intro u j hj
    have hsame : ((s.setWorker w x).workers u).job? = (s.workers u).job? :=
      update_congr Worker.job? hjob u
    rw [hsame]
    exact h.taken u j hj
  case scheduled => exact h.scheduled

theorem pass {x : Worker F A E V} {owner : Option (C ⊕ Fin S)} (h : s.Kept)
    (hjob : x.job? = (s.workers w).job?)
    (howner : owner = none ∨ owner = some (.inr w) ∧ x.holds = true) :
    ({ s.setWorker w x with owner } : ThreadPool S C F A E V).Kept := by
  constructor
  case worker =>
    rintro u rfl
    rcases howner with hnone | ⟨hsome, hholds⟩
    · cases hnone
    · obtain rfl := Sum.inr.inj (Option.some.inj hsome)
      have hself : (s.setWorker u x).workers u = x := Function.update_self ..
      exact (congrArg Worker.holds hself).trans hholds
  case caller =>
    rintro c rfl
    rcases howner with hnone | ⟨hsome, -⟩
    · cases hnone
    · cases hsome
  case taken =>
    intro u j hj
    have hsame : ((s.setWorker w x).workers u).job? = (s.workers u).job? :=
      update_congr Worker.job? hjob u
    rcases h.taken u j hj with hdone | ⟨job, hjob, rfl⟩
    · exact Or.inl hdone
    · exact Or.inr ⟨job, hsame.trans hjob, rfl⟩
  case scheduled => exact h.scheduled

theorem wakeAll (h : s.Kept) : s.notifyAll.Kept := by
  constructor
  case worker =>
    intro u hu
    exact (Worker.holds_wake _).trans (h.worker u hu)
  case caller => exact h.caller
  case taken =>
    intro u j hj
    rcases h.taken u j hj with hdone | ⟨job, hjob, rfl⟩
    · exact Or.inl hdone
    · exact Or.inr ⟨job, (Worker.job?_wake _).trans hjob, rfl⟩
  case scheduled => exact h.scheduled

theorem take (h : s.Kept) (job : Job F A) (hjob : (s.workers w).job? = none)
    (hholds : (s.workers w).holds = false) :
    ({ s.setWorker w (.run job) with taken := s.taken ++ [(w, job.promise)] } :
      ThreadPool S C F A E V).Kept := by
  constructor
  case worker =>
    intro u hu
    exact (update_congr Worker.holds (x := .run job) hholds.symm u).trans (h.worker u hu)
  case caller => exact h.caller
  case taken =>
    intro u j hj
    rcases List.mem_append.mp hj with hold | hnew
    · rcases h.taken u j hold with hdone | ⟨job', hjob', rfl⟩
      · exact Or.inl hdone
      · have hne : u ≠ w := by
          rintro rfl
          rw [hjob] at hjob'
          cases hjob'
        refine Or.inr ⟨job', ?_, rfl⟩
        exact (congrArg Worker.job? (Function.update_of_ne hne ..)).trans hjob'
    · obtain ⟨rfl, rfl⟩ := Prod.mk.inj (List.mem_singleton.mp hnew)
      have hself : (s.setWorker u (.run job)).workers u = .run job := Function.update_self ..
      exact Or.inr ⟨job, congrArg Worker.job? hself, rfl⟩
  case scheduled => exact h.scheduled

theorem fulfil {job : Job F A} {outcome : Except E V} (h : s.Kept)
    (hw : s.workers w = .fulfil job outcome) :
    ({ s.setWorker w .loop with fulfilled := s.fulfilled ++ [(job.promise, outcome)] } :
      ThreadPool S C F A E V).Kept := by
  constructor
  case worker =>
    intro u hu
    have hholds : Worker.holds (.loop : Worker F A E V) = (s.workers w).holds := by
      rw [hw]
      rfl
    exact (update_congr Worker.holds hholds u).trans (h.worker u hu)
  case caller => exact h.caller
  case taken =>
    intro u j hj
    rw [List.map_append]
    rcases h.taken u j hj with hdone | ⟨job', hjob', rfl⟩
    · exact Or.inl (List.mem_append_left _ hdone)
    · rcases eq_or_ne u w with rfl | hne
      · rw [hw] at hjob'
        obtain rfl := Option.some.inj hjob'
        exact Or.inl (List.mem_append_right _ (List.mem_singleton_self _))
      · refine Or.inr ⟨job', ?_, rfl⟩
        exact (congrArg Worker.job? (Function.update_of_ne hne ..)).trans hjob'
  case scheduled => exact h.scheduled

variable [DecidableEq C]

theorem call {y : Caller F A} (h : s.Kept) (hholds : y.holds = (s.callers c).holds)
    (hjob : y.job? = (s.callers c).job?) : (s.setCaller c y).Kept := by
  constructor
  case worker => exact h.worker
  case caller =>
    intro d hd
    exact (update_congr Caller.holds (f := s.callers) hholds d).trans (h.caller d hd)
  case taken => exact h.taken
  case scheduled =>
    intro j hj
    rcases h.scheduled j hj with hqueued | ⟨d, job, hd, rfl⟩
    · exact Or.inl hqueued
    · exact Or.inr ⟨d, job, (update_congr Caller.job? (f := s.callers) hjob d).trans hd, rfl⟩

theorem schedule (h : s.Kept) (hc : s.callers c = .idle) (func : F) (args : A) :
    ({ s.setCaller c (.fetch ⟨s.jobs.length, func, args⟩) with
      jobs := s.jobs ++ [(func, args)] } : ThreadPool S C F A E V).Kept := by
  constructor
  case worker => exact h.worker
  case caller =>
    intro d hd
    have hholds : Caller.holds (.fetch ⟨s.jobs.length, func, args⟩) = (s.callers c).holds := by
      rw [hc]
      rfl
    exact (update_congr Caller.holds (f := s.callers) hholds d).trans (h.caller d hd)
  case taken => exact h.taken
  case scheduled =>
    intro j hj
    rw [List.length_append] at hj
    rcases Nat.lt_succ_iff_lt_or_eq.mp hj with hlt | rfl
    · rcases h.scheduled j hlt with hqueued | ⟨d, job, hd, rfl⟩
      · exact Or.inl hqueued
      · have hne : d ≠ c := by
          rintro rfl
          rw [hc] at hd
          cases hd
        exact Or.inr ⟨d, job, (congrArg Caller.job? (Function.update_of_ne hne ..)).trans hd, rfl⟩
    · have hself : (s.setCaller c (.fetch ⟨s.jobs.length, func, args⟩)).callers c =
          .fetch ⟨s.jobs.length, func, args⟩ := Function.update_self ..
      exact Or.inr ⟨c, _, congrArg Caller.job? hself, rfl⟩

theorem push {q : ℕ} {job : Job F A} (h : s.Kept) (hc : s.callers c = .push q job) :
    ({ s.setCaller c .lock with queued := s.queued ++ [job.promise] } :
      ThreadPool S C F A E V).Kept := by
  constructor
  case worker => exact h.worker
  case caller =>
    intro d hd
    have hholds : Caller.holds (.lock : Caller F A) = (s.callers c).holds := by
      rw [hc]
      rfl
    exact (update_congr Caller.holds (f := s.callers) hholds d).trans (h.caller d hd)
  case taken => exact h.taken
  case scheduled =>
    intro j hj
    rcases h.scheduled j hj with hqueued | ⟨d, job', hd, rfl⟩
    · exact Or.inl (List.mem_append_left _ hqueued)
    · rcases eq_or_ne d c with rfl | hne
      · rw [hc] at hd
        obtain rfl := Option.some.inj hd
        exact Or.inl (List.mem_append_right _ (List.mem_singleton_self _))
      · exact Or.inr ⟨d, job', (congrArg Caller.job? (Function.update_of_ne hne ..)).trans hd, rfl⟩

theorem passCaller {y : Caller F A} {owner : Option (C ⊕ Fin S)} (h : s.Kept)
    (hjob : y.job? = (s.callers c).job?)
    (howner : owner = none ∨ owner = some (.inl c) ∧ y.holds = true) :
    ({ s.setCaller c y with owner } : ThreadPool S C F A E V).Kept := by
  constructor
  case worker =>
    rintro w rfl
    rcases howner with hnone | ⟨hsome, -⟩
    · cases hnone
    · cases hsome
  case caller =>
    rintro d rfl
    rcases howner with hnone | ⟨hsome, hholds⟩
    · cases hnone
    · obtain rfl := Sum.inl.inj (Option.some.inj hsome)
      have hself : (s.setCaller d y).callers d = y := Function.update_self ..
      exact (congrArg Caller.holds hself).trans hholds
  case taken => exact h.taken
  case scheduled =>
    intro j hj
    rcases h.scheduled j hj with hqueued | ⟨d, job, hd, rfl⟩
    · exact Or.inl hqueued
    · exact Or.inr ⟨d, job, (update_congr Caller.job? (f := s.callers) hjob d).trans hd, rfl⟩

theorem step (h : s.Kept) (hstep : Step yields s s') : s'.Kept := by
  cases hstep with
  | schedule c func args hc => exact h.schedule hc func args
  | fetch c job hc =>
    have hcall := h.call (c := c) (y := .push (s.nextQueue.toNat % S) job) (by rw [hc]; rfl)
      (by rw [hc]; rfl)
    exact ⟨hcall.worker, hcall.caller, hcall.taken, hcall.scheduled⟩
  | push c q job hc =>
    have hpush := h.push hc
    exact ⟨hpush.worker, hpush.caller, hpush.taken, hpush.scheduled⟩
  | lockCaller c hc ho => exact h.passCaller (by rw [hc]; rfl) (Or.inr ⟨rfl, rfl⟩)
  | notify c hc => exact h.wakeAll.call (by rw [notifyAll, hc]; rfl) (by rw [notifyAll, hc]; rfl)
  | unlockCaller c hc => exact h.passCaller (by rw [hc]; rfl) (Or.inl rfl)
  | take w q job rest hw hjob =>
    have htake := h.take job hw.1 hw.2
    exact ⟨htake.worker, htake.caller, htake.taken, htake.scheduled⟩
  | move w x hx => exact h.work hx.holds hx.job
  | lockWorker w hw ho =>
    refine h.pass ?_ (Or.inr ⟨rfl, rfl⟩)
    rcases hw with hw | hw <;> (rw [hw]; rfl)
  | block w hw => exact h.pass (by rw [hw]; rfl) (Or.inl rfl)
  | unlockWorker w hw => exact h.pass (by rw [hw]; rfl) (Or.inl rfl)
  | fulfil w job outcome hw => exact h.fulfil hw
  | wake w => exact h.work (Worker.holds_wake _) (Worker.job?_wake _)
  | stop stopped => exact ⟨h.worker, h.caller, h.taken, h.scheduled⟩
  | stopWaiting stopped =>
    exact ⟨h.wakeAll.worker, h.wakeAll.caller, h.wakeAll.taken, h.wakeAll.scheduled⟩

end Kept

theorem kept_reachable [DecidableEq C] (h : (machine yields).Reachable s) : s.Kept := by
  refine h.invariant (P := Kept) ?_ ?_
  · constructor
    case worker => rintro w ⟨⟩
    case caller => rintro c ⟨⟩
    case taken => rintro w j ⟨⟩
    case scheduled => rintro j ⟨⟩
  · intro s a s' ih hstep
    exact ih.step (step_of_eq hstep)

theorem Accounted.length_le (h : Accounted yields s) : s.taken.length ≤ s.queued.length := by
  have hsub : s.taken.map Prod.snd ⊆ s.queued := by
    intro j hj
    have hcount := h.queued.count j
    have hpos := List.count_pos_iff.mpr hj
    exact List.count_pos_iff.mp (by omega)
  rw [← List.length_map Prod.snd]
  exact (List.subperm_of_subset h.queued.taken_nodup hsub).length_le

end History

end LowLevel.ThreadPool
