import LowLevel.Foundations.Progress
import LowLevel.Foundations.Ranks
import LowLevel.ThreadPool.Workers

/-! # Every job is done, and the pool shuts down

A worker that finds the pool empty sleeps, and one that was asked to stop leaves
once it has fulfilled the promise it has in hand. A search that finds nothing
although a job was waiting has lost it to another worker, so the jobs that wait
bound the searches, and a fair schedule brings the pool to rest.
-/

namespace LowLevel.ThreadPool

variable {S : ℕ} {C F A E V : Type*} {s s' : ThreadPool S C F A E V}
  {yields : F → A → Except E V → Bool} {w : Fin S} {c : C}

section Rank

variable {queues : ℕ → List (Job F A)} {stopped : Bool} {i : ℕ}

/-- A job waits in one of the queues from the `i`-th on. -/
def ahead (S : ℕ) (queues : ℕ → List (Job F A)) (i : ℕ) : Bool :=
  (List.range S).any fun q => decide (i ≤ q) && !(queues q).isEmpty

/-- The steps of a worker that has no job ahead of it, once its search has started. -/
def lost (S : ℕ) (queues : ℕ → List (Job F A)) (i : ℕ) : ℕ :=
  if ahead S queues i then 0 else 2 * S + 7

/-- What a worker has left to do before it sleeps or leaves, unless it takes a job first: with a job
ahead of it, a search ends there. -/
def Worker.worth (S : ℕ) (queues : ℕ → List (Job F A)) (stopped : Bool) : Worker F A E V → ℕ
  | .run _ => 3 * S + 11
  | .fulfil _ _ => 3 * S + 10
  | .unlock => if stopped then 2 else S + 3 + lost S queues 0
  | .loop => if stopped then 1 else S + 2 + lost S queues 0
  | .own => S + 1 + lost S queues 0
  | .steal i => S - i + lost S queues i
  | .lock | .woken => 2 * S + 6
  | .check => 2 * S + 5
  | .predicate i => S - i + 1 + if stopped || ahead S queues i then S + 3 else 0
  | .last i => S - i + 3
  | .blocked | .exited => 0

theorem ahead_iff : ahead S queues i = true ↔ ∃ q, i ≤ q ∧ q < S ∧ queues q ≠ [] := by
  simp only [ahead, List.any_eq_true, List.mem_range, Bool.and_eq_true, decide_eq_true_eq,
    Bool.not_eq_true', List.isEmpty_eq_false_iff]
  constructor
  · rintro ⟨q, hlt, hq, hne⟩
    exact ⟨q, hq, hlt, hne⟩
  · rintro ⟨q, hq, hlt, hne⟩
    exact ⟨q, hlt, hq, hne⟩

theorem lost_le (S : ℕ) (queues : ℕ → List (Job F A)) (i : ℕ) : lost S queues i ≤ 2 * S + 7 := by
  unfold lost
  split <;> omega

theorem Worker.worth_le (x : Worker F A E V) : x.worth S queues stopped ≤ 3 * S + 11 := by
  have hlost := lost_le S queues
  cases x with
  | unlock | loop =>
    have := hlost 0
    simp only [worth]
    split <;> omega
  | own =>
    have := hlost 0
    simp only [worth]
    omega
  | steal i =>
    have := hlost i
    simp only [worth]
    omega
  | predicate i =>
    simp only [worth]
    split <;> omega
  | _ =>
    simp only [worth]
    omega

theorem ahead_succ (h : queues i = []) : ahead S queues (i + 1) = ahead S queues i := by
  rw [Bool.eq_iff_iff, ahead_iff, ahead_iff]
  constructor
  · rintro ⟨q, hq, hlt, hne⟩
    exact ⟨q, Nat.le_of_succ_le hq, hlt, hne⟩
  · rintro ⟨q, hq, hlt, hne⟩
    refine ⟨q, Nat.lt_of_le_of_ne hq ?_, hlt, hne⟩
    rintro rfl
    exact hne h

theorem not_ahead (S : ℕ) (queues : ℕ → List (Job F A)) : ahead S queues S = false := by
  rw [Bool.eq_false_iff, ne_eq, ahead_iff]
  rintro ⟨q, hq, hlt, -⟩
  exact absurd hlt (Nat.not_lt_of_le hq)

theorem Worker.Goes.worth_lt {q : ℕ} {x y : Worker F A E V}
    (h : x.Goes S yields stopped queues q y) (hx : x.Fits S stopped) :
    y.worth S queues stopped < x.worth S queues stopped := by
  cases h with
  | exit hstopped =>
    simp only [worth, if_pos hstopped]
    omega
  | search hstopped =>
    simp only [worth, hstopped, Bool.false_eq_true, if_false]
    omega
  | own hempty =>
    simp only [worth]
    omega
  | steal i hi hempty =>
    have hx : i ≤ S := hx
    simp only [worth, lost, ahead_succ hempty]
    omega
  | giveUp =>
    simp only [worth, lost, not_ahead, Bool.false_eq_true, if_false]
    omega
  | lock | relock =>
    simp only [worth]
    omega
  | stop hstopped =>
    simp only [worth]
    omega
  | check hstopped =>
    simp only [worth]
    split <;> omega
  | pass i hi hempty =>
    have hx : i ≤ S := hx
    simp only [worth, ahead_succ hempty]
    omega
  | found i hi hne =>
    have hlt : i < S := Nat.lt_of_le_of_ne hx hi
    have hahead : ahead S queues i = true := ahead_iff.mpr ⟨i, Nat.le_refl i, hlt, hne⟩
    have hany : ahead S queues 0 = true := ahead_iff.mpr ⟨i, Nat.zero_le i, hlt, hne⟩
    simp only [worth, lost, hahead, hany, Bool.or_true, if_true]
    split <;> omega
  | stopLate hstopped =>
    simp only [worth, hstopped, Bool.true_or, if_true]
    omega
  | block hstopped =>
    simp only [worth]
    omega
  | last i hi =>
    have hx : i ≤ S := hx.1
    simp only [worth]
    omega
  | leave i =>
    simp only [worth, if_pos hx.2]
    omega
  | unlock =>
    simp only [worth]
    split <;> omega
  | run job outcome =>
    simp only [worth]
    omega
  | fulfil job outcome =>
    have hlost := lost_le S queues 0
    simp only [worth]
    split <;> omega

/-- More than all workers together have left to do at any time. -/
def bound (S : ℕ) : ℕ := S * (3 * S + 11) + 1

/-- What a caller has left to do, with all that the workers may have to do again after it: when a
job gets into a queue, for the job itself, and when they are notified. -/
def Caller.worth (S : ℕ) : Caller F A → ℕ
  | .idle => 0
  | .unlock => 1
  | .notify => bound S + 1
  | .lock => bound S + 2
  | .push _ _ => 3 * bound S + 2
  | .fetch _ => 3 * bound S + 3

def workersWorth (s : ThreadPool S C F A E V) : ℕ :=
  total (fun w => Worker.worth S s.queues (s.stopped w)) s.workers

theorem workersWorth_lt (s : ThreadPool S C F A E V) : s.workersWorth < bound S := by
  have hle := total_le (fun w => Worker.worth S s.queues (s.stopped w)) s.workers
    fun w => (s.workers w).worth_le
  rw [Fintype.card_fin] at hle
  exact Nat.lt_succ_of_le hle

variable [Fintype C]

/-- What is left to do: by the callers, for the jobs in the queues, and by the workers. -/
def rank (s : ThreadPool S C F A E V) : ℕ :=
  total (fun _ => Caller.worth S) s.callers + bound S * (s.queued.length - s.taken.length) +
    s.workersWorth

theorem Worked.rank_lt (hworked : Worked yields w s s') (h : s.Placed)
    (hle : s'.taken.length ≤ s'.queued.length) : s'.rank < s.rank := by
  unfold rank
  rw [hworked.callers, hworked.queued]
  rw [hworked.queued] at hle
  rcases hworked.moved with ⟨x, hgoes, hworkers, hqueues, htaken⟩ | ⟨job, -, htaken⟩
  · have hlt : s'.workersWorth < s.workersWorth := by
      unfold workersWorth
      rw [hworkers, hqueues, hworked.stopped]
      exact total_update_lt _ (hgoes.worth_lt (h w))
    rw [htaken]
    omega
  · have hlt := s'.workersWorth_lt
    rw [htaken, List.length_append, List.length_singleton] at hle ⊢
    obtain ⟨k, hk⟩ := Nat.exists_eq_add_of_le hle
    have hafter : s.queued.length - (s.taken.length + 1) = k := by omega
    have hbefore : s.queued.length - s.taken.length = k + 1 := by omega
    rw [hafter, hbefore, Nat.mul_succ]
    omega

variable [DecidableEq C]

theorem called_rank_lt {x : Caller F A} {k : ℕ} (hle : s.taken.length ≤ s.queued.length)
    (hcallers : s'.callers = Function.update s.callers c x) (htaken : s'.taken = s.taken)
    (hqueued : s'.queued.length = s.queued.length + k)
    (hlt : x.worth S + bound S * k + s'.workersWorth < (s.callers c).worth S + s.workersWorth) :
    s'.rank < s.rank := by
  have hupdate := total_update (fun _ => Caller.worth S) s.callers c x
  have hleft : s.queued.length + k - s.taken.length = s.queued.length - s.taken.length + k := by
    omega
  unfold rank
  rw [hcallers, htaken, hqueued, hleft, Nat.mul_add]
  omega

theorem scheduleJob_rank_lt (hle : s.taken.length ≤ s.queued.length)
    (h : s.scheduleJob c = some s') : s'.rank < s.rank := by
  have hraised := s'.workersWorth_lt
  unfold scheduleJob at h
  cases hc : s.callers c with
  | idle =>
    rw [hc] at h
    cases h
  | fetch job =>
    rw [hc] at h
    obtain rfl := Option.some.inj h
    apply called_rank_lt (c := c) (k := 0) hle
    case hcallers | htaken | hqueued => rfl
    rw [hc]
    exact Nat.add_lt_add_right (Nat.lt_succ_self _) s.workersWorth
  | push q job =>
    rw [hc] at h
    obtain rfl := Option.some.inj h
    apply called_rank_lt (c := c) (k := 1) hle
    case hcallers | htaken => rfl
    case hqueued => exact List.length_append ..
    rw [hc]
    simp only [Caller.worth, Nat.mul_one] at hraised ⊢
    omega
  | lock =>
    rw [hc] at h
    obtain ⟨-, heq⟩ := Option.ite_none_right_eq_some.mp h
    obtain rfl := Option.some.inj heq
    apply called_rank_lt (c := c) (k := 0) hle
    case hcallers | htaken | hqueued => rfl
    rw [hc]
    exact Nat.add_lt_add_right (Nat.lt_succ_self _) s.workersWorth
  | notify =>
    rw [hc] at h
    obtain rfl := Option.some.inj h
    apply called_rank_lt (c := c) (k := 0) hle
    case hcallers | htaken | hqueued => rfl
    rw [hc]
    simp only [Caller.worth, Nat.mul_zero] at hraised ⊢
    omega
  | unlock =>
    rw [hc] at h
    obtain rfl := Option.some.inj h
    apply called_rank_lt (c := c) (k := 0) hle
    case hcallers | htaken | hqueued => rfl
    rw [hc]
    exact Nat.add_lt_add_right (Nat.lt_succ_self _) s.workersWorth

end Rank

section Fair

def Action.thread : Action S C F A E V → Option (C ⊕ Fin S)
  | .caller c => some (.inl c)
  | .worker w _ => some (.inr w)
  | _ => none

/-- No call begins, nobody is asked to stop and no waiter wakes up for no reason; a function that is
run returns or throws. -/
def Closing (yields : F → A → Except E V → Bool) (s : ThreadPool S C F A E V) :
    Action S C F A E V → Prop
  | .caller _ => True
  | .worker w outcome => ∀ job, s.workers w = .run job → yields job.func job.args outcome = true
  | _ => False

def Free (s : ThreadPool S C F A E V) : C ⊕ Fin S → Prop
  | .inl c => s.callers c ≠ .idle ∧ (s.owner = none ∨ s.owner = some (.inl c))
  | .inr w => (s.workers w ≠ .blocked ∧ s.workers w ≠ .exited) ∧
      (s.owner = none ∨ s.owner = some (.inr w))

/-- All calls have returned, and the workers sleep or, if they were asked to, have left. Jobs that
were taken are done; as long as a worker is left all jobs are, each with an outcome of its function
and argument. -/
structure Settled (yields : F → A → Except E V → Bool) (s : ThreadPool S C F A E V) : Prop where
  returned : ∀ c, s.callers c = .idle
  rests : ∀ w, s.workers w = if s.stopped w then .exited else .blocked
  taken : ∀ w j, (w, j) ∈ s.taken → j ∈ s.fulfilled.map Prod.fst
  done : (∃ w, s.stopped w = false) → ∀ j < s.jobs.length, ∃ func args outcome,
    s.jobs[j]? = some (func, args) ∧ (j, outcome) ∈ s.fulfilled ∧ yields func args outcome = true

/-- All calls have returned, and the workers sleep or have left. -/
def AtRest (s : ThreadPool S C F A E V) : Prop :=
  (∀ c, s.callers c = .idle) ∧ ∀ w, s.workers w = .blocked ∨ s.workers w = .exited

variable {outcome : Except E V} {a : Action S C F A E V}

theorem Free.threadHandler (h : s.Free (.inr w)) (hkept : s.Kept)
    (hyields : ∀ job, s.workers w = .run job → yields job.func job.args outcome = true) :
    ∃ s', s.threadHandler yields w outcome = some s' := by
  obtain ⟨⟨hblocked, hexited⟩, howner⟩ := h
  have hnone : (s.workers w).holds = false → s.owner.isNone = true := by
    intro hnot
    rcases howner with hnone | hsome
    · rw [hnone]
      rfl
    · rw [hkept.worker w hsome] at hnot
      cases hnot
  unfold ThreadPool.threadHandler
  cases hw : s.workers w with
  | blocked => exact absurd hw hblocked
  | exited => exact absurd hw hexited
  | lock | woken =>
    rw [hw] at hnone
    exact ⟨_, if_pos (hnone rfl)⟩
  | predicate i =>
    simp only
    split
    · split <;> exact ⟨_, rfl⟩
    · exact ⟨_, rfl⟩
  | run job => exact ⟨_, if_pos (hyields job hw)⟩
  | _ => exact ⟨_, rfl⟩

theorem exists_free (hkept : s.Kept) (h : ¬ s.AtRest) : ∃ t, s.Free t := by
  cases howner : s.owner with
  | none =>
    by_contra hnot
    apply h
    constructor
    · intro c
      by_contra hc
      exact hnot ⟨.inl c, hc, Or.inl howner⟩
    · intro w
      by_contra hw
      exact hnot ⟨.inr w, not_or.mp hw, Or.inl howner⟩
  | some t =>
    refine ⟨t, ?_⟩
    cases t with
    | inl c =>
      have hholds := hkept.caller c howner
      refine ⟨?_, Or.inr howner⟩
      intro hc
      rw [hc] at hholds
      cases hholds
    | inr w =>
      have hholds := hkept.worker w howner
      refine ⟨⟨?_, ?_⟩, Or.inr howner⟩ <;>
      · intro hw
        rw [hw] at hholds
        cases hholds

variable [DecidableEq C]

theorem Free.scheduleJob (h : s.Free (.inl c)) (hkept : s.Kept) :
    ∃ s', s.scheduleJob c = some s' := by
  obtain ⟨hidle, howner⟩ := h
  unfold ThreadPool.scheduleJob
  cases hc : s.callers c with
  | idle => exact absurd hc hidle
  | lock =>
    refine ⟨_, if_pos ?_⟩
    rcases howner with hnone | hsome
    · rw [hnone]
      rfl
    · have hholds := hkept.caller c hsome
      rw [hc] at hholds
      cases hholds
  | _ => exact ⟨_, rfl⟩

theorem AtRest.stuck (h : s.AtRest) (ha : Closing yields s a) :
    ThreadPool.step yields s a = none := by
  cases a with
  | caller c =>
    simp only [ThreadPool.step, ThreadPool.scheduleJob]
    rw [h.1 c]
  | worker w outcome =>
    simp only [ThreadPool.step, ThreadPool.threadHandler]
    rcases h.2 w with hw | hw <;> rw [hw]
  | _ => exact ha.elim

theorem reachable_step (h : (machine yields).Reachable s)
    (hstep : (machine yields).step s a = some s') : (machine yields).Reachable s' := by
  obtain ⟨acts, hrun⟩ := h
  exact ⟨acts ++ [a], Machine.run_concat hrun hstep⟩

theorem descent [Fintype C] (hS : 1 ≤ S) (yields : F → A → Except E V → Bool) :
    (machine (S := S) (C := C) yields).Descent Action.thread (Closing yields)
      (machine yields).Reachable AtRest rank Free := by
  constructor
  case inv =>
    intro s a s' h _ hstep
    exact reachable_step h hstep
  case falls =>
    intro s a s' h ha hstep
    have hle := (accounted_reachable hS (reachable_step h hstep)).length_le
    cases a with
    | caller c => exact scheduleJob_rank_lt (accounted_reachable hS h).length_le hstep
    | worker w outcome => exact (threadHandler_worked hstep).rank_lt (placed_reachable h) hle
    | _ => exact ha.elim
  case quiet =>
    intro s a _ ha hrest
    exact hrest.stuck ha
  case free =>
    intro s h hnot
    exact exists_free (kept_reachable h) hnot
  case moves =>
    intro s a i h ha hfree hi
    cases a with
    | caller c =>
      obtain rfl := Option.some.inj hi
      exact hfree.scheduleJob (kept_reachable h)
    | worker w outcome =>
      obtain rfl := Option.some.inj hi
      exact hfree.threadHandler (kept_reachable h) ha
    | _ => exact ha.elim

theorem AtRest.settled (h : s.AtRest) (hS : 1 ≤ S) (hreach : (machine yields).Reachable s) :
    Settled yields s := by
  have hplaced := placed_reachable hreach
  have hkept := kept_reachable hreach
  have hacc := accounted_reachable hS hreach
  have htaken : ∀ w j, (w, j) ∈ s.taken → j ∈ s.fulfilled.map Prod.fst := by
    intro w j hj
    rcases hkept.taken w j hj with hdone | ⟨job, hjob, -⟩
    · exact hdone
    · rcases h.2 w with hw | hw <;>
      · rw [hw] at hjob
        cases hjob
  constructor
  case returned => exact h.1
  case rests =>
    intro w
    have hfits := hplaced w
    rcases h.2 w with hw | hw
    · rw [hw] at hfits
      have hstopped : s.stopped w = false := hfits
      rw [hw, hstopped, if_neg Bool.false_ne_true]
    · rw [hw] at hfits
      have hstopped : s.stopped w = true := hfits
      rw [hw, hstopped, if_pos rfl]
  case taken => exact htaken
  case done =>
    rintro ⟨w, hw⟩ j hj
    have hqueued : j ∈ s.queued := by
      rcases hkept.scheduled j hj with hqueued | ⟨c, job, hjob, -⟩
      · exact hqueued
      · rw [h.1 c] at hjob
        cases hjob
    have hblocked : s.workers w = .blocked := by
      have hfits := hplaced w
      rcases h.2 w with hblocked | hexited
      · exact hblocked
      · rw [hexited] at hfits
        have hstopped : s.stopped w = true := hfits
        rw [hstopped] at hw
        cases hw
    have hempty : ∀ q < S, s.queues q = [] := by
      intro q hq
      by_contra hne
      obtain ⟨c, hc⟩ := (watched_reachable hreach).awake w hblocked hq hne
      rw [h.1 c] at hc
      cases hc
    rcases hacc.placed hqueued with ⟨hmem, -⟩ | ⟨-, q, hq, hcount, -⟩
    · obtain ⟨⟨u, j⟩, hu, rfl⟩ := List.mem_map.mp hmem
      obtain ⟨⟨k, outcome⟩, hdone, rfl⟩ := List.mem_map.mp (htaken u j hu)
      obtain ⟨-, func, args, hjob, hyields⟩ := hacc.served.fulfilled k outcome hdone
      exact ⟨func, args, outcome, hjob, hdone, hyields⟩
    · rw [promises, hempty q hq] at hcount
      cases hcount

/-- From any state, if no more calls begin and nobody else is asked to stop, a fair schedule brings
the pool to rest with every job done that a worker was left for. -/
theorem eventually_settled [Fintype C] (hS : 1 ≤ S) {sched : ℕ → Action S C F A E V}
    (h : (machine yields).Reachable s)
    (hclosing : ∀ n, Closing yields ((machine yields).along s sched n) (sched n))
    (hfair : Machine.Fair Action.thread sched) :
    ∃ n, ∀ m, n ≤ m → Settled yields ((machine yields).along s sched m) := by
  obtain ⟨n, hn⟩ := (descent hS yields).eventually h hclosing hfair
  refine ⟨n, fun m hm => ?_⟩
  obtain ⟨hreach, hrest⟩ := hn m hm
  exact hrest.settled hS hreach

end Fair

def returnsNothing (_ _ : ℕ) : Except ℕ Unit → Bool
  | .ok () => true
  | .error _ => false

def inTurn (n : ℕ) : Action 2 Unit ℕ ℕ ℕ Unit :=
  if n % 3 = 0 then .caller ()
  else .worker (if n % 3 = 1 then Fin.last 1 else (Fin.last 1).rev) (.ok ())

theorem inTurn_closing (s : ThreadPool 2 Unit ℕ ℕ ℕ Unit) (n : ℕ) :
    Closing returnsNothing s (inTurn n) := by
  unfold inTurn
  split
  · trivial
  · intro job _
    rfl

theorem inTurn_fair : Machine.Fair Action.thread inTurn := by
  intro t n
  rcases t with ⟨⟩ | w
  · have hturn : 3 * n % 3 = 0 := Nat.mul_mod_right 3 n
    exact ⟨3 * n, by omega, by rw [inTurn, hturn]; rfl⟩
  · rcases Fin.exists_fin_two.mp ⟨w, rfl⟩ with hw | hw
    · have hturn : (3 * n + 2) % 3 = 2 := Nat.mul_add_mod 3 n 2
      exact ⟨3 * n + 2, by omega, by rw [inTurn, hturn, hw]; rfl⟩
    · have hturn : (3 * n + 1) % 3 = 1 := Nat.mul_add_mod 3 n 1
      exact ⟨3 * n + 1, by omega, by rw [inTurn, hturn, hw]; rfl⟩

/-- A job is scheduled while one worker goes to sleep and the other has been asked to stop. -/
theorem eventually_settled_inTurn : ∃ s : ThreadPool 2 Unit ℕ ℕ ℕ Unit,
    s.jobs = [(3, 4)] ∧ s.taken = [] ∧ s.stopped (Fin.last 1) = true ∧
      s.stopped (Fin.last 1).rev = false ∧ ∃ n, ∀ m, n ≤ m →
        Settled returnsNothing ((machine returnsNothing).along s inTurn m) := by
  have hrun : ((machine returnsNothing).run {}
      (List.replicate 9 (.worker (Fin.last 1).rev (.ok ())) ++
        [.schedule () 3 4, .caller (), .stop (Fin.last 1)])).map
      (fun s => (s.jobs, s.taken, s.stopped (Fin.last 1), s.stopped (Fin.last 1).rev)) =
      some ([(3, 4)], [], true, false) := by decide +kernel
  obtain ⟨s, hs, heq⟩ := Option.map_eq_some_iff.mp hrun
  obtain ⟨hjobs, hrest⟩ := Prod.mk.inj heq
  obtain ⟨htaken, hrest⟩ := Prod.mk.inj hrest
  obtain ⟨hstopped, hleft⟩ := Prod.mk.inj hrest
  exact ⟨s, hjobs, htaken, hstopped, hleft, eventually_settled (by decide) ⟨_, hs⟩
    (fun n => inTurn_closing _ n) inTurn_fair⟩

end LowLevel.ThreadPool
