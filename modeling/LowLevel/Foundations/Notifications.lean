import LowLevel.Foundations.Monitor
import LowLevel.Foundations.Progress
import LowLevel.Foundations.Ranks

/-! # No lost notification

If what the sleepers of a monitor wait for comes in units, of which an operation
that notifies adds one at most and an operation that can sleep takes one, then
no notification is lost: as long as somebody sleeps there are as many threads on
their way to the units as there are units. So a fair schedule brings every call
to its end, except for those that sleep when there is nothing left.
-/

namespace LowLevel.Monitor

variable {ι S O R : Type*} [DecidableEq ι] {ops : Ops S O R} {init : S} {s s' : Monitor ι S O R}
  {t u : ι} {op : O} {res : R}

section Wakeups

/-- What the sleepers wait for comes in units: there are none when somebody has to sleep, an
operation that may sleep takes one, and only an operation that notifies adds one. -/
structure Ops.Counts (ops : Ops S O R) (avail : S → ℕ) : Prop where
  none : ∀ x op, ops.ready x op = false → avail x = 0
  takes : ∀ x op, ops.Waits op → ops.ready x op = true → avail (ops.apply x op).2 < avail x
  gives : ∀ x op, avail (ops.apply x op).2 ≤ avail x + if ops.signals op then 1 else 0

/-- A thread that will take a unit, or will wake one that does. -/
def Underway (ops : Ops S O R) : Phase O R → Prop
  | .woken _ | .notify _ => True
  | .body op => ops.Waits op
  | _ => False

/-- If somebody sleeps, as many threads are under way as there are units. -/
def Watched (ops : Ops S O R) (sleeping : List ι) (phase : ι → Phase O R) (n : ℕ) : Prop :=
  sleeping ≠ [] → ∃ ws : List ι, ws.Nodup ∧ (∀ t ∈ ws, Underway ops (phase t)) ∧ n ≤ ws.length

variable {avail : S → ℕ} {sleeping sleeping' : List ι} {phase : ι → Phase O R} {p : Phase O R}
  {n n' : ℕ}

namespace Watched

theorem keep (h : Watched ops sleeping phase n) (hsleeping : sleeping' ≠ [] → sleeping ≠ [])
    (hp : Underway ops (phase t) → Underway ops p) (hn : n' ≤ n) :
    Watched ops sleeping' (Function.update phase t p) n' := by
  intro hne
  obtain ⟨ws, hnodup, hunder, hle⟩ := h (hsleeping hne)
  refine ⟨ws, hnodup, ?_, hn.trans hle⟩
  intro u hu
  rcases eq_or_ne u t with rfl | hut
  · rw [Function.update_self]
    exact hp (hunder u hu)
  · rw [Function.update_of_ne hut]
    exact hunder u hu

theorem leave (h : Watched ops sleeping phase n) (hn : n' < n) :
    Watched ops sleeping (Function.update phase t p) n' := by
  intro hne
  obtain ⟨ws, hnodup, hunder, hle⟩ := h hne
  refine ⟨ws.erase t, hnodup.erase t, ?_, ?_⟩
  · intro u hu
    obtain ⟨hut, hu⟩ := hnodup.mem_erase_iff.mp hu
    rw [Function.update_of_ne hut]
    exact hunder u hu
  · have hlen := List.length_erase_add_one (l := ws) (a := t)
    by_cases ht : t ∈ ws
    · have := hlen ht
      omega
    · rw [List.erase_of_not_mem ht]
      omega

/-- A thread gets under way, for a unit that it adds or for one that is there. -/
theorem join (h : Watched ops sleeping phase n) (hsleeping : sleeping' ≠ [] → sleeping ≠ [])
    (ht : ¬ Underway ops (phase t)) (hp : Underway ops p) (hn : n' ≤ n + 1) :
    Watched ops sleeping' (Function.update phase t p) n' := by
  intro hne
  obtain ⟨ws, hnodup, hunder, hle⟩ := h (hsleeping hne)
  have hnot : t ∉ ws := fun hmem => ht (hunder t hmem)
  refine ⟨t :: ws, List.nodup_cons.mpr ⟨hnot, hnodup⟩, ?_, ?_⟩
  · intro u hu
    rcases List.mem_cons.mp hu with rfl | hmem
    · rw [Function.update_self]
      exact hp
    · have hut : u ≠ t := by
        rintro rfl
        exact hnot hmem
      rw [Function.update_of_ne hut]
      exact hunder u hmem
  · rw [List.length_cons]
    omega

omit [DecidableEq ι] in
theorem sleep (hn : n = 0) : Watched ops sleeping phase n := by
  intro
  refine ⟨[], List.nodup_nil, ?_, Nat.le_of_eq hn⟩
  rintro t ⟨⟩

end Watched

theorem ne_nil_of_erase (t : ι) (h : sleeping.erase t ≠ []) : sleeping ≠ [] := by
  rintro rfl
  exact h rfl

omit [DecidableEq ι] in
theorem Inv.asleep (h : Inv ops init s) (ht : t ∈ s.sleeping) : ∃ op, s.phase t = .asleep op := by
  have hsleeps := (h.listed.mem t).mp ht
  cases hp : s.phase t with
  | asleep op => exact ⟨op, rfl⟩
  | _ =>
    rw [hp] at hsleeps
    cases hsleeps

theorem Inv.watched_step (h : Inv ops init s) (hcounts : ops.Counts avail)
    (hw : Watched ops s.sleeping s.phase (avail s.data)) (hstep : Step ops s s') :
    Watched ops s'.sleeping s'.phase (avail s'.data) := by
  cases hstep with
  | call t op ht => exact hw.keep id (by rw [ht]; exact id) le_rfl
  | lock t op ht howner =>
    refine hw.keep id ?_ le_rfl
    rcases ht with ht | ht
    · rw [ht]
      exact False.elim
    · have hknows := h.knows t
      rw [ht] at hknows
      exact fun _ => hknows.2
  | run t op ht hready =>
    have hgives := hcounts.gives s.data op
    by_cases hwaits : ops.Waits op
    · have htakes := hcounts.takes s.data op hwaits hready
      cases hsignals : ops.signals op with
      | true => exact hw.keep id (fun _ => trivial) htakes.le
      | false => exact hw.leave htakes
    · have hnot : ¬ Underway ops (s.phase t) := by rwa [ht]
      cases hsignals : ops.signals op with
      | true =>
        rw [hsignals] at hgives
        exact hw.join id hnot trivial hgives
      | false =>
        rw [hsignals] at hgives
        exact hw.keep id (fun hunder => absurd hunder hnot) hgives
  | sleep t op ht hready => exact .sleep (hcounts.none _ _ hready)
  | notify t u res ht hu =>
    obtain ⟨op, hop⟩ := h.asleep hu
    have hwoken : Watched ops (s.sleeping.erase u)
        (Function.update s.phase u (s.phase u).wake) (avail s.data + 1) := by
      apply hw.join (ne_nil_of_erase u) _ _ le_rfl
      · rw [hop]
        exact id
      · rw [hop]
        trivial
    exact hwoken.leave (Nat.lt_succ_self _)
  | quiet t res ht hnone => exact fun hne => absurd hnone hne
  | unlock t res ht => exact hw.keep id (by rw [ht]; exact id) le_rfl
  | ret t res ht => exact hw.keep id (by rw [ht]; exact id) le_rfl
  | wake t ht =>
    obtain ⟨op, hop⟩ := h.asleep ht
    apply hw.keep (ne_nil_of_erase t) _ le_rfl
    rw [hop]
    exact fun _ => trivial

theorem watched_reachable (hcounts : ops.Counts avail) (h : (machine ops init).Reachable s) :
    Watched ops s.sleeping s.phase (avail s.data) := by
  have hall := h.invariant (P := fun s => Inv ops init s ∧
    Watched ops s.sleeping s.phase (avail s.data)) ?_ ?_
  · exact hall.2
  · exact ⟨.start ops init, fun hne => absurd rfl hne⟩
  · rintro s a s' ⟨hinv, hw⟩ hstep
    have hstep := step_of_eq hstep
    exact ⟨hinv.step hstep, hinv.watched_step hcounts hw hstep⟩

end Wakeups

section Fair

def Action.thread : Action ι O → Option ι
  | .move t _ => some t
  | _ => none

def Quiet (s : Monitor ι S O R) : Prop := ∀ t, s.phase t = .idle ∨ ∃ op, s.phase t = .asleep op

/-- A bound on the steps that a thread has left, with those of the sleeper that it wakes; a sleeper
keeps what it needs after its predicate. -/
def Phase.worth : Phase O R → ℕ
  | .idle => 0
  | .ret _ => 1
  | .unlock _ => 2
  | .asleep _ | .notify _ => 5
  | .body _ => 6
  | .lock _ | .woken _ => 7

omit [DecidableEq ι] in
/-- Nobody is under way in a quiet state, so there is nothing to sleep for. -/
theorem Quiet.none_left {n : ℕ} (h : s.Quiet) (hw : Watched ops s.sleeping s.phase n)
    (hne : s.sleeping ≠ []) : n = 0 := by
  obtain ⟨ws, -, hunder, hle⟩ := hw hne
  cases ws with
  | nil => exact Nat.le_zero.mp hle
  | cons t ws =>
    have ht := hunder t (List.mem_cons_self ..)
    rcases h t with hidle | ⟨op, hop⟩
    · rw [hidle] at ht
      exact ht.elim
    · rw [hop] at ht
      exact ht.elim

theorem Quiet.stuck (h : s.Quiet) {pick : ℕ} : s.move ops t pick = none := by
  unfold move
  rcases h t with hidle | ⟨op, hop⟩
  · rw [hidle]
  · rw [hop]

def Free (s : Monitor ι S O R) (t : ι) : Prop :=
  (s.phase t ≠ .idle ∧ ∀ op, s.phase t ≠ .asleep op) ∧ (s.owner = none ∨ s.owner = some t)

theorem Free.moves (h : s.Free t) (hinv : Inv ops init s) (pick : ℕ) :
    ∃ s', s.move ops t pick = some s' := by
  obtain ⟨⟨hidle, hasleep⟩, howner⟩ := h
  have hnone : (s.phase t).holds = false → s.owner.isNone = true := by
    intro hnot
    rcases howner with hnone | hsome
    · rw [hnone]
      rfl
    · rw [(hinv.held t).mpr hsome] at hnot
      cases hnot
  unfold move
  cases ht : s.phase t with
  | idle => exact absurd ht hidle
  | asleep op => exact absurd ht (hasleep op)
  | lock op | woken op =>
    rw [ht] at hnone
    exact ⟨_, if_pos (hnone rfl)⟩
  | body op =>
    simp only
    split <;> exact ⟨_, rfl⟩
  | _ => exact ⟨_, rfl⟩

omit [DecidableEq ι] in
/-- Unless all is quiet, some thread can move: the one that holds the mutex, or any. -/
theorem exists_free (hinv : Inv ops init s) (h : ¬ s.Quiet) : ∃ t, s.Free t := by
  obtain ⟨t, ht⟩ := not_forall.mp h
  obtain ⟨hidle, hasleep⟩ := not_or.mp ht
  have hasleep := not_exists.mp hasleep
  cases howner : s.owner with
  | none => exact ⟨t, ⟨hidle, hasleep⟩, Or.inl howner⟩
  | some u =>
    have hholds := (hinv.held u).mpr howner
    refine ⟨u, ⟨?_, ?_⟩, Or.inr howner⟩
    · intro hu
      rw [hu] at hholds
      cases hholds
    · intro op hu
      rw [hu] at hholds
      cases hholds

variable [Fintype ι]

def worth (s : Monitor ι S O R) : ℕ := total (fun _ => Phase.worth) s.phase

theorem worth_goTo (s : Monitor ι S O R) (t : ι) (p : Phase O R) :
    (s.goTo t p).worth + (s.phase t).worth = s.worth + p.worth :=
  total_update (fun _ => Phase.worth) s.phase t p

theorem worth_goTo_lt {p : Phase O R} (h : p.worth < (s.phase t).worth) :
    (s.goTo t p).worth < s.worth :=
  total_update_lt (fun _ => Phase.worth) h

/-- The sleeper that is woken costs less than the notification was worth. -/
theorem worth_notify_lt (ht : s.phase t = .notify res) (hu : s.phase u = .asleep op) :
    ((s.wake u).goTo t (.unlock res)).worth < s.worth := by
  have hne : t ≠ u := by
    rintro rfl
    rw [ht] at hu
    cases hu
  have hwake := s.worth_goTo u (s.phase u).wake
  have hnotify := (s.wake u).worth_goTo t (.unlock res)
  have hsame : (s.wake u).phase t = .notify res := (Function.update_of_ne hne ..).trans ht
  rw [hsame] at hnotify
  have hwoken : (s.wake u).worth = (s.goTo u (s.phase u).wake).worth := rfl
  rw [hu] at hwake hwoken
  simp only [Phase.wake, Phase.worth] at hwake hwoken hnotify
  omega

theorem worth_move_lt {pick : ℕ} (hinv : Inv ops init s) (h : s.move ops t pick = some s') :
    s'.worth < s.worth := by
  unfold move at h
  cases ht : s.phase t with
  | idle | asleep op =>
    rw [ht] at h
    cases h
  | lock op | woken op =>
    rw [ht] at h
    obtain ⟨-, heq⟩ := Option.ite_none_right_eq_some.mp h
    obtain rfl := Option.some.inj heq
    exact worth_goTo_lt (p := .body op) (by rw [ht]; exact Nat.lt_succ_self 6)
  | body op =>
    rw [ht] at h
    simp only at h
    split at h
    · obtain rfl := Option.some.inj h
      apply worth_goTo_lt
      rw [ht]
      split
      · exact Nat.lt_succ_self 5
      · simp only [Phase.worth]
        omega
    · obtain rfl := Option.some.inj h
      exact worth_goTo_lt (p := .asleep op) (by rw [ht]; exact Nat.lt_succ_self 5)
  | notify res =>
    rw [ht] at h
    obtain rfl := Option.some.inj h
    rcases s.notifyOne_cases pick with ⟨u, hu, heq⟩ | ⟨hnone, heq⟩
    · obtain ⟨op, hop⟩ := hinv.asleep hu
      rw [heq]
      exact worth_notify_lt ht hop
    · rw [heq]
      apply worth_goTo_lt
      rw [ht]
      simp only [Phase.worth]
      omega
  | unlock res =>
    rw [ht] at h
    obtain rfl := Option.some.inj h
    exact worth_goTo_lt (p := .ret res) (by rw [ht]; exact Nat.lt_succ_self 1)
  | ret res =>
    rw [ht] at h
    obtain rfl := Option.some.inj h
    exact worth_goTo_lt (p := .idle) (by rw [ht]; exact Nat.lt_succ_self 0)

theorem descent (ops : Ops S O R) (init : S) : (machine (ι := ι) ops init).Descent Action.thread
    (fun _ a => ∃ t pick, a = .move t pick) (machine ops init).Reachable Quiet worth Free := by
  constructor
  case inv =>
    rintro s a s' ⟨acts, hrun⟩ - hstep
    exact ⟨acts ++ [a], Machine.run_concat hrun hstep⟩
  case falls =>
    rintro s a s' h ⟨t, pick, rfl⟩ hstep
    exact worth_move_lt (inv_reachable h) hstep
  case quiet =>
    rintro s a - ⟨t, pick, rfl⟩ hquiet
    exact hquiet.stuck
  case free =>
    intro s h hnot
    exact exists_free (inv_reachable h) hnot
  case moves =>
    rintro s a i h ⟨t, pick, rfl⟩ hfree hi
    obtain rfl := Option.some.inj hi
    exact hfree.moves (inv_reachable h) pick

/-- Without further calls and idle wake-ups, a fair schedule ends every call except those that
sleep when there is no unit left. -/
theorem eventually_quiet {avail : S → ℕ} {sched : ℕ → Action ι O} (hcounts : ops.Counts avail)
    (h : (machine ops init).Reachable s) (hmoves : ∀ n, ∃ t pick, sched n = .move t pick)
    (hfair : Machine.Fair Action.thread sched) :
    ∃ n, ∀ m, n ≤ m → (machine ops init).Reachable ((machine ops init).along s sched m) ∧
      ((machine ops init).along s sched m).Quiet ∧
      (((machine ops init).along s sched m).sleeping ≠ [] →
        avail ((machine ops init).along s sched m).data = 0) := by
  obtain ⟨n, hn⟩ := (descent ops init).eventually h hmoves hfair
  refine ⟨n, fun m hm => ?_⟩
  obtain ⟨hreach, hquiet⟩ := hn m hm
  exact ⟨hreach, hquiet, hquiet.none_left (watched_reachable hcounts hreach)⟩

end Fair

end LowLevel.Monitor
