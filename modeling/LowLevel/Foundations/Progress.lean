import LowLevel.Foundations.Machine
import Mathlib.Data.Nat.Find

/-! # Progress under fair schedules

An endless schedule gives turns to the threads of a machine; a thread that
cannot move loses its turn. What is left to do is measured by a rank that no
step raises. While something is left there is a helpful thread: its next step
lowers the rank, and it stays helpful as long as the others do not lower the
rank first. A schedule that comes back to every thread then brings the rank to
zero.
-/

namespace LowLevel.Machine

variable {σ α ι : Type*} {M : Machine σ α} {s : σ} {sched : ℕ → α}

def turn (M : Machine σ α) (s : σ) (a : α) : σ := (M.step s a).getD s

def along (M : Machine σ α) (s : σ) (sched : ℕ → α) : ℕ → σ
  | 0 => s
  | n + 1 => M.turn (M.along s sched n) (sched n)

/-- Every thread has a turn again and again. Actions that belong to no thread are those of the
surroundings, on which nothing depends. -/
def Fair (thread : α → Option ι) (sched : ℕ → α) : Prop :=
  ∀ i n, ∃ m, n ≤ m ∧ thread (sched m) = some i

/-- What a step must do to the rank and to the helpful threads. -/
structure Progress (M : Machine σ α) (thread : α → Option ι) (Allowed : σ → α → Prop)
    (I : σ → Prop) (rank : σ → ℕ) (Helpful : σ → ι → Prop) : Prop where
  inv : ∀ s a s', I s → Allowed s a → M.step s a = some s' → I s'
  rank_le : ∀ s a s', I s → Allowed s a → M.step s a = some s' → rank s' ≤ rank s
  helpful : ∀ s, I s → 0 < rank s → ∃ i, Helpful s i
  helps : ∀ s a i, I s → Allowed s a → 0 < rank s → Helpful s i → thread a = some i →
    ∃ s', M.step s a = some s' ∧ rank s' < rank s
  stays : ∀ s a s' i, I s → Allowed s a → Helpful s i → thread a ≠ some i →
    M.step s a = some s' → rank s' = rank s → Helpful s' i

namespace Progress

variable {thread : α → Option ι} {Allowed : σ → α → Prop} {I : σ → Prop} {rank : σ → ℕ}
  {Helpful : σ → ι → Prop} {i : ι} {n m : ℕ}

theorem turn_cases (M : Machine σ α) (s : σ) (a : α) :
    M.step s a = some (M.turn s a) ∨ M.turn s a = s := by
  unfold turn
  cases M.step s a with
  | none => exact Or.inr rfl
  | some s' => exact Or.inl rfl

theorem along_inv (h : Progress M thread Allowed I rank Helpful) (hs : I s)
    (hallowed : ∀ n, Allowed (M.along s sched n) (sched n)) (n : ℕ) : I (M.along s sched n) := by
  induction n with
  | zero => exact hs
  | succ n ih =>
    rcases turn_cases M (M.along s sched n) (sched n) with hstep | hsame
    · exact h.inv _ _ _ ih (hallowed n) hstep
    · rw [along, hsame]
      exact ih

theorem rank_antitone (h : Progress M thread Allowed I rank Helpful) (hs : I s)
    (hallowed : ∀ n, Allowed (M.along s sched n) (sched n)) (hle : n ≤ m) :
    rank (M.along s sched m) ≤ rank (M.along s sched n) := by
  induction m, hle using Nat.le_induction with
  | base => exact Nat.le_refl _
  | succ m hle ih =>
    rcases turn_cases M (M.along s sched m) (sched m) with hstep | hsame
    · exact Nat.le_trans (h.rank_le _ _ _ (h.along_inv hs hallowed m) (hallowed m) hstep) ih
    · rw [along, hsame]
      exact ih

/-- Until its turn comes, a helpful thread stays helpful or the rank falls without it. -/
theorem helpful_until (h : Progress M thread Allowed I rank Helpful) (hs : I s)
    (hallowed : ∀ n, Allowed (M.along s sched n) (sched n))
    (hi : Helpful (M.along s sched n) i) (hle : n ≤ m)
    (hothers : ∀ k, n ≤ k → k < m → thread (sched k) ≠ some i) :
    rank (M.along s sched m) < rank (M.along s sched n) ∨
      rank (M.along s sched m) = rank (M.along s sched n) ∧ Helpful (M.along s sched m) i := by
  induction m, hle using Nat.le_induction with
  | base => exact Or.inr ⟨rfl, hi⟩
  | succ m hle ih =>
    have hdown := h.rank_antitone hs hallowed (Nat.le_succ m)
    rcases ih fun k hk hkm => hothers k hk (Nat.lt_succ_of_lt hkm) with hlt | ⟨heq, him⟩
    · exact Or.inl (Nat.lt_of_le_of_lt hdown hlt)
    · rcases Nat.lt_or_eq_of_le hdown with hlt | hsame
      · exact Or.inl (heq ▸ hlt)
      · refine Or.inr ⟨hsame.trans heq, ?_⟩
        rcases turn_cases M (M.along s sched m) (sched m) with hstep | hstay
        · exact h.stays _ _ _ i (h.along_inv hs hallowed m) (hallowed m) him
            (hothers m hle (Nat.lt_succ_self m)) hstep hsame
        · rw [along, hstay]
          exact him

theorem rank_falls (h : Progress M thread Allowed I rank Helpful) (hs : I s)
    (hallowed : ∀ n, Allowed (M.along s sched n) (sched n)) (hfair : Fair thread sched)
    (hpos : 0 < rank (M.along s sched n)) :
    ∃ m, n ≤ m ∧ rank (M.along s sched m) < rank (M.along s sched n) := by
  obtain ⟨i, hi⟩ := h.helpful _ (h.along_inv hs hallowed n) hpos
  obtain ⟨m, ⟨hle, hm⟩, hfirst⟩ : ∃ m, (n ≤ m ∧ thread (sched m) = some i) ∧
      ∀ k < m, ¬ (n ≤ k ∧ thread (sched k) = some i) := by
    classical
    exact ⟨Nat.find (hfair i n), Nat.find_spec (hfair i n), fun k hk => Nat.find_min _ hk⟩
  rcases h.helpful_until hs hallowed hi hle fun k hk hkm ht => hfirst k hkm ⟨hk, ht⟩ with
    hlt | ⟨heq, him⟩
  · exact ⟨m, hle, hlt⟩
  · obtain ⟨s', hstep, hlt⟩ := h.helps _ _ i (h.along_inv hs hallowed m) (hallowed m)
      (heq ▸ hpos) him hm
    refine ⟨m + 1, Nat.le_succ_of_le hle, ?_⟩
    rw [along, turn, hstep, ← heq]
    exact hlt

/-- A fair schedule finishes all that is left to do. -/
theorem eventually (h : Progress M thread Allowed I rank Helpful) (hs : I s)
    (hallowed : ∀ n, Allowed (M.along s sched n) (sched n)) (hfair : Fair thread sched) :
    ∃ n, ∀ m, n ≤ m → I (M.along s sched m) ∧ rank (M.along s sched m) = 0 := by
  have hreach : ∀ r n, rank (M.along s sched n) = r → ∃ m, rank (M.along s sched m) = 0 := by
    intro r
    induction r using Nat.strongRecOn with
    | _ r ih =>
      intro n hr
      rcases Nat.eq_zero_or_pos r with rfl | hpos
      · exact ⟨n, hr⟩
      · obtain ⟨m, -, hlt⟩ := h.rank_falls hs hallowed hfair (hr ▸ hpos)
        exact ih _ (hr ▸ hlt) m rfl
  obtain ⟨n, hn⟩ := hreach _ 0 rfl
  refine ⟨n, fun m hm => ⟨h.along_inv hs hallowed m, ?_⟩⟩
  have hle := h.rank_antitone hs hallowed hm
  rw [hn] at hle
  exact Nat.le_zero.mp hle

end Progress

/-- A system that comes to rest: every step lowers the rank, no step leads out of the quiet states,
and in any other state some thread is not refused its next step. -/
structure Descent (M : Machine σ α) (thread : α → Option ι) (Allowed : σ → α → Prop)
    (I Quiet : σ → Prop) (rank : σ → ℕ) (Free : σ → ι → Prop) : Prop where
  inv : ∀ s a s', I s → Allowed s a → M.step s a = some s' → I s'
  falls : ∀ s a s', I s → Allowed s a → M.step s a = some s' → rank s' < rank s
  quiet : ∀ s a, I s → Allowed s a → Quiet s → M.step s a = none
  free : ∀ s, I s → ¬ Quiet s → ∃ i, Free s i
  moves : ∀ s a i, I s → Allowed s a → Free s i → thread a = some i → ∃ s', M.step s a = some s'

theorem Descent.eventually {thread : α → Option ι} {Allowed : σ → α → Prop} {I Quiet : σ → Prop}
    {rank : σ → ℕ} {Free : σ → ι → Prop} (h : M.Descent thread Allowed I Quiet rank Free)
    (hs : I s) (hallowed : ∀ n, Allowed (M.along s sched n) (sched n)) (hfair : Fair thread sched) :
    ∃ n, ∀ m, n ≤ m → I (M.along s sched m) ∧ Quiet (M.along s sched m) := by
  classical
  have hfalls : ∀ s a s', I s → Allowed s a → M.step s a = some s' →
      (if Quiet s' then 0 else rank s' + 1) < if Quiet s then 0 else rank s + 1 := by
    intro s a s' hs ha hstep
    have hnot : ¬ Quiet s := by
      intro hq
      rw [h.quiet s a hs ha hq] at hstep
      cases hstep
    have := h.falls s a s' hs ha hstep
    rw [if_neg hnot]
    split <;> omega
  have hprogress : M.Progress thread Allowed I (fun s => if Quiet s then 0 else rank s + 1)
      Free := by
    constructor
    case inv => exact h.inv
    case rank_le => exact fun s a s' hs ha hstep => Nat.le_of_lt (hfalls s a s' hs ha hstep)
    case helpful =>
      intro s hs hpos
      apply h.free s hs
      intro hq
      rw [if_pos hq] at hpos
      exact Nat.lt_irrefl 0 hpos
    case helps =>
      intro s a i hs ha _ hi hthread
      obtain ⟨s', hstep⟩ := h.moves s a i hs ha hi hthread
      exact ⟨s', hstep, hfalls s a s' hs ha hstep⟩
    case stays =>
      intro s a s' i hs ha _ _ hstep hsame
      exact absurd hsame (Nat.ne_of_lt (hfalls s a s' hs ha hstep))
  obtain ⟨n, hn⟩ := hprogress.eventually hs hallowed hfair
  refine ⟨n, fun m hm => ⟨(hn m hm).1, ?_⟩⟩
  have hzero := (hn m hm).2
  split at hzero
  · assumption
  · cases hzero

end LowLevel.Machine
