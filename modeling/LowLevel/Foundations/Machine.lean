import Mathlib.Data.Nat.Notation
import Mathlib.Logic.Function.Basic

/-! # Machines

A machine takes actions one at a time and may refuse one. An action says which
part of the system moves and settles what is left open there, so the reachable
states are those of all schedules.
-/

namespace LowLevel

structure Machine (σ α : Type*) where
  init : σ
  step : σ → α → Option σ

namespace Machine

variable {σ α : Type*} {M : Machine σ α} {P : σ → Prop} {s s' : σ} {acts : List α}

def run (M : Machine σ α) (s : σ) (acts : List α) : Option σ := acts.foldlM M.step s

def Reachable (M : Machine σ α) (s : σ) : Prop := ∃ acts, M.run M.init acts = some s

/-- What every step preserves, a run preserves. -/
theorem run_invariant (hstep : ∀ s a s', P s → M.step s a = some s' → P s') (h : P s)
    (hrun : M.run s acts = some s') : P s' := by
  induction acts generalizing s with
  | nil =>
    obtain rfl := Option.some.inj hrun
    exact h
  | cons a acts ih =>
    obtain ⟨s₁, hs₁, hrest⟩ := Option.bind_eq_some_iff.mp hrun
    exact ih (hstep s a s₁ h hs₁) hrest

theorem Reachable.invariant (h : M.Reachable s) (hinit : P M.init)
    (hstep : ∀ s a s', P s → M.step s a = some s' → P s') : P s := by
  obtain ⟨acts, hrun⟩ := h
  exact run_invariant hstep hinit hrun

theorem run_split {a : α} {pre post : List α} (h : M.run s (pre ++ a :: post) = some s') :
    ∃ s₁ s₂, M.run s pre = some s₁ ∧ M.step s₁ a = some s₂ ∧ M.run s₂ post = some s' := by
  rw [run, List.foldlM_append] at h
  obtain ⟨s₁, hs₁, hrest⟩ := Option.bind_eq_some_iff.mp h
  obtain ⟨s₂, hs₂, hpost⟩ := Option.bind_eq_some_iff.mp hrest
  exact ⟨s₁, s₂, hs₁, hs₂, hpost⟩

theorem run_trans {s₁ : σ} {post : List α} (h : M.run s acts = some s₁)
    (hpost : M.run s₁ post = some s') : M.run s (acts ++ post) = some s' := by
  rw [run] at h
  rw [run, List.foldlM_append, h]
  exact hpost

theorem run_concat {a : α} {s₁ : σ} (h : M.run s acts = some s₁) (hstep : M.step s₁ a = some s') :
    M.run s (acts ++ [a]) = some s' :=
  run_trans h (Option.bind_eq_some_iff.mpr ⟨s', hstep, rfl⟩)

/-- What every step preserves of the state and the actions so far, a run preserves. -/
theorem run_history_from {Q : List α → σ → Prop} {pre : List α}
    (hstep : ∀ acts s a s', Q acts s → M.step s a = some s' → Q (acts ++ [a]) s') (h : Q pre s)
    (hrun : M.run s acts = some s') : Q (pre ++ acts) s' := by
  induction acts generalizing s pre with
  | nil =>
    obtain rfl := Option.some.inj hrun
    rwa [List.append_nil]
  | cons a acts ih =>
    obtain ⟨s₁, hs₁, hrest⟩ := Option.bind_eq_some_iff.mp hrun
    have hall := ih (hstep pre s a s₁ h hs₁) hrest
    rwa [List.append_assoc] at hall

theorem run_history {Q : List α → σ → Prop}
    (hstep : ∀ acts s a s', Q acts s → M.step s a = some s' → Q (acts ++ [a]) s') (h : Q [] s)
    (hrun : M.run s acts = some s') : Q acts s' :=
  run_history_from hstep h hrun

/-- What every step that the run makes preserves holds in all states of the run. -/
theorem run_along {Q : σ → Prop} (h : Q s)
    (hstep : ∀ pre a s₁ s₂, pre ++ [a] <+: acts → M.run s pre = some s₁ → Q s₁ →
      M.step s₁ a = some s₂ → Q s₂)
    {pre : List α} (hpre : pre <+: acts) (hrun : M.run s pre = some s') : Q s' := by
  have hhistory := run_history (M := M) (Q := fun pre s₁ =>
    M.run s pre = some s₁ ∧ (pre <+: acts → Q s₁)) ?_ ⟨rfl, fun _ => h⟩ hrun
  · exact hhistory.2 hpre
  · rintro pre s₁ a s₂ ⟨hrun₁, ih⟩ hs₂
    refine ⟨run_concat hrun₁ hs₂, ?_⟩
    intro hbegin
    exact hstep pre a s₁ s₂ hbegin hrun₁ (ih ((List.prefix_append pre [a]).trans hbegin)) hs₂

def Always (M : Machine σ α) (s : σ) (acts : List α) (P : σ → Prop) : Prop :=
  ∀ pre s', pre <+: acts → M.run s pre = some s' → P s'

def AllSteps (M : Machine σ α) (s : σ) (acts : List α) (cond : σ → α → Prop) : Prop :=
  ∀ pre a s₁ s₂, pre ++ [a] <+: acts → M.run s pre = some s₁ → M.step s₁ a = some s₂ → cond s₁ a

/-- If the steps that meet a condition keep an invariant and the others break the property that it
gives, a run has the property throughout exactly if all its steps meet the condition. -/
theorem always_iff {I : σ → Prop} {C : σ → α → Prop} (h : I s) (hP : ∀ s, I s → P s)
    (hkeep : ∀ s a s', I s → M.step s a = some s' → C s a → I s')
    (hbreak : ∀ s a s', I s → M.step s a = some s' → P s' → C s a) :
    M.Always s acts P ↔ M.AllSteps s acts C := by
  constructor
  · intro halways pre a s₁ s₂ hbegin hrun hs₂
    have hall : ∀ pre a s₁ s₂, pre ++ [a] <+: acts → M.run s pre = some s₁ → I s₁ →
        M.step s₁ a = some s₂ → C s₁ a := by
      intro pre a s₁ s₂ hbegin hrun hinv hs₂
      exact hbreak s₁ a s₂ hinv hs₂ (halways _ s₂ hbegin (run_concat hrun hs₂))
    have hinv : I s₁ := by
      refine run_along h ?_ ((List.prefix_append pre [a]).trans hbegin) hrun
      intro pre a s₁ s₂ hbegin hrun hinv hs₂
      exact hkeep s₁ a s₂ hinv hs₂ (hall pre a s₁ s₂ hbegin hrun hinv hs₂)
    exact hall pre a s₁ s₂ hbegin hrun hinv hs₂
  · intro hsteps pre s' hbegin hrun
    refine hP s' (run_along h ?_ hbegin hrun)
    intro pre a s₁ s₂ hbegin hrun hinv hs₂
    exact hkeep s₁ a s₂ hinv hs₂ (hsteps pre a s₁ s₂ hbegin hrun hs₂)

/-- Machines whose steps stay related, and are refused together, have related runs. -/
theorem run_rel {τ : Type*} {N : Machine τ α} {R : σ → τ → Prop} {t : τ}
    (hstep : ∀ s t a, R s t → Option.Rel R (M.step s a) (N.step t a)) (h : R s t)
    (acts : List α) : Option.Rel R (M.run s acts) (N.run t acts) := by
  induction acts generalizing s t with
  | nil => exact .some h
  | cons a acts ih =>
    have hs := hstep s t a h
    simp only [run, List.foldlM_cons, Option.bind_eq_bind]
    cases hM : M.step s a <;> cases hN : N.step t a <;> rw [hM, hN] at hs <;> cases hs
    · exact .none
    · next h' => exact ih h'

/-- Only the steps that meet a condition on the state before them. -/
def under (M : Machine σ α) (cond : σ → α → Bool) : Machine σ α where
  init := M.init
  step s a := if cond s a then M.step s a else none

theorem under_step {cond : σ → α → Bool} {a : α} :
    (M.under cond).step s a = some s' ↔ cond s a = true ∧ M.step s a = some s' :=
  Option.ite_none_right_eq_some

theorem run_under {cond : σ → α → Bool} (h : ∀ a ∈ acts, ∀ s, cond s a = true) :
    (M.under cond).run s acts = M.run s acts := by
  induction acts generalizing s with
  | nil => rfl
  | cons a acts ih =>
    have hstep : (M.under cond).step s a = M.step s a := if_pos (h a (List.mem_cons_self ..) s)
    have hrest := fun s => ih (s := s) fun a ha => h a (List.mem_cons_of_mem _ ha)
    simp only [run, List.foldlM_cons, hstep]
    exact congrArg _ (funext hrest)

/-- Steps that can be followed while a condition holds can be followed along a run that meets
it. -/
theorem follow_under {τ : Type*} {N : Machine τ α} {R : σ → τ → Prop} {cond : σ → α → Bool} {t : τ}
    (hstep : ∀ s t a s', R s t → cond s a = true → M.step s a = some s' →
      ∃ t', N.step t a = some t' ∧ R s' t')
    (h : R s t) (hrun : (M.under cond).run s acts = some s') :
    ∃ t', N.run t acts = some t' ∧ R s' t' := by
  induction acts generalizing s t with
  | nil =>
    obtain rfl := Option.some.inj hrun
    exact ⟨t, rfl, h⟩
  | cons a acts ih =>
    obtain ⟨s₁, hs₁, hrest⟩ := Option.bind_eq_some_iff.mp hrun
    obtain ⟨hcond, hs₁⟩ := under_step.mp hs₁
    obtain ⟨t₁, ht₁, h₁⟩ := hstep s t a s₁ h hcond hs₁
    obtain ⟨t', ht', h'⟩ := ih h₁ hrest
    exact ⟨t', Option.bind_eq_some_iff.mpr ⟨t₁, ht₁, ht'⟩, h'⟩

theorem rel_map {ρ τ υ : Type*} {R : σ → ρ → Prop} {S : τ → υ → Prop} {f : σ → τ} {g : ρ → υ}
    {x : Option σ} {y : Option ρ} (hS : ∀ a b, R a b → S (f a) (g b)) (h : Option.Rel R x y) :
    Option.Rel S (x.map f) (y.map g) := by
  cases h with
  | none => exact .none
  | some hR => exact .some (hS _ _ hR)

theorem rel_some_left {ρ : Type*} {R : σ → ρ → Prop} {x : Option σ} {y : Option ρ} {a : σ}
    (h : Option.Rel R x y) (hx : x = some a) : ∃ b, y = some b ∧ R a b := by
  subst hx
  cases h with
  | some hR => exact ⟨_, rfl, hR⟩

theorem rel_some_right {ρ : Type*} {R : σ → ρ → Prop} {x : Option σ} {y : Option ρ} {b : ρ}
    (h : Option.Rel R x y) (hy : y = some b) : ∃ a, x = some a ∧ R a b := by
  subst hy
  cases h with
  | some hR => exact ⟨_, rfl, hR⟩

theorem rel_join {ρ τ : Type*} {R : σ → ρ → Prop} {S : τ → ρ → Prop} {T : σ → τ → Prop}
    {x : Option σ} {y : Option τ} {z : Option ρ} (hT : ∀ a b c, R a c → S b c → T a b)
    (hx : Option.Rel R x z) (hy : Option.Rel S y z) : Option.Rel T x y := by
  cases hx with
  | none =>
    cases hy
    exact .none
  | some hR =>
    cases hy with
    | some hS => exact .some (hT _ _ _ hR hS)

section Parts

variable {ι : Type*} [DecidableEq ι] {init : ι → σ} {part : ι → σ → α → Option σ}

/-- Parts that share nothing: an action names the one that moves. -/
def parts (init : ι → σ) (part : ι → σ → α → Option σ) : Machine (ι → σ) (ι × α) where
  init := init
  step s a := (part a.1 (s a.1) a.2).map (Function.update s a.1)

theorem parts_step {s s' : ι → σ} {a : ι × α} (h : (parts init part).step s a = some s') :
    ∃ x, part a.1 (s a.1) a.2 = some x ∧ s' = Function.update s a.1 x := by
  obtain ⟨x, hx, rfl⟩ := Option.map_eq_some_iff.mp h
  exact ⟨x, hx, rfl⟩

/-- A part makes the same moves when the actions of the others are left out. -/
theorem parts_alone {s s' t : ι → σ} {acts : List (ι × α)} (w : ι) (h : t w = s w)
    (hrun : (parts init part).run s acts = some s') :
    ∃ t', (parts init part).run t (acts.filter fun a => a.1 = w) = some t' ∧ t' w = s' w := by
  induction acts generalizing s t with
  | nil =>
    obtain rfl := Option.some.inj hrun
    exact ⟨t, rfl, h⟩
  | cons a acts ih =>
    obtain ⟨s₁, hs₁, hrest⟩ := Option.bind_eq_some_iff.mp hrun
    obtain ⟨x, hx, rfl⟩ := parts_step hs₁
    by_cases ha : a.1 = w
    · have hstep : (parts init part).step t a = some (Function.update t a.1 x) := by
        simp only [parts, ha ▸ h, hx, Option.map_some]
      have heq : Function.update t a.1 x w = Function.update s a.1 x w := by
        rw [ha, Function.update_self, Function.update_self]
      obtain ⟨t', ht', h'⟩ := ih heq hrest
      rw [List.filter_cons_of_pos (by simpa using ha)]
      exact ⟨t', Option.bind_eq_some_iff.mpr ⟨_, hstep, ht'⟩, h'⟩
    · rw [List.filter_cons_of_neg (by simpa using ha)]
      have heq : t w = Function.update s a.1 x w := by
        rw [Function.update_of_ne (Ne.symm ha), h]
      exact ih heq hrest

end Parts

end Machine

end LowLevel
