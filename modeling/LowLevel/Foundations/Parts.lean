import LowLevel.Foundations.Machine

/-! # Machines with parts

A part of the state of a machine is a machine of its own if every step of the
whole is one of its steps or leaves it alone. What holds of all reachable states
of the part then holds of the part in all reachable states of the whole.
-/

namespace LowLevel.Machine

variable {σ τ α β : Type*}

/-- `part` of the states of `M` moves as the states of `N` do. -/
structure PartOf (M : Machine σ α) (N : Machine τ β) (part : σ → τ) : Prop where
  init : part M.init = N.init
  step : ∀ s a s', M.step s a = some s' →
    part s' = part s ∨ ∃ b, N.step (part s) b = some (part s')

namespace PartOf

variable {M : Machine σ α} {N : Machine τ β} {part : σ → τ} {s s' : σ} {acts : List α}

theorem run (h : PartOf M N part) (hrun : M.run s acts = some s') :
    ∃ parts, N.run (part s) parts = some (part s') := by
  induction acts generalizing s with
  | nil =>
    obtain rfl := Option.some.inj hrun
    exact ⟨[], rfl⟩
  | cons a acts ih =>
    obtain ⟨s₁, hs₁, hrest⟩ := Option.bind_eq_some_iff.mp hrun
    obtain ⟨parts, hparts⟩ := ih hrest
    rcases h.step s a s₁ hs₁ with hsame | ⟨b, hb⟩
    · rw [hsame] at hparts
      exact ⟨parts, hparts⟩
    · exact ⟨b :: parts, Option.bind_eq_some_iff.mpr ⟨_, hb, hparts⟩⟩

theorem reachable (h : PartOf M N part) (hs : M.Reachable s) : N.Reachable (part s) := by
  obtain ⟨acts, hrun⟩ := hs
  obtain ⟨parts, hparts⟩ := h.run hrun
  rw [h.init] at hparts
  exact ⟨parts, hparts⟩

/-- Parts keep to a condition if the whole keeps to one that implies it. -/
theorem under {cond : σ → α → Bool} {cond' : τ → β → Bool} (hinit : part M.init = N.init)
    (hstep : ∀ s a s', cond s a = true → M.step s a = some s' →
      part s' = part s ∨ ∃ b, cond' (part s) b = true ∧ N.step (part s) b = some (part s')) :
    PartOf (M.under cond) (N.under cond') part := by
  refine ⟨hinit, ?_⟩
  intro s a s' h
  obtain ⟨hcond, h⟩ := under_step.mp h
  rcases hstep s a s' hcond h with hsame | ⟨b, hb, hb'⟩
  · exact Or.inl hsame
  · exact Or.inr ⟨b, under_step.mpr ⟨hb, hb'⟩⟩

end PartOf

end LowLevel.Machine
