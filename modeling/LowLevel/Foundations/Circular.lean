import Mathlib.Data.List.Cycle

/-! # Circular doubly linked lists

The nodes of a ring are given in the order of a walk from any of them; `next`
and `prev` are mutually inverse along it. Taking a node out, putting another one
in its place and inserting one at the front change the links of the two
neighbours only.
-/

namespace LowLevel

variable {α : Type*} {next prev next' prev' : α → α} {x y : α} {t l l₁ l₂ : List α}

def Linked (next prev : α → α) (a b : α) : Prop := next a = b ∧ prev b = a

def Ring (next prev : α → α) (l : List α) : Prop := Cycle.Chain (Linked next prev) l

namespace Ring

theorem append_comm : Ring next prev (l₁ ++ l₂) ↔ Ring next prev (l₂ ++ l₁) := by
  unfold Ring
  have hrot : l₁ ++ l₂ ~r l₂ ++ l₁ := List.isRotated_append
  rw [Cycle.coe_eq_coe.mpr hrot]

theorem iff_chain (ht : t ≠ []) :
    Ring next prev t ↔ Linked next prev (t.getLast ht) (t.head ht) ∧
      t.IsChain (Linked next prev) := by
  rw [Ring, Cycle.chain_ne_nil _ ht]
  obtain ⟨a, t, rfl⟩ := List.exists_cons_of_ne_nil ht
  rw [List.isChain_cons_cons]
  rfl

theorem cons_iff (ht : t ≠ []) :
    Ring next prev (x :: t) ↔ Linked next prev (t.getLast ht) x ∧
      Linked next prev x (t.head ht) ∧ t.IsChain (Linked next prev) := by
  rw [iff_chain (List.cons_ne_nil x t), List.getLast_cons ht]
  obtain ⟨a, t, rfl⟩ := List.exists_cons_of_ne_nil ht
  rw [List.isChain_cons_cons]
  rfl

/-- Links inside a segment do not involve `next` of its last node nor `prev` of its first. -/
theorem isChain_congr (h : t.IsChain (Linked next prev)) (hnd : t.Nodup) (ht : t ≠ [])
    (hnext : ∀ a ∈ t, a ≠ t.getLast ht → next' a = next a)
    (hprev : ∀ a ∈ t, a ≠ t.head ht → prev' a = prev a) : t.IsChain (Linked next' prev') := by
  induction t with
  | nil => exact List.isChain_nil
  | cons a t ih =>
    rcases t with _ | ⟨b, t⟩
    · exact List.isChain_singleton a
    · rw [List.isChain_cons_cons] at h ⊢
      obtain ⟨hnot, hnd⟩ := List.nodup_cons.mp hnd
      have hab : b ≠ a := by rintro rfl; exact hnot (List.mem_cons_self ..)
      have hlast : a ≠ (a :: b :: t).getLast ht := by
        rw [List.getLast_cons (List.cons_ne_nil b t)]
        intro heq
        exact hnot (heq ▸ List.getLast_mem _)
      refine ⟨⟨?_, ?_⟩, ih h.2 hnd (List.cons_ne_nil b t) ?_ ?_⟩
      · rw [hnext a (by simp) hlast, h.1.1]
      · rw [hprev b (by simp) hab, h.1.2]
      · intro c hc hne
        apply hnext c (List.mem_cons_of_mem _ hc)
        rwa [List.getLast_cons (List.cons_ne_nil b t)]
      · intro c hc hne
        apply hprev c (List.mem_cons_of_mem _ hc)
        rintro rfl
        exact hnot hc

/-- Only the links of the nodes themselves matter. -/
theorem congr (h : Ring next prev l) (hnext : ∀ a ∈ l, next' a = next a)
    (hprev : ∀ a ∈ l, prev' a = prev a) : Ring next' prev' l := by
  rcases eq_or_ne l [] with rfl | hne
  · exact Cycle.Chain.nil _
  · rw [iff_chain hne] at h ⊢
    refine ⟨⟨?_, ?_⟩, ?_⟩
    · rw [hnext _ (List.getLast_mem hne), h.1.1]
    · rw [hprev _ (List.head_mem hne), h.1.2]
    · refine h.2.imp_of_mem_imp fun a b ha hb hab => ⟨?_, ?_⟩
      · rw [hnext a ha, hab.1]
      · rw [hprev b hb, hab.2]

theorem neighbours (h : Ring next prev (x :: t)) (ht : t ≠ []) :
    next x = t.head ht ∧ prev x = t.getLast ht :=
  ⟨((cons_iff ht).mp h).2.1.1, ((cons_iff ht).mp h).1.2⟩

theorem rotate (h : Ring next prev (l₁ ++ x :: l₂)) : Ring next prev (x :: (l₂ ++ l₁)) := by
  rwa [append_comm] at h

theorem singleton_iff : Ring next prev [x] ↔ next x = x ∧ prev x = x :=
  Cycle.chain_singleton _ _

theorem append_ne_nil (hne : l₁ ++ l₂ ≠ []) : l₂ ++ l₁ ≠ [] := by
  simpa [and_comm] using hne

theorem next_mem (h : Ring next prev (l₁ ++ x :: l₂)) (hne : l₁ ++ l₂ ≠ []) :
    next x ∈ l₁ ++ l₂ := by
  have ht := append_ne_nil hne
  rw [(h.rotate.neighbours ht).1]
  exact List.perm_append_comm.subset (List.head_mem ht)

theorem prev_mem (h : Ring next prev (l₁ ++ x :: l₂)) (hne : l₁ ++ l₂ ≠ []) :
    prev x ∈ l₁ ++ l₂ := by
  have ht := append_ne_nil hne
  rw [(h.rotate.neighbours ht).2]
  exact List.perm_append_comm.subset (List.getLast_mem ht)

/-- A node is alone exactly if it is its own successor. -/
theorem next_eq_self_iff (h : Ring next prev (l₁ ++ x :: l₂)) (hnd : (l₁ ++ x :: l₂).Nodup) :
    next x = x ↔ l₁ ++ l₂ = [] := by
  constructor
  · intro heq
    by_contra hne
    have hx : x ∉ l₁ ++ l₂ := (List.nodup_cons.mp (List.nodup_middle.mp hnd)).1
    exact hx (heq ▸ h.next_mem hne)
  · intro hnil
    rw [List.append_eq_nil_iff] at hnil
    rw [hnil.1, hnil.2] at h
    exact (singleton_iff.mp h).1

theorem nodup_rest (hnd : (l₁ ++ x :: l₂).Nodup) : (l₂ ++ l₁).Nodup :=
  List.nodup_append_comm.mp (List.nodup_cons.mp (List.nodup_middle.mp hnd)).2

section Update

variable [DecidableEq α]

/-- Close a segment behind a node put in front of it. -/
theorem cons_of_isChain (h : t.IsChain (Linked next prev)) (hnd : t.Nodup) (ht : t ≠ [])
    (hnext : ∀ a ∈ t, next' a = if a = t.getLast ht then x else next a)
    (hprev : ∀ a ∈ t, prev' a = if a = t.head ht then x else prev a)
    (hx : next' x = t.head ht) (hx' : prev' x = t.getLast ht) : Ring next' prev' (x :: t) := by
  rw [cons_iff ht]
  refine ⟨⟨?_, hx'⟩, ⟨hx, ?_⟩, isChain_congr h hnd ht ?_ ?_⟩
  · rw [hnext _ (List.getLast_mem ht), if_pos rfl]
  · rw [hprev _ (List.head_mem ht), if_pos rfl]
  · intro a ha hne
    rw [hnext a ha, if_neg hne]
  · intro a ha hne
    rw [hprev a ha, if_neg hne]

/-- Take a node out: its neighbours are linked to each other. -/
theorem unlink (h : Ring next prev (l₁ ++ x :: l₂)) (hnd : (l₁ ++ x :: l₂).Nodup)
    (hne : l₁ ++ l₂ ≠ [])
    (hnext : ∀ a ∈ l₁ ++ l₂, next' a = if a = prev x then next x else next a)
    (hprev : ∀ a ∈ l₁ ++ l₂, prev' a = if a = next x then prev x else prev a) :
    Ring next' prev' (l₁ ++ l₂) := by
  have ht := append_ne_nil hne
  have hmem : ∀ a ∈ l₂ ++ l₁, a ∈ l₁ ++ l₂ := List.perm_append_comm.subset
  obtain ⟨hn, hp⟩ := h.rotate.neighbours ht
  rw [append_comm, iff_chain ht]
  refine ⟨⟨?_, ?_⟩, isChain_congr ((cons_iff ht).mp h.rotate).2.2 (nodup_rest hnd) ht ?_ ?_⟩
  · rw [hnext _ (hmem _ (List.getLast_mem ht)), if_pos hp.symm, hn]
  · rw [hprev _ (hmem _ (List.head_mem ht)), if_pos hn.symm, hp]
  · intro a ha hne
    rw [hnext a (hmem a ha), hp, if_neg hne]
  · intro a ha hne
    rw [hprev a (hmem a ha), hn, if_neg hne]

/-- Put another node in the place of a node that is not alone. -/
theorem replace (h : Ring next prev (l₁ ++ x :: l₂)) (hnd : (l₁ ++ x :: l₂).Nodup)
    (hne : l₁ ++ l₂ ≠ []) (hnext : ∀ a ∈ l₁ ++ l₂, next' a = if a = prev x then y else next a)
    (hprev : ∀ a ∈ l₁ ++ l₂, prev' a = if a = next x then y else prev a)
    (hy : next' y = next x) (hy' : prev' y = prev x) : Ring next' prev' (l₁ ++ y :: l₂) := by
  have ht := append_ne_nil hne
  have hmem : ∀ a ∈ l₂ ++ l₁, a ∈ l₁ ++ l₂ := List.perm_append_comm.subset
  obtain ⟨hn, hp⟩ := h.rotate.neighbours ht
  rw [append_comm]
  apply cons_of_isChain ((cons_iff ht).mp h.rotate).2.2 (nodup_rest hnd) ht
  · rw [← hp]
    exact fun a ha => hnext a (hmem a ha)
  · rw [← hn]
    exact fun a ha => hprev a (hmem a ha)
  · rw [hy, hn]
  · rw [hy', hp]

/-- Insert a node in front of the first one. -/
theorem push (h : Ring next prev (x :: t)) (hnd : (x :: t).Nodup)
    (hnext : ∀ a ∈ x :: t, next' a = if a = prev x then y else next a)
    (hprev : ∀ a ∈ x :: t, prev' a = if a = x then y else prev a)
    (hy : next' y = x) (hy' : prev' y = prev x) : Ring next' prev' (y :: x :: t) := by
  have hne := List.cons_ne_nil x t
  rw [iff_chain hne] at h
  have hlast : prev x = (x :: t).getLast hne := h.1.2
  apply cons_of_isChain h.2 hnd hne
  · rwa [← hlast]
  · exact hprev
  · exact hy
  · rw [hy', hlast]

end Update

end Ring

end LowLevel
