import Mathlib.Data.List.Nodup
import Mathlib.Data.List.Perm.Basic

/-! # Jobs in flight

A party has at most one job in flight, and the job tells how things stand with
its party. When one party's job is exchanged for another one, the jobs of the
others stay true.
-/

namespace LowLevel

variable {J K S : Type*} {owner : J → Option K} {holds : J → S → Prop} {jobs jobs' js rest : List J}
  {state state' : K → S} {j : J} {k : K}

structure InFlight (owner : J → Option K) (holds : J → S → Prop) (jobs : List J)
    (state : K → S) : Prop where
  nodup : (jobs.filterMap owner).Nodup
  holds : ∀ j ∈ jobs, ∀ k ∈ owner j, holds j (state k)

namespace InFlight

/-- The owner of a job has no other one. -/
theorem not_mem_rest (h : InFlight owner holds jobs state) (hjobs : jobs.Perm (j :: rest))
    (hk : owner j = some k ∨ k ∉ jobs.filterMap owner) : k ∉ rest.filterMap owner := by
  have hperm := hjobs.filterMap owner
  rcases hk with hk | hk
  · rw [List.filterMap_cons_some hk] at hperm
    exact (List.nodup_cons.mp (hperm.nodup h.nodup)).1
  · intro hmem
    refine hk (hperm.mem_iff.mpr ?_)
    obtain ⟨i, hi, heq⟩ := List.mem_filterMap.mp hmem
    exact List.mem_filterMap.mpr ⟨i, List.mem_cons_of_mem _ hi, heq⟩

/-- A job is exchanged for at most one of the same party, or of a party that had none. -/
theorem exchange (h : InFlight owner holds jobs state) (hjobs : jobs.Perm (j :: rest))
    (hjobs' : jobs'.Perm (js ++ rest)) (hk : owner j = some k ∨ k ∉ jobs.filterMap owner)
    (hjs : (js.filterMap owner).Sublist [k]) (hstate : ∀ c, c ≠ k → state' c = state c)
    (hholds : ∀ i ∈ js, ∀ c ∈ owner i, holds i (state' c)) :
    InFlight owner holds jobs' state' := by
  have hrest := h.not_mem_rest hjobs hk
  constructor
  · have hnodup : (rest.filterMap owner).Nodup := by
      refine List.Nodup.sublist ?_ ((hjobs.filterMap owner).nodup h.nodup)
      exact (List.sublist_cons_self j rest).filterMap owner
    refine ((hjobs'.filterMap owner).nodup_iff).mpr ?_
    rw [List.filterMap_append]
    refine List.Nodup.sublist (hjs.append_right _) ?_
    exact List.nodup_cons.mpr ⟨hrest, hnodup⟩
  · intro i hi c hc
    rcases List.mem_append.mp (hjobs'.mem_iff.mp hi) with hi | hi
    · exact hholds i hi c hc
    · have hne : c ≠ k := by
        rintro rfl
        exact hrest (List.mem_filterMap.mpr ⟨i, hi, hc⟩)
      rw [hstate c hne]
      exact h.holds i (hjobs.mem_iff.mpr (List.mem_cons_of_mem _ hi)) c hc

end InFlight

end LowLevel
