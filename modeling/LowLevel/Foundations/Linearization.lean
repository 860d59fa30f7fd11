import LowLevel.Foundations.Ledger
import Mathlib.Data.List.Infix

/-! # Linearizable histories

Threads call the operations of an object. A call begins, takes effect at one of
its steps and ends. A history is linearizable if there is an order of the calls
in which each has the result that the object gives when they are executed one
after the other, and in which no call comes before one that had ended when it
began. The order in which the calls take effect is such an order.
-/

namespace LowLevel.Linearization

variable {ι S O R : Type*}

inductive Event (O R : Type*) where
  | call (id : ℕ) (op : O)
  | ret (id : ℕ) (res : R)
  deriving DecidableEq

structure Entry (O R : Type*) where
  id : ℕ
  op : O
  res : R
  deriving DecidableEq

/-- Executed one after the other, the calls have these results. -/
inductive Replays (apply : S → O → R × S) (init : S) : List (Entry O R) → S → Prop
  | nil : Replays apply init [] init
  | snoc {order : List (Entry O R)} {s : S} (id : ℕ) (op : O) (h : Replays apply init order s) :
    Replays apply init (order ++ [⟨id, op, (apply s op).1⟩]) (apply s op).2

def Before {α : Type*} (l : List α) (x y : α) : Prop := [x, y].Sublist l

theorem before_concat {α : Type*} {l : List α} {x y z : α} :
    Before (l ++ [z]) x y ↔ Before l x y ∨ (y = z ∧ x ∈ l) := by
  unfold Before
  constructor
  · intro h
    obtain ⟨l₁, l₂, heq, h₁, h₂⟩ := List.sublist_append_iff.mp h
    rcases List.sublist_singleton.mp h₂ with rfl | rfl
    · rw [List.append_nil] at heq
      exact Or.inl (heq ▸ h₁)
    · have hpair : l₁ ++ [z] = [x] ++ [y] := heq.symm
      obtain ⟨hl, hz⟩ := List.append_inj' hpair rfl
      refine Or.inr ⟨(List.singleton_inj.mp hz).symm, ?_⟩
      rw [hl] at h₁
      exact List.singleton_sublist.mp h₁
  · rintro (h | ⟨rfl, hx⟩)
    · exact h.trans (List.sublist_append_left ..)
    · exact (List.singleton_sublist.mpr hx).append (List.Sublist.refl [y])

/-- The order of effects linearizes the history, and leaves the object in the given state. -/
structure Linearizes (apply : S → O → R × S) (init : S) (events : List (Event O R))
    (order : List (Entry O R)) (s : S) : Prop where
  replays : Replays apply init order s
  once : (order.map Entry.id).Nodup
  called : ∀ e ∈ order, .call e.id e.op ∈ events
  completed : ∀ id op res, .call id op ∈ events → .ret id res ∈ events → ⟨id, op, res⟩ ∈ order
  realTime : ∀ x res y op, Before events (.ret x res) (.call y op) → y ∈ order.map Entry.id →
    Before (order.map Entry.id) x y

/-- A thread between its calls, in a call, or in a call that has taken effect. -/
inductive Status (O R : Type*) where
  | idle
  | called (id : ℕ) (op : O)
  | settled (id : ℕ) (op : O) (res : R)

/-- The calls of some threads: the history and the order of effects. Calls are numbered as they
begin. -/
structure Calls (ι O R : Type*) where
  events : List (Event O R) := []
  order : List (Entry O R) := []
  status : ι → Status O R := fun _ => .idle
  count : ℕ := 0

namespace Calls

variable [DecidableEq ι]

def call (c : Calls ι O R) (t : ι) (op : O) : Calls ι O R where
  events := c.events ++ [.call c.count op]
  order := c.order
  status := Function.update c.status t (.called c.count op)
  count := c.count + 1

def settle (c : Calls ι O R) (t : ι) (res : R) : Calls ι O R :=
  match c.status t with
  | .called id op => { c with
      order := c.order ++ [⟨id, op, res⟩]
      status := Function.update c.status t (.settled id op res) }
  | _ => c

def ret (c : Calls ι O R) (t : ι) (res : R) : Calls ι O R :=
  match c.status t with
  | .idle => c
  | .called id _ | .settled id _ _ => { c with
      events := c.events ++ [.ret id res]
      status := Function.update c.status t .idle }

section Status

variable {c : Calls ι O R} {t u : ι} {id : ℕ} {op : O} {res : R}

theorem status_call_self : (c.call t op).status t = .called c.count op := Function.update_self ..

theorem status_call_of_ne (h : u ≠ t) : (c.call t op).status u = c.status u :=
  Function.update_of_ne h ..

theorem settle_eq (h : c.status t = .called id op) : c.settle t res = { c with
    order := c.order ++ [⟨id, op, res⟩]
    status := Function.update c.status t (.settled id op res) } := by
  rw [settle, h]

theorem status_settle_self (h : c.status t = .called id op) :
    (c.settle t res).status t = .settled id op res := by
  rw [settle_eq h]
  exact Function.update_self ..

theorem status_settle_of_ne (h : u ≠ t) : (c.settle t res).status u = c.status u := by
  unfold settle
  split
  · exact Function.update_of_ne h ..
  · rfl

theorem ret_eq (h : c.status t = .settled id op res) : c.ret t res = { c with
    events := c.events ++ [.ret id res]
    status := Function.update c.status t .idle } := by
  rw [ret, h]

theorem status_ret_of_ne (h : u ≠ t) : (c.ret t res).status u = c.status u := by
  unfold ret
  split
  · rfl
  · exact Function.update_of_ne h ..
  · exact Function.update_of_ne h ..

/-- A thread that is in a call is not the one whose call took effect or ended. -/
theorem called_of_update {status : ι → Status O R} {x : Status O R}
    (h : Function.update status t x u = .called id op) (hx : x ≠ .called id op) :
    u ≠ t ∧ status u = .called id op := by
  rcases update_eq h with ⟨-, heq⟩ | hu
  · exact absurd heq hx
  · exact hu

end Status

/-- The order of effects so far linearizes the history so far. -/
structure Ok (apply : S → O → R × S) (init : S) (c : Calls ι O R) (s : S) : Prop where
  replays : Replays apply init c.order s
  once : (c.order.map Entry.id).Nodup
  called : ∀ e ∈ c.order, .call e.id e.op ∈ c.events
  fresh : ∀ id op, .call id op ∈ c.events → id < c.count
  unique : ∀ id op op', .call id op ∈ c.events → .call id op' ∈ c.events → op = op'
  completed : ∀ id res, .ret id res ∈ c.events → ∃ op, ⟨id, op, res⟩ ∈ c.order
  realTime : ∀ x res y op, Before c.events (.ret x res) (.call y op) → y ∈ c.order.map Entry.id →
    Before (c.order.map Entry.id) x y
  pending : ∀ t id op, c.status t = .called id op →
    .call id op ∈ c.events ∧ id ∉ c.order.map Entry.id
  distinct : ∀ t u id op op', c.status t = .called id op → c.status u = .called id op' → t = u
  settled : ∀ t id op res, c.status t = .settled id op res → ⟨id, op, res⟩ ∈ c.order

namespace Ok

variable {apply : S → O → R × S} {init s : S} {c : Calls ι O R} {t : ι} {id : ℕ} {op : O} {res : R}

omit [DecidableEq ι] in
theorem linearizes (h : Ok apply init c s) : Linearizes apply init c.events c.order s where
  replays := h.replays
  once := h.once
  called := h.called
  completed := by
    intro id op res hcall hret
    obtain ⟨op', hmem⟩ := h.completed id res hret
    obtain rfl : op' = op := h.unique id op' op (h.called _ hmem) hcall
    exact hmem
  realTime := h.realTime

omit [DecidableEq ι] in
theorem start (apply : S → O → R × S) (init : S) : Ok apply init ({} : Calls ι O R) init where
  replays := .nil
  once := List.nodup_nil
  called e he := by cases he
  fresh id op h := by cases h
  unique id op op' h := by cases h
  completed id res h := by cases h
  realTime x res y op _ h := by cases h
  pending t id op h := by cases h
  distinct t u id op op' h := by cases h
  settled t id op res h := by cases h

/-- The call that begins has not taken effect. -/
theorem call (h : Ok apply init c s) (t : ι) (op : O) : Ok apply init (c.call t op) s := by
  have hfresh : c.count ∉ c.order.map Entry.id := by
    intro hmem
    obtain ⟨e, he, heq⟩ := List.mem_map.mp hmem
    have := h.fresh _ _ (h.called e he)
    omega
  constructor
  case replays => exact h.replays
  case once => exact h.once
  case called => exact fun e he => List.mem_append_left _ (h.called e he)
  case fresh =>
    intro id op' hmem
    show id < c.count + 1
    rcases List.mem_append.mp hmem with hmem | hmem
    · exact Nat.lt_succ_of_lt (h.fresh id op' hmem)
    · cases List.mem_singleton.mp hmem
      exact Nat.lt_succ_self _
  case unique =>
    intro id op₁ op₂ h₁ h₂
    rcases List.mem_append.mp h₁ with h₁ | h₁ <;> rcases List.mem_append.mp h₂ with h₂ | h₂
    · exact h.unique id op₁ op₂ h₁ h₂
    · cases List.mem_singleton.mp h₂
      exact absurd (h.fresh _ _ h₁) (Nat.lt_irrefl _)
    · cases List.mem_singleton.mp h₁
      exact absurd (h.fresh _ _ h₂) (Nat.lt_irrefl _)
    · cases List.mem_singleton.mp h₁
      cases List.mem_singleton.mp h₂
      rfl
  case completed =>
    intro id res hmem
    rcases List.mem_append.mp hmem with hmem | hmem
    · exact h.completed id res hmem
    · cases List.mem_singleton.mp hmem
  case realTime =>
    intro x res y op' hbefore hy
    rcases before_concat.mp hbefore with hbefore | ⟨heq, -⟩
    · exact h.realTime x res y op' hbefore hy
    · cases heq
      exact absurd hy hfresh
  case pending =>
    intro u id op' hu
    rcases update_eq hu with ⟨rfl, heq⟩ | ⟨-, hu⟩
    · cases heq
      exact ⟨List.mem_append_right _ (List.mem_singleton_self _), hfresh⟩
    · obtain ⟨hmem, hnot⟩ := h.pending u id op' hu
      exact ⟨List.mem_append_left _ hmem, hnot⟩
  case distinct =>
    intro u v id op₁ op₂ hu hv
    rcases update_eq hu with ⟨hut, heq⟩ | ⟨-, hu'⟩ <;>
      rcases update_eq hv with ⟨hvt, heq'⟩ | ⟨-, hv'⟩
    · exact hut.trans hvt.symm
    · cases heq
      exact absurd (h.fresh _ _ (h.pending v _ _ hv').1) (Nat.lt_irrefl _)
    · cases heq'
      exact absurd (h.fresh _ _ (h.pending u _ _ hu').1) (Nat.lt_irrefl _)
    · exact h.distinct u v id op₁ op₂ hu' hv'
  case settled =>
    intro u id op' res hu
    rcases update_eq hu with ⟨rfl, heq⟩ | ⟨-, hu⟩
    · cases heq
    · exact h.settled u id op' res hu

/-- A call takes effect at the end of the order, after all calls that have ended. -/
theorem settle (h : Ok apply init c s) (ht : c.status t = .called id op)
    (hres : (apply s op).1 = res) : Ok apply init (c.settle t res) (apply s op).2 := by
  obtain ⟨hcall, hnot⟩ := h.pending t id op ht
  have hids : List.map Entry.id (c.order ++ [⟨id, op, res⟩]) = c.order.map Entry.id ++ [id] :=
    List.map_append
  rw [settle_eq ht]
  constructor
  case replays =>
    rw [← hres]
    exact h.replays.snoc id op
  case once =>
    simp only [hids]
    refine List.nodup_append.mpr ⟨h.once, List.nodup_singleton _, ?_⟩
    rintro x hx y hy rfl
    rw [List.mem_singleton.mp hy] at hx
    exact hnot hx
  case called =>
    intro e he
    rcases List.mem_append.mp he with he | he
    · exact h.called e he
    · rw [List.mem_singleton.mp he]
      exact hcall
  case fresh => exact h.fresh
  case unique => exact h.unique
  case completed =>
    intro x res' hmem
    obtain ⟨op', hop'⟩ := h.completed x res' hmem
    exact ⟨op', List.mem_append_left _ hop'⟩
  case realTime =>
    intro x res' y op' hbefore hy
    simp only [hids] at hy ⊢
    refine before_concat.mpr ?_
    rcases List.mem_append.mp hy with hy | hy
    · exact Or.inl (h.realTime x res' y op' hbefore hy)
    · obtain ⟨op'', hx⟩ := h.completed x res' (hbefore.subset (List.mem_cons_self ..))
      exact Or.inr ⟨List.mem_singleton.mp hy, List.mem_map_of_mem hx⟩
  case pending =>
    intro u x op' hu
    obtain ⟨hne, hu⟩ := called_of_update hu nofun
    obtain ⟨hmem, hx⟩ := h.pending u x op' hu
    refine ⟨hmem, ?_⟩
    simp only [hids]
    rintro hx'
    rcases List.mem_append.mp hx' with hx' | hx'
    · exact hx hx'
    · rw [List.mem_singleton.mp hx'] at hu
      exact hne (h.distinct u t id op' op hu ht)
  case distinct =>
    intro u v x op₁ op₂ hu hv
    exact h.distinct u v x op₁ op₂ (called_of_update hu nofun).2 (called_of_update hv nofun).2
  case settled =>
    intro u x op' res' hu
    rcases update_eq hu with ⟨-, heq⟩ | ⟨-, hu⟩
    · cases heq
      exact List.mem_append_right _ (List.mem_singleton_self _)
    · exact List.mem_append_left _ (h.settled u x op' res' hu)

/-- A call that has taken effect ends. -/
theorem ret (h : Ok apply init c s) (ht : c.status t = .settled id op res) :
    Ok apply init (c.ret t res) s := by
  have hmem := h.settled t id op res ht
  -- the end of a call is not the beginning of one
  have hcalls : ∀ x op', .call x op' ∈ c.events ++ [Event.ret id res] → .call x op' ∈ c.events := by
    intro x op' hx
    rcases List.mem_append.mp hx with hx | hx
    · exact hx
    · cases List.mem_singleton.mp hx
  rw [ret_eq ht]
  constructor
  case replays => exact h.replays
  case once => exact h.once
  case called => exact fun e he => List.mem_append_left _ (h.called e he)
  case fresh => exact fun x op' hx => h.fresh x op' (hcalls x op' hx)
  case unique => exact fun x op₁ op₂ h₁ h₂ => h.unique x op₁ op₂ (hcalls _ _ h₁) (hcalls _ _ h₂)
  case completed =>
    intro x res' hx
    rcases List.mem_append.mp hx with hx | hx
    · exact h.completed x res' hx
    · cases List.mem_singleton.mp hx
      exact ⟨op, hmem⟩
  case realTime =>
    intro x res' y op' hbefore hy
    rcases before_concat.mp hbefore with hbefore | ⟨heq, -⟩
    · exact h.realTime x res' y op' hbefore hy
    · cases heq
  case pending =>
    intro u x op' hu
    obtain ⟨hx, hnot⟩ := h.pending u x op' (called_of_update hu nofun).2
    exact ⟨List.mem_append_left _ hx, hnot⟩
  case distinct =>
    intro u v x op₁ op₂ hu hv
    exact h.distinct u v x op₁ op₂ (called_of_update hu nofun).2 (called_of_update hv nofun).2
  case settled =>
    intro u x op' res' hu
    rcases update_eq hu with ⟨-, heq⟩ | ⟨-, hu⟩
    · cases heq
    · exact h.settled u x op' res' hu

end Ok

end Calls

end LowLevel.Linearization
