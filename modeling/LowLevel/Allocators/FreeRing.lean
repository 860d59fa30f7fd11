import LowLevel.Allocators.Explicit
import LowLevel.Foundations.Circular

/-! # The free list in memory

The nodes of the free list are headers; the links are the first two payload
words. Each list operation of the allocator acts on the ring as the operation of
the same name on circular lists, and writes to link words of nodes only.
-/

namespace LowLevel.Allocators.Explicit

open Memory

def prevOf (m : Memory) (a : ℕ) : ℕ := m.read64 (a + 16)

def nextOf (m : Memory) (a : ℕ) : ℕ := m.read64 (a + 24)

/-- Addresses that can be nodes together: link words of different nodes do not overlap. -/
structure Nodes (l : List ℕ) : Prop where
  nodup : l.Nodup
  apart : ∀ a ∈ l, ∀ b ∈ l, a = b ∨ a + 24 ≤ b ∨ b + 24 ≤ a
  lt : ∀ a ∈ l, a < 2 ^ 64
  pos : ∀ a ∈ l, 0 < a

structure FreeList (s : State) (l : List ℕ) : Prop where
  head : s.head = l.headD 0
  ring : Ring (nextOf s.mem) (prevOf s.mem) l

def Off (l : List ℕ) (y : ℕ) : Prop := ∀ x ∈ l, y < x + 16 ∨ x + 32 ≤ y

/-- The memories differ at most in the link words of the given nodes. -/
def LinksOnly (l : List ℕ) (m m' : Memory) : Prop := ∀ y, Off l y → m' y = m y

section Words

variable {m m' : Memory} {a b v : ℕ} {l : List ℕ}

theorem LinksOnly.refl (l : List ℕ) (m : Memory) : LinksOnly l m m := fun _ _ => rfl

theorem LinksOnly.write_prev (h : LinksOnly l m m') (hb : b ∈ l) :
    LinksOnly l m (m'.write64 (b + 16) v) := by
  intro y hy
  have := hy b hb
  rw [write64_of_disjoint (by omega), h y hy]

theorem LinksOnly.write_next (h : LinksOnly l m m') (hb : b ∈ l) :
    LinksOnly l m (m'.write64 (b + 24) v) := by
  intro y hy
  have := hy b hb
  rw [write64_of_disjoint (by omega), h y hy]

variable (hab : a = b ∨ a + 24 ≤ b ∨ b + 24 ≤ a)

include hab

theorem nextOf_write_next (hv : v < 2 ^ 64) :
    nextOf (m.write64 (b + 24) v) a = if a = b then v else nextOf m a := by
  unfold nextOf
  split_ifs with h
  · rw [h, read64_write64_self hv]
  · exact read64_write64_of_disjoint (by omega)

theorem prevOf_write_prev (hv : v < 2 ^ 64) :
    prevOf (m.write64 (b + 16) v) a = if a = b then v else prevOf m a := by
  unfold prevOf
  split_ifs with h
  · rw [h, read64_write64_self hv]
  · exact read64_write64_of_disjoint (by omega)

theorem nextOf_write_prev : nextOf (m.write64 (b + 16) v) a = nextOf m a :=
  read64_write64_of_disjoint (by omega)

theorem prevOf_write_next : prevOf (m.write64 (b + 24) v) a = prevOf m a :=
  read64_write64_of_disjoint (by omega)

omit hab in
theorem linkSelf_ring (hv : a < 2 ^ 64) :
    Ring (nextOf (linkSelf m a)) (prevOf (linkSelf m a)) [a] := by
  have haa : a = a ∨ a + 24 ≤ a ∨ a + 24 ≤ a := Or.inl rfl
  rw [Ring.singleton_iff, linkSelf, nextOf_write_next haa hv, prevOf_write_next haa,
    prevOf_write_prev haa hv]
  simp

end Words

structure Inserted (m m' : Memory) (prev node next : ℕ) (l : List ℕ) : Prop where
  next_self : nextOf m' node = next
  prev_self : prevOf m' node = prev
  next_of_mem : ∀ a ∈ l, nextOf m' a = if a = prev then node else nextOf m a
  prev_of_mem : ∀ a ∈ l, prevOf m' a = if a = next then node else prevOf m a

theorem linkBetween_inserted {m : Memory} {prev node next : ℕ} {l l' : List ℕ}
    (hnodes : Nodes l') (hnode : node ∈ l') (hl : ∀ a ∈ l, a ∈ l' ∧ a ≠ node)
    (hprev : prev ∈ l) (hnext : next ∈ l) :
    Inserted m (linkBetween m prev node next) prev node next l ∧
      LinksOnly l' m (linkBetween m prev node next) := by
  obtain ⟨hp, hpne⟩ := hl _ hprev
  obtain ⟨hn, hnne⟩ := hl _ hnext
  have hlt := hnodes.lt node hnode
  have hplt := hnodes.lt prev hp
  have hnlt := hnodes.lt next hn
  unfold linkBetween
  refine ⟨?_, ((((LinksOnly.refl _ _).write_prev hnode).write_next hnode).write_next hp).write_prev
    hn⟩
  constructor
  case next_self =>
    have hapart := hnodes.apart node hnode
    rw [nextOf_write_prev (hapart _ hn), nextOf_write_next (hapart _ hp) hlt, if_neg hpne.symm,
      nextOf_write_next (hapart _ hnode) hnlt, if_pos rfl]
  case prev_self =>
    have hapart := hnodes.apart node hnode
    rw [prevOf_write_prev (hapart _ hn) hlt, if_neg hnne.symm, prevOf_write_next (hapart _ hp),
      prevOf_write_next (hapart _ hnode), prevOf_write_prev (hapart _ hnode) hplt, if_pos rfl]
  case next_of_mem =>
    intro a ha
    obtain ⟨ha', hane⟩ := hl a ha
    have hapart := hnodes.apart a ha'
    rw [nextOf_write_prev (hapart _ hn), nextOf_write_next (hapart _ hp) hlt,
      nextOf_write_next (hapart _ hnode) hnlt, if_neg hane, nextOf_write_prev (hapart _ hnode)]
  case prev_of_mem =>
    intro a ha
    obtain ⟨ha', hane⟩ := hl a ha
    have hapart := hnodes.apart a ha'
    rw [prevOf_write_prev (hapart _ hn) hlt, prevOf_write_next (hapart _ hp),
      prevOf_write_next (hapart _ hnode), prevOf_write_prev (hapart _ hnode) hplt, if_neg hane]

section Operations

variable {s : State} {m : Memory} {head x y : ℕ} {l l₁ l₂ : List ℕ}

theorem Nodes.rest (h : Nodes (l₁ ++ x :: l₂)) : Nodes (l₁ ++ l₂) where
  nodup := (List.nodup_cons.mp (List.nodup_middle.mp h.nodup)).2
  apart a ha b hb := h.apart a (by simp at ha ⊢; tauto) b (by simp at hb ⊢; tauto)
  lt a ha := h.lt a (by simp at ha ⊢; tauto)
  pos a ha := h.pos a (by simp at ha ⊢; tauto)

theorem Nodes.notMem (h : Nodes (l₁ ++ x :: l₂)) : x ∉ l₁ ++ l₂ :=
  (List.nodup_cons.mp (List.nodup_middle.mp h.nodup)).1

theorem headD_middle_of_ne (hne : (l₁ ++ x :: l₂).headD 0 ≠ x) :
    (l₁ ++ l₂).headD 0 = (l₁ ++ x :: l₂).headD 0 := by
  cases l₁ with
  | nil => exact absurd rfl hne
  | cons a l₁ => rfl

theorem headD_rest (hring : Ring (nextOf m) (prevOf m) (l₁ ++ x :: l₂))
    (hnodes : Nodes (l₁ ++ x :: l₂)) (hne : l₁ ++ l₂ ≠ []) :
    (l₁ ++ l₂).headD 0 =
      if (l₁ ++ x :: l₂).headD 0 = x then nextOf m x else (l₁ ++ x :: l₂).headD 0 := by
  split_ifs with h
  · obtain rfl : l₁ = [] := by
      cases l₁ with
      | nil => rfl
      | cons a l₁ =>
        obtain rfl : a = x := h
        exact absurd (List.mem_cons_self ..) hnodes.notMem
    have hl₂ : l₂ ≠ [] := hne
    rw [(hring.neighbours hl₂).1, List.nil_append]
    cases l₂ with
    | nil => exact absurd rfl hl₂
    | cons b l₂ => rfl
  · exact headD_middle_of_ne h

theorem unlink_run (h : FreeList s (l₁ ++ x :: l₂)) (hnodes : Nodes (l₁ ++ x :: l₂)) :
    FreeList (unlink s x (prevOf s.mem x) (nextOf s.mem x)) (l₁ ++ l₂) ∧
      LinksOnly (l₁ ++ l₂) s.mem (unlink s x (prevOf s.mem x) (nextOf s.mem x)).mem := by
  by_cases hself : nextOf s.mem x = x
  · have hnil := (h.ring.next_eq_self_iff hnodes.nodup).mp hself
    rw [unlink, if_pos hself, hnil]
    exact ⟨⟨rfl, Cycle.Chain.nil _⟩, LinksOnly.refl _ _⟩
  · have hne : l₁ ++ l₂ ≠ [] := fun hnil =>
      hself ((h.ring.next_eq_self_iff hnodes.nodup).mpr hnil)
    have hn := h.ring.next_mem hne
    have hp := h.ring.prev_mem hne
    have hrest := hnodes.rest
    rw [unlink, if_neg hself]
    refine ⟨⟨?_, ?_⟩, ?_⟩
    · rw [headD_rest h.ring hnodes hne, ← h.head]
    · refine h.ring.unlink hnodes.nodup hne ?_ ?_
      · intro a ha
        rw [nextOf_write_prev (hrest.apart a ha _ hn),
          nextOf_write_next (hrest.apart a ha _ hp) (hrest.lt _ hn)]
      · intro a ha
        rw [prevOf_write_prev (hrest.apart a ha _ hn) (hrest.lt _ hp),
          prevOf_write_next (hrest.apart a ha _ hp)]
    · exact ((LinksOnly.refl _ _).write_next hp).write_prev hn

theorem replace_run (h : FreeList s (l₁ ++ x :: l₂)) (hnodes : Nodes (l₁ ++ x :: l₂))
    (hnew : Nodes (l₁ ++ y :: l₂))
    (hm : ∀ a ∈ l₁ ++ l₂, nextOf m a = nextOf s.mem a ∧ prevOf m a = prevOf s.mem a) :
    FreeList (replace ⟨m, s.head⟩ x (prevOf s.mem x) (nextOf s.mem x) y) (l₁ ++ y :: l₂) ∧
      LinksOnly (l₁ ++ y :: l₂) m
        (replace ⟨m, s.head⟩ x (prevOf s.mem x) (nextOf s.mem x) y).mem := by
  have hy : y ∈ l₁ ++ y :: l₂ := by simp
  have hhead : (if s.head = x then y else s.head) = (l₁ ++ y :: l₂).headD 0 := by
    rw [h.head]
    cases l₁ with
    | nil => simp
    | cons a l₁ =>
      have hax : a ≠ x := by
        rintro rfl
        exact hnodes.notMem (List.mem_cons_self ..)
      exact if_neg hax
  by_cases hself : nextOf s.mem x = x
  · have hnil := (h.ring.next_eq_self_iff hnodes.nodup).mp hself
    obtain ⟨rfl, rfl⟩ := List.append_eq_nil_iff.mp hnil
    rw [replace, if_pos hself]
    exact ⟨⟨hhead, linkSelf_ring (hnew.lt y hy)⟩,
      ((LinksOnly.refl _ _).write_prev hy).write_next hy⟩
  · have hne : l₁ ++ l₂ ≠ [] := fun hnil =>
      hself ((h.ring.next_eq_self_iff hnodes.nodup).mpr hnil)
    have hl : ∀ a ∈ l₁ ++ l₂, a ∈ l₁ ++ y :: l₂ ∧ a ≠ y := by
      intro a ha
      refine ⟨by simp at ha ⊢; tauto, ?_⟩
      rintro rfl
      exact hnew.notMem ha
    obtain ⟨hins, hlinks⟩ := linkBetween_inserted (m := m) hnew hy hl (h.ring.prev_mem hne)
      (h.ring.next_mem hne)
    rw [replace, if_neg hself]
    refine ⟨⟨hhead, h.ring.replace hnodes.nodup hne ?_ ?_ hins.next_self hins.prev_self⟩, hlinks⟩
    · intro a ha
      rw [hins.next_of_mem a ha, (hm a ha).1]
    · intro a ha
      rw [hins.prev_of_mem a ha, (hm a ha).2]

theorem push_run (h : FreeList s l) (hnew : Nodes (y :: l)) :
    FreeList (push s y) (y :: l) ∧ LinksOnly (y :: l) s.mem (push s y).mem := by
  have hy : y ∈ y :: l := List.mem_cons_self ..
  cases l with
  | nil =>
    have hhead : s.head = 0 := h.head
    rw [push, if_pos hhead]
    exact ⟨⟨rfl, linkSelf_ring (hnew.lt y hy)⟩, ((LinksOnly.refl _ _).write_prev hy).write_next hy⟩
  | cons x t =>
    have hhead : s.head = x := h.head
    have hxpos := hnew.pos x (by simp)
    have htail : prevOf s.mem x ∈ x :: t := by
      rcases eq_or_ne t [] with rfl | ht
      · rw [(Ring.singleton_iff.mp h.ring).2]
        exact List.mem_cons_self ..
      · rw [(h.ring.neighbours ht).2]
        exact List.mem_cons_of_mem _ (List.getLast_mem ht)
    have hl : ∀ a ∈ x :: t, a ∈ y :: x :: t ∧ a ≠ y := by
      intro a ha
      refine ⟨List.mem_cons_of_mem _ ha, ?_⟩
      rintro rfl
      exact (List.nodup_cons.mp hnew.nodup).1 ha
    obtain ⟨hins, hlinks⟩ := linkBetween_inserted (m := s.mem) hnew hy hl htail
      (List.mem_cons_self ..)
    rw [push, if_neg (by omega), hhead]
    exact ⟨⟨rfl, h.ring.push (List.nodup_cons.mp hnew.nodup).2 hins.next_of_mem hins.prev_of_mem
      hins.next_self hins.prev_self⟩, hlinks⟩

end Operations

theorem FreeList.links_mem {s : State} {l : List ℕ} {x : ℕ} (h : FreeList s l) (hx : x ∈ l) :
    prevOf s.mem x ∈ l ∧ nextOf s.mem x ∈ l := by
  obtain ⟨l₁, l₂, rfl⟩ := List.append_of_mem hx
  by_cases hne : l₁ ++ l₂ = []
  · obtain ⟨rfl, rfl⟩ := List.append_eq_nil_iff.mp hne
    obtain ⟨hnext, hprev⟩ := Ring.singleton_iff.mp h.ring
    simp [hnext, hprev]
  · have hsub : l₁ ++ l₂ ⊆ l₁ ++ x :: l₂ := ((List.sublist_cons_self x l₂).append_left l₁).subset
    exact ⟨hsub (h.ring.prev_mem hne), hsub (h.ring.next_mem hne)⟩

end LowLevel.Allocators.Explicit
