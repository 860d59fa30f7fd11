import LowLevel.Allocators.ImplicitSlots
import LowLevel.Allocators.ImprovedSlots

/-! # The structure of arrays behaves as the implicit list

Both allocators act as allocation without splitting, so a client that runs on
both at once gets the same answers from both.
-/

namespace LowLevel.Allocators

open Memory Slots

/-- The two allocators after the same history, with pointers as offsets into the region and into
the data region. -/
structure InStep (base data size : ℕ) (c : Client (Allocator × Memory))
    (d : Client (Improved.SoaAllocator × Memory)) : Prop where
  log : c.log = d.log
  live : c.live = d.live
  returned : c.returned = d.returned
  offsets : ∀ p ∈ c.returned, 16 ≤ p
  allowed : ∀ act, d.allowed (Improved.interface.relative data) (Slots.regionRules size) act =
    c.allowed (Implicit.interface.relative base) (Slots.regionRules size) act
  returns : ∀ act,
    c.allowed (Implicit.interface.relative base) (Slots.regionRules size) act = true →
    (∃ c', c.exec (Implicit.interface.relative base) act = some c') ∧
      ∃ d', d.exec (Improved.interface.relative data) act = some d'
  entries : ∀ n, 1 ≤ n → n ≤ size → ∃ r, Improved.serve d.heap.1 d.heap.2 n = some r ∧
    r.1 ≠ .metaFull

theorem inStep_of_beside {base entries data size : ℕ} {c : Client (Allocator × Memory)}
    {d : Client (Improved.SoaAllocator × Memory)} {e : Client (List Block)}
    (hc : Beside (Implicit.Laid base size) c e)
    (hd : Beside (Improved.Laid entries data size) d e) :
    InStep base data size c d := by
  have hlive : c.live = d.live := hc.live.trans hd.live.symm
  have hret : c.returned = d.returned := hc.returned.trans hd.returned.symm
  constructor
  case log => exact hc.log.trans hd.log.symm
  case live => exact hlive
  case returned => exact hret
  case offsets =>
    intro p hp
    obtain ⟨k, hk⟩ := hc.held.returned p (hc.returned ▸ hp)
    obtain ⟨pre, b, post, -, heq, -⟩ := mem_slots_split hk
    simp only at heq
    omega
  case allowed =>
    intro act
    rw [← (Implicit.mirrors base size).allowed_eq hc act]
    exact ((Improved.mirrors entries data size).allowed_eq hd act).symm
  case returns =>
    intro act hact
    have hact' := hact
    rw [← (Implicit.mirrors base size).allowed_eq hc act,
      (Improved.mirrors entries data size).allowed_eq hd act] at hact'
    obtain ⟨c', -, hexec, -, -⟩ := (Implicit.mirrors base size).exec hc hact
    obtain ⟨d', -, hexec', -, -⟩ := (Improved.mirrors entries data size).exec hd hact'
    exact ⟨⟨c', hexec⟩, d', hexec'⟩
  case entries =>
    intro n hn hle
    obtain ⟨o, h', hserve, hne, -, -⟩ := Improved.serve_run hd.heap hn hle
    exact ⟨(o, h'), hserve, hne⟩

theorem Improved.init_eq {a a' : SoaAllocator} {size metaMap dataMap : ℕ}
    (h : allocInit a size metaMap dataMap = (0, a')) : a' = ⟨metaMap, metaMap, dataMap, size⟩ := by
  unfold allocInit at h
  split_ifs at h
  · cases h
  · cases h
  · cases h
  · cases h
    rfl

/-- A client that runs the same actions on both allocators gets the same answers, and the entries
of the structure of arrays never run out. -/
theorem soa_agrees {base metaMap dataMap size : ℕ} {a a' : Allocator}
    {b b' : Improved.SoaAllocator} (m m' : Memory) (hbase : Mapped base size)
    (hmeta : Mapped metaMap size) (hdata : Mapped dataMap size)
    (hapart : metaMap + size ≤ dataMap ∨ dataMap + size ≤ metaMap)
    (hinit : Implicit.allocInit a size base = (0, a'))
    (hinit' : Improved.allocInit b size metaMap dataMap = (0, b')) (acts : List Action) :
    Option.Rel (InStep base dataMap size)
      ((Client.machine (Implicit.interface.relative base) (Slots.regionRules size) (a', m)).run
        { heap := (a', m) } acts)
      ((Client.machine (Improved.interface.relative dataMap) (Slots.regionRules size)
        (b', m')).run { heap := (b', m') } acts) := by
  obtain rfl := Allocator.init_eq hinit
  obtain rfl := Improved.init_eq hinit'
  have h₁ := (Implicit.mirrors base size).run_rel
    (h := (⟨base, base, size⟩, m)) ⟨rfl, hbase, Nat.zero_le _, trivial⟩ acts
  have h₂ := (Improved.mirrors metaMap dataMap size).run_rel
    (h := (⟨metaMap, metaMap, dataMap, size⟩, m')) ⟨rfl, hmeta, hdata, hapart, Nat.zero_le _,
      fun c hc => absurd hc List.not_mem_nil, trivial⟩ acts
  -- both are related to the run of the abstract allocator
  refine Machine.rel_join ?_ h₁ h₂
  intro c d e hc hd
  exact inStep_of_beside hc hd

/-- A page for each region. -/
theorem soa_agrees_page : Option.Rel (InStep 4096 12288 4096)
    ((Client.machine (Implicit.interface.relative 4096) (Slots.regionRules 4096)
      (⟨4096, 4096, 4096⟩, fun _ => 0)).run { heap := (⟨4096, 4096, 4096⟩, fun _ => 0) }
      [.malloc 100, .malloc 20, .free 16, .free 16, .malloc 50])
    ((Client.machine (Improved.interface.relative 12288) (Slots.regionRules 4096)
      (⟨4096, 4096, 12288, 4096⟩, fun _ => 0)).run
      { heap := (⟨4096, 4096, 12288, 4096⟩, fun _ => 0) }
      [.malloc 100, .malloc 20, .free 16, .free 16, .malloc 50]) :=
  have hpage : Mapped 4096 4096 := ⟨by decide, by decide, by decide⟩
  soa_agrees (a := {}) (b := {}) (fun _ => 0) (fun _ => 0) hpage hpage
    ⟨by decide, by decide, by decide⟩ (Or.inl (by decide)) rfl rfl _

end LowLevel.Allocators
