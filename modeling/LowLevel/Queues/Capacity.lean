import LowLevel.Queues.Mpsc
import LowLevel.Queues.Spsc

/-! # Capacity of the queues

A full cell of ticket `t` shows `t + 1` and a cell free for the next lap shows
`t + S`. The two differ for every admitted size but one: a queue of a single
cell takes its own unread value for a free cell.
-/

namespace LowLevel.Queues

variable {P T : Type*} {S : UInt64}

/-- A call of `enqueue` is past its wait loop only if its cell holds no unread value, and at
most `S` values have passed the wait loop and are not moved out. -/
structure Bounded (S : UInt64) (q : Queue T) (writer : P → Option (Writer T)) (enqueued : ℕ) :
    Prop where
  fresh : ∀ p w, writer p = some w → w.phase = .before →
    ∀ v, (q.buffer (slot S w.pos)).data ≠ .value v
  capacity : enqueued ≤ q.taken.length + S.toNat

def Spsc.Bounded (S : UInt64) (s : Spsc T) : Prop :=
  Queues.Bounded S s.toQueue (fun _ : Unit => s.producer.writer) s.tickets.length

def Mpsc.Bounded (S : UInt64) (s : Mpsc P T) : Prop :=
  Queues.Bounded S s.toQueue (fun p => (s.producers p).writer) s.tickets.length

theorem Spsc.reachable_bounded {s : Spsc T} (hS : Admitted S) (h2 : 2 ≤ S.toNat)
    (h : (machine S).Reachable s) : s.Bounded S := by
  obtain ⟨turn, hinv⟩ := inv_reachable hS h2 h
  exact ⟨(hinv.protocol.exclusive hS h2).fresh, hinv.protocol.capacity⟩

theorem Mpsc.reachable_bounded [DecidableEq P] {s : Mpsc P T} (hS : Admitted S)
    (h2 : 2 ≤ S.toNat) (h : (machine S).Reachable s) (hlt : s.tickets.length ≤ 2 ^ 64) :
    s.Bounded S := by
  obtain ⟨turn, hinv⟩ := inv_reachable hS h2 h hlt
  refine ⟨(hinv.protocol.exclusive hS h2).fresh, ?_⟩
  have hcap := hinv.protocol.capacity
  rwa [List.length_map] at hcap

theorem Spsc.overwrites (v : T) : ∃ s : Spsc T, (machine 1).Reachable s ∧ ¬ s.Bounded 1 := by
  obtain ⟨s, hrun, hwriter, hdata⟩ : ∃ s : Spsc T,
      (machine 1).run {} (List.flatten [[.enqueue v], List.replicate 5 .producer,
        [.enqueue v, .producer]]) = some s ∧
      s.producer.writer = some { pos := 1, data := v } ∧
      (s.buffer (slot 1 1)).data = .value v := by
    simp [Machine.run, machine, step, List.replicate, slot, Buffer.init, Writer.store,
      Buffer.setData, Buffer.setSequence, Producer.after, Producer.writer]
  exact ⟨s, ⟨_, hrun⟩, fun h => h.fresh () _ hwriter rfl v hdata⟩

section Mpsc

variable [DecidableEq P] {s : Mpsc P T} {p : P} {v : T} {pos : UInt64}

theorem Mpsc.run_draw (hidle : s.producers p = .idle)
    (hseq : (s.buffer (slot S s.enqueuePtr)).sequence = s.enqueuePtr) (v : T) :
    ∃ s', (machine S).run s (.enqueue p v :: List.replicate 3 (.producer p false)) = some s' ∧
      s'.producers p = .store { pos := s.enqueuePtr, data := v } ∧ s'.buffer = s.buffer ∧
      s'.enqueuePtr = s.enqueuePtr + 1 ∧ s'.tickets.length = s.tickets.length + 1 := by
  simp [Machine.run, machine, step, List.replicate, setProducer, hidle, hseq]

theorem Mpsc.run_publish (hstore : s.producers p = .store { pos, data := v }) :
    ∃ s', (machine S).run s (List.replicate 3 (.producer p false)) = some s' ∧
      s'.producers p = .idle ∧ s'.buffer (slot S pos) = ⟨pos + 1, .value v⟩ ∧
      s'.enqueuePtr = s.enqueuePtr ∧ s'.tickets = s.tickets := by
  simp [Machine.run, machine, step, List.replicate, setProducer, hstore, Writer.store,
    Buffer.setData, Buffer.setSequence, Producer.after]

theorem Mpsc.overwrites (p : P) (v : T) :
    ∃ s : Mpsc P T, (machine 1).Reachable s ∧ s.tickets.length ≤ 2 ^ 64 ∧ ¬ s.Bounded 1 := by
  obtain ⟨s₁, hrun₁, hstore, -, hptr₁, hlen₁⟩ :=
    run_draw (S := 1) (s := ({} : Mpsc P T)) (p := p) rfl (by simp [slot, Buffer.init]) v
  obtain ⟨s₂, hrun₂, hidle, hcell, hptr₂, htickets⟩ := run_publish (S := 1) hstore
  -- the cell of ticket 0 is the cell of ticket 1 too, and shows the number that means free for it
  have hptr : s₂.enqueuePtr = 1 := hptr₂.trans hptr₁
  have hcell₂ : s₂.buffer (slot 1 1) = ⟨1, .value v⟩ := by simpa [slot] using hcell
  obtain ⟨s₃, hrun₃, hstore₃, hbuffer, -, hlen₃⟩ :=
    run_draw (S := 1) hidle (by rw [hptr, hcell₂]) v
  refine ⟨s₃, ⟨_, Machine.run_trans (Machine.run_trans hrun₁ hrun₂) hrun₃⟩, ?_, ?_⟩
  · rw [hlen₃, htickets, hlen₁, List.length_nil]
    decide
  · intro h
    refine h.fresh p { pos := 1, data := v } ?_ rfl v ?_
    · rw [hstore₃, hptr]
      rfl
    · rw [hbuffer, hcell₂]

end Mpsc

theorem eq_one_of_lt_two (hS : Admitted S) (h : ¬ 2 ≤ S.toNat) : S = 1 := by
  obtain ⟨k, -, hk⟩ := hS.powerOfTwo
  have hpos : 0 < 2 ^ k := Nat.two_pow_pos k
  apply UInt64.toNat_inj.mp
  change S.toNat = 1
  omega

/-- The sizes on which the queues are bounded, among those the `static_assert` admits. The
multi-producer queue is bounded while its 64-bit counter has not come around. -/
theorem bounded_iff [DecidableEq P] [Inhabited P] [Inhabited T] (hS : Admitted S) :
    ((∀ s : Spsc T, (Spsc.machine S).Reachable s → s.Bounded S) ↔ 2 ≤ S.toNat) ∧
      ((∀ s : Mpsc P T, (Mpsc.machine S).Reachable s → s.tickets.length ≤ 2 ^ 64 → s.Bounded S) ↔
        2 ≤ S.toNat) := by
  constructor
  · refine ⟨fun h => ?_, fun h2 s hs => Spsc.reachable_bounded hS h2 hs⟩
    by_contra hlt
    obtain rfl := eq_one_of_lt_two hS hlt
    obtain ⟨s, hs, hnot⟩ := Spsc.overwrites (default : T)
    exact hnot (h s hs)
  · refine ⟨fun h => ?_, fun h2 s hs hlen => Mpsc.reachable_bounded hS h2 hs hlen⟩
    by_contra hlt
    obtain rfl := eq_one_of_lt_two hS hlt
    obtain ⟨s, hs, hlen, hnot⟩ := Mpsc.overwrites (default : P) (default : T)
    exact hnot (h s hs hlen)

theorem bounded_iff_two :
    ((∀ s : Spsc ℕ, (Spsc.machine 2).Reachable s → s.Bounded 2) ↔ 2 ≤ (2 : UInt64).toNat) ∧
      ((∀ s : Mpsc Bool ℕ, (Mpsc.machine 2).Reachable s → s.tickets.length ≤ 2 ^ 64 → s.Bounded 2) ↔
        2 ≤ (2 : UInt64).toNat) :=
  bounded_iff (by decide)

/-- A queue of one cell passes the `static_assert` and overwrites an unread value. -/
theorem not_bounded_one : Admitted 1 ∧
    (∃ s : Spsc ℕ, (Spsc.machine 1).Reachable s ∧ ¬ s.Bounded 1) ∧
    ∃ s : Mpsc Bool ℕ, (Mpsc.machine 1).Reachable s ∧ s.tickets.length ≤ 2 ^ 64 ∧ ¬ s.Bounded 1 :=
  ⟨by decide, Spsc.overwrites 7, Mpsc.overwrites true 7⟩

end LowLevel.Queues
