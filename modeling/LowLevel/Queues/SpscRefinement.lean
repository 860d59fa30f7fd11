import LowLevel.Queues.SpscLinked

/-! # The lock-free queues refine the lock-based one

Whatever the interleaving of the loads and stores of the two threads, the
calls in the order in which they take effect are a history of the lock-based
queue.
-/

namespace LowLevel.Queues

variable {T : Type*}

/-- A call of `enqueue` takes effect at its store to `tail`, or is refused at its load of `head`
with `S - 1` values in the queue; a call of `deque` takes effect at its store to `head`, or finds
the queue empty at its load of `tail`. The values in the queue are those from `head` to `tail`. -/
structure Ring.Refines (S : ℕ) (s : Ring T) : Prop where
  history : ∃ queue, History (fun n => n + 1 = S) s.history queue ∧ queue.length < S ∧
    s.tail = (s.head + queue.length) % S
  order : removed s.history <+: added s.history

/-- The calls take effect as in the ring, and none is refused. The node at the tail is never
freed, and no freed node is accessed. -/
structure Linked.Refines (s : Linked T) : Prop where
  history : ∃ queue, History (fun _ => False) s.history queue
  order : removed s.history <+: added s.history
  returned : s.got ++ s.consumer.pending = results s.history
  tail : s.isLive s.tail = true
  freed : ∀ h res, s.consumer = .delete h res → h ≠ s.tail ∧ s.isLive h = true
  accesses : s.fault = false

theorem Ring.refines {S : ℕ} {s : Ring T} (hS : 1 ≤ S) (h : (Ring.machine S).Reachable s) :
    s.Refines S := by
  obtain ⟨queue, hinv⟩ := Ring.inv_reachable hS h
  exact ⟨⟨queue, hinv.history, hinv.length, hinv.tail⟩, ⟨queue, hinv.history.removed_append⟩⟩

theorem Linked.refines {dummy : ℕ} {s : Linked T} (h : (Linked.machine dummy).Reachable s) :
    s.Refines := by
  obtain ⟨entries, first, last, hinv⟩ := Linked.inv_reachable h
  constructor
  case history => exact ⟨_, hinv.history⟩
  case order => exact ⟨_, hinv.history.removed_append⟩
  case returned => exact hinv.got
  case tail =>
    rw [hinv.tail]
    exact hinv.isLive_last
  case freed =>
    intro p res hc
    have hknows := hinv.consumer
    rw [hc] at hknows
    obtain ⟨x, rfl, hlive, hnot, -⟩ := hknows
    refine ⟨?_, hlive⟩
    rw [hinv.tail]
    rintro ⟨⟩
    exact hnot Linked.Inv.last_mem
  case accesses => exact hinv.fault

/-- For every size of the ring, every choice of addresses by the allocator and every
interleaving. -/
theorem spsc_refine_lock :
    (∀ (S : ℕ) (s : Ring T), 1 ≤ S → (Ring.machine S).Reachable s → s.Refines S) ∧
      ∀ (dummy : ℕ) (s : Linked T), (Linked.machine dummy).Reachable s → s.Refines :=
  ⟨fun _ _ => Ring.refines, fun _ _ => Linked.refines⟩

/-- The producer fills a ring of two cells and is refused; the consumer makes room while the
producer is about to try again, and then finds the queue empty. -/
def fillAndDrain : List (Ring.Action ℕ) :=
  List.flatten [[.enqueue 7], List.replicate 4 .producer, [.enqueue 8, .producer, .producer],
    [.deque, .enqueue 8, .producer], List.replicate 4 (.consumer 0), List.replicate 3 .producer,
    [.deque], List.replicate 4 (.consumer 0), [.deque, .consumer 0, .consumer 0]]

/-- The node that the consumer frees is handed out to the producer while the other node is still
in the queue. -/
def reuseNode : List (Linked.Action ℕ) :=
  List.flatten [[.enqueue 5], List.replicate 5 (.producer 1), [.deque], List.replicate 7 .consumer,
    [.enqueue 6], List.replicate 5 (.producer 0), [.deque], List.replicate 7 .consumer,
    [.deque, .consumer, .consumer]]

theorem spsc_refine_lock_runs :
    (∃ s : Ring ℕ, (Ring.machine 2).Reachable s ∧ s.history = [.enqueue 7 true, .enqueue 8 false,
      .deque (some 7), .enqueue 8 true, .deque (some 8), .deque none] ∧ s.Refines 2) ∧
    ∃ s : Linked ℕ, (Linked.machine 0).Reachable s ∧ s.got = [some 5, some 6, none] ∧
      s.tail = some 0 ∧ s.Refines := by
  constructor
  · have hrun : ((Ring.machine 2).run {} fillAndDrain).map Ring.history = some [.enqueue 7 true,
        .enqueue 8 false, .deque (some 7), .enqueue 8 true, .deque (some 8), .deque none] := by
      decide +kernel
    obtain ⟨s, hs, hhistory⟩ := Option.map_eq_some_iff.mp hrun
    exact ⟨s, ⟨_, hs⟩, hhistory, spsc_refine_lock.1 2 s (by decide) ⟨_, hs⟩⟩
  · have hrun : ((Linked.machine 0).run (Linked.init 0) reuseNode).map (fun s => (s.got, s.tail)) =
        some ([some 5, some 6, none], some 0) := by
      decide +kernel
    obtain ⟨s, hs, heq⟩ := Option.map_eq_some_iff.mp hrun
    obtain ⟨hgot, htail⟩ := Prod.mk.inj heq
    exact ⟨s, ⟨_, hs⟩, hgot, htail, spsc_refine_lock.2 0 s ⟨_, hs⟩⟩

end LowLevel.Queues
