import LowLevel.Foundations.Machine
import LowLevel.Queues.Protocol

/-! # The single-producer queue

One producer and one consumer, interleaved at every load and store. The
producer's own pointer is the only ticket counter, and it may wrap any number
of times.
-/

namespace LowLevel.Queues

inductive Spsc.Producer (T : Type*) where
  | idle
  | wait (pos : UInt64) (data : T)
  | store (w : Writer T)
  | advance (pos : UInt64)

/-- The queue with its two threads. The history records the values passed to `enqueue`, and
those of the calls that got past the wait loop. -/
structure Spsc (T : Type*) extends Queue T where
  enqueuePtr : UInt64 := 0
  producer : Spsc.Producer T := .idle
  sent : List T := []
  tickets : List T := []

namespace Spsc

variable {T : Type*} {S : UInt64} {s s' : Spsc T}

/-- Call `enqueue`, or let one of the threads make a step in its call. -/
inductive Action (T : Type*) where
  | enqueue (data : T)
  | producer
  | consumer (junk : T)

/-- After the last store the producer has its pointer left to update. -/
def Producer.after (pos : UInt64) : Option (Writer T) → Producer T
  | some w => .store w
  | none => .advance pos

def step (S : UInt64) (s : Spsc T) : Action T → Option (Spsc T)
  | .enqueue data =>
    match s.producer with
    | .idle => some { s with producer := .wait s.enqueuePtr data, sent := s.sent ++ [data] }
    | _ => none
  | .producer =>
    match s.producer with
    | .idle => none
    | .wait pos data =>
      if (s.buffer (slot S pos)).sequence = pos then
        some { s with producer := .store { pos, data }, tickets := s.tickets ++ [data] }
      else some s
    | .store w =>
      some { s with
        buffer := (w.store S s.buffer).1
        producer := .after w.pos (w.store S s.buffer).2 }
    | .advance pos => some { s with enqueuePtr := pos + 1, producer := .idle }
  | .consumer junk => some { s with toQueue := s.toQueue.dequeue S junk }

def machine (S : UInt64) : Machine (Spsc T) (Action T) := ⟨{}, step S⟩

def Producer.writer : Producer T → Option (Writer T)
  | .store w => some w
  | _ => none

/-- Where the producer stands: its pointer is the number of tickets drawn. -/
def Producer.Stands (ptr : UInt64) (tickets sent : List T) : Producer T → Prop
  | .idle => ptr = UInt64.ofNat tickets.length ∧ sent = tickets
  | .wait pos data => pos = UInt64.ofNat tickets.length ∧ sent = tickets ++ [data]
  | .store w => w.pos + 1 = UInt64.ofNat tickets.length ∧ sent = tickets
  | .advance pos => pos + 1 = UInt64.ofNat tickets.length ∧ sent = tickets

@[simp] theorem Producer.writer_after (pos : UInt64) (next : Option (Writer T)) :
    (Producer.after pos next).writer = next := by
  cases next <;> rfl

structure Inv (S : UInt64) (s : Spsc T) (turn : ℕ → Turn Unit Unit T) : Prop where
  protocol : Protocol S s.toQueue (fun _ : Unit => s.producer.writer) s.tickets turn
  stands : s.producer.Stands s.enqueuePtr s.tickets s.sent

theorem inv_init : Inv S ({} : Spsc T) fun _ => .unclaimed :=
  ⟨protocol_init, rfl, rfl⟩

theorem update_unit {α : Type*} (f : Unit → α) (x : α) : Function.update f () x = fun _ => x := by
  funext u
  exact Function.update_self ..

theorem Inv.step {turn : ℕ → Turn Unit Unit T} {a : Action T} (h : Inv S s turn)
    (hS : Admitted S) (h2 : 2 ≤ S.toNat) (hstep : step S s a = some s') :
    ∃ turn', Inv S s' turn' := by
  obtain ⟨q, ptr, producer, sent, tickets⟩ := s
  obtain ⟨hprot, hstands⟩ := h
  cases a with
  | enqueue data =>
    cases producer with
    | idle =>
      obtain rfl := Option.some.inj hstep
      obtain ⟨hptr, hsent⟩ := hstands
      exact ⟨turn, hprot, hptr, congrArg (· ++ [data]) hsent⟩
    | _ => cases hstep
  | producer =>
    cases producer with
    | idle => cases hstep
    | wait pos data =>
      simp only [Spsc.step] at hstep
      split at hstep
      · rename_i hseq
        obtain rfl := Option.some.inj hstep
        obtain ⟨rfl, hsent⟩ : pos = UInt64.ofNat tickets.length ∧ sent = tickets ++ [data] :=
          hstands
        rw [slot_ofNat hS] at hseq
        have hready := hprot.turns.ready_of_sequence h2 ofNat_ne hseq
        obtain ⟨turn', hprot', -⟩ := hprot.claim hready () data
        rw [update_unit] at hprot'
        refine ⟨turn', hprot', ?_, hsent⟩
        rw [List.length_append, List.length_singleton, ofNat_succ]
      · obtain rfl := Option.some.inj hstep
        exact ⟨turn, hprot, hstands⟩
    | store w =>
      obtain rfl := Option.some.inj hstep
      obtain ⟨turn', hprot', -⟩ := hprot.store (p := ()) hS rfl
      rw [update_unit] at hprot'
      refine ⟨turn', by simpa using hprot', ?_⟩
      cases hnext : (w.store S q.buffer).2 with
      | none => exact hstands
      | some w' =>
        change w'.pos + 1 = _ ∧ _
        rw [(Writer.same_of_store hnext).1]
        exact hstands
    | advance pos =>
      obtain rfl := Option.some.inj hstep
      exact ⟨turn, hprot, hstands⟩
  | consumer junk =>
    obtain rfl := Option.some.inj hstep
    obtain ⟨turn', hprot', -⟩ := hprot.dequeue hS junk
    exact ⟨turn', hprot', hstands⟩

theorem inv_reachable (hS : Admitted S) (h2 : 2 ≤ S.toNat) (h : (machine S).Reachable s) :
    ∃ turn, Inv S s turn := by
  refine h.invariant (P := fun s => ∃ turn, Inv S s turn) ⟨_, inv_init⟩ ?_
  rintro s a s' ⟨turn, hinv⟩ hstep
  exact hinv.step hS h2 hstep

/-- First in, first out: completed calls of `dequeue` return the values passed to `enqueue` in
order, no cell is written before it is read or while it is read, and at most `S` values have
passed the wait loop and are not moved out. -/
structure Fifo (S : UInt64) (s : Spsc T) : Prop where
  order : s.received <+: s.sent
  exclusive : Exclusive S s.toQueue fun _ : Unit => s.producer.writer
  capacity : s.tickets.length ≤ s.taken.length + S.toNat

theorem Inv.fifo {turn : ℕ → Turn Unit Unit T} (h : Inv S s turn) (hS : Admitted S)
    (h2 : 2 ≤ S.toNat) : Fifo S s := by
  have hsent : s.tickets <+: s.sent := by
    have hstands := h.stands
    cases hp : s.producer <;> rw [hp] at hstands <;> rw [hstands.2]
    · exact List.prefix_append ..
  exact ⟨h.protocol.received.trans hsent, h.protocol.exclusive hS h2, h.protocol.capacity⟩

/-- The queue is a bounded FIFO in every state of every interleaving, across all wraps. -/
theorem reachable_fifo (hS : Admitted S) (h2 : 2 ≤ S.toNat) (h : (machine S).Reachable s) :
    Fifo S s := by
  obtain ⟨turn, hinv⟩ := inv_reachable hS h2 h
  exact hinv.fifo hS h2

/-- One value is through, the call for the second one has passed its wait loop. -/
def twoValues : List (Action ℕ) :=
  List.flatten [[.enqueue 7], List.replicate 5 .producer, [.enqueue 8, .consumer 0, .producer],
    List.replicate 5 (.consumer 0)]

theorem reachable_fifo_twoValues : ∃ s : Spsc ℕ, (machine 2).Reachable s ∧
    s.received = [7] ∧ s.sent = [7, 8] ∧ Fifo 2 s := by
  have hrun : ((machine 2).run {} twoValues).map (fun s => (s.received, s.sent)) =
      some ([7], [7, 8]) := by decide +kernel
  obtain ⟨s, hs, heq⟩ := Option.map_eq_some_iff.mp hrun
  obtain ⟨hrec, hsent⟩ := Prod.mk.inj heq
  exact ⟨s, ⟨_, hs⟩, hrec, hsent, reachable_fifo (by decide) (by decide) ⟨_, hs⟩⟩

end Spsc

end LowLevel.Queues
