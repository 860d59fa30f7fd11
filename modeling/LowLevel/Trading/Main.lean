import LowLevel.Trading.Gateway
import LowLevel.Trading.Liveness

/-! # The exchange

The three threads with the matching engine between them. Whatever the order of
their steps, the bytes that are sent say what one engine would answer if it were
given the requests one after the other, no step of the engine faults, and under
a fair schedule every request is answered.
-/

namespace LowLevel.Trading

open OrderBook (Engine Indexed WellFormed)
open Queues (Admitted Spsc)

variable {B A : ℕ} {clock : ℕ → UInt64} {engine : Engine B A} {n : Indexed}
  {msgs : List InboundMessage}

variable (clock) in
theorem InStep.serve (h : InStep engine n) (hmsgs : ∀ msg ∈ msgs, Proper B msg) :
    ∃ engine' out, Threads.serve (Trading.process clock) engine msgs = some (engine', out) ∧
      InStep engine' (n.run A (msgs.filterMap asked)) ∧
      List.Forall₂ Carries out (n.outputs A (msgs.filterMap asked)).flatten := by
  induction msgs generalizing engine n with
  | nil => exact ⟨engine, [], rfl, h, .nil⟩
  | cons msg msgs ih =>
    obtain ⟨engine₁, out₁, hprocess, h₁, hout₁⟩ := h.process clock (hmsgs msg (by simp))
    obtain ⟨engine', out, hserve, h', hout⟩ := ih h₁ fun m hm => hmsgs m (by simp [hm])
    refine ⟨engine', out₁ ++ out, ?_, ?_⟩
    · simp only [Threads.serve, hprocess, hserve, Option.bind_eq_bind, Option.bind_some]
      rfl
    · rw [List.filterMap_cons]
      unfold answer at h' hout₁ hout
      cases hasked : asked msg with
      | none =>
        rw [hasked] at h' hout₁ hout
        exact ⟨h', List.rel_append hout₁ hout⟩
      | some r =>
        rw [hasked] at h' hout₁ hout
        exact ⟨h', List.rel_append hout₁ hout⟩

variable (clock) in
theorem serve_run (hA : 0 < A) (hmsgs : ∀ msg ∈ msgs, Proper B msg) :
    ∃ (engine : Engine B A) (out : List Wire.OutboundMessage) (last : Engine B A),
      Threads.serve (process clock) {} msgs = some (engine, out) ∧ WellFormed engine ∧
      OrderBook.Engine.run (msgs.filterMap asked) = .ok last ∧
      List.Forall₂ Carries out last.outgoingQueue := by
  obtain ⟨engine, out, hserve, ⟨⟨rs, free, hagrees⟩, -⟩, hout⟩ :=
    (inStep_init (B := B) hA).serve clock hmsgs
  have hadmissible : ∀ r ∈ msgs.filterMap asked, OrderBook.Admissible B r := by
    intro r hr
    obtain ⟨msg, hmsg, hasked⟩ := List.mem_filterMap.mp hr
    exact (hmsgs msg hmsg).2 r hasked
  obtain ⟨last, -, -, hrun, -, hlast, -⟩ := OrderBook.run_agrees hA hadmissible
  exact ⟨engine, out, last, hserve, hagrees.book.wellFormed, hrun, by rwa [hlast]⟩

variable (clock) in
theorem serves (hA : 0 < A) : Threads.Serves (process clock) ({} : Engine B A) (Proper B)
    fun engine => ∃ n, InStep engine n := by
  constructor
  case init => exact ⟨{}, inStep_init hA⟩
  case step =>
    rintro engine msg ⟨n, h⟩ hmsg
    obtain ⟨engine', out, hprocess, h', -⟩ := h.process clock hmsg
    exact ⟨engine', out, hprocess, _, h'⟩

namespace Threads

variable {S : UInt64} {s : Threads (Engine B A) InboundMessage Wire.OutboundMessage}

/-- A queue never holds more than its cells, and each side at most one value outside them. -/
theorem length_sent_le {T : Type*} {q : Spsc T} (h : q.Sound S) (hS : Admitted S)
    (h2 : 2 ≤ S.toNat) : q.sent.length ≤ q.received.length + S.toNat + 2 := by
  obtain ⟨⟨turn, hinv⟩, -⟩ := h
  have hcapacity := (hinv.fifo hS h2).capacity
  have htaken : q.taken.length ≤ q.received.length + 1 := by
    unfold Queues.Queue.taken
    cases q.consumer <;> simp
  have hsent : q.sent.length ≤ q.tickets.length + 1 := by
    have hstands := hinv.stands
    cases hp : q.producer <;> rw [hp] at hstands <;> rw [hstands.2] <;> simp
  omega

/-- The state of the exchange as its clients see it: what was sent are the first answers of the
sequential engine to the first requests. -/
structure Sequential (S : UInt64) (clock : ℕ → UInt64)
    (s : Threads (Engine B A) InboundMessage Wire.OutboundMessage) : Prop where
  answers : ∃ done last, done <+: s.incomingQueue.sent ∧
    s.incomingQueue.sent.length ≤ done.length + S.toNat + 3 ∧
    Engine.run (done.filterMap asked) = .ok (last : Engine B A) ∧
    s.sent.map readMessage <+: last.outgoingQueue.map some ∧
    last.outgoingQueue.length ≤ s.sent.length + s.engineThread.pending.length + S.toNat + 3
  wellFormed : WellFormed s.engine
  running : ∀ junk, (s.engineStep S (process clock) junk).isSome = true

theorem Inv.running (h : Inv S (process clock) ({} : Engine B A) s) (hS : Admitted S)
    (h2 : 2 ≤ S.toNat) (hA : 0 < A) (hproper : ∀ msg ∈ s.incomingQueue.sent, Proper B msg)
    (junk : InboundMessage) : (s.engineStep S (process clock) junk).isSome = true := by
  obtain ⟨done, out, hreceived, hserve, -⟩ := h.served
  have hsub : ∀ msg ∈ s.incomingQueue.received, Proper B msg := fun msg hmsg =>
    hproper msg ((h.received_sent hS h2).subset hmsg)
  unfold Threads.engineStep
  cases hthread : s.engineThread with
  | dequeue => rfl
  | process msg =>
    rw [hthread] at hreceived
    rw [hreceived] at hsub
    obtain ⟨engine, out', hserve', n, hn⟩ := (serves clock hA).serve
      (serves clock hA).init fun m hm => hsub m (List.mem_append_left _ hm)
    rw [hserve] at hserve'
    cases hserve'
    obtain ⟨engine', answers, hprocess, -⟩ :=
      hn.process clock (hsub msg (List.mem_append_right _ (List.mem_singleton_self _)))
    simp only [hprocess]
    rfl
  | publish pending =>
    cases pending with
    | nil => rfl
    | cons answer pending =>
      have hidle : s.outgoingQueue.producer = .idle := by
        by_contra hne
        have hcalling := h.calling.mpr hne
        rw [hthread] at hcalling
        exact hcalling
      simp only [Spsc.step, hidle]
      rfl
  | enqueue pending =>
    have hcalling : s.outgoingQueue.producer ≠ .idle := by
      apply h.calling.mp
      rw [hthread]
      trivial
    obtain ⟨q, hq⟩ := Spsc.exists_step_producer (S := S) hcalling
    simp only [hq]
    rfl

theorem Inv.sent_prefix (h : Inv S (process clock) ({} : Engine B A) s) (hS : Admitted S)
    (h2 : 2 ≤ S.toNat) : s.sent <+: s.outgoingQueue.sent := by
  obtain ⟨⟨turn, hinv⟩, -⟩ := h.outgoing
  refine .trans ?_ (hinv.fifo hS h2).order
  rw [h.written]
  exact List.prefix_append ..

theorem Inv.published_run (h : Inv S (process clock) ({} : Engine B A) s) (hS : Admitted S)
    (h2 : 2 ≤ S.toNat) (hA : 0 < A) (hproper : ∀ msg ∈ s.incomingQueue.sent, Proper B msg) :
    ∃ done last, done ++ s.engineThread.inHand = s.incomingQueue.received ∧
      Engine.run (done.filterMap asked) = .ok (last : Engine B A) ∧ WellFormed s.engine ∧
      List.Forall₂ Carries (s.outgoingQueue.sent ++ s.engineThread.pending) last.outgoingQueue := by
  obtain ⟨done, out, hreceived, hserve, hout⟩ := h.served
  have hdone : ∀ msg ∈ done, Proper B msg := by
    intro msg hmsg
    apply hproper msg ((h.received_sent hS h2).subset _)
    rw [hreceived]
    exact List.mem_append_left _ hmsg
  obtain ⟨engine, out', last, hserve', hwell, hrun, hcarries⟩ := serve_run clock hA hdone
  rw [hserve] at hserve'
  cases hserve'
  exact ⟨done, last, hreceived.symm, hrun, hwell, by rwa [hout]⟩

/-- Every interleaving of the threads is sequential for the clients. -/
theorem reachable_sequential (hS : Admitted S) (h2 : 2 ≤ S.toNat) (hA : 0 < A)
    (hs : (machine S (process clock) ({} : Engine B A)).Reachable s)
    (hproper : ∀ msg ∈ s.incomingQueue.sent, Proper B msg) : s.Sequential S clock := by
  have h := Inv.reachable hS h2 hs
  obtain ⟨done, last, hdone, hrun, hwell, hcarries⟩ := h.published_run hS h2 hA hproper
  constructor
  case answers =>
    refine ⟨done, last, ?_, ?_, hrun, ?_, ?_⟩
    · exact .trans (hdone ▸ List.prefix_append ..) (h.received_sent hS h2)
    · have hle := length_sent_le h.incoming hS h2
      have hhand : s.engineThread.inHand.length ≤ 1 := by
        cases s.engineThread <;> simp [EngineThread.inHand]
      rw [← hdone, List.length_append] at hle
      omega
    · rw [← map_readMessage hcarries]
      exact ((h.sent_prefix hS h2).trans (List.prefix_append ..)).map _
    · have hle := length_sent_le h.outgoing hS h2
      have hhand : s.writerThread.inHand.length ≤ 1 := by
        cases s.writerThread <;> simp [WriterThread.inHand]
      have hlen := hcarries.length_eq
      rw [List.length_append] at hlen
      rw [h.written, List.length_append] at hle
      omega
  case wellFormed => exact hwell
  case running => exact h.running hS h2 hA hproper

def buyRequest : InboundMessage :=
  ⟨7, (Wire.enterRequest.build [.userRefNum 1, .side .B, .quantity 5, .price 1]).bytes⟩

/-- The order is received, enqueued, processed and answered. -/
def buyActs : List (Action InboundMessage Wire.OutboundMessage) :=
  .receive buyRequest :: List.replicate 5 .reader ++
    List.replicate 30 (.engine ⟨0, .replicate _ 0⟩) ++
    List.replicate 9 (.writer ⟨0, .replicate _ 0⟩)

theorem reachable_sequential_buy : ∃ s : Threads (Engine 2 2) InboundMessage Wire.OutboundMessage,
    s.sent.length = 1 ∧ s.Sequential 2 fun _ => 0 := by
  obtain ⟨s, hrun, hs⟩ : ∃ s, (machine 2 (process fun _ => 0) ({} : Engine 2 2)).run
      { engine := {} } buyActs = some s ∧ decide ((∀ msg ∈ s.incomingQueue.sent, Proper 2 msg) ∧
        s.sent.length = 1) = true := by
    apply (Option.any_eq_true _ _).mp
    decide +kernel
  obtain ⟨hproper, hsent⟩ := of_decide_eq_true hs
  exact ⟨s, hsent, reachable_sequential (by decide) (by decide) (by decide) ⟨buyActs, hrun⟩ hproper⟩

/-- Under every fair schedule, the clients read the answers of the sequential engine to all
requests received so far, whatever is received later. -/
theorem eventually_answered (hS : Admitted S) (h2 : 2 ≤ S.toNat) (hA : 0 < A)
    (hs : (machine S (process clock) ({} : Engine B A)).Reachable s)
    (hproper : ∀ msg ∈ s.incomingQueue.sent, Proper B msg)
    {sched : ℕ → Action InboundMessage Wire.OutboundMessage}
    (hsched : ∀ n msg, sched n = .receive msg → Proper B msg)
    (hfair : Machine.Fair Action.thread sched) :
    ∃ (last : Engine B A) (n : ℕ),
      Engine.run (s.incomingQueue.sent.filterMap asked) = .ok last ∧ ∀ m, n ≤ m →
        last.outgoingQueue.map some <+:
          ((machine S (process clock) {}).along s sched m).sent.map readMessage := by
  obtain ⟨engine, out, n, hserve, hn⟩ :=
    eventually_sent hS h2 (serves clock hA) hs hproper hsched hfair
  obtain ⟨engine', out', last, hserve', -, hrun, hcarries⟩ :=
    serve_run clock hA hproper
  rw [hserve] at hserve'
  cases hserve'
  refine ⟨last, n, hrun, fun m hm => ?_⟩
  rw [← map_readMessage hcarries]
  exact (hn m hm).map _

def takeTurns (n : ℕ) : Action InboundMessage Wire.OutboundMessage :=
  if n % 3 = 0 then .reader
  else if n % 3 = 1 then .engine ⟨0, .replicate _ 0⟩
  else .writer ⟨0, .replicate _ 0⟩

theorem takeTurns_fair : Machine.Fair Action.thread takeTurns := by
  intro i n
  cases i with
  | reader =>
    have hmod : (3 * n) % 3 = 0 := by omega
    exact ⟨3 * n, by omega, by simp [takeTurns, hmod, Action.thread]⟩
  | engine =>
    have hmod : (3 * n + 1) % 3 = 1 := by omega
    exact ⟨3 * n + 1, by omega, by simp [takeTurns, hmod, Action.thread]⟩
  | writer =>
    have hmod : (3 * n + 2) % 3 = 2 := by omega
    exact ⟨3 * n + 2, by omega, by simp [takeTurns, hmod, Action.thread]⟩

theorem eventually_answered_buy :
    ∃ s : Threads (Engine 2 2) InboundMessage Wire.OutboundMessage,
    s.incomingQueue.sent = [buyRequest] ∧ ∃ (last : Engine 2 2) (n : ℕ),
      Engine.run (s.incomingQueue.sent.filterMap asked) = .ok last ∧ ∀ m, n ≤ m →
        last.outgoingQueue.map some <+:
          ((machine 2 (process fun _ => 0) {}).along s takeTurns m).sent.map readMessage := by
  refine ⟨_, rfl, eventually_answered (by decide) (by decide) (by decide)
    ⟨[.receive buyRequest], rfl⟩ (by decide +kernel) ?_ takeTurns_fair⟩
  intro n msg hmsg
  unfold takeTurns at hmsg
  split_ifs at hmsg

end Threads

end LowLevel.Trading
