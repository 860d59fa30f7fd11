import LowLevel.Foundations.Progress
import LowLevel.Trading.Threads

/-! # Every message is answered

The three threads never hold each other up for good: a writer that finds
nothing, an engine that finds nothing or has no room, and a reader that has no
room wait for one another in this order only. The rank counts the steps left
until a number of answers is sent, and a fair schedule brings it to zero,
whatever is received in the meantime.
-/

namespace LowLevel.Queues.Spsc

variable {T : Type*} {S : UInt64} {s s' : Spsc T} {t : ℕ}

theorem Sound.sent_cases (h : Sound S s) : s.producer = .idle ∧ s.sent.length = s.published ∨
    (∃ pos, s.producer = .advance pos) ∧ s.sent.length = s.published ∨
    s.producer.made ≤ 3 ∧ s.sent.length = s.published + 1 := by
  obtain ⟨⟨turn, hinv⟩, -⟩ := h
  have hstands := hinv.stands
  cases hp : s.producer with
  | idle =>
    rw [hp] at hstands
    exact Or.inl ⟨rfl, by rw [published, hp, hstands.2]⟩
  | wait pos data =>
    rw [hp] at hstands
    refine Or.inr (Or.inr ⟨Nat.zero_le _, ?_⟩)
    rw [published, hp, hstands.2, List.length_append, List.length_singleton]
  | store w =>
    rw [hp] at hstands
    obtain ⟨n, hn, -⟩ := hinv.held hp
    refine Or.inr (Or.inr ⟨?_, ?_⟩)
    · cases hphase : w.phase <;> simp [Producer.made, hphase]
    · rw [published, hp, hstands.2, hn, Nat.add_sub_cancel]
  | advance pos =>
    rw [hp] at hstands
    exact Or.inr (Or.inl ⟨⟨pos, rfl⟩, by rw [published, hp, hstands.2]⟩)

/-- A producer that has not published a value is short of the steps that do so. -/
theorem Sound.producerSteps_lt (h : Sound S s) (hlt : s.published < t) :
    s.producerSteps < 6 * t + 4 := by
  unfold producerSteps
  rcases h.sent_cases with ⟨hp, hsent⟩ | ⟨⟨pos, hp⟩, hsent⟩ | ⟨hmade, hsent⟩
  · rw [hp, Producer.made]
    omega
  · rw [hp, Producer.made]
    omega
  · omega

theorem consumerSteps_lt (hlt : s.received.length < t) : s.consumerSteps < 6 * t := by
  have hmade : s.consumer.made ≤ 5 := by cases s.consumer <;> simp [Consumer.made]
  unfold consumerSteps
  omega

theorem Sound.not_starved {a : Action T} (h : Sound S s) (hS : Admitted S) (h2 : 2 ≤ S.toNat)
    (hstep : Spsc.step S s a = some s') (hconsumer : s'.consumer = s.consumer)
    (hreceived : s'.received = s.received) (hpublished : s.published ≤ s'.published)
    (hnot : ¬ Starved S s) : ¬ Starved S s' := by
  intro hstarved
  obtain ⟨pos, hc, -⟩ := id hstarved
  have hempty := ((h.step hS h2 hstep).starved_iff hS h2 hc).mp hstarved
  obtain ⟨⟨turn, hinv⟩, hshown⟩ := id h
  have hlag := hshown.lag
  rw [hconsumer] at hc
  apply hnot
  rw [h.starved_iff hS h2 hc]
  rw [hc] at hlag
  rw [hreceived] at hempty
  exact Nat.le_antisymm hlag (hempty ▸ hpublished)

end LowLevel.Queues.Spsc

namespace LowLevel.Trading

open Queues Machine

namespace Threads

variable {σ α β : Type*} {S : UInt64} {process : σ → α → Option (σ × List β)} {init : σ}
  {s s' : Threads σ α β} {k n : ℕ}

inductive Thread where
  | reader
  | engine
  | writer
  deriving DecidableEq

/-- The thread that makes a step. What is received is up to the surroundings. -/
def Action.thread : Action α β → Option Thread
  | .receive _ => none
  | .reader => some .reader
  | .engine _ => some .engine
  | .writer _ => some .writer

def WriterReady (S : UInt64) (s : Threads σ α β) : Prop :=
  s.writerThread = .dequeue → ¬ s.outgoingQueue.Starved S

def EngineReady (S : UInt64) (s : Threads σ α β) : Prop :=
  match s.engineThread with
  | .dequeue => ¬ s.incomingQueue.Starved S
  | .enqueue _ => ¬ s.outgoingQueue.Blocked S
  | _ => True

def Helpful (S : UInt64) (s : Threads σ α β) : Thread → Prop
  | .writer => s.WriterReady S
  | .engine => ¬ s.WriterReady S ∧ s.EngineReady S
  | .reader => ¬ s.WriterReady S ∧ ¬ s.EngineReady S

/-- The steps of the engine thread outside the queues: two for each message. -/
def engineSteps (s : Threads σ α β) : ℕ :=
  2 * s.incomingQueue.received.length + match s.engineThread with
    | .process _ => 0
    | .publish _ | .enqueue _ => 1
    | .dequeue => 2

/-- The steps left to receive `k` messages and send `n` answers. -/
def rank (k n : ℕ) (s : Threads σ α β) : ℕ :=
  if n ≤ s.sent.length then 0 else
    (6 * k + 4 - s.incomingQueue.producerSteps) + (6 * k - s.incomingQueue.consumerSteps) +
    (2 * k + 1 - s.engineSteps) + (6 * n + 4 - s.outgoingQueue.producerSteps) +
    (6 * n - s.outgoingQueue.consumerSteps) + (n - s.sent.length)

structure Forward (s s' : Threads σ α β) : Prop where
  incomingProducer : s.incomingQueue.producerSteps ≤ s'.incomingQueue.producerSteps
  incomingConsumer : s.incomingQueue.consumerSteps ≤ s'.incomingQueue.consumerSteps
  engine : s.engineSteps ≤ s'.engineSteps
  outgoingProducer : s.outgoingQueue.producerSteps ≤ s'.outgoingQueue.producerSteps
  outgoingConsumer : s.outgoingQueue.consumerSteps ≤ s'.outgoingQueue.consumerSteps
  sent : s.sent.length ≤ s'.sent.length

theorem sum_lt {a a' b b' c c' d d' e e' f f' : ℕ} (ha : a' ≤ a) (hb : b' ≤ b) (hc : c' ≤ c)
    (hd : d' ≤ d) (he : e' ≤ e) (hf : f' ≤ f)
    (hlt : a' < a ∨ b' < b ∨ c' < c ∨ d' < d ∨ e' < e ∨ f' < f) :
    a' + b' + c' + d' + e' + f' < a + b + c + d + e + f := by
  omega

theorem Forward.rank_le (h : Forward s s') : rank k n s' ≤ rank k n s := by
  have hsent := h.sent
  unfold rank
  split_ifs with h' hs
  · exact Nat.zero_le _
  · exact Nat.zero_le _
  · omega
  · have h₁ := Nat.sub_le_sub_left h.incomingProducer (6 * k + 4)
    have h₂ := Nat.sub_le_sub_left h.incomingConsumer (6 * k)
    have h₃ := Nat.sub_le_sub_left h.engine (2 * k + 1)
    have h₄ := Nat.sub_le_sub_left h.outgoingProducer (6 * n + 4)
    have h₅ := Nat.sub_le_sub_left h.outgoingConsumer (6 * n)
    have h₆ := Nat.sub_le_sub_left hsent n
    exact Nat.add_le_add (Nat.add_le_add (Nat.add_le_add (Nat.add_le_add (Nat.add_le_add h₁ h₂) h₃)
      h₄) h₅) h₆

theorem Forward.rank_lt (h : Forward s s') (hn : s.sent.length < n)
    (hup : s.incomingQueue.producerSteps < s'.incomingQueue.producerSteps ∧
        s.incomingQueue.producerSteps < 6 * k + 4 ∨
      s.incomingQueue.consumerSteps < s'.incomingQueue.consumerSteps ∧
        s.incomingQueue.consumerSteps < 6 * k ∨
      s.engineSteps < s'.engineSteps ∧ s.engineSteps < 2 * k + 1 ∨
      s.outgoingQueue.producerSteps < s'.outgoingQueue.producerSteps ∧
        s.outgoingQueue.producerSteps < 6 * n + 4 ∨
      s.outgoingQueue.consumerSteps < s'.outgoingQueue.consumerSteps ∧
        s.outgoingQueue.consumerSteps < 6 * n ∨
      s.sent.length < s'.sent.length) : rank k n s' < rank k n s := by
  unfold rank
  rw [if_neg (Nat.not_le_of_lt hn)]
  split_ifs with h'
  · exact Nat.lt_of_lt_of_le (Nat.sub_pos_of_lt hn) (Nat.le_add_left ..)
  · apply sum_lt (Nat.sub_le_sub_left h.incomingProducer _)
      (Nat.sub_le_sub_left h.incomingConsumer _) (Nat.sub_le_sub_left h.engine _)
      (Nat.sub_le_sub_left h.outgoingProducer _) (Nat.sub_le_sub_left h.outgoingConsumer _)
      (Nat.sub_le_sub_left h.sent _)
    have hsub : ∀ {x y m : ℕ}, x < y ∧ x < m → m - y < m - x := fun hxy =>
      Nat.sub_lt_sub_left hxy.2 hxy.1
    exact hup.imp hsub (.imp hsub (.imp hsub (.imp hsub (.imp hsub fun hlt => hsub ⟨hlt, hn⟩))))

theorem enqueue_producerSteps {T : Type*} {q q' : Spsc T} {data : T}
    (h : Spsc.step S q (.enqueue data) = some q') : q'.producerSteps = q.producerSteps + 1 := by
  obtain ⟨hidle, rfl⟩ := Spsc.step_enqueue h
  simp only [Spsc.producerSteps, hidle, Spsc.Producer.made, List.length_append,
    List.length_singleton]
  omega

/-- What counts as a move of the engine, by what its thread is at. -/
structure EngineMoved (s s' : Threads σ α β) : Prop where
  forward : Forward s s'
  up : s.engineThread = .dequeue ∧
      s.incomingQueue.consumerSteps < s'.incomingQueue.consumerSteps ∨
    (s.engineThread = .publish [] ∨ ∃ msg, s.engineThread = .process msg) ∧
      s.engineSteps < s'.engineSteps ∨
    s.outgoingQueue.producerSteps < s'.outgoingQueue.producerSteps

theorem engineSteps_returned (hthread : s.engineThread = .dequeue)
    (hreceived : s'.incomingQueue.received =
      s.incomingQueue.received ++ s.incomingQueue.consumer.returns)
    (hthread' : s'.engineThread = .returned s.incomingQueue.consumer) :
    s'.engineSteps = s.engineSteps := by
  unfold engineSteps
  rw [hthread, hthread', hreceived]
  cases s.incomingQueue.consumer <;> simp [EngineThread.returned, Consumer.returns]
  omega

theorem engineStep_dequeue {junk : α} (hthread : s.engineThread = .dequeue)
    (hstep : s.engineStep S process junk = some s') :
    s.incomingQueue.Starved S ∧ s' = s ∨ ¬ s.incomingQueue.Starved S ∧ EngineMoved s s' := by
  unfold engineStep at hstep
  rw [hthread] at hstep
  obtain ⟨q, hq, rfl⟩ := Option.map_eq_some_iff.mp hstep
  obtain ⟨hsent, hprod, hrec, ⟨hstarved, rfl⟩ | ⟨hnot, hsteps⟩⟩ := Spsc.step_consumer hq
  · refine Or.inl ⟨hstarved, ?_⟩
    obtain ⟨pos, hc, -⟩ := hstarved
    have hsame : .returned s.incomingQueue.consumer = s.engineThread := by
      rw [hc, hthread]
      rfl
    rw [hsame]
  · refine Or.inr ⟨hnot, ⟨⟨?_, ?_, ?_, ?_, ?_, ?_⟩, Or.inl ⟨hthread, ?_⟩⟩⟩
    · exact Nat.le_of_eq (by simp only [Spsc.producerSteps, hsent, hprod])
    · exact Nat.le_of_lt (by rw [hsteps]; exact Nat.lt_succ_self _)
    · exact Nat.le_of_eq (engineSteps_returned hthread hrec rfl).symm
    · exact Nat.le_refl _
    · exact Nat.le_refl _
    · exact Nat.le_refl _
    · rw [hsteps]
      exact Nat.lt_succ_self _

theorem engineStep_enqueue {junk : α} {pending : List β}
    (hthread : s.engineThread = .enqueue pending)
    (hstep : s.engineStep S process junk = some s') :
    s.outgoingQueue.Blocked S ∧ s' = s ∨ ¬ s.outgoingQueue.Blocked S ∧ EngineMoved s s' := by
  unfold engineStep at hstep
  rw [hthread] at hstep
  obtain ⟨q, hq, rfl⟩ := Option.map_eq_some_iff.mp hstep
  obtain ⟨-, hsent, hrec, hcons, -, ⟨hblocked, rfl⟩ | ⟨hnot, hsteps⟩⟩ := Spsc.step_producer hq
  · refine Or.inl ⟨hblocked, ?_⟩
    obtain ⟨pos, data, hp, -⟩ := hblocked
    have hsame : .enqueued pending s.outgoingQueue.producer = s.engineThread := by
      rw [hp, hthread]
      rfl
    rw [hsame]
  · refine Or.inr ⟨hnot, ⟨⟨?_, ?_, ?_, ?_, ?_, ?_⟩, Or.inr (Or.inr ?_)⟩⟩
    · exact Nat.le_refl _
    · exact Nat.le_refl _
    · refine Nat.le_of_eq ?_
      cases q.producer <;> simp [engineSteps, hthread, EngineThread.enqueued]
    · exact Nat.le_of_lt (hsteps ▸ Nat.lt_succ_self _)
    · exact Nat.le_of_eq (by simp only [Spsc.consumerSteps, hrec, hcons])
    · exact Nat.le_refl _
    · exact hsteps ▸ Nat.lt_succ_self _

/-- The engine moves on exactly if it is ready. -/
theorem engineStep_cases {junk : α} (hstep : s.engineStep S process junk = some s') :
    ¬ s.EngineReady S ∧ s' = s ∨ s.EngineReady S ∧ EngineMoved s s' := by
  unfold EngineReady
  cases hthread : s.engineThread with
  | dequeue =>
    rcases engineStep_dequeue hthread hstep with ⟨hstarved, heq⟩ | hmoved
    · exact Or.inl ⟨not_not_intro hstarved, heq⟩
    · exact Or.inr hmoved
  | process msg =>
    unfold engineStep at hstep
    rw [hthread] at hstep
    obtain ⟨result, -, rfl⟩ := Option.map_eq_some_iff.mp hstep
    refine Or.inr ⟨trivial, ⟨?_, Or.inr (Or.inl ⟨Or.inr ⟨msg, hthread⟩, ?_⟩)⟩⟩
    · constructor <;> simp [engineSteps, hthread]
    · simp [engineSteps, hthread]
  | publish pending =>
    unfold engineStep at hstep
    rw [hthread] at hstep
    cases pending with
    | nil =>
      obtain rfl := Option.some.inj hstep
      refine Or.inr ⟨trivial, ⟨?_, Or.inr (Or.inl ⟨Or.inl hthread, ?_⟩)⟩⟩
      · constructor <;> simp [engineSteps, hthread]
      · simp [engineSteps, hthread]
    | cons answer pending =>
      obtain ⟨q, hq, rfl⟩ := Option.map_eq_some_iff.mp hstep
      have hsteps := enqueue_producerSteps hq
      obtain ⟨-, rfl⟩ := Spsc.step_enqueue hq
      refine Or.inr ⟨trivial, ⟨⟨?_, ?_, ?_, ?_, ?_, ?_⟩, Or.inr (Or.inr ?_)⟩⟩
      · exact Nat.le_refl _
      · exact Nat.le_refl _
      · simp [engineSteps, hthread]
      · exact Nat.le_of_lt (hsteps ▸ Nat.lt_succ_self _)
      · exact Nat.le_refl _
      · exact Nat.le_refl _
      · exact hsteps ▸ Nat.lt_succ_self _
  | enqueue pending =>
    rcases engineStep_enqueue hthread hstep with ⟨hblocked, heq⟩ | hmoved
    · exact Or.inl ⟨not_not_intro hblocked, heq⟩
    · exact Or.inr hmoved

/-- The writer moves on exactly if it is ready. -/
theorem writerStep_cases {junk : β} (hstep : s.writerStep S junk = some s') :
    ¬ s.WriterReady S ∧ s' = s ∨ s.WriterReady S ∧ Forward s s' ∧
      (s.writerThread = .dequeue ∧
          s.outgoingQueue.consumerSteps < s'.outgoingQueue.consumerSteps ∨
        s.sent.length < s'.sent.length) := by
  unfold writerStep at hstep
  unfold WriterReady
  cases hthread : s.writerThread with
  | dequeue =>
    rw [hthread] at hstep
    obtain ⟨q, hq, rfl⟩ := Option.map_eq_some_iff.mp hstep
    obtain ⟨hsent, hprod, hrec, ⟨hstarved, rfl⟩ | ⟨hnot, hsteps⟩⟩ := Spsc.step_consumer hq
    · refine Or.inl ⟨fun h => h rfl hstarved, ?_⟩
      obtain ⟨pos, hc, -⟩ := hstarved
      have hsame : .returned s.outgoingQueue.consumer = s.writerThread := by
        rw [hc, hthread]
        rfl
      rw [hsame]
    · refine Or.inr ⟨fun _ => hnot, ⟨?_, ?_, ?_, ?_, ?_, ?_⟩, Or.inl ⟨rfl, ?_⟩⟩
      · exact Nat.le_refl _
      · exact Nat.le_refl _
      · exact Nat.le_refl _
      · exact Nat.le_of_eq (by simp only [Spsc.producerSteps, hsent, hprod])
      · exact Nat.le_of_lt (hsteps ▸ Nat.lt_succ_self _)
      · exact Nat.le_refl _
      · exact hsteps ▸ Nat.lt_succ_self _
  | send msg =>
    rw [hthread] at hstep
    obtain rfl := Option.some.inj hstep
    refine Or.inr ⟨by rintro ⟨⟩, ?_, Or.inr ?_⟩
    · constructor <;> simp [engineSteps]
    · simp

theorem readerStep_cases {a : Action α β} (ha : a = .reader ∨ ∃ msg, a = .receive msg)
    (hstep : s.step S process a = some s') : ∃ q, s' = { s with incomingQueue := q } ∧
      q.received = s.incomingQueue.received ∧ q.consumer = s.incomingQueue.consumer ∧
      s.incomingQueue.published ≤ q.published ∧ s.incomingQueue.sent <+: q.sent ∧
      s.incomingQueue.producerSteps ≤ q.producerSteps := by
  rcases ha with rfl | ⟨msg, rfl⟩
  · obtain ⟨q, hq, rfl⟩ := Option.map_eq_some_iff.mp hstep
    obtain ⟨-, hsent, hrec, hcons, hpub, hmove⟩ := Spsc.step_producer hq
    refine ⟨q, rfl, hrec, hcons, hpub, hsent ▸ List.prefix_refl _, ?_⟩
    rcases hmove with ⟨-, rfl⟩ | ⟨-, hsteps⟩
    · exact Nat.le_refl _
    · omega
  · obtain ⟨q, hq, rfl⟩ := Option.map_eq_some_iff.mp hstep
    have hsteps := enqueue_producerSteps hq
    obtain ⟨hidle, rfl⟩ := Spsc.step_enqueue hq
    refine ⟨_, rfl, rfl, rfl, ?_, List.prefix_append .., by omega⟩
    simp [Spsc.published, hidle]

theorem forward_incoming {q : Spsc α} (hrec : q.received = s.incomingQueue.received)
    (hcons : q.consumer = s.incomingQueue.consumer)
    (hsteps : s.incomingQueue.producerSteps ≤ q.producerSteps) :
    Forward s { s with incomingQueue := q } := by
  constructor
  case incomingProducer => exact hsteps
  case incomingConsumer => exact Nat.le_of_eq (by simp only [Spsc.consumerSteps, hrec, hcons])
  case engine => exact Nat.le_of_eq (by simp only [engineSteps, hrec])
  case outgoingProducer => exact Nat.le_refl _
  case outgoingConsumer => exact Nat.le_refl _
  case sent => exact Nat.le_refl _

def Action.received : Action α β → List α
  | .receive msg => [msg]
  | _ => []

theorem step_sent {a : Action α β} (hstep : s.step S process a = some s') :
    s'.incomingQueue.sent = s.incomingQueue.sent ++ a.received := by
  cases a with
  | receive msg =>
    obtain ⟨q, hq, rfl⟩ := Option.map_eq_some_iff.mp hstep
    obtain ⟨-, rfl⟩ := Spsc.step_enqueue hq
    rfl
  | reader =>
    obtain ⟨q, hq, rfl⟩ := Option.map_eq_some_iff.mp hstep
    obtain ⟨-, hsent, -⟩ := Spsc.step_producer hq
    exact hsent.trans (List.append_nil _).symm
  | engine junk =>
    refine Eq.trans ?_ (List.append_nil _).symm
    simp only [step, engineStep] at hstep
    split at hstep
    · obtain ⟨q, hq, rfl⟩ := Option.map_eq_some_iff.mp hstep
      exact (Spsc.step_consumer hq).1
    · obtain ⟨result, -, rfl⟩ := Option.map_eq_some_iff.mp hstep
      rfl
    · obtain rfl := Option.some.inj hstep
      rfl
    · obtain ⟨q, -, rfl⟩ := Option.map_eq_some_iff.mp hstep
      rfl
    · obtain ⟨q, -, rfl⟩ := Option.map_eq_some_iff.mp hstep
      rfl
  | writer junk =>
    refine Eq.trans ?_ (List.append_nil _).symm
    simp only [step, writerStep] at hstep
    split at hstep
    · obtain ⟨q, -, rfl⟩ := Option.map_eq_some_iff.mp hstep
      rfl
    · obtain rfl := Option.some.inj hstep
      rfl

section Goal

variable {Ok : α → Prop} {Good : σ → Prop} {msgs : List α} {last : σ} {out : List β}

/-- The engine answers every proper message and is ready for the next one. -/
structure Serves (process : σ → α → Option (σ × List β)) (init : σ) (Ok : α → Prop)
    (Good : σ → Prop) : Prop where
  init : Good init
  step : ∀ engine msg, Good engine → Ok msg →
    ∃ engine' answers, process engine msg = some (engine', answers) ∧ Good engine'

theorem Serves.serve {engine : σ} (h : Serves process init Ok Good) (hgood : Good engine)
    (hok : ∀ msg ∈ msgs, Ok msg) :
    ∃ engine' out, serve process engine msgs = some (engine', out) ∧ Good engine' := by
  induction msgs generalizing engine with
  | nil => exact ⟨engine, [], rfl, hgood⟩
  | cons msg msgs ih =>
    obtain ⟨engine₁, answers, hprocess, hgood₁⟩ :=
      h.step engine msg hgood (hok msg (List.mem_cons_self ..))
    obtain ⟨engine', rest, hserve, hgood'⟩ :=
      ih hgood₁ fun m hm => hok m (List.mem_cons_of_mem _ hm)
    refine ⟨engine', answers ++ rest, ?_, hgood'⟩
    simp only [Threads.serve, hprocess, hserve, Option.bind_eq_bind, Option.bind_some]
    rfl

/-- The state of the threads on the way to the answers to `msgs`. -/
structure Towards (S : UInt64) (process : σ → α → Option (σ × List β)) (init : σ) (Ok : α → Prop)
    (msgs : List α) (s : Threads σ α β) : Prop where
  inv : Inv S process init s
  begun : msgs <+: s.incomingQueue.sent
  ok : ∀ msg ∈ s.incomingQueue.sent, Ok msg

theorem Inv.received_sent (h : Inv S process init s) (hS : Admitted S) (h2 : 2 ≤ S.toNat) :
    s.incomingQueue.received <+: s.incomingQueue.sent := by
  obtain ⟨⟨turn, hinv⟩, -⟩ := h.incoming
  exact (hinv.fifo hS h2).order

theorem Towards.behind (h : Towards S process init Ok msgs s) (hS : Admitted S)
    (h2 : 2 ≤ S.toNat) (hout : serve process init msgs = some (last, out)) {done : List α}
    {answers : List β} {engine : σ} (hdone : done <+: s.incomingQueue.received)
    (hserve : serve process init done = some (engine, answers))
    (hlt : answers.length < out.length) : done.length < msgs.length := by
  by_contra hge
  have hle : msgs <+: done := List.prefix_of_prefix_length_le h.begun
    (hdone.trans (h.inv.received_sent hS h2)) (Nat.le_of_not_lt hge)
  have hlen := (serve_mono hout hle hserve).length_le
  omega

theorem Towards.step {a : Action α β} (h : Towards S process init Ok msgs s) (hS : Admitted S)
    (h2 : 2 ≤ S.toNat) (hok : ∀ msg, a = .receive msg → Ok msg)
    (hstep : s.step S process a = some s') : Towards S process init Ok msgs s' := by
  have hsent := step_sent hstep
  refine ⟨h.inv.step hS h2 hstep, ?_, ?_⟩
  · rw [hsent]
    exact h.begun.trans (List.prefix_append ..)
  · rw [hsent]
    intro msg hmsg
    rcases List.mem_append.mp hmsg with hmsg | hmsg
    · exact h.ok msg hmsg
    · cases a with
      | receive m =>
        obtain rfl := List.mem_singleton.mp hmsg
        exact hok msg rfl
      | _ => cases hmsg

theorem Towards.starved (h : Towards S process init Ok msgs s) (hS : Admitted S)
    (h2 : 2 ≤ S.toNat) (hnot : ¬ s.WriterReady S) :
    s.writerThread = .dequeue ∧ s.outgoingQueue.Starved S ∧
      s.outgoingQueue.published = s.sent.length := by
  unfold WriterReady at hnot
  obtain ⟨hthread, hstarved⟩ := Classical.not_imp.mp hnot
  have hstarved := Classical.not_not.mp hstarved
  obtain ⟨pos, hc, -⟩ := id hstarved
  have hempty := (h.inv.outgoing.starved_iff hS h2 hc).mp hstarved
  have hwritten := h.inv.written
  rw [hthread] at hwritten
  refine ⟨hthread, hstarved, ?_⟩
  rw [← hempty, hwritten]
  exact congrArg List.length (List.append_nil s.sent)

/-- Answers that are not in the hand of the engine were published, if it is not inside
`enqueue`. -/
theorem Inv.published (h : Inv S process init s) (hcall : ¬ s.engineThread.Enqueuing) :
    s.outgoingQueue.producer = .idle ∧
      s.outgoingQueue.sent.length = s.outgoingQueue.published := by
  have hidle : s.outgoingQueue.producer = .idle := by
    by_contra hne
    exact hcall (h.calling.mpr hne)
  refine ⟨hidle, ?_⟩
  rcases h.outgoing.sent_cases with ⟨-, hsent⟩ | ⟨⟨pos, hp⟩, -⟩ | ⟨hmade, -⟩
  · exact hsent
  · rw [hidle] at hp
    cases hp
  · rw [hidle, Spsc.Producer.made] at hmade
    omega

theorem Towards.writer_helps {junk : β} (h : Towards S process init Ok msgs s)
    (hlt : s.sent.length < n) (hready : s.WriterReady S) :
    ∃ s', s.step S process (.writer junk) = some s' ∧ rank k n s' < rank k n s := by
  obtain ⟨s', hstep⟩ : ∃ s', s.writerStep S junk = some s' := by
    unfold writerStep
    cases s.writerThread <;> exact ⟨_, rfl⟩
  refine ⟨s', hstep, ?_⟩
  rcases writerStep_cases hstep with ⟨hnot, -⟩ | ⟨-, hforward, hup⟩
  · exact absurd hready hnot
  · apply hforward.rank_lt hlt
    rcases hup with ⟨hthread, hup⟩ | hup
    · have hwritten := h.inv.written
      rw [hthread] at hwritten
      have hlen : s.outgoingQueue.received.length < n := by
        rw [hwritten]
        simpa [WriterThread.inHand] using hlt
      exact Or.inr (Or.inr (Or.inr (Or.inr (Or.inl ⟨hup, Spsc.consumerSteps_lt hlen⟩))))
    · exact Or.inr (Or.inr (Or.inr (Or.inr (Or.inr hup))))

theorem Towards.exists_engineStep (junk : α) (h : Towards S process init Ok msgs s)
    (hS : Admitted S) (h2 : 2 ≤ S.toNat) (hserves : Serves process init Ok Good) :
    ∃ s', s.engineStep S process junk = some s' := by
  unfold engineStep
  cases hthread : s.engineThread with
  | dequeue => exact ⟨_, rfl⟩
  | process msg =>
    obtain ⟨done, answers, hreceived, hserve, -⟩ := h.inv.served
    rw [hthread] at hreceived
    have hok : ∀ m ∈ s.incomingQueue.received, Ok m := fun m hm =>
      h.ok m ((h.inv.received_sent hS h2).subset hm)
    rw [hreceived] at hok
    obtain ⟨engine, answers', hserve', hgood⟩ := hserves.serve hserves.init fun m hm =>
      hok m (List.mem_append_left _ hm)
    rw [hserve] at hserve'
    cases hserve'
    obtain ⟨engine', result, hprocess, -⟩ := hserves.step _ msg hgood
      (hok msg (List.mem_append_right _ (List.mem_singleton_self msg)))
    simp only [hprocess]
    exact ⟨_, rfl⟩
  | publish pending =>
    cases pending with
    | nil => exact ⟨_, rfl⟩
    | cons answer pending =>
      obtain ⟨hidle, -⟩ := h.inv.published (by rw [hthread]; exact id)
      simp only [Spsc.step, hidle]
      exact ⟨_, rfl⟩
  | enqueue pending =>
    have hne := h.inv.calling.mp (by rw [hthread]; exact trivial)
    obtain ⟨q, hq⟩ := Spsc.exists_step_producer (S := S) hne
    simp only [hq]
    exact ⟨_, rfl⟩

theorem Towards.missing (h : Towards S process init Ok msgs s) (hS : Admitted S)
    (h2 : 2 ≤ S.toNat) (hout : serve process init msgs = some (last, out))
    (hlt : s.sent.length < out.length) (hwriter : ¬ s.WriterReady S)
    (hcall : ¬ s.engineThread.Enqueuing) (hpending : s.engineThread.pending = []) :
    s.incomingQueue.received.length < msgs.length + s.engineThread.inHand.length := by
  obtain ⟨done, answers, hreceived, hserve, hanswers⟩ := h.inv.served
  obtain ⟨-, -, hsent⟩ := h.starved hS h2 hwriter
  obtain ⟨-, hpublished⟩ := h.inv.published hcall
  rw [hpending, List.append_nil] at hanswers
  have hbehind := h.behind hS h2 hout (hreceived ▸ List.prefix_append ..) hserve
    (by rw [← hanswers, hpublished, hsent]; exact hlt)
  rw [hreceived, List.length_append]
  omega

theorem Towards.engine_helps {junk : α} (h : Towards S process init Ok msgs s)
    (hS : Admitted S) (h2 : 2 ≤ S.toNat) (hserves : Serves process init Ok Good)
    (hout : serve process init msgs = some (last, out)) (hlt : s.sent.length < out.length)
    (hwriter : ¬ s.WriterReady S) (hready : s.EngineReady S) :
    ∃ s', s.step S process (.engine junk) = some s' ∧
      rank msgs.length out.length s' < rank msgs.length out.length s := by
  obtain ⟨s', hstep⟩ := h.exists_engineStep junk hS h2 hserves
  obtain ⟨-, -, hsent⟩ := h.starved hS h2 hwriter
  refine ⟨s', hstep, ?_⟩
  rcases engineStep_cases hstep with ⟨hnot, -⟩ | ⟨-, hforward, hup⟩
  · exact absurd hready hnot
  · apply hforward.rank_lt hlt
    rcases hup with ⟨hthread, hup⟩ | ⟨hthread, hup⟩ | hup
    · have hmissing := h.missing hS h2 hout hlt hwriter (by rw [hthread]; exact id)
        (by rw [hthread]; rfl)
      rw [hthread] at hmissing
      exact Or.inr (Or.inl ⟨hup, Spsc.consumerSteps_lt hmissing⟩)
    · refine Or.inr (Or.inr (Or.inl ⟨hup, ?_⟩))
      rcases hthread with hthread | ⟨msg, hthread⟩
      · have hmissing := h.missing hS h2 hout hlt hwriter (by rw [hthread]; exact id)
          (by rw [hthread]; rfl)
        simp only [engineSteps, hthread, EngineThread.inHand, List.length_nil] at hmissing ⊢
        omega
      · have hmissing := h.missing hS h2 hout hlt hwriter (by rw [hthread]; exact id)
          (by rw [hthread]; rfl)
        simp only [engineSteps, hthread, EngineThread.inHand, List.length_singleton] at hmissing ⊢
        omega
    · have hsteps := h.inv.outgoing.producerSteps_lt (hsent ▸ hlt)
      exact Or.inr (Or.inr (Or.inr (Or.inl ⟨hup, hsteps⟩)))

theorem Towards.reader_helps (h : Towards S process init Ok msgs s) (hS : Admitted S)
    (h2 : 2 ≤ S.toNat) (hout : serve process init msgs = some (last, out))
    (hlt : s.sent.length < out.length) (hwriter : ¬ s.WriterReady S)
    (hengine : ¬ s.EngineReady S) :
    ∃ s', s.step S process .reader = some s' ∧
      rank msgs.length out.length s' < rank msgs.length out.length s := by
  obtain ⟨-, hstarved, -⟩ := h.starved hS h2 hwriter
  unfold EngineReady at hengine
  cases hthread : s.engineThread with
  | process msg =>
    rw [hthread] at hengine
    exact absurd trivial hengine
  | publish pending =>
    rw [hthread] at hengine
    exact absurd trivial hengine
  | enqueue pending =>
    -- the writer waits for an answer, so there is room for one
    rw [hthread] at hengine
    exact absurd (h.inv.outgoing.not_blocked hS h2 hstarved) hengine
  | dequeue =>
    rw [hthread] at hengine
    have hempty := Classical.not_not.mp hengine
    have hmissing := h.missing hS h2 hout hlt hwriter (by rw [hthread]; exact id)
      (by rw [hthread]; rfl)
    rw [hthread] at hmissing
    obtain ⟨pos, hc, -⟩ := id hempty
    have hreceived := (h.inv.incoming.starved_iff hS h2 hc).mp hempty
    have hpublished : s.incomingQueue.published < msgs.length := hreceived ▸ hmissing
    have hbegun := h.begun.length_le
    have hne : s.incomingQueue.producer ≠ .idle := by
      intro hidle
      rcases h.inv.incoming.sent_cases with ⟨-, hsent⟩ | ⟨⟨pos, hp⟩, -⟩ | ⟨hmade, -⟩
      · omega
      · rw [hidle] at hp
        cases hp
      · rw [hidle, Spsc.Producer.made] at hmade
        omega
    obtain ⟨q, hq⟩ := Spsc.exists_step_producer (S := S) hne
    obtain ⟨-, -, hrec, hcons, -, ⟨hblocked, -⟩ | ⟨-, hsteps⟩⟩ := Spsc.step_producer hq
    · exact absurd hblocked (h.inv.incoming.not_blocked hS h2 hempty)
    · refine ⟨_, Option.map_eq_some_iff.mpr ⟨q, hq, rfl⟩, ?_⟩
      apply (forward_incoming hrec hcons (by omega)).rank_lt hlt
      exact Or.inl ⟨hsteps ▸ Nat.lt_succ_self _, h.inv.incoming.producerSteps_lt hpublished⟩

theorem Towards.engineReady_reader {a : Action α β} (h : Towards S process init Ok msgs s)
    (hS : Admitted S) (h2 : 2 ≤ S.toNat) (ha : a = .reader ∨ ∃ msg, a = .receive msg)
    (hstep : s.step S process a = some s') (hready : s.EngineReady S) : s'.EngineReady S := by
  unfold EngineReady at hready
  have hnot : ∀ {b : Spsc.Action α} {q : Spsc α},
      Spsc.step S s.incomingQueue b = some q → q.received = s.incomingQueue.received →
      q.consumer = s.incomingQueue.consumer → s.incomingQueue.published ≤ q.published →
      EngineReady S ({ s with incomingQueue := q } : Threads σ α β) := by
    intro b q hq hrec hcons hpub
    unfold EngineReady
    cases hthread : s.engineThread with
    | dequeue =>
      rw [hthread] at hready
      exact h.inv.incoming.not_starved hS h2 hq hcons hrec hpub hready
    | _ =>
      rw [hthread] at hready
      exact hready
  rcases ha with rfl | ⟨msg, rfl⟩
  · obtain ⟨q, hq, rfl⟩ := Option.map_eq_some_iff.mp hstep
    obtain ⟨-, -, hrec, hcons, hpub, -⟩ := Spsc.step_producer hq
    exact hnot hq hrec hcons hpub
  · obtain ⟨q, hq, rfl⟩ := Option.map_eq_some_iff.mp hstep
    obtain ⟨hidle, hq'⟩ := Spsc.step_enqueue hq
    refine hnot hq (by rw [hq']) (by rw [hq']) (by rw [hq']; simp [Spsc.published, hidle])

theorem Towards.writerReady_engine {junk : α} (h : Towards S process init Ok msgs s)
    (hS : Admitted S) (h2 : 2 ≤ S.toNat) (hstep : s.engineStep S process junk = some s')
    (hready : s.WriterReady S) : s'.WriterReady S := by
  unfold engineStep at hstep
  cases hthread : s.engineThread with
  | dequeue =>
    rw [hthread] at hstep
    obtain ⟨q, -, rfl⟩ := Option.map_eq_some_iff.mp hstep
    exact hready
  | process msg =>
    rw [hthread] at hstep
    obtain ⟨result, -, rfl⟩ := Option.map_eq_some_iff.mp hstep
    exact hready
  | publish pending =>
    rw [hthread] at hstep
    cases pending with
    | nil =>
      obtain rfl := Option.some.inj hstep
      exact hready
    | cons answer pending =>
      obtain ⟨q, hq, rfl⟩ := Option.map_eq_some_iff.mp hstep
      rintro hwriter hstarved
      obtain ⟨hidle, rfl⟩ := Spsc.step_enqueue hq
      exact hready hwriter hstarved
  | enqueue pending =>
    rw [hthread] at hstep
    obtain ⟨q, hq, rfl⟩ := Option.map_eq_some_iff.mp hstep
    obtain ⟨-, -, hrec, hcons, hpub, -⟩ := Spsc.step_producer hq
    rintro hwriter
    exact h.inv.outgoing.not_starved hS h2 hq hcons hrec hpub (hready hwriter)

theorem lt_of_rank_pos (h : 0 < rank k n s) : s.sent.length < n := by
  by_contra hge
  rw [rank, if_pos (Nat.le_of_not_lt hge)] at h
  exact Nat.lt_irrefl 0 h

theorem le_sent_of_rank (h : rank k n s = 0) : n ≤ s.sent.length := by
  by_contra hlt
  rw [rank, if_neg hlt] at h
  omega

/-- Enough messages sent are the answers, since the writer sends nothing else. -/
theorem Towards.out_prefix (h : Towards S process init Ok msgs s) (hS : Admitted S)
    (h2 : 2 ≤ S.toNat) (hout : serve process init msgs = some (last, out))
    (hle : out.length ≤ s.sent.length) : out <+: s.sent := by
  obtain ⟨done, answers, hreceived, hserve, hanswers⟩ := h.inv.served
  have hsent : s.sent <+: answers := by
    obtain ⟨⟨turn, hinv⟩, -⟩ := h.inv.outgoing
    refine .trans ?_ (hanswers ▸ List.prefix_append ..)
    refine .trans ?_ (hinv.fifo hS h2).order
    rw [h.inv.written]
    exact List.prefix_append ..
  have hdone : done <+: s.incomingQueue.sent :=
    .trans (hreceived ▸ List.prefix_append ..) (h.inv.received_sent hS h2)
  rcases Nat.le_total msgs.length done.length with hlen | hlen
  · have hmono := serve_mono hout (List.prefix_of_prefix_length_le h.begun hdone hlen) hserve
    exact List.prefix_of_prefix_length_le hmono hsent hle
  · have hmono := serve_mono hserve (List.prefix_of_prefix_length_le hdone h.begun hlen) hout
    rw [(hsent.trans hmono).eq_of_length_le hle]

theorem rank_le_of_step {a : Action α β} (hstep : s.step S process a = some s') :
    rank k n s' ≤ rank k n s := by
  cases a with
  | receive msg =>
    obtain ⟨q, rfl, hrec, hcons, -, -, hsteps⟩ := readerStep_cases (Or.inr ⟨msg, rfl⟩) hstep
    exact (forward_incoming hrec hcons hsteps).rank_le
  | reader =>
    obtain ⟨q, rfl, hrec, hcons, -, -, hsteps⟩ := readerStep_cases (Or.inl rfl) hstep
    exact (forward_incoming hrec hcons hsteps).rank_le
  | engine junk =>
    rcases engineStep_cases hstep with ⟨-, rfl⟩ | ⟨-, hmoved⟩
    · exact Nat.le_refl _
    · exact hmoved.forward.rank_le
  | writer junk =>
    rcases writerStep_cases hstep with ⟨-, rfl⟩ | ⟨-, hforward, -⟩
    · exact Nat.le_refl _
    · exact hforward.rank_le

section Stays

variable {i : Thread}

theorem writerReady_incoming {a : Action α β} (ha : a = .reader ∨ ∃ msg, a = .receive msg)
    (hstep : s.step S process a = some s') : s'.WriterReady S ↔ s.WriterReady S := by
  obtain ⟨q, rfl, -⟩ := readerStep_cases ha hstep
  exact Iff.rfl

theorem Towards.stays_receive {msg : α} (h : Towards S process init Ok msgs s) (hS : Admitted S)
    (h2 : 2 ≤ S.toNat) (hi : Helpful S s i) (hstep : s.step S process (.receive msg) = some s') :
    Helpful S s' i := by
  have hwriter := writerReady_incoming (Or.inr ⟨msg, rfl⟩) hstep
  cases i with
  | writer => exact hwriter.mpr hi
  | engine =>
    exact ⟨mt hwriter.mp hi.1, h.engineReady_reader hS h2 (Or.inr ⟨msg, rfl⟩) hstep hi.2⟩
  | reader =>
    refine ⟨mt hwriter.mp hi.1, fun hready => hi.2 ?_⟩
    obtain ⟨q, hq, rfl⟩ := Option.map_eq_some_iff.mp hstep
    obtain ⟨-, rfl⟩ := Spsc.step_enqueue hq
    exact hready

theorem Towards.stays_reader (h : Towards S process init Ok msgs s) (hS : Admitted S)
    (h2 : 2 ≤ S.toNat) (hi : Helpful S s i) (hne : i ≠ .reader)
    (hstep : s.step S process .reader = some s') : Helpful S s' i := by
  have hwriter := writerReady_incoming (Or.inl rfl) hstep
  cases i with
  | writer => exact hwriter.mpr hi
  | engine => exact ⟨mt hwriter.mp hi.1, h.engineReady_reader hS h2 (Or.inl rfl) hstep hi.2⟩
  | reader => exact absurd rfl hne

theorem Towards.stays_engine {junk : α} (h : Towards S process init Ok msgs s) (hS : Admitted S)
    (h2 : 2 ≤ S.toNat) (hi : Helpful S s i) (hne : i ≠ .engine)
    (hstep : s.engineStep S process junk = some s') : Helpful S s' i := by
  cases i with
  | writer => exact h.writerReady_engine hS h2 hstep hi
  | engine => exact absurd rfl hne
  | reader =>
    rcases engineStep_cases hstep with ⟨-, rfl⟩ | ⟨hready, -⟩
    · exact hi
    · exact absurd hready hi.2

theorem stays_writer {junk : β} (hi : Helpful S s i) (hne : i ≠ .writer)
    (hstep : s.writerStep S junk = some s') : Helpful S s' i := by
  have hsame : ¬ s.WriterReady S → s' = s := by
    intro hnot
    rcases writerStep_cases hstep with ⟨-, hsame⟩ | ⟨hready, -⟩
    · exact hsame
    · exact absurd hready hnot
  cases i with
  | writer => exact absurd rfl hne
  | engine => rw [hsame hi.1]; exact hi
  | reader => rw [hsame hi.1]; exact hi

end Stays

theorem progress (hS : Admitted S) (h2 : 2 ≤ S.toNat) (hserves : Serves process init Ok Good)
    (hout : serve process init msgs = some (last, out)) :
    Progress (machine S process init) Action.thread (fun _ a => ∀ msg, a = .receive msg → Ok msg)
      (Towards S process init Ok msgs) (rank msgs.length out.length) (Helpful S) := by
  constructor
  case inv =>
    intro s a s' h hok hstep
    exact h.step hS h2 hok hstep
  case rank_le =>
    intro s a s' h hok hstep
    exact rank_le_of_step hstep
  case helpful =>
    intro s h hs
    by_cases hwriter : s.WriterReady S
    · exact ⟨.writer, hwriter⟩
    · by_cases hengine : s.EngineReady S
      · exact ⟨.engine, hwriter, hengine⟩
      · exact ⟨.reader, hwriter, hengine⟩
  case helps =>
    intro s a i h hok hs hi ha
    cases a with
    | receive msg => cases ha
    | reader =>
      cases ha
      exact h.reader_helps hS h2 hout (lt_of_rank_pos hs) hi.1 hi.2
    | engine junk =>
      cases ha
      exact h.engine_helps hS h2 hserves hout (lt_of_rank_pos hs) hi.1 hi.2
    | writer junk =>
      cases ha
      exact h.writer_helps (lt_of_rank_pos hs) hi
  case stays =>
    intro s a s' i h hok hi ha hstep _
    have hne : ∀ j, a.thread = some j → i ≠ j := by
      rintro j hj rfl
      exact ha hj
    cases a with
    | receive msg => exact h.stays_receive hS h2 hi hstep
    | reader => exact h.stays_reader hS h2 hi (hne _ rfl) hstep
    | engine junk => exact h.stays_engine hS h2 hi (hne _ rfl) hstep
    | writer junk => exact stays_writer hi (hne _ rfl) hstep

/-- Under every fair schedule, and whatever else is received, the answers to the messages that
were passed to the inbound queue are sent in the end, in order and before all others. -/
theorem eventually_sent (hS : Admitted S) (h2 : 2 ≤ S.toNat) (hserves : Serves process init Ok Good)
    (hs : (machine S process init).Reachable s) (hok : ∀ msg ∈ s.incomingQueue.sent, Ok msg)
    {sched : ℕ → Action α β} (hsched : ∀ n msg, sched n = .receive msg → Ok msg)
    (hfair : Fair Action.thread sched) :
    ∃ last out n, serve process init s.incomingQueue.sent = some (last, out) ∧
      ∀ m, n ≤ m → out <+: ((machine S process init).along s sched m).sent := by
  obtain ⟨last, out, hout, -⟩ := hserves.serve hserves.init hok
  have htowards : Towards S process init Ok s.incomingQueue.sent s :=
    ⟨Inv.reachable hS h2 hs, List.prefix_refl _, hok⟩
  obtain ⟨n, hn⟩ := (progress hS h2 hserves hout).eventually htowards hsched hfair
  refine ⟨last, out, n, hout, fun m hm => ?_⟩
  obtain ⟨h, hrank⟩ := hn m hm
  exact h.out_prefix hS h2 hout (le_sent_of_rank hrank)

end Goal

end Threads

end LowLevel.Trading
