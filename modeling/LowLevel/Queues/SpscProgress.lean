import LowLevel.Queues.Spsc

/-! # Waiting in the single-producer queue

The sequence numbers of the `S` cells show exactly which tickets are published
and which cells are free again. A producer therefore waits only for a full
queue and a consumer only for an empty one, so the two never wait for each
other.
-/

namespace LowLevel.Queues

def Consumer.made {T : Type*} : Consumer T → ℕ
  | .idle => 0
  | .wait _ => 1
  | .read _ => 2
  | .reading _ => 3
  | .release .. => 4
  | .advance .. => 5

def Consumer.returns {T : Type*} : Consumer T → List T
  | .advance _ data => [data]
  | _ => []

theorem Queue.dequeue_received {T : Type*} (S : UInt64) (junk : T) (q : Queue T) :
    (q.dequeue S junk).received = q.received ++ q.consumer.returns := by
  unfold Queue.dequeue
  cases q.consumer with
  | wait pos => dsimp only; split <;> simp [Consumer.returns]
  | advance pos data => rfl
  | _ => simp [Consumer.returns]

namespace Spsc

variable {T : Type*} {S : UInt64} {s s' : Spsc T} {turn : ℕ → Turn Unit Unit T}

def published (s : Spsc T) : ℕ :=
  match s.producer with
  | .store _ => s.tickets.length - 1
  | _ => s.tickets.length

def released (s : Spsc T) : ℕ :=
  match s.consumer with
  | .advance .. => s.received.length + 1
  | _ => s.received.length

theorem released_le (s : Spsc T) : s.released ≤ s.received.length + s.consumer.drawn := by
  unfold released
  cases s.consumer <;> simp [Consumer.drawn]

theorem published_le (s : Spsc T) : s.published ≤ s.tickets.length := by
  unfold published
  cases s.producer <;> simp

/-- The cells of the current lap: published ones up to `published`, then free ones. -/
structure Shown (S : UInt64) (s : Spsc T) : Prop where
  full : ∀ t, s.released ≤ t → t < s.published →
    (s.buffer (t % S.toNat)).sequence = UInt64.ofNat (t + 1)
  free : ∀ t, s.published ≤ t → t < s.released + S.toNat →
    (s.buffer (t % S.toNat)).sequence = UInt64.ofNat t
  lag : s.received.length + s.consumer.drawn ≤ s.published
  room : s.tickets.length ≤ s.released + S.toNat

theorem mod_ne_of_near {n t u : ℕ} (hne : t ≠ u) (htu : t < u + n) (hut : u < t + n) :
    t % n ≠ u % n := by
  intro heq
  rcases Nat.lt_or_gt_of_ne hne with hlt | hlt
  · have hsub := Nat.sub_mod_eq_zero_of_mod_eq heq.symm
    rw [Nat.mod_eq_of_lt (by omega)] at hsub
    omega
  · have hsub := Nat.sub_mod_eq_zero_of_mod_eq heq
    rw [Nat.mod_eq_of_lt (by omega)] at hsub
    omega

theorem setData_sequence (buffer : Buffer T) (i j : ℕ) (data : Content T) :
    (buffer.setData i data j).sequence = (buffer j).sequence := by
  unfold Buffer.setData
  rcases eq_or_ne j i with rfl | hj
  · rw [Function.update_self]
  · rw [Function.update_of_ne hj]

theorem setSequence_self (buffer : Buffer T) (i : ℕ) (sequence : UInt64) :
    (buffer.setSequence i sequence i).sequence = sequence := by
  rw [Buffer.setSequence, Function.update_self]

theorem setSequence_of_ne (buffer : Buffer T) {i j : ℕ} (hj : j ≠ i) (sequence : UInt64) :
    (buffer.setSequence i sequence j).sequence = (buffer j).sequence := by
  rw [Buffer.setSequence, Function.update_of_ne hj]

theorem Shown.congr (h : Shown S s) (hseq : ∀ i, (s'.buffer i).sequence = (s.buffer i).sequence)
    (hpub : s'.published = s.published) (hrel : s'.released = s.released)
    (hlag : s'.received.length + s'.consumer.drawn ≤ s.published)
    (hroom : s'.tickets.length ≤ s.released + S.toNat) : Shown S s' := by
  constructor
  case full =>
    intro t ht hlt
    rw [hrel] at ht
    rw [hpub] at hlt
    exact (hseq _).trans (h.full t ht hlt)
  case free =>
    intro t ht hlt
    rw [hpub] at ht
    rw [hrel] at hlt
    exact (hseq _).trans (h.free t ht hlt)
  case lag => exact hpub ▸ hlag
  case room => exact hrel ▸ hroom

theorem Shown.publish (h : Shown S s) {n : ℕ} (hpub : s.published = n)
    (htickets : s.tickets.length = n + 1) (hpub' : s'.published = n + 1)
    (hrel : s'.released = s.released)
    (hlag : s'.received.length + s'.consumer.drawn ≤ n) (htickets' : s'.tickets = s.tickets)
    (hbuffer : s'.buffer = s.buffer.setSequence (n % S.toNat) (UInt64.ofNat (n + 1))) :
    Shown S s' := by
  have hroom := h.room
  have hlagged := h.lag
  have hle := s.released_le
  constructor
  case full =>
    intro t ht hlt
    rw [hrel] at ht
    rw [hpub'] at hlt
    rw [hbuffer]
    rcases Nat.lt_succ_iff_lt_or_eq.mp hlt with hlt | rfl
    · rw [setSequence_of_ne _ (mod_ne_of_near (by omega) (by omega) (by omega))]
      exact h.full t ht (hpub ▸ hlt)
    · exact setSequence_self ..
  case free =>
    intro t ht hlt
    rw [hpub'] at ht
    rw [hrel] at hlt
    rw [hbuffer, setSequence_of_ne _ (mod_ne_of_near (by omega) (by omega) (by omega))]
    exact h.free t (by omega) hlt
  case lag => omega
  case room => rw [htickets', hrel]; exact hroom

theorem Shown.release (h : Shown S s) {d : ℕ} (hrel : s.released = d)
    (hrel' : s'.released = d + 1) (hpub : s'.published = s.published)
    (hlag : s'.received.length + s'.consumer.drawn = d + 1) (hle : d + 1 ≤ s.published)
    (htickets : s'.tickets = s.tickets)
    (hbuffer : s'.buffer = s.buffer.setSequence (d % S.toNat) (UInt64.ofNat (d + S.toNat))) :
    Shown S s' := by
  have hroom := h.room
  have hpub_le := s.published_le
  constructor
  case full =>
    intro t ht hlt
    rw [hrel'] at ht
    rw [hpub] at hlt
    rw [hbuffer, setSequence_of_ne _ (mod_ne_of_near (by omega) (by omega) (by omega))]
    exact h.full t (by omega) hlt
  case free =>
    intro t ht hlt
    rw [hpub] at ht
    rw [hrel'] at hlt
    rw [hbuffer]
    rcases Nat.eq_or_lt_of_le (Nat.le_of_lt_succ (by omega : t < d + S.toNat + 1)) with rfl | hlt
    · rw [Nat.add_mod_right]
      exact setSequence_self ..
    · rw [setSequence_of_ne _ (mod_ne_of_near (by omega) (by omega) (by omega))]
      exact h.free t ht (by omega)
  case lag => omega
  case room => rw [htickets, hrel']; omega

theorem shown_init : Shown S ({} : Spsc T) := by
  constructor
  case full =>
    intro t _ ht
    exact absurd ht (Nat.not_lt_zero t)
  case free =>
    intro t _ ht
    have hlt : t < S.toNat := by simpa [released] using ht
    rw [Nat.mod_eq_of_lt hlt]
    rfl
  case lag => exact Nat.le_refl 0
  case room => exact Nat.zero_le _

theorem Inv.held (h : Inv S s turn) {w : Writer T} (hw : s.producer = .store w) :
    ∃ n, s.tickets.length = n + 1 ∧ w.pos = UInt64.ofNat n := by
  have hstands := h.stands
  rw [hw] at hstands
  obtain ⟨t, -, ht⟩ := h.protocol.writers () w (by rw [hw]; rfl)
  have hlog := h.protocol.turns.log t
  rw [ht] at hlog
  have hlt := (List.getElem?_eq_some_iff.mp hlog.symm).1
  obtain ⟨n, hn⟩ := Nat.exists_eq_succ_of_ne_zero (Nat.ne_zero_of_lt hlt)
  refine ⟨n, hn, ?_⟩
  have hpos : w.pos + 1 = UInt64.ofNat s.tickets.length := hstands.1
  rw [hn, ofNat_succ] at hpos
  exact add_right_cancel hpos

theorem Shown.room_of_sequence (h : Shown S s) (h2 : 2 ≤ S.toNat)
    (hpub : s.published = s.tickets.length)
    (hseq : (s.buffer (s.tickets.length % S.toNat)).sequence = UInt64.ofNat s.tickets.length) :
    s.tickets.length < s.released + S.toNat := by
  by_contra hge
  have heq : s.tickets.length = s.released + S.toNat :=
    Nat.le_antisymm h.room (Nat.le_of_not_lt hge)
  have hfull := h.full s.released (Nat.le_refl _) (by omega)
  rw [heq, Nat.add_mod_right, hfull] at hseq
  exact ofNat_ne (S := S) (s.released + 1) (s.released + S.toNat) (by omega) (by omega) hseq

theorem Shown.published_of_sequence (h : Shown S s) (h1 : 1 ≤ S.toNat)
    (hrel : s.released = s.received.length)
    (hseq : (s.buffer (s.received.length % S.toNat)).sequence =
      UInt64.ofNat (s.received.length + 1)) :
    s.received.length < s.published := by
  by_contra hge
  have hfree := h.free s.received.length (Nat.le_of_not_lt hge) (by omega)
  rw [hfree] at hseq
  exact ofNat_ne (S := S) _ _ (Nat.lt_succ_self _) (by omega) hseq

theorem Shown.producer (h : Shown S s) (hinv : Inv S s turn) (hS : Admitted S)
    (h2 : 2 ≤ S.toNat) (hstep : step S s .producer = some s') : Shown S s' := by
  have hlag := h.lag
  have hroom := h.room
  cases hp : s.producer with
  | idle =>
    simp only [step, hp] at hstep
    cases hstep
  | wait pos data =>
    have hstands := hinv.stands
    rw [hp] at hstands
    obtain ⟨rfl, -⟩ : pos = UInt64.ofNat s.tickets.length ∧ _ := hstands
    have hpub : s.published = s.tickets.length := by rw [published, hp]
    simp only [step, hp, slot_ofNat hS] at hstep
    split at hstep
    · rename_i hseq
      obtain rfl := Option.some.inj hstep
      refine h.congr (fun _ => rfl) ?_ rfl hlag ?_
      · rw [hpub]
        simp [published]
      · have hlt := h.room_of_sequence h2 hpub hseq
        rw [List.length_append, List.length_singleton]
        omega
    · obtain rfl := Option.some.inj hstep
      exact h
  | store w =>
    obtain ⟨n, hn, hpos⟩ := hinv.held hp
    have hpub : s.published = n := by rw [published, hp, hn, Nat.add_sub_cancel]
    simp only [step, hp] at hstep
    obtain rfl := Option.some.inj hstep
    cases hphase : w.phase with
    | before =>
      refine h.congr (fun i => ?_) ?_ rfl hlag hroom
      · simp only [Writer.store, hphase]
        exact setData_sequence ..
      · simp [published, Writer.store, hphase, Producer.after, hp]
    | during =>
      refine h.congr (fun i => ?_) ?_ rfl hlag hroom
      · simp only [Writer.store, hphase]
        exact setData_sequence ..
      · simp [published, Writer.store, hphase, Producer.after, hp]
    | after =>
      have hle : s.received.length + s.consumer.drawn ≤ n := hpub ▸ hlag
      refine h.publish hpub hn ?_ rfl hle rfl ?_
      · simp [published, Writer.store, hphase, Producer.after, hn]
      · simp only [Writer.store, hphase, hpos, slot_ofNat hS, ofNat_succ]
  | advance pos =>
    simp only [step, hp] at hstep
    obtain rfl := Option.some.inj hstep
    refine h.congr (fun _ => rfl) ?_ rfl hlag hroom
    simp only [published, hp]

theorem Shown.consumer (h : Shown S s) (hinv : Inv S s turn) (hS : Admitted S)
    (h2 : 2 ≤ S.toNat) (junk : T) :
    Shown S { s with toQueue := s.toQueue.dequeue S junk } := by
  have hlag := h.lag
  have hroom := h.room
  have hstands := hinv.protocol.consumer
  cases hc : s.consumer with
  | idle =>
    rw [hc] at hlag
    refine h.congr (fun _ => ?_) rfl ?_ ?_ hroom <;>
      simp only [Queue.dequeue, released, hc]
    exact hlag
  | wait pos =>
    rw [hc] at hstands hlag
    obtain rfl : pos = UInt64.ofNat s.received.length := hstands
    have hrel : s.released = s.received.length := by rw [released, hc]
    simp only [Queue.dequeue, hc, slot_ofNat hS, ← ofNat_succ]
    split
    · rename_i hseq
      have hlt := h.published_of_sequence (by omega) hrel hseq
      refine h.congr (fun _ => rfl) rfl ?_ hlt hroom
      simp only [released, hc]
    · exact h
  | read pos =>
    rw [hc] at hlag
    refine h.congr (fun _ => ?_) rfl ?_ ?_ hroom <;>
      simp only [Queue.dequeue, released, hc]
    exact hlag
  | reading pos =>
    rw [hc] at hlag
    refine h.congr (fun _ => ?_) rfl ?_ ?_ hroom <;>
      simp only [Queue.dequeue, released, hc, setData_sequence]
    exact hlag
  | release pos data =>
    rw [hc] at hstands hlag
    obtain ⟨rfl, -⟩ : pos = UInt64.ofNat s.received.length ∧ _ := hstands
    refine h.release (d := s.received.length) ?_ ?_ rfl ?_ hlag rfl ?_ <;>
      simp only [Queue.dequeue, released, hc, Consumer.drawn, slot_ofNat hS, ofNat_add_toNat]
  | advance pos data =>
    rw [hc] at hlag
    refine h.congr (fun _ => ?_) rfl ?_ ?_ hroom <;>
      simp only [Queue.dequeue, released, hc, List.length_append, List.length_singleton]
    exact hlag

theorem Shown.step {a : Action T} (h : Shown S s) (hinv : Inv S s turn) (hS : Admitted S)
    (h2 : 2 ≤ S.toNat) (hstep : step S s a = some s') : Shown S s' := by
  cases a with
  | enqueue data =>
    cases hp : s.producer with
    | idle =>
      simp only [Spsc.step, hp] at hstep
      obtain rfl := Option.some.inj hstep
      refine h.congr (fun _ => rfl) ?_ rfl h.lag h.room
      simp only [published, hp]
    | _ =>
      simp only [Spsc.step, hp] at hstep
      cases hstep
  | producer => exact h.producer hinv hS h2 hstep
  | consumer junk =>
    obtain rfl := Option.some.inj hstep
    exact h.consumer hinv hS h2 junk

def Sound (S : UInt64) (s : Spsc T) : Prop := (∃ turn, Inv S s turn) ∧ Shown S s

theorem sound_init : Sound S ({} : Spsc T) := ⟨⟨_, inv_init⟩, shown_init⟩

theorem Sound.step {a : Action T} (h : Sound S s) (hS : Admitted S) (h2 : 2 ≤ S.toNat)
    (hstep : step S s a = some s') : Sound S s' := by
  obtain ⟨⟨turn, hinv⟩, hshown⟩ := h
  exact ⟨hinv.step hS h2 hstep, hshown.step hinv hS h2 hstep⟩

section Waiting

def Blocked (S : UInt64) (s : Spsc T) : Prop :=
  ∃ pos data, s.producer = .wait pos data ∧ (s.buffer (slot S pos)).sequence ≠ pos

def Starved (S : UInt64) (s : Spsc T) : Prop :=
  ∃ pos, s.consumer = .wait pos ∧ (s.buffer (slot S pos)).sequence ≠ pos + 1

/-- A producer is held up only while all cells hold values that are not released. -/
theorem Sound.blocked_iff (h : Sound S s) (hS : Admitted S) (h2 : 2 ≤ S.toNat) {pos : UInt64}
    {data : T} (hp : s.producer = .wait pos data) :
    Blocked S s ↔ s.tickets.length = s.released + S.toNat := by
  obtain ⟨⟨turn, hinv⟩, hshown⟩ := h
  have hstands := hinv.stands
  rw [hp] at hstands
  obtain ⟨rfl, -⟩ : pos = UInt64.ofNat s.tickets.length ∧ _ := hstands
  have hpub : s.published = s.tickets.length := by rw [published, hp]
  constructor
  · rintro ⟨pos, data', hp', hne⟩
    rw [hp, Producer.wait.injEq] at hp'
    obtain ⟨rfl, -⟩ := hp'
    by_contra hlt
    have hroom := hshown.room
    rw [slot_ofNat hS, hshown.free _ (Nat.le_of_eq hpub) (by omega)] at hne
    exact hne rfl
  · intro heq
    refine ⟨_, data, hp, fun hseq => ?_⟩
    rw [slot_ofNat hS] at hseq
    have hlt := hshown.room_of_sequence h2 hpub hseq
    omega

/-- A consumer is held up only while no value is published. -/
theorem Sound.starved_iff (h : Sound S s) (hS : Admitted S) (h2 : 2 ≤ S.toNat) {pos : UInt64}
    (hc : s.consumer = .wait pos) : Starved S s ↔ s.received.length = s.published := by
  obtain ⟨⟨turn, hinv⟩, hshown⟩ := h
  have hstands := hinv.protocol.consumer
  have hlag := hshown.lag
  have hrel : s.released = s.received.length := by rw [released, hc]
  rw [hc] at hstands hlag
  obtain rfl : pos = UInt64.ofNat s.received.length := hstands
  constructor
  · rintro ⟨pos, hc', hne⟩
    rw [hc, Consumer.wait.injEq] at hc'
    subst hc'
    by_contra hlt
    have hfull := hshown.full s.received.length (Nat.le_of_eq hrel)
      (Nat.lt_of_le_of_ne hlag hlt)
    rw [slot_ofNat hS, hfull, ofNat_succ] at hne
    exact hne rfl
  · intro heq
    refine ⟨_, hc, fun hseq => ?_⟩
    rw [slot_ofNat hS, ← ofNat_succ] at hseq
    have hlt := hshown.published_of_sequence (by omega) hrel hseq
    omega

theorem Sound.not_blocked (h : Sound S s) (hS : Admitted S) (h2 : 2 ≤ S.toNat)
    (hstarved : Starved S s) : ¬ Blocked S s := by
  intro hblocked
  obtain ⟨pos, hc, -⟩ := id hstarved
  obtain ⟨pos', data, hp, -⟩ := id hblocked
  have hempty := (h.starved_iff hS h2 hc).mp hstarved
  have hfull := (h.blocked_iff hS h2 hp).mp hblocked
  have hpub : s.published = s.tickets.length := by rw [published, hp]
  have hrel : s.released = s.received.length := by rw [released, hc]
  omega

/-- The threads wait for each other as the contents of the queue demand: the producer for a full
queue, the consumer for an empty one, and never both. -/
structure Waits (S : UInt64) (s : Spsc T) : Prop where
  producer : ∀ pos data, s.producer = .wait pos data →
    (Blocked S s ↔ s.tickets.length = s.released + S.toNat)
  consumer : ∀ pos, s.consumer = .wait pos → (Starved S s ↔ s.received.length = s.published)
  one : ¬ (Starved S s ∧ Blocked S s)

theorem sound_reachable (hS : Admitted S) (h2 : 2 ≤ S.toNat) (h : (machine S).Reachable s) :
    Sound S s := by
  apply h.invariant sound_init
  intro s a s' ih hstep
  exact ih.step hS h2 hstep

theorem reachable_waits (hS : Admitted S) (h2 : 2 ≤ S.toNat) (h : (machine S).Reachable s) :
    Waits S s := by
  have hsound := sound_reachable hS h2 h
  constructor
  case producer =>
    intro pos data hp
    exact hsound.blocked_iff hS h2 hp
  case consumer =>
    intro pos hc
    exact hsound.starved_iff hS h2 hc
  case one =>
    rintro ⟨hstarved, hblocked⟩
    exact hsound.not_blocked hS h2 hstarved hblocked

/-- Two values fill the queue, and the call for the third one waits. -/
def threeValues : List (Action ℕ) :=
  [7, 8].flatMap (fun data => .enqueue data :: List.replicate 5 .producer) ++ [.enqueue 9]

theorem reachable_waits_threeValues : ∃ s : Spsc ℕ, (machine 2).Reachable s ∧
    s.producer = .wait 2 9 ∧ Blocked 2 s ∧ Waits 2 s := by
  have hrun : ((machine 2).run {} threeValues).map (fun s => (s.tickets, s.released,
      match s.producer with
      | .wait pos data => some (pos, data)
      | _ => none)) = some ([7, 8], 0, some (2, 9)) := by decide +kernel
  obtain ⟨s, hs, heq⟩ := Option.map_eq_some_iff.mp hrun
  simp only [Prod.mk.injEq] at heq
  obtain ⟨htickets, hreleased, hp⟩ := heq
  have hproducer : s.producer = .wait 2 9 := by
    split at hp
    · rename_i pos data hwait
      cases hp
      exact hwait
    · cases hp
  have hwaits := reachable_waits (by decide) (by decide) ⟨_, hs⟩
  refine ⟨s, ⟨_, hs⟩, hproducer, ?_, hwaits⟩
  rw [hwaits.producer 2 9 hproducer, htickets, hreleased]
  rfl

end Waiting

section Counting

/-- How far the producer is with its call; between calls it is done. -/
def Producer.made : Producer T → ℕ
  | .wait .. => 0
  | .store w =>
    match w.phase with
    | .before => 1
    | .during => 2
    | .after => 3
  | .advance _ => 4
  | .idle => 5

/-- The steps of the producer, without those spent in the wait loop. -/
def producerSteps (s : Spsc T) : ℕ := 6 * s.sent.length + s.producer.made

/-- The steps of the consumer, without those spent in the wait loop. -/
def consumerSteps (s : Spsc T) : ℕ := 6 * s.received.length + s.consumer.made

theorem step_enqueue {data : T} (h : step S s (.enqueue data) = some s') :
    s.producer = .idle ∧
      s' = { s with producer := .wait s.enqueuePtr data, sent := s.sent ++ [data] } := by
  cases hp : s.producer with
  | idle =>
    simp only [step, hp] at h
    exact ⟨rfl, (Option.some.inj h).symm⟩
  | _ =>
    simp only [step, hp] at h
    cases h

theorem step_producer (h : step S s .producer = some s') :
    s.producer ≠ .idle ∧ s'.sent = s.sent ∧ s'.received = s.received ∧
      s'.consumer = s.consumer ∧ s.published ≤ s'.published ∧
      (Blocked S s ∧ s' = s ∨ ¬ Blocked S s ∧ s'.producerSteps = s.producerSteps + 1) := by
  cases hp : s.producer with
  | idle =>
    simp only [step, hp] at h
    cases h
  | wait pos data =>
    simp only [step, hp] at h
    split at h
    · rename_i hseq
      obtain rfl := Option.some.inj h
      refine ⟨by rintro ⟨⟩, rfl, rfl, rfl, ?_, Or.inr ⟨?_, ?_⟩⟩
      · simp [published, hp]
      · rintro ⟨pos', data', hp', hne⟩
        rw [hp, Producer.wait.injEq] at hp'
        exact hne (hp'.1 ▸ hseq)
      · simp [producerSteps, Producer.made, hp]
    · rename_i hseq
      obtain rfl := Option.some.inj h
      exact ⟨by rintro ⟨⟩, rfl, rfl, rfl, Nat.le_refl _, Or.inl ⟨⟨pos, data, hp, hseq⟩, rfl⟩⟩
  | store w =>
    simp only [step, hp] at h
    obtain rfl := Option.some.inj h
    refine ⟨by rintro ⟨⟩, rfl, rfl, rfl, ?_, Or.inr ⟨?_, ?_⟩⟩
    · cases hphase : w.phase <;> simp [published, hp, Writer.store, hphase, Producer.after]
    · rintro ⟨pos, data, hp', -⟩
      rw [hp] at hp'
      cases hp'
    · cases hphase : w.phase <;>
        simp [producerSteps, Producer.made, hp, Writer.store, hphase, Producer.after]
  | advance pos =>
    simp only [step, hp] at h
    obtain rfl := Option.some.inj h
    refine ⟨by rintro ⟨⟩, rfl, rfl, rfl, ?_, Or.inr ⟨?_, ?_⟩⟩
    · simp [published, hp]
    · rintro ⟨pos', data', hp', -⟩
      rw [hp] at hp'
      cases hp'
    · simp [producerSteps, Producer.made, hp]

/-- A producer within a call is never refused a step. -/
theorem exists_step_producer (h : s.producer ≠ .idle) : ∃ s', step S s .producer = some s' := by
  cases hp : s.producer with
  | idle => exact absurd hp h
  | wait pos data =>
    simp only [step, hp]
    split <;> exact ⟨_, rfl⟩
  | store w =>
    simp only [step, hp]
    exact ⟨_, rfl⟩
  | advance pos =>
    simp only [step, hp]
    exact ⟨_, rfl⟩

theorem dequeue_steps (s : Spsc T) (junk : T) :
    Starved S s ∧ s.toQueue.dequeue S junk = s.toQueue ∨ ¬ Starved S s ∧
      consumerSteps { s with toQueue := s.toQueue.dequeue S junk } = s.consumerSteps + 1 := by
  have hnot : (∀ pos, s.consumer ≠ .wait pos) → ¬ Starved S s := fun h hs =>
    let ⟨pos, hc, _⟩ := hs
    h pos hc
  cases hc : s.consumer with
  | idle =>
    refine Or.inr ⟨hnot (by rw [hc]; rintro pos' ⟨⟩), ?_⟩
    simp [consumerSteps, Queue.dequeue, hc, Consumer.made]
  | wait pos =>
    by_cases hseq : (s.buffer (slot S pos)).sequence = pos + 1
    · refine Or.inr ⟨?_, ?_⟩
      · rintro ⟨pos', hc', hne⟩
        rw [hc, Consumer.wait.injEq] at hc'
        exact hne (hc' ▸ hseq)
      · simp [consumerSteps, Queue.dequeue, hc, hseq, Consumer.made]
    · refine Or.inl ⟨⟨pos, hc, hseq⟩, ?_⟩
      simp [Queue.dequeue, hc, hseq]
  | read pos =>
    refine Or.inr ⟨hnot (by rw [hc]; rintro pos' ⟨⟩), ?_⟩
    simp [consumerSteps, Queue.dequeue, hc, Consumer.made]
  | reading pos =>
    refine Or.inr ⟨hnot (by rw [hc]; rintro pos' ⟨⟩), ?_⟩
    simp [consumerSteps, Queue.dequeue, hc, Consumer.made]
  | release pos data =>
    refine Or.inr ⟨hnot (by rw [hc]; rintro pos' ⟨⟩), ?_⟩
    simp [consumerSteps, Queue.dequeue, hc, Consumer.made]
  | advance pos data =>
    refine Or.inr ⟨hnot (by rw [hc]; rintro pos' ⟨⟩), ?_⟩
    simp [consumerSteps, Queue.dequeue, hc, Consumer.made]
    omega

theorem step_consumer {junk : T} (h : step S s (.consumer junk) = some s') :
    s'.sent = s.sent ∧ s'.producer = s.producer ∧
      s'.received = s.received ++ s.consumer.returns ∧
      (Starved S s ∧ s' = s ∨ ¬ Starved S s ∧ s'.consumerSteps = s.consumerSteps + 1) := by
  obtain rfl := Option.some.inj h
  refine ⟨rfl, rfl, Queue.dequeue_received .., ?_⟩
  rcases s.dequeue_steps (S := S) junk with ⟨hstarved, hsame⟩ | hsteps
  · refine Or.inl ⟨hstarved, ?_⟩
    rw [hsame]
  · exact Or.inr hsteps

end Counting

end Spsc

end LowLevel.Queues
