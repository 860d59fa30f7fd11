import LowLevel.Foundations.Machine
import LowLevel.Queues.Protocol

/-! # The multi-producer queue

Any number of producers draw tickets by a compare-and-swap on one counter. A
producer may hold a stale counter value, lose the race, fail spuriously, or
stall with a ticket in hand while later tickets are published. A stale value
is harmless as long as the counter has not come around to it again.
-/

namespace LowLevel.Queues

/-- A producer in `enqueue`: before a load of the counter, before a load of the sequence number,
before the compare-and-swap, or in possession of a cell. -/
inductive Mpsc.Producer (T : Type*) where
  | idle
  | load (data : T)
  | loop (pos : UInt64) (data : T)
  | cas (pos : UInt64) (data : T)
  | store (w : Writer T)

/-- A successful compare-and-swap: by whom, in which of its calls, at which counter value. -/
structure Ticket (P T : Type*) where
  producer : P
  call : ℕ
  pos : UInt64
  data : T

/-- The queue with its threads. The history records the calls of each producer with their
values, and the tickets drawn. -/
structure Mpsc (P T : Type*) extends Queue T where
  enqueuePtr : UInt64 := 0
  producers : P → Mpsc.Producer T := fun _ => .idle
  calls : P → List T := fun _ => []
  tickets : List (Ticket P T) := []

namespace Mpsc

variable {P T : Type*} {S : UInt64} {s s' : Mpsc P T} {p : P} {turn turn' : ℕ → Turn P Unit T}

/-- Call `enqueue`, or let one of the threads make a step in its call. A weak compare-and-swap
may fail spuriously. -/
inductive Action (P T : Type*) where
  | enqueue (p : P) (data : T)
  | producer (p : P) (spurious : Bool)
  | consumer (junk : T)

def Producer.after : Option (Writer T) → Producer T
  | some w => .store w
  | none => .idle

def Producer.writer : Producer T → Option (Writer T)
  | .store w => some w
  | _ => none

def Producer.pending : Producer T → List T
  | .load data | .loop _ data | .cas _ data => [data]
  | _ => []

/-- Counter values in the hands of a producer are not ahead of the `n` tickets drawn, and the
one it is about to swap is of a cell that is its to take if it is the next ticket. -/
def Producer.Stands (S : UInt64) (turn : ℕ → Turn P Unit T) (n : ℕ) : Producer T → Prop
  | .loop pos _ => ∃ t ≤ n, pos = UInt64.ofNat t
  | .cas pos _ => ∃ t ≤ n, pos = UInt64.ofNat t ∧ (t = n → Ready S.toNat turn t)
  | _ => True

theorem Producer.Stands.mono {x : Producer T} {n n' : ℕ} (h : x.Stands S turn n)
    (hgrows : Grows turn turn') (hn : n ≤ n') : x.Stands S turn' n' := by
  cases x with
  | loop pos data =>
    obtain ⟨t, ht, hpos⟩ := h
    exact ⟨t, by omega, hpos⟩
  | cas pos data =>
    obtain ⟨t, ht, hpos, hready⟩ := h
    exact ⟨t, by omega, hpos, fun he => hgrows.ready (hready (by omega))⟩
  | _ => trivial

@[simp] theorem Producer.writer_after (next : Option (Writer T)) :
    (Producer.after next).writer = next := by
  cases next <;> rfl

@[simp] theorem Producer.pending_after (next : Option (Writer T)) :
    (Producer.after next).pending = [] := by
  cases next <;> rfl

inductive Search (S : UInt64) (s : Mpsc P T) : Producer T → Producer T → Prop
  | load (data : T) : Search S s (.load data) (.loop s.enqueuePtr data)
  | free (pos : UInt64) (data : T) (h : (s.buffer (slot S pos)).sequence = pos) :
    Search S s (.loop pos data) (.cas pos data)
  | behind (pos : UInt64) (data : T) : Search S s (.loop pos data) (.load data)
  | full (pos : UInt64) (data : T) : Search S s (.loop pos data) (.loop pos data)
  | lost (pos : UInt64) (data : T) : Search S s (.cas pos data) (.loop s.enqueuePtr data)

theorem Search.same {x y : Producer T} (h : Search S s x y) :
    x.writer = none ∧ y.writer = none ∧ y.pending = x.pending := by
  cases h <;> exact ⟨rfl, rfl, rfl⟩

theorem Search.stands {x y : Producer T} {n : ℕ} (h : Search S s x y)
    (hprot : Protocol S s.toQueue (fun p => (s.producers p).writer) (s.tickets.map Ticket.data)
      turn)
    (hS : Admitted S) (h2 : 2 ≤ S.toNat) (hn : n = s.tickets.length)
    (hptr : s.enqueuePtr = UInt64.ofNat n) (hx : x.Stands S turn n) : y.Stands S turn n := by
  cases h with
  | load data => exact ⟨n, Nat.le_refl _, hptr⟩
  | free pos data hseq =>
    obtain ⟨t, ht, rfl⟩ := hx
    refine ⟨t, ht, rfl, ?_⟩
    rintro rfl
    have hlen : (s.tickets.map Ticket.data).length = t := by rw [List.length_map, hn]
    rw [slot_ofNat hS, ← hlen] at hseq
    rw [← hlen]
    exact hprot.turns.ready_of_sequence h2 ofNat_ne hseq
  | behind pos data => trivial
  | full pos data => exact hx
  | lost pos data => exact ⟨n, Nat.le_refl _, hptr⟩

variable [DecidableEq P]

def setProducer (s : Mpsc P T) (p : P) (x : Producer T) : Mpsc P T :=
  { s with producers := Function.update s.producers p x }

def step (S : UInt64) (s : Mpsc P T) : Action P T → Option (Mpsc P T)
  | .enqueue p data =>
    match s.producers p with
    | .idle => some { s.setProducer p (.load data) with
        calls := Function.update s.calls p (s.calls p ++ [data]) }
    | _ => none
  | .producer p spurious =>
    match s.producers p with
    | .idle => none
    | .load data => some (s.setProducer p (.loop s.enqueuePtr data))
    | .loop pos data =>
      let cellPos := (s.buffer (slot S pos)).sequence
      let diff := (cellPos - pos).toInt64
      some <| s.setProducer p <|
        if diff = 0 then .cas pos data
        else if 0 < diff then .load data
        else .loop pos data
    | .cas pos data =>
      if s.enqueuePtr = pos ∧ spurious = false then
        some { s.setProducer p (.store { pos, data }) with
          enqueuePtr := pos + 1
          tickets := s.tickets ++ [⟨p, (s.calls p).length - 1, pos, data⟩] }
      else some (s.setProducer p (.loop s.enqueuePtr data))
    | .store w => some { s.setProducer p (.after (w.store S s.buffer).2) with
        buffer := (w.store S s.buffer).1 }
  | .consumer junk => some { s with toQueue := s.toQueue.dequeue S junk }

def machine (S : UInt64) : Machine (Mpsc P T) (Action P T) := ⟨{}, step S⟩

/-- The tickets of a producer, in the order in which they were drawn. -/
def ticketsOf (s : Mpsc P T) (p : P) : List (Ticket P T) := s.tickets.filter (·.producer = p)

/-- The log of tickets agrees with the counter and with the calls. -/
structure Logged (s : Mpsc P T) : Prop where
  ptr : s.enqueuePtr = UInt64.ofNat s.tickets.length
  claims : s.tickets.map Ticket.pos = (List.range s.tickets.length).map UInt64.ofNat
  data : ∀ p, (s.ticketsOf p).map Ticket.data ++ (s.producers p).pending = s.calls p
  call : ∀ p, (s.ticketsOf p).map Ticket.call = List.range (s.ticketsOf p).length

structure Inv (S : UInt64) (s : Mpsc P T) (turn : ℕ → Turn P Unit T) : Prop where
  protocol : Protocol S s.toQueue (fun p => (s.producers p).writer) (s.tickets.map Ticket.data) turn
  stands : ∀ p, (s.producers p).Stands S turn s.tickets.length
  logged : s.Logged

inductive Step (S : UInt64) (s : Mpsc P T) : Mpsc P T → Prop
  | call (p : P) (data : T) (h : s.producers p = .idle) :
    Step S s { s.setProducer p (.load data) with
      calls := Function.update s.calls p (s.calls p ++ [data]) }
  | search (p : P) (x : Producer T) (h : Search S s (s.producers p) x) :
    Step S s (s.setProducer p x)
  | claim (p : P) (data : T) (h : s.producers p = .cas s.enqueuePtr data) :
    Step S s { s.setProducer p (.store { pos := s.enqueuePtr, data }) with
      enqueuePtr := s.enqueuePtr + 1
      tickets := s.tickets ++ [⟨p, (s.calls p).length - 1, s.enqueuePtr, data⟩] }
  | store (p : P) (w : Writer T) (h : s.producers p = .store w) :
    Step S s { s.setProducer p (.after (w.store S s.buffer).2) with
      buffer := (w.store S s.buffer).1 }
  | consumer (junk : T) : Step S s { s with toQueue := s.toQueue.dequeue S junk }

theorem toInt64_sub_eq_zero {a b : UInt64} (h : (a - b).toInt64 = 0) : a = b := by
  have hsub := congrArg Int64.toUInt64 h
  rw [UInt64.toUInt64_toInt64] at hsub
  rw [← UInt64.sub_add_cancel a b, hsub]
  exact UInt64.zero_add b

theorem step_of_eq {a : Action P T} (h : step S s a = some s') : Step S s s' := by
  cases a with
  | enqueue p data =>
    simp only [step] at h
    split at h
    · rename_i hp
      cases h
      exact .call p data hp
    · cases h
  | producer p spurious =>
    simp only [step] at h
    split at h
    · cases h
    · rename_i data hp
      cases h
      exact .search p _ (hp ▸ .load data)
    · rename_i pos data hp
      cases h
      apply Step.search
      rw [hp]
      split
      · rename_i hdiff
        exact .free pos data (toInt64_sub_eq_zero hdiff)
      · split
        · exact .behind pos data
        · exact .full pos data
    · rename_i pos data hp
      split at h
      · rename_i hcas
        cases h
        obtain ⟨rfl, -⟩ := hcas
        exact .claim p data hp
      · cases h
        exact .search p _ (hp ▸ .lost pos data)
    · rename_i w hp
      cases h
      exact .store p w hp
  | consumer junk =>
    cases h
    exact .consumer junk

theorem inv_init : Inv S ({} : Mpsc P T) fun _ => .unclaimed := by
  constructor
  case protocol => exact protocol_init
  case stands => exact fun _ => trivial
  case logged => exact ⟨rfl, rfl, fun _ => rfl, fun _ => rfl⟩

theorem writer_setProducer (s : Mpsc P T) (p : P) (x : Producer T) :
    (fun p' => ((s.setProducer p x).producers p').writer) =
      Function.update (fun p' => (s.producers p').writer) p x.writer := by
  funext p'
  rcases eq_or_ne p' p with rfl | hp
  · simp [setProducer]
  · simp [setProducer, Function.update_of_ne hp]

theorem writer_of_eq {x : Producer T} (h : x.writer = (s.producers p).writer) :
    (fun p' => ((s.setProducer p x).producers p').writer) = fun p' => (s.producers p').writer := by
  rw [writer_setProducer, h]
  exact Function.update_eq_self p _

theorem tickets_le (h : Step S s s') : s.tickets.length ≤ s'.tickets.length := by
  cases h with
  | claim p data h => simp
  | _ => exact Nat.le_refl _

theorem pending_setProducer {x : Producer T} (h : x.pending = (s.producers p).pending) (p' : P) :
    ((s.setProducer p x).producers p').pending = (s.producers p').pending := by
  rcases eq_or_ne p' p with rfl | hp
  · simp [setProducer, h]
  · simp [setProducer, Function.update_of_ne hp]

theorem Logged.step (h : s.Logged) (hstep : Step S s s') : s'.Logged := by
  cases hstep with
  | call p data hp =>
    refine ⟨h.ptr, h.claims, ?_, h.call⟩
    intro p'
    have hdata := h.data p'
    rcases eq_or_ne p' p with rfl | hne
    · rw [hp] at hdata
      simp only [setProducer, Function.update_self, ← hdata]
      simp [Producer.pending, ticketsOf]
    · simp only [setProducer, Function.update_of_ne hne]
      exact hdata
  | search p x hx =>
    refine ⟨h.ptr, h.claims, ?_, h.call⟩
    intro p'
    rw [pending_setProducer hx.same.2.2]
    exact h.data p'
  | claim p data hp =>
    have hdata := h.data p
    rw [hp] at hdata
    have hcall : (s.calls p).length - 1 = (s.ticketsOf p).length := by
      rw [← hdata]
      simp [Producer.pending]
    constructor
    case ptr => simp only [List.length_append, List.length_singleton, ofNat_succ, h.ptr]
    case claims =>
      simp only [List.map_append, h.claims, List.length_append, List.length_singleton,
        List.range_succ, List.map_cons, List.map_nil, h.ptr]
    case data =>
      intro p'
      rcases eq_or_ne p' p with rfl | hne
      · simpa [ticketsOf, setProducer, Producer.pending] using hdata
      · simpa [ticketsOf, setProducer, Function.update_of_ne hne, hne.symm] using h.data p'
    case call =>
      intro p'
      rcases eq_or_ne p' p with rfl | hne
      · have := h.call p'
        rw [hcall]
        simp only [ticketsOf, List.filter_append, List.map_append, List.length_append] at this ⊢
        simp [this, List.range_succ]
      · have := h.call p'
        simpa [ticketsOf, hne.symm] using this
  | store p w hp =>
    refine ⟨h.ptr, h.claims, ?_, h.call⟩
    intro p'
    have hpend : (Producer.after (w.store S s.buffer).2).pending = (s.producers p).pending := by
      rw [hp, Producer.pending_after]
      rfl
    have := h.data p'
    rw [← pending_setProducer hpend p'] at this
    exact this
  | consumer junk => exact ⟨h.ptr, h.claims, h.data, h.call⟩

theorem setProducer_moved {x : Producer T} {n : ℕ} (h : x.Stands S turn n) (p' : P) :
    (s.setProducer p x).producers p' = s.producers p' ∨
      ((s.setProducer p x).producers p').Stands S turn n := by
  rcases eq_or_ne p' p with rfl | hp
  · right
    simpa [setProducer] using h
  · left
    exact Function.update_of_ne hp ..

theorem Inv.step (h : Inv S s turn) (hS : Admitted S) (h2 : 2 ≤ S.toNat) (hstep : Step S s s')
    (hlt : s'.tickets.length ≤ 2 ^ 64) : ∃ turn', Inv S s' turn' := by
  have hlog := h.logged.step hstep
  obtain ⟨turn', hprot', hgrows, hmoved⟩ : ∃ turn', Protocol S s'.toQueue
      (fun p => (s'.producers p).writer) (s'.tickets.map Ticket.data) turn' ∧ Grows turn turn' ∧
      ∀ p, s'.producers p = s.producers p ∨ (s'.producers p).Stands S turn' s'.tickets.length := by
    cases hstep with
    | call p data hp =>
      refine ⟨turn, ?_, fun _ => id, setProducer_moved trivial⟩
      have hwriter := writer_of_eq (s := s) (p := p) (x := .load data) (by rw [hp]; rfl)
      exact hwriter ▸ h.protocol
    | search p x hx =>
      have hx' := hx.stands h.protocol hS h2 rfl h.logged.ptr (h.stands p)
      refine ⟨turn, ?_, fun _ => id, setProducer_moved hx'⟩
      rw [writer_of_eq (hx.same.2.1.trans hx.same.1.symm)]
      exact h.protocol
    | claim p data hp =>
      -- the counter has not come around, so the swapped value is the next ticket
      obtain ⟨t, ht, hpos, hready⟩ : ∃ t ≤ s.tickets.length, s.enqueuePtr = UInt64.ofNat t ∧
          (t = s.tickets.length → Ready S.toNat turn t) := by
        have hstands := h.stands p
        rw [hp] at hstands
        exact hstands
      obtain rfl : t = s.tickets.length := by
        rw [List.length_append, List.length_singleton] at hlt
        rw [h.logged.ptr, ofNat_eq_iff] at hpos
        omega
      have hlen : (s.tickets.map Ticket.data).length = s.tickets.length := List.length_map ..
      obtain ⟨turn', hprot', hgrows⟩ := h.protocol.claim (hlen.symm ▸ hready rfl) p data
      refine ⟨turn', ?_, hgrows, setProducer_moved trivial⟩
      rw [hlen, ← hpos] at hprot'
      rw [List.map_append]
      exact (writer_setProducer s p _).symm ▸ hprot'
    | store p w hp =>
      obtain ⟨turn', hprot', hgrows⟩ := h.protocol.store (p := p) (w := w) hS (by rw [hp]; rfl)
      refine ⟨turn', ?_, hgrows, setProducer_moved (by cases (w.store S s.buffer).2 <;> trivial)⟩
      rw [← Producer.writer_after (w.store S s.buffer).2, ← writer_setProducer] at hprot'
      exact hprot'
    | consumer junk =>
      obtain ⟨turn', hprot', hgrows⟩ := h.protocol.dequeue hS junk
      exact ⟨turn', hprot', hgrows, fun _ => .inl rfl⟩
  refine ⟨turn', hprot', fun p => ?_, hlog⟩
  rcases hmoved p with hp | hp
  · rw [hp]
    exact (h.stands p).mono hgrows (tickets_le hstep)
  · exact hp

/-- Tickets are never taken back, so a bound on them holds along the whole run. -/
theorem inv_reachable (hS : Admitted S) (h2 : 2 ≤ S.toNat) (h : (machine S).Reachable s)
    (hlt : s.tickets.length ≤ 2 ^ 64) : ∃ turn, Inv S s turn := by
  revert hlt
  refine h.invariant (P := fun s => s.tickets.length ≤ 2 ^ 64 → ∃ turn, Inv S s turn)
    (fun _ => ⟨_, inv_init⟩) ?_
  intro s a s' ih hstep hlt
  have hmove := step_of_eq hstep
  obtain ⟨turn, hinv⟩ := ih (Nat.le_trans (tickets_le hmove) hlt)
  exact hinv.step hS h2 hmove hlt

/-- Nothing is lost, duplicated or reordered. The k-th ticket is drawn at counter value `k`, and
no two at the same value; the tickets of a producer are those of its calls, in order, and every
call that is past the compare-and-swap has one; completed calls of `dequeue` return the values
of the tickets in order; published cells are not written before their release. -/
structure Faithful (S : UInt64) (s : Mpsc P T) : Prop where
  claims : s.tickets.map Ticket.pos = (List.range s.tickets.length).map UInt64.ofNat
  distinct : (s.tickets.map Ticket.pos).Nodup
  calls : ∀ p, (s.ticketsOf p).map (fun t => (t.data, t.call)) <+: (s.calls p).zipIdx
  complete : ∀ p, (s.ticketsOf p).length + (s.producers p).pending.length = (s.calls p).length
  received : ∀ k v, s.received[k]? = some v →
    ∃ t : Ticket P T, s.tickets[k]? = some t ∧ t.pos = UInt64.ofNat k ∧ t.data = v
  exclusive : Exclusive S s.toQueue fun p => (s.producers p).writer
  order : ∀ p, ((s.tickets.take s.received.length).filter (·.producer = p)).map Ticket.data <+:
    s.calls p

theorem Logged.distinct (h : s.Logged) (hlt : s.tickets.length ≤ 2 ^ 64) :
    (s.tickets.map Ticket.pos).Nodup := by
  rw [h.claims]
  exact nodup_ofNat_range hlt

theorem Logged.calls_zipIdx (h : s.Logged) (p : P) :
    (s.ticketsOf p).map (fun t => (t.data, t.call)) <+: (s.calls p).zipIdx := by
  have hzip : (s.ticketsOf p).map (fun t => (t.data, t.call)) =
      ((s.ticketsOf p).map Ticket.data).zipIdx := by
    rw [List.zipIdx_eq_zip_range', List.length_map, ← List.range_eq_range', ← h.call p,
      List.zip_map']
  rw [hzip, ← h.data p, List.zipIdx_append]
  exact List.prefix_append ..

theorem Inv.faithful (h : Inv S s turn) (hS : Admitted S) (h2 : 2 ≤ S.toNat)
    (hlt : s.tickets.length ≤ 2 ^ 64) : Faithful S s := by
  constructor
  case claims => exact h.logged.claims
  case distinct => exact h.logged.distinct hlt
  case calls => exact h.logged.calls_zipIdx
  case complete =>
    intro p
    rw [← h.logged.data p, List.length_append, List.length_map]
  case received =>
    intro k v hk
    obtain ⟨rest, hrest⟩ := h.protocol.received
    have hmap : (s.tickets.map Ticket.data)[k]? = some v := by
      rw [← hrest, List.getElem?_append_left (List.getElem?_eq_some_iff.mp hk).1, hk]
    rw [List.getElem?_map] at hmap
    obtain ⟨t, ht, hv⟩ := Option.map_eq_some_iff.mp hmap
    refine ⟨t, ht, ?_, hv⟩
    have hpos := congrArg (·[k]?) h.logged.claims
    simp only [List.getElem?_map, ht, Option.map_some,
      List.getElem?_range (List.getElem?_eq_some_iff.mp ht).1] at hpos
    exact Option.some.inj hpos
  case exclusive => exact h.protocol.exclusive hS h2
  case order =>
    intro p
    have htake : ((s.tickets.take s.received.length).filter (·.producer = p)).map Ticket.data <+:
        (s.ticketsOf p).map Ticket.data :=
      ((List.take_prefix ..).filter _).map _
    exact htake.trans ⟨_, h.logged.data p⟩

/-- Every interleaving of any number of producers with the consumer, as long as fewer than
`2 ^ 63` tickets are drawn. -/
theorem reachable_faithful (hS : Admitted S) (h2 : 2 ≤ S.toNat) (h : (machine S).Reachable s)
    (hlt : s.tickets.length < 2 ^ 63) : Faithful S s := by
  obtain ⟨turn, hinv⟩ := inv_reachable hS h2 h (by omega)
  exact hinv.faithful hS h2 (by omega)

/-- Two producers race for the first ticket; the winner stalls while the loser publishes the
second one, and the consumer waits for the first. -/
def race : List (Action Bool ℕ) :=
  List.flatten [[.enqueue true 7, .enqueue false 8, .producer true false, .producer false false,
    .producer true false, .producer false false, .producer true false, .producer false false],
    List.replicate 5 (.producer false false), List.replicate 3 (.consumer 0),
    List.replicate 3 (.producer true false), List.replicate 5 (.consumer 0)]

theorem reachable_faithful_race : ∃ s : Mpsc Bool ℕ, (machine 2).Reachable s ∧
    s.received = [7] ∧ s.tickets.map Ticket.producer = [true, false] ∧ Faithful 2 s := by
  have hrun : ((machine 2).run {} race).map (fun s => (s.received, s.tickets.map Ticket.producer)) =
      some ([7], [true, false]) := by decide +kernel
  obtain ⟨s, hs, heq⟩ := Option.map_eq_some_iff.mp hrun
  obtain ⟨hrec, hprod⟩ := Prod.mk.inj heq
  have hlen := congrArg List.length hprod
  rw [List.length_map] at hlen
  refine ⟨s, ⟨_, hs⟩, hrec, hprod, reachable_faithful (by decide) (by decide) ⟨_, hs⟩ ?_⟩
  rw [hlen]
  decide

end Mpsc

end LowLevel.Queues
