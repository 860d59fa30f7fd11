import LowLevel.Foundations.Ledger
import LowLevel.Foundations.Machine
import LowLevel.Foundations.Turns
import LowLevel.Queues.Fifo
import Mathlib.Data.Nat.ModEq

/-! # The single-producer single-consumer ring

The ring holds the values between `head` and `tail` and always leaves one cell
empty. Each thread writes one index and reads the other; what it reads may be
out of date when it acts on it, but the other thread can only have made room
or added values since.
-/

namespace LowLevel.Queues

/-- The producer in `enqueue`: before each of its loads and stores. -/
inductive Ring.Producer (T : Type*) where
  | idle
  | loadTail (value : T)
  | loadHead (t : ℕ) (value : T)
  | write (t : ℕ) (value : T)
  | storeTail (t : ℕ) (value : T)

/-- The consumer in `deque`. -/
inductive Ring.Consumer (T : Type*) where
  | idle
  | loadHead
  | loadTail (curr : ℕ)
  | move (curr : ℕ)
  | storeHead (curr : ℕ) (res : T)

/-- The ring with its two threads. The history records the calls when they take effect. -/
structure Ring (T : Type*) where
  data : ℕ → Content T := fun _ => .unspecified
  head : ℕ := 0
  tail : ℕ := 0
  producer : Ring.Producer T := .idle
  consumer : Ring.Consumer T := .idle
  history : List (Event T) := []

namespace Ring

variable {T : Type*} {S : ℕ} {s s' : Ring T} {queue : List T}

/-- Call an operation, or let a thread make its next load or store. -/
inductive Action (T : Type*) where
  | enqueue (value : T)
  | deque
  | producer
  | consumer (junk : T)

def enqueue (S : ℕ) (s : Ring T) : Option (Ring T) :=
  match s.producer with
  | .idle => none
  | .loadTail value => some { s with producer := .loadHead s.tail value }
  | .loadHead t value =>
    if (t + 1) % S = s.head then
      some { s with producer := .idle, history := s.history ++ [.enqueue value false] }
    else some { s with producer := .write t value }
  | .write t value =>
    some { s with data := Function.update s.data t (.value value), producer := .storeTail t value }
  | .storeTail t value => some { s with
      tail := (t + 1) % S
      producer := .idle
      history := s.history ++ [.enqueue value true] }

def deque (S : ℕ) (junk : T) (s : Ring T) : Option (Ring T) :=
  match s.consumer with
  | .idle => none
  | .loadHead => some { s with consumer := .loadTail s.head }
  | .loadTail curr =>
    if curr = s.tail then
      some { s with consumer := .idle, history := s.history ++ [.deque none] }
    else some { s with consumer := .move curr }
  | .move curr => some { s with
      data := Function.update s.data curr .unspecified
      consumer := .storeHead curr ((s.data curr).read junk) }
  | .storeHead curr res => some { s with
      head := (curr + 1) % S
      consumer := .idle
      history := s.history ++ [.deque (some res)] }

def step (S : ℕ) (s : Ring T) : Action T → Option (Ring T)
  | .enqueue value =>
    match s.producer with
    | .idle => some { s with producer := .loadTail value }
    | _ => none
  | .deque =>
    match s.consumer with
    | .idle => some { s with consumer := .loadHead }
    | _ => none
  | .producer => s.enqueue S
  | .consumer junk => s.deque S junk

def machine (S : ℕ) : Machine (Ring T) (Action T) := ⟨{}, step S⟩

/-- The cells with the value that the consumer has moved out and not yet given up. -/
def cells (s : Ring T) : ℕ → Content T :=
  match s.consumer with
  | .storeHead curr res => Function.update s.data curr (.value res)
  | _ => s.data

/-- What the producer knows: there is still room when it has seen room, and its value is in the
cell after the last one. -/
def Producer.Knows (S tail n : ℕ) (cells : ℕ → Content T) : Producer T → Prop
  | .idle | .loadTail _ => True
  | .loadHead t _ => t = tail
  | .write t _ => t = tail ∧ n + 1 < S
  | .storeTail t value => t = tail ∧ n + 1 < S ∧ cells t = .value value

/-- What the consumer knows: the queue is still not empty when it has seen a value. -/
def Consumer.Knows (head : ℕ) (queue : List T) : Consumer T → Prop
  | .idle | .loadHead => True
  | .loadTail curr => curr = head
  | .move curr => curr = head ∧ queue ≠ []
  | .storeHead curr res => curr = head ∧ queue.head? = some res

structure Inv (S : ℕ) (s : Ring T) (queue : List T) : Prop where
  history : History (fun n => n + 1 = S) s.history queue
  head : s.head < S
  tail : s.tail = (s.head + queue.length) % S
  length : queue.length < S
  cells : ∀ i v, queue[i]? = some v → s.cells ((s.head + i) % S) = .value v
  producer : s.producer.Knows S s.tail queue.length s.cells
  consumer : s.consumer.Knows s.head queue

theorem inv_init (hS : 1 ≤ S) : Inv S ({} : Ring T) [] :=
  ⟨.nil, hS, (Nat.zero_mod S).symm, hS, nofun, trivial, trivial⟩

theorem index_inj {h i j : ℕ} (hi : i < S) (hj : j < S) (heq : (h + i) % S = (h + j) % S) :
    i = j :=
  (Nat.ModEq.add_left_cancel' h heq).eq_of_lt_of_lt hi hj

namespace Inv

theorem tail_ne (h : Inv S s queue) {i : ℕ} (hi : i < queue.length) :
    (s.head + i) % S ≠ s.tail := by
  rw [h.tail]
  intro heq
  have := index_inj (Nat.lt_trans hi h.length) h.length heq
  omega

theorem head_mod (h : Inv S s queue) : (s.head + 0) % S = s.head := Nat.mod_eq_of_lt h.head

theorem full_iff (h : Inv S s queue) : (s.tail + 1) % S = s.head ↔ queue.length + 1 = S := by
  rw [h.tail, Nat.mod_add_mod, Nat.add_assoc]
  constructor
  · intro heq
    by_contra hne
    have hlen := h.length
    have := index_inj (i := queue.length + 1) (j := 0) (by omega) (by omega)
      (heq.trans h.head_mod.symm)
    omega
  · intro heq
    rw [heq, Nat.add_mod_right]
    exact Nat.mod_eq_of_lt h.head

theorem empty_iff (h : Inv S s queue) : s.head = s.tail ↔ queue = [] := by
  constructor
  · intro heq
    cases queue with
    | nil => rfl
    | cons v rest =>
      have hne := h.tail_ne (i := 0) (Nat.succ_pos _)
      rw [h.head_mod] at hne
      exact (hne heq).elim
  · rintro rfl
    rw [h.tail]
    exact h.head_mod.symm

theorem cells_write (h : Inv S s queue) (x : Content T) (producer : Producer T) :
    ({ s with data := Function.update s.data s.tail x, producer } : Ring T).cells =
      Function.update s.cells s.tail x := by
  cases hc : s.consumer with
  | storeHead curr res =>
    have hknows := h.consumer
    rw [hc] at hknows
    obtain ⟨rfl, hres⟩ := hknows
    have hlen : 0 < queue.length := by
      cases queue with
      | nil => cases hres
      | cons v rest => exact Nat.succ_pos _
    have hne := h.tail_ne hlen
    rw [h.head_mod] at hne
    simp only [Ring.cells, hc]
    exact (Function.update_comm hne ..).symm
  | _ => simp only [Ring.cells, hc]

theorem enqueue (h : Inv S s queue) (hs : s.enqueue S = some s') : ∃ queue', Inv S s' queue' := by
  have hknows := h.producer
  unfold Ring.enqueue at hs
  cases hp : s.producer with
  | idle =>
    rw [hp] at hs
    cases hs
  | loadTail value =>
    rw [hp] at hs
    cases hs
    exact ⟨queue, h.history, h.head, h.tail, h.length, h.cells, rfl, h.consumer⟩
  | loadHead t value =>
    rw [hp] at hs hknows
    obtain rfl : t = s.tail := hknows
    simp only [h.full_iff] at hs
    split at hs
    · rename_i hfull
      cases hs
      exact ⟨queue, h.history.refuse value hfull, h.head, h.tail, h.length, h.cells, trivial,
        h.consumer⟩
    · rename_i hroom
      cases hs
      have hlen := h.length
      exact ⟨queue, h.history, h.head, h.tail, h.length, h.cells, ⟨rfl, by omega⟩, h.consumer⟩
  | write t value =>
    rw [hp] at hs hknows
    obtain ⟨rfl, hroom⟩ := hknows
    cases hs
    have hcells := h.cells_write (.value value) (.storeTail s.tail value)
    refine ⟨queue, h.history, h.head, h.tail, h.length, ?_, ⟨rfl, hroom, ?_⟩, h.consumer⟩
    · intro i v hi
      rw [hcells, Function.update_of_ne (h.tail_ne (List.getElem?_eq_some_iff.mp hi).1)]
      exact h.cells i v hi
    · rw [hcells, Function.update_self]
  | storeTail t value =>
    rw [hp] at hs hknows
    obtain ⟨rfl, hroom, hcell⟩ := hknows
    cases hs
    have hlen : (queue ++ [value]).length = queue.length + 1 := List.length_append
    refine ⟨queue ++ [value], h.history.enqueue value, h.head, ?_, hlen ▸ hroom, ?_, trivial, ?_⟩
    · simp only [hlen, h.tail, Nat.mod_add_mod, Nat.add_assoc]
    · intro i v hi
      rcases get_concat hi with hi' | ⟨rfl, rfl⟩
      · exact h.cells i v hi'
      · rw [← h.tail]
        exact hcell
    · have hknows := h.consumer
      cases hc : s.consumer with
      | move curr =>
        rw [hc] at hknows
        exact ⟨hknows.1, by simp⟩
      | storeHead curr res =>
        rw [hc] at hknows
        exact ⟨hknows.1, by rw [List.head?_append, hknows.2]; rfl⟩
      | _ =>
        rw [hc] at hknows
        exact hknows

theorem pop {front : T} {rest : List T} (h : Inv S s (front :: rest))
    (hc : s.consumer = .storeHead s.head front) :
    Inv S { s with
      head := (s.head + 1) % S
      consumer := .idle
      history := s.history ++ [.deque (some front)] } rest := by
  have hlen := h.length
  rw [List.length_cons] at hlen
  have hother : ∀ i, i ≠ s.head → s.data i = s.cells i := by
    intro i hi
    simp only [Ring.cells, hc, Function.update_of_ne hi]
  constructor
  case history => exact h.history.deque
  case head => exact Nat.mod_lt _ (by omega)
  case tail =>
    show s.tail = ((s.head + 1) % S + rest.length) % S
    rw [h.tail, List.length_cons, Nat.mod_add_mod, Nat.add_assoc, Nat.add_comm 1]
  case length => show rest.length < S; omega
  case cells =>
    intro i v hi
    show s.data (((s.head + 1) % S + i) % S) = .value v
    rw [Nat.mod_add_mod, Nat.add_assoc, Nat.add_comm 1, hother]
    · exact h.cells (i + 1) v hi
    · intro heq
      have hi := (List.getElem?_eq_some_iff.mp hi).1
      have := index_inj (i := i + 1) (j := 0) (by omega) (by omega) (heq.trans h.head_mod.symm)
      omega
  case producer =>
    have hknows := h.producer
    cases hp : s.producer with
    | write t value =>
      rw [hp] at hknows
      exact ⟨hknows.1, Nat.lt_of_succ_lt hknows.2⟩
    | storeTail t value =>
      rw [hp] at hknows
      obtain ⟨rfl, hroom, hcell⟩ := hknows
      have hne := h.tail_ne (i := 0) (Nat.succ_pos _)
      rw [h.head_mod] at hne
      exact ⟨rfl, Nat.lt_of_succ_lt hroom, (hother _ hne.symm).trans hcell⟩
    | _ =>
      rw [hp] at hknows
      exact hknows
  case consumer => trivial

theorem deque {junk : T} (h : Inv S s queue) (hs : s.deque S junk = some s') :
    ∃ queue', Inv S s' queue' := by
  have hknows := h.consumer
  have hcells := h.cells
  have hprod := h.producer
  unfold Ring.deque at hs
  cases hc : s.consumer with
  | idle =>
    rw [hc] at hs
    cases hs
  | loadHead =>
    rw [hc] at hs
    simp only [Ring.cells, hc] at hcells hprod
    cases hs
    exact ⟨queue, h.history, h.head, h.tail, h.length, hcells, hprod, rfl⟩
  | loadTail curr =>
    rw [hc] at hs hknows
    simp only [Ring.cells, hc] at hcells hprod
    obtain rfl : curr = s.head := hknows
    simp only [h.empty_iff] at hs
    split at hs
    · rename_i hempty
      cases hs
      subst hempty
      exact ⟨[], h.history.empty, h.head, h.tail, h.length, hcells, hprod, trivial⟩
    · rename_i hne
      cases hs
      exact ⟨queue, h.history, h.head, h.tail, h.length, hcells, hprod, rfl, hne⟩
  | move curr =>
    rw [hc] at hs hknows
    simp only [Ring.cells, hc] at hcells hprod
    obtain ⟨rfl, hne⟩ := hknows
    cases queue with
    | nil => exact (hne rfl).elim
    | cons front rest =>
      have hfront := hcells 0 front rfl
      rw [h.head_mod] at hfront
      simp only [hfront, Content.read] at hs
      cases hs
      -- what the consumer has in hand counts as still in the cell
      have hsame : ∀ x, Function.update (Function.update s.data s.head x) s.head (.value front) =
          s.data := by
        intro x
        rw [Function.update_idem, ← hfront, Function.update_eq_self]
      refine ⟨front :: rest, h.history, h.head, h.tail, h.length, ?_, ?_, rfl, rfl⟩
      · simpa only [Ring.cells, hsame] using hcells
      · simpa only [Ring.cells, hsame] using hprod
  | storeHead curr res =>
    rw [hc] at hs hknows
    obtain ⟨rfl, hres⟩ := hknows
    cases hs
    cases queue with
    | nil => cases hres
    | cons front rest =>
      obtain rfl : front = res := Option.some.inj hres
      exact ⟨rest, h.pop hc⟩

theorem step {a : Action T} (h : Inv S s queue) (hs : step S s a = some s') :
    ∃ queue', Inv S s' queue' := by
  cases a with
  | enqueue value =>
    simp only [Ring.step] at hs
    split at hs
    · cases hs
      exact ⟨queue, h.history, h.head, h.tail, h.length, h.cells, trivial, h.consumer⟩
    · cases hs
  | deque =>
    simp only [Ring.step] at hs
    split at hs
    · rename_i hc
      have hcells := h.cells
      have hprod := h.producer
      simp only [Ring.cells, hc] at hcells hprod
      cases hs
      exact ⟨queue, h.history, h.head, h.tail, h.length, hcells, hprod, trivial⟩
    · cases hs
  | producer => exact h.enqueue hs
  | consumer junk => exact h.deque hs

end Inv

/-- Every interleaving is a history of the lock-based queue, with a call of `enqueue` refused
only when `S - 1` values are in the queue. -/
theorem inv_reachable (hS : 1 ≤ S) (h : (machine S).Reachable s) : ∃ queue, Inv S s queue := by
  refine h.invariant (P := fun s => ∃ queue, Inv S s queue) ⟨[], inv_init hS⟩ ?_
  rintro s a s' ⟨queue, hinv⟩ hstep
  exact hinv.step hstep

end Ring

end LowLevel.Queues
