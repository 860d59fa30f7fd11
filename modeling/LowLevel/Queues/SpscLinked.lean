import LowLevel.Queues.SpscRing
import Mathlib.Data.List.Nodup

/-! # The single-producer single-consumer linked queue

The queue is a chain of nodes that ends in a node without a value. The
producer fills that node and appends a new one; the consumer empties the first
node, moves `head` past it and frees it. A freed node may be handed out again
at the same address, so the heap says at any time which nodes are live, and
whether a thread has ever reached through a pointer to one that is not.
-/

namespace LowLevel.Queues

structure Linked.Node (T : Type*) where
  data : Option T := none
  next : Option ℕ := none

/-- The producer in `enqueue`: before each of its loads and stores. -/
inductive Linked.Producer (T : Type*) where
  | idle
  | loadTail (data : T)
  | newNode (t : Option ℕ) (data : T)
  | setData (t : Option ℕ) (new : ℕ) (data : T)
  | setNext (t : Option ℕ) (new : ℕ) (data : T)
  | storeTail (new : ℕ) (data : T)

/-- The consumer in `deque`. -/
inductive Linked.Consumer (T : Type*) where
  | idle
  | loadHead
  | loadTail (h : Option ℕ)
  | move (h : Option ℕ)
  | loadNext (h : Option ℕ) (res : Option T)
  | clearNext (h : Option ℕ) (res : Option T) (nxt : Option ℕ)
  | storeHead (h : Option ℕ) (res : Option T) (nxt : Option ℕ)
  | delete (h : Option ℕ) (res : Option T)

/-- The queue with its two threads. The history records the calls when they take effect and the
results of the completed calls of `deque`; `fault` is set by an access to a node that is not
live. -/
structure Linked (T : Type*) where
  heap : ℕ → Linked.Node T
  live : ℕ → Bool
  head : Option ℕ
  tail : Option ℕ
  producer : Linked.Producer T := .idle
  consumer : Linked.Consumer T := .idle
  history : List (Event T) := []
  got : List (Option T) := []
  fault : Bool := false

namespace Linked

variable {T : Type*} {s s' : Linked T} {heap heap' : ℕ → Node T} {a b first last : ℕ}
  {entries : List (ℕ × T)}

/-- Call an operation, or let a thread make its next load or store. The address of a new node is
up to the allocator. -/
inductive Action (T : Type*) where
  | enqueue (data : T)
  | deque
  | producer (new : ℕ)
  | consumer

def isLive (s : Linked T) : Option ℕ → Bool
  | some a => s.live a
  | none => false

def access (s : Linked T) (p : Option ℕ) : Linked T := { s with fault := s.fault || !s.isLive p }

def node (s : Linked T) : Option ℕ → Node T
  | some a => s.heap a
  | none => {}

def setNode (s : Linked T) (p : Option ℕ) (n : Node T) : Linked T :=
  match p with
  | some a => { s.access p with heap := Function.update s.heap a n }
  | none => s.access p

def init (dummy : ℕ) : Linked T where
  heap _ := {}
  live := Function.update (fun _ => false) dummy true
  head := some dummy
  tail := some dummy

def enqueue (s : Linked T) (new : ℕ) : Option (Linked T) :=
  match s.producer with
  | .idle => none
  | .loadTail data => some { s with producer := .newNode s.tail data }
  | .newNode t data =>
    -- the allocator hands out no live node
    if s.live new then none
    else some { s with
      heap := Function.update s.heap new {}
      live := Function.update s.live new true
      producer := .setData t new data }
  | .setData t new data =>
    some { s.setNode t { s.node t with data := some data } with producer := .setNext t new data }
  | .setNext t new data =>
    some { s.setNode t { s.node t with next := some new } with producer := .storeTail new data }
  | .storeTail new data => some { s with
      tail := some new
      producer := .idle
      history := s.history ++ [.enqueue data true] }

def deque (s : Linked T) : Option (Linked T) :=
  match s.consumer with
  | .idle => none
  | .loadHead => some { s with consumer := .loadTail s.head }
  | .loadTail h =>
    if h = s.tail then some { s with
      consumer := .idle
      history := s.history ++ [.deque none]
      got := s.got ++ [none] }
    else some { s with consumer := .move h }
  | .move h =>
    some { s.setNode h { s.node h with data := none } with
      consumer := .loadNext h (s.node h).data }
  | .loadNext h res =>
    some { s.access h with consumer := .clearNext h res (s.node h).next }
  | .clearNext h res nxt =>
    some { s.setNode h { s.node h with next := none } with consumer := .storeHead h res nxt }
  | .storeHead h res nxt => some { s with
      head := nxt
      consumer := .delete h res
      history := s.history ++ [.deque res] }
  | .delete h res =>
    match h with
    | some a => some { s.access h with
        live := Function.update s.live a false
        consumer := .idle
        got := s.got ++ [res] }
    | none => some { s with consumer := .idle, got := s.got ++ [res] }

def step (s : Linked T) : Action T → Option (Linked T)
  | .enqueue data =>
    match s.producer with
    | .idle => some { s with producer := .loadTail data }
    | _ => none
  | .deque =>
    match s.consumer with
    | .idle => some { s with consumer := .loadHead }
    | _ => none
  | .producer new => s.enqueue new
  | .consumer => s.deque

def machine (dummy : ℕ) : Machine (Linked T) (Action T) := ⟨init dummy, step⟩

/-- The nodes from `a` on hold the entries, each at its address, and end at the node `b`. -/
def Chain (heap : ℕ → Node T) (a : ℕ) : List (ℕ × T) → ℕ → Prop
  | [], b => a = b
  | (x, v) :: rest, b => x = a ∧ ∃ n, heap a = ⟨some v, some n⟩ ∧ Chain heap n rest b

namespace Chain

theorem congr (h : Chain heap a entries b) (heq : ∀ x ∈ entries.map Prod.fst, heap' x = heap x) :
    Chain heap' a entries b := by
  induction entries generalizing a with
  | nil => exact h
  | cons e rest ih =>
    obtain ⟨rfl, n, hn, hrest⟩ := h
    refine ⟨rfl, n, (heq _ (List.mem_cons_self ..)).trans hn, ih hrest ?_⟩
    exact fun x hx => heq x (List.mem_cons_of_mem _ hx)

theorem concat {v : T} {n : ℕ} (h : Chain heap a entries b) (hb : heap b = ⟨some v, some n⟩) :
    Chain heap a (entries ++ [(b, v)]) n := by
  induction entries generalizing a with
  | nil =>
    obtain rfl : a = b := h
    exact ⟨rfl, n, hb, rfl⟩
  | cons e rest ih =>
    obtain ⟨rfl, m, hm, hrest⟩ := h
    exact ⟨rfl, m, hm, ih hrest⟩

end Chain

/-- The heap with what the consumer has taken out of the first node and not yet passed by. -/
def Consumer.restore (heap : ℕ → Node T) : Consumer T → ℕ → Node T
  | .loadNext (some h) res | .clearNext (some h) res _ =>
    Function.update heap h { heap h with data := res }
  | .storeHead (some h) res nxt => Function.update heap h ⟨res, nxt⟩
  | _ => heap

/-- The node that the producer has got from the allocator and not yet linked. -/
def Producer.new? : Producer T → Option ℕ
  | .setData _ new _ | .setNext _ new _ | .storeTail new _ => some new
  | _ => none

def Producer.Knows (heap : ℕ → Node T) (last : ℕ) : Producer T → Prop
  | .idle | .loadTail _ => True
  | .newNode t _ | .setData t _ _ => t = some last
  | .setNext t _ data => t = some last ∧ (heap last).data = some data
  | .storeTail new data => heap last = ⟨some data, some new⟩

/-- What the consumer knows of the first node, and of the one that it has passed. -/
def Consumer.Knows (s : Linked T) (nodes : List ℕ) (first : ℕ) (entries : List (ℕ × T)) :
    Consumer T → Prop
  | .idle | .loadHead => True
  | .loadTail h => h = some first
  | .move h | .loadNext h _ | .storeHead h _ _ => h = some first ∧ entries ≠ []
  | .clearNext h _ nxt => h = some first ∧ entries ≠ [] ∧ nxt = (s.heap first).next
  | .delete h _ => ∃ x, h = some x ∧ s.live x = true ∧ x ∉ nodes ∧ s.producer.new? ≠ some x

theorem Consumer.Knows.mono {c : Consumer T} {ns ns' : List ℕ} {entries' : List (ℕ × T)}
    (h : c.Knows s ns first entries) (hentries : entries ≠ [] → entries' ≠ [])
    (hheap : entries ≠ [] → (s'.heap first).next = (s.heap first).next)
    (hpassed : ∀ x, s.live x = true → x ∉ ns → s.producer.new? ≠ some x →
      s'.live x = true ∧ x ∉ ns' ∧ s'.producer.new? ≠ some x) :
    c.Knows s' ns' first entries' := by
  cases c with
  | idle | loadHead | loadTail p => exact h
  | move p | loadNext p res | storeHead p res nxt => exact ⟨h.1, hentries h.2⟩
  | clearNext p res nxt => exact ⟨h.1, hentries h.2.1, h.2.2.trans (hheap h.2.1).symm⟩
  | delete p res =>
    obtain ⟨x, hx, hlive, hnot, hnew⟩ := h
    exact ⟨x, hx, hpassed x hlive hnot hnew⟩

/-- The result that a call of `deque` is about to return. -/
def Consumer.pending : Consumer T → List (Option T)
  | .delete _ res => [res]
  | _ => []

/-- The results of the calls of `deque` that have taken effect. -/
def results (events : List (Event T)) : List (Option T) :=
  events.filterMap fun e => match e with
    | .deque result => some result
    | _ => none

theorem results_enqueue (events : List (Event T)) (value : T) (result : Bool) :
    results (events ++ [.enqueue value result]) = results events := by
  simp [results]

theorem results_deque (events : List (Event T)) (result : Option T) :
    results (events ++ [.deque result]) = results events ++ [result] := by
  simp [results]

/-- The nodes of the queue: those with a value, and the last one. -/
def nodes (entries : List (ℕ × T)) (last : ℕ) : List ℕ := entries.map Prod.fst ++ [last]

structure Inv (s : Linked T) (entries : List (ℕ × T)) (first last : ℕ) : Prop where
  history : History (fun _ => False) s.history (entries.map Prod.snd)
  chain : Chain (s.consumer.restore s.heap) first entries last
  nodup : (nodes entries last).Nodup
  live : ∀ x ∈ nodes entries last, s.live x = true
  head : s.head = some first
  tail : s.tail = some last
  new : ∀ x, s.producer.new? = some x → s.live x = true ∧ x ∉ nodes entries last
  producer : s.producer.Knows (s.consumer.restore s.heap) last
  consumer : s.consumer.Knows s (nodes entries last) first entries
  got : s.got ++ s.consumer.pending = results s.history
  fault : s.fault = false

theorem inv_init (dummy : ℕ) : Inv (init dummy : Linked T) [] dummy dummy := by
  refine ⟨.nil, rfl, List.nodup_singleton _, ?_, rfl, rfl, nofun, trivial, trivial, rfl, rfl⟩
  intro x hx
  obtain rfl : x = dummy := List.mem_singleton.mp hx
  simp [init]

namespace Inv

theorem first_mem (h : Inv s entries first last) : first ∈ nodes entries last := by
  have hchain := h.chain
  cases entries with
  | nil =>
    obtain rfl : first = last := hchain
    exact List.mem_singleton_self _
  | cons e rest =>
    obtain ⟨rfl, -⟩ := hchain
    exact List.mem_cons_self ..

theorem last_mem : last ∈ nodes entries last := List.mem_append_right _ (List.mem_singleton_self _)

theorem empty_iff (h : Inv s entries first last) : first = last ↔ entries = [] := by
  have hchain := h.chain
  have hnodup := h.nodup
  cases entries with
  | nil => exact ⟨fun _ => rfl, fun _ => hchain⟩
  | cons e rest =>
    obtain ⟨rfl, -⟩ := hchain
    constructor
    · rintro rfl
      have hnot := (List.nodup_cons.mp hnodup).1
      exact (hnot (List.mem_append_right _ (List.mem_singleton_self _))).elim
    · nofun

theorem restore_cases (h : Inv s entries first last) :
    (∀ heap, s.consumer.restore heap = heap) ∨
      entries ≠ [] ∧ ∃ f : Node T → Node T,
        ∀ heap, s.consumer.restore heap = Function.update heap first (f (heap first)) := by
  have hknows := h.consumer
  cases hc : s.consumer with
  | loadNext p res =>
    rw [hc] at hknows
    obtain ⟨rfl, hentries⟩ := hknows
    exact .inr ⟨hentries, fun n => { n with data := res }, fun _ => rfl⟩
  | storeHead p res nxt =>
    rw [hc] at hknows
    obtain ⟨rfl, hentries⟩ := hknows
    exact .inr ⟨hentries, fun _ => ⟨res, nxt⟩, fun _ => rfl⟩
  | clearNext p res nxt =>
    rw [hc] at hknows
    obtain ⟨rfl, hentries, -⟩ := hknows
    exact .inr ⟨hentries, fun n => { n with data := res }, fun _ => rfl⟩
  | _ => exact .inl fun _ => rfl

theorem restore_update (h : Inv s entries first last) (hne : entries ≠ [] → a ≠ first)
    (n : Node T) :
    s.consumer.restore (Function.update s.heap a n) =
      Function.update (s.consumer.restore s.heap) a n := by
  rcases h.restore_cases with hsame | ⟨hentries, f, hrestore⟩
  · rw [hsame, hsame]
  · have hfirst := hne hentries
    rw [hrestore, hrestore, Function.update_of_ne hfirst.symm]
    exact (Function.update_comm hfirst.symm ..).symm

theorem last_ne_first (h : Inv s entries first last) (hne : entries ≠ []) : last ≠ first := by
  intro heq
  exact hne (h.empty_iff.mp heq.symm)

theorem last_notMem (h : Inv s entries first last) : last ∉ entries.map Prod.fst := by
  intro hmem
  exact (List.nodup_append.mp h.nodup).2.2 last hmem last (List.mem_singleton_self _) rfl

theorem setProducer {producer : Producer T} (h : Inv s entries first last)
    (hnew : producer.new? = s.producer.new?)
    (hknows : producer.Knows (s.consumer.restore s.heap) last) :
    Inv { s with producer } entries first last := by
  refine ⟨h.history, h.chain, h.nodup, h.live, h.head, h.tail, ?_, hknows, ?_, h.got, h.fault⟩
  · exact fun x hx => h.new x (hnew ▸ hx)
  · apply h.consumer.mono id
    · exact fun _ => rfl
    · exact fun x hlive hnot hx => ⟨hlive, hnot, fun he => hx (hnew ▸ he)⟩

theorem isLive_last (h : Inv s entries first last) : s.isLive (some last) = true :=
  h.live last last_mem

theorem writeLast {n : Node T} {producer : Producer T} (h : Inv s entries first last)
    (hnew : producer.new? = s.producer.new?)
    (hknows : producer.Knows (Function.update (s.consumer.restore s.heap) last n) last) :
    Inv { s.setNode (some last) n with producer } entries first last := by
  have hrestore := h.restore_update h.last_ne_first n
  refine ⟨h.history, ?_, h.nodup, h.live, h.head, h.tail, ?_, ?_, ?_, h.got, ?_⟩
  · show Chain (s.consumer.restore (Function.update s.heap last n)) first entries last
    rw [hrestore]
    apply h.chain.congr
    intro x hx
    rw [Function.update_of_ne]
    rintro rfl
    exact h.last_notMem hx
  · intro x hx
    exact h.new x (hnew ▸ hx)
  · show producer.Knows (s.consumer.restore (Function.update s.heap last n)) last
    rw [hrestore]
    exact hknows
  · apply h.consumer.mono id
    · intro hne
      show (Function.update s.heap last n first).next = _
      rw [Function.update_of_ne (h.last_ne_first hne).symm]
    · intro x hlive hnot hx
      exact ⟨hlive, hnot, fun he => hx (hnew ▸ he)⟩
  · show (s.fault || !s.isLive (some last)) = false
    rw [h.fault, h.isLive_last]
    rfl

theorem restore_last (h : Inv s entries first last) :
    s.consumer.restore s.heap last = s.heap last := by
  rcases h.restore_cases with hsame | ⟨hentries, f, hrestore⟩
  · rw [hsame]
  · rw [hrestore, Function.update_of_ne (h.last_ne_first hentries)]

theorem newNode {new : ℕ} (h : Inv s entries first last) (hdead : s.live new = false)
    (data : T) :
    Inv { s with
      heap := Function.update s.heap new {}
      live := Function.update s.live new true
      producer := .setData (some last) new data } entries first last := by
  have hne : ∀ x, s.live x = true → x ≠ new := by
    rintro x hx rfl
    rw [hdead] at hx
    cases hx
  have hfirst : entries ≠ [] → new ≠ first := fun _ =>
    (hne first (h.live first h.first_mem)).symm
  have hlive : ∀ x, s.live x = true → Function.update s.live new true x = true := by
    intro x hx
    rw [Function.update_of_ne (hne x hx), hx]
  refine ⟨h.history, ?_, h.nodup, ?_, h.head, h.tail, ?_, rfl, ?_, h.got, h.fault⟩
  · show Chain (s.consumer.restore (Function.update s.heap new {})) first entries last
    rw [h.restore_update hfirst]
    apply h.chain.congr
    intro x hx
    exact Function.update_of_ne (hne x (h.live x (List.mem_append_left _ hx))) ..
  · exact fun x hx => hlive x (h.live x hx)
  · rintro x ⟨⟩
    refine ⟨Function.update_self .., fun hx => ?_⟩
    exact hne new (h.live new hx) rfl
  · apply h.consumer.mono id
    · intro hentries
      show (Function.update s.heap new {} first).next = _
      rw [Function.update_of_ne (hfirst hentries).symm]
    · intro x hx hnot _
      refine ⟨hlive x hx, hnot, ?_⟩
      intro hnew
      exact hne x hx (Option.some.inj hnew).symm

theorem storeTail {new : ℕ} {data : T} (h : Inv s entries first last)
    (hp : s.producer = .storeTail new data) :
    Inv { s with
      tail := some new
      producer := .idle
      history := s.history ++ [.enqueue data true] } (entries ++ [(last, data)]) first new := by
  obtain ⟨hlive, hnot⟩ := h.new new (by rw [hp]; rfl)
  have hknows := h.producer
  rw [hp] at hknows
  have hnodes : nodes (entries ++ [(last, data)]) new = nodes entries last ++ [new] := by
    simp [nodes]
  refine ⟨?_, h.chain.concat hknows, ?_, ?_, h.head, rfl, nofun, trivial, ?_, ?_, h.fault⟩
  · rw [List.map_append]
    exact h.history.enqueue data
  · rw [hnodes]
    apply List.nodup_append.mpr
    refine ⟨h.nodup, List.nodup_singleton _, ?_⟩
    rintro x hx y hy rfl
    obtain rfl := List.mem_singleton.mp hy
    exact hnot hx
  · intro x hx
    rw [hnodes] at hx
    rcases List.mem_append.mp hx with hx | hx
    · exact h.live x hx
    · obtain rfl := List.mem_singleton.mp hx
      exact hlive
  · rw [hnodes]
    apply h.consumer.mono
    · exact fun _ => List.append_ne_nil_of_right_ne_nil _ (List.cons_ne_nil _ _)
    · exact fun _ => rfl
    · intro x hx hout hnew
      refine ⟨hx, ?_, nofun⟩
      rw [List.mem_append, List.mem_singleton]
      rintro (hmem | rfl)
      · exact hout hmem
      · rw [hp] at hnew
        exact hnew rfl
  · rw [results_enqueue]
    exact h.got

theorem enqueue {new : ℕ} (h : Inv s entries first last) (hs : s.enqueue new = some s') :
    ∃ entries' first' last', Inv s' entries' first' last' := by
  have hknows := h.producer
  unfold Linked.enqueue at hs
  cases hp : s.producer with
  | idle =>
    rw [hp] at hs
    cases hs
  | loadTail data =>
    rw [hp] at hs
    cases hs
    refine ⟨entries, first, last, h.setProducer ?_ h.tail⟩
    rw [hp]
    rfl
  | newNode t data =>
    rw [hp] at hs hknows
    obtain rfl : t = some last := hknows
    simp only at hs
    split at hs
    · cases hs
    · rename_i hdead
      cases hs
      exact ⟨entries, first, last, h.newNode (Bool.not_eq_true _ ▸ hdead) data⟩
  | setData t new data =>
    rw [hp] at hs hknows
    obtain rfl : t = some last := hknows
    cases hs
    refine ⟨entries, first, last, h.writeLast (by rw [hp]; rfl) ⟨rfl, ?_⟩⟩
    rw [Function.update_self]
  | setNext t new data =>
    rw [hp] at hs hknows
    obtain ⟨rfl, hdata⟩ := hknows
    cases hs
    refine ⟨entries, first, last, h.writeLast (by rw [hp]; rfl) ?_⟩
    rw [h.restore_last] at hdata
    show Function.update _ last _ last = _
    rw [Function.update_self, ← hdata]
    rfl
  | storeTail new data =>
    rw [hp] at hs
    cases hs
    exact ⟨_, first, new, h.storeTail hp⟩

theorem setConsumer (h : Inv s entries first last) (heap : ℕ → Node T) (consumer : Consumer T)
    {fault : Bool} (hrestore : consumer.restore heap = s.consumer.restore s.heap)
    (hknows : consumer.Knows { s with heap } (nodes entries last) first entries)
    (hpending : consumer.pending = s.consumer.pending) (hfault : fault = false) :
    Inv { s with heap, consumer, fault } entries first last := by
  refine ⟨h.history, ?_, h.nodup, h.live, h.head, h.tail, h.new, ?_, ?_, ?_, hfault⟩
  · exact hrestore ▸ h.chain
  · exact hrestore ▸ h.producer
  · exact hknows.mono id (fun _ => rfl) fun x hlive hnot hnew => ⟨hlive, hnot, hnew⟩
  · exact hpending ▸ h.got

theorem access_fault (h : Inv s entries first last) :
    (s.fault || !s.isLive (some first)) = false := by
  rw [h.fault, isLive, h.live first h.first_mem]
  rfl

theorem storeHead {res : Option T} {nxt : Option ℕ} (h : Inv s entries first last)
    (hc : s.consumer = .storeHead (some first) res nxt) (hne : entries ≠ []) :
    ∃ entries' first', Inv { s with
      head := nxt
      consumer := .delete (some first) res
      history := s.history ++ [.deque res] } entries' first' last := by
  have hchain := h.chain
  have hnodup := h.nodup
  have hknows := h.producer
  rw [hc] at hchain hknows
  cases entries with
  | nil => exact (hne rfl).elim
  | cons e rest =>
    obtain ⟨rfl, n, hn, hrest⟩ := hchain
    obtain ⟨rfl, rfl⟩ : res = some e.2 ∧ nxt = some n := by
      simpa [Consumer.restore] using hn
    have hnot : e.1 ∉ nodes rest last := (List.nodup_cons.mp hnodup).1
    have hother : ∀ x ∈ nodes rest last,
        s.heap x = (Consumer.storeHead (some e.1) (some e.2) (some n)).restore s.heap x := by
      intro x hx
      rw [Consumer.restore, Function.update_of_ne]
      rintro rfl
      exact hnot hx
    refine ⟨rest, n, ?_⟩
    constructor
    case history => exact h.history.deque
    case chain => exact hrest.congr fun x hx => hother x (List.mem_append_left _ hx)
    case nodup => exact (List.nodup_cons.mp hnodup).2
    case live => exact fun x hx => h.live x (List.mem_cons_of_mem _ hx)
    case head => rfl
    case tail => exact h.tail
    case new =>
      intro x hx
      obtain ⟨hlive, hout⟩ := h.new x hx
      exact ⟨hlive, fun hmem => hout (List.mem_cons_of_mem _ hmem)⟩
    case producer =>
      have hlast := hother last last_mem
      cases hp : s.producer with
      | setNext t new data =>
        rw [hp] at hknows
        exact ⟨hknows.1, (congrArg Node.data hlast).trans hknows.2⟩
      | storeTail new data =>
        rw [hp] at hknows
        exact hlast.trans hknows
      | _ =>
        rw [hp] at hknows
        exact hknows
    case consumer =>
      refine ⟨e.1, rfl, h.live _ h.first_mem, hnot, ?_⟩
      intro hnew
      exact (h.new _ hnew).2 h.first_mem
    case got =>
      have hgot : s.got = results s.history := by
        simpa only [hc, Consumer.pending, List.append_nil] using h.got
      rw [results_deque, ← hgot]
      rfl
    case fault => exact h.fault

theorem delete {x : ℕ} {res : Option T} (h : Inv s entries first last)
    (hc : s.consumer = .delete (some x) res) :
    Inv { s.access (some x) with
      live := Function.update s.live x false
      consumer := .idle
      got := s.got ++ [res] } entries first last := by
  have hknows := h.consumer
  have hchain := h.chain
  have hprod := h.producer
  have hgot := h.got
  rw [hc] at hknows hchain hprod hgot
  obtain ⟨y, hy, hlive, hnot, hnew⟩ := hknows
  obtain rfl := Option.some.inj hy
  have hkeep : ∀ z, z ≠ x → s.live z = true → Function.update s.live x false z = true := by
    intro z hz hz'
    rw [Function.update_of_ne hz, hz']
  refine ⟨h.history, hchain, h.nodup, ?_, h.head, h.tail, ?_, hprod, trivial, ?_, ?_⟩
  · intro z hz
    apply hkeep z _ (h.live z hz)
    rintro rfl
    exact hnot hz
  · intro z hz
    obtain ⟨hz', hout⟩ := h.new z hz
    refine ⟨hkeep z ?_ hz', hout⟩
    rintro rfl
    exact hnew hz
  · show (s.got ++ [res]) ++ [] = results s.history
    rw [List.append_nil]
    exact hgot
  · show (s.fault || !s.isLive (some x)) = false
    rw [h.fault, isLive, hlive]
    rfl

/-- A `deque` that finds the dummy node alone returns null. -/
theorem deque_empty {p : Option ℕ} (h : Inv s [] first last) (hc : s.consumer = .loadTail p) :
    Inv { s with
      consumer := .idle
      got := s.got ++ [none]
      history := s.history ++ [.deque none] } [] first last := by
  have hgot : s.got = results s.history := by
    simpa only [hc, Consumer.pending, List.append_nil] using h.got
  have hinv := h.setConsumer s.heap .idle (by rw [hc]; rfl) trivial (by rw [hc]; rfl) h.fault
  refine ⟨h.history.empty, hinv.chain, h.nodup, h.live, h.head, h.tail, h.new, hinv.producer,
    trivial, ?_, h.fault⟩
  rw [results_deque, ← hgot]
  exact List.append_nil _

theorem deque (h : Inv s entries first last) (hs : s.deque = some s') :
    ∃ entries' first', Inv s' entries' first' last := by
  have hknows := h.consumer
  unfold Linked.deque at hs
  cases hc : s.consumer with
  | idle =>
    rw [hc] at hs
    cases hs
  | loadHead =>
    rw [hc] at hs
    cases hs
    exact ⟨entries, first, h.setConsumer s.heap (.loadTail s.head) (by rw [hc]; rfl) h.head
      (by rw [hc]; rfl) h.fault⟩
  | loadTail p =>
    rw [hc] at hs hknows
    obtain rfl : p = some first := hknows
    simp only at hs
    split at hs
    · rename_i heq
      obtain rfl := h.empty_iff.mp (Option.some.inj (heq.trans h.tail))
      cases hs
      exact ⟨[], first, h.deque_empty hc⟩
    · rename_i heq
      cases hs
      have hne : entries ≠ [] := by
        intro hempty
        exact heq (by rw [h.tail, h.empty_iff.mpr hempty])
      exact ⟨entries, first, h.setConsumer s.heap (.move (some first)) (by rw [hc]; rfl) ⟨rfl, hne⟩
        (by rw [hc]; rfl) h.fault⟩
  | move p =>
    rw [hc] at hs hknows
    obtain ⟨rfl, hne⟩ := hknows
    cases hs
    refine ⟨entries, first, h.setConsumer
      (Function.update s.heap first { s.heap first with data := none })
      (.loadNext (some first) (s.heap first).data) ?_ ⟨rfl, hne⟩ (by rw [hc]; rfl) h.access_fault⟩
    rw [hc]
    simp [Consumer.restore, Function.update_idem]
  | loadNext p res =>
    rw [hc] at hs hknows
    obtain ⟨rfl, hne⟩ := hknows
    cases hs
    exact ⟨entries, first, h.setConsumer s.heap (.clearNext (some first) res (s.heap first).next)
      (by rw [hc]; rfl) ⟨rfl, hne, rfl⟩ (by rw [hc]; rfl) h.access_fault⟩
  | clearNext p res nxt =>
    rw [hc] at hs hknows
    obtain ⟨rfl, hne, rfl⟩ := hknows
    cases hs
    refine ⟨entries, first, h.setConsumer
      (Function.update s.heap first { s.heap first with next := none })
      (.storeHead (some first) res (s.heap first).next) ?_ ⟨rfl, hne⟩ (by rw [hc]; rfl)
      h.access_fault⟩
    rw [hc]
    simp [Consumer.restore, Function.update_idem]
  | storeHead p res nxt =>
    rw [hc] at hs hknows
    obtain ⟨rfl, hne⟩ := hknows
    cases hs
    exact h.storeHead hc hne
  | delete p res =>
    rw [hc] at hs hknows
    obtain ⟨x, rfl, -⟩ := hknows
    cases hs
    exact ⟨entries, first, h.delete hc⟩

theorem step {a : Action T} (h : Inv s entries first last) (hs : s.step a = some s') :
    ∃ entries' first' last', Inv s' entries' first' last' := by
  cases a with
  | enqueue data =>
    simp only [Linked.step] at hs
    split at hs
    · rename_i hp
      cases hs
      exact ⟨entries, first, last, h.setProducer (by rw [hp]; rfl) trivial⟩
    · cases hs
  | deque =>
    simp only [Linked.step] at hs
    split at hs
    · rename_i hc
      cases hs
      exact ⟨entries, first, last, h.setConsumer s.heap .loadHead (by rw [hc]; rfl) trivial
        (by rw [hc]; rfl) h.fault⟩
    · cases hs
  | producer new => exact h.enqueue hs
  | consumer =>
    obtain ⟨entries', first', hinv⟩ := h.deque hs
    exact ⟨entries', first', last, hinv⟩

end Inv

theorem inv_reachable {dummy : ℕ} (h : (machine dummy).Reachable s) :
    ∃ entries first last, Inv s entries first last := by
  refine h.invariant (P := fun s => ∃ entries first last, Inv s entries first last)
    ⟨[], dummy, dummy, inv_init dummy⟩ ?_
  rintro s a s' ⟨entries, first, last, hinv⟩ hstep
  exact hinv.step hstep

end Linked

end LowLevel.Queues
