import LowLevel.Foundations.Machine
import LowLevel.Foundations.Reassembly
import Mathlib.Data.Int.Notation
import Mathlib.Data.List.Basic
import Mathlib.Data.Nat.Notation
import Mathlib.Logic.Function.Basic

/-! # The receiver of several streams

One loop waits for the listening socket and for all clients. It accepts clients
and reads from them what is there, puts the pieces of each client together, and
prints a message when it is complete.
-/

namespace LowLevel.Network.MultiRx

def messageSize : ℕ := 10

/-- An element of `events`, and whether `EPOLLIN` is set in it. -/
structure Ready where
  fd : Int32
  epollin : Bool

/-- The variables of `main`. Clients are never closed, so a descriptor that was opened stays in
use. It is also noted what was read from each descriptor. -/
structure Server where
  fds : List Int32
  buffers : Int32 → Option (List UInt8) := fun _ => none
  printed : UInt64 := 0
  /-- The events of the last `epoll_wait` that are not handled yet. -/
  events : List Ready := []
  opened : List Int32
  watched : List Int32
  output : List (Int32 × List UInt8) := []
  received : Int32 → List UInt8 := fun _ => []

/-- What the system calls in one round of the inner loop return. -/
structure Kernel where
  clientFd : Int32 := -1
  /-- Whether `epoll_ctl` succeeds. -/
  added : Bool := false
  nIn : ℤ := -1
  data : List UInt8 := []

/-- `MESSAGE_SIZE - buffer.size()`, as an unsigned number. -/
def requested (buffer : List UInt8) : UInt64 :=
  UInt64.ofNat messageSize - UInt64.ofNat buffer.length

/-- A new `buf` of `MESSAGE_SIZE` zeros after `read` has stored the data in it. -/
def filled (data : List UInt8) : List UInt8 :=
  data ++ (List.replicate messageSize 0).drop data.length

def resize (buf : List UInt8) (n : ℕ) : List UInt8 :=
  buf.take n ++ List.replicate (n - buf.length) 0

namespace Server

def start (rxFd : Int32) : Server where
  fds := [rxFd]
  opened := [rxFd]
  watched := [rxFd]

/-- The connection is kept if it was accepted and can be watched. -/
def acceptClient (s : Server) (clientFd : Int32) (added : Bool) : Server :=
  if clientFd < 0 then s
  else if added then { s with
    opened := clientFd :: s.opened
    watched := clientFd :: s.watched
    buffers := Function.update s.buffers clientFd (some []) }
  else { s with opened := clientFd :: s.opened }

/-- `buffers.at(fd)` throws if there is no buffer. -/
def readClient (s : Server) (fd : Int32) (nIn : ℤ) (data : List UInt8) : Option Server :=
  (s.buffers fd).map fun buffer =>
    let buffer := if 0 < nIn then buffer ++ resize (filled data) nIn.toNat else buffer
    let s := { s with received := Function.update s.received fd (s.received fd ++ data) }
    if messageSize ≤ buffer.length then { s with
      output := s.output ++ [(fd, buffer)]
      buffers := Function.update s.buffers fd (some [])
      printed := s.printed + 1 }
    else { s with buffers := Function.update s.buffers fd (some buffer) }

def handle (s : Server) (e : Ready) (k : Kernel) : Option Server :=
  if ¬ e.epollin then some s
  else if s.fds.contains e.fd then some (s.acceptClient k.clientFd k.added)
  else s.readClient e.fd k.nIn k.data

def printedFor (s : Server) (fd : Int32) : List (List UInt8) :=
  (s.output.filter fun line => line.1 = fd).map Prod.snd

def buffer (s : Server) (fd : Int32) : List UInt8 := (s.buffers fd).getD []

end Server

/-- A client gets a descriptor that is not in use. A read stores between one byte and the number
requested, or returns no positive number. -/
def Kernel.Possible (k : Kernel) (s : Server) (fd : Int32) : Prop :=
  (k.clientFd < 0 ∨ k.clientFd ∉ s.opened) ∧
    ((k.nIn ≤ 0 ∧ k.data = []) ∨
      (k.nIn = k.data.length ∧ 1 ≤ k.data.length ∧
        k.data.length ≤ (requested (s.buffer fd)).toNat))

instance (k : Kernel) (s : Server) (fd : Int32) : Decidable (k.Possible s fd) :=
  inferInstanceAs (Decidable (_ ∧ _))

inductive Action where
  | wait (events : List Ready)
  | next (k : Kernel)

def Server.step (s : Server) : Action → Option Server
  | .wait events =>
    -- the number of messages is looked at before each `epoll_wait` only
    if s.events.isEmpty ∧ s.printed < 2 ∧ events.length ≤ 10 ∧ ∀ e ∈ events, e.fd ∈ s.watched then
      some { s with events }
    else none
  | .next k =>
    match s.events with
    | [] => none
    | e :: events =>
      if k.Possible s e.fd then { s with events }.handle e k else none

def machine (rxFd : Int32) : Machine Server Action where
  init := .start rxFd
  step := Server.step

variable {s s' : Server} {fd : Int32} {k : Kernel} {e : Ready} {buffer data : List UInt8} {nIn : ℤ}

section Bytes

theorem requested_toNat (h : buffer.length ≤ messageSize) :
    (requested buffer).toNat = messageSize - buffer.length := by
  have hsize : messageSize = 10 := rfl
  have hle : UInt64.ofNat buffer.length ≤ UInt64.ofNat messageSize := by
    rw [UInt64.le_iff_toNat_le, UInt64.toNat_ofNat', UInt64.toNat_ofNat']
    omega
  rw [requested, UInt64.toNat_sub_of_le _ _ hle, UInt64.toNat_ofNat', UInt64.toNat_ofNat']
  omega

theorem resize_filled (data : List UInt8) : resize (filled data) data.length = data := by
  have hlen : data.length ≤ (filled data).length := by
    rw [filled, List.length_append]
    exact Nat.le_add_right _ _
  rw [resize, Nat.sub_eq_zero_of_le hlen, List.replicate_zero, List.append_nil, filled,
    List.take_left]

theorem Kernel.Possible.appended (h : k.Possible s fd) (buffer : List UInt8) :
    (if 0 < k.nIn then buffer ++ resize (filled k.data) k.nIn.toNat else buffer) =
      buffer ++ k.data := by
  rcases h.2 with ⟨hneg, hdata⟩ | ⟨hlen, hpos, -⟩
  · rw [if_neg (by omega), hdata, List.append_nil]
  · rw [if_pos (by omega), hlen, Int.toNat_natCast, resize_filled]

theorem Kernel.Possible.length_le (h : k.Possible s fd)
    (hshort : (s.buffer fd).length < messageSize) :
    (s.buffer fd ++ k.data).length ≤ messageSize := by
  rw [List.length_append]
  rcases h.2 with ⟨-, hdata⟩ | ⟨-, -, hle⟩
  · rw [hdata, List.length_nil]
    omega
  · rw [requested_toNat (Nat.le_of_lt hshort)] at hle
    omega

end Bytes

section Stream

variable {printed : List (List UInt8)} {received : List UInt8}

/-- What is printed for a stream, what is kept of it, and what was read. -/
structure Stream (printed : List (List UInt8)) (buffer received : List UInt8) : Prop where
  spelled : printed.flatten ++ buffer = received
  whole : ∀ message ∈ printed, message.length = messageSize
  short : buffer.length < messageSize

namespace Stream

theorem empty : Stream [] [] [] := ⟨rfl, fun _ h => absurd h List.not_mem_nil, by decide⟩

theorem more (h : Stream printed buffer received)
    (hlen : (buffer ++ data).length < messageSize) :
    Stream printed (buffer ++ data) (received ++ data) where
  spelled := by rw [← h.spelled, List.append_assoc]
  whole := h.whole
  short := hlen

theorem complete (h : Stream printed buffer received)
    (hlen : (buffer ++ data).length = messageSize) :
    Stream (printed ++ [buffer ++ data]) [] (received ++ data) where
  spelled := by simp [← h.spelled]
  whole := by
    intro message hm
    rcases List.mem_append.mp hm with hm | hm
    · exact h.whole message hm
    · rwa [List.mem_singleton.mp hm]
  short := by decide

/-- A stream of which nothing was read. -/
theorem eq_nil (h : Stream printed buffer []) : printed = [] ∧ buffer = [] := by
  refine blocks_inj h.whole (fun _ h => absurd h List.not_mem_nil) h.short empty.short ?_
  exact h.spelled

end Stream

end Stream

theorem Server.step_next (h : s.step (.next k) = some s') :
    ∃ e events, s.events = e :: events ∧ k.Possible s e.fd ∧
      { s with events }.handle e k = some s' := by
  unfold Server.step at h
  cases hevents : s.events with
  | nil =>
    rw [hevents] at h
    cases h
  | cons e events =>
    rw [hevents] at h
    obtain ⟨hposs, h⟩ := Option.ite_none_right_eq_some.mp h
    exact ⟨e, events, rfl, hposs, h⟩

structure Inv (s : Server) : Prop where
  stream : ∀ fd, Stream (s.printedFor fd) (s.buffer fd) (s.received fd)
  fresh : ∀ fd, fd ∉ s.opened → s.received fd = []
  known : ∀ fd, fd ∉ s.opened → s.buffers fd = none
  clients : ∀ fd ∈ s.watched, fd ∈ s.fds ∨ (s.buffers fd).isSome
  pending : ∀ e ∈ s.events, e.fd ∈ s.watched

namespace Inv

theorem start (rxFd : Int32) : Inv (.start rxFd) where
  stream _ := .empty
  fresh _ _ := rfl
  known _ _ := rfl
  clients _ h := .inl h
  pending _ h := absurd h List.not_mem_nil

theorem printedFor_fresh (h : Inv s) (hnew : fd ∉ s.opened) : s.printedFor fd = [] := by
  have hs := h.stream fd
  rw [h.fresh fd hnew] at hs
  exact hs.eq_nil.1

theorem acceptClient (h : Inv s) {clientFd : Int32} (hfresh : clientFd < 0 ∨ clientFd ∉ s.opened)
    (added : Bool) : Inv (s.acceptClient clientFd added) := by
  unfold Server.acceptClient
  split_ifs with hneg hadded
  · exact h
  · have hnew : clientFd ∉ s.opened := hfresh.resolve_left hneg
    constructor
    · intro fd
      change Stream (s.printedFor fd) ((Function.update s.buffers clientFd (some []) fd).getD []) _
      rcases eq_or_ne fd clientFd with rfl | hfd
      · rw [Function.update_self, h.printedFor_fresh hnew, h.fresh fd hnew]
        exact .empty
      · rw [Function.update_of_ne hfd]
        exact h.stream fd
    · intro fd hfd
      exact h.fresh fd (List.not_mem_of_not_mem_cons hfd)
    · intro fd hfd
      rw [List.mem_cons, not_or] at hfd
      simpa [hfd.1] using h.known fd hfd.2
    · intro fd hfd
      rcases eq_or_ne fd clientFd with rfl | hne
      · simp
      · simpa [hne] using h.clients fd ((List.mem_cons.mp hfd).resolve_left hne)
    · intro e he
      exact List.mem_cons_of_mem _ (h.pending e he)
  · constructor
    · exact h.stream
    · intro fd hfd
      exact h.fresh fd (List.not_mem_of_not_mem_cons hfd)
    · intro fd hfd
      exact h.known fd (List.not_mem_of_not_mem_cons hfd)
    · exact h.clients
    · exact h.pending

theorem advance (h : Inv s) (hopen : fd ∈ s.opened) {output : List (Int32 × List UInt8)}
    {received : List UInt8} {printed : UInt64}
    (hothers : ∀ c, c ≠ fd → { s with output }.printedFor c = s.printedFor c)
    (hstream : Stream ({ s with output }.printedFor fd) buffer received) :
    Inv { s with
      output
      printed
      buffers := Function.update s.buffers fd (some buffer)
      received := Function.update s.received fd received } := by
  have hother : ∀ c, c ∉ s.opened → c ≠ fd := by
    rintro c hc rfl
    exact hc hopen
  constructor
  · intro c
    change Stream ({ s with output }.printedFor c)
      ((Function.update s.buffers fd (some buffer) c).getD []) (Function.update s.received fd _ c)
    rcases eq_or_ne c fd with rfl | hc
    · rwa [Function.update_self, Function.update_self]
    · rw [Function.update_of_ne hc, Function.update_of_ne hc, hothers c hc]
      exact h.stream c
  · intro c hc
    exact (Function.update_of_ne (hother c hc) ..).trans (h.fresh c hc)
  · intro c hc
    exact (Function.update_of_ne (hother c hc) ..).trans (h.known c hc)
  · intro c hc
    rcases eq_or_ne c fd with rfl | hne
    · right
      simp
    · simpa [hne] using h.clients c hc
  · exact h.pending

theorem readClient (h : Inv s) (hposs : k.Possible s fd)
    (hs' : s.readClient fd k.nIn k.data = some s') : Inv s' := by
  obtain ⟨buffer, hbuf, rfl⟩ := Option.map_eq_some_iff.mp hs'
  have hopen : fd ∈ s.opened := by
    by_contra hnot
    rw [h.known fd hnot] at hbuf
    cases hbuf
  have hbuffer : s.buffer fd = buffer := by rw [Server.buffer, hbuf, Option.getD_some]
  have hstream := h.stream fd
  have hle := hposs.length_le hstream.short
  rw [hbuffer] at hstream hle
  simp only [hposs.appended]
  split_ifs with hfull
  · apply h.advance hopen
    · intro c hc
      simp [Server.printedFor, hc.symm]
    · have hdone := hstream.complete (Nat.le_antisymm hle hfull)
      simpa [Server.printedFor] using hdone
  · exact h.advance hopen (fun _ _ => rfl) (hstream.more (Nat.lt_of_not_le hfull))

theorem handle (h : Inv s) (hposs : k.Possible s e.fd) (hs' : s.handle e k = some s') :
    Inv s' := by
  unfold Server.handle at hs'
  split at hs'
  · obtain rfl := Option.some.inj hs'
    exact h
  · split at hs'
    · obtain rfl := Option.some.inj hs'
      exact h.acceptClient hposs.1 k.added
    · exact h.readClient hposs hs'

theorem taken {events : List Ready} (h : Inv s) (heq : s.events = e :: events) :
    Inv { s with events } := by
  refine ⟨h.stream, h.fresh, h.known, h.clients, ?_⟩
  intro c hc
  exact h.pending c (heq ▸ List.mem_cons_of_mem e hc)

theorem step {a : Action} (h : Inv s) (hs' : s.step a = some s') : Inv s' := by
  cases a with
  | wait events =>
    obtain ⟨⟨-, -, -, hwatched⟩, hs'⟩ := Option.ite_none_right_eq_some.mp hs'
    obtain rfl := Option.some.inj hs'
    exact ⟨h.stream, h.fresh, h.known, h.clients, hwatched⟩
  | next k =>
    obtain ⟨e, events, heq, hposs, hs'⟩ := Server.step_next hs'
    exact (h.taken heq).handle hposs hs'

theorem reachable {rxFd : Int32} (h : (machine rxFd).Reachable s) : Inv s :=
  h.invariant (P := Inv) (.start rxFd) fun _ _ _ hinv hstep => hinv.step hstep

theorem handle_isSome (h : Inv s) (he : e.fd ∈ s.watched) (k : Kernel) :
    (s.handle e k).isSome := by
  unfold Server.handle
  split
  · rfl
  · split
    · rfl
    · next hfds =>
      have hbuf := (h.clients e.fd he).resolve_left (by simpa using hfds)
      rwa [Server.readClient, Option.isSome_map]

end Inv

/-- Every client that has an event has a buffer: whatever the system calls return, the event is
handled, and `at` does not throw. -/
theorem next_isSome {rxFd : Int32} {events : List Ready} (h : (machine rxFd).Reachable s)
    (hevents : s.events = e :: events) (hposs : k.Possible s e.fd) :
    (s.step (.next k)).isSome := by
  have hinv := Inv.reachable h
  have hwatched := hinv.pending e (by rw [hevents]; exact List.mem_cons_self ..)
  unfold Server.step
  rw [hevents]
  simp only [if_pos hposs]
  exact (hinv.taken hevents).handle_isSome hwatched k

/-- For any number of clients and any order of their events, the messages printed for a client and
its buffer are what was read from it; the messages are whole, the buffer is never full, so that
there is always something to request, and what is printed is determined by what was read from the
client alone. No event stops the server. -/
theorem reassembled {rxFd : Int32} (h : (machine rxFd).Reachable s) (fd : Int32) :
    (s.printedFor fd).flatten ++ s.buffer fd = s.received fd ∧
      (∀ message ∈ s.printedFor fd, message.length = messageSize) ∧
      (s.buffer fd).length < messageSize ∧ 0 < (requested (s.buffer fd)).toNat ∧
      (∀ rxFd' s', (machine rxFd').Reachable s' → s'.received fd = s.received fd →
        s'.printedFor fd = s.printedFor fd) ∧
      ∀ e events k, s.events = e :: events → k.Possible s e.fd → (s.step (.next k)).isSome := by
  have hs := (Inv.reachable h).stream fd
  refine ⟨hs.spelled, hs.whole, hs.short, ?_, ?_, fun e events k => next_isSome h⟩
  · have hshort := hs.short
    rw [requested_toNat (Nat.le_of_lt hshort)]
    omega
  · intro rxFd' s' h' heq
    have hs' := (Inv.reachable h').stream fd
    have hspell := (hs'.spelled.trans heq).trans hs.spelled.symm
    exact (blocks_inj hs'.whole hs.whole hs'.short hs.short hspell).1

/-- Two senders, as in the program: each message comes in two parts, and more than its second part
is there. -/
def twoSenders : List Action :=
  let part1 : List UInt8 := [62, 62, 109, 115, 103]
  let part2 : List UInt8 := [101, 110, 100, 60, 60]
  [.wait [⟨3, true⟩], .next { clientFd := 5, added := true },
    .wait [⟨3, true⟩, ⟨5, true⟩], .next { clientFd := 6, added := true },
    .next { nIn := 5, data := part1 },
    .wait [⟨6, true⟩, ⟨5, true⟩], .next { nIn := 5, data := part1 },
    .next { nIn := 5, data := part2 }]

theorem reassembled_twoSenders : ∃ s, (machine 3).Reachable s ∧
    s.printedFor 5 = [[62, 62, 109, 115, 103, 101, 110, 100, 60, 60]] ∧
    s.buffer 6 = [62, 62, 109, 115, 103] ∧ (s.printedFor 5).flatten ++ s.buffer 5 = s.received 5 ∧
    0 < (requested (s.buffer 6)).toNat := by
  have hrun : ((machine 3).run (.start 3) twoSenders).map (fun s => (s.printedFor 5, s.buffer 6)) =
      some ([[62, 62, 109, 115, 103, 101, 110, 100, 60, 60]], [62, 62, 109, 115, 103]) := by
    decide +kernel
  obtain ⟨s, hs, heq⟩ := Option.map_eq_some_iff.mp hrun
  obtain ⟨hprinted, hbuffer⟩ := Prod.mk.inj heq
  have hreach : (machine 3).Reachable s := ⟨_, hs⟩
  exact ⟨s, hreach, hprinted, hbuffer, (reassembled hreach 5).1, (reassembled hreach 6).2.2.2.1⟩

end LowLevel.Network.MultiRx
