import LowLevel.Network.Framing

/-! # Gaps in the multicast feed

The publisher numbers its messages and sends each once. Some are lost on the
way; the others arrive in order. The subscriber reads the number off a message
and compares it with the number of the message before. It remembers that number
only, and starts as if message 0 had arrived.
-/

namespace LowLevel.Network.Multicast

open Framing (bar decimal lengthOf)

def message (counter : UInt64) : List UInt8 :=
  decimal counter.toNat ++ bar :: ("Message ".toList.map Char.toUInt8 ++ decimal counter.toNat)

def recvId (message : List UInt8) : UInt64 := lengthOf (message.takeWhile (· ≠ bar))

/-- A report of a gap: the number received last before it, and the number received then. -/
abbrev Gap := UInt64 × UInt64

def report (lastReceived recvId : UInt64) : Option Gap :=
  if lastReceived + 1 < recvId then some (lastReceived, recvId) else none

/-- The variables of the subscriber's loop, and what it reported on each message it received. -/
structure Subscriber where
  counter : UInt32 := 0
  subscribed : Bool := true
  lastReceived : UInt64 := 0
  reports : List (Option Gap) := []

namespace Subscriber

/-- The subscriber joins the group and leaves it now and then; it ends if that fails. -/
def toggle (s : Subscriber) (success : Bool) : Option Subscriber :=
  if s.counter % 20 = 0 ∧ s.subscribed = false then
    if success then some { s with subscribed := true } else none
  else if s.subscribed = true ∧ s.counter % 10 = 0 ∧ s.counter ≠ 0 then
    if success then some { s with subscribed := false } else none
  else some s

def receive (s : Subscriber) (message : List UInt8) : Subscriber := { s with
  reports := s.reports ++ [report s.lastReceived (recvId message)]
  lastReceived := recvId message }

/-- `counter++` -/
def tick (s : Subscriber) : Subscriber := { s with counter := s.counter + 1 }

end Subscriber

/-- A message on its way, with its place among all that were sent. -/
structure Datagram where
  number : ℕ
  bytes : List UInt8

/-- Publisher, network and subscriber. The messages are numbered as they are sent; it is noted which
of them were lost, and which were received. -/
structure System where
  counter : UInt64 := 0
  sent : ℕ := 0
  lost : List ℕ := []
  inFlight : List Datagram := []
  subscriber : Subscriber := {}
  received : List ℕ := []

inductive Action where
  /-- The publisher sends a message, which is lost or will arrive. -/
  | send (arrives : Bool)
  /-- One round of the subscriber's loop. -/
  | round (success : Bool)

namespace System

def send (s : System) (arrives : Bool) : System :=
  let s' := { s with
    counter := s.counter + 1
    sent := s.sent + 1 }
  if arrives then { s' with inFlight := s.inFlight ++ [⟨s.sent, message s.counter⟩] }
  else { s' with lost := s.lost ++ [s.sent] }

/-- `recvfrom` waits for a message and stores at most 50 bytes of it. -/
def receive (s : System) (subscriber : Subscriber) : Option System :=
  match s.inFlight with
  | [] => none
  | d :: inFlight => some { s with
      inFlight
      received := s.received ++ [d.number]
      subscriber := (subscriber.receive (d.bytes.take 50)).tick }

def round (s : System) (success : Bool) : Option System :=
  (s.subscriber.toggle success).bind fun subscriber =>
    if subscriber.subscribed then s.receive subscriber
    else some { s with subscriber := subscriber.tick }

def step (s : System) : Action → Option System
  | .send arrives => some (s.send arrives)
  | .round success => s.round success

end System

def machine : Machine System Action where
  init := {}
  step := System.step

namespace System

/-- A message was lost after the last one that was received before this one. -/
def LostBefore (s : System) (pre : List ℕ) (n m : ℕ) : Prop :=
  m ∈ s.lost ∧ (∀ p ∈ pre.getLast?, p < m) ∧ m < n

def Reported (s : System) (pre : List ℕ) : Prop :=
  ∃ gap, s.subscriber.reports[pre.length]? = some (some gap)

/-- A gap is reported on exactly the messages before which one was lost; so every message lost
before the last one received is covered, and without a loss nothing is reported. -/
structure GapsExact (s : System) : Prop where
  reported_iff : ∀ pre n post, s.received = pre ++ n :: post →
    (s.Reported pre ↔ ∃ m, s.LostBefore pre n m)
  covered : ∀ m ∈ s.lost, (∃ n ∈ s.received, m < n) →
    ∃ pre n post, s.received = pre ++ n :: post ∧ s.Reported pre ∧ s.LostBefore pre n m
  silent : (∀ m ∈ s.lost, ∀ n ∈ s.received, n ≤ m) → ∀ gap, some gap ∉ s.subscriber.reports

end System

/-- The first message received is number 0 or has a counter above one; a later one follows the one
before directly or has a counter above the successor of that one's. -/
def Counted (pre : List ℕ) (n : ℕ) : Prop :=
  match pre.getLast? with
  | none => n = 0 ∨ 1 < n % 2 ^ 64
  | some p => n = p + 1 ∨ (p + 1) % 2 ^ 64 < n % 2 ^ 64

variable {s s' : System} {sub sub' : Subscriber} {pre post received : List ℕ} {n m : ℕ}
  {last : UInt64} {success : Bool}

section Messages

theorem length_decimal_le (counter : UInt64) : (decimal counter.toNat).length ≤ 20 := by
  rw [decimal, List.length_map, Nat.length_toDigits_le_iff (by decide) (by decide)]
  exact counter.toNat_lt.trans (by decide)

theorem recvId_message (counter : UInt64) : recvId ((message counter).take 50) = counter := by
  have hlen := length_decimal_le counter
  have hbar : ∀ b ∈ decimal counter.toNat, decide (b ≠ bar) = true := by
    intro b hb
    rw [decide_eq_true_eq]
    rintro rfl
    exact Framing.bar_not_mem_decimal _ hb
  obtain ⟨k, hk⟩ : ∃ k, 50 - (decimal counter.toNat).length = k + 1 :=
    Nat.exists_eq_succ_of_ne_zero (by omega)
  rw [recvId, message, List.take_append, List.take_of_length_le (by omega), hk,
    List.take_succ_cons, List.takeWhile_append_of_pos hbar, List.takeWhile_cons_of_neg (by simp),
    List.append_nil, Framing.lengthOf_decimal, UInt64.ofNat_toNat]

end Messages

section Reports

/-- What is reported on messages received one after the other. -/
def reportsOf : UInt64 → List ℕ → List (Option Gap)
  | _, [] => []
  | last, n :: ns => report last (.ofNat n) :: reportsOf (.ofNat n) ns

theorem length_reportsOf (last : UInt64) (ns : List ℕ) :
    (reportsOf last ns).length = ns.length := by
  induction ns generalizing last with
  | nil => rfl
  | cons n ns ih => rw [reportsOf, List.length_cons, List.length_cons, ih]

theorem reportsOf_append (last : UInt64) (pre post : List ℕ) :
    reportsOf last (pre ++ post) =
      reportsOf last pre ++ reportsOf (pre.getLast?.elim last .ofNat) post := by
  induction pre generalizing last with
  | nil => rfl
  | cons n pre ih =>
    have hlast : (n :: pre).getLast?.elim last UInt64.ofNat =
        pre.getLast?.elim (.ofNat n) .ofNat := by
      rw [List.getLast?_cons]
      cases pre.getLast? <;> rfl
    rw [hlast, List.cons_append, reportsOf, reportsOf, ih, List.cons_append]

theorem reportsOf_at (last : UInt64) (pre post : List ℕ) (n : ℕ) :
    (reportsOf last (pre ++ n :: post))[pre.length]? =
      some (report (pre.getLast?.elim last .ofNat) (.ofNat n)) := by
  rw [reportsOf_append, List.getElem?_append_right (length_reportsOf last pre).le,
    length_reportsOf, Nat.sub_self, reportsOf, List.getElem?_cons_zero]

end Reports

/-- The subscriber has received messages with these numbers. -/
structure Tracks (sub : Subscriber) (received : List ℕ) : Prop where
  lastReceived : sub.lastReceived = received.getLast?.elim 0 .ofNat
  reports : sub.reports = reportsOf 0 received

theorem Tracks.toggle (h : Tracks sub received) (hsub' : sub.toggle success = some sub') :
    Tracks sub' received := by
  unfold Subscriber.toggle at hsub'
  split_ifs at hsub' <;> obtain rfl := Option.some.inj hsub' <;> exact ⟨h.lastReceived, h.reports⟩

theorem Tracks.receive (h : Tracks sub received) (n : ℕ) :
    Tracks (sub.receive ((message (.ofNat n)).take 50)) (received ++ [n]) where
  lastReceived := by rw [Subscriber.receive, recvId_message, List.getLast?_concat]; rfl
  reports := by
    rw [Subscriber.receive, recvId_message, reportsOf_append, ← h.reports, ← h.lastReceived]
    rfl

namespace System

/-- The messages that are not lost, in the order in which they are received. -/
def numbers (s : System) : List ℕ := s.received ++ s.inFlight.map Datagram.number

theorem numbers_receive (hs' : s.receive sub = some s') : s'.numbers = s.numbers := by
  unfold receive at hs'
  split at hs'
  · cases hs'
  · next d inFlight heq =>
    obtain rfl := Option.some.inj hs'
    simp [numbers, heq]

end System

structure Inv (s : System) : Prop where
  counter : s.counter = .ofNat s.sent
  ordered : s.numbers.Pairwise (· < ·)
  known : ∀ m ∈ s.numbers, m < s.sent
  lost : ∀ m, m ∈ s.lost ↔ m < s.sent ∧ m ∉ s.numbers
  bytes : ∀ d ∈ s.inFlight, d.bytes = message (.ofNat d.number)
  tracks : Tracks s.subscriber s.received

namespace Inv

theorem init : Inv {} where
  counter := rfl
  ordered := .nil
  known m h := absurd h List.not_mem_nil
  lost m := by simp
  bytes d h := absurd h List.not_mem_nil
  tracks := ⟨rfl, rfl⟩

theorem send (h : Inv s) (arrives : Bool) : Inv (s.send arrives) := by
  have hcounter : s.counter + 1 = .ofNat (s.sent + 1) := by
    rw [h.counter, UInt64.ofNat_add]
    rfl
  have hnew : s.sent ∉ s.numbers := fun hmem => lt_irrefl _ (h.known _ hmem)
  cases arrives with
  | false =>
    refine ⟨hcounter, h.ordered, ?_, ?_, h.bytes, h.tracks⟩
    · intro m hm
      exact (h.known m hm).trans (Nat.lt_succ_self _)
    · intro m
      change m ∈ s.lost ++ [s.sent] ↔ m < s.sent + 1 ∧ m ∉ s.numbers
      rw [List.mem_append, List.mem_singleton, h.lost m, Nat.lt_succ_iff_lt_or_eq]
      constructor
      · rintro (⟨hlt, hm⟩ | rfl)
        · exact ⟨.inl hlt, hm⟩
        · exact ⟨.inr rfl, hnew⟩
      · rintro ⟨hlt | rfl, hm⟩
        · exact .inl ⟨hlt, hm⟩
        · exact .inr rfl
  | true =>
    have hnumbers : (s.send true).numbers = s.numbers ++ [s.sent] := by
      simp [System.send, System.numbers]
    refine ⟨hcounter, ?_, ?_, ?_, ?_, h.tracks⟩
    · rw [hnumbers, List.pairwise_append]
      refine ⟨h.ordered, List.pairwise_singleton .., ?_⟩
      intro m hm n hn
      rw [List.mem_singleton.mp hn]
      exact h.known m hm
    · intro m hm
      rw [hnumbers, List.mem_append, List.mem_singleton] at hm
      rcases hm with hm | rfl
      · exact (h.known m hm).trans (Nat.lt_succ_self _)
      · exact Nat.lt_succ_self _
    · intro m
      rw [hnumbers, List.mem_append, List.mem_singleton, not_or]
      change m ∈ s.lost ↔ m < s.sent + 1 ∧ m ∉ s.numbers ∧ m ≠ s.sent
      rw [h.lost m]
      constructor
      · rintro ⟨hlt, hm⟩
        exact ⟨by omega, hm, by omega⟩
      · rintro ⟨hlt, hm, hne⟩
        exact ⟨by omega, hm⟩
    · intro d hd
      rcases List.mem_append.mp hd with hd | hd
      · exact h.bytes d hd
      · rw [List.mem_singleton.mp hd, h.counter]

theorem receive (h : Inv s) (htracks : Tracks sub s.received) (hs' : s.receive sub = some s') :
    Inv s' := by
  have hnumbers := System.numbers_receive hs'
  unfold System.receive at hs'
  split at hs'
  · cases hs'
  · next d inFlight heq =>
    obtain rfl := Option.some.inj hs'
    have hbytes := h.bytes d (heq ▸ List.mem_cons_self ..)
    refine ⟨h.counter, ?_, ?_, ?_, ?_, ?_⟩
    · rw [hnumbers]
      exact h.ordered
    · rw [hnumbers]
      exact h.known
    · rw [hnumbers]
      exact h.lost
    · intro e he
      exact h.bytes e (heq ▸ List.mem_cons_of_mem _ he)
    · have hnext := htracks.receive d.number
      rw [← hbytes] at hnext
      exact ⟨hnext.lastReceived, hnext.reports⟩

theorem step {a : Action} (h : Inv s) (hs' : s.step a = some s') : Inv s' := by
  cases a with
  | send arrives =>
    obtain rfl := Option.some.inj hs'
    exact h.send arrives
  | round success =>
    obtain ⟨sub, hsub, hs'⟩ := Option.bind_eq_some_iff.mp hs'
    have htracks := h.tracks.toggle hsub
    split at hs'
    · exact h.receive htracks hs'
    · obtain rfl := Option.some.inj hs'
      exact ⟨h.counter, h.ordered, h.known, h.lost, h.bytes,
        ⟨htracks.lastReceived, htracks.reports⟩⟩

theorem reachable (h : machine.Reachable s) : Inv s :=
  h.invariant (P := Inv) init fun _ _ _ hinv hstep => hinv.step hstep

end Inv

section Gaps

def expected (pre : List ℕ) : ℕ := pre.getLast?.elim 0 (· + 1)

theorem expected_le_iff : expected pre ≤ m ↔ ∀ p ∈ pre.getLast?, p < m := by
  unfold expected
  cases pre.getLast? with
  | none => simp
  | some p => exact ⟨fun h q hq => Option.some.inj hq ▸ h, fun h => h p rfl⟩

theorem lt_expected (h : pre.Pairwise (· < ·)) (hm : m ∈ pre) : m < expected pre := by
  rcases List.eq_nil_or_concat pre with rfl | ⟨l, p, rfl⟩
  · cases hm
  · rw [List.concat_eq_append] at h hm ⊢
    rw [expected, List.getLast?_concat, Option.elim_some, Nat.lt_succ_iff]
    rcases List.mem_append.mp hm with hm | hm
    · exact ((List.pairwise_append.mp h).2.2 m hm p (List.mem_singleton_self p)).le
    · exact (List.mem_singleton.mp hm).le

theorem Inv.sorted (h : Inv s) (hs : s.received = pre ++ n :: post) :
    (pre ++ n :: (post ++ s.inFlight.map Datagram.number)).Pairwise (· < ·) := by
  have hord := h.ordered
  rwa [System.numbers, hs, List.append_assoc, List.cons_append] at hord

theorem Inv.expected_le (h : Inv s) (hs : s.received = pre ++ n :: post) : expected pre ≤ n := by
  rw [expected_le_iff]
  intro p hp
  exact (List.pairwise_append.mp (h.sorted hs)).2.2 p (List.mem_of_getLast? hp) n
    (List.mem_cons_self ..)

theorem Inv.lostBefore_iff (h : Inv s) (hs : s.received = pre ++ n :: post) :
    s.LostBefore pre n m ↔ expected pre ≤ m ∧ m < n := by
  constructor
  · rintro ⟨-, hafter, hlt⟩
    exact ⟨expected_le_iff.mpr hafter, hlt⟩
  · rintro ⟨hle, hlt⟩
    obtain ⟨hpre, hrest, -⟩ := List.pairwise_append.mp (h.sorted hs)
    refine ⟨(h.lost m).mpr ⟨?_, ?_⟩, expected_le_iff.mp hle, hlt⟩
    · refine hlt.trans (h.known n ?_)
      simp [System.numbers, hs]
    · intro hm
      rw [System.numbers, hs, List.append_assoc, List.cons_append] at hm
      rcases List.mem_append.mp hm with hm | hm
      · exact hle.not_gt (lt_expected hpre hm)
      · rcases List.mem_cons.mp hm with rfl | hm
        · exact lt_irrefl _ hlt
        · exact hlt.not_gt (List.rel_of_pairwise_cons hrest hm)

theorem report_isSome (last recvId : UInt64) :
    (∃ gap, report last recvId = some gap) ↔ last + 1 < recvId := by
  unfold report
  split_ifs with hlt
  · exact ⟨fun _ => hlt, fun _ => ⟨_, rfl⟩⟩
  · constructor
    · rintro ⟨_, hgap⟩
      cases hgap
    · exact fun h => absurd h hlt

theorem Inv.reported_iff (h : Inv s) (hs : s.received = pre ++ n :: post) :
    s.Reported pre ↔ (pre.getLast?.getD 0 + 1) % 2 ^ 64 < n % 2 ^ 64 := by
  have hlast : pre.getLast?.elim 0 UInt64.ofNat = .ofNat (pre.getLast?.getD 0) := by
    cases pre.getLast? <;> rfl
  unfold System.Reported
  rw [h.tracks.reports, hs, reportsOf_at, hlast]
  simp only [Option.some.injEq]
  rw [report_isSome, UInt64.lt_iff_toNat_lt, UInt64.toNat_add, UInt64.toNat_ofNat',
    UInt64.toNat_ofNat', UInt64.toNat_one, Nat.mod_add_mod]

/-- Where the condition fails, a message was lost and nothing is reported. -/
theorem Inv.counted_iff (h : Inv s) (hs : s.received = pre ++ n :: post) :
    Counted pre n ↔ (s.Reported pre ↔ expected pre < n) := by
  have hle : pre.getLast?.elim 0 (· + 1) ≤ n := h.expected_le hs
  rw [h.reported_iff hs]
  unfold Counted expected
  generalize pre.getLast? = last at hle ⊢
  cases last with
  | none =>
    simp only [Option.getD_none, Option.elim_none]
    omega
  | some p =>
    simp only [Option.getD_some, Option.elim_some] at hle ⊢
    rcases hle.eq_or_lt with rfl | hlt
    · simp
    · simp only [hlt, hlt.ne', iff_true, false_or]

theorem Inv.gapsExact (h : Inv s) (hreported : ∀ pre n post, s.received = pre ++ n :: post →
    (s.Reported pre ↔ ∃ m, s.LostBefore pre n m)) : s.GapsExact where
  reported_iff := hreported
  covered := by
    rintro m hm ⟨n, hn, hlt⟩
    -- the first number above the lost one
    have hsome : (s.received.find? fun n => m < n).isSome :=
      List.find?_isSome.mpr ⟨n, hn, decide_eq_true hlt⟩
    obtain ⟨n, hfind⟩ := Option.isSome_iff_exists.mp hsome
    obtain ⟨hlt, pre, post, hs, hpre⟩ := List.find?_eq_some_iff_append.mp hfind
    have hlost : s.LostBefore pre n m := by
      refine ⟨hm, ?_, by simpa using hlt⟩
      intro p hp
      have hmem : p ∈ pre := List.mem_of_getLast? hp
      have hle : p ≤ m := by simpa using hpre p hmem
      refine hle.lt_of_ne ?_
      rintro rfl
      refine ((h.lost p).mp hm).2 ?_
      simp [System.numbers, hs, hmem]
    exact ⟨pre, n, post, hs, (hreported pre n post hs).mpr ⟨m, hlost⟩, hlost⟩
  silent := by
    intro hnone gap hgap
    obtain ⟨i, hi, heq⟩ := List.mem_iff_getElem.mp hgap
    have hlen : i < s.received.length := by
      rwa [h.tracks.reports, length_reportsOf] at hi
    have hs : s.received = s.received.take i ++ s.received[i] :: s.received.drop (i + 1) := by
      rw [← List.drop_eq_getElem_cons hlen, List.take_append_drop]
    have hrep : s.Reported (s.received.take i) := by
      refine ⟨gap, ?_⟩
      rw [List.length_take_of_le hlen.le, List.getElem?_eq_getElem hi, heq]
    obtain ⟨m, hm, -, hlt⟩ := (hreported _ _ _ hs).mp hrep
    exact hlt.not_ge (hnone m hm _ (List.getElem_mem hlen))

theorem Inv.exact_iff_counted (h : Inv s) :
    s.GapsExact ↔ ∀ pre n post, s.received = pre ++ n :: post → Counted pre n := by
  have hiff : ∀ pre n post, s.received = pre ++ n :: post →
      (Counted pre n ↔ (s.Reported pre ↔ ∃ m, s.LostBefore pre n m)) := by
    intro pre n post hs
    have hlost : (∃ m, s.LostBefore pre n m) ↔ expected pre < n := by
      simp only [h.lostBefore_iff hs]
      exact ⟨fun ⟨m, hle, hlt⟩ => hle.trans_lt hlt, fun hlt => ⟨_, le_rfl, hlt⟩⟩
    rw [hlost, h.counted_iff hs]
  constructor
  · intro hexact pre n post hs
    exact (hiff pre n post hs).mpr (hexact.reported_iff pre n post hs)
  · intro hcounted
    apply h.gapsExact
    intro pre n post hs
    exact (hiff pre n post hs).mp (hcounted pre n post hs)

end Gaps

/-- Whatever is lost, the reports are right exactly if the messages received are counted. -/
theorem gapsExact_iff (h : machine.Reachable s) :
    s.GapsExact ↔ ∀ pre n post, s.received = pre ++ n :: post → Counted pre n :=
  (Inv.reachable h).exact_iff_counted

/-- Message 1 is lost between two others, and the subscriber reports it. -/
theorem gapsExact_iff_second : ∃ s, machine.Reachable s ∧ s.received = [0, 2] ∧ s.lost = [1] ∧
    s.subscriber.reports = [none, some (0, 2)] ∧ s.GapsExact := by
  have hrun : (machine.run {} [.send true, .send false, .round true, .send true, .round true]).map
      (fun s => (s.received, s.lost, s.subscriber.reports)) =
        some ([0, 2], [1], [none, some (0, 2)]) := by decide +kernel
  obtain ⟨s, hs, heq⟩ := Option.map_eq_some_iff.mp hrun
  obtain ⟨hrec, heq⟩ := Prod.mk.inj heq
  obtain ⟨hlost, hreports⟩ := Prod.mk.inj heq
  refine ⟨s, ⟨_, hs⟩, hrec, hlost, hreports, (gapsExact_iff ⟨_, hs⟩).mpr ?_⟩
  intro pre n post hsplit
  rw [hrec] at hsplit
  rcases pre with _ | ⟨p, _ | ⟨q, pre⟩⟩
  · obtain ⟨rfl, -⟩ := List.cons.inj hsplit
    exact .inl rfl
  · simp only [List.cons_append, List.nil_append, List.cons.injEq] at hsplit
    obtain ⟨rfl, rfl, -⟩ := hsplit
    exact .inr (by decide)
  · simp at hsplit

/-- Message 0 is lost, and the subscriber takes message 1 for the next one. -/
theorem not_gapsExact : ∃ s, machine.Reachable s ∧ s.received = [1] ∧ s.lost = [0] ∧
    s.subscriber.reports = [none] ∧ ¬ s.GapsExact := by
  have hrun : (machine.run {} [.send false, .send true, .round true]).map
      (fun s => (s.received, s.lost, s.subscriber.reports)) = some ([1], [0], [none]) := by
    decide +kernel
  obtain ⟨s, hs, heq⟩ := Option.map_eq_some_iff.mp hrun
  obtain ⟨hrec, heq⟩ := Prod.mk.inj heq
  obtain ⟨hlost, hreports⟩ := Prod.mk.inj heq
  refine ⟨s, ⟨_, hs⟩, hrec, hlost, hreports, ?_⟩
  intro hexact
  obtain ⟨gap, hgap⟩ := (hexact.reported_iff [] 1 [] hrec).mpr
    ⟨0, by simp [hlost], by simp, by decide⟩
  simp [hreports] at hgap

/-- As long as the publisher's counter has not wrapped around, all that is overlooked is the loss of
message 0 just before message 1. -/
theorem gapsExact_iff_head (h : machine.Reachable s) (hsmall : ∀ n ∈ s.received, n < 2 ^ 64) :
    s.GapsExact ↔ s.received.head? ≠ some 1 := by
  have hinv := Inv.reachable h
  rw [hinv.exact_iff_counted]
  constructor
  · intro hcounted hhead
    obtain ⟨post, hs⟩ := List.head?_eq_some_iff.mp hhead
    exact absurd (hcounted [] 1 post hs) (by simp [Counted])
  · intro hhead pre n post hs
    have hle := hinv.expected_le hs
    have hn : n < 2 ^ 64 := hsmall n (by simp [hs])
    unfold Counted
    unfold expected at hle
    rcases List.eq_nil_or_concat pre with rfl | ⟨l, p, rfl⟩
    · have hne : n ≠ 1 := by
        rintro rfl
        exact hhead (by rw [hs]; rfl)
      simp only [List.getLast?_nil]
      omega
    · simp only [List.concat_eq_append, List.getLast?_concat, Option.elim_some] at hle ⊢
      omega

end LowLevel.Network.Multicast
