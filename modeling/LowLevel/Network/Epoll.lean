import LowLevel.Wire.Stream

/-! # Sending through the epoll device

The device writes each response to the socket of its account with one call of
`write`. Client sockets do not block, so a write may fail or take a part of the
bytes only. The device reports success whenever something was taken.
-/

namespace LowLevel.Network

open Wire

/-- The size chosen by the type byte; it stays zero for other bytes. -/
def epollSize (type : UInt8) : ℕ := (sendSize type).getD 0

/-- The bytes handed to `write` for a message. -/
def epollBytes (message : OutboundMessage) : List UInt8 :=
  message.bytes.toList.take (epollSize (window message.bytes 0 0))

/-- The bytes each client received, and what the device answered for each message. -/
structure NetworkDeviceEpoll where
  streams : Int32 → List UInt8 := fun _ => []
  answers : List (OutboundMessage × ℕ) := []

namespace NetworkDeviceEpoll

/-- A write fails, or takes a number of bytes and returns it. -/
def write (streams : Int32 → List UInt8) (fd : Int32) (bytes : List UInt8) :
    Option ℕ → ℤ × (Int32 → List UInt8)
  | none => (-1, streams)
  | some taken => (taken, Function.update streams fd (streams fd ++ bytes.take taken))

def sendMsg (d : NetworkDeviceEpoll) (message : OutboundMessage) (outcome : Option ℕ) :
    NetworkDeviceEpoll :=
  let (w, streams) := write d.streams message.account.toInt32 (epollBytes message) outcome
  ⟨streams, d.answers ++ [(message, if w ≤ 0 then 1 else 0)]⟩

/-- What `write` may do with a message: a successful one takes at least one byte. -/
def Possible (message : OutboundMessage) : Option ℕ → Prop
  | none => True
  | some taken => 0 < taken ∧ taken ≤ (epollBytes message).length

abbrev Call := OutboundMessage × Option ℕ

def run (calls : List Call) : NetworkDeviceEpoll :=
  calls.foldl (fun d call => d.sendMsg call.1 call.2) {}

/-- The messages to a client that the device reported as sent. -/
def acknowledged (d : NetworkDeviceEpoll) (fd : Int32) : List OutboundMessage :=
  (d.answers.filter fun a => a.2 = 0 ∧ a.1.account.toInt32 = fd).map Prod.fst

/-- Every client received the messages reported as sent to it, each as a whole. -/
def Whole (d : NetworkDeviceEpoll) : Prop :=
  ∀ fd, d.streams fd = (d.acknowledged fd).flatMap fun message => message.wire.getD []

def Unsplit (calls : List Call) : Prop :=
  ∀ call ∈ calls, ∀ taken, call.2 = some taken → taken = (epollBytes call.1).length

section Streams

variable {α β : Type*} {l : List α} {f g : α → List β}

theorem length_flatMap_le (h : ∀ a ∈ l, f a <+: g a) :
    (l.flatMap f).length ≤ (l.flatMap g).length := by
  induction l with
  | nil => exact Nat.le_refl _
  | cons a l ih =>
    have ha := (h a (List.mem_cons_self ..)).length_le
    have hl := ih fun b hb => h b (List.mem_cons_of_mem _ hb)
    simp only [List.flatMap_cons, List.length_append]
    omega

theorem flatMap_eq_iff (h : ∀ a ∈ l, f a <+: g a) :
    l.flatMap f = l.flatMap g ↔ ∀ a ∈ l, f a = g a := by
  refine ⟨fun heq => ?_, List.flatMap_congr⟩
  induction l with
  | nil => exact fun a ha => absurd ha List.not_mem_nil
  | cons a l ih =>
    have ha := h a (List.mem_cons_self ..)
    have hl : ∀ b ∈ l, f b <+: g b := fun b hb => h b (List.mem_cons_of_mem _ hb)
    rw [List.flatMap_cons, List.flatMap_cons] at heq
    -- both parts are no longer than their wholes, and together they are as long
    have hlen := congrArg List.length heq
    rw [List.length_append, List.length_append] at hlen
    have hle := ha.length_le
    have hle' := length_flatMap_le hl
    have hfirst : f a = g a := ha.eq_of_length (by omega)
    rw [hfirst, List.append_cancel_left_eq] at heq
    intro b hb
    rcases List.mem_cons.mp hb with rfl | hb
    · exact hfirst
    · exact ih hl heq b hb

end Streams

section Calls

variable {calls : List Call} {fd : Int32}

def taken (fd : Int32) (call : Call) : List UInt8 :=
  if call.1.account.toInt32 = fd then (epollBytes call.1).take (call.2.getD 0) else []

def due (fd : Int32) (call : Call) : List UInt8 :=
  if call.1.account.toInt32 = fd ∧ call.2.isSome then epollBytes call.1 else []

theorem taken_prefix (fd : Int32) (call : Call) : taken fd call <+: due fd call := by
  unfold taken due
  cases hc : call.2 with
  | none => simp
  | some k =>
    split_ifs with hfd h h
    · exact List.take_prefix ..
    · exact absurd ⟨hfd, rfl⟩ h
    · exact List.nil_prefix
    · exact List.nil_prefix

theorem sendMsg_streams (d : NetworkDeviceEpoll) (call : Call) :
    (d.sendMsg call.1 call.2).streams fd = d.streams fd ++ taken fd call := by
  unfold sendMsg write taken
  cases hc : call.2 with
  | none => simp
  | some k =>
    rcases eq_or_ne call.1.account.toInt32 fd with rfl | hfd
    · simp
    · simp [hfd, Function.update_of_ne (Ne.symm hfd)]

theorem run_streams (calls : List Call) (fd : Int32) :
    (run calls).streams fd = calls.flatMap (taken fd) := by
  have hfrom : ∀ d : NetworkDeviceEpoll,
      (calls.foldl (fun d call => d.sendMsg call.1 call.2) d).streams fd =
        d.streams fd ++ calls.flatMap (taken fd) := by
    induction calls with
    | nil => simp
    | cons call calls ih =>
      intro d
      rw [List.foldl_cons, ih, sendMsg_streams, List.flatMap_cons, List.append_assoc]
  exact hfrom {}

theorem run_answers (calls : List Call) : (run calls).answers =
    calls.map fun call => (call.1, if (call.2.elim (-1) Nat.cast : ℤ) ≤ 0 then 1 else 0) := by
  have hfrom : ∀ d : NetworkDeviceEpoll,
      (calls.foldl (fun d call => d.sendMsg call.1 call.2) d).answers = d.answers ++
        calls.map fun call => (call.1, if (call.2.elim (-1) Nat.cast : ℤ) ≤ 0 then 1 else 0) := by
    induction calls with
    | nil => simp
    | cons call calls ih =>
      intro d
      rw [List.foldl_cons, ih, List.map_cons, List.append_cons]
      congr 2
      unfold sendMsg write
      cases call.2 <;> rfl
  exact hfrom {}

theorem wire_getD (message : OutboundMessage) : message.wire.getD [] = epollBytes message := by
  unfold OutboundMessage.wire epollBytes epollSize
  cases sendSize (window message.bytes 0 0) with
  | none => rfl
  | some size => rfl

theorem acknowledged_due (hposs : ∀ call ∈ calls, Possible call.1 call.2) :
    (((run calls).acknowledged fd).flatMap fun message => message.wire.getD []) =
      calls.flatMap (due fd) := by
  rw [acknowledged, run_answers]
  induction calls with
  | nil => rfl
  | cons call calls ih =>
    rw [List.map_cons, List.filter_cons, List.flatMap_cons,
      ← ih fun c hc => hposs c (List.mem_cons_of_mem _ hc)]
    have hcall := hposs call (List.mem_cons_self ..)
    rcases call with ⟨message, _ | k⟩
    · simp [due]
    · have hpos : k ≠ 0 := hcall.1.ne'
      by_cases hfd : message.account.toInt32 = fd
      · simp [due, hpos, hfd, wire_getD]
      · simp [due, hfd]

/-- The streams are whole exactly if no write is split. -/
theorem whole_iff_unsplit (hposs : ∀ call ∈ calls, Possible call.1 call.2) :
    (run calls).Whole ↔ Unsplit calls := by
  unfold Whole
  simp only [run_streams, acknowledged_due hposs, flatMap_eq_iff fun call _ => taken_prefix _ call]
  constructor
  · intro h call hcall k hk
    have heq := h call.1.account.toInt32 call hcall
    have hle := (hk ▸ hposs call hcall : Possible call.1 (some k)).2
    simp only [taken, due, hk, Option.isSome_some, and_true, if_true, Option.getD_some] at heq
    have hlen := congrArg List.length heq
    rw [List.length_take] at hlen
    omega
  · intro h fd call hcall
    unfold taken due
    cases hk : call.2 with
    | none => simp
    | some k =>
      rw [h call hcall k hk]
      simp

end Calls

def cancelledResponse : OutboundMessage := (Response.cancelled [.userRefNum 1]).publish 7

theorem whole_iff_unsplit_failed :
    (run [(cancelledResponse, some 18), (cancelledResponse, none)]).Whole ↔
      Unsplit [(cancelledResponse, some 18), (cancelledResponse, none)] := by
  refine whole_iff_unsplit fun call hcall => ?_
  rcases List.mem_cons.mp hcall with rfl | hcall
  · exact ⟨by decide, by decide +kernel⟩
  · obtain rfl := List.mem_singleton.mp hcall
    trivial

/-- Five bytes of a response are taken, and the device reports it as sent. -/
theorem split_not_whole : Possible cancelledResponse (some 5) ∧
    ¬ (run [(cancelledResponse, some 5)]).Whole := by
  refine ⟨⟨by decide, by decide +kernel⟩, fun h => ?_⟩
  have hlen := congrArg List.length (h 7)
  exact absurd hlen (by decide +kernel)

end NetworkDeviceEpoll

end LowLevel.Network
