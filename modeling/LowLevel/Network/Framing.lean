import LowLevel.Foundations.Machine
import Mathlib.Data.List.Basic
import Mathlib.Data.Nat.Notation
import Mathlib.Tactic.IntervalCases

/-! # The framing server

A message is sent as its length in decimal, a bar and its bytes. The server
receives the stream in pieces and reads it byte by byte; one number first
accumulates the length and then counts the bytes that are left.
-/

namespace LowLevel.Network.Framing

def bufferSize : ℕ := 1024

/-- What `recv` returns: an error, or the bytes that it read. There are none at the end of the
stream. -/
inductive Recv where
  | error
  | read (buffer : List UInt8)

def Recv.bytes : Recv → List UInt8
  | .error => []
  | .read buffer => buffer

/-- A call of `recv` with the stream open: it fails, or reads at least one byte and at most as
many as the buffer takes. -/
def Recv.Open : Recv → Prop
  | .error => True
  | .read buffer => 1 ≤ buffer.length ∧ buffer.length ≤ bufferSize

instance (r : Recv) : Decidable r.Open :=
  match r with
  | .error => .isTrue trivial
  | .read buffer => inferInstanceAs (Decidable (1 ≤ buffer.length ∧ buffer.length ≤ bufferSize))

/-- The bytes `'|'` and `'0'`. -/
def bar : UInt8 := 124

def zero : UInt8 := 48

/-- The variables of the receive loop, and what was done with the messages: the bytes completed,
and the text printed. It is also noted whether the count was decremented below zero. -/
structure Connection where
  gettingLen : Bool := true
  acc : UInt64 := 0
  msgBuffer : Vector UInt8 bufferSize
  msgIdx : ℕ := 0
  stopped : Bool := false
  completed : List (List UInt8) := []
  printed : List (List UInt8) := []
  underflow : Bool := false

/-- A character minus `'0'`; characters are signed, and the difference becomes an unsigned
number. -/
def digit (b : UInt8) : UInt64 := UInt64.ofInt (b.toInt8.toInt - zero.toInt8.toInt)

def lengthOf (field : List UInt8) : UInt64 := field.foldl (fun acc b => acc * 10 + digit b) 0

/-- The string that a buffer holds ends before the first zero. -/
def cString (l : List UInt8) : List UInt8 := l.takeWhile (· ≠ 0)

namespace Connection

def accept (msgBuffer : Vector UInt8 bufferSize) : Connection := { msgBuffer }

/-- `msg_buffer[msg_idx] = b`, which must be inside the buffer. -/
def put (s : Connection) (b : UInt8) : Option Connection :=
  if h : s.msgIdx < bufferSize then some { s with msgBuffer := s.msgBuffer.set s.msgIdx b h }
  else none

def finish (s : Connection) : Option Connection :=
  (s.put 0).map fun s => { s with
    gettingLen := true
    msgBuffer := Vector.replicate bufferSize 0
    msgIdx := 0
    completed := s.completed ++ [s.msgBuffer.toList.take s.msgIdx]
    printed := s.printed ++ [cString s.msgBuffer.toList] }

/-- `msg_idx++` and `acc--`. -/
def count (s : Connection) : Connection := { s with
  msgIdx := s.msgIdx + 1
  acc := s.acc - 1
  underflow := s.underflow || s.acc == 0 }

def readByte (s : Connection) (b : UInt8) : Option Connection :=
  if s.gettingLen then
    if b = bar then some { s with gettingLen := false }
    else some { s with acc := s.acc * 10 + digit b }
  else (s.put b).bind fun s =>
    if s.count.acc = 0 then s.count.finish else some s.count

def readBytes (s : Connection) (bytes : List UInt8) : Option Connection := bytes.foldlM readByte s

def receive (s : Connection) : Recv → Option Connection
  | .error => some s
  | .read buffer =>
    if buffer.length = 0 then some { s with stopped := true } else s.readBytes buffer

/-- The loop, with the results of its calls of `recv`. -/
def serve (s : Connection) : List Recv → Option Connection
  | [] => some s
  | r :: rs => if s.stopped then some s else (s.receive r).bind fun s => s.serve rs

end Connection

structure Idle (s : Connection) (messages : List (List UInt8)) : Prop where
  gettingLen : s.gettingLen = true
  acc : s.acc = 0
  msgIdx : s.msgIdx = 0
  completed : s.completed = messages
  printed : s.printed = messages.map cString
  underflow : s.underflow = false

/-- In a message, of which some bytes have been read and some are left. -/
structure Filling (s : Connection) (messages : List (List UInt8)) (body : List UInt8) (left : ℕ) :
    Prop where
  gettingLen : s.gettingLen = false
  acc : s.acc.toNat = left
  msgIdx : s.msgIdx = body.length
  buffer : s.msgBuffer.toList.take body.length = body
  completed : s.completed = messages
  printed : s.printed = messages.map cString
  underflow : s.underflow = false

variable {s s' : Connection} {messages : List (List UInt8)} {field body bytes : List UInt8}
  {b : UInt8} {left : ℕ}

theorem idle_accept (msgBuffer : Vector UInt8 bufferSize) : Idle (.accept msgBuffer) [] where
  gettingLen := rfl
  acc := rfl
  msgIdx := rfl
  completed := rfl
  printed := rfl
  underflow := rfl

theorem cString_append_zero (l rest : List UInt8) : cString (l ++ 0 :: rest) = cString l := by
  rw [cString, cString, List.takeWhile_append]
  split
  · next h =>
    rw [List.takeWhile_cons_of_neg (by simp), List.append_nil]
    exact ((List.takeWhile_prefix _).eq_of_length h).symm
  · rfl

section Body

theorem Filling.put (h : Filling s messages body left) (hroom : body.length < bufferSize)
    (b : UInt8) : ∃ buffer rest, s.put b = some { s with msgBuffer := buffer } ∧
      buffer.toList = body ++ b :: rest := by
  have hidx : s.msgIdx < bufferSize := h.msgIdx ▸ hroom
  refine ⟨_, s.msgBuffer.toList.drop (body.length + 1), dif_pos hidx, ?_⟩
  rw [Vector.toList_set, List.set_eq_take_append_cons_drop, h.msgIdx, h.buffer]
  exact if_pos (by rwa [Vector.length_toList])

theorem Filling.readByte (h : Filling s messages body left) :
    s.readByte b = (s.put b).bind fun s =>
      if s.count.acc = 0 then s.count.finish else some s.count := by
  rw [Connection.readByte, h.gettingLen]
  rfl

theorem Filling.count (h : Filling s messages body left) (hleft : 0 < left)
    (hroom : body.length < bufferSize) (b : UInt8) :
    ∃ s', Filling s' messages (body ++ [b]) (left - 1) ∧
      s.readByte b = if left = 1 then s'.finish else some s' := by
  obtain ⟨buffer, rest, hput, hbuffer⟩ := h.put hroom b
  have hle : (1 : UInt64) ≤ s.acc := UInt64.le_iff_toNat_le.mpr (by rw [h.acc]; exact hleft)
  have hacc : (s.acc - 1).toNat = left - 1 := by
    rw [UInt64.toNat_sub_of_le _ _ hle, h.acc]
    rfl
  have hfilling : Filling ({ s with msgBuffer := buffer } : Connection).count messages
      (body ++ [b]) (left - 1) := by
    constructor
    case gettingLen => exact h.gettingLen
    case acc => exact hacc
    case msgIdx =>
      rw [List.length_append]
      exact congrArg (· + 1) h.msgIdx
    case buffer =>
      show buffer.toList.take _ = _
      rw [hbuffer, List.append_cons body b rest]
      exact List.take_left
    case completed => exact h.completed
    case printed => exact h.printed
    case underflow =>
      have hne : s.acc ≠ 0 := by
        intro h0
        have := h.acc
        rw [h0] at this
        exact absurd this.symm hleft.ne'
      show (s.underflow || s.acc == 0) = false
      rw [h.underflow, Bool.false_or]
      exact beq_false_of_ne hne
  refine ⟨_, hfilling, ?_⟩
  have hiff : s.acc - 1 = 0 ↔ left = 1 := by
    rw [← UInt64.toNat_inj, hacc]
    show left - 1 = 0 ↔ left = 1
    omega
  rw [h.readByte, hput]
  exact if_congr hiff rfl rfl

theorem Filling.finish (h : Filling s messages body 0) (hroom : body.length < bufferSize) :
    ∃ s', s.finish = some s' ∧ Idle s' (messages ++ [body]) := by
  obtain ⟨buffer, rest, hput, hbuffer⟩ := h.put hroom 0
  have htake : buffer.toList.take s.msgIdx = body := by
    rw [hbuffer, h.msgIdx]
    exact List.take_left
  refine ⟨_, congrArg _ hput, ?_⟩
  constructor
  case gettingLen => rfl
  case acc => exact UInt64.toNat_inj.mp h.acc
  case msgIdx => rfl
  case completed =>
    show s.completed ++ [buffer.toList.take s.msgIdx] = _
    rw [h.completed, htake]
  case printed =>
    show s.printed ++ [cString buffer.toList] = _
    rw [h.printed, hbuffer, cString_append_zero, List.map_append]
    rfl
  case underflow => exact h.underflow

theorem readBytes_cons (s : Connection) (b : UInt8) (bytes : List UInt8) :
    s.readBytes (b :: bytes) = (s.readByte b).bind fun s => s.readBytes bytes := rfl

theorem readBytes_append (s : Connection) (l l' : List UInt8) :
    s.readBytes (l ++ l') = (s.readBytes l).bind fun s => s.readBytes l' :=
  List.foldlM_append

theorem Filling.readBytes (h : Filling s messages body left) (hshort : bytes.length < left)
    (hroom : body.length + bytes.length ≤ bufferSize) :
    ∃ s', s.readBytes bytes = some s' ∧
      Filling s' messages (body ++ bytes) (left - bytes.length) := by
  induction bytes generalizing s body left with
  | nil =>
    rw [List.append_nil]
    exact ⟨s, rfl, h⟩
  | cons b bytes ih =>
    rw [List.length_cons] at hshort hroom
    obtain ⟨s₁, h₁, hs₁⟩ := h.count (by omega) (by omega) b
    rw [if_neg (by omega)] at hs₁
    have hlen : (body ++ [b]).length = body.length + 1 := List.length_append
    obtain ⟨s', hs', h'⟩ := ih h₁ (by omega) (by omega)
    refine ⟨s', ?_, ?_⟩
    · rw [readBytes_cons, hs₁]
      exact hs'
    · rw [List.append_assoc] at h'
      rw [List.length_cons, Nat.add_comm, ← Nat.sub_sub]
      exact h'

theorem Filling.complete (h : Filling s messages body left) (hleft : 0 < left)
    (hlen : bytes.length = left) (hroom : body.length + left < bufferSize) :
    ∃ s', s.readBytes bytes = some s' ∧ Idle s' (messages ++ [body ++ bytes]) := by
  obtain ⟨bytes, b, rfl⟩ : ∃ l b, bytes = l ++ [b] := by
    have hne : bytes ≠ [] := List.ne_nil_of_length_pos (hlen ▸ hleft)
    exact ⟨bytes.dropLast, bytes.getLast hne, (List.dropLast_append_getLast hne).symm⟩
  have hbytes : bytes.length + 1 = left := by
    rw [← hlen, List.length_append]
    rfl
  have hshort : bytes.length < left := by omega
  obtain ⟨s₁, hs₁, h₁⟩ := h.readBytes hshort (by omega)
  have hlen₁ : (body ++ bytes).length = body.length + bytes.length := List.length_append
  have hlen₂ : (body ++ bytes ++ [b]).length = body.length + bytes.length + 1 := by
    rw [List.length_append, hlen₁]
    rfl
  have hone : left - bytes.length = 1 := by omega
  rw [hone] at h₁
  obtain ⟨s₂, h₂, hs₂⟩ := h₁.count Nat.one_pos (by omega) b
  obtain ⟨s', hs', h'⟩ := h₂.finish (by omega)
  refine ⟨s', ?_, ?_⟩
  · rw [readBytes_append, hs₁]
    show (s₁.readByte b).bind _ = _
    rw [hs₂, if_pos rfl, hs']
    rfl
  · rwa [← List.append_assoc]

end Body

section Field

/-- A length field only changes the number. -/
theorem readBytes_field (h : s.gettingLen = true) (hbar : bar ∉ field) :
    s.readBytes field =
      some { s with acc := field.foldl (fun acc b => acc * 10 + digit b) s.acc } := by
  induction field generalizing s with
  | nil => rfl
  | cons b field ih =>
    rw [List.mem_cons, not_or] at hbar
    rw [readBytes_cons, Connection.readByte, if_pos h, if_neg (Ne.symm hbar.1)]
    exact ih h hbar.2

theorem Idle.readField (h : Idle s messages) (hbar : bar ∉ field) :
    s.readBytes field = some { s with acc := lengthOf field } := by
  rw [readBytes_field h.gettingLen hbar, h.acc]
  rfl

theorem Idle.readLength (h : Idle s messages) (hbar : bar ∉ field) :
    ∃ s', (∀ rest, s.readBytes (field ++ bar :: rest) = s'.readBytes rest) ∧
      Filling s' messages [] (lengthOf field).toNat := by
  refine ⟨{ s with acc := lengthOf field, gettingLen := false }, ?_, ?_⟩
  · intro rest
    rw [readBytes_append, h.readField hbar, Option.bind_some, readBytes_cons, Connection.readByte,
      if_pos h.gettingLen, if_pos rfl]
    rfl
  · exact ⟨rfl, rfl, h.msgIdx, rfl, h.completed, h.printed, h.underflow⟩

end Field

section Segments

/-- A store changes the buffer only. -/
theorem put_frame (h : s.put b = some s') : ∃ buffer, s' = { s with msgBuffer := buffer } := by
  rw [Connection.put] at h
  split at h
  · obtain rfl := Option.some.inj h
    exact ⟨_, rfl⟩
  · cases h

theorem finish_frame (h : s.finish = some s') :
    s'.stopped = s.stopped ∧ s'.underflow = s.underflow := by
  obtain ⟨s₁, hs₁, rfl⟩ := Option.map_eq_some_iff.mp h
  obtain ⟨buffer, rfl⟩ := put_frame hs₁
  exact ⟨rfl, rfl⟩

theorem readByte_frame (h : s.readByte b = some s') : s'.stopped = s.stopped ∧
    s'.underflow = (s.underflow || (!s.gettingLen && s.acc == 0)) := by
  rw [Connection.readByte] at h
  split at h
  · next hlen =>
    rw [hlen, Bool.not_true, Bool.false_and, Bool.or_false]
    split at h <;> obtain rfl := Option.some.inj h <;> exact ⟨rfl, rfl⟩
  · next hlen =>
    rw [Bool.not_eq_true] at hlen
    rw [hlen, Bool.not_false, Bool.true_and]
    obtain ⟨s₁, hs₁, hs'⟩ := Option.bind_eq_some_iff.mp h
    obtain ⟨buffer, rfl⟩ := put_frame hs₁
    split at hs'
    · exact finish_frame hs'
    · obtain rfl := Option.some.inj hs'
      exact ⟨rfl, rfl⟩

theorem readBytes_invariant {P : Connection → Prop}
    (hstep : ∀ s b s', P s → s.readByte b = some s' → P s') (h : P s)
    (hs' : s.readBytes bytes = some s') : P s' :=
  Machine.run_invariant (M := ⟨s, Connection.readByte⟩) hstep h hs'

theorem readBytes_stopped (h : s.readBytes bytes = some s') : s'.stopped = s.stopped := by
  refine readBytes_invariant (P := fun s₁ => s₁.stopped = s.stopped) ?_ rfl h
  intro s₁ b s₂ h₁ hs₂
  exact (readByte_frame hs₂).1.trans h₁

theorem receive_eq {r : Recv} (hr : r.Open) : s.receive r = s.readBytes r.bytes := by
  cases r with
  | error => rfl
  | read buffer => exact if_neg (Nat.pos_iff_ne_zero.mp hr.1)

theorem serve_eq {rs : List Recv} (h : s.stopped = false) (hrs : ∀ r ∈ rs, r.Open) :
    s.serve rs = s.readBytes (rs.flatMap Recv.bytes) := by
  induction rs generalizing s with
  | nil => rfl
  | cons r rs ih =>
    have hr := hrs r (List.mem_cons_self ..)
    rw [Connection.serve, if_neg (by simp [h]), receive_eq hr, List.flatMap_cons, readBytes_append]
    cases hs : s.readBytes r.bytes with
    | none => rfl
    | some s₁ =>
      have h₁ : s₁.stopped = false := (readBytes_stopped hs).trans h
      exact ih h₁ fun r' hr' => hrs r' (List.mem_cons_of_mem _ hr')

end Segments

section RoundTrip

def decimal (n : ℕ) : List UInt8 := (Nat.toDigits 10 n).map Char.toUInt8

def encode (message : List UInt8) : List UInt8 := decimal message.length ++ bar :: message

theorem digit_toUInt8 {c : Char} (h : c.isDigit = true) :
    digit c.toUInt8 = UInt64.ofNat (c.toNat - '0'.toNat) ∧ c.toUInt8 ≠ bar := by
  obtain ⟨hlow, hhigh⟩ := Char.isDigit_iff_toNat.mp h
  have hlow : 48 ≤ c.toNat := hlow
  have hhigh : c.toNat ≤ 57 := hhigh
  rw [← Char.ofNat_toNat c]
  interval_cases c.toNat <;> decide

theorem bar_not_mem_decimal (n : ℕ) : bar ∉ decimal n := by
  intro hmem
  obtain ⟨c, hc, hbar⟩ := List.mem_map.mp hmem
  have hdigit := Nat.isDigit_of_mem_toDigits (by decide) (by decide) hc
  exact (digit_toUInt8 hdigit).2 hbar

theorem foldl_digits {chars : List Char} (h : ∀ c ∈ chars, c.isDigit = true) (n : ℕ) :
    (chars.map Char.toUInt8).foldl (fun acc b => acc * 10 + digit b) (UInt64.ofNat n) =
      UInt64.ofNat (Nat.ofDigitChars 10 chars n) := by
  induction chars generalizing n with
  | nil => rfl
  | cons c chars ih =>
    obtain ⟨hc, hchars⟩ := List.forall_mem_cons.mp h
    have hstep : UInt64.ofNat n * 10 + digit c.toUInt8 =
        UInt64.ofNat (10 * n + (c.toNat - '0'.toNat)) := by
      rw [(digit_toUInt8 hc).1, UInt64.ofNat_add, UInt64.ofNat_mul, UInt64.mul_comm]
      rfl
    rw [List.map_cons, List.foldl_cons, hstep, ih hchars, Nat.ofDigitChars_cons]

theorem lengthOf_decimal (n : ℕ) : lengthOf (decimal n) = UInt64.ofNat n := by
  have hdigits : ∀ c ∈ Nat.toDigits 10 n, c.isDigit = true := fun c hc =>
    Nat.isDigit_of_mem_toDigits (by decide) (by decide) hc
  have hfold := foldl_digits hdigits 0
  rwa [Nat.ofDigitChars_ten_toDigits] at hfold

theorem Idle.readMessage (h : Idle s messages) {message : List UInt8} (hpos : 1 ≤ message.length)
    (hlen : message.length < bufferSize) :
    ∃ s', s.readBytes (encode message) = some s' ∧ Idle s' (messages ++ [message]) := by
  obtain ⟨s₁, hs₁, h₁⟩ := h.readLength (bar_not_mem_decimal message.length)
  have hsmall : message.length < 2 ^ 64 := hlen.trans (by decide)
  rw [lengthOf_decimal, UInt64.toNat_ofNat_of_lt' hsmall] at h₁
  obtain ⟨s', hs', h'⟩ := h₁.complete hpos rfl (by simpa using hlen)
  exact ⟨s', (hs₁ message).trans hs', h'⟩

theorem Idle.readMessages (h : Idle s messages) {rest : List (List UInt8)}
    (hrest : ∀ m ∈ rest, 1 ≤ m.length ∧ m.length < bufferSize) :
    ∃ s', s.readBytes (rest.flatMap encode) = some s' ∧ Idle s' (messages ++ rest) := by
  induction rest generalizing s messages with
  | nil =>
    rw [List.append_nil]
    exact ⟨s, rfl, h⟩
  | cons m rest ih =>
    obtain ⟨⟨hpos, hlen⟩, hrest⟩ := List.forall_mem_cons.mp hrest
    obtain ⟨s₁, hs₁, h₁⟩ := h.readMessage hpos hlen
    obtain ⟨s', hs', h'⟩ := ih h₁ hrest
    rw [List.append_assoc] at h'
    refine ⟨s', ?_, h'⟩
    rw [List.flatMap_cons, readBytes_append, hs₁]
    exact hs'

/-- However the stream is split, the server completes the messages, and prints each up to its first
zero. -/
theorem serve_idle (msgBuffer : Vector UInt8 bufferSize) {rs : List Recv} (hrs : ∀ r ∈ rs, r.Open)
    (hlen : ∀ m ∈ messages, 1 ≤ m.length ∧ m.length < bufferSize)
    (hbytes : rs.flatMap Recv.bytes = messages.flatMap encode) :
    ∃ s, (Connection.accept msgBuffer).serve rs = some s ∧ Idle s messages := by
  rw [serve_eq rfl hrs, hbytes]
  exact (idle_accept msgBuffer).readMessages hlen

theorem serve_encode (msgBuffer : Vector UInt8 bufferSize)
    (hlen : ∀ m ∈ messages, 1 ≤ m.length ∧ m.length ≤ 1023) {rs : List Recv}
    (hrs : ∀ r ∈ rs, r.Open) (hbytes : rs.flatMap Recv.bytes = messages.flatMap encode) :
    ∃ s, (Connection.accept msgBuffer).serve rs = some s ∧ s.completed = messages ∧
      s.gettingLen = true ∧ s.acc = 0 ∧ s.msgIdx = 0 := by
  have hfits : ∀ m ∈ messages, 1 ≤ m.length ∧ m.length < bufferSize := fun m hm =>
    ⟨(hlen m hm).1, Nat.lt_succ_of_le (hlen m hm).2⟩
  obtain ⟨s, hs, h⟩ := serve_idle msgBuffer hrs hfits hbytes
  exact ⟨s, hs, h.completed, h.gettingLen, h.acc, h.msgIdx⟩

/-- The bodies `A|` and `1`, split before the first bar, inside the body and before the second
one. -/
theorem serve_encode_two :
    ∃ s, (Connection.accept (Vector.replicate bufferSize 7)).serve
        [.read [50], .read [124, 65], .error, .read [124, 49], .read [124, 49]] = some s ∧
      s.completed = [[65, 124], [49]] ∧ s.gettingLen = true ∧ s.acc = 0 ∧ s.msgIdx = 0 := by
  exact serve_encode _ (by decide) (by decide) (by decide)

end RoundTrip

end LowLevel.Network.Framing
