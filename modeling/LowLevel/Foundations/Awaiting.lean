import LowLevel.Foundations.Reassembly
import Mathlib.Order.Basic

/-! # Waiting for a frame

A client that waits takes frames off its buffer until one is the awaited one, and
receives a further chunk whenever no frame is left. Whatever the chunks, it stops
right behind the first awaited frame of the stream: it skips nothing that it
waits for, and takes nothing that comes later.
-/

namespace LowLevel

variable {α β γ ε : Type}

namespace Reassembly

/-- Receive at most so many bytes, and at least one when there is one. -/
def receive (limit size : ℕ) (socket : List β) : List β × List β :=
  socket.splitAt (min limit (size + 1))

namespace Receiver

variable (cut : List β → Except ε (Option (γ × List β))) (stuck : ε) (limit : ℕ)
  (awaited : γ → Bool)

/-- Take frames until one is awaited; the answer tells whether there was one. -/
def popUntil : ℕ → Receiver β γ → Except ε (Bool × Receiver β γ)
  | 0, _ => .error stuck
  | fuel + 1, r =>
    match cut r.buffered with
    | .error e => .error e
    | .ok none => .ok (false, r)
    | .ok (some (c, rest)) =>
      if awaited c then .ok (true, ⟨rest, r.popped ++ [c]⟩)
      else popUntil fuel ⟨rest, r.popped ++ [c]⟩

/-- Receive until the awaited frame is there. The sizes are those that each call of `recv` would
return; the answer is `none` when nothing more arrives. -/
def await : ℕ → List ℕ → List β → Receiver β γ → Except ε (Option (Receiver β γ × List β))
  | 0, _, _, _ => .error stuck
  | fuel + 1, sizes, socket, r =>
    match r.popUntil cut stuck awaited (r.buffered.length + 1) with
    | .error e => .error e
    | .ok (true, r) => .ok (some (r, socket))
    | .ok (false, r) =>
      if socket.isEmpty then .ok none
      else
        let (chunk, socket) := receive limit (sizes.headD 0) socket
        await fuel sizes.tail socket { r with buffered := r.buffered ++ chunk }

def drainAvailable : List ℕ → List β → Receiver β γ → Except ε (Receiver β γ × List β)
  | [], socket, r => (r.drain cut stuck (r.buffered.length + 1)).map fun r => (r, socket)
  | size :: sizes, socket, r =>
    match r.drain cut stuck (r.buffered.length + 1) with
    | .error e => .error e
    | .ok r =>
      let (chunk, socket) := receive limit size socket
      drainAvailable sizes socket { r with buffered := r.buffered ++ chunk }

end Receiver

end Reassembly

namespace SelfDelimiting

open Reassembly

variable {bytes : α → List β} {key : α → γ} {cut : List β → Except ε (Option (γ × List β))}
  {r : Receiver β γ} {a : α} {pre post rest : List α} {socket future : List β} {all : List γ}
  {limit : ℕ} {awaited : γ → Bool} {stuck : ε}

theorem receive_append (limit size : ℕ) (socket : List β) :
    (receive limit size socket).1 ++ (receive limit size socket).2 = socket := by
  rw [receive, List.splitAt_eq]
  exact List.take_append_drop ..

theorem receive_length (hlimit : 0 < limit) (size : ℕ) (hsocket : socket ≠ []) :
    (receive limit size socket).2.length < socket.length := by
  have hpos := List.length_pos_iff.mpr hsocket
  rw [receive, List.splitAt_eq, List.length_drop]
  omega

/-- The buffer begins with a whole frame, which is cut off, or it ends within one. -/
theorem cut_eq (h : SelfDelimiting bytes key cut) {buffered later : List β}
    (heq : buffered ++ future = bytes a ++ later) :
    cut buffered = .ok none ∧ buffered.length < (bytes a).length ∨
      ∃ l, buffered = bytes a ++ l ∧ l ++ future = later ∧
        cut buffered = .ok (some (key a, l)) := by
  by_cases hlen : buffered.length < (bytes a).length
  · left
    have hbegin : buffered <+: bytes a :=
      List.prefix_of_prefix_length_le ⟨_, heq⟩ (List.prefix_append ..) (Nat.le_of_lt hlen)
    exact ⟨h.short a _ hbegin hlen, hlen⟩
  · right
    obtain ⟨l, rfl⟩ : bytes a <+: buffered :=
      List.prefix_of_prefix_length_le ⟨_, heq.symm⟩ (List.prefix_append ..) (Nat.le_of_not_lt hlen)
    rw [List.append_assoc] at heq
    exact ⟨l, rfl, List.append_cancel_left heq, h.full a l⟩

/-- Frames in front of the awaited one are taken, then it; or the buffer ends before that. -/
theorem popUntil_spec (h : SelfDelimiting bytes key cut) (stuck : ε) {fuel : ℕ}
    (hfuel : r.buffered.length < fuel)
    (heq : r.buffered ++ future = (pre ++ a :: post).flatMap bytes)
    (hpre : ∀ x ∈ pre, awaited (key x) = false) (ha : awaited (key a) = true) :
    (∃ l, r.popUntil cut stuck awaited fuel =
        .ok (true, ⟨l, r.popped ++ pre.map key ++ [key a]⟩) ∧
          l ++ future = post.flatMap bytes) ∨
      ∃ l pre₁ pre₂, r.popUntil cut stuck awaited fuel =
        .ok (false, ⟨l, r.popped ++ pre₁.map key⟩) ∧ pre = pre₁ ++ pre₂ ∧
          r.buffered = pre₁.flatMap bytes ++ l ∧
          l.length < ((pre₂ ++ [a]).flatMap bytes).length := by
  induction pre generalizing r fuel with
  | nil =>
    obtain ⟨fuel, rfl⟩ := Nat.exists_eq_succ_of_ne_zero (Nat.ne_of_gt (Nat.zero_lt_of_lt hfuel))
    rw [List.nil_append, List.flatMap_cons] at heq
    unfold Receiver.popUntil
    rcases h.cut_eq heq with ⟨hcut, hlen⟩ | ⟨l, -, hlater, hcut⟩
    · right
      refine ⟨r.buffered, [], [], ?_, rfl, rfl, ?_⟩
      · rw [hcut, List.map_nil, List.append_nil]
      · rwa [List.nil_append, List.flatMap_singleton]
    · left
      refine ⟨l, ?_, hlater⟩
      rw [hcut, List.map_nil, List.append_nil]
      exact if_pos ha
  | cons x pre ih =>
    obtain ⟨fuel, rfl⟩ := Nat.exists_eq_succ_of_ne_zero (Nat.ne_of_gt (Nat.zero_lt_of_lt hfuel))
    rw [List.cons_append, List.flatMap_cons] at heq
    unfold Receiver.popUntil
    rcases h.cut_eq heq with ⟨hcut, hlen⟩ | ⟨l, hbuffered, hlater, hcut⟩
    · right
      refine ⟨r.buffered, [], x :: pre, ?_, rfl, rfl, ?_⟩
      · rw [hcut, List.map_nil, List.append_nil]
      · rw [List.cons_append, List.flatMap_cons, List.length_append]
        exact Nat.lt_of_lt_of_le hlen (Nat.le_add_right ..)
    · have hshort : l.length < fuel := by
        have hpos := List.length_pos_iff.mpr (h.nonempty x)
        rw [hbuffered, List.length_append] at hfuel
        omega
      have hskip : awaited (key x) = false := hpre x (List.mem_cons_self ..)
      rw [hcut]
      simp only [hskip, Bool.false_eq_true, if_false]
      rcases ih (r := ⟨l, r.popped ++ [key x]⟩) hshort hlater
        (fun y hy => hpre y (List.mem_cons_of_mem _ hy)) with
        ⟨l', hpop, hpost⟩ | ⟨l', pre₁, pre₂, hpop, hsplit, hbuf, hlen⟩
      · left
        refine ⟨l', ?_, hpost⟩
        rw [List.map_cons, List.append_cons r.popped _ (pre.map key)]
        exact hpop
      · right
        refine ⟨l', x :: pre₁, pre₂, ?_, ?_, ?_, hlen⟩
        · rw [List.map_cons, List.append_cons r.popped _ (pre₁.map key)]
          exact hpop
        · rw [hsplit, List.cons_append]
        · change l = _ at hbuf
          rw [hbuffered, hbuf, List.flatMap_cons, List.append_assoc]

/-- A client that waits stops behind the first awaited frame, once that has been sent. -/
theorem await_spec (h : SelfDelimiting bytes key cut) (stuck : ε) (hlimit : 0 < limit)
    {fuel : ℕ} (sizes : List ℕ) (hfuel : socket.length < fuel)
    (heq : r.buffered ++ socket = (pre ++ a :: post).flatMap bytes)
    (hpre : ∀ x ∈ pre, awaited (key x) = false) (ha : awaited (key a) = true) :
    ∃ r' socket', r.await cut stuck limit awaited fuel sizes socket = .ok (some (r', socket')) ∧
      r'.popped = r.popped ++ pre.map key ++ [key a] ∧
      r'.buffered ++ socket' = post.flatMap bytes := by
  induction fuel generalizing r socket pre sizes with
  | zero => exact absurd hfuel (Nat.not_lt_zero _)
  | succ fuel ih =>
    unfold Receiver.await
    rcases h.popUntil_spec stuck (Nat.lt_succ_self _) heq hpre ha with
      ⟨l, hpop, hpost⟩ | ⟨l, pre₁, pre₂, hpop, hsplit, hbuf, hlen⟩
    · rw [hpop]
      exact ⟨_, socket, rfl, rfl, hpost⟩
    · subst hsplit
      rw [hbuf, List.append_assoc, List.append_assoc, List.flatMap_append] at heq
      have hrest := List.append_cancel_left heq
      have hsocket : socket ≠ [] := by
        rintro rfl
        rw [List.append_nil] at hrest
        rw [hrest, List.append_cons, List.flatMap_append, List.length_append] at hlen
        omega
      rw [hpop]
      simp only [List.isEmpty_iff, hsocket, if_false]
      have hshort := receive_length hlimit (sizes.headD 0) hsocket
      have hnext : (l ++ (receive limit (sizes.headD 0) socket).1) ++
          (receive limit (sizes.headD 0) socket).2 = (pre₂ ++ a :: post).flatMap bytes := by
        rw [List.append_assoc, receive_append, hrest]
      obtain ⟨r', socket', hawait, hpopped, hpost⟩ := ih
        (r := ⟨l ++ (receive limit (sizes.headD 0) socket).1, r.popped ++ pre₁.map key⟩)
        sizes.tail (by omega) hnext (fun x hx => hpre x (List.mem_append_right _ hx))
      refine ⟨r', socket', hawait, ?_, hpost⟩
      rw [hpopped, List.map_append]
      simp only [List.append_assoc]

theorem drain_pending (h : SelfDelimiting bytes key cut) (stuck : ε) {fuel : ℕ}
    (hfuel : r.buffered.length < fuel) (hp : Pending bytes key all r future) :
    ∃ r', r.drain cut stuck fuel = .ok r' ∧ Pending bytes key all r' future := by
  induction fuel generalizing r with
  | zero => exact absurd hfuel (Nat.not_lt_zero _)
  | succ fuel ih =>
    obtain ⟨rest, heq, hall⟩ := hp
    unfold Receiver.drain
    cases rest with
    | nil =>
      have hnil : r.buffered = [] := (List.append_eq_nil_iff.mp heq).1
      have hpop : r.pop cut = .ok (false, r) := by simp [Receiver.pop, hnil, h.empty, Except.map]
      rw [hpop]
      exact ⟨r, rfl, [], heq, hall⟩
    | cons x rest =>
      rcases h.pop_eq heq with ⟨hpop, -⟩ | ⟨l, hbuffered, hlater, hpop⟩
      · rw [hpop]
        exact ⟨r, rfl, x :: rest, heq, hall⟩
      · have hpos := List.length_pos_iff.mpr (h.nonempty x)
        rw [hpop]
        refine ih (r := ⟨l, r.popped ++ [key x]⟩) ?_ ⟨rest, hlater, ?_⟩
        · rw [hbuffered, List.length_append] at hfuel
          change l.length < fuel
          omega
        · rw [← hall, List.map_cons, ← List.append_cons]

theorem drainAvailable_pending (h : SelfDelimiting bytes key cut) (stuck : ε) (limit : ℕ)
    (sizes : List ℕ) (hp : Pending bytes key all r socket) :
    ∃ r' socket', r.drainAvailable cut stuck limit sizes socket = .ok (r', socket') ∧
      Pending bytes key all r' socket' := by
  induction sizes generalizing r socket with
  | nil =>
    obtain ⟨r', hdrain, hp'⟩ := h.drain_pending stuck (Nat.lt_succ_self _) hp
    refine ⟨r', socket, ?_, hp'⟩
    rw [Receiver.drainAvailable, hdrain]
    rfl
  | cons size sizes ih =>
    obtain ⟨r₁, hdrain, rest, heq, hall⟩ :=
      h.drain_pending stuck (Nat.lt_succ_self _) hp
    unfold Receiver.drainAvailable
    rw [hdrain]
    have hnext : Pending bytes key all ⟨r₁.buffered ++ (receive limit size socket).1, r₁.popped⟩
        (receive limit size socket).2 := by
      refine ⟨rest, ?_, hall⟩
      rw [List.append_assoc, receive_append, heq]
    exact ih hnext

end SelfDelimiting

end LowLevel
