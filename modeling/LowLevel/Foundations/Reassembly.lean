import Mathlib.Data.List.Basic
import Mathlib.Data.Nat.Notation

/-! # Reassembly of framed streams

A byte stream arrives in chunks of any size and is cut back into the frames it
was made of. All that is asked of the function that cuts one frame off the
buffer is that it waits on a proper beginning of a frame and that it finds a
frame in front of anything else.
-/

namespace LowLevel

variable {α β γ ε : Type}

structure SelfDelimiting (bytes : α → List β) (key : α → γ)
    (cut : List β → Except ε (Option (γ × List β))) : Prop where
  empty : cut [] = .ok none
  short : ∀ a l, l <+: bytes a → l.length < (bytes a).length → cut l = .ok none
  full : ∀ a l, cut (bytes a ++ l) = .ok (some (key a, l))
  nonempty : ∀ a, bytes a ≠ []

namespace Reassembly

/-- What a receiver does: take a chunk from the stream, or a frame from its buffer. -/
inductive Action (β : Type) where
  | receive (chunk : List β)
  | pop

def received : List (Action β) → List β
  | [] => []
  | .receive chunk :: acts => chunk ++ received acts
  | .pop :: acts => received acts

structure Receiver (β γ : Type) where
  buffered : List β := []
  popped : List γ := []

namespace Receiver

variable (cut : List β → Except ε (Option (γ × List β)))

def pop (r : Receiver β γ) : Except ε (Bool × Receiver β γ) :=
  (cut r.buffered).map fun
    | none => (false, r)
    | some (c, rest) => (true, ⟨rest, r.popped ++ [c]⟩)

def step (r : Receiver β γ) : Action β → Except ε (Receiver β γ)
  | .receive chunk => .ok { r with buffered := r.buffered ++ chunk }
  | .pop => (r.pop cut).map Prod.snd

def run (acts : List (Action β)) (r : Receiver β γ) : Except ε (Receiver β γ) :=
  acts.foldlM (step cut) r

/-- Take frames until there is none left, at most as often as the fuel allows. -/
def drain (stuck : ε) : ℕ → Receiver β γ → Except ε (Receiver β γ)
  | 0, _ => .error stuck
  | fuel + 1, r =>
    match r.pop cut with
    | .error e => .error e
    | .ok (true, r) => drain stuck fuel r
    | .ok (false, r) => .ok r

end Receiver

end Reassembly

namespace SelfDelimiting

open Reassembly

variable {bytes : α → List β} {key : α → γ} {cut : List β → Except ε (Option (γ × List β))}
  {r : Receiver β γ} {a : α} {rest : List α} {future : List β} {all : List γ}
  {acts : List (Action β)}

/-- The frames still to be popped are spelled by the buffer and what is yet to arrive. -/
def Pending (bytes : α → List β) (key : α → γ) (all : List γ) (r : Receiver β γ)
    (future : List β) : Prop :=
  ∃ rest : List α, r.buffered ++ future = rest.flatMap bytes ∧ r.popped ++ rest.map key = all

theorem pop_eq (h : SelfDelimiting bytes key cut)
    (heq : r.buffered ++ future = bytes a ++ rest.flatMap bytes) :
    r.pop cut = .ok (false, r) ∧ r.buffered.length < (bytes a).length ∨
      ∃ l, r.buffered = bytes a ++ l ∧ l ++ future = rest.flatMap bytes ∧
        r.pop cut = .ok (true, ⟨l, r.popped ++ [key a]⟩) := by
  by_cases hlen : r.buffered.length < (bytes a).length
  · left
    have hbegin : r.buffered <+: bytes a :=
      List.prefix_of_prefix_length_le ⟨_, heq⟩ (List.prefix_append ..) (by omega)
    rw [Receiver.pop, h.short a _ hbegin hlen]
    exact ⟨rfl, hlen⟩
  · right
    obtain ⟨l, hl⟩ : bytes a <+: r.buffered :=
      List.prefix_of_prefix_length_le ⟨_, heq.symm⟩ (List.prefix_append ..) (by omega)
    refine ⟨l, hl.symm, ?_, ?_⟩
    · rw [← hl, List.append_assoc] at heq
      exact List.append_cancel_left heq
    · rw [Receiver.pop, ← hl, h.full]
      rfl

theorem step_pending (h : SelfDelimiting bytes key cut) {act : Action β}
    (hp : Pending bytes key all r (received [act] ++ future)) :
    ∃ r', r.step cut act = .ok r' ∧ Pending bytes key all r' future := by
  obtain ⟨rest, heq, hall⟩ := hp
  cases act with
  | receive chunk =>
    refine ⟨_, rfl, rest, ?_, hall⟩
    simpa [received] using heq
  | pop =>
    cases rest with
    | nil =>
      have hnil : r.buffered = [] := (List.append_eq_nil_iff.mp heq).1
      refine ⟨r, ?_, [], by simpa [received] using heq, hall⟩
      simp [Receiver.step, Receiver.pop, hnil, h.empty, Except.map]
    | cons a rest =>
      rcases h.pop_eq heq with ⟨hpop, -⟩ | ⟨l, hbuf, hrest, hpop⟩
      · exact ⟨r, by rw [Receiver.step, hpop]; rfl, a :: rest, heq, hall⟩
      · refine ⟨_, by rw [Receiver.step, hpop]; rfl, rest, hrest, ?_⟩
        simpa using hall

theorem received_cons (act : Action β) (acts : List (Action β)) :
    received (act :: acts) = received [act] ++ received acts := by
  cases act <;> simp [received]

theorem run_pending (h : SelfDelimiting bytes key cut)
    (hp : Pending bytes key all r (received acts ++ future)) :
    ∃ r', r.run cut acts = .ok r' ∧ Pending bytes key all r' future := by
  induction acts generalizing r with
  | nil => exact ⟨r, rfl, hp⟩
  | cons act acts ih =>
    rw [received_cons, List.append_assoc] at hp
    obtain ⟨r', hstep, hp'⟩ := h.step_pending hp
    obtain ⟨r'', hrun, hp''⟩ := ih hp'
    refine ⟨r'', ?_, hp''⟩
    rw [Receiver.run, List.foldlM_cons, hstep]
    exact hrun

/-- Once the whole stream has arrived, the remaining frames come out and nothing is left. -/
theorem drain_eq (h : SelfDelimiting bytes key cut) (stuck : ε) {fuel : ℕ}
    (hbuf : r.buffered = rest.flatMap bytes) (hfuel : r.buffered.length < fuel) :
    r.drain cut stuck fuel = .ok ⟨[], r.popped ++ rest.map key⟩ := by
  induction rest generalizing r fuel with
  | nil =>
    obtain ⟨fuel, rfl⟩ := Nat.exists_eq_succ_of_ne_zero (by omega : fuel ≠ 0)
    have hnil : r.buffered = [] := hbuf
    have hr : r = ⟨[], r.popped⟩ := by rw [← hnil]
    have hpop : r.pop cut = .ok (false, r) := by simp [Receiver.pop, hnil, h.empty, Except.map]
    rw [Receiver.drain, hpop, List.map_nil, List.append_nil, ← hr]
  | cons a rest ih =>
    obtain ⟨fuel, rfl⟩ := Nat.exists_eq_succ_of_ne_zero (by omega : fuel ≠ 0)
    have hpos := List.length_pos_iff.mpr (h.nonempty a)
    have heq : r.buffered ++ [] = bytes a ++ rest.flatMap bytes := by simpa using hbuf
    rcases h.pop_eq heq with ⟨-, hlen⟩ | ⟨l, hl, hrest, hpop⟩
    · rw [hbuf, List.flatMap_cons, List.length_append] at hlen
      omega
    · rw [Receiver.drain, hpop]
      have hlen := congrArg List.length hl
      rw [List.length_append] at hlen
      rw [List.append_nil] at hrest
      have hih := @ih ⟨l, r.popped ++ [key a]⟩ fuel hrest (by simp only; omega)
      simpa using hih

/-- Whatever the chunks and whenever frames are taken, the frames come out in order, each once,
and draining the receiver at the end yields the rest of them and an empty buffer. -/
theorem run_drain (h : SelfDelimiting bytes key cut) (stuck : ε) {as : List α}
    (hrec : received acts = as.flatMap bytes) :
    ∃ r : Receiver β γ, Receiver.run cut acts {} = .ok r ∧ r.popped <+: as.map key ∧
      r.drain cut stuck (r.buffered.length + 1) = .ok ⟨[], as.map key⟩ := by
  have hinit : Pending bytes key (as.map key) {} (received acts ++ []) :=
    ⟨as, by simpa using hrec, rfl⟩
  obtain ⟨r, hrun, rest, hbuf, hall⟩ := h.run_pending hinit
  refine ⟨r, hrun, ⟨_, hall⟩, ?_⟩
  rw [h.drain_eq stuck (by simpa using hbuf) (Nat.lt_succ_self _), hall]

end SelfDelimiting

section Blocks

variable {n : ℕ} {bs cs : List (List β)} {l r : List β}

theorem not_block_short {b : List β} (hb : b.length = n) (hl : l.length < n) :
    l ≠ (b :: bs).flatten ++ r := by
  rintro rfl
  rw [List.flatten_cons, List.length_append, List.length_append] at hl
  omega

/-- Blocks of one size, and the shorter rest behind them, are determined by what they spell. -/
theorem blocks_inj (hb : ∀ b ∈ bs, b.length = n) (hc : ∀ c ∈ cs, c.length = n)
    (hl : l.length < n) (hr : r.length < n) (heq : bs.flatten ++ l = cs.flatten ++ r) :
    bs = cs ∧ l = r := by
  induction bs generalizing cs with
  | nil =>
    cases cs with
    | nil => exact ⟨rfl, heq⟩
    | cons c cs => exact absurd heq (not_block_short (hc c (List.mem_cons_self ..)) hl)
  | cons b bs ih =>
    cases cs with
    | nil => exact absurd heq.symm (not_block_short (hb b (List.mem_cons_self ..)) hr)
    | cons c cs =>
      have hlen : b.length = c.length :=
        (hb b (List.mem_cons_self ..)).trans (hc c (List.mem_cons_self ..)).symm
      rw [List.flatten_cons, List.flatten_cons, List.append_assoc, List.append_assoc] at heq
      obtain ⟨rfl, hrest⟩ := List.append_inj heq hlen
      obtain ⟨rfl, rfl⟩ := ih (fun b h => hb b (List.mem_cons_of_mem _ h))
        (fun c h => hc c (List.mem_cons_of_mem _ h)) hrest
      exact ⟨rfl, rfl⟩

end Blocks

end LowLevel
