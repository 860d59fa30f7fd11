import LowLevel.Foundations.Ledger
import LowLevel.Queues.Mpmc

/-! # Calls of the multi-producer multi-consumer queue

The history of tickets agrees with the two counters and with the results of
the calls: a call that succeeds has drawn one ticket, and a call that fails
none. Nothing here depends on the cells.
-/

namespace LowLevel.Queues.Mpmc

section Side

variable {A : Type*} [DecidableEq A] {ptr pos : UInt64} {tickets : List (A × ℕ × UInt64)}
  {results : A → List Bool} {holds : A → Option UInt64} {a : A} {i k k' : ℕ}

/-- The tickets of the producers or of the consumers: each with its thread, the number of the
call and the counter value. They agree with the counter `ptr` and with the calls. -/
structure Side (ptr : UInt64) (tickets : List (A × ℕ × UInt64)) (results : A → List Bool)
    (holds : A → Option UInt64) : Prop where
  ptr : ptr = UInt64.ofNat tickets.length
  pos : ∀ k t, tickets[k]? = some t → t.2.2 = UInt64.ofNat k
  ledger : Ledger (tickets.map fun t => (t.1, t.2.1)) results fun a => (holds a).isSome
  holder : ∀ a pos, holds a = some pos → (a, (results a).length, pos) ∈ tickets

namespace Side

theorem nil : Side (A := A) 0 [] (fun _ => []) fun _ => none :=
  ⟨rfl, nofun, Ledger.nil, nofun⟩

theorem draw (h : Side ptr tickets results holds) (ha : holds a = none) :
    Side (ptr + 1) (tickets ++ [(a, (results a).length, ptr)]) results
      (Function.update holds a (some ptr)) := by
  constructor
  case ptr => rw [List.length_append, List.length_singleton, ofNat_succ, h.ptr]
  case pos =>
    intro k t hk
    rcases get_concat hk with hk' | ⟨rfl, rfl⟩
    · exact h.pos k t hk'
    · exact h.ptr
  case ledger =>
    rw [fun_update, List.map_append]
    exact h.ledger.draw (by rw [ha]; rfl)
  case holder =>
    intro b pos hb
    rcases eq_or_ne b a with rfl | hne
    · rw [Function.update_self] at hb
      cases hb
      exact List.mem_append_right _ (List.mem_singleton_self _)
    · rw [Function.update_of_ne hne] at hb
      exact List.mem_append_left _ (h.holder b pos hb)

theorem finish (h : Side ptr tickets results holds) (ha : holds a = some pos) :
    Side ptr tickets (Function.update results a (results a ++ [true]))
      (Function.update holds a none) := by
  refine ⟨h.ptr, h.pos, ?_, ?_⟩
  · rw [fun_update]
    exact h.ledger.finish (by rw [ha]; rfl)
  · intro b pos hb
    rcases eq_or_ne b a with rfl | hne
    · rw [Function.update_self] at hb
      cases hb
    · rw [Function.update_of_ne hne] at hb
      rw [Function.update_of_ne hne]
      exact h.holder b pos hb

theorem refuse (h : Side ptr tickets results holds) (ha : holds a = none) :
    Side ptr tickets (Function.update results a (results a ++ [false])) holds := by
  refine ⟨h.ptr, h.pos, h.ledger.refuse (by rw [ha]; rfl), ?_⟩
  intro b pos hb
  have hne : b ≠ a := by
    rintro rfl
    rw [ha] at hb
    cases hb
  rw [Function.update_of_ne hne]
  exact h.holder b pos hb

theorem notMem_of_failed (h : Side ptr tickets results holds) (hi : (results a)[i]? = some false) :
    (a, i, pos) ∉ tickets := fun hmem =>
  h.ledger.notMem_of_failed hi (List.mem_map_of_mem hmem)

theorem ticket_inj {pos' : UInt64} (h : Side ptr tickets results holds)
    (hk : tickets[k]? = some (a, i, pos)) (hk' : tickets[k']? = some (a, i, pos')) : k = k' := by
  apply h.ledger.ticket_inj (a := a) (i := i)
  · rw [List.getElem?_map, hk]; rfl
  · rw [List.getElem?_map, hk']; rfl

theorem pos_nodup (h : Side ptr tickets results holds) (hlt : tickets.length ≤ 2 ^ 64) :
    (tickets.map fun t => t.2.2).Nodup := by
  have hmap : (tickets.map fun t => t.2.2) = (List.range tickets.length).map UInt64.ofNat := by
    apply List.ext_getElem?
    intro k
    rw [List.getElem?_map, List.getElem?_map]
    rcases Nat.lt_or_ge k tickets.length with hk | hk
    · have hget := List.getElem?_eq_getElem hk
      rw [hget, List.getElem?_range hk, Option.map_some, Option.map_some, h.pos k _ hget]
    · rw [List.getElem?_eq_none hk, List.getElem?_eq_none (by rwa [List.length_range])]
      rfl
  rw [hmap]
  exact nodup_ofNat_range hlt

end Side

end Side

variable {P Q T : Type*} {S : UInt64} {s s' : Mpmc P Q T} {p : P} {q : Q} {a : Action P Q T}

def Producer.pos? : Producer T → Option UInt64
  | .store w => some w.pos
  | _ => none

def Consumer.pos? : Consumer T → Option UInt64
  | .read pos | .reading pos | .release pos _ => some pos
  | _ => none

variable [DecidableEq P] [DecidableEq Q]

/-- The tickets of each side, and the values of the enqueue tickets. -/
structure Logged (s : Mpmc P Q T) : Prop where
  claims : Side s.enqueuePtr (s.claims.map fun c => (c.producer, c.call, c.pos))
    (fun p => (s.sent p).map Prod.snd) fun p => (s.producers p).pos?
  draws : Side s.dequeuePtr (s.draws.map fun d => (d.consumer, d.call, d.pos))
    (fun q => (s.got q).map Option.isSome) fun q => (s.consumers q).pos?
  writers : ∀ p w, s.producers p = .store w → ⟨p, (s.sent p).length, w.pos, w.data⟩ ∈ s.claims
  sent : ∀ p i v, (s.sent p)[i]? = some (v, true) → ∃ pos, ⟨p, i, pos, v⟩ ∈ s.claims

theorem logged_init : Logged ({} : Mpmc P Q T) := ⟨Side.nil, Side.nil, nofun, nofun⟩

theorem Logged.writers_of {x : Producer T} {claims : List (Ticket P T)} (h : s.Logged)
    (hsub : s.claims ⊆ claims)
    (hx : ∀ w, x = .store w → ⟨p, (s.sent p).length, w.pos, w.data⟩ ∈ claims) :
    ∀ p' w, Function.update s.producers p x p' = .store w →
      ⟨p', (s.sent p').length, w.pos, w.data⟩ ∈ claims := by
  intro p' w hw
  rcases update_eq hw with ⟨rfl, hx'⟩ | ⟨-, hw'⟩
  · exact hx w hx'
  · exact hsub (h.writers p' w hw')

theorem Logged.setProducer {x : Producer T} (h : s.Logged) (hp : (s.producers p).pos? = none)
    (hx : x.pos? = none) : (s.setProducer p x).Logged := by
  refine ⟨?_, h.draws, h.writers_of (fun _ => id) ?_, h.sent⟩
  · rw [Mpmc.setProducer, fun_update Producer.pos?, hx, ← hp, Function.update_eq_self]
    exact h.claims
  · rintro w rfl
    cases hx

theorem Logged.setConsumer {x : Consumer T} (h : s.Logged)
    (hx : x.pos? = (s.consumers q).pos?) : (s.setConsumer q x).Logged := by
  refine ⟨h.claims, ?_, h.writers, h.sent⟩
  rw [Mpmc.setConsumer, fun_update Consumer.pos?, hx, Function.update_eq_self]
  exact h.draws

theorem Logged.returnSent {data : T} {result : Bool} (h : s.Logged)
    (hx : result = true → ∃ pos, ⟨p, (s.sent p).length, pos, data⟩ ∈ s.claims)
    (hside : Side s.enqueuePtr (s.claims.map fun c => (c.producer, c.call, c.pos))
      (Function.update (fun p => (s.sent p).map Prod.snd) p ((s.sent p).map Prod.snd ++ [result]))
      (Function.update (fun p => (s.producers p).pos?) p none)) :
    (s.returnSent p data result).Logged := by
  refine ⟨?_, h.draws, ?_, ?_⟩
  · simp only [Mpmc.returnSent, Mpmc.setProducer, fun_update Producer.pos?,
      fun_update (List.map Prod.snd),
      List.map_append]
    exact hside
  · intro p' w hw
    rcases update_eq hw with ⟨-, hx⟩ | ⟨hne, hw'⟩
    · cases hx
    · simp only [Mpmc.returnSent, Function.update_of_ne hne]
      exact h.writers p' w hw'
  · intro p' i v hi
    rcases eq_or_ne p' p with rfl | hne
    · simp only [Mpmc.returnSent, Function.update_self] at hi
      rcases get_concat hi with hi' | ⟨rfl, hv⟩
      · exact h.sent p' i v hi'
      · cases hv
        exact hx rfl
    · simp only [Mpmc.returnSent, Function.update_of_ne hne] at hi
      exact h.sent p' i v hi

theorem Logged.returnGot {result : Option T} (h : s.Logged)
    (hside : Side s.dequeuePtr (s.draws.map fun d => (d.consumer, d.call, d.pos))
      (Function.update (fun q => (s.got q).map Option.isSome) q
        ((s.got q).map Option.isSome ++ [result.isSome]))
      (Function.update (fun q => (s.consumers q).pos?) q none)) :
    (s.returnGot q result).Logged := by
  refine ⟨h.claims, ?_, h.writers, h.sent⟩
  simp only [Mpmc.returnGot, Mpmc.setConsumer, fun_update Consumer.pos?,
    fun_update (List.map Option.isSome), List.map_append]
  exact hside

theorem Logged.step (h : s.Logged) (hstep : Step S s a s') : s'.Logged := by
  cases hstep with
  | callEnqueue p data hp => exact h.setProducer (by rw [hp]; rfl) rfl
  | callDequeue q hq => exact h.setConsumer (by rw [hq]; rfl)
  | seekEnqueue p x y data spurious hp hx => exact h.setProducer (by rw [hp]; rfl) rfl
  | seekDequeue q x y spurious junk hq hx => exact h.setConsumer (by rw [hq]; rfl)
  | refuseEnqueue p x data spurious hp =>
    have hnone : (s.producers p).pos? = none := by rw [hp]; rfl
    apply h.returnSent (by rintro ⟨⟩)
    rw [← hnone, Function.update_eq_self]
    exact h.claims.refuse hnone
  | refuseDequeue q x spurious junk hq =>
    have hnone : (s.consumers q).pos? = none := by rw [hq]; rfl
    apply h.returnGot
    rw [← hnone, Function.update_eq_self]
    exact h.draws.refuse hnone
  | claim p data spurious hp =>
    have hnone : (s.producers p).pos? = none := by rw [hp]; rfl
    have hside := h.claims.draw hnone
    refine ⟨?_, h.draws, h.writers_of (List.subset_append_left ..) ?_, ?_⟩
    · simp only [Mpmc.setProducer, List.map_append, fun_update Producer.pos?]
      rw [List.length_map] at hside
      exact hside
    · rintro w ⟨⟩
      exact List.mem_append_right _ (List.mem_singleton_self _)
    · intro p' i v hi
      obtain ⟨pos, hpos⟩ := h.sent p' i v hi
      exact ⟨pos, List.mem_append_left _ hpos⟩
  | draw q spurious junk hq =>
    have hnone : (s.consumers q).pos? = none := by rw [hq]; rfl
    have hside := h.draws.draw hnone
    refine ⟨h.claims, ?_, h.writers, h.sent⟩
    simp only [Mpmc.setConsumer, List.map_append, fun_update Consumer.pos?]
    rw [List.length_map] at hside
    exact hside
  | store p w w' spurious hp hw =>
    obtain ⟨hpos, hdata⟩ := Writer.same_of_store hw
    refine ⟨?_, h.draws, h.writers_of (fun _ => id) ?_, h.sent⟩
    · have hsame : (Producer.store w').pos? = (s.producers p).pos? := by
        rw [hp]
        exact congrArg some hpos
      simp only [Mpmc.setProducer, fun_update Producer.pos?, hsame, Function.update_eq_self]
      exact h.claims
    · rintro _ ⟨⟩
      rw [hpos, hdata]
      exact h.writers p w hp
  | publish p w spurious hp hw =>
    have hpos : (s.producers p).pos? = some w.pos := by rw [hp]; rfl
    have hside := h.claims.finish hpos
    have hlog := h.returnSent (fun _ => ⟨w.pos, h.writers p w hp⟩) hside
    exact ⟨hlog.claims, hlog.draws, hlog.writers, hlog.sent⟩
  | read q pos spurious junk hq => exact h.setConsumer (by rw [hq]; rfl)
  | copy q pos spurious junk hq => exact h.setConsumer (by rw [hq]; rfl)
  | release q pos data spurious junk hq =>
    have hpos : (s.consumers q).pos? = some pos := by rw [hq]; rfl
    have hlog : (s.returnGot q (some data)).Logged := h.returnGot (h.draws.finish hpos)
    exact ⟨hlog.claims, hlog.draws, hlog.writers, hlog.sent⟩

end LowLevel.Queues.Mpmc
