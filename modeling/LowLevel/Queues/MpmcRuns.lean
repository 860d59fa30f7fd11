import LowLevel.Queues.MpmcTurns

/-! # Runs of the multi-producer multi-consumer queue

What holds of every interleaving: nothing is lost, duplicated or reordered,
no cell is written by two threads at once or read while it is written, and a
call that returns false has left no trace in the shared state.
-/

namespace LowLevel.Queues.Mpmc

variable {P Q T : Type*} {S : UInt64} {s s' s₁ s₂ : Mpmc P Q T}
  {p : P} {q : Q} {a : Action P Q T} {acts : List (Action P Q T)} {view : Buffer T}
  {turn : ℕ → Turn P Q T}

theorem Accepted.admitted (h : Accepted S) : Admitted S ∧ 2 ≤ S.toNat := by
  have hlt : 2 < S.toNat := UInt64.lt_iff_toNat_lt.mp h.1
  refine ⟨⟨?_, h.2⟩, hlt.le⟩
  rintro rfl
  cases hlt

/-- No two threads work on one cell. A producer works on its cell from the swap to the
publication, a consumer from the swap to the release. -/
structure Exclusive (S : UInt64) (s : Mpmc P Q T) : Prop where
  writers : ∀ p p' pos pos', (s.producers p).pos? = some pos → (s.producers p').pos? = some pos' →
    slot S pos = slot S pos' → p = p'
  readers : ∀ q q' pos pos', (s.consumers q).pos? = some pos → (s.consumers q').pos? = some pos' →
    slot S pos = slot S pos' → q = q'
  apart : ∀ p q pos pos', (s.producers p).pos? = some pos → (s.consumers q).pos? = some pos' →
    slot S pos ≠ slot S pos'

theorem Protocol.exclusive (h : Protocol S s view turn) (hS : Admitted S) : Exclusive S s := by
  constructor
  case writers =>
    intro p p' pos pos' hp hp' hslot
    obtain ⟨t, rfl, ht⟩ := h.owner_of_producer hp
    obtain ⟨t', rfl, ht'⟩ := h.owner_of_producer hp'
    exact Sum.inl.inj (h.owner_inj hS ht ht' hslot)
  case readers =>
    intro q q' pos pos' hq hq' hslot
    obtain ⟨t, rfl, ht⟩ := h.owner_of_consumer hq
    obtain ⟨t', rfl, ht'⟩ := h.owner_of_consumer hq'
    exact Sum.inr.inj (h.owner_inj hS ht ht' hslot)
  case apart =>
    intro p q pos pos' hp hq hslot
    obtain ⟨t, rfl, ht⟩ := h.owner_of_producer hp
    obtain ⟨t', rfl, ht'⟩ := h.owner_of_consumer hq
    cases h.owner_inj hS ht ht' hslot

variable [DecidableEq P] [DecidableEq Q]

/-- A call that returned a value has drawn the ticket of that value. -/
def Values (s : Mpmc P Q T) : Prop :=
  ∀ q i v, (s.got q)[i]? = some (some v) →
    ∃ (k : ℕ) (c : Ticket P T), s.draws[k]? = some ⟨q, i, UInt64.ofNat k⟩ ∧
      s.claims[k]? = some c ∧ c.data = v

theorem Step.claims_grow (h : Step S s a s') : s.claims <+: s'.claims := by
  cases h with
  | claim p data spurious hp => exact List.prefix_append ..
  | _ => exact List.prefix_refl _

theorem Step.draws_grow (h : Step S s a s') : s.draws <+: s'.draws := by
  cases h with
  | draw q spurious junk hq => exact List.prefix_append ..
  | _ => exact List.prefix_refl _

theorem Step.got {i : ℕ} {v : T} (h : Step S s a s') (hi : (s'.got q)[i]? = some (some v)) :
    (s.got q)[i]? = some (some v) ∨
      i = (s.got q).length ∧ ∃ pos, s.consumers q = .release pos v := by
  cases h with
  | refuseDequeue q' x spurious junk hq =>
    rcases eq_or_ne q q' with rfl | hne
    · simp only [returnGot, Function.update_self] at hi
      rcases get_concat hi with hi' | ⟨-, hv⟩
      · exact .inl hi'
      · cases hv
    · simp only [returnGot, Function.update_of_ne hne] at hi
      exact .inl hi
  | release q' pos data spurious junk hq =>
    rcases eq_or_ne q q' with rfl | hne
    · simp only [returnGot, Function.update_self] at hi
      rcases get_concat hi with hi' | ⟨hlen, hv⟩
      · exact .inl hi'
      · cases hv
        exact .inr ⟨hlen, pos, hq⟩
    · simp only [returnGot, Function.update_of_ne hne] at hi
      exact .inl hi
  | _ => exact .inl hi

theorem Protocol.value {pos : UInt64} {v : T} (h : Protocol S s view turn) (hlog : s.Logged)
    (hlt : s.claims.length ≤ 2 ^ 64) (hq : s.consumers q = .release pos v) :
    ∃ (k : ℕ) (c : Ticket P T), s.draws[k]? = some ⟨q, (s.got q).length, UInt64.ofNat k⟩ ∧
      s.claims[k]? = some c ∧ c.data = v := by
  have hfollows := h.consumers q
  rw [hq] at hfollows
  obtain ⟨t, hpos, ht⟩ := hfollows
  have hmem := hlog.draws.holder q pos (by rw [hq]; rfl)
  obtain ⟨k, hk⟩ := List.mem_iff_getElem?.mp hmem
  have hkpos := hlog.draws.pos k _ hk
  rw [List.getElem?_map] at hk
  obtain ⟨d, hd, heq⟩ := Option.map_eq_some_iff.mp hk
  -- the counter values of the draws are below `2 ^ 64`, so they tell the tickets apart
  have htd : t < s.draws.length := (h.turns.consumed t).mp (by rw [ht]; rfl)
  have hkd := (List.getElem?_eq_some_iff.mp hd).1
  have hle := h.draws_le
  obtain rfl : k = t := by
    have hsame : UInt64.ofNat k = UInt64.ofNat t := hkpos.symm.trans hpos
    rw [ofNat_eq_iff] at hsame
    omega
  have hvalue := h.turns.log k
  rw [ht, List.getElem?_map] at hvalue
  obtain ⟨c, hc, hdata⟩ := Option.map_eq_some_iff.mp hvalue.symm
  refine ⟨k, c, ?_, hc, hdata⟩
  obtain ⟨q', i, pos'⟩ := d
  obtain ⟨rfl, rfl, rfl⟩ : q' = q ∧ i = (s.got q).length ∧ pos' = pos := by simpa using heq
  rw [hd, hpos]

/-- What every step preserves as long as the counters have not come around. -/
structure Inv (S : UInt64) (s : Mpmc P Q T) : Prop where
  logged : s.Logged
  protocol : ∃ view turn, Protocol S s view turn
  values : s.Values

theorem inv_init : Inv S ({} : Mpmc P Q T) := ⟨logged_init, ⟨_, _, protocol_init⟩, nofun⟩

theorem Inv.step (h : Inv S s) (hS : Admitted S) (h2 : 2 ≤ S.toNat) (hstep : Step S s a s')
    (hlt : s.claims.length < 2 ^ 64) : Inv S s' := by
  obtain ⟨view, turn, hprot⟩ := h.protocol
  refine ⟨h.logged.step hstep, hprot.step h.logged hS h2 hstep hlt, ?_⟩
  intro q i v hi
  have hold : ∃ (k : ℕ) (c : Ticket P T), s.draws[k]? = some ⟨q, i, UInt64.ofNat k⟩ ∧
      s.claims[k]? = some c ∧ c.data = v := by
    rcases hstep.got hi with hi | ⟨rfl, pos, hq⟩
    · exact h.values q i v hi
    · exact hprot.value h.logged hlt.le hq
  obtain ⟨k, c, hd, hc, hdata⟩ := hold
  exact ⟨k, c, get_of_prefix hstep.draws_grow hd, get_of_prefix hstep.claims_grow hc, hdata⟩

theorem claims_mono (h : (machine S).run s acts = some s') : s.claims <+: s'.claims := by
  apply Machine.run_invariant (P := fun x => s.claims <+: x.claims) _ (List.prefix_refl _) h
  intro x a x' hx hstep
  exact hx.trans (step_of_eq hstep).claims_grow

theorem draws_mono (h : (machine S).run s acts = some s') : s.draws <+: s'.draws := by
  apply Machine.run_invariant (P := fun x => s.draws <+: x.draws) _ (List.prefix_refl _) h
  intro x a x' hx hstep
  exact hx.trans (step_of_eq hstep).draws_grow

theorem inv_reachable (hS : Accepted S) (h : (machine S).Reachable s)
    (hlt : s.claims.length < 2 ^ 64) : Inv S s := by
  revert hlt
  refine h.invariant (P := fun s => s.claims.length < 2 ^ 64 → Inv S s) (fun _ => inv_init) ?_
  intro s a s' ih hstep hlt
  have hmove := step_of_eq hstep
  have hs := Nat.lt_of_le_of_lt hmove.claims_grow.length_le hlt
  exact (ih hs).step hS.admitted.1 hS.admitted.2 hmove hs

def shared (s : Mpmc P Q T) : Buffer T × UInt64 × UInt64 := (s.buffer, s.enqueuePtr, s.dequeuePtr)

/-- An action taken in state `s₁` belongs to a call that has returned false in state `s`. -/
def Action.Fails (s₁ s : Mpmc P Q T) : Action P Q T → Prop
  | .enqueue p _ | .producer p _ => ∃ v, (s.sent p)[(s₁.sent p).length]? = some (v, false)
  | .dequeue q | .consumer q _ _ => (s.got q)[(s₁.got q).length]? = some none

theorem Logged.claim_succeeds {i : ℕ} {pos : UInt64} {data v : T} (h : s.Logged)
    (hc : ⟨p, i, pos, data⟩ ∈ s.claims) : (s.sent p)[i]? ≠ some (v, false) := by
  intro hi
  apply h.claims.notMem_of_failed (a := p) (i := i)
  · rw [List.getElem?_map, hi]; rfl
  · exact List.mem_map_of_mem hc

theorem Logged.draw_succeeds {i : ℕ} {pos : UInt64} (h : s.Logged)
    (hd : ⟨q, i, pos⟩ ∈ s.draws) : (s.got q)[i]? ≠ some none := by
  intro hi
  apply h.draws.notMem_of_failed (a := q) (i := i)
  · rw [List.getElem?_map, hi]; rfl
  · exact List.mem_map_of_mem hd

/-- Shared state is changed by threads with a ticket only, and their calls succeed. -/
theorem Step.shared_of_fails (h : Step S s₁ a s₂) (hlog : s₁.Logged) (hlog' : s.Logged)
    (hclaims : s₂.claims <+: s.claims) (hdraws : s₂.draws <+: s.draws) (hf : a.Fails s₁ s) :
    s₂.shared = s₁.shared := by
  cases h with
  | claim p data spurious hp =>
    obtain ⟨v, hv⟩ := hf
    have hmem := hclaims.subset (List.mem_append_right _ (List.mem_singleton_self _))
    exact (hlog'.claim_succeeds hmem hv).elim
  | draw q spurious junk hq =>
    have hmem := hdraws.subset (List.mem_append_right _ (List.mem_singleton_self _))
    exact (hlog'.draw_succeeds hmem hf).elim
  | store p w w' spurious hp hw =>
    obtain ⟨v, hv⟩ := hf
    exact (hlog'.claim_succeeds (hclaims.subset (hlog.writers p w hp)) hv).elim
  | publish p w spurious hp hw =>
    obtain ⟨v, hv⟩ := hf
    exact (hlog'.claim_succeeds (hclaims.subset (hlog.writers p w hp)) hv).elim
  | release q pos data spurious junk hq =>
    have hmem := hlog.draws.holder q pos (by rw [hq]; rfl)
    obtain ⟨⟨q', i, pos'⟩, hd, heq⟩ := List.mem_map.mp hmem
    obtain ⟨rfl, rfl, rfl⟩ : q' = q ∧ i = (s₁.got q).length ∧ pos' = pos := by simpa using heq
    exact (hlog'.draw_succeeds (hdraws.subset hd) hf).elim
  | _ => rfl

/-- Nothing is lost, duplicated or reordered. Tickets are numbered in the order of the swaps, with
different counter values; a call of `enqueue` that returned true has one enqueue ticket, a call
of `dequeue` that returned true has one dequeue ticket `k` and returned the value of the enqueue
ticket `k`, and calls that returned false have none. -/
structure Faithful (S : UInt64) (s : Mpmc P Q T) : Prop where
  enqueued : ∀ p i v, (s.sent p)[i]? = some (v, true) →
    ∃ k : ℕ, s.claims[k]? = some ⟨p, i, UInt64.ofNat k, v⟩
  notEnqueued : ∀ p i v pos data, (s.sent p)[i]? = some (v, false) →
    ⟨p, i, pos, data⟩ ∉ s.claims
  claimOnce : ∀ (k k' : ℕ) p i pos pos' v v', s.claims[k]? = some ⟨p, i, pos, v⟩ →
    s.claims[k']? = some ⟨p, i, pos', v'⟩ → k = k'
  claimed : (s.claims.map Ticket.pos).Nodup
  dequeued : ∀ q i v, (s.got q)[i]? = some (some v) →
    ∃ (k : ℕ) (p : P) (j : ℕ), s.draws[k]? = some ⟨q, i, UInt64.ofNat k⟩ ∧
      s.claims[k]? = some ⟨p, j, UInt64.ofNat k, v⟩
  notDequeued : ∀ q i pos, (s.got q)[i]? = some none → ⟨q, i, pos⟩ ∉ s.draws
  drawOnce : ∀ (k k' : ℕ) q i pos pos', s.draws[k]? = some ⟨q, i, pos⟩ →
    s.draws[k']? = some ⟨q, i, pos'⟩ → k = k'
  drawn : (s.draws.map Draw.pos).Nodup
  exclusive : Exclusive S s
  capacity : s.published ≤ s.released + S.toNat

theorem Logged.claim_pos {k : ℕ} {c : Ticket P T} (h : s.Logged) (hk : s.claims[k]? = some c) :
    c.pos = UInt64.ofNat k := by
  apply h.claims.pos k (c.producer, c.call, c.pos)
  rw [List.getElem?_map, hk]
  rfl

theorem Inv.faithful (h : Inv S s) (hS : Accepted S) (hlt : s.claims.length ≤ 2 ^ 64) :
    Faithful S s := by
  obtain ⟨view, turn, hprot⟩ := h.protocol
  have hdraws := hprot.draws_le
  constructor
  case enqueued =>
    intro p i v hi
    obtain ⟨pos, hmem⟩ := h.logged.sent p i v hi
    obtain ⟨k, hk⟩ := List.mem_iff_getElem?.mp hmem
    obtain rfl := h.logged.claim_pos hk
    exact ⟨k, hk⟩
  case notEnqueued => exact fun p i v pos data hi hmem => h.logged.claim_succeeds hmem hi
  case claimOnce =>
    intro k k' p i pos pos' v v' hk hk'
    apply h.logged.claims.ticket_inj (a := p) (i := i)
    · rw [List.getElem?_map, hk]; rfl
    · rw [List.getElem?_map, hk']; rfl
  case claimed =>
    have hnodup := h.logged.claims.pos_nodup (by rwa [List.length_map])
    rwa [List.map_map] at hnodup
  case dequeued =>
    intro q i v hi
    obtain ⟨k, ⟨p, j, pos, data⟩, hd, hc, rfl⟩ := h.values q i v hi
    obtain rfl := h.logged.claim_pos hc
    exact ⟨k, p, j, hd, hc⟩
  case notDequeued => exact fun q i pos hi hmem => h.logged.draw_succeeds hmem hi
  case drawOnce =>
    intro k k' q i pos pos' hk hk'
    apply h.logged.draws.ticket_inj (a := q) (i := i)
    · rw [List.getElem?_map, hk]; rfl
    · rw [List.getElem?_map, hk']; rfl
  case drawn =>
    have hnodup := h.logged.draws.pos_nodup (by rw [List.length_map]; omega)
    rwa [List.map_map] at hnodup
  case exclusive => exact hprot.exclusive hS.admitted.1
  case capacity => exact hprot.capacity (by have := hS.admitted.2; omega)

/-- Every interleaving of any number of producers and consumers, as long as fewer than `2 ^ 63`
tickets are drawn. The steps of a call that has returned false have not changed what the other
threads see. -/
theorem run_faithful (hS : Accepted S) (hrun : (machine S).run {} acts = some s)
    (hlt : s.claims.length < 2 ^ 63) :
    Faithful S s ∧ ∀ pre a post s₁ s₂, acts = pre ++ a :: post →
      (machine S).run {} pre = some s₁ → (machine S).step s₁ a = some s₂ → a.Fails s₁ s →
      s₂.shared = s₁.shared := by
  have hinv := inv_reachable hS ⟨acts, hrun⟩ (by omega)
  refine ⟨hinv.faithful hS (by omega), ?_⟩
  rintro pre a post s₁ s₂ rfl hpre hstep hf
  obtain ⟨t₁, t₂, ht₁, ht₂, hpost⟩ := Machine.run_split hrun
  obtain rfl : s₁ = t₁ := Option.some.inj (hpre.symm.trans ht₁)
  obtain rfl : s₂ = t₂ := Option.some.inj (hstep.symm.trans ht₂)
  have hmove := step_of_eq hstep
  have hclaims := claims_mono hpost
  have hinv₁ := inv_reachable hS ⟨pre, hpre⟩ (by
    have := (hmove.claims_grow.trans hclaims).length_le
    omega)
  exact hmove.shared_of_fails hinv₁.logged hinv.logged hclaims (draws_mono hpost) hf

/-- A consumer finds the queue empty. Two producers race for the first ticket; the winner stalls
while the loser publishes the second one, which is out of reach for the other consumer until the
first is published. Then both consumers race for the two values. -/
def race : List (Action Bool Bool ℕ) :=
  List.flatten [[.dequeue true, .consumer true false 0, .consumer true false 0,
    .enqueue true 7, .enqueue false 8, .producer true false, .producer false false,
    .producer true false, .producer false false, .producer true false],
    List.replicate 6 (.producer false false),
    [.dequeue false, .consumer false false 0, .consumer false false 0],
    List.replicate 3 (.producer true false),
    [.dequeue true, .dequeue false, .consumer true false 0, .consumer false false 0,
      .consumer true false 0, .consumer false false 0, .consumer true false 0],
    List.replicate 6 (.consumer false false 0), List.replicate 3 (.consumer true false 0)]

theorem run_faithful_race : ∃ s : Mpmc Bool Bool ℕ, (machine 4).run {} race = some s ∧
    s.claims.map Ticket.producer = [true, false] ∧ s.got true = [none, some 7] ∧
    s.got false = [none, some 8] ∧ Faithful 4 s := by
  have hrun : ((machine 4).run {} race).map (fun s =>
      (s.claims.map Ticket.producer, s.got true, s.got false)) =
      some ([true, false], [none, some 7], [none, some 8]) := by decide +kernel
  obtain ⟨s, hs, heq⟩ := Option.map_eq_some_iff.mp hrun
  obtain ⟨hprod, hgot⟩ := Prod.mk.inj heq
  obtain ⟨htrue, hfalse⟩ := Prod.mk.inj hgot
  have hlen := congrArg List.length hprod
  rw [List.length_map] at hlen
  refine ⟨s, hs, hprod, htrue, hfalse, (run_faithful (by decide) hs ?_).1⟩
  rw [hlen]
  decide

end LowLevel.Queues.Mpmc
