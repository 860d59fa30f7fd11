import LowLevel.Queues.Cells

/-! # The turn protocol of the queues

The invariant that ties the cells, the counters and the half-finished calls of
all threads to the turns of the ring. It is stated for any family of
producers; how a producer comes to own a cell is left to the two queues.
-/

namespace LowLevel.Queues

variable {P T : Type*} {S : UInt64} {q : Queue T} {writer : P → Option (Writer T)} {log : List T}
  {turn turn' : ℕ → Turn P Unit T} {p : P} {w : Writer T} {d t : ℕ} {y : Turn P Unit T}

/-- How many tickets beyond the completed calls the consumer has drawn. -/
def Consumer.drawn : Consumer T → ℕ
  | .idle | .wait _ => 0
  | _ => 1

/-- The cell that the consumer is emptying, until it releases it. -/
def Consumer.uses : Consumer T → Option UInt64
  | .read pos | .reading pos | .release pos _ => some pos
  | _ => none

/-- Where the consumer stands when it has completed `d` calls. -/
def Consumer.Stands (d : ℕ) (turn : ℕ → Turn P Unit T) : Consumer T → Prop
  | .idle => True
  | .wait pos => pos = UInt64.ofNat d
  | .read pos | .reading pos => pos = UInt64.ofNat d ∧ ∃ v, turn d = .claimed () v
  | .release pos data => pos = UInt64.ofNat d ∧ turn d = .taken () data
  | .advance pos data => pos = UInt64.ofNat d ∧ turn d = .released data

/-- The cells, the producers that own one, and the consumer follow the turns. -/
structure Protocol (S : UInt64) (q : Queue T) (writer : P → Option (Writer T)) (log : List T)
    (turn : ℕ → Turn P Unit T) : Prop where
  turns : Turns S.toNat UInt64.ofNat q.buffer turn log (q.received.length + q.consumer.drawn)
  writers : ∀ p w, writer p = some w →
    ∃ t, w.pos = UInt64.ofNat t ∧ turn t = .held p w.phase w.data
  ptr : q.dequeuePtr = UInt64.ofNat q.received.length
  consumer : q.consumer.Stands q.received.length turn
  received : q.received <+: log

def Grows (turn turn' : ℕ → Turn P Unit T) : Prop :=
  ∀ t, (turn t).isReleased = true → (turn' t).isReleased = true

theorem Grows.ready (h : Grows turn turn') {n : ℕ} (hr : Ready n turn t) : Ready n turn' t :=
  fun u hu => h u (hr u hu)

theorem grows_update (ht : (turn t).isReleased = false) :
    Grows turn (Function.update turn t y) := by
  intro u hu
  rw [Function.update_of_ne]
  · exact hu
  · rintro rfl
    rw [ht] at hu
    cases hu

theorem Consumer.Stands.update {c : Consumer T} (h : c.Stands d turn)
    (ht : (turn t).isConsumed = false) : c.Stands d (Function.update turn t y) := by
  have hne : ∀ {x}, turn d = x → x.isConsumed = true → Function.update turn t y d = x := by
    intro x hx hcons
    rw [Function.update_of_ne]
    · exact hx
    · rintro rfl
      rw [hx, hcons] at ht
      cases ht
  cases c with
  | idle => trivial
  | wait pos => exact h
  | read pos => exact ⟨h.1, h.2.imp fun v hv => hne hv rfl⟩
  | reading pos => exact ⟨h.1, h.2.imp fun v hv => hne hv rfl⟩
  | release pos data => exact ⟨h.1, hne h.2 rfl⟩
  | advance pos data => exact ⟨h.1, hne h.2 rfl⟩

theorem store_stage {Q : Type*} {buffer : Buffer T} (hS : Admitted S)
    (hpos : w.pos = UInt64.ofNat t)
    (hcell : buffer (t % S.toNat) =
      (Turn.held p w.phase w.data : Turn P Q T).cell UInt64.ofNat t) :
    ∃ y : Turn P Q T, y.isReleased = false ∧ y.value? = some w.data ∧ y.isConsumed = false ∧
      (w.store S buffer).1 = Function.update buffer (t % S.toNat) (y.cell UInt64.ofNat t) ∧
      (∀ w', (w.store S buffer).2 = some w' →
        w'.pos = w.pos ∧ w'.data = w.data ∧ y = .held p w'.phase w'.data) ∧
      ((w.store S buffer).2 = none → y = .published w.data) := by
  unfold Writer.store Buffer.setData Buffer.setSequence
  rw [hpos, slot_ofNat hS, hcell]
  cases w.phase with
  | before =>
    refine ⟨.held p .during w.data, rfl, rfl, rfl, rfl, ?_, nofun⟩
    rintro _ ⟨⟩
    exact ⟨rfl, rfl, rfl⟩
  | during =>
    refine ⟨.held p .after w.data, rfl, rfl, rfl, rfl, ?_, nofun⟩
    rintro _ ⟨⟩
    exact ⟨rfl, rfl, rfl⟩
  | after =>
    refine ⟨.published w.data, rfl, rfl, rfl, ?_, nofun, fun _ => rfl⟩
    rw [← ofNat_succ]
    rfl

theorem turns_init {Q : Type*} :
    Turns S.toNat UInt64.ofNat (Buffer.init : Buffer T) (fun _ => (.unclaimed : Turn P Q T)) []
      0 := by
  constructor
  case log => exact fun t => by simp [Turn.value?]
  case consumed => simp [Turn.isConsumed]
  case ready => exact fun t ht => (ht rfl).elim
  case cell =>
    intro t _ hready
    have hlt : t < S.toNat := by
      by_contra hge
      have := hready (t - S.toNat) (by omega)
      cases this
    rw [Nat.mod_eq_of_lt hlt]
    rfl

theorem protocol_init :
    Protocol S ({} : Queue T) (fun _ : P => none) [] fun _ => .unclaimed := by
  constructor
  case turns => exact turns_init
  case writers =>
    intro p w hw
    cases hw
  case ptr => rfl
  case consumer => trivial
  case received => exact List.prefix_refl _

namespace Protocol

theorem writers_update (h : Protocol S q writer log turn)
    (ht : ∀ p w, writer p = some w → turn t ≠ .held p w.phase w.data) :
    ∀ p w, writer p = some w →
      ∃ u, w.pos = UInt64.ofNat u ∧ Function.update turn t y u = .held p w.phase w.data := by
  intro p w hw
  obtain ⟨u, hpos, hu⟩ := h.writers p w hw
  refine ⟨u, hpos, ?_⟩
  rw [Function.update_of_ne]
  · exact hu
  · rintro rfl
    exact ht p w hw hu

theorem claim [DecidableEq P] (h : Protocol S q writer log turn)
    (hready : Ready S.toNat turn log.length) (p : P) (v : T) :
    ∃ turn', Protocol S q
        (Function.update writer p (some { pos := UInt64.ofNat log.length, data := v }))
        (log ++ [v]) turn' ∧ Grows turn turn' := by
  have hun := h.turns.unclaimed_iff.mpr (Nat.le_refl log.length)
  refine ⟨_, ⟨h.turns.claim hready p v, ?_, h.ptr, ?_, ?_⟩, grows_update (by rw [hun]; rfl)⟩
  · intro p' w hw
    rcases eq_or_ne p' p with rfl | hp
    · rw [Function.update_self] at hw
      cases hw
      exact ⟨log.length, rfl, Function.update_self ..⟩
    · rw [Function.update_of_ne hp] at hw
      exact h.writers_update (fun p w _ => by rw [hun]; nofun) p' w hw
  · exact h.consumer.update (by rw [hun]; rfl)
  · exact h.received.trans (List.prefix_append ..)

theorem held (h : Protocol S q writer log turn) (hS : Admitted S) (hw : writer p = some w) :
    ∃ t, w.pos = UInt64.ofNat t ∧ slot S w.pos = t % S.toNat ∧
      turn t = .held p w.phase w.data ∧ Ready S.toNat turn t ∧
      q.buffer (t % S.toNat) =
        (Turn.held p w.phase w.data : Turn P Unit T).cell UInt64.ofNat t := by
  obtain ⟨t, hpos, ht⟩ := h.writers p w hw
  have hready := h.turns.ready t (by rw [ht]; nofun)
  refine ⟨t, hpos, by rw [hpos, slot_ofNat hS], ht, hready, ?_⟩
  rw [h.turns.cell t (by rw [ht]; rfl) hready, ht]

theorem store [DecidableEq P] (h : Protocol S q writer log turn) (hS : Admitted S)
    (hw : writer p = some w) :
    ∃ turn', Protocol S { q with buffer := (w.store S q.buffer).1 }
        (Function.update writer p (w.store S q.buffer).2) log turn' ∧ Grows turn turn' := by
  obtain ⟨t, hpos, hslot, ht, -, hcell⟩ := h.held hS hw
  obtain ⟨y, hy, hval, hcons, hbuf, hnext, -⟩ := store_stage hS hpos hcell
  refine ⟨Function.update turn t y, ⟨?_, ?_, h.ptr, ?_, h.received⟩,
    grows_update (by rw [ht]; rfl)⟩
  · rw [hbuf]
    exact h.turns.advance ht nofun rfl hy hval hcons
  · intro p' w' hw'
    rcases eq_or_ne p' p with rfl | hp
    · rw [Function.update_self] at hw'
      obtain ⟨hpos', -, hy'⟩ := hnext w' hw'
      exact ⟨t, hpos'.trans hpos, by rw [Function.update_self, hy']⟩
    · rw [Function.update_of_ne hp] at hw'
      obtain ⟨u, hu, hturn⟩ := h.writers p' w' hw'
      refine ⟨u, hu, ?_⟩
      rw [Function.update_of_ne]
      · exact hturn
      · rintro rfl
        rw [ht, Turn.held.injEq] at hturn
        exact hp hturn.1.symm
  · exact h.consumer.update (by rw [ht]; rfl)

theorem dequeue (h : Protocol S q writer log turn) (hS : Admitted S) (junk : T) :
    ∃ turn', Protocol S (q.dequeue S junk) writer log turn' ∧ Grows turn turn' := by
  have hpos : 1 ≤ S.toNat := by
    obtain ⟨k, -, hk⟩ := hS.powerOfTwo
    rw [hk]
    exact Nat.one_le_two_pow
  have hrefl : Grows turn turn := fun _ => id
  obtain ⟨buffer, ptr, consumer, received⟩ := q
  cases consumer with
  | idle => exact ⟨turn, ⟨h.turns, h.writers, h.ptr, h.ptr, h.received⟩, hrefl⟩
  | wait pos =>
    obtain rfl : pos = UInt64.ofNat received.length := h.consumer
    have hturns : Turns S.toNat UInt64.ofNat buffer turn log received.length := h.turns
    simp only [Queue.dequeue, slot_ofNat hS, ← ofNat_succ]
    split
    · rename_i hseq
      obtain ⟨v, hv⟩ := hturns.published_of_sequence hpos ofNat_ne hseq
      refine ⟨_, ⟨hturns.draw hv (), ?_, h.ptr, ⟨rfl, v, Function.update_self ..⟩, h.received⟩,
        grows_update (by rw [hv]; rfl)⟩
      exact h.writers_update fun p w _ => by rw [hv]; nofun
    · exact ⟨turn, h, hrefl⟩
  | read pos => exact ⟨turn, ⟨h.turns, h.writers, h.ptr, h.consumer, h.received⟩, hrefl⟩
  | reading pos =>
    obtain ⟨rfl, v, hv⟩ : pos = UInt64.ofNat received.length ∧
      ∃ v, turn received.length = .claimed () v := h.consumer
    have hcell := h.turns.cell _ (by rw [hv]; rfl) (h.turns.ready _ (by rw [hv]; nofun))
    rw [hv] at hcell
    have hturns := h.turns.advance (y := .taken () v) hv nofun rfl rfl rfl rfl
    simp only [Queue.dequeue, slot_ofNat hS, Buffer.setData] at hcell ⊢
    rw [hcell]
    refine ⟨_, ⟨hturns, ?_, h.ptr, ⟨rfl, Function.update_self ..⟩, h.received⟩,
      grows_update (by rw [hv]; rfl)⟩
    exact h.writers_update fun p w _ => by rw [hv]; nofun
  | release pos data =>
    obtain ⟨rfl, hv⟩ : pos = UInt64.ofNat received.length ∧
      turn received.length = .taken () data := h.consumer
    have hcell := h.turns.cell _ (by rw [hv]; rfl) (h.turns.ready _ (by rw [hv]; nofun))
    rw [hv] at hcell
    have hturns := h.turns.release hv
    simp only [Queue.dequeue, slot_ofNat hS, Buffer.setSequence, ← ofNat_add_toNat] at hcell ⊢
    rw [hcell]
    refine ⟨_, ⟨hturns, ?_, h.ptr, ⟨rfl, Function.update_self ..⟩, h.received⟩,
      grows_update (by rw [hv]; rfl)⟩
    exact h.writers_update fun p w _ => by rw [hv]; nofun
  | advance pos data =>
    obtain ⟨rfl, hv⟩ : pos = UInt64.ofNat received.length ∧
      turn received.length = .released data := h.consumer
    have hlen : (received ++ [data]).length = received.length + 1 := List.length_append
    refine ⟨turn, ⟨?_, h.writers, ?_, trivial, ?_⟩, hrefl⟩
    · have hturns : Turns S.toNat UInt64.ofNat buffer turn log (received.length + 1) := h.turns
      rw [← hlen] at hturns
      exact hturns
    · simp only [Queue.dequeue, hlen, ofNat_succ]
    · obtain ⟨rest, hrest⟩ := h.received
      have hlog := h.turns.log received.length
      rw [hv, ← hrest, List.getElem?_append_right (Nat.le_refl _), Nat.sub_self] at hlog
      cases rest with
      | nil => cases hlog
      | cons x rest =>
        obtain rfl : data = x := Option.some.inj hlog
        exact ⟨rest, by rw [← hrest]; simp [Queue.dequeue]⟩

end Protocol

/-- Producers write only cells that hold no unread value, that are not published, that the
consumer is not emptying, and that no other producer owns. -/
structure Exclusive (S : UInt64) (q : Queue T) (writer : P → Option (Writer T)) : Prop where
  fresh : ∀ p w, writer p = some w → w.phase = .before →
    ∀ v, (q.buffer (slot S w.pos)).data ≠ .value v
  unpublished : ∀ p w, writer p = some w → ∀ pos, slot S pos = slot S w.pos →
    (q.buffer (slot S w.pos)).sequence ≠ pos + 1
  apart : ∀ p w pos, writer p = some w → q.consumer.uses = some pos → slot S w.pos ≠ slot S pos
  alone : ∀ p w p' w', writer p = some w → writer p' = some w' → slot S w.pos = slot S w'.pos →
    p = p'

theorem Consumer.Stands.uses {c : Consumer T} {pos : UInt64} (h : c.Stands d turn)
    (hc : c.uses = some pos) : pos = UInt64.ofNat d ∧ (turn d).isConsumed = true ∧
      (turn d).isReleased = false := by
  cases c with
  | idle => cases hc
  | wait pos => cases hc
  | read pos =>
    obtain ⟨hpos, v, hv⟩ := h
    exact ⟨Option.some.inj hc ▸ hpos, by rw [hv]; rfl, by rw [hv]; rfl⟩
  | reading pos =>
    obtain ⟨hpos, v, hv⟩ := h
    exact ⟨Option.some.inj hc ▸ hpos, by rw [hv]; rfl, by rw [hv]; rfl⟩
  | release pos data =>
    obtain ⟨hpos, hv⟩ := h
    exact ⟨Option.some.inj hc ▸ hpos, by rw [hv]; rfl, by rw [hv]; rfl⟩
  | advance pos data => cases hc

theorem Protocol.exclusive (h : Protocol S q writer log turn) (hS : Admitted S)
    (h2 : 2 ≤ S.toNat) : Exclusive S q writer := by
  constructor
  case fresh =>
    intro p w hw hphase v
    obtain ⟨t, -, hslot, -, -, hcell⟩ := h.held hS hw
    rw [hslot, hcell, hphase]
    nofun
  case unpublished =>
    intro p w hw pos hpos hseq
    obtain ⟨t, -, hslot, -, -, hcell⟩ := h.held hS hw
    have hshow : (q.buffer (t % S.toNat)).sequence = UInt64.ofNat t := by
      rw [hcell]
      cases w.phase <;> rfl
    obtain ⟨k, hk, hk'⟩ := hS.powerOfTwo
    -- `pos` and `t` use the same cell, so `t` is not the successor of `pos`
    have hdvd : S.toNat ∣ 2 ^ 64 := hk' ▸ Nat.pow_dvd_pow 2 (Nat.le_of_lt hk)
    rw [← UInt64.ofNat_toNat (x := pos), slot_ofNat hS, hslot] at hpos
    rw [hslot, hshow, ← UInt64.ofNat_toNat (x := pos), ← ofNat_succ, ofNat_eq_iff] at hseq
    have hmod : t % S.toNat = (pos.toNat + 1) % S.toNat := by
      rw [← Nat.mod_mod_of_dvd t hdvd, hseq, Nat.mod_mod_of_dvd _ hdvd]
    rw [← hpos] at hmod
    have hsub := Nat.sub_mod_eq_zero_of_mod_eq hmod.symm
    rw [Nat.add_sub_cancel_left, Nat.mod_eq_of_lt (by omega)] at hsub
    cases hsub
  case apart =>
    intro p w pos hw huses heq
    obtain ⟨t, -, hslot, ht, hready, -⟩ := h.held hS hw
    obtain ⟨rfl, hcons, hrel⟩ := h.consumer.uses huses
    have hready' : Ready S.toNat turn q.received.length := by
      apply h.turns.ready
      rintro he
      rw [he] at hcons
      cases hcons
    rw [hslot, slot_ofNat hS] at heq
    obtain rfl := h.turns.current_inj (by rw [ht]; rfl) hready hrel hready' heq
    rw [ht] at hcons
    cases hcons
  case alone =>
    intro p w p' w' hw hw' heq
    obtain ⟨t, -, hslot, ht, hready, -⟩ := h.held hS hw
    obtain ⟨t', -, hslot', ht', hready', -⟩ := h.held hS hw'
    rw [hslot, hslot'] at heq
    obtain rfl := h.turns.current_inj (by rw [ht]; rfl) hready (by rw [ht']; rfl) hready' heq
    rw [ht, Turn.held.injEq] at ht'
    exact ht'.1

theorem Protocol.capacity (h : Protocol S q writer log turn) :
    log.length ≤ q.taken.length + S.toNat := by
  apply h.turns.log_le
  intro t hr
  have hlt : t < q.received.length + q.consumer.drawn := by
    rw [← h.turns.consumed]
    cases hx : turn t <;> rw [hx] at hr <;> first | rfl | cases hr
  have hne : q.consumer.uses.isSome = true → t ≠ q.received.length := by
    rintro hu rfl
    obtain ⟨pos, hpos⟩ := Option.isSome_iff_exists.mp hu
    have := (h.consumer.uses hpos).2.2
    rw [hr] at this
    cases this
  unfold Queue.taken
  cases hc : q.consumer <;> rw [hc] at hlt hne <;>
    simp only [Consumer.drawn, Consumer.uses, Option.isSome, List.length_append,
      List.length_singleton] at hlt hne ⊢ <;> grind

end LowLevel.Queues
