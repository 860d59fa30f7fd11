import LowLevel.Queues.MpmcCalls
import Mathlib.Data.Set.Card

/-! # Turns of the multi-producer multi-consumer queue

The turns of the ring are those of the other queues, except that a consumer
leaves the value it has copied behind. The buffer is therefore related to a
view of it in which only values that are still due count.
-/

namespace LowLevel.Queues.Mpmc

variable {P Q T : Type*} {S : UInt64} {s s' : Mpmc P Q T} {p : P} {q : Q} {a : Action P Q T}
  {turn : ℕ → Turn P Q T} {view view' buffer : Buffer T} {t n n' : ℕ} {y : Turn P Q T}

/-- The buffer shows the sequence numbers of the view and its values; what else it holds is left
over from earlier turns. -/
structure Shows (buffer view : Buffer T) : Prop where
  sequence : ∀ i, (buffer i).sequence = (view i).sequence
  data : ∀ i v, (view i).data = .value v → (buffer i).data = .value v

theorem Shows.update {i : ℕ} {x y : Cell UInt64 T} (h : Shows buffer view)
    (hseq : x.sequence = y.sequence) (hdata : ∀ v, y.data = .value v → x.data = .value v) :
    Shows (Function.update buffer i x) (Function.update view i y) := by
  constructor
  case sequence =>
    intro j
    rcases eq_or_ne j i with rfl | hj
    · rwa [Function.update_self, Function.update_self]
    · rw [Function.update_of_ne hj, Function.update_of_ne hj]
      exact h.sequence j
  case data =>
    intro j v hv
    rcases eq_or_ne j i with rfl | hj
    · rw [Function.update_self] at hv ⊢
      exact hdata v hv
    · rw [Function.update_of_ne hj] at hv ⊢
      exact h.data j v hv

theorem Shows.copied {i : ℕ} {y : Cell UInt64 T} (h : Shows buffer view)
    (hseq : (view i).sequence = y.sequence) (hdata : y.data = .unspecified) :
    Shows buffer (Function.update view i y) := by
  rw [← Function.update_eq_self i buffer]
  apply h.update ((h.sequence i).trans hseq)
  intro v hv
  rw [hdata] at hv
  cases hv

theorem Shows.store (h : Shows buffer view) (w : Writer T) :
    Shows (w.store S buffer).1 (w.store S view).1 ∧
      (w.store S buffer).2 = (w.store S view).2 := by
  unfold Writer.store Buffer.setData Buffer.setSequence
  cases w.phase with
  | before => exact ⟨h.update (h.sequence _) nofun, rfl⟩
  | during => exact ⟨h.update (h.sequence _) fun v hv => hv, rfl⟩
  | after => exact ⟨h.update rfl (h.data _), rfl⟩

/-- The value is there for a consumer to draw, or was there. -/
def isPublished : Turn P Q T → Bool
  | .published _ | .claimed .. | .taken .. | .released _ => true
  | _ => false

/-- Counter values in the hands of a thread are not ahead of the `n` tickets of its side, and the
one it is about to swap is free to take if it is the next ticket. -/
def Seek.Stands (free : ℕ → Prop) (n : ℕ) : Seek → Prop
  | .load => True
  | .loop pos => ∃ t ≤ n, pos = UInt64.ofNat t
  | .cas pos => ∃ t ≤ n, pos = UInt64.ofNat t ∧ (t = n → free t)

theorem Seek.Stands.mono {free free' : ℕ → Prop} {x : Seek} (h : x.Stands free n) (hn : n ≤ n')
    (hfree : n = n' → free n → free' n) : x.Stands free' n' := by
  cases x with
  | load => trivial
  | loop pos =>
    obtain ⟨t, ht, hpos⟩ := h
    exact ⟨t, Nat.le_trans ht hn, hpos⟩
  | cas pos =>
    obtain ⟨t, ht, hpos, hready⟩ := h
    refine ⟨t, Nat.le_trans ht hn, hpos, ?_⟩
    rintro rfl
    obtain rfl : t = n := Nat.le_antisymm ht hn
    exact hfree rfl (hready rfl)

theorem Seek.Stands.next {free : ℕ → Prop} {x y : Seek} {lead ptr : UInt64} {spurious : Bool}
    (h : x.Stands free n) (hx : x.next S lead ptr buffer spurious = .again y)
    (hptr : ptr = UInt64.ofNat n)
    (hfree : (buffer (slot S ptr)).sequence = ptr + lead → free n) : y.Stands free n := by
  cases x with
  | load =>
    cases hx
    exact ⟨n, Nat.le_refl n, hptr⟩
  | loop pos =>
    obtain ⟨t, ht, hpos⟩ := h
    simp only [Seek.next] at hx
    split at hx
    · rename_i hdiff
      cases hx
      refine ⟨t, ht, hpos, ?_⟩
      rintro rfl
      apply hfree
      rw [hptr, ← hpos]
      exact Mpsc.toInt64_sub_eq_zero hdiff
    · split at hx
      · cases hx
      · cases hx
        trivial
  | cas pos =>
    simp only [Seek.next] at hx
    split at hx
    · cases hx
    · cases hx
      exact ⟨n, Nat.le_refl n, hptr⟩

theorem Seek.Stands.current {free : ℕ → Prop} {ptr : UInt64}
    (h : (Seek.cas ptr).Stands free n) (hptr : ptr = UInt64.ofNat n) (hn : n < 2 ^ 64) :
    free n := by
  obtain ⟨t, ht, hpos, hfree⟩ := h
  rw [hptr, ofNat_eq_iff] at hpos
  obtain rfl : t = n := by omega
  exact hfree rfl

/-- Where a producer stands among the turns, when `n` enqueue tickets are drawn. -/
def Producer.Follows (S : UInt64) (turn : ℕ → Turn P Q T) (n : ℕ) (p : P) : Producer T → Prop
  | .idle => True
  | .seek x _ => x.Stands (Ready S.toNat turn) n
  | .store w => ∃ t, w.pos = UInt64.ofNat t ∧ turn t = .held p w.phase w.data

/-- Where a consumer stands among the turns, when `d` dequeue tickets are drawn. -/
def Consumer.Follows (turn : ℕ → Turn P Q T) (d : ℕ) (q : Q) : Consumer T → Prop
  | .idle => True
  | .seek x => x.Stands (fun t => ∃ v, turn t = .published v) d
  | .read pos | .reading pos => ∃ t, pos = UInt64.ofNat t ∧ ∃ v, turn t = .claimed q v
  | .release pos data => ∃ t, pos = UInt64.ofNat t ∧ turn t = .taken q data

def owner : Turn P Q T → Option (P ⊕ Q)
  | .held p .. => some (.inl p)
  | .claimed q _ | .taken q _ => some (.inr q)
  | _ => none

theorem Producer.Follows.update {x : Producer T} (h : x.Follows S turn n p) (hn : n ≤ n')
    (ht : (turn t).isReleased = false) (howner : owner (turn t) ≠ some (.inl p)) :
    x.Follows S (Function.update turn t y) n' p := by
  cases x with
  | idle => trivial
  | seek x data =>
    apply Seek.Stands.mono h hn
    intro _ hready u hu
    rw [Function.update_of_ne]
    · exact hready u hu
    · rintro rfl
      rw [hready u hu] at ht
      cases ht
  | store w =>
    obtain ⟨u, hpos, hu⟩ := h
    refine ⟨u, hpos, ?_⟩
    rw [Function.update_of_ne]
    · exact hu
    · rintro rfl
      rw [hu] at howner
      exact howner rfl

/-- The other consumers do not notice when a ticket moves on, unless they wait to draw it. -/
theorem Consumer.Follows.update {x : Consumer T} (h : x.Follows turn n q) (hn : n ≤ n')
    (hpub : n = n' → ∀ v, turn t ≠ .published v) (howner : owner (turn t) ≠ some (.inr q)) :
    x.Follows (Function.update turn t y) n' q := by
  have hother : ∀ u, owner (turn u) = some (.inr q) → Function.update turn t y u = turn u := by
    rintro u hu
    rw [Function.update_of_ne]
    rintro rfl
    exact howner hu
  cases x with
  | idle => trivial
  | seek x =>
    apply Seek.Stands.mono h hn
    rintro heq ⟨v, hv⟩
    refine ⟨v, ?_⟩
    rw [Function.update_of_ne]
    · exact hv
    · rintro rfl
      exact hpub heq v hv
  | read pos =>
    obtain ⟨u, hpos, v, hu⟩ := h
    exact ⟨u, hpos, v, (hother u (by rw [hu]; rfl)).trans hu⟩
  | reading pos =>
    obtain ⟨u, hpos, v, hu⟩ := h
    exact ⟨u, hpos, v, (hother u (by rw [hu]; rfl)).trans hu⟩
  | release pos data =>
    obtain ⟨u, hpos, hu⟩ := h
    exact ⟨u, hpos, (hother u (by rw [hu]; rfl)).trans hu⟩

structure Protocol (S : UInt64) (s : Mpmc P Q T) (view : Buffer T) (turn : ℕ → Turn P Q T) :
    Prop where
  shows : Shows s.buffer view
  turns : Turns S.toNat UInt64.ofNat view turn (s.claims.map Ticket.data) s.draws.length
  producers : ∀ p, (s.producers p).Follows S turn s.claims.length p
  consumers : ∀ q, (s.consumers q).Follows turn s.draws.length q
  published : {t | isPublished (turn t) = true}.encard = s.published
  released : {t | (turn t).isReleased = true}.encard = s.released

theorem protocol_init : Protocol S ({} : Mpmc P Q T) Buffer.init fun _ => .unclaimed := by
  constructor
  case shows => exact ⟨fun _ => rfl, fun _ _ => id⟩
  case turns => exact turns_init
  case producers => exact fun _ => trivial
  case consumers => exact fun _ => trivial
  case published => simp [isPublished]
  case released => simp [Turn.isReleased]

/-- Moving a ticket on changes what holds of the tickets at that place only. -/
theorem setOf_update {f : Turn P Q T → Bool} (hy : f y = f (turn t)) :
    {u | f (Function.update turn t y u) = true} = {u | f (turn u) = true} := by
  ext u
  rcases eq_or_ne u t with rfl | hu
  · rw [Set.mem_ofPred_eq, Set.mem_ofPred_eq, Function.update_self, hy]
  · rw [Set.mem_ofPred_eq, Set.mem_ofPred_eq, Function.update_of_ne hu]

theorem encard_update {f : Turn P Q T → Bool} {k : ℕ} (h : {u | f (turn u) = true}.encard = k)
    (ht : f (turn t) = false) (hy : f y = true) :
    {u | f (Function.update turn t y u) = true}.encard = (k + 1 : ℕ) := by
  have hset : {u | f (Function.update turn t y u) = true} = insert t {u | f (turn u) = true} := by
    ext u
    rcases eq_or_ne u t with rfl | hu
    · simp [hy]
    · simp [hu]
  rw [hset, Set.encard_insert_of_notMem (by simp [ht]), h]
  rfl

namespace Protocol

theorem setProducer [DecidableEq P] {x : Producer T} (h : Protocol S s view turn)
    (hx : x.Follows S turn s.claims.length p) : Protocol S (s.setProducer p x) view turn := by
  refine ⟨h.shows, h.turns, ?_, h.consumers, h.published, h.released⟩
  intro p'
  rcases eq_or_ne p' p with rfl | hne
  · simpa only [Mpmc.setProducer, Function.update_self] using hx
  · simpa only [Mpmc.setProducer, Function.update_of_ne hne] using h.producers p'

theorem setConsumer [DecidableEq Q] {x : Consumer T} (h : Protocol S s view turn)
    (hx : x.Follows turn s.draws.length q) : Protocol S (s.setConsumer q x) view turn := by
  refine ⟨h.shows, h.turns, h.producers, ?_, h.published, h.released⟩
  intro q'
  rcases eq_or_ne q' q with rfl | hne
  · simpa only [Mpmc.setConsumer, Function.update_self] using hx
  · simpa only [Mpmc.setConsumer, Function.update_of_ne hne] using h.consumers q'

theorem moveProducer [DecidableEq P] {x : Producer T} (h : Protocol S s view turn)
    (ht : (turn t).isReleased = false) (howner : ∀ o, owner (turn t) = some o → o = .inl p)
    (hpub : ∀ v, turn t ≠ .published v) (hn : s.claims.length ≤ n)
    (hx : x.Follows S (Function.update turn t y) n p) :
    (∀ p', (Function.update s.producers p x p').Follows S (Function.update turn t y) n p') ∧
      ∀ q, (s.consumers q).Follows (Function.update turn t y) s.draws.length q := by
  constructor
  · intro p'
    rcases eq_or_ne p' p with rfl | hne
    · rwa [Function.update_self]
    · rw [Function.update_of_ne hne]
      apply (h.producers p').update hn ht
      intro ho
      exact hne (Sum.inl.inj (howner _ ho))
  · intro q
    apply (h.consumers q).update (Nat.le_refl _) fun _ => hpub
    intro ho
    cases howner _ ho

theorem moveConsumer [DecidableEq Q] {x : Consumer T} (h : Protocol S s view turn)
    (ht : (turn t).isReleased = false) (howner : ∀ o, owner (turn t) = some o → o = .inr q)
    (hn : s.draws.length ≤ n) (hpub : s.draws.length = n → ∀ v, turn t ≠ .published v)
    (hx : x.Follows (Function.update turn t y) n q) :
    (∀ p, (s.producers p).Follows S (Function.update turn t y) s.claims.length p) ∧
      ∀ q', (Function.update s.consumers q x q').Follows (Function.update turn t y) n q' := by
  constructor
  · intro p
    apply (h.producers p).update (Nat.le_refl _) ht
    intro ho
    cases howner _ ho
  · intro q'
    rcases eq_or_ne q' q with rfl | hne
    · rwa [Function.update_self]
    · rw [Function.update_of_ne hne]
      apply (h.consumers q').update hn hpub
      intro ho
      exact hne (Sum.inr.inj (howner _ ho))

theorem draws_le (h : Protocol S s view turn) : s.draws.length ≤ s.claims.length := by
  rcases Nat.eq_zero_or_pos s.draws.length with hzero | hpos
  · omega
  · have hcons := (h.turns.consumed (s.draws.length - 1)).mpr (by omega)
    by_contra hlt
    have hun := h.turns.unclaimed_iff.mpr
      (show (s.claims.map Ticket.data).length ≤ s.draws.length - 1 by rw [List.length_map]; omega)
    rw [hun] at hcons
    cases hcons

theorem owner_of_producer {pos : UInt64} (h : Protocol S s view turn)
    (hp : (s.producers p).pos? = some pos) :
    ∃ t, pos = UInt64.ofNat t ∧ owner (turn t) = some (.inl p) := by
  have hfollows := h.producers p
  cases hx : s.producers p with
  | store w =>
    rw [hx] at hp hfollows
    cases hp
    obtain ⟨t, hpos, ht⟩ := hfollows
    exact ⟨t, hpos, by rw [ht]; rfl⟩
  | _ => rw [hx] at hp; cases hp

theorem owner_of_consumer {pos : UInt64} (h : Protocol S s view turn)
    (hq : (s.consumers q).pos? = some pos) :
    ∃ t, pos = UInt64.ofNat t ∧ owner (turn t) = some (.inr q) := by
  have hfollows := h.consumers q
  cases hx : s.consumers q with
  | read pos' | reading pos' =>
    rw [hx] at hq hfollows
    cases hq
    obtain ⟨t, hpos, v, ht⟩ := hfollows
    exact ⟨t, hpos, by rw [ht]; rfl⟩
  | release pos' data =>
    rw [hx] at hq hfollows
    cases hq
    obtain ⟨t, hpos, ht⟩ := hfollows
    exact ⟨t, hpos, by rw [ht]; rfl⟩
  | _ => rw [hx] at hq; cases hq

theorem owner_inj {o o' : P ⊕ Q} {t' : ℕ} (h : Protocol S s view turn) (hS : Admitted S)
    (ho : owner (turn t) = some o) (ho' : owner (turn t') = some o')
    (hslot : slot S (UInt64.ofNat t) = slot S (UInt64.ofNat t')) : o = o' := by
  have hcurrent : ∀ {u o}, owner (turn u) = some o →
      (turn u).isReleased = false ∧ Ready S.toNat turn u := by
    intro u o hu
    constructor
    · cases hx : turn u <;> rw [hx] at hu <;> first | rfl | cases hu
    · apply h.turns.ready
      rintro hx
      rw [hx] at hu
      cases hu
  rw [slot_ofNat hS, slot_ofNat hS] at hslot
  obtain rfl := h.turns.current_inj (hcurrent ho).1 (hcurrent ho).2 (hcurrent ho').1
    (hcurrent ho').2 hslot
  exact Option.some.inj (ho.symm.trans ho')

theorem capacity (h : Protocol S s view turn) (hS : 0 < S.toNat) :
    s.published ≤ s.released + S.toNat := by
  have hinj : Set.InjOn (· % S.toNat)
      ({t | isPublished (turn t) = true} \ {t | (turn t).isReleased = true}) := by
    rintro t ⟨ht, htr⟩ u ⟨hu, hur⟩ heq
    have hcurrent : ∀ {w}, isPublished (turn w) = true → Ready S.toNat turn w := by
      intro w hw
      apply h.turns.ready
      rintro hx
      rw [hx] at hw
      cases hw
    exact h.turns.current_inj (Bool.not_eq_true _ ▸ htr) (hcurrent ht) (Bool.not_eq_true _ ▸ hur)
      (hcurrent hu) heq
  have hmaps : Set.MapsTo (· % S.toNat)
      ({t | isPublished (turn t) = true} \ {t | (turn t).isReleased = true})
      (Finset.range S.toNat : Set ℕ) := by
    intro t _
    exact Finset.mem_coe.mpr (Finset.mem_range.mpr (Nat.mod_lt _ hS))
  have hbusy := Set.encard_le_encard_of_injOn hmaps hinj
  rw [Set.encard_coe_eq_coe_finsetCard, Finset.card_range] at hbusy
  have hsum := Set.encard_le_encard_sdiff_add_encard {t | isPublished (turn t) = true}
    {t | (turn t).isReleased = true}
  rw [h.published, h.released] at hsum
  have hle : (s.published : ℕ∞) ≤ (s.released + S.toNat : ℕ) := by
    push_cast
    rw [add_comm]
    exact hsum.trans (by gcongr)
  exact_mod_cast hle

theorem stage {w : Writer T} (h : Protocol S s view turn) (hS : Admitted S)
    (hp : s.producers p = .store w) :
    ∃ t y, w.pos = UInt64.ofNat t ∧ turn t = .held p w.phase w.data ∧ y.isReleased = false ∧
      Turns S.toNat UInt64.ofNat (w.store S view).1 (Function.update turn t y)
        (s.claims.map Ticket.data) s.draws.length ∧
      (∀ w', (w.store S s.buffer).2 = some w' → w'.pos = w.pos ∧ y = .held p w'.phase w'.data) ∧
      ((w.store S s.buffer).2 = none → y = .published w.data) := by
  have hfollows := h.producers p
  rw [hp] at hfollows
  obtain ⟨t, hpos, ht⟩ := hfollows
  have hcell := h.turns.cell t (by rw [ht]; rfl) (h.turns.ready t (by rw [ht]; nofun))
  rw [ht] at hcell
  obtain ⟨y, hy, hval, hcons, hbuf, hnext, hdone⟩ := store_stage hS hpos hcell
  refine ⟨t, y, hpos, ht, hy, ?_, ?_, ?_⟩
  · rw [hbuf]
    exact h.turns.advance ht nofun rfl hy hval hcons
  · intro w' hw'
    rw [(h.shows.store w).2] at hw'
    obtain ⟨hpos', -, hy'⟩ := hnext w' hw'
    exact ⟨hpos', hy'⟩
  · intro hw
    rw [(h.shows.store w).2] at hw
    exact hdone hw

theorem store [DecidableEq P] {w w' : Writer T} (h : Protocol S s view turn) (hS : Admitted S)
    (hp : s.producers p = .store w) (hw : (w.store S s.buffer).2 = some w') :
    ∃ turn', Protocol S { s.setProducer p (.store w') with buffer := (w.store S s.buffer).1 }
      (w.store S view).1 turn' := by
  obtain ⟨t, y, hpos, ht, hy, hturns, hnext, -⟩ := h.stage hS hp
  obtain ⟨hpos', rfl⟩ := hnext w' hw
  obtain ⟨hprod, hcons⟩ := h.moveProducer (p := p) (x := .store w') (t := t)
    (y := .held p w'.phase w'.data) (by rw [ht]; rfl) (by rw [ht]; rintro _ ⟨⟩; rfl)
    (by rw [ht]; nofun) (Nat.le_refl _) ⟨t, hpos'.trans hpos, Function.update_self ..⟩
  refine ⟨_, (h.shows.store w).1, hturns, hprod, hcons, ?_, ?_⟩
  · rw [setOf_update (by rw [ht]; rfl)]
    exact h.published
  · rw [setOf_update (by rw [ht]; rfl)]
    exact h.released

theorem publish [DecidableEq P] {w : Writer T} (h : Protocol S s view turn) (hS : Admitted S)
    (hp : s.producers p = .store w) (hw : (w.store S s.buffer).2 = none) :
    ∃ turn', Protocol S { s.returnSent p w.data true with
      buffer := (w.store S s.buffer).1
      published := s.published + 1 } (w.store S view).1 turn' := by
  obtain ⟨t, y, hpos, ht, hy, hturns, -, hdone⟩ := h.stage hS hp
  obtain rfl := hdone hw
  obtain ⟨hprod, hcons⟩ := h.moveProducer (p := p) (x := .idle) (t := t)
    (y := .published w.data) (by rw [ht]; rfl) (by rw [ht]; rintro _ ⟨⟩; rfl)
    (by rw [ht]; nofun) (Nat.le_refl _) trivial
  refine ⟨_, (h.shows.store w).1, hturns, hprod, hcons, ?_, ?_⟩
  · exact encard_update h.published (by rw [ht]; rfl) rfl
  · rw [setOf_update (by rw [ht]; rfl)]
    exact h.released

theorem copy [DecidableEq Q] {pos : UInt64} {junk : T} (h : Protocol S s view turn)
    (hS : Admitted S)
    (hq : s.consumers q = .reading pos) :
    ∃ view' turn', Protocol S
      (s.setConsumer q (.release pos ((s.buffer (slot S pos)).data.read junk))) view' turn' := by
  have hfollows := h.consumers q
  rw [hq] at hfollows
  obtain ⟨t, rfl, v, ht⟩ := hfollows
  have hcell := h.turns.cell t (by rw [ht]; rfl) (h.turns.ready t (by rw [ht]; nofun))
  rw [ht] at hcell
  have hread : (s.buffer (slot S (UInt64.ofNat t))).data.read junk = v := by
    rw [slot_ofNat hS, h.shows.data _ v (by rw [hcell]; rfl)]
    rfl
  rw [hread]
  obtain ⟨hprod, hcons⟩ := h.moveConsumer (q := q) (x := .release (UInt64.ofNat t) v) (t := t)
    (y := .taken q v) (by rw [ht]; rfl) (by rw [ht]; rintro _ ⟨⟩; rfl) (Nat.le_refl _)
    (by rw [ht]; nofun) ⟨t, rfl, Function.update_self ..⟩
  have hturns := h.turns.advance (y := .taken q v) ht nofun rfl rfl rfl rfl
  refine ⟨_, _, ?_, hturns, hprod, hcons, ?_, ?_⟩
  · exact h.shows.copied (by rw [hcell]; rfl) rfl
  · rw [setOf_update (by rw [ht]; rfl)]
    exact h.published
  · rw [setOf_update (by rw [ht]; rfl)]
    exact h.released

theorem release [DecidableEq Q] {pos : UInt64} {data : T} (h : Protocol S s view turn)
    (hS : Admitted S)
    (hq : s.consumers q = .release pos data) :
    ∃ view' turn', Protocol S { s.returnGot q (some data) with
      buffer := s.buffer.setSequence (slot S pos) (pos + S)
      released := s.released + 1 } view' turn' := by
  have hfollows := h.consumers q
  rw [hq] at hfollows
  obtain ⟨t, rfl, ht⟩ := hfollows
  obtain ⟨hprod, hcons⟩ := h.moveConsumer (q := q) (x := .idle) (t := t)
    (y := .released data) (by rw [ht]; rfl) (by rw [ht]; rintro _ ⟨⟩; rfl) (Nat.le_refl _)
    (by rw [ht]; nofun) trivial
  refine ⟨_, _, ?_, h.turns.release ht, hprod, hcons, ?_, ?_⟩
  · rw [slot_ofNat hS, ← ofNat_add_toNat]
    exact h.shows.update rfl nofun
  · rw [setOf_update (by rw [ht]; rfl)]
    exact h.published
  · exact encard_update h.released (by rw [ht]; rfl) rfl

variable [DecidableEq P] [DecidableEq Q]

theorem claim {data : T} (h : Protocol S s view turn) (hlog : s.Logged)
    (hlt : s.claims.length < 2 ^ 64) (hp : s.producers p = .seek (.cas s.enqueuePtr) data) :
    ∃ turn', Protocol S { s.setProducer p (.store { pos := s.enqueuePtr, data }) with
      enqueuePtr := s.enqueuePtr + 1
      claims := s.claims ++ [⟨p, (s.sent p).length, s.enqueuePtr, data⟩] } view turn' := by
  have hptr := hlog.claims.ptr
  rw [List.length_map] at hptr
  have hstands := h.producers p
  rw [hp] at hstands
  have hready := Seek.Stands.current hstands hptr hlt
  have hlen : (s.claims.map Ticket.data).length = s.claims.length := List.length_map ..
  have hun := h.turns.unclaimed_iff.mpr hlen.le
  have hturns := h.turns.claim (hlen.symm ▸ hready) p data
  rw [hlen] at hturns
  obtain ⟨hprod, hcons⟩ := h.moveProducer (p := p) (n := s.claims.length + 1)
    (x := .store { pos := s.enqueuePtr, data }) (y := .held p .before data) (t := s.claims.length)
    (by rw [hun]; rfl) (by rw [hun]; nofun) (by rw [hun]; nofun) (Nat.le_succ _)
    ⟨_, hptr, Function.update_self ..⟩
  refine ⟨_, h.shows, ?_, ?_, hcons, ?_, ?_⟩
  · rw [List.map_append]
    exact hturns
  · rw [List.length_append, List.length_singleton]
    exact hprod
  · rw [setOf_update (by rw [hun]; rfl)]
    exact h.published
  · rw [setOf_update (by rw [hun]; rfl)]
    exact h.released

theorem draw (h : Protocol S s view turn) (hlog : s.Logged)
    (hlt : s.claims.length < 2 ^ 64) (hq : s.consumers q = .seek (.cas s.dequeuePtr)) :
    ∃ turn', Protocol S { s.setConsumer q (.read s.dequeuePtr) with
      dequeuePtr := s.dequeuePtr + 1
      draws := s.draws ++ [⟨q, (s.got q).length, s.dequeuePtr⟩] } view turn' := by
  have hptr := hlog.draws.ptr
  rw [List.length_map] at hptr
  have hstands := h.consumers q
  rw [hq] at hstands
  obtain ⟨v, hv⟩ := Seek.Stands.current hstands hptr (Nat.lt_of_le_of_lt h.draws_le hlt)
  obtain ⟨hprod, hcons⟩ := h.moveConsumer (q := q) (n := s.draws.length + 1)
    (x := .read s.dequeuePtr) (y := .claimed q v) (t := s.draws.length)
    (by rw [hv]; rfl) (by rw [hv]; nofun) (Nat.le_succ _) (fun he => by omega)
    ⟨_, hptr, v, Function.update_self ..⟩
  refine ⟨_, h.shows, ?_, hprod, ?_, ?_, ?_⟩
  · rw [List.length_append, List.length_singleton]
    exact h.turns.draw hv q
  · rw [List.length_append, List.length_singleton]
    exact hcons
  · rw [setOf_update (by rw [hv]; rfl)]
    exact h.published
  · rw [setOf_update (by rw [hv]; rfl)]
    exact h.released

theorem seekProducer {x y : Seek} {data : T} {spurious : Bool} (h : Protocol S s view turn)
    (hlog : s.Logged) (hS : Admitted S) (h2 : 2 ≤ S.toNat) (hp : s.producers p = .seek x data)
    (hx : x.next S 0 s.enqueuePtr s.buffer spurious = .again y) :
    Protocol S (s.setProducer p (.seek y data)) view turn := by
  have hptr := hlog.claims.ptr
  rw [List.length_map] at hptr
  have hstands := h.producers p
  rw [hp] at hstands
  apply h.setProducer
  apply Seek.Stands.next hstands hx hptr
  intro hseq
  have hlen : (s.claims.map Ticket.data).length = s.claims.length := List.length_map ..
  rw [hptr, UInt64.add_zero, slot_ofNat hS, h.shows.sequence, ← hlen] at hseq
  rw [← hlen]
  exact h.turns.ready_of_sequence h2 ofNat_ne hseq

theorem seekConsumer {x y : Seek} {spurious : Bool} (h : Protocol S s view turn)
    (hlog : s.Logged) (hS : Admitted S) (h2 : 2 ≤ S.toNat) (hq : s.consumers q = .seek x)
    (hx : x.next S 1 s.dequeuePtr s.buffer spurious = .again y) :
    Protocol S (s.setConsumer q (.seek y)) view turn := by
  have hptr := hlog.draws.ptr
  rw [List.length_map] at hptr
  have hstands := h.consumers q
  rw [hq] at hstands
  apply h.setConsumer
  apply Seek.Stands.next hstands hx hptr
  intro hseq
  rw [hptr, ← ofNat_succ, slot_ofNat hS, h.shows.sequence] at hseq
  exact h.turns.published_of_sequence (by omega) ofNat_ne hseq

theorem step (h : Protocol S s view turn) (hlog : s.Logged) (hS : Admitted S) (h2 : 2 ≤ S.toNat)
    (hstep : Step S s a s') (hlt : s.claims.length < 2 ^ 64) :
    ∃ view' turn', Protocol S s' view' turn' := by
  cases hstep with
  | callEnqueue p data hp => exact ⟨view, turn, h.setProducer trivial⟩
  | callDequeue q hq => exact ⟨view, turn, h.setConsumer trivial⟩
  | seekEnqueue p x y data spurious hp hx =>
    exact ⟨view, turn, h.seekProducer hlog hS h2 hp hx⟩
  | seekDequeue q x y spurious junk hq hx =>
    exact ⟨view, turn, h.seekConsumer hlog hS h2 hq hx⟩
  | refuseEnqueue p x data spurious hp =>
    have hmove : Protocol S (s.setProducer p .idle) view turn := h.setProducer trivial
    exact ⟨view, turn, ⟨hmove.shows, hmove.turns, hmove.producers, hmove.consumers,
      hmove.published, hmove.released⟩⟩
  | refuseDequeue q x spurious junk hq =>
    have hmove : Protocol S (s.setConsumer q .idle) view turn := h.setConsumer trivial
    exact ⟨view, turn, ⟨hmove.shows, hmove.turns, hmove.producers, hmove.consumers,
      hmove.published, hmove.released⟩⟩
  | claim p data spurious hp => exact ⟨view, h.claim hlog hlt hp⟩
  | draw q spurious junk hq => exact ⟨view, h.draw hlog hlt hq⟩
  | store p w w' spurious hp hw => exact ⟨_, h.store hS hp hw⟩
  | publish p w spurious hp hw => exact ⟨_, h.publish hS hp hw⟩
  | read q pos spurious junk hq =>
    have hfollows := h.consumers q
    rw [hq] at hfollows
    exact ⟨view, turn, h.setConsumer hfollows⟩
  | copy q pos spurious junk hq => exact h.copy hS hq
  | release q pos data spurious junk hq => exact h.release hS hq

end Protocol

end LowLevel.Queues.Mpmc
