import LowLevel.Allocators.Client
import LowLevel.Allocators.Live

/-! # Simulation of allocators by block lists

An allocator is compared with a simpler one whose state determines the blocks of
the heap. If each operation of the first acts as that of the second, serves
requests from the blocks and leaves live blocks alone, then the same holds of
all runs of a client, and its data is safe.
-/

namespace LowLevel.Allocators

open Memory

variable {σ τ : Type}

/-- The operations of an allocator act as those of one on abstract heaps. -/
structure Simulates (I : Interface σ) (J : Interface τ) (rules : Rules) (base : ℕ)
    (mem : σ → Memory) (blocks : τ → List Block) (Rep : σ → τ → Prop) : Prop where
  once : rules.refree = false
  malloc : ∀ {h t n}, Rep h t → rules.minSize ≤ n → n ≤ rules.maxSize → ∃ p h' t' r,
    I.malloc n h = some (p, h') ∧ J.malloc n t = some (p, t') ∧ Rep h' t' ∧ n ≤ r ∧
      Served base r (blocks t) p (blocks t') ∧
      ∀ z ∈ liveBlocks base (blocks t), SameBlock z (mem h) (mem h')
  free : ∀ {h t pre b post}, Rep h t → blocks t = pre ++ b :: post → b.free = false →
    ∃ code h' t', I.free (endOf base pre + 16) h = some (code, h') ∧
      J.free (endOf base pre + 16) t = some (code, t') ∧ Rep h' t' ∧
      blocks t' = release pre b post ∧
      ∀ z ∈ liveBlocks base (release pre b post), SameBlock z (mem h) (mem h')
  reset : ∀ {h t}, Rep h t → (I.reset h).1 = (J.reset t).1 ∧ Rep (I.reset h).2 (J.reset t).2 ∧
    blocks (J.reset t).2 = []
  poke : ∀ {h t z k} (v : UInt8), Rep h t → z ∈ liveBlocks base (blocks t) → z.1 + 16 ≤ k →
    k < z.1 + 16 + z.2.size → Rep (I.poke k v h) (J.poke k v t) ∧
      blocks (J.poke k v t) = blocks t ∧ mem (I.poke k v h) = (mem h).poke k v
  blockSize : ∀ {h t z}, Rep h t → z ∈ liveBlocks base (blocks t) →
    I.blockSize (z.1 + 16) h = z.2.size ∧ J.blockSize (z.1 + 16) t = z.2.size

/-- Two clients hold the same pointers and have seen the same answers, and one heap represents
the other. -/
structure Agree (base : ℕ) (blocks : τ → List Block) (Rep : σ → τ → Prop) (c : Client σ)
    (d : Client τ) : Prop where
  heap : Rep c.heap d.heap
  owned : Owned base (blocks d.heap) c.live
  live : d.live = c.live
  returned : d.returned = c.returned
  log : d.log = c.log

section Agree

variable {I : Interface σ} {J : Interface τ} {base n p r : ℕ} {blocks : τ → List Block}
  {Rep Rep₁ : σ → τ → Prop} {c : Client σ} {d : Client τ} {h : σ} {t : τ}

theorem Agree.allowed_eq (hagree : Agree base blocks Rep c d)
    (hsize : ∀ y ∈ c.live, J.blockSize y.1 d.heap = I.blockSize y.1 c.heap) (rules : Rules)
    (act : Action) : d.allowed J rules act = c.allowed I rules act := by
  cases act with
  | malloc n => rfl
  | free p => simp only [Client.allowed, hagree.live, hagree.returned]
  | reset => rfl
  | write p i v =>
    rw [Bool.eq_iff_iff, Client.allowed_write, Client.allowed_write, hagree.live]
    refine exists_congr fun y => and_congr_right fun hy => and_congr_right ?_
    rintro rfl
    rw [hsize y hy]

theorem Agree.malloc (hagree : Agree base blocks Rep c d) (hI : I.malloc n c.heap = some (p, h))
    (hJ : J.malloc n d.heap = some (p, t)) (hrep : Rep₁ h t) (hr : n ≤ r)
    (hserved : Served base r (blocks d.heap) p (blocks t)) :
    ∃ c' d', c.exec I (.malloc n) = some c' ∧ d.exec J (.malloc n) = some d' ∧
      Agree base blocks Rep₁ c' d' ∧ c'.heap = h ∧ d'.heap = t ∧ c.live ⊆ c'.live := by
  refine ⟨_, _, Client.exec_malloc hI, Client.exec_malloc hJ, ?_, rfl, rfl, ?_⟩
  · constructor
    case heap => exact hrep
    case owned => exact hagree.owned.malloc hserved hr
    case live => simp only [hagree.live]
    case returned => simp only [hagree.returned]
    case log => simp only [hagree.log]
  · intro y hy
    simp only
    split_ifs
    · exact hy
    · exact List.mem_cons_of_mem _ hy

theorem Agree.free {code : ℕ} {pre post : List Block} {b : Block}
    (hagree : Agree base blocks Rep c d) (hI : I.free p c.heap = some (code, h))
    (hJ : J.free p d.heap = some (code, t)) (hrep : Rep₁ h t) (hp : p = endOf base pre + 16)
    (hblocks : blocks d.heap = pre ++ b :: post) (hlive : b.free = false)
    (hblocks' : blocks t = release pre b post) :
    ∃ c' d', c.exec I (.free p) = some c' ∧ d.exec J (.free p) = some d' ∧
      Agree base blocks Rep₁ c' d' ∧ c'.heap = h ∧ d'.heap = t ∧
      c'.live = c.live.filter fun x => x.1 ≠ p := by
  refine ⟨_, _, Client.exec_free hI, Client.exec_free hJ, ?_, rfl, rfl, rfl⟩
  constructor
  case heap => exact hrep
  case owned =>
    rw [hblocks']
    exact (hblocks ▸ hagree.owned).free hlive hp
  case live => simp only [hagree.live]
  case returned => exact hagree.returned
  case log => simp only [hagree.log]

theorem Agree.cleared (hagree : Agree base blocks Rep c d) (hrep : Rep₁ h t)
    (hblocks : blocks t = []) (code : ℕ) :
    Agree base blocks Rep₁ { heap := h, log := c.log ++ [code] }
      { heap := t, log := d.log ++ [code] } where
  heap := hrep
  owned := by
    simp only [hblocks]
    exact Owned.init base
  live := rfl
  returned := rfl
  log := by simp only [hagree.log]

theorem Agree.answered (hagree : Agree base blocks Rep c d) (hrep : Rep₁ h t)
    (hblocks : blocks t = blocks d.heap) (code : ℕ) :
    Agree base blocks Rep₁ { c with heap := h, log := c.log ++ [code] }
      { d with heap := t, log := d.log ++ [code] } where
  heap := hrep
  owned := by
    simp only [hblocks]
    exact hagree.owned
  live := hagree.live
  returned := hagree.returned
  log := by simp only [hagree.log]

theorem Agree.reset (hagree : Agree base blocks Rep c d)
    (hcode : (I.reset c.heap).1 = (J.reset d.heap).1)
    (hrep : Rep₁ (I.reset c.heap).2 (J.reset d.heap).2)
    (hblocks : blocks (J.reset d.heap).2 = []) :
    ∃ c' d', c.exec I .reset = some c' ∧ d.exec J .reset = some d' ∧
      Agree base blocks Rep₁ c' d' ∧ c'.heap = (I.reset c.heap).2 ∧
      d'.heap = (J.reset d.heap).2 := by
  refine ⟨_, _, rfl, rfl, ?_, rfl, rfl⟩
  rw [hcode]
  exact hagree.cleared hrep hblocks _

theorem Agree.write {i : ℕ} {v : UInt8} (hagree : Agree base blocks Rep c d)
    (hrep : Rep₁ (I.poke (p + i) v c.heap) (J.poke (p + i) v d.heap))
    (hblocks : blocks (J.poke (p + i) v d.heap) = blocks d.heap) :
    ∃ c' d', c.exec I (.write p i v) = some c' ∧ d.exec J (.write p i v) = some d' ∧
      Agree base blocks Rep₁ c' d' ∧ c'.heap = I.poke (p + i) v c.heap ∧
      d'.heap = J.poke (p + i) v d.heap ∧ c'.live = c.live := by
  refine ⟨_, _, rfl, rfl, ?_, rfl, rfl, rfl⟩
  constructor
  case heap => exact hrep
  case owned =>
    rw [hblocks]
    exact hagree.owned
  case live => exact hagree.live
  case returned => exact hagree.returned
  case log => exact hagree.log

theorem Agree.split (hagree : Agree base blocks Rep c d) (hp : p ∈ c.live.map Prod.fst) :
    ∃ pre b post, blocks d.heap = pre ++ b :: post ∧ b.free = false ∧ p = endOf base pre + 16 := by
  obtain ⟨z, hz, hzp⟩ := List.mem_map.mp (hagree.owned.perm.subset hp)
  obtain ⟨hz, hlive⟩ := mem_liveBlocks.mp hz
  obtain ⟨pre, post, hblocks, heq⟩ := mem_located_split hz
  exact ⟨pre, z.2, post, hblocks, hlive, by omega⟩

end Agree

namespace Simulates

variable {I : Interface σ} {J : Interface τ} {rules : Rules} {base : ℕ} {mem : σ → Memory}
  {blocks : τ → List Block} {Rep : σ → τ → Prop} {c c' : Client σ} {d : Client τ} {act : Action}

def Spared (base : ℕ) (mem : σ → Memory) (bs bs' : List Block) (act : Action) (c c' : Client σ) :
    Prop :=
  ∀ y ∈ c.live, ∀ z ∈ liveBlocks base bs, y.1 = z.1 + 16 → ∀ i < z.2.size,
    act.spares y.1 i = true →
      y ∈ c'.live ∧ z ∈ liveBlocks base bs' ∧ mem c'.heap (y.1 + i) = mem c.heap (y.1 + i)

variable (hsim : Simulates I J rules base mem blocks Rep)

include hsim

theorem block {y : ℕ × ℕ} (h : Agree base blocks Rep c d) (hy : y ∈ c.live) :
    ∃ z ∈ liveBlocks base (blocks d.heap), y.1 = z.1 + 16 ∧ y.2 ≤ z.2.size ∧
      I.blockSize y.1 c.heap = z.2.size ∧ J.blockSize y.1 d.heap = z.2.size := by
  obtain ⟨z, hz, hyz, hle⟩ := h.owned.block hy
  exact ⟨z, hz, hyz, hle, hyz ▸ hsim.blockSize h.heap hz⟩

theorem exec_malloc {n : ℕ} (h : Agree base blocks Rep c d) (hmin : rules.minSize ≤ n)
    (hmax : n ≤ rules.maxSize) :
    ∃ c' d', c.exec I (.malloc n) = some c' ∧ d.exec J (.malloc n) = some d' ∧
      Agree base blocks Rep c' d' ∧
      Spared base mem (blocks d.heap) (blocks d'.heap) (.malloc n) c c' := by
  obtain ⟨p, h', t', r, hI, hJ, hrep, hr, hserved, hsame⟩ := hsim.malloc h.heap hmin hmax
  obtain ⟨c', d', hc, hd, hagree, rfl, rfl, hlive⟩ := h.malloc hI hJ hrep hr hserved
  refine ⟨c', d', hc, hd, hagree, fun y hy z hz hyz i hi _ => ?_⟩
  exact ⟨hlive hy, hserved.subset hz, hsame z hz _ (by omega) (by rw [Block.extent]; omega)⟩

theorem exec_free {p : ℕ} (h : Agree base blocks Rep c d) (hp : p ∈ c.live.map Prod.fst) :
    ∃ c' d', c.exec I (.free p) = some c' ∧ d.exec J (.free p) = some d' ∧
      Agree base blocks Rep c' d' ∧
      Spared base mem (blocks d.heap) (blocks d'.heap) (.free p) c c' := by
  obtain ⟨pre, b, post, hblocks, hlive, rfl⟩ := h.split hp
  obtain ⟨code, h', t', hI, hJ, hrep, hblocks', hsame⟩ := hsim.free h.heap hblocks hlive
  obtain ⟨c', d', hc, hd, hagree, rfl, rfl, hleft⟩ :=
    h.free hI hJ hrep rfl hblocks hlive hblocks'
  refine ⟨c', d', hc, hd, hagree, fun y hy w hw hyw i hi hspare => ?_⟩
  have hne : endOf base pre + 16 ≠ y.1 := of_decide_eq_true hspare
  have hw' := mem_liveBlocks_release (hblocks ▸ hw) (by omega)
  refine ⟨?_, hblocks' ▸ hw', hsame w hw' _ (by omega) (by rw [Block.extent]; omega)⟩
  rw [hleft]
  exact List.mem_filter.mpr ⟨hy, by simpa using hne.symm⟩

theorem exec_reset (h : Agree base blocks Rep c d) :
    ∃ c' d', c.exec I .reset = some c' ∧ d.exec J .reset = some d' ∧
      Agree base blocks Rep c' d' := by
  obtain ⟨hcode, hrep, hblocks⟩ := hsim.reset h.heap
  obtain ⟨c', d', hc, hd, hagree, -, -⟩ := h.reset hcode hrep hblocks
  exact ⟨c', d', hc, hd, hagree⟩

/-- A store changes its byte only. -/
theorem exec_write {y : ℕ × ℕ} {i : ℕ} (v : UInt8) (h : Agree base blocks Rep c d)
    (hy : y ∈ c.live) (hi : i < I.blockSize y.1 c.heap) :
    ∃ c' d', c.exec I (.write y.1 i v) = some c' ∧ d.exec J (.write y.1 i v) = some d' ∧
      Agree base blocks Rep c' d' ∧ c'.live = c.live ∧ blocks d'.heap = blocks d.heap ∧
      mem c'.heap = (mem c.heap).poke (y.1 + i) v := by
  obtain ⟨z, hz, hyz, -, hsize, -⟩ := hsim.block h hy
  obtain ⟨hrep, hblocks, hmem⟩ := hsim.poke (k := y.1 + i) v h.heap hz (by omega) (by omega)
  obtain ⟨c', d', hc, hd, hagree, hheap, hheap', hlive⟩ := h.write hrep hblocks
  exact ⟨c', d', hc, hd, hagree, hlive, hheap' ▸ hblocks, hheap ▸ hmem⟩

theorem exec (h : Agree base blocks Rep c d) (hact : c.allowed I rules act = true) :
    ∃ c' d', c.exec I act = some c' ∧ d.exec J act = some d' ∧ Agree base blocks Rep c' d' ∧
      Spared base mem (blocks d.heap) (blocks d'.heap) act c c' := by
  cases act with
  | malloc n =>
    obtain ⟨hmin, hmax⟩ := Client.allowed_malloc.mp hact
    exact hsim.exec_malloc h hmin hmax
  | free p =>
    have hp : p ∈ c.live.map Prod.fst := by
      simpa only [hsim.once, Bool.false_eq_true, false_and, or_false] using
        Client.allowed_free.mp hact
    exact hsim.exec_free h hp
  | reset =>
    obtain ⟨c', d', hc, hd, hagree⟩ := hsim.exec_reset h
    exact ⟨c', d', hc, hd, hagree, fun y _ z _ _ i _ hspare => by cases hspare⟩
  | write q j v =>
    obtain ⟨x, hx, rfl, hj⟩ := Client.allowed_write.mp hact
    obtain ⟨c', d', hc, hd, hagree, hlive, hblocks, hmem⟩ := hsim.exec_write v h hx hj
    refine ⟨c', d', hc, hd, hagree, fun y hy z hz hyz i hi hspare => ⟨hlive ▸ hy, hblocks ▸ hz, ?_⟩⟩
    rw [hmem]
    apply poke_of_ne
    obtain ⟨w, hw, hxw, -, hsize, -⟩ := hsim.block h hx
    have hne : ¬ (x.1 = y.1 ∧ j = i) := of_decide_eq_true hspare
    rcases located_disjoint (liveBlocks_located hz) (liveBlocks_located hw) with rfl | hd | hd
    · omega
    · rw [Block.extent] at hd
      omega
    · rw [Block.extent] at hd
      omega

theorem step (h : Agree base blocks Rep c d) (hstep : c.step I rules act = some c') :
    ∃ d', Agree base blocks Rep c' d' ∧
      Spared base mem (blocks d.heap) (blocks d'.heap) act c c' := by
  unfold Client.step at hstep
  split_ifs at hstep with hact
  obtain ⟨c'', d', hc, -, hagree, hspared⟩ := hsim.exec h hact
  obtain rfl : c'' = c' := Option.some.inj (hc.symm.trans hstep)
  exact ⟨d', hagree, hspared⟩

/-- Two clients that agree make the same steps. -/
theorem step_rel (h : Agree base blocks Rep c d) (act : Action) :
    Option.Rel (Agree base blocks Rep) (c.step I rules act) (d.step J rules act) := by
  have hsize : ∀ y ∈ c.live, J.blockSize y.1 d.heap = I.blockSize y.1 c.heap := by
    intro y hy
    obtain ⟨z, -, -, -, hI, hJ⟩ := hsim.block h hy
    rw [hI, hJ]
  unfold Client.step
  rw [h.allowed_eq hsize rules act]
  split_ifs with hact
  · obtain ⟨c', d', hc, hd, hagree, -⟩ := hsim.exec h hact
    rw [hc, hd]
    exact .some hagree
  · exact .none

theorem run_rel {h : σ} {t : τ} (hagree : Agree base blocks Rep c d) (acts : List Action) :
    Option.Rel (Agree base blocks Rep) ((Client.machine I rules h).run c acts)
      ((Client.machine J rules t).run d acts) :=
  Machine.run_rel (R := Agree base blocks Rep) (fun _ _ act h => hsim.step_rel h act) hagree acts

theorem reachable {h : σ} (hagree : Agree base blocks Rep { heap := h } d)
    (hc : (Client.machine I rules h).Reachable c) : ∃ d, Agree base blocks Rep c d := by
  refine hc.invariant (P := fun c => ∃ d, Agree base blocks Rep c d) ⟨d, hagree⟩ ?_
  rintro c act c' ⟨d, hd⟩ hstep
  obtain ⟨d', hd', -⟩ := hsim.step hd hstep
  exact ⟨d', hd'⟩

theorem run_spares {acts : List Action} {heap : σ} {y : ℕ × ℕ} {z : ℕ × Block} {i : ℕ}
    (h : Agree base blocks Rep c d) (hy : y ∈ c.live) (hz : z ∈ liveBlocks base (blocks d.heap))
    (hyz : y.1 = z.1 + 16) (hi : i < z.2.size) (hacts : ∀ act ∈ acts, act.spares y.1 i = true)
    (hrun : (Client.machine I rules heap).run c acts = some c') :
    mem c'.heap (y.1 + i) = mem c.heap (y.1 + i) := by
  induction acts generalizing c d with
  | nil =>
    obtain rfl := Option.some.inj hrun
    rfl
  | cons act acts ih =>
    obtain ⟨c₁, hstep, hrest⟩ := Option.bind_eq_some_iff.mp hrun
    obtain ⟨d₁, hagree, hspared⟩ := hsim.step h hstep
    obtain ⟨hy₁, hz₁, hbyte⟩ := hspared y hy z hz hyz i hi (hacts act (List.mem_cons_self ..))
    rw [ih hagree hy₁ hz₁ (fun act hact => hacts act (List.mem_cons_of_mem _ hact)) hrest, hbyte]

theorem read_back {acts : List Action} {heap : σ} {p i : ℕ} {v : UInt8}
    (h : Agree base blocks Rep c d) (hacts : ∀ act ∈ acts, act.spares p i = true)
    (hrun : (Client.machine I rules heap).run c (.write p i v :: acts) = some c') :
    mem c'.heap (p + i) = v := by
  obtain ⟨c₁, hstep, hrest⟩ := Option.bind_eq_some_iff.mp hrun
  simp only [Client.machine, Client.step] at hstep
  split_ifs at hstep with hact
  obtain ⟨y, hy, rfl, hi⟩ := Client.allowed_write.mp hact
  obtain ⟨z, hz, hyz, -, hsize, -⟩ := hsim.block h hy
  obtain ⟨c₂, d₂, hc, -, hagree, hlive, hblocks, hmem⟩ := hsim.exec_write v h hy hi
  obtain rfl : c₂ = c₁ := Option.some.inj (hc.symm.trans hstep)
  rw [hsim.run_spares hagree (hlive ▸ hy) (hblocks ▸ hz) hyz (hsize ▸ hi) hacts hrest, hmem]
  exact Function.update_self ..

end Simulates

end LowLevel.Allocators
