import LowLevel.Allocators.ImplicitSlots
import LowLevel.Allocators.ZeroRequests
import LowLevel.Allocators.Placement

/-! # Requests of every size

A request may be any 64-bit number. Rounding it up and adding it to the end of
the heap are done modulo `2 ^ 64`, and the sum is compared only afterwards: a
request for which a carry is lost is served with too few bytes. The others get
what they asked for, or nothing.
-/

namespace LowLevel.Allocators

open Memory FirstFit

variable {σ : Type}

def anyRules : Rules := { minSize := 0, maxSize := 2 ^ 64 - 1 }

/-- What a request gives: nothing, and nothing changes, or a block inside the region with at least
the bytes requested. The end of the heap does not move back. -/
structure Grants (ctl : σ → Allocator) (mem : σ → Memory) (n : ℕ) (h : σ) (p : ℕ) (h' : σ) :
    Prop where
  given : p = 0 ∧ h' = h ∨ p ≠ 0 ∧ (ctl h).startPtr ≤ p ∧ n ≤ (mem h').read64 (p - 16) ∧
    p + (mem h').read64 (p - 16) ≤ (ctl h).startPtr + (ctl h).size
  last : (ctl h).lastPtr ≤ (ctl h').lastPtr

/-- In all states of the runs whose steps meet a condition, the requests that meet it return and
give what they should. -/
def RequestsSafe (I : Interface σ) (ctl : σ → Allocator) (mem : σ → Memory) (heap : σ)
    (cond : Client σ → Action → Bool) : Prop :=
  ∀ c, ((Client.machine I anyRules heap).under cond).Reachable c →
    ∀ n < 2 ^ 64, cond c (.malloc n) = true →
      ∃ p h', I.malloc n c.heap = some (p, h') ∧ Grants ctl mem n c.heap p h'

/-- The end of a new block, with its overhead, is below `2 ^ 64`. -/
def sumsFit (ctl : σ → Allocator) (overhead : ℕ) (c : Client σ) : Action → Bool
  | .malloc n => (ctl c.heap).lastPtr + overhead + roundUp16 n < 2 ^ 64
  | _ => true

section General

variable {I : Interface σ} {ctl : σ → Allocator} {mem : σ → Memory} {heap : σ}
  {cond : Client σ → Action → Bool} {base size r n p : ℕ} {bs bs' : List Block}

theorem requestsSafe_of {Q : Client σ → Prop} (hinit : Q { heap })
    (hstep : ∀ c act c', Q c → cond c act = true → c.step I anyRules act = some c' → Q c')
    (hmalloc : ∀ c n, Q c → cond c (.malloc n) = true →
      ∃ p h', I.malloc n c.heap = some (p, h') ∧ Grants ctl mem n c.heap p h') :
    RequestsSafe I ctl mem heap cond := by
  intro c hc n _ hcond
  have hinv : Q c := by
    refine hc.invariant hinit ?_
    intro c act c' h hs
    obtain ⟨hact, hs⟩ := Machine.under_step.mp hs
    exact hstep c act c' h hact hs
  exact hmalloc c n hinv hcond

theorem add_lt_of_sum_lt {last overhead : ℕ} (h : last + overhead + roundUp16 n < 2 ^ 64) :
    n + 15 < 2 ^ 64 := by
  unfold roundUp16 at h
  omega

theorem Served.endOf_le (h : Served base r bs p bs') : endOf base bs ≤ endOf base bs' := by
  cases h with
  | carve pre b post =>
    rw [endOf_append, endOf_append, endOf_append, endOf_carve, endOf_cons]
  | concat =>
    rw [endOf_append]
    exact le_endOf ..
  | full => exact le_rfl

theorem Served.block (h : Served base r bs p bs') (hp : p ≠ 0) :
    ∃ z ∈ located base bs', p = z.1 + 16 ∧ r ≤ z.2.size := by
  cases h with
  | carve pre b post hfree hr =>
    have hlive : (endOf base pre, handed r b) ∈
        liveBlocks base (pre ++ Allocators.carve r b ++ post) := by
      rw [liveBlocks_append, liveBlocks_append, liveBlocks_carve]
      simp
    exact ⟨_, liveBlocks_located hlive, rfl, le_handed hr⟩
  | concat => exact ⟨_, mem_located_middle base bs ⟨r, false⟩ [], rfl, le_rfl⟩
  | full => exact absurd rfl hp

theorem grants_of_served {h h' : σ} (hserved : Served base r bs p bs') (hn : n ≤ r)
    (hstart : (ctl h).startPtr = base) (hlast : (ctl h).lastPtr = endOf base bs)
    (htiled : Tiled (mem h') base bs' (ctl h').lastPtr)
    (hroom : (ctl h').lastPtr ≤ base + (ctl h).size) (hnull : p = 0 → h' = h) :
    Grants ctl mem n h p h' := by
  constructor
  case given =>
    rcases Nat.eq_zero_or_pos p with hp | hp
    · exact Or.inl ⟨hp, hnull hp⟩
    · obtain ⟨z, hz, rfl, hr⟩ := hserved.block hp.ne'
      have hbounds := htiled.bounds hz
      have hsize : (mem h').read64 (z.1 + 16 - 16) = z.2.size := by
        rw [Nat.add_sub_cancel]
        exact (htiled.tags z hz).size
      rw [Block.extent] at hbounds
      rw [hsize, hstart]
      exact Or.inr ⟨hp.ne', by omega, by omega, by omega⟩
  case last =>
    rw [hlast, ← htiled.last]
    exact hserved.endOf_le

end General

namespace Implicit

open Slots

variable {base size n : ℕ} {c c' : Client (Allocator × Memory)} {bs : List Block} {act : Action}

/-- The headers describe the blocks, and the live pointers are payloads of some of them. -/
structure Stays (base size : ℕ) (c : Client (Allocator × Memory)) (bs : List Block) : Prop where
  laid : Laid base size c.heap bs
  live : ∀ y ∈ c.live, ∃ off k, y.1 = base + off ∧ (off, k) ∈ slots 0 bs ∧ y.2 ≤ k

theorem Stays.split {y : ℕ × ℕ} (h : Stays base size c bs) (hy : y ∈ c.live) :
    ∃ pre b post, bs = pre ++ b :: post ∧ y.1 = base + (span pre + 16) ∧ y.2 ≤ b.size := by
  obtain ⟨off, k, heq, hk, hle⟩ := h.live y hy
  obtain ⟨pre, b, post, hbs, hoff, hsize⟩ := mem_slots_split hk
  simp only [Nat.zero_add] at hoff hsize
  exact ⟨pre, b, post, hbs, by omega, by omega⟩

theorem Stays.malloc (h : Stays base size c bs)
    (hn : c.heap.1.lastPtr + 16 + roundUp16 n < 2 ^ 64)
    (hexec : c.exec interface (.malloc n) = some c') :
    Stays base size c' (Slots.malloc size n bs).2 := by
  obtain ⟨p, h', heq, hlaid, hp⟩ := malloc_runs h.laid hn
  obtain ⟨hsub, hptr⟩ := malloc_slots size n bs
  have hold : ∀ y ∈ c.live, ∃ off k, y.1 = base + off ∧
      (off, k) ∈ slots 0 (Slots.malloc size n bs).2 ∧ y.2 ≤ k := by
    intro y hy
    obtain ⟨off, k, hoff, hk, hle⟩ := h.live y hy
    exact ⟨off, k, hoff, hsub hk, hle⟩
  obtain rfl := Option.some.inj ((Client.exec_malloc heq).symm.trans hexec)
  refine ⟨hlaid, ?_⟩
  simp only
  intro y hy
  split_ifs at hy with hzero
  · exact hold y hy
  · rcases List.mem_cons.mp hy with rfl | hy
    · rcases hp with ⟨hnull, -, -⟩ | ⟨hp, hne⟩
      · exact absurd hnull hzero
      · obtain ⟨k, hk, hle⟩ := hptr.resolve_left hne
        exact ⟨_, k, hp, hk, hle⟩
    · exact hold y hy

theorem Stays.free {p : ℕ} (h : Stays base size c bs) (hp : p ∈ c.live.map Prod.fst)
    (hexec : c.exec interface (.free p) = some c') : ∃ bs', Stays base size c' bs' := by
  obtain ⟨y, hy, rfl⟩ := List.mem_map.mp hp
  obtain ⟨pre, b, post, rfl, hptr, -⟩ := h.split hy
  by_cases hin : span pre + 16 < span (pre ++ b :: post)
  · obtain ⟨h', heq, hlaid⟩ := free_mirrors h.laid hin
    obtain ⟨code, hfree⟩ : ∃ code, interface.free y.1 c.heap = some (code, h') := by
      rw [hptr]
      exact ⟨_, heq⟩
    obtain rfl := Option.some.inj ((Client.exec_free hfree).symm.trans hexec)
    refine ⟨_, hlaid, ?_⟩
    simp only [free_slots]
    exact fun y hy => h.live y (List.mem_filter.mp hy).1
  · have hrefused : interface.free y.1 c.heap = some (1, c.heap) := by
      have heq := h.laid.eq
      simp only [interface, allocFree, hptr]
      rw [heq, if_pos (by simp only; omega), ← heq]
    obtain rfl := Option.some.inj ((Client.exec_free hrefused).symm.trans hexec)
    exact ⟨_, h.laid, fun y hy => h.live y (List.mem_filter.mp hy).1⟩

theorem Stays.step (h : Stays base size c bs) (hcond : sumsFit Prod.fst 16 c act = true)
    (hstep : c.step interface anyRules act = some c') : ∃ bs', Stays base size c' bs' := by
  obtain ⟨hact, hexec⟩ := Option.ite_none_right_eq_some.mp hstep
  cases act with
  | malloc n => exact ⟨_, h.malloc (of_decide_eq_true hcond) hexec⟩
  | free p =>
    have hp : p ∈ c.live.map Prod.fst := by simpa [anyRules] using Client.allowed_free.mp hact
    exact h.free hp hexec
  | reset =>
    obtain ⟨-, hlaid⟩ := (mirrors base size).reset h.laid
    obtain rfl := Option.some.inj hexec
    exact ⟨[], hlaid, fun y hy => by cases hy⟩
  | write q i v =>
    obtain ⟨y, hy, rfl, hi⟩ := Client.allowed_write.mp hact
    obtain ⟨pre, b, post, rfl, hptr, -⟩ := h.split hy
    have hsize : interface.blockSize y.1 c.heap = b.size := by
      rw [hptr]
      exact (mirrors base size).blockSize h.laid
    have hlaid := (mirrors base size).poke (i := i) v h.laid (hsize ▸ hi)
    obtain rfl := Option.some.inj hexec
    refine ⟨_, ?_, h.live⟩
    rw [hptr, Nat.add_assoc]
    exact hlaid

theorem span_le_malloc (limit n : ℕ) (bs : List Block) :
    span bs ≤ span (Slots.malloc limit n bs).2 := by
  rcases malloc_cases limit n bs with ⟨pre, b, post, rfl, -, -, -, heq⟩ | ⟨-, heq⟩
  · rw [heq]
    simp
  · rw [heq]
    split_ifs
    · simp
    · exact le_rfl

theorem Stays.grants (h : Stays base size c bs)
    (hn : c.heap.1.lastPtr + 16 + roundUp16 n < 2 ^ 64) :
    ∃ p h', interface.malloc n c.heap = some (p, h') ∧ Grants Prod.fst Prod.snd n c.heap p h' := by
  obtain ⟨p, h', heq, hlaid, hp⟩ := malloc_runs h.laid hn
  refine ⟨p, h', heq, ?_, ?_⟩
  · rcases hp with ⟨hzero, hsame, -⟩ | ⟨rfl, hne⟩
    · exact Or.inl ⟨hzero, hsame⟩
    · obtain ⟨k, hk, hle⟩ := (malloc_slots size n bs).2.resolve_left hne
      obtain ⟨pre, b, post, hbs, hoff, hsize⟩ := mem_slots_split hk
      simp only [Nat.zero_add] at hoff hsize
      have hroom := hlaid.room
      have hheaders := hlaid.headers
      rw [hbs] at hroom hheaders
      have hread : h'.2.read64 (base + (Slots.malloc size n bs).1 - 16) = b.size := by
        rw [hoff, show base + (span pre + 16) - 16 = base + (0 + span pre) by omega]
        exact hheaders.middle.1
      rw [span_append, span_cons] at hroom
      rw [hread, h.laid.eq, hoff]
      exact Or.inr ⟨by omega, by simp only; omega, by omega, by simp only; omega⟩
  · rw [h.laid.eq, hlaid.eq]
    exact Nat.add_le_add_left (span_le_malloc size n bs) base

theorem requests_safe {mmap : ℕ} {a a' : Allocator} (m : Memory) (hmapped : Mapped mmap size)
    (hinit : allocInit a size mmap = (0, a')) :
    RequestsSafe interface Prod.fst Prod.snd (a', m) (sumsFit Prod.fst 16) := by
  obtain rfl := Allocator.init_eq hinit
  refine requestsSafe_of (Q := fun c => ∃ bs, Stays mmap size c bs) ?_ ?_ ?_
  · exact ⟨[], ⟨rfl, hmapped, Nat.zero_le _, trivial⟩, fun y hy => by cases hy⟩
  · rintro c act c' ⟨bs, h⟩ hcond hstep
    exact h.step hcond hstep
  · rintro c n ⟨bs, h⟩ hcond
    exact h.grants (of_decide_eq_true hcond)

end Implicit

namespace Coalescing

variable {base size n : ℕ} {c c' : Client (Allocator × Memory)} {d : Client (List Block)}
  {act : Action}

theorem agree_malloc (h : Agree base id (Decodes base size) c d)
    (hn : c.heap.1.lastPtr + 24 + roundUp16 n < 2 ^ 64)
    (hexec : c.exec interface (.malloc n) = some c') :
    ∃ d', Agree base id (Decodes base size) c' d' := by
  obtain ⟨h', heq, hdec, -, -⟩ := malloc_refines h.heap hn
  obtain ⟨c'', d', hc, -, hagree, -, -, -⟩ := h.malloc (I := interface)
    (J := FirstFit.interface base size) heq rfl hdec (le_roundUp16 n)
    (malloc_served base size n d.heap)
  obtain rfl : c'' = c' := Option.some.inj (hc.symm.trans hexec)
  exact ⟨d', hagree⟩

theorem agree_step (h : Agree base id (Decodes base size) c d)
    (hcond : sumsFit Prod.fst 24 c act = true) (hstep : c.step interface anyRules act = some c') :
    ∃ d', Agree base id (Decodes base size) c' d' := by
  obtain ⟨hact, hexec⟩ := Option.ite_none_right_eq_some.mp hstep
  -- what is not a request is as with requests up to the size of the region
  have hother : (∃ c'' d', c.exec interface act = some c'' ∧
      Agree base id (Decodes base size) c'' d') →
        ∃ d', Agree base id (Decodes base size) c' d' := by
    rintro ⟨c'', d', hc, hagree⟩
    obtain rfl : c'' = c' := Option.some.inj (hc.symm.trans hexec)
    exact ⟨d', hagree⟩
  cases act with
  | malloc n => exact agree_malloc h (of_decide_eq_true hcond) hexec
  | free p =>
    have hp : p ∈ c.live.map Prod.fst := by simpa [anyRules] using Client.allowed_free.mp hact
    obtain ⟨c'', d', hc, -, hagree, -⟩ := (simulates base size).exec_free h hp
    exact hother ⟨c'', d', hc, hagree⟩
  | reset =>
    obtain ⟨c'', d', hc, -, hagree⟩ := (simulates base size).exec_reset h
    exact hother ⟨c'', d', hc, hagree⟩
  | write q i v =>
    obtain ⟨y, hy, rfl, hi⟩ := Client.allowed_write.mp hact
    obtain ⟨c'', d', hc, -, hagree, -, -, -⟩ := (simulates base size).exec_write v h hy hi
    exact hother ⟨c'', d', hc, hagree⟩

/-- A request without a result changes nothing. -/
theorem allocMalloc_null {a a' : Allocator} {m m' : Memory}
    (h : allocMalloc a m n = some (0, a', m')) : (a', m') = (a, m) := by
  obtain ⟨⟨found, current⟩, -, heq⟩ := Option.map_eq_some_iff.mp h
  simp only at heq
  split_ifs at heq
  · exact (congrArg Prod.snd heq).symm
  · have := congrArg Prod.fst heq
    simp only at this
    omega
  · have := congrArg Prod.fst heq
    simp only at this
    omega

theorem agree_grants (h : Agree base id (Decodes base size) c d)
    (hn : c.heap.1.lastPtr + 24 + roundUp16 n < 2 ^ 64) :
    ∃ p h', interface.malloc n c.heap = some (p, h') ∧ Grants Prod.fst Prod.snd n c.heap p h' := by
  obtain ⟨h', heq, hdec, -, -⟩ := malloc_refines h.heap hn
  obtain ⟨hstart, hsize, -, htiled, -, -⟩ := h.heap
  refine ⟨_, h', heq, grants_of_served (malloc_served base size n d.heap) (le_roundUp16 n)
    hstart htiled.last.symm hdec.tiled ?_ ?_⟩
  · rw [hsize]
    exact hdec.room
  · intro hp
    rw [hp] at heq
    exact allocMalloc_null heq

theorem requests_safe {mmap : ℕ} {a a' : Allocator} (m : Memory) (hmapped : Mapped mmap size)
    (hinit : allocInit a size mmap = (0, a')) :
    RequestsSafe interface Prod.fst Prod.snd (a', m) (sumsFit Prod.fst 24) := by
  refine requestsSafe_of (Q := fun c => ∃ d, Agree mmap id (Decodes mmap size) c d)
    ⟨_, init_agree m hmapped hinit⟩ ?_ ?_
  · rintro c act c' ⟨d, h⟩ hcond hstep
    exact agree_step h hcond hstep
  · rintro c n ⟨d, h⟩ hcond
    exact agree_grants h (of_decide_eq_true hcond)

end Coalescing

namespace Explicit

variable {size : ℕ}

/-- No sum overflows, and no block without room for the links is given back alone. -/
def soundAction (c : Client (Allocator × State)) (act : Action) : Bool :=
  sumsFit Prod.fst 24 c act && roomToAct c act

theorem loose_grants {base n : ℕ} {c : Client (Allocator × State)} {d : Client Model}
    (h : Loose base size c d) (hn : c.heap.1.lastPtr + 24 + roundUp16 n < 2 ^ 64) :
    ∃ p h', interface.malloc n c.heap = some (p, h') ∧
      Grants Prod.fst (fun h => h.2.mem) n c.heap p h' := by
  have hround := add_lt_of_sum_lt hn
  rw [← roundUp_eq hround] at hn
  obtain ⟨h', heq, hrep, hserved, -, -⟩ := h.heap.malloc hn
  obtain ⟨hstart, hsize, hheap⟩ := h.heap
  obtain ⟨hstart', hsize', hheap'⟩ := hrep
  have hlast := hheap.tiled.last
  have htiled := hheap'.tiled
  have hroom := hheap'.room
  rw [hstart] at hlast
  rw [hstart'] at htiled hroom
  refine ⟨_, h', heq, grants_of_served hserved (roundUp_spec hround).1 hstart hlast.symm htiled
    ?_ ?_⟩
  · rw [hsize]
    rwa [hsize'] at hroom
  · intro hp
    rw [hp] at heq
    exact allocMalloc_null heq

theorem requests_safe {mmap : ℕ} {a a' : Allocator} {s s' : State} (hmapped : Mapped mmap size)
    (hhead : s.head = 0) (hinit : allocInit a s size mmap = (0, a', s')) :
    RequestsSafe interface Prod.fst (fun h => h.2.mem) (a', s') soundAction := by
  refine requestsSafe_of (Q := fun c => ∃ d, Loose mmap size c d)
    ⟨_, init_loose hmapped hhead hinit⟩ ?_ ?_
  · rintro c act c' ⟨d, h⟩ hcond hstep
    obtain ⟨hsums, hroom⟩ := Bool.and_eq_true_iff.mp hcond
    refine h.step rfl hstep ?_ hroom
    rintro n rfl
    have hsum : c.heap.1.lastPtr + 24 + roundUp16 n < 2 ^ 64 := of_decide_eq_true hsums
    have hround := add_lt_of_sum_lt hsum
    rw [roundUp_eq hround]
    exact ⟨le_roundUp16 n, hsum⟩
  · rintro c n ⟨d, h⟩ hcond
    exact loose_grants h (of_decide_eq_true (Bool.and_eq_true_iff.mp hcond).1)

end Explicit

/-- Requests of every size are safe along the runs in which no sum overflows; in the explicit
allocator, no block without room for the links may be given back alone. -/
theorem requests_safe_without_overflow {size mmap : ℕ} {a a' b b' e e' : Allocator}
    {s s' : Explicit.State} (m : Memory) (hmapped : Mapped mmap size)
    (himplicit : Implicit.allocInit a size mmap = (0, a'))
    (hcoalescing : Coalescing.allocInit b size mmap = (0, b')) (hhead : s.head = 0)
    (hexplicit : Explicit.allocInit e s size mmap = (0, e', s')) :
    RequestsSafe Implicit.interface Prod.fst Prod.snd (a', m) (sumsFit Prod.fst 16) ∧
    RequestsSafe Coalescing.interface Prod.fst Prod.snd (b', m) (sumsFit Prod.fst 24) ∧
    RequestsSafe Explicit.interface Prod.fst (fun h => h.2.mem) (e', s') Explicit.soundAction :=
  ⟨Implicit.requests_safe m hmapped himplicit, Coalescing.requests_safe m hmapped hcoalescing,
    Explicit.requests_safe hmapped hhead hexplicit⟩

/-- A page that was just mapped. -/
theorem requests_safe_page :
    RequestsSafe Implicit.interface Prod.fst Prod.snd (⟨4096, 4096, 4096⟩, fun _ => 0)
      (sumsFit Prod.fst 16) ∧
    RequestsSafe Coalescing.interface Prod.fst Prod.snd (⟨4096, 4096, 4096⟩, fun _ => 0)
      (sumsFit Prod.fst 24) ∧
    RequestsSafe Explicit.interface Prod.fst (fun h => h.2.mem) Explicit.pageInit.2
      Explicit.soundAction :=
  requests_safe_without_overflow (a := {}) (b := {}) (e := {}) (s := ⟨fun _ => 0, 0⟩) (fun _ => 0)
    Explicit.page_mapped rfl rfl rfl rfl

theorem not_safe_of_served {I : Interface σ} {ctl : σ → Allocator} {mem : σ → Memory} {heap : σ}
    {p : ℕ} (hserved : (I.malloc (2 ^ 64 - 1) heap).map Prod.fst = some p) (hp : p ≠ 0)
    (hlt : (ctl heap).startPtr + (ctl heap).size < 2 ^ 63) :
    ¬ RequestsSafe I ctl mem heap (fun _ _ => true) := by
  intro h
  obtain ⟨q, h', heq, hgiven, -⟩ := h { heap } ⟨[], rfl⟩ (2 ^ 64 - 1) (by omega) rfl
  simp only at heq hgiven
  rw [heq] at hserved
  obtain rfl : q = p := Option.some.inj hserved
  rcases hgiven with ⟨hzero, -⟩ | ⟨-, -, hsize, hend⟩
  · exact hp hzero
  · omega

/-- The largest request is rounded to zero; on a page that was just mapped it is served. -/
theorem largest_not_safe :
    ¬ RequestsSafe Implicit.interface Prod.fst Prod.snd (⟨4096, 4096, 4096⟩, fun _ => 0)
      (fun _ _ => true) ∧
    ¬ RequestsSafe Coalescing.interface Prod.fst Prod.snd (⟨4096, 4096, 4096⟩, fun _ => 0)
      (fun _ _ => true) ∧
    ¬ RequestsSafe Explicit.interface Prod.fst (fun h => h.2.mem) Explicit.pageInit.2
      (fun _ _ => true) := by
  refine ⟨?_, ?_, ?_⟩
  · exact not_safe_of_served (p := 4112) (by decide +kernel) (by decide) (by decide)
  · exact not_safe_of_served (p := 4112) (by decide +kernel) (by decide) (by decide)
  · exact not_safe_of_served (p := 4112) (by decide +kernel) (by decide) (by decide)

end LowLevel.Allocators
