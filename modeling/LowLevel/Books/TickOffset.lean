import LowLevel.Books.Refinement
import LowLevel.Foundations.DoublyLinked

/-! # The tick offset book

Each side is an array of price levels; a level in use holds a doubly linked
list of blocks in arrival order. An index caches the best level in use, a table
finds the block of an id. `unlink` does not maintain the end pointers of a
level: every caller repairs them on its own. Levels are read inside the array
only, and a null level is never followed.
-/

namespace LowLevel.Books

open DoublyLinked Ladder

/-- One side of `OrderBook_TickOffset`. -/
structure TickSide where
  heap : Heap Order := fun _ => none
  keys : ℕ → Option ℕ := fun _ => none
  buffer : ℕ → Option Ends := fun _ => none
  best : ℕ

namespace TickSide

def vacant (Size : ℕ) : Side → ℕ
  | .buy => 0
  | .sell => Size

/-- Whether a best index names a level in use. The top of the book asks for
`!= Size` instead of `< Size`, which is the same for an index that never
exceeds `Size`. -/
def inUse (Size : ℕ) : Side → ℕ → Bool
  | .buy, best => decide (0 < best)
  | .sell, best => decide (best < Size)

def advance : Side → ℕ → ℕ
  | .buy, best => best - 1
  | .sell, best => best + 1

def improve (Size : ℕ) : Side → ℕ → ℕ → ℕ
  | .buy, best, price => if best = 0 then price else max best price
  | .sell, best, price => if best = Size then price else min best price

/-- Read a level pointer, whose index must lie inside the array. -/
def level (Size : ℕ) (s : TickSide) (p : ℕ) : Option (Option Ends) :=
  if p < Size then some (s.buffer p) else none

/-- Write a level pointer, whose index must lie inside the array. -/
def setLevel (Size : ℕ) (s : TickSide) (p : ℕ) (e : Option Ends) : Option TickSide :=
  if p < Size then some { s with buffer := Function.update s.buffer p e } else none

def list (Size : ℕ) (s : TickSide) (p : ℕ) : Option Ends := (s.level Size p).join

def storeNext (s : TickSide) (i : ℕ) (next : Option ℕ) : Option TickSide :=
  (s.heap i).map fun _ => { s with heap := setNext s.heap i next }

def storePrev (s : TickSide) (i : ℕ) (prev : Option ℕ) : Option TickSide :=
  (s.heap i).map fun _ => { s with heap := setPrev s.heap i prev }

def linkNext (s : TickSide) (prev next : Option ℕ) : Option TickSide :=
  match prev with
  | some p => s.storeNext p next
  | none => some s

def linkPrev (s : TickSide) (next prev : Option ℕ) : Option TickSide :=
  match next with
  | some n => s.storePrev n prev
  | none => some s

def unlink (s : TickSide) (n : ℕ) : Option TickSide := do
  let block ← s.heap n
  let s ← s.linkNext block.prev block.next
  let block ← s.heap n
  let s ← s.linkPrev block.next block.prev
  let s ← s.storePrev n none
  s.storeNext n none

/-- `delete` of a block. -/
def delete (s : TickSide) (n : ℕ) : Option TickSide :=
  (s.heap n).map fun _ => { s with heap := Function.update s.heap n none }

/-- The loop that moves the best index off levels that are not in use. -/
def scan (Size : ℕ) (side : Side) (s : TickSide) : ℕ → ℕ → Option ℕ
  | 0, _ => none
  | fuel + 1, best =>
    if inUse Size side best then do
      match ← s.level Size best with
      | none => scan Size side s fuel (advance side best)
      | some _ => some best
    else some best

def rescan (Size : ℕ) (side : Side) (s : TickSide) : Option TickSide := do
  let best ← scan Size side s (Size + 1) s.best
  some { s with best }

def head (Size : ℕ) (s : TickSide) : Option (ℕ × Node Order) := do
  let n ← (← s.list Size s.best).head
  let block ← s.heap n
  some (n, block)

def insert (Size : ℕ) (side : Side) (s : TickSide) (node : ℕ) (order : Order) :
    Option TickSide := do
  let s := { s with heap := Function.update s.heap node (some ⟨order, none, none⟩) }
  let s ← match ← s.level Size order.price with
    | none => s.setLevel Size order.price (some ⟨some node, some node⟩)
    | some lst => do
      let s ← s.storePrev node lst.tail
      let s ← s.storeNext node none
      let s ← s.storeNext (← lst.tail) (some node)
      s.setLevel Size order.price (some { lst with tail := some node })
  some { s with
    best := improve Size side s.best order.price
    keys := Function.update s.keys order.id (some node) }

def pop (Size : ℕ) (side : Side) (s : TickSide) : Option TickSide := do
  let (n, block) ← s.head Size
  let s := { s with keys := Function.update s.keys block.val.id none }
  let s ← match block.next with
    | none => s.setLevel Size s.best none
    | some next => do
      let s ← s.setLevel Size s.best (some { ← s.list Size s.best with head := some next })
      s.storePrev next none
  let s ← s.unlink n
  let s ← s.delete n
  s.rescan Size side

/-- Repair the level of a block that is about to be cancelled. -/
def repair (Size : ℕ) (s : TickSide) (block : Node Order) : Option TickSide :=
  match block.prev, block.next with
  | none, none => s.setLevel Size block.val.price none
  | prev, none => do
    s.setLevel Size block.val.price (some { ← s.list Size block.val.price with tail := prev })
  | none, next => do
    s.setLevel Size block.val.price (some { ← s.list Size block.val.price with head := next })
  | _, _ => some s

def cancel (Size : ℕ) (side : Side) (s : TickSide) (id : ℕ) : Option (Option TickSide) :=
  match s.keys id with
  | none => some none
  | some n => do
    let block ← s.heap n
    let s ← s.repair Size block
    let s ← s.unlink n
    let block ← s.heap n
    let s := { s with keys := Function.update s.keys block.val.id none }
    let s ← s.delete n
    some (← s.rescan Size side)

def resize (Size : ℕ) (s : TickSide) (size : ℕ) : Option TickSide :=
  (s.head Size).map fun (n, block) =>
    { s with heap := setVal s.heap n { block.val with size } }

def ops (Size : ℕ) (side : Side) : SideOps TickSide where
  waiting s := inUse Size side s.best
  price s := some s.best
  front s := (s.head Size).map fun r => r.2.val
  resize := resize Size
  pop := pop Size side
  insert := insert Size side
  cancel := cancel Size side

end TickSide

/-- `counter++`: the id of a new order is the counter before it. -/
def postIncrement (counter : ℕ) : ℕ × ℕ := (counter, (counter + 1) % 2 ^ 64)

/-- An unmatched market order rests at the highest or the lowest price of the array. -/
def tickMarketPrice (Size : ℕ) : Side → ℕ
  | .buy => Size - 1
  | .sell => 1

def tickOffset (Size : ℕ) : BookClass TickSide where
  ops := TickSide.ops Size
  init side := { best := TickSide.vacant Size side }
  accepts price := !(price = 0 || Size ≤ price)
  issue := postIncrement
  marketPrice := tickMarketPrice Size

namespace TickSide

variable {Size : ℕ} {s : TickSide} {l : Ladder} {side : Side} {ids : ℕ → ℕ} {q : ℕ → Prop}
  {n : ℕ} {r : ℕ × Order} {rows rows₁ rows₂ : List (ℕ × Order)}

def atPrice (rows : List (ℕ × Order)) (p : ℕ) : List (ℕ × Order) :=
  rows.filter fun r => r.2.price = p

/-- A level is null without orders and otherwise a list of its orders. -/
def Level (h : Heap Order) : Option Ends → List (ℕ × Order) → Prop
  | none, rows => rows = []
  | some e, rows => rows ≠ [] ∧ IsList h e rows

/-- The price of the first row, or the index of a side without orders. -/
def bestPrice (Size : ℕ) (side : Side) : List (ℕ × Order) → ℕ
  | [] => vacant Size side
  | r :: _ => r.2.price

structure Rep (Size : ℕ) (side : Side) (s : TickSide) (l : Ladder) : Prop where
  levels : ∀ p, Level s.heap (s.buffer p) (atPrice l.rows p)
  prices : ∀ r ∈ l.rows, 0 < r.2.price ∧ r.2.price < Size
  best : s.best = bestPrice Size side l.rows
  keys : s.keys = l.keys

theorem level_eq {p : ℕ} (hp : p < Size) : s.level Size p = some (s.buffer p) := if_pos hp

theorem setLevel_eq {p : ℕ} (hp : p < Size) (e : Option Ends) :
    s.setLevel Size p e = some { s with buffer := Function.update s.buffer p e } := if_pos hp

theorem storeNext_eq {i : ℕ} (hi : (s.heap i).isSome) (next : Option ℕ) :
    s.storeNext i next = some { s with heap := setNext s.heap i next } := by
  obtain ⟨block, hblock⟩ := Option.isSome_iff_exists.mp hi
  rw [storeNext, hblock]
  rfl

theorem storePrev_eq {i : ℕ} (hi : (s.heap i).isSome) (prev : Option ℕ) :
    s.storePrev i prev = some { s with heap := setPrev s.heap i prev } := by
  obtain ⟨block, hblock⟩ := Option.isSome_iff_exists.mp hi
  rw [storePrev, hblock]
  rfl

theorem linkNext_eq (prev next : Option ℕ) (h : ∀ i, prev = some i → (s.heap i).isSome) :
    s.linkNext prev next = some { s with heap := relinkNext s.heap prev next } := by
  cases prev with
  | none => rfl
  | some p => exact storeNext_eq (h p rfl) next

theorem linkPrev_eq (next prev : Option ℕ) (h : ∀ i, next = some i → (s.heap i).isSome) :
    s.linkPrev next prev = some { s with heap := relinkPrev s.heap next prev } := by
  cases next with
  | none => rfl
  | some n => exact storePrev_eq (h n rfl) prev

theorem setNext_setPrev (h : Heap Order) (i : ℕ) (prev next : Option ℕ) :
    setNext (setPrev h i prev) i next = setPrev (setNext h i next) i prev := by
  simp [setNext, setPrev, Function.comp_def]

theorem unlink_eq {order : Order} {prev next : Option ℕ}
    (hn : s.heap n = some ⟨order, prev, next⟩)
    (hprev : ∀ i, prev = some i → i ≠ n ∧ (s.heap i).isSome)
    (hnext : ∀ i, next = some i → i ≠ n ∧ (s.heap i).isSome) :
    s.unlink n = some { s with heap := unlinkHeap s.heap n prev next } := by
  have hn₁ : relinkNext s.heap prev next n = some ⟨order, prev, next⟩ := by
    rw [relinkNext_of_ne _ fun h => (hprev n h).1 rfl, hn]
  have hn₂ : relinkPrev (relinkNext s.heap prev next) next prev n = some ⟨order, prev, next⟩ := by
    rw [relinkPrev_of_ne _ fun h => (hnext n h).1 rfl, hn₁]
  have h₁ := linkNext_eq prev next fun i hi => (hprev i hi).2
  have h₂ := linkPrev_eq (s := { s with heap := relinkNext s.heap prev next }) next prev
    fun i hi => isSome_relinkNext (hnext i hi).2
  simp only [unlink, hn, Option.bind_eq_bind, Option.bind_some, h₁, hn₁, h₂]
  rw [storePrev_eq (by simp [hn₂]), Option.bind_some, storeNext_eq (by simp [setPrev, hn₂]),
    setNext_setPrev]
  rfl

theorem atPrice_append (p : ℕ) :
    atPrice (rows₁ ++ rows₂) p = atPrice rows₁ p ++ atPrice rows₂ p := List.filter_append ..

theorem atPrice_cons_self : atPrice (r :: rows) r.2.price = r :: atPrice rows r.2.price :=
  List.filter_cons_of_pos (by simp)

theorem atPrice_cons_of_ne {p : ℕ} (h : r.2.price ≠ p) : atPrice (r :: rows) p = atPrice rows p :=
  List.filter_cons_of_neg (by simpa using h)

theorem mem_atPrice {p : ℕ} : r ∈ atPrice rows p ↔ r ∈ rows ∧ r.2.price = p := by
  simp [atPrice]

theorem Level.frame {h h' : Heap Order} {e : Option Ends} (hl : Level h e rows)
    (hh : ∀ i ∈ rows.map Prod.fst, h' i = h i) : Level h' e rows := by
  cases e with
  | none => exact hl
  | some e => exact ⟨hl.1, hl.2.frame hh⟩

theorem Level.of_ne_nil {h : Heap Order} {e : Option Ends} (hl : Level h e rows)
    (hne : rows ≠ []) : ∃ e', e = some e' ∧ IsList h e' rows := by
  cases e with
  | none => exact absurd hl hne
  | some e => exact ⟨e, rfl, hl.2⟩

theorem address_ne (hn : (rows.map Prod.fst).Nodup) {p p' i : ℕ} (hp : p ≠ p')
    (hi : i ∈ (atPrice rows p).map Prod.fst) : i ∉ (atPrice rows p').map Prod.fst := by
  intro hi'
  obtain ⟨x, hx, rfl⟩ := List.mem_map.mp hi
  obtain ⟨y, hy, he⟩ := List.mem_map.mp hi'
  obtain ⟨hxr, hxp⟩ := mem_atPrice.mp hx
  obtain ⟨hyr, hyp⟩ := mem_atPrice.mp hy
  exact hp (by rw [← hxp, ← hyp, List.inj_on_of_nodup_map hn hyr hxr he])

theorem level_of_row {h : Heap Order} {buffer : ℕ → Option Ends}
    (hl : ∀ p, Level h (buffer p) (atPrice (rows₁ ++ r :: rows₂) p)) :
    ∃ e, buffer r.2.price = some e ∧
      IsList h e (atPrice rows₁ r.2.price ++ r :: atPrice rows₂ r.2.price) := by
  have hr := hl r.2.price
  rw [atPrice_append, atPrice_cons_self] at hr
  exact hr.of_ne_nil (by simp)

/-- The end pointers of a level after a block with the given neighbours left it. -/
def endsWithout (e : Ends) (prev next : Option ℕ) : Option Ends :=
  if prev = none ∧ next = none then none else some (unlinkEnds e prev next)

theorem levels_remove {h : Heap Order} {buffer : ℕ → Option Ends} {e : Ends}
    (hl : ∀ p, Level h (buffer p) (atPrice (rows₁ ++ r :: rows₂) p))
    (hn : ((rows₁ ++ r :: rows₂).map Prod.fst).Nodup)
    (he : IsList h e (atPrice rows₁ r.2.price ++ r :: atPrice rows₂ r.2.price)) (p : ℕ) :
    Level (Function.update (unlinkHeap h r.1 (last none (atPrice rows₁ r.2.price))
        (first (atPrice rows₂ r.2.price) none)) r.1 none)
      (Function.update buffer r.2.price (endsWithout e (last none (atPrice rows₁ r.2.price))
        (first (atPrice rows₂ r.2.price) none)) p) (atPrice (rows₁ ++ rows₂) p) := by
  by_cases hp : p = r.2.price
  · subst hp
    rw [Function.update_self, atPrice_append, endsWithout]
    split
    · rename_i hnil
      rw [last_eq_none, first_eq_none] at hnil
      simp [Level, hnil]
    · rename_i hnil
      rw [last_eq_none, first_eq_none] at hnil
      have hr : r.1 ∉ (atPrice rows₁ r.2.price ++ atPrice rows₂ r.2.price).map Prod.fst := by
        have hnd := he.nodup
        rw [List.map_append, List.map_cons, List.nodup_middle, List.nodup_cons,
          ← List.map_append] at hnd
        exact hnd.1
      refine ⟨by simpa using hnil, he.unlink.frame fun i hi => Function.update_of_ne ?_ ..⟩
      rintro rfl
      exact hr hi
  · have hlp := hl p
    have hsame : atPrice (rows₁ ++ r :: rows₂) p = atPrice (rows₁ ++ rows₂) p := by
      rw [atPrice_append, atPrice_cons_of_ne (Ne.symm hp), atPrice_append]
    rw [Function.update_of_ne hp, ← hsame]
    refine hlp.frame fun i hi => ?_
    have hi' := address_ne hn hp hi
    rw [atPrice_append, atPrice_cons_self] at hi'
    have hir : i ≠ r.1 := by
      rintro rfl
      simp at hi'
    rw [Function.update_of_ne hir]
    exact unlinkHeap_of_notMem hi'

/-- How far a best index is from the index of a side without orders. -/
def remaining (Size : ℕ) : Side → ℕ → ℕ
  | .buy, best => best
  | .sell, best => Size - best

/-- An index from which a scan can start: inside the array, or the one of a side
without orders. -/
def InArray (Size : ℕ) (side : Side) (best : ℕ) : Prop := best < Size ∨ best = vacant Size side

theorem inUse_iff (h : InArray Size side n) : inUse Size side n = true ↔ n ≠ vacant Size side := by
  cases side <;> simp [InArray, inUse, vacant] at * <;> omega

theorem lt_of_inUse (h : InArray Size side n) (hu : inUse Size side n) : n < Size := by
  cases side <;> simp [InArray, inUse, vacant] at * <;> omega

theorem advance_inArray (h : InArray Size side n) (hu : inUse Size side n) :
    InArray Size side (advance side n) ∧
      remaining Size side (advance side n) < remaining Size side n := by
  cases side <;> simp [InArray, inUse, vacant, advance, remaining] at * <;> omega

theorem better_advance {p : ℕ} (h : side.better p n = false) (hne : p ≠ n) :
    side.better p (advance side n) = false := by
  cases side with
  | buy =>
    have := of_decide_eq_false h
    exact decide_eq_false (by simp only [advance]; omega)
  | sell =>
    have := of_decide_eq_false h
    exact decide_eq_false (by simp only [advance]; omega)

theorem better_vacant {p : ℕ} (hp : 0 < p ∧ p < Size) :
    side.better p (vacant Size side) = true := by
  cases side with
  | buy => exact decide_eq_true hp.1
  | sell => exact decide_eq_true hp.2

theorem bestPrice_eq (hs : rows.Pairwise (Ahead side)) (hr : r ∈ rows)
    (hbest : ∀ r' ∈ rows, side.better r'.2.price r.2.price = false) :
    bestPrice Size side rows = r.2.price := by
  cases rows with
  | nil => simp at hr
  | cons r₀ rows =>
    rcases List.mem_cons.mp hr with rfl | hr
    · rfl
    · have h₀ := hbest r₀ (List.mem_cons_self ..)
      rcases (List.pairwise_cons.mp hs).1 r hr with hb | ⟨he, -⟩
      · simp [h₀] at hb
      · exact he

theorem scan_eq (hl : ∀ p, Level s.heap (s.buffer p) (atPrice rows p))
    (hs : rows.Pairwise (Ahead side)) (hprices : ∀ r ∈ rows, 0 < r.2.price ∧ r.2.price < Size)
    {fuel best : ℕ} (hbest : ∀ r ∈ rows, side.better r.2.price best = false)
    (hin : InArray Size side best) (hf : remaining Size side best < fuel) :
    scan Size side s fuel best = some (bestPrice Size side rows) := by
  induction fuel generalizing best with
  | zero => omega
  | succ fuel ih =>
    rw [scan]
    by_cases huse : inUse Size side best
    · simp only [huse, if_true, level_eq (lt_of_inUse hin huse), Option.bind_eq_bind,
        Option.bind_some]
      have hlevel := hl best
      cases hb : s.buffer best with
      | none =>
        rw [hb] at hlevel
        obtain ⟨hin', hlt⟩ := advance_inArray hin huse
        refine ih (fun r hr => better_advance (hbest r hr) fun he => ?_) hin' (by omega)
        have hmem := mem_atPrice.mpr ⟨hr, he⟩
        rw [show atPrice rows best = [] from hlevel] at hmem
        simp at hmem
      | some e =>
        rw [hb] at hlevel
        obtain ⟨r, hmem⟩ := List.exists_mem_of_ne_nil _ hlevel.1
        obtain ⟨hr, rfl⟩ := mem_atPrice.mp hmem
        rw [bestPrice_eq hs hr hbest]
    · have hvacant : best = vacant Size side := by
        by_contra hne
        exact huse ((inUse_iff hin).mpr hne)
      have hnil : rows = [] := by
        refine List.eq_nil_iff_forall_not_mem.mpr fun r hr => ?_
        have hb := hbest r hr
        rw [hvacant, better_vacant (hprices r hr)] at hb
        simp at hb
      rw [if_neg huse, hnil, hvacant]
      rfl

theorem rescan_eq (hl : ∀ p, Level s.heap (s.buffer p) (atPrice rows p))
    (hs : rows.Pairwise (Ahead side)) (hprices : ∀ r ∈ rows, 0 < r.2.price ∧ r.2.price < Size)
    (hbest : ∀ r ∈ rows, side.better r.2.price s.best = false)
    (hin : InArray Size side s.best) :
    s.rescan Size side = some { s with best := bestPrice Size side rows } := by
  have hf : remaining Size side s.best < Size + 1 := by
    cases side with
    | buy => simp only [remaining, InArray, vacant] at *; omega
    | sell => simp only [remaining]; omega
  rw [rescan, scan_eq hl hs hprices hbest hin hf]
  rfl

theorem Rep.best_le (h : Rep Size side s l) (hs : l.rows.Pairwise (Ahead side)) :
    (∀ r ∈ l.rows, side.better r.2.price s.best = false) ∧ InArray Size side s.best := by
  have hbest := h.best
  have hprices := h.prices
  cases hl : l.rows with
  | nil =>
    rw [hl] at hbest
    exact ⟨by simp, .inr hbest⟩
  | cons r₀ rows =>
    rw [hl] at hbest hs hprices
    refine ⟨fun r hr => ?_, .inl ?_⟩
    · rw [hbest, bestPrice]
      rcases List.mem_cons.mp hr with rfl | hr
      · cases side <;> simp [Side.better]
      · rcases (List.pairwise_cons.mp hs).1 r hr with hb | ⟨he, -⟩
        · cases side <;> simp [Side.better] at hb ⊢ <;> omega
        · cases side <;> simp [Side.better, he]
    · rw [hbest]
      exact (hprices r₀ (List.mem_cons_self ..)).2

theorem unlink_isList {e : Ends} (h : IsList s.heap e (rows₁ ++ r :: rows₂)) :
    s.unlink r.1 =
      some { s with heap := unlinkHeap s.heap r.1 (last none rows₁) (first rows₂ none) } := by
  obtain ⟨hp, hn, -⟩ := h.neighbours
  refine unlink_eq h.get (fun i hi => ⟨?_, ?_⟩) (fun i hi => ⟨?_, ?_⟩)
  · rintro rfl
    exact hp hi
  · exact Option.isSome_iff_exists.mpr
      (h.exists_of_mem (by simpa using .inl (by simpa using last_mem hi)))
  · rintro rfl
    exact hn hi
  · exact Option.isSome_iff_exists.mpr
      (h.exists_of_mem (by simpa using .inr (.inr (by simpa using first_mem hi))))

theorem rescan_removed (hi : Inv side ids q n l) (h : Rep Size side s l)
    (hl : l.rows = rows₁ ++ r :: rows₂) {e : Ends}
    (he : IsList s.heap e (atPrice rows₁ r.2.price ++ r :: atPrice rows₂ r.2.price))
    (keys : ℕ → Option ℕ) :
    ∃ s', (⟨Function.update (unlinkHeap s.heap r.1 (last none (atPrice rows₁ r.2.price))
          (first (atPrice rows₂ r.2.price) none)) r.1 none, keys,
        Function.update s.buffer r.2.price (endsWithout e (last none (atPrice rows₁ r.2.price))
          (first (atPrice rows₂ r.2.price) none)), s.best⟩ : TickSide).rescan Size side = some s' ∧
      Rep Size side s' ⟨rows₁ ++ rows₂, keys⟩ := by
  have hsub : (rows₁ ++ rows₂).Sublist l.rows := by
    rw [hl]
    exact (List.sublist_cons_self _ _).append_left _
  have hlevels := levels_remove (hl ▸ h.levels) (hl ▸ hi.nodup) he
  obtain ⟨hbest, hin⟩ := h.best_le hi.sorted
  have hprices : ∀ r ∈ rows₁ ++ rows₂, 0 < r.2.price ∧ r.2.price < Size := fun r hr =>
    h.prices r (hsub.mem hr)
  refine ⟨_, rescan_eq hlevels (hi.sorted.sublist hsub) hprices (fun r hr => ?_) hin, ?_⟩
  · exact hbest r (hsub.mem hr)
  · exact ⟨hlevels, hprices, rfl, rfl⟩

theorem repair_eq (block : Node Order) {e : Ends} (hp : block.val.price < Size)
    (he : s.buffer block.val.price = some e) :
    s.repair Size block = some { s with
      buffer := Function.update s.buffer block.val.price
        (endsWithout e block.prev block.next) } := by
  obtain ⟨order, prev, next⟩ := block
  have hlist : s.list Size order.price = some e := by
    rw [list, level_eq hp, he]
    rfl
  cases prev with
  | none =>
    cases next with
    | none => simp [repair, setLevel_eq hp, endsWithout]
    | some i => simp [repair, setLevel_eq hp, endsWithout, hlist, unlinkEnds]
  | some j =>
    cases next with
    | none => simp [repair, setLevel_eq hp, endsWithout, hlist, unlinkEnds]
    | some i =>
      have hsame : Function.update s.buffer order.price (some e) = s.buffer := by
        rw [← he, Function.update_eq_self]
      simp [repair, endsWithout, unlinkEnds, hsame]

theorem head_eq (h : Rep Size side s l) (hl : l.rows = r :: rows) :
    ∃ e, s.list Size s.best = some e ∧ s.buffer r.2.price = some e ∧ s.best = r.2.price ∧
      IsList s.heap e ([] ++ r :: atPrice rows r.2.price) ∧
      s.head Size = some (r.1, ⟨r.2, none, first (atPrice rows r.2.price) none⟩) := by
  have hbest : s.best = r.2.price := by rw [h.best, hl]; rfl
  have hp := (h.prices r (by simp [hl])).2
  have hl' : l.rows = [] ++ r :: rows := hl
  obtain ⟨e, he, hlist⟩ := level_of_row (hl' ▸ h.levels)
  have hget : s.list Size s.best = some e := by
    rw [list, hbest, level_eq hp, he]
    rfl
  have hhead : e.head = some r.1 := by rw [hlist.head]; rfl
  have hcell := hlist.get
  refine ⟨e, hget, he, hbest, hlist, ?_⟩
  simp only [head, hget, Option.bind_eq_bind, Option.bind_some, hhead, hcell]
  rfl

theorem setPrev_setPrev (h : Heap Order) (i : ℕ) (prev : Option ℕ) :
    setPrev (setPrev h i prev) i prev = setPrev h i prev := by
  simp [setPrev, Function.comp_def]

theorem pop_eq (h : Rep Size side s l) (hl : l.rows = r :: rows) :
    ∃ e, IsList s.heap e ([] ++ r :: atPrice rows r.2.price) ∧ s.pop Size side =
      (⟨Function.update (unlinkHeap s.heap r.1 none (first (atPrice rows r.2.price) none)) r.1 none,
        Function.update s.keys r.2.id none,
        Function.update s.buffer r.2.price
          (endsWithout e none (first (atPrice rows r.2.price) none)),
        s.best⟩ : TickSide).rescan Size side := by
  obtain ⟨e, hget, he, hbest, hlist, hhead⟩ := head_eq h hl
  refine ⟨e, hlist, ?_⟩
  have hp : s.best < Size := hbest ▸ (h.prices r (by simp [hl])).2
  have hcell := hlist.get
  have hself := hlist.unlinkHeap_self
  rw [← hbest] at hlist hhead hcell hself ⊢
  cases hrest : atPrice rows s.best with
  | nil =>
    rw [hrest] at hhead hcell hself
    have hunlink := unlink_eq (s := ⟨s.heap, Function.update s.keys r.2.id none,
      Function.update s.buffer s.best none, s.best⟩) hcell (by simp) (by simp)
    simp only [last_nil, first_nil] at hself hunlink
    simp only [pop, hhead, Option.bind_eq_bind, Option.bind_some, first_nil, setLevel_eq hp,
      hunlink, delete, hself, Option.map_some, endsWithout, and_self, if_true]
  | cons b rest =>
    rw [hrest] at hhead hcell hself hlist
    have hb : b.1 ≠ r.1 := by
      have hn := hlist.nodup
      simp only [List.nil_append, List.map_cons, List.nodup_cons, List.mem_cons, not_or] at hn
      exact Ne.symm hn.1.1
    have hsome : (s.heap b.1).isSome :=
      Option.isSome_iff_exists.mpr (hlist.exists_of_mem (by simp))
    have hprev := storePrev_eq (s := ⟨s.heap, Function.update s.keys r.2.id none,
      Function.update s.buffer s.best (some { e with head := some b.1 }), s.best⟩) hsome none
    have hcell' : setPrev s.heap b.1 none r.1 = some ⟨r.2, none, some b.1⟩ := by
      rw [setPrev_of_ne _ (Ne.symm hb), hcell]
      rfl
    have hunlink := unlink_eq (s := ⟨setPrev s.heap b.1 none, Function.update s.keys r.2.id none,
      Function.update s.buffer s.best (some { e with head := some b.1 }), s.best⟩) hcell' (by simp)
      (by
        rintro i ⟨⟩
        exact ⟨hb, by simpa [setPrev] using hsome⟩)
    -- the backward link of the new head is cleared twice
    have htwice : unlinkHeap (setPrev s.heap b.1 none) r.1 none (some b.1) =
        unlinkHeap s.heap r.1 none (some b.1) := by
      simp only [unlinkHeap, relinkNext, relinkPrev, setPrev_setPrev]
    rw [htwice] at hunlink
    simp only [last_nil, first_cons] at hself hhead
    have hget' : list Size ⟨s.heap, Function.update s.keys r.2.id none, s.buffer, s.best⟩ s.best =
        some e := hget
    simp only [pop, hhead, Option.bind_eq_bind, Option.bind_some, hget', setLevel_eq hp, hprev,
      hunlink, delete, hself, Option.map_some, first_cons, endsWithout, unlinkEnds]
    simp

/-- Only the first row of the best level gets another size. -/
theorem resize_rep (size : ℕ) (hi : Inv side ids q n l) (h : Rep Size side s l)
    (hl : l.rows = r :: rows) : ∃ s', (ops Size side).resize s size = some s' ∧
      Rep Size side s' { l with rows := (r.1, { r.2 with size }) :: rows } := by
  obtain ⟨e, -, he, hbest, hlist, hhead⟩ := head_eq h hl
  refine ⟨{ s with heap := setVal s.heap r.1 { r.2 with size } }, ?_, ?_, ?_, hbest, h.keys⟩
  · simp [ops, resize, hhead]
  · intro p
    by_cases hp : r.2.price = p
    · subst hp
      rw [he, show atPrice ((r.1, { r.2 with size }) :: rows) r.2.price =
        (r.1, { r.2 with size }) :: atPrice rows r.2.price from List.filter_cons_of_pos (by simp)]
      exact ⟨by simp, hlist.setVal _⟩
    · have hlevel := h.levels p
      rw [hl, atPrice_cons_of_ne hp] at hlevel
      rw [show atPrice ((r.1, { r.2 with size }) :: rows) p = atPrice rows p from
        List.filter_cons_of_neg (by simpa using hp)]
      refine hlevel.frame fun i hi' => setVal_of_ne _ ?_ _
      have hn := hi.nodup
      rw [hl, List.map_cons, List.nodup_cons] at hn
      rintro rfl
      exact hn.1 ((List.filter_sublist.map _).mem hi')
  · have hprices := h.prices
    rw [hl] at hprices
    simpa using hprices

theorem represents (Size : ℕ) (side : Side) :
    Represents (ops Size side) side ids q (Rep Size side) where
  waiting {n s l} hi h := by
    have hin := (h.best_le hi.sorted).2
    cases hl : l.rows with
    | nil =>
      have hv : s.best = vacant Size side := by rw [h.best, hl]; rfl
      have : inUse Size side s.best = false := by simpa [hv] using (inUse_iff hin).not
      simpa [ops] using this
    | cons r rows =>
      have hb : s.best = r.2.price := by rw [h.best, hl]; rfl
      have hp := h.prices r (by simp [hl])
      have : inUse Size side s.best = true := by
        rw [inUse_iff hin, hb]
        cases side <;> simp [vacant] <;> omega
      simpa [ops] using this
  price {n s l r rows} _ h hl := by
    have hb : s.best = r.2.price := by rw [h.best, hl]; rfl
    simp [ops, hb]
  front _ h hl := by
    obtain ⟨e, -, -, -, -, hhead⟩ := head_eq h hl
    simp [ops, hhead]
  resize size hi h hl := resize_rep size hi h hl
  pop {n s l r rows} hi h hl := by
    obtain ⟨e, hlist, hpop⟩ := pop_eq h hl
    have hl' : l.rows = [] ++ r :: rows := hl
    obtain ⟨s', hs', hr'⟩ := rescan_removed hi h hl' hlist
      (Function.update s.keys r.2.id none)
    exact ⟨s', hpop.trans hs', by rwa [h.keys] at hr'⟩
  unknown _ h hk := by simp [ops, cancel, h.keys, hk]
  cancel {n s l i m} hi h hk := by
    obtain ⟨rfl, hm⟩ := hi.sound hk
    obtain ⟨r, hr, rfl⟩ := List.mem_map.mp hm
    obtain ⟨rows₁, rows₂, hl⟩ := List.append_of_mem hr
    obtain ⟨e, he, hlist⟩ := level_of_row (hl ▸ h.levels)
    obtain ⟨s', hs', hr'⟩ := rescan_removed hi h hl hlist (Function.update s.keys (ids r.1) none)
    refine ⟨s', ?_, ?_⟩
    · have hrepair := repair_eq (s := s) ⟨r.2, last none (atPrice rows₁ r.2.price),
        first (atPrice rows₂ r.2.price) none⟩ (h.prices r hr).2 he
      have hunlink := unlink_isList (s := { s with
        buffer := Function.update s.buffer r.2.price (endsWithout e
          (last none (atPrice rows₁ r.2.price)) (first (atPrice rows₂ r.2.price) none)) }) hlist
      have hself := hlist.unlinkHeap_self
      rw [← h.keys] at hk
      simp only [ops, cancel, hk, Option.bind_eq_bind, hlist.get, Option.bind_some, hrepair,
        hunlink, hself, delete, Option.map_some, hi.idOf r hr, hs']
      rfl
    · rw [h.keys] at hr'
      rwa [hl, filter_row (hl ▸ hi.nodup)]

theorem atPrice_insert (hi : Inv side ids q n l) (order : Order) (p : ℕ) :
    atPrice (l.insert side n order).rows p =
      if p = order.price then atPrice l.rows p ++ [(n, order)] else atPrice l.rows p := by
  have hsplit : atPrice l.rows p = atPrice (l.rows.takeWhile (stays side order.price)) p ++
      atPrice (l.rows.dropWhile (stays side order.price)) p := by
    rw [← atPrice_append, List.takeWhile_append_dropWhile]
  rw [Ladder.insert, atPrice_append]
  split
  · rename_i hp
    subst hp
    have hnil : atPrice (l.rows.dropWhile (stays side order.price)) order.price = [] := by
      refine List.filter_eq_nil_iff.mpr fun r hr => ?_
      have hb := better_of_mem_dropWhile hi.sorted hr
      rintro he
      rw [of_decide_eq_true he] at hb
      cases side <;> simp [Side.better] at hb
    rw [hsplit, hnil, List.append_nil]
    congr 1
    exact (List.filter_cons_of_pos (by simp)).trans (by rw [← atPrice, hnil])
  · rename_i hp
    rw [atPrice_cons_of_ne fun he => hp he.symm, hsplit]

theorem improve_eq {best : ℕ} (hp : 0 < best ∧ best < Size) (price : ℕ) :
    improve Size side best price = if side.better price best then price else best := by
  cases side with
  | buy =>
    rw [improve, if_neg (by omega)]
    simp only [Side.better, decide_eq_true_eq]
    split <;> omega
  | sell =>
    rw [improve, if_neg (by omega)]
    simp only [Side.better, decide_eq_true_eq]
    split <;> omega

theorem bestPrice_insert (h : Rep Size side s l) (order : Order) :
    bestPrice Size side (l.insert side n order).rows = improve Size side s.best order.price := by
  have hbest := h.best
  have hprices := h.prices
  rw [Ladder.insert]
  cases hl : l.rows with
  | nil =>
    rw [hl] at hbest
    cases side <;> simp [hbest, bestPrice, improve, vacant]
  | cons r rows =>
    rw [hl] at hbest hprices
    have hp := hprices r (List.mem_cons_self ..)
    rw [hbest, bestPrice, improve_eq hp]
    by_cases hstay : stays side order.price r
    · rw [List.takeWhile_cons_of_pos hstay, if_neg (by simpa [stays] using hstay)]
      rfl
    · rw [List.takeWhile_cons_of_neg hstay, if_pos (by simpa [stays] using hstay)]
      rfl

theorem notMem_atPrice (hi : Inv side ids q n l) (p : ℕ) :
    n ∉ (atPrice l.rows p).map Prod.fst := by
  intro hm
  obtain ⟨r, hr, rfl⟩ := List.mem_map.mp hm
  exact Nat.lt_irrefl _ (hi.inserted r (mem_atPrice.mp hr).1)

theorem Rep.levels_fresh (h : Rep Size side s l) (hi : Inv side ids q n l) (order : Order) (p : ℕ) :
    Level (Function.update s.heap n (some ⟨order, none, none⟩)) (s.buffer p)
      (atPrice l.rows p) := by
  refine (h.levels p).frame fun i hmem => Function.update_of_ne ?_ ..
  rintro rfl
  exact notMem_atPrice hi p hmem

theorem Rep.prices_insert (h : Rep Size side s l) {order : Order}
    (hp : 0 < order.price ∧ order.price < Size) :
    ∀ r ∈ (l.insert side n order).rows, 0 < r.2.price ∧ r.2.price < Size := by
  intro r hr
  rcases mem_insert.mp hr with hr | rfl
  · exact h.prices r hr
  · exact hp

/-- An order at a price without orders is the only one of its level. -/
theorem insert_rep_empty (hi : Inv side ids q n l) (h : Rep Size side s l) {order : Order}
    (hp : 0 < order.price ∧ order.price < Size) (hb : s.buffer order.price = none) :
    ∃ s', insert Size side s n order = some s' ∧ Rep Size side s' (l.insert side n order) := by
  have hlevel := h.levels_fresh hi order order.price
  rw [hb] at hlevel
  refine ⟨⟨Function.update s.heap n (some ⟨order, none, none⟩),
    Function.update s.keys order.id (some n),
    Function.update s.buffer order.price (some ⟨some n, some n⟩),
    improve Size side s.best order.price⟩, ?_, fun p => ?_, h.prices_insert hp,
    (bestPrice_insert h order).symm, by rw [h.keys]; rfl⟩
  · simp [insert, level_eq hp.2, hb, setLevel_eq hp.2]
  · rw [atPrice_insert hi]
    dsimp only
    split
    · rename_i hpo
      subst hpo
      rw [show atPrice l.rows order.price = [] from hlevel, Function.update_self]
      exact ⟨by simp, rfl, rfl, by simp [Chain], by simp⟩
    · rename_i hpo
      rw [Function.update_of_ne hpo]
      exact h.levels_fresh hi order p

theorem insert_rep_behind (hi : Inv side ids q n l) (h : Rep Size side s l) {order : Order}
    (hp : 0 < order.price ∧ order.price < Size) {e : Ends} (hb : s.buffer order.price = some e) :
    ∃ s', insert Size side s n order = some s' ∧ Rep Size side s' (l.insert side n order) := by
  have hn := notMem_atPrice hi
  have hlevel := h.levels_fresh hi order order.price
  rw [hb] at hlevel
  obtain ⟨hne, hlist⟩ := hlevel
  obtain ⟨t, ht⟩ : ∃ t, e.tail = some t := by
    rw [← Option.ne_none_iff_exists', hlist.tail]
    exact fun hnone => hne (last_eq_none.mp hnone)
  have htn : t ≠ n := fun he => hlist.tail_ne (hn _) (he ▸ ht)
  have htsome : (s.heap t).isSome := by
    have := hlist.exists_of_mem (last_mem (hlist.tail ▸ ht))
    rw [Function.update_of_ne htn] at this
    exact Option.isSome_iff_exists.mpr this
  refine ⟨⟨appendHeap (Function.update s.heap n (some ⟨order, none, none⟩)) e n,
    Function.update s.keys order.id (some n),
    Function.update s.buffer order.price (some { e with tail := some n }),
    improve Size side s.best order.price⟩, ?_, fun p => ?_, h.prices_insert hp,
    (bestPrice_insert h order).symm, by rw [h.keys]; rfl⟩
  · have hprev := storePrev_eq (i := n) (s := { s with
      heap := Function.update s.heap n (some ⟨order, none, none⟩) }) (by simp) (some t)
    have hnext := storeNext_eq (i := n) (s := { s with
      heap := setPrev (Function.update s.heap n (some ⟨order, none, none⟩)) n (some t) })
      (by simp [setPrev]) none
    have htail := storeNext_eq (i := t) (s := { s with
      heap := setNext (setPrev (Function.update s.heap n (some ⟨order, none, none⟩)) n
        (some t)) n none }) (by simpa [setNext, setPrev, htn] using htsome) (some n)
    simp only [insert, level_eq hp.2, hb, ht, Option.bind_eq_bind, Option.bind_some, hprev, hnext,
      htail, setLevel_eq hp.2]
    simp only [appendHeap, ht, relinkNext, setNext_setPrev]
  · rw [atPrice_insert hi]
    dsimp only
    split
    · rename_i hpo
      subst hpo
      have happend := hlist.append (hn _) (Function.update_self ..)
      rw [Function.update_self]
      refine ⟨by simp, ?_⟩
      simpa [appendEnds, ht] using happend
    · rename_i hpo
      rw [Function.update_of_ne hpo]
      refine (h.levels_fresh hi order p).frame fun i hmem => appendHeap_of_ne _ ?_ ?_
      · rintro rfl
        exact hn p hmem
      · exact hlist.tail_ne (address_ne hi.nodup hpo hmem)

theorem insert_rep (hi : Inv side ids q n l) (h : Rep Size side s l) (order : Order)
    (hp : 0 < order.price ∧ order.price < Size) :
    ∃ s', insert Size side s n order = some s' ∧ Rep Size side s' (l.insert side n order) := by
  cases hb : s.buffer order.price with
  | none => exact insert_rep_empty hi h hp hb
  | some e => exact insert_rep_behind hi h hp hb

end TickSide

end LowLevel.Books
