import LowLevel.Books.Refinement
import LowLevel.Foundations.DoublyLinked

/-! # The list book

Each side is one doubly linked list of blocks in priority order, with an index
from ids to blocks. An insert walks from the head to the first block that the
new order beats.
-/

namespace LowLevel.Books

open DoublyLinked Ladder

/-- `OrderBook_List`: the blocks of a side, its end pointers and its index. -/
structure ListSide where
  heap : Heap Order := fun _ => none
  ends : Ends := {}
  index : ℕ → Option ℕ := fun _ => none

namespace ListSide

/-- The first block, which must be there. -/
def head (s : ListSide) : Option (ℕ × Order) := do
  let n ← s.ends.head
  let block ← s.heap n
  some (n, block.val)

/-- Point the predecessor, or the head if there is none, at a block. -/
def linkNext (s : ListSide) (prev next : Option ℕ) : Option ListSide :=
  match prev with
  | some p => (s.heap p).map fun _ => { s with heap := setNext s.heap p next }
  | none => some { s with ends := { s.ends with head := next } }

/-- Point the successor, or the tail if there is none, back at a block. -/
def linkPrev (s : ListSide) (next prev : Option ℕ) : Option ListSide :=
  match next with
  | some n => (s.heap n).map fun _ => { s with heap := setPrev s.heap n prev }
  | none => some { s with ends := { s.ends with tail := prev } }

def unlink (s : ListSide) (n : ℕ) : Option ListSide := do
  let block ← s.heap n
  let s ← s.linkNext block.prev block.next
  let block ← s.heap n
  let s ← s.linkPrev block.next block.prev
  some { s with heap := setPrev (setNext s.heap n none) n none }

/-- `delete` of a block. -/
def delete (s : ListSide) (n : ℕ) : Option ListSide :=
  (s.heap n).map fun _ => { s with heap := Function.update s.heap n none }

/-- The loop of an insert: the first block that the order comes before. -/
def seek (side : Side) (heap : Heap Order) (order : Order) : ℕ → Option ℕ → Option (Option ℕ)
  | 0, _ => none
  | _ + 1, none => some none
  | fuel + 1, some cur => do
    let block ← heap cur
    if Order.gt side block.val order then seek side heap order fuel block.next
    else some (some cur)

/-- The block before the insertion point: the predecessor of `cur`, or the tail
at the end of the list. -/
def before (heap : Heap Order) (tail cur : Option ℕ) : Option (Option ℕ) :=
  match cur with
  | some c => (heap c).map Node.prev
  | none => some tail

def insert (side : Side) (s : ListSide) (node : ℕ) (order : Order) : Option ListSide := do
  let heap := Function.update s.heap node (some ⟨order, none, none⟩)
  let cur ← seek side heap order (node + 1) s.ends.head
  let prev ← before heap s.ends.tail cur
  let s := { s with heap := setPrev (setNext heap node cur) node prev }
  let s ← s.linkNext prev (some node)
  let s ← s.linkPrev cur (some node)
  some { s with index := Function.update s.index order.id (some node) }

def pop (s : ListSide) : Option ListSide := do
  let n ← s.ends.head
  let s ← s.unlink n
  let block ← s.heap n
  let s := { s with index := Function.update s.index block.val.id none }
  s.delete n

def resize (s : ListSide) (size : ℕ) : Option ListSide :=
  s.head.map fun (n, order) => { s with heap := setVal s.heap n { order with size } }

def cancel (s : ListSide) (id : ℕ) : Option (Option ListSide) :=
  match s.index id with
  | none => some none
  | some n => do
    let s ← s.unlink n
    let s := { s with index := Function.update s.index id none }
    some (← s.delete n)

def ops (side : Side) : SideOps ListSide where
  waiting s := s.ends.head.isSome
  price s := s.head.map fun r => r.2.price
  front s := s.head.map Prod.snd
  resize := resize
  pop := pop
  insert := insert side
  cancel := cancel

end ListSide

/-- `UINT64_MAX` and 0 are the prices of unmatched market orders. -/
def listMarketPrice : Side → ℕ
  | .buy => 2 ^ 64 - 1
  | .sell => 0

/-- `++counter`: the id of a new order is the counter after it. -/
def preIncrement (counter : ℕ) : ℕ × ℕ := ((counter + 1) % 2 ^ 64, (counter + 1) % 2 ^ 64)

def listBook : BookClass ListSide where
  ops := ListSide.ops
  init _ := {}
  accepts _ := true
  issue := preIncrement
  marketPrice := listMarketPrice

namespace ListSide

variable {s : ListSide} {l : Ladder} {side : Side} {ids : ℕ → ℕ} {q : ℕ → Prop} {n : ℕ}
  {r : ℕ × Order} {rows rows₁ rows₂ : List (ℕ × Order)}

/-- The list holds the rows of a ladder and the index is its table. -/
structure Rep (s : ListSide) (l : Ladder) : Prop where
  list : IsList s.heap s.ends l.rows
  index : s.index = l.keys

theorem linkNext_eq {p n : Option ℕ} (h : ∀ i, p = some i → (s.heap i).isSome) :
    s.linkNext p n = some { s with
      heap := relinkNext s.heap p n
      ends := ⟨if p = none then n else s.ends.head, s.ends.tail⟩ } := by
  cases p with
  | none => rfl
  | some i =>
    obtain ⟨block, hblock⟩ := Option.isSome_iff_exists.mp (h i rfl)
    simp [linkNext, hblock, relinkNext]

theorem linkPrev_eq {p n : Option ℕ} (h : ∀ i, n = some i → (s.heap i).isSome) :
    s.linkPrev n p = some { s with
      heap := relinkPrev s.heap n p
      ends := ⟨s.ends.head, if n = none then p else s.ends.tail⟩ } := by
  cases n with
  | none => rfl
  | some i =>
    obtain ⟨block, hblock⟩ := Option.isSome_iff_exists.mp (h i rfl)
    simp [linkPrev, hblock, relinkPrev]

theorem isSome_of_mem (h : IsList s.heap s.ends rows) {i : ℕ} (hi : i ∈ rows.map Prod.fst) :
    (s.heap i).isSome := Option.isSome_iff_exists.mpr (h.exists_of_mem hi)

theorem unlink_eq (h : IsList s.heap s.ends (rows₁ ++ r :: rows₂)) :
    s.unlink r.1 = some { s with
      heap := unlinkHeap s.heap r.1 (last none rows₁) (first rows₂ none)
      ends := unlinkEnds s.ends (last none rows₁) (first rows₂ none) } := by
  obtain ⟨hp, -, -⟩ := h.neighbours
  have hnext := linkNext_eq (s := s) (p := last none rows₁) (n := first rows₂ none) fun i hi =>
    isSome_of_mem h (by simpa using .inl (by simpa using last_mem hi))
  have hprev := linkPrev_eq (s := ⟨relinkNext s.heap (last none rows₁) (first rows₂ none),
      ⟨if last none rows₁ = none then first rows₂ none else s.ends.head, s.ends.tail⟩, s.index⟩)
    (p := last none rows₁) (n := first rows₂ none) fun i hi =>
    isSome_relinkNext (isSome_of_mem h (by simpa using .inr (.inr (by simpa using first_mem hi))))
  simp only [unlink, h.get, Option.bind_eq_bind, Option.bind_some, hnext, relinkNext_of_ne _ hp,
    hprev]
  rfl

theorem head_eq (h : Rep s l) (hl : l.rows = r :: rows) : s.head = some r := by
  have hlist : IsList s.heap s.ends ([] ++ r :: rows) := by simpa [hl] using h.list
  simp [head, hlist.head, hlist.get]

theorem remove (h : IsList s.heap s.ends (rows₁ ++ r :: rows₂)) (index : ℕ → Option ℕ) :
    ∃ s', ({ s with
        heap := unlinkHeap s.heap r.1 (last none rows₁) (first rows₂ none)
        ends := unlinkEnds s.ends (last none rows₁) (first rows₂ none)
        index } : ListSide).delete r.1 = some s' ∧ IsList s'.heap s'.ends (rows₁ ++ rows₂) ∧
      s'.index = index := by
  have hn := h.nodup
  rw [List.map_append, List.map_cons, List.nodup_middle, List.nodup_cons, ← List.map_append] at hn
  refine ⟨⟨Function.update (unlinkHeap s.heap r.1 (last none rows₁) (first rows₂ none)) r.1 none,
    unlinkEnds s.ends (last none rows₁) (first rows₂ none), index⟩, ?_,
    h.unlink.frame fun i hi => ?_, rfl⟩
  · simp [delete, h.unlinkHeap_self]
  · refine Function.update_of_ne ?_ ..
    rintro rfl
    exact hn.1 hi

theorem represents (side : Side) : Represents (ops side) side ids q Rep where
  waiting {n s l} _ h := by
    cases hl : l.rows with
    | nil => simp [ops, h.list.head, hl]
    | cons r rows => simp [ops, h.list.head, hl]
  price _ h hl := by simp [ops, head_eq h hl]
  front _ h hl := by simp [ops, head_eq h hl]
  resize {n s l r rows} size _ h hl := by
    have hlist : IsList s.heap s.ends ([] ++ r :: rows) := by simpa [hl] using h.list
    refine ⟨{ s with heap := setVal s.heap r.1 { r.2 with size } }, ?_, hlist.setVal _, h.index⟩
    simp [ops, resize, head_eq h hl]
  pop {n s l r rows} _ h hl := by
    have hlist : IsList s.heap s.ends ([] ++ r :: rows) := by simpa [hl] using h.list
    have hhead : s.ends.head = some r.1 := by rw [hlist.head]; rfl
    have hget : unlinkHeap s.heap r.1 none (first rows none) r.1 = some ⟨r.2, none, none⟩ :=
      hlist.unlinkHeap_self
    obtain ⟨s', hs', hlist', hindex⟩ := remove hlist (Function.update s.index r.2.id none)
    refine ⟨s', ?_, hlist', ?_⟩
    · simpa [ops, pop, hhead, unlink_eq hlist, hget] using hs'
    · rw [hindex, h.index]
  unknown _ h hk := by simp [ops, cancel, h.index, hk]
  cancel {n s l i m} hi h hk := by
    obtain ⟨-, hm⟩ := hi.sound hk
    obtain ⟨r, hr, rfl⟩ := List.mem_map.mp hm
    obtain ⟨rows₁, rows₂, hl⟩ := List.append_of_mem hr
    have hlist := h.list
    rw [hl] at hlist
    obtain ⟨s', hs', hlist', hindex⟩ := remove hlist (Function.update s.index i none)
    refine ⟨s', ?_, ?_, ?_⟩
    · rw [h.index] at hs'
      simp [ops, cancel, h.index, hk, unlink_eq hlist, hs']
    · rwa [hl, filter_row (hl ▸ hi.nodup)]
    · rw [hindex, h.index]

theorem seek_eq (side : Side) (order : Order) {heap : Heap Order} {p : Option ℕ} {fuel : ℕ}
    (hc : Chain heap p rows none) (hf : rows.length < fuel) :
    seek side heap order fuel (first rows none) =
      some (first (rows.dropWhile fun r => Order.gt side r.2 order) none) := by
  induction rows generalizing p fuel with
  | nil =>
    obtain ⟨fuel, rfl⟩ : ∃ k, fuel = k + 1 := ⟨fuel - 1, by simp at hf; omega⟩
    rfl
  | cons r rows ih =>
    obtain ⟨fuel, rfl⟩ : ∃ k, fuel = k + 1 := ⟨fuel - 1, by simp at hf; omega⟩
    obtain ⟨hr, hc⟩ := hc
    simp only [first_cons, seek, hr, Option.bind_eq_bind, Option.bind_some, List.dropWhile_cons]
    by_cases hgt : Order.gt side r.2 order
    · rw [if_pos hgt, if_pos hgt]
      exact ih hc (by simpa using hf)
    · rw [if_neg hgt, if_neg hgt]
      rfl

theorem gt_eq_stays {order : Order} (hid : r.2.id < order.id) :
    Order.gt side r.2 order = stays side order.price r := by
  cases side <;> simp only [Order.gt, Side.better, stays] <;> grind

theorem dropWhile_gt {order : Order} (hid : ∀ r ∈ rows, r.2.id < order.id) :
    (rows.dropWhile fun r => Order.gt side r.2 order) =
      rows.dropWhile (stays side order.price) := by
  induction rows with
  | nil => rfl
  | cons r rows ih =>
    rw [List.dropWhile_cons, List.dropWhile_cons, gt_eq_stays (hid r (by simp)),
      ih fun r' hr' => hid r' (List.mem_cons_of_mem _ hr')]

theorem link_eq {heap : Heap Order} {e : Ends} (h : IsList heap e (rows₁ ++ rows₂))
    (hn : n ∉ (rows₁ ++ rows₂).map Prod.fst) (index : ℕ → Option ℕ) :
    ((⟨setPrev (setNext heap n (first rows₂ none)) n (last none rows₁), e, index⟩ :
        ListSide).linkNext (last none rows₁) (some n)).bind
      (fun s => s.linkPrev (first rows₂ none) (some n)) =
    some ⟨linkHeap heap n (last none rows₁) (first rows₂ none),
      linkEnds e n (last none rows₁) (first rows₂ none), index⟩ := by
  have hset : ∀ i ∈ (rows₁ ++ rows₂).map Prod.fst,
      (setPrev (setNext heap n (first rows₂ none)) n (last none rows₁) i).isSome := by
    intro i hi
    have hne : i ≠ n := fun he => hn (he ▸ hi)
    rw [setPrev_of_ne _ hne, setNext_of_ne _ hne]
    exact Option.isSome_iff_exists.mpr (h.exists_of_mem hi)
  rw [linkNext_eq fun i hi => hset i (by simpa using .inl (by simpa using last_mem hi)),
    Option.bind_some, linkPrev_eq fun i hi => isSome_relinkNext
      (hset i (by simpa using .inr (by simpa using first_mem hi)))]
  rfl

theorem insert_rep (hi : Inv side ids q n l) (h : Rep s l) {order : Order}
    (hid : ∀ r ∈ l.rows, r.2.id < order.id) :
    ∃ s', insert side s n order = some s' ∧ Rep s' (l.insert side n order) := by
  obtain ⟨rows₁, rows₂, h₁, h₂⟩ : ∃ rows₁ rows₂,
      l.rows.takeWhile (stays side order.price) = rows₁ ∧
        l.rows.dropWhile (stays side order.price) = rows₂ := ⟨_, _, rfl, rfl⟩
  have hl : l.rows = rows₁ ++ rows₂ := by rw [← h₁, ← h₂, List.takeWhile_append_dropWhile]
  have hn : n ∉ (rows₁ ++ rows₂).map Prod.fst := by
    rintro hm
    obtain ⟨r, hr, rfl⟩ := List.mem_map.mp hm
    exact Nat.lt_irrefl _ (hi.inserted r (hl ▸ hr))
  have hlist : IsList (Function.update s.heap n (some ⟨order, none, none⟩)) s.ends
      (rows₁ ++ rows₂) := by
    refine (hl ▸ h.list).frame fun i hmem => Function.update_of_ne ?_ ..
    rintro rfl
    exact hn hmem
  have hseek := seek_eq side order hlist.chain
    (show _ < n + 1 by have := hi.length_le; rw [hl] at this; omega)
  rw [dropWhile_gt (hl ▸ hid), ← hl, h₂, hl, ← hlist.head] at hseek
  have hbefore : before (Function.update s.heap n (some ⟨order, none, none⟩)) s.ends.tail
      (first rows₂ none) = some (last none rows₁) := by
    cases rows₂ with
    | nil => simp [before, hlist.tail]
    | cons r rows => simp [before, hlist.get]
  obtain ⟨s₁, hs₁, hs₂⟩ := Option.bind_eq_some_iff.mp (link_eq hlist hn s.index)
  refine ⟨⟨linkHeap (Function.update s.heap n (some ⟨order, none, none⟩)) n (last none rows₁)
    (first rows₂ none), linkEnds s.ends n (last none rows₁) (first rows₂ none),
    Function.update s.index order.id (some n)⟩, ?_, ?_, ?_⟩
  · simp only [insert, hseek, hbefore, hs₁, hs₂, Option.bind_eq_bind, Option.bind_some]
  · simpa [Ladder.insert, h₁, h₂] using hlist.link hn (Function.update_self ..)
  · rw [h.index]
    rfl

end ListSide

end LowLevel.Books
