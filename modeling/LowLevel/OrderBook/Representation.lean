import LowLevel.Foundations.Selection
import LowLevel.OrderBook.Engine

/-! # Representation of the book

The levels of the buffer and the pool represent one list of resting orders in
arrival order: the level of a price is the sublist of the orders at that
price. Filling, removing and resting an order run without fault and act on
the represented list.
-/

namespace LowLevel.OrderBook

open DoublyLinked

structure BlockData where
  raw : EnterRequestView
  currQty : ℕ
  id : ℕ
  key : UInt64

def OrderBlock.data (b : OrderBlock) : BlockData := ⟨b.raw, b.currQty, b.id, b.key⟩

def OrderBlock.node (b : OrderBlock) : Node BlockData := ⟨b.data, b.prev, b.next⟩

namespace Allocator

variable {A : ℕ} (a : Allocator OrderBlock A)

def heap : Heap BlockData := fun i =>
  match a.slot i with
  | .live b => some b.node
  | .free _ => none

def links : ℕ → Option (Option ℕ) := fun i =>
  match a.slot i with
  | .free n => some n
  | .live _ => none

theorem heap_write_live (i : ℕ) (b : OrderBlock) :
    (a.write i (.live b)).heap = Function.update a.heap i (some b.node) := by
  funext j
  by_cases hj : j = i
  · subst hj; simp [heap, write]
  · simp [heap, write, hj]

theorem links_write_live (i : ℕ) (b : OrderBlock) :
    (a.write i (.live b)).links = Function.update a.links i none := by
  funext j
  by_cases hj : j = i
  · subst hj; simp [links, write]
  · simp [links, write, hj]

theorem heap_release (i : ℕ) : (a.release i).heap = Function.update a.heap i none := by
  funext j
  by_cases hj : j = i
  · subst hj; simp [heap, release]
  · simp [heap, release, hj]

theorem links_release (i : ℕ) :
    (a.release i).links = Function.update a.links i (some a.freeHead) := by
  funext j
  by_cases hj : j = i
  · subst hj; simp [links, release]
  · simp [links, release, hj]

theorem heap_take (i : ℕ) (n : Option ℕ) (b : OrderBlock) :
    (a.take i n b).heap = Function.update a.heap i (some b.node) := a.heap_write_live i b

theorem links_take (i : ℕ) (n : Option ℕ) (b : OrderBlock) :
    (a.take i n b).links = Function.update a.links i none := a.links_write_live i b

variable {a}

theorem slot_of_heap {i : ℕ} {n : Node BlockData} (h : a.heap i = some n) :
    ∃ b, a.slot i = .live b ∧ b.node = n := by
  unfold heap at h
  split at h
  · rename_i b hb; exact ⟨b, hb, Option.some.inj h⟩
  · cases h

theorem links_of_live {i : ℕ} {b : OrderBlock} (h : a.slot i = .live b) : a.links i = none := by
  simp [links, h]

end Allocator

namespace Engine

variable {B A : ℕ} {s s' : Engine B A} {α β : Type}

@[simp] theorem pure_apply (x : α) : (pure x : EngineM B A α) s = .ok (x, s) := rfl

@[simp] theorem get_apply : (get : EngineM B A (Engine B A)) s = .ok (s, s) := rfl

@[simp] theorem modify_apply (f : Engine B A → Engine B A) :
    (modify f : EngineM B A PUnit) s = .ok (⟨⟩, f s) := rfl

theorem bind_ok {x : EngineM B A α} {f : α → EngineM B A β} {a : α} (h : x s = .ok (a, s')) :
    (x >>= f) s = f a s' := by
  change (x s >>= fun p => f p.1 p.2) = _
  rw [h]; rfl

theorem of_bind_ok {x : EngineM B A α} {f : α → EngineM B A β} {y : β × Engine B A}
    (h : (x >>= f) s = .ok y) : ∃ a s', x s = .ok (a, s') ∧ f a s' = .ok y := by
  change (x s >>= fun p => f p.1 p.2) = _ at h
  cases hx : x s with
  | error e =>
    rw [hx] at h
    cases h
  | ok p =>
    rw [hx] at h
    exact ⟨p.1, p.2, rfl, h⟩

@[simp] theorem get_bind (f : Engine B A → EngineM B A β) : (get >>= f) s = f s s := rfl

@[simp] theorem modify_bind (g : Engine B A → Engine B A) (f : PUnit → EngineM B A β) :
    (modify g >>= f) s = f ⟨⟩ (g s) := rfl

@[simp] theorem load_apply {i : ℕ} {b : OrderBlock} (h : s.allocator.slot i = .live b) :
    load i s = .ok (b, s) := by
  simp [load, h]

theorem store_apply {i : ℕ} {b : OrderBlock} (v : OrderBlock) (h : s.allocator.slot i = .live b) :
    store i v s = .ok (⟨⟩, { s with allocator := s.allocator.write i (.live v) }) := by
  simp [store, h]

theorem level_apply {idx : ℕ} (h : idx < B) : level idx s = .ok (s.orderBuffer idx, s) := by
  simp [level, h]

theorem lt_of_level_ok {idx : ℕ} {y : OrderList × Engine B A} (h : level idx s = .ok y) :
    idx < B := by
  by_contra hidx
  simp only [level, hidx, if_false] at h
  cases h

theorem setLevel_apply {idx : ℕ} (h : idx < B) (l : OrderList) :
    setLevel idx l s =
      .ok (⟨⟩, { s with orderBuffer := Function.update s.orderBuffer idx l }) := by
  simp [setLevel, h]

theorem sub_apply {a b : ℕ} (h : b ≤ a) : (sub a b : EngineM B A ℕ) s = .ok (a - b, s) := by
  simp [sub, h]

section Lists

variable {p : ℕ} {l l₁ l₂ : List (ℕ × BlockData)} {c : ℕ × BlockData}

theorem write_setNext {a : Allocator OrderBlock A} {i : ℕ} {b : OrderBlock}
    (h : a.slot i = .live b) (n : Option ℕ) :
    (a.write i (.live { b with next := n })).heap = setNext a.heap i n := by
  rw [a.heap_write_live, setNext]
  simp [Allocator.heap, h, OrderBlock.node, OrderBlock.data]

theorem write_setPrev {a : Allocator OrderBlock A} {i : ℕ} {b : OrderBlock}
    (h : a.slot i = .live b) (n : Option ℕ) :
    (a.write i (.live { b with prev := n })).heap = setPrev a.heap i n := by
  rw [a.heap_write_live, setPrev]
  simp [Allocator.heap, h, OrderBlock.node, OrderBlock.data]

theorem links_write {a : Allocator OrderBlock A} {i : ℕ} {b : OrderBlock}
    (h : a.slot i = .live b) (v : OrderBlock) : (a.write i (.live v)).links = a.links := by
  rw [a.links_write_live]
  exact Function.update_eq_self_iff.mpr (Allocator.links_of_live h).symm

def setBook (s : Engine B A) (a : Allocator OrderBlock A) (buf : ℕ → OrderList) : Engine B A :=
  { s with allocator := a, orderBuffer := buf }

section setBook

variable (a a' : Allocator OrderBlock A) (buf buf' : ℕ → OrderList)

@[simp] theorem setBook_allocator : (s.setBook a buf).allocator = a := rfl
@[simp] theorem setBook_orderBuffer : (s.setBook a buf).orderBuffer = buf := rfl
@[simp] theorem setBook_setBook : (s.setBook a buf).setBook a' buf' = s.setBook a' buf' := rfl

end setBook

/-- A pool that differs from another one in the cells of blocks in use only. -/
structure Relinked (a a' : Allocator OrderBlock A) (h : Heap BlockData) : Prop where
  heap : a'.heap = h
  links : a'.links = a.links
  freeHead : a'.freeHead = a.freeHead

theorem Relinked.trans {a₁ a₂ a₃ : Allocator OrderBlock A} {h h' : Heap BlockData}
    (h₁ : Relinked a₁ a₂ h) (h₂ : Relinked a₂ a₃ h') : Relinked a₁ a₃ h' :=
  ⟨h₂.heap, h₂.links.trans h₁.links, h₂.freeHead.trans h₁.freeHead⟩

theorem slot_of_relinked {a a' : Allocator OrderBlock A} {h : Heap BlockData}
    (hr : Relinked a a' h) {i : ℕ} {b : OrderBlock} (hb : a.slot i = .live b)
    (hi : h i = a.heap i) : ∃ b', a'.slot i = .live b' ∧ b'.node = b.node := by
  apply Allocator.slot_of_heap
  rw [hr.heap, hi]
  simp [Allocator.heap, hb]

theorem linkNext_run (hp : p < B) {q : Option ℕ} (n : Option ℕ)
    (hq : ∀ j, q = some j → ∃ b, s.allocator.slot j = .live b) :
    ∃ a, linkNext p q n s = .ok (⟨⟩, s.setBook a (Function.update s.orderBuffer p
        ⟨if q = none then n else (s.orderBuffer p).head, (s.orderBuffer p).tail⟩)) ∧
      Relinked s.allocator a (relinkNext s.allocator.heap q n) := by
  cases q with
  | none =>
    refine ⟨s.allocator, ?_, rfl, rfl, rfl⟩
    simp [linkNext, bind_ok (level_apply hp), setLevel_apply hp, setBook]
  | some j =>
    obtain ⟨b, hb⟩ := hq j rfl
    refine ⟨_, ?_, write_setNext hb n, links_write hb _, rfl⟩
    simp [linkNext, bind_ok (load_apply hb), store_apply _ hb, setBook]

theorem linkPrev_run (hp : p < B) {q : Option ℕ} (n : Option ℕ)
    (hq : ∀ j, q = some j → ∃ b, s.allocator.slot j = .live b) :
    ∃ a, linkPrev p n q s = .ok (⟨⟩, s.setBook a (Function.update s.orderBuffer p
        ⟨(s.orderBuffer p).head, if q = none then n else (s.orderBuffer p).tail⟩)) ∧
      Relinked s.allocator a (relinkPrev s.allocator.heap q n) := by
  cases q with
  | none =>
    refine ⟨s.allocator, ?_, rfl, rfl, rfl⟩
    simp [linkPrev, bind_ok (level_apply hp), setLevel_apply hp, setBook]
  | some j =>
    obtain ⟨b, hb⟩ := hq j rfl
    refine ⟨_, ?_, write_setPrev hb n, links_write hb _, rfl⟩
    simp [linkPrev, bind_ok (load_apply hb), store_apply _ hb, setBook]

theorem write_detach {a : Allocator OrderBlock A} {i : ℕ} {b : OrderBlock}
    (h : a.slot i = .live b) :
    (a.write i (.live { b with prev := none, next := none })).heap =
      setPrev (setNext a.heap i none) i none := by
  rw [a.heap_write_live, setPrev, setNext]
  simp [Allocator.heap, h, OrderBlock.node, OrderBlock.data]

theorem slot_of_mem {a : Allocator OrderBlock A} {e : Ends} (hl : IsList a.heap e l) {j : ℕ}
    (hj : j ∈ l.map Prod.fst) : ∃ b, a.slot j = .live b := by
  obtain ⟨n, hn⟩ := hl.exists_of_mem hj
  obtain ⟨b, hb, -⟩ := Allocator.slot_of_heap hn
  exact ⟨b, hb⟩

theorem unlink_run (hp : p < B)
    (hl : IsList s.allocator.heap (s.orderBuffer p) (l₁ ++ c :: l₂)) :
    ∃ a, unlink c.1 p s = .ok (⟨⟩, s.setBook a (Function.update s.orderBuffer p
        (unlinkEnds (s.orderBuffer p) (last none l₁) (first l₂ none)))) ∧
      Relinked s.allocator a
        (unlinkHeap s.allocator.heap c.1 (last none l₁) (first l₂ none)) := by
  obtain ⟨hc₁, hc₂, h₁₂⟩ := hl.neighbours
  obtain ⟨b, hb, hn⟩ := Allocator.slot_of_heap hl.get
  have hbp : b.prev = last none l₁ := congrArg Node.prev hn
  have hbn : b.next = first l₂ none := congrArg Node.next hn
  obtain ⟨a₁, hr₁, ha₁⟩ := linkNext_run hp (q := last none l₁) (first l₂ none)
    (fun j hj => slot_of_mem hl (by simpa using Or.inl (by simpa using last_mem hj)))
  obtain ⟨b₁, hb₁, hn₁⟩ := slot_of_relinked ha₁ hb (relinkNext_of_ne _ hc₁ _)
  have hbp₁ : b₁.prev = last none l₁ := (congrArg Node.prev hn₁).trans hbp
  have hbn₁ : b₁.next = first l₂ none := (congrArg Node.next hn₁).trans hbn
  -- the successor is not the block that the first half has redirected
  obtain ⟨a₂, hr₂, ha₂⟩ := linkPrev_run (s := s.setBook a₁ _) hp (q := first l₂ none)
    (last none l₁) (fun j hj => by
      obtain ⟨bj, hbj⟩ := slot_of_mem hl (j := j)
        (by simpa using Or.inr (Or.inr (by simpa using first_mem hj)))
      obtain ⟨b', hb', -⟩ := slot_of_relinked ha₁ hbj
        (relinkNext_of_ne _ (fun he => h₁₂ j he hj) _)
      exact ⟨b', hb'⟩)
  rw [setBook_allocator] at ha₂
  obtain ⟨b₂, hb₂, -⟩ := slot_of_relinked ha₂ hb₁ (relinkPrev_of_ne _ hc₂ _)
  refine ⟨_, ?_, (ha₁.trans ha₂).trans ⟨(write_detach hb₂).trans ?_, links_write hb₂ _, rfl⟩⟩
  · rw [unlink, bind_ok (load_apply hb), hbp, hbn, bind_ok hr₁,
      bind_ok (s := s.setBook a₁ _) (load_apply hb₁), hbp₁, hbn₁, bind_ok hr₂,
      bind_ok (s := setBook _ a₂ _) (load_apply hb₂), store_apply (s := setBook _ a₂ _) _ hb₂]
    simp [setBook, unlinkEnds]
  · rw [ha₂.heap, ha₁.heap, unlinkHeap]

theorem write_attach {a : Allocator OrderBlock A} {i : ℕ} {b : OrderBlock}
    (h : a.slot i = .live b) (t : Option ℕ) :
    (a.write i (.live { b with next := none, prev := t })).heap =
      setPrev (setNext a.heap i none) i t := by
  rw [a.heap_write_live, setPrev, setNext]
  simp [Allocator.heap, h, OrderBlock.node, OrderBlock.data]

theorem appendList_run (hp : p < B) (hl : IsList s.allocator.heap (s.orderBuffer p) l)
    {i : ℕ} (hi : i ∉ l.map Prod.fst) {b : OrderBlock} (hb : s.allocator.slot i = .live b) :
    ∃ a, appendList i p s = .ok (⟨⟩, s.setBook a (Function.update s.orderBuffer p
        (appendEnds (s.orderBuffer p) i))) ∧
      Relinked s.allocator a (appendHeap s.allocator.heap (s.orderBuffer p) i) := by
  let a₁ := s.allocator.write i (.live { b with next := none, prev := (s.orderBuffer p).tail })
  have ha₁ : Relinked s.allocator a₁
      (setPrev (setNext s.allocator.heap i none) i (s.orderBuffer p).tail) :=
    ⟨write_attach hb _, links_write hb _, rfl⟩
  obtain ⟨a₂, hr₂, ha₂⟩ := linkNext_run (s := s.setBook a₁ s.orderBuffer) hp
    (q := (s.orderBuffer p).tail) (some i) (fun j hj => by
      obtain ⟨bj, hbj⟩ := slot_of_mem hl (last_mem (hl.tail ▸ hj))
      have hji : j ≠ i := by rintro rfl; exact hl.tail_ne hi hj
      obtain ⟨b', hb', -⟩ := slot_of_relinked ha₁ hbj
        (by rw [setPrev_of_ne _ hji, setNext_of_ne _ hji])
      exact ⟨b', hb'⟩)
  rw [setBook_allocator] at ha₂
  refine ⟨a₂, ?_, (ha₁.trans ha₂).trans ⟨?_, rfl, rfl⟩⟩
  · have hs : store i { b with next := none, prev := (s.orderBuffer p).tail } s =
        .ok (⟨⟩, s.setBook a₁ s.orderBuffer) := store_apply _ hb
    rw [appendList, bind_ok (level_apply hp), bind_ok (load_apply hb), bind_ok hs, bind_ok hr₂,
      bind_ok (level_apply hp), setLevel_apply hp]
    simp [setBook, appendEnds]
  · rw [ha₂.heap, ha₁.heap, appendHeap]

end Lists

end Engine

/-- A resting order: its slot, the account and request it came from, the open quantity, and
the number of requests entered before it. -/
structure Resting where
  slot : ℕ
  account : UInt32
  raw : EnterRequestView
  currQty : ℕ
  seq : ℕ

namespace Resting

def key (r : Resting) : UInt64 := orderKey r.account r.raw.userRefNum

/-- The engine numbers orders from one, modulo the width of its counter. -/
def id (r : Resting) : ℕ := (r.seq + 1) % 2 ^ 64

def data (r : Resting) : BlockData := ⟨r.raw, r.currQty, r.id, r.key⟩

def cell (r : Resting) : ℕ × BlockData := (r.slot, r.data)

@[simp] theorem cell_fst (r : Resting) : r.cell.1 = r.slot := rfl

end Resting

def atPrice (p : ℕ) (rs : List Resting) : List Resting := rs.filter (·.raw.price = p)

@[simp] theorem atPrice_append (p : ℕ) (l₁ l₂ : List Resting) :
    atPrice p (l₁ ++ l₂) = atPrice p l₁ ++ atPrice p l₂ := List.filter_append ..

theorem atPrice_cons_self (r : Resting) (l : List Resting) :
    atPrice r.raw.price (r :: l) = r :: atPrice r.raw.price l := by simp [atPrice]

theorem atPrice_cons_of_ne {p : ℕ} {r : Resting} (h : r.raw.price ≠ p) (l : List Resting) :
    atPrice p (r :: l) = atPrice p l := by simp [atPrice, h]

theorem mem_atPrice {p : ℕ} {r : Resting} {l : List Resting} :
    r ∈ atPrice p l ↔ r ∈ l ∧ r.raw.price = p := by simp [atPrice]

theorem slot_notMem_atPrice {rs : List Resting} (hn : (rs.map Resting.slot).Nodup) {p q : ℕ}
    (hpq : p ≠ q) {i : ℕ} (hi : i ∈ (atPrice p rs).map Resting.slot) :
    i ∉ (atPrice q rs).map Resting.slot := by
  intro hi'
  obtain ⟨x, hx, rfl⟩ := List.mem_map.mp hi
  obtain ⟨y, hy, hxy⟩ := List.mem_map.mp hi'
  obtain ⟨hx, hxp⟩ := mem_atPrice.mp hx
  obtain ⟨hy, hyq⟩ := mem_atPrice.mp hy
  obtain rfl := List.inj_on_of_nodup_map hn hx hy hxy.symm
  exact hpq (hxp.symm.trans hyq)

/-- The pool and the levels represent the resting orders; the remaining slots are free. -/
structure Rep {A : ℕ} (B : ℕ) (a : Allocator OrderBlock A) (buf : ℕ → OrderList)
    (rs : List Resting) (free : List ℕ) : Prop where
  levels : ∀ p < B, IsList a.heap (buf p) ((atPrice p rs).map Resting.cell)
  price_lt : ∀ r ∈ rs, r.raw.price < B
  chain : FreeChain a.links a.freeHead free
  slots : (free ++ rs.map Resting.slot).Perm (List.range A)

namespace Rep

variable {B A : ℕ} {a : Allocator OrderBlock A} {buf : ℕ → OrderList} {rs l₁ l₂ : List Resting}
  {free : List ℕ} {r : Resting}

theorem nodup (h : Rep B a buf rs free) : (free ++ rs.map Resting.slot).Nodup :=
  h.slots.nodup_iff.mpr List.nodup_range

theorem length_le (h : Rep B a buf rs free) : free.length + rs.length = A := by
  simpa using h.slots.length_eq

theorem mem_level (h : Rep B a buf rs free) (hr : r ∈ rs) :
    ∃ l₁ l₂, atPrice r.raw.price rs = l₁ ++ r :: l₂ ∧
      IsList a.heap (buf r.raw.price) (l₁.map Resting.cell ++ r.cell :: l₂.map Resting.cell) := by
  obtain ⟨l₁, l₂, he⟩ := List.append_of_mem (mem_atPrice.mpr ⟨hr, rfl⟩)
  refine ⟨l₁, l₂, he, ?_⟩
  have := h.levels _ (h.price_lt r hr)
  rwa [he, List.map_append, List.map_cons] at this

theorem map_fst_cell (l : List Resting) :
    (l.map Resting.cell).map Prod.fst = l.map Resting.slot := by
  simp [List.map_map, Function.comp_def]

theorem slot_notMem (h : Rep B a buf rs free) {p q : ℕ} (hpq : p ≠ q) {i : ℕ}
    (hi : i ∈ (atPrice p rs).map Resting.slot) : i ∉ (atPrice q rs).map Resting.slot :=
  slot_notMem_atPrice (List.nodup_append.mp h.nodup).2.1 hpq hi

theorem slot_notMem_free (h : Rep B a buf rs free) (hr : r ∈ rs) : r.slot ∉ free :=
  fun hf => (List.nodup_append.mp h.nodup).2.2 _ hf _ (List.mem_map.mpr ⟨r, hr, rfl⟩) rfl

end Rep

namespace Engine

variable {B A : ℕ} {s : Engine B A} {rs l₁ l₂ : List Resting} {free : List ℕ} {r : Resting}

def orders (s : Engine B A) (p : ℕ) : List (ℕ × BlockData) :=
  walk s.allocator.heap A (s.orderBuffer p).head

/-- All blocks in the book, by price and then from head to tail. -/
def resting (s : Engine B A) : List (ℕ × BlockData) := (List.range B).flatMap s.orders

theorem orders_eq (h : Rep B s.allocator s.orderBuffer rs free) {p : ℕ} (hp : p < B) :
    s.orders p = (atPrice p rs).map Resting.cell := by
  apply (h.levels p hp).walk
  have hlen := h.length_le
  have hle : (atPrice p rs).length ≤ rs.length := List.length_filter_le ..
  rw [List.length_map]
  omega

theorem resting_perm (h : Rep B s.allocator s.orderBuffer rs free) :
    s.resting.Perm (rs.map Resting.cell) := by
  have heq : s.resting = ((List.range B).flatMap fun p => atPrice p rs).map Resting.cell := by
    rw [List.map_flatMap]
    apply List.flatMap_congr
    intro p hp
    exact orders_eq h (List.mem_range.mp hp)
  rw [heq]
  exact (flatMap_filter_perm rs (·.raw.price) h.price_lt).map _

theorem load_resting {a : Allocator OrderBlock A} {buf : ℕ → OrderList}
    (h : Rep B a buf rs free) (hr : r ∈ rs) : ∃ b, a.slot r.slot = .live b ∧ b.data = r.data := by
  obtain ⟨k₁, k₂, -, hl⟩ := h.mem_level hr
  obtain ⟨b, hb, hn⟩ := Allocator.slot_of_heap hl.get
  exact ⟨b, hb, congrArg Node.val hn⟩

theorem rep_remove {a a₁ : Allocator OrderBlock A} {buf : ℕ → OrderList}
    (h : Rep B a buf (l₁ ++ r :: l₂) free)
    (ha₁ : Relinked a a₁ (unlinkHeap a.heap r.slot
      (last none ((atPrice r.raw.price l₁).map Resting.cell))
      (first ((atPrice r.raw.price l₂).map Resting.cell) none))) :
    Rep B (a₁.release r.slot)
      (Function.update buf r.raw.price (unlinkEnds (buf r.raw.price)
        (last none ((atPrice r.raw.price l₁).map Resting.cell))
        (first ((atPrice r.raw.price l₂).map Resting.cell) none)))
      (l₁ ++ l₂) (r.slot :: free) := by
  have hr : r ∈ l₁ ++ r :: l₂ := by simp
  have hn := (List.nodup_append.mp h.nodup).2.1
  rw [List.map_append, List.map_cons, List.nodup_middle, List.nodup_cons, ← List.map_append] at hn
  have hfree : ∀ p, ∀ i ∈ (atPrice p (l₁ ++ l₂)).map Resting.slot, i ≠ r.slot := by
    rintro p i hi rfl
    obtain ⟨x, hx, he⟩ := List.mem_map.mp hi
    exact hn.1 (List.mem_map.mpr ⟨x, (mem_atPrice.mp hx).1, he⟩)
  have hl := h.levels _ (h.price_lt r hr)
  rw [atPrice_append, atPrice_cons_self, List.map_append, List.map_cons] at hl
  refine ⟨fun p hp => ?_, fun x hx => h.price_lt x ?_, ?_, ?_⟩
  · -- the new pool differs from the unlinked heap at the removed slot only
    have hheap : ∀ i ∈ (atPrice p (l₁ ++ l₂)).map Resting.slot,
        (a₁.release r.slot).heap i = a₁.heap i := fun i hi => by
      rw [Allocator.heap_release, Function.update_of_ne (hfree p i hi)]
    by_cases hpr : p = r.raw.price
    · subst hpr
      rw [Function.update_self, atPrice_append, List.map_append]
      refine hl.unlink.frame fun i hi => ?_
      rw [← List.map_append, ← atPrice_append, Rep.map_fst_cell] at hi
      exact (hheap i hi).trans (congrFun ha₁.heap i)
    · rw [Function.update_of_ne hpr]
      have he : atPrice p (l₁ ++ r :: l₂) = atPrice p (l₁ ++ l₂) := by
        rw [atPrice_append, atPrice_cons_of_ne (Ne.symm hpr), atPrice_append]
      have hlp := h.levels p hp
      rw [he] at hlp
      refine hlp.frame fun i hi => ?_
      rw [Rep.map_fst_cell] at hi
      refine (hheap i hi).trans ((congrFun ha₁.heap i).trans ?_)
      apply unlinkHeap_of_notMem (c := r.cell)
      rw [← List.map_cons, ← List.map_append, ← atPrice_cons_self, ← atPrice_append,
        Rep.map_fst_cell]
      exact h.slot_notMem hpr (he ▸ hi)
  · simp only [List.mem_append, List.mem_cons] at hx ⊢; tauto
  · have hc : FreeChain a₁.links a₁.freeHead free := by
      rw [ha₁.links, ha₁.freeHead]; exact h.chain
    have := hc.push (h.slot_notMem_free hr)
    rwa [← Allocator.links_release] at this
  · refine List.Perm.trans ?_ h.slots
    simp only [List.map_append, List.map_cons, List.cons_append]
    exact (List.perm_middle.append_left free |>.trans List.perm_middle).symm

theorem remove_run (h : Rep B s.allocator s.orderBuffer (l₁ ++ r :: l₂) free) :
    ∃ s₁ a buf, unlink r.slot r.raw.price s = .ok (⟨⟩, s₁) ∧
      deallocate r.slot s₁ = .ok (⟨⟩, s.setBook a buf) ∧
      Rep B a buf (l₁ ++ l₂) (r.slot :: free) := by
  have hp := h.price_lt r (by simp)
  have hl := h.levels _ hp
  rw [atPrice_append, atPrice_cons_self, List.map_append, List.map_cons] at hl
  obtain ⟨a₁, hr₁, ha₁⟩ := unlink_run hp hl
  obtain ⟨b₁, hb₁, -⟩ := Allocator.slot_of_heap ((congrFun ha₁.heap _).trans hl.unlinkHeap_self)
  refine ⟨_, _, _, hr₁, ?_, rep_remove h ha₁⟩
  have hd : a₁.deallocate r.slot = .ok (a₁.release r.slot) := by
    rw [Resting.cell_fst] at hb₁
    simp [Allocator.deallocate, hb₁]
  simp [deallocate, hd]
  rfl

theorem write_setVal {a : Allocator OrderBlock A} {i : ℕ} {b v : OrderBlock}
    (h : a.slot i = .live b) (hp : v.prev = b.prev) (hn : v.next = b.next) :
    (a.write i (.live v)).heap = setVal a.heap i v.data := by
  rw [a.heap_write_live, setVal]
  simp [Allocator.heap, h, OrderBlock.node, hp, hn]

theorem rep_setQty {a : Allocator OrderBlock A} {buf : ℕ → OrderList}
    (h : Rep B a buf (l₁ ++ r :: l₂) free) {b : OrderBlock} (hb : a.slot r.slot = .live b)
    (hd : b.data = r.data) (q : ℕ) :
    Rep B (a.write r.slot (.live { b with currQty := q })) buf
      (l₁ ++ { r with currQty := q } :: l₂) free := by
  have hr : r ∈ l₁ ++ r :: l₂ := by simp
  have hheap : (a.write r.slot (.live { b with currQty := q })).heap =
      setVal a.heap r.slot ({ r with currQty := q } : Resting).data := by
    have hraw : b.raw = r.raw := congrArg BlockData.raw hd
    have hid : b.id = r.id := congrArg BlockData.id hd
    have hkey : b.key = r.key := congrArg BlockData.key hd
    rw [write_setVal (v := { b with currQty := q }) hb rfl rfl]
    simp only [OrderBlock.data, hraw, hid, hkey]
    rfl
  constructor
  · intro p hp
    have hlp := h.levels p hp
    by_cases hpr : p = r.raw.price
    · subst hpr
      rw [atPrice_append, atPrice_cons_self, List.map_append, List.map_cons] at hlp
      have := hlp.setVal ({ r with currQty := q } : Resting).data
      rw [hheap, atPrice_append, atPrice_cons_self { r with currQty := q }, List.map_append]
      exact this
    · have he : atPrice p (l₁ ++ { r with currQty := q } :: l₂) = atPrice p (l₁ ++ r :: l₂) := by
        have hne : r.raw.price ≠ p := Ne.symm hpr
        simp [atPrice_append, atPrice_cons_of_ne, hne]
      rw [he, hheap]
      apply hlp.frame
      intro i hi
      rw [Rep.map_fst_cell] at hi
      apply setVal_of_ne
      rintro rfl
      exact h.slot_notMem hpr hi (List.mem_map.mpr ⟨r, mem_atPrice.mpr ⟨hr, rfl⟩, rfl⟩)
  · intro x hx
    rcases List.mem_append.mp hx with hx | hx
    · exact h.price_lt x (by simp [hx])
    · rcases List.mem_cons.mp hx with rfl | hx
      · exact h.price_lt r hr
      · exact h.price_lt x (by simp [hx])
  · rw [links_write hb]
    exact h.chain
  · simpa using h.slots

theorem setQty_run (h : Rep B s.allocator s.orderBuffer (l₁ ++ r :: l₂) free) {b : OrderBlock}
    (hb : s.allocator.slot r.slot = .live b) (hd : b.data = r.data) (q : ℕ) :
    ∃ a, store r.slot { b with currQty := q } s = .ok (⟨⟩, s.setBook a s.orderBuffer) ∧
      Rep B a s.orderBuffer (l₁ ++ { r with currQty := q } :: l₂) free :=
  ⟨_, store_apply _ hb, rep_setQty h hb hd q⟩

/-- A slot taken from the pool and not yet linked into a level. -/
structure Reserved (B : ℕ) (a : Allocator OrderBlock A) (buf : ℕ → OrderList)
    (rs : List Resting) (i : ℕ) (free : List ℕ) : Prop where
  levels : ∀ p < B, IsList a.heap (buf p) ((atPrice p rs).map Resting.cell)
  price_lt : ∀ r ∈ rs, r.raw.price < B
  chain : FreeChain a.links a.freeHead free
  slots : (i :: free ++ rs.map Resting.slot).Perm (List.range A)
  live : ∃ b, a.slot i = .live b

theorem Reserved.nodup {a : Allocator OrderBlock A} {buf : ℕ → OrderList} {i : ℕ}
    (h : Reserved B a buf rs i free) : (i :: (free ++ rs.map Resting.slot)).Nodup :=
  h.slots.nodup_iff.mpr List.nodup_range

theorem Reserved.notMem {a : Allocator OrderBlock A} {buf : ℕ → OrderList} {i : ℕ}
    (h : Reserved B a buf rs i free) (p : ℕ) : i ∉ (atPrice p rs).map Resting.slot := by
  intro hi
  obtain ⟨x, hx, rfl⟩ := List.mem_map.mp hi
  apply (List.nodup_cons.mp h.nodup).1
  exact List.mem_append_right _ (List.mem_map.mpr ⟨x, (mem_atPrice.mp hx).1, rfl⟩)

theorem Reserved.store {a : Allocator OrderBlock A} {buf : ℕ → OrderList} {i : ℕ}
    (h : Reserved B a buf rs i free) (v : OrderBlock) :
    Reserved B (a.write i (.live v)) buf rs i free := by
  obtain ⟨b, hb⟩ := h.live
  constructor
  · intro p hp
    apply (h.levels p hp).frame
    intro j hj
    rw [Rep.map_fst_cell] at hj
    rw [a.heap_write_live, Function.update_of_ne]
    rintro rfl
    exact h.notMem p hj
  · exact h.price_lt
  · rw [links_write hb]
    exact h.chain
  · exact h.slots
  · exact ⟨v, by simp [Allocator.write]⟩

theorem allocate_none (h : Rep B s.allocator s.orderBuffer rs []) :
    allocate s = .ok (none, s) := by
  have hf : s.allocator.freeHead = none := h.chain
  simp [allocate, Allocator.allocate, Allocator.full, hf]
  rfl

theorem allocate_some {i : ℕ} (h : Rep B s.allocator s.orderBuffer rs (i :: free)) :
    ∃ a, allocate s = .ok (some i, s.setBook a s.orderBuffer) ∧
      Reserved B a s.orderBuffer rs i free := by
  obtain ⟨hf, n, hn, hc⟩ := h.chain
  have hs : s.allocator.slot i = .free n := by
    unfold Allocator.links at hn
    split at hn
    · rename_i m hm; rw [hm, Option.some.inj hn]
    · cases hn
  have hnd := h.nodup
  rw [List.cons_append, List.nodup_cons] at hnd
  refine ⟨s.allocator.take i n default, ?_, ?_⟩
  · simp [allocate, Allocator.allocate, Allocator.full, hf, hs]
    rfl
  · constructor
    · intro p hp
      apply (h.levels p hp).frame
      intro j hj
      rw [Rep.map_fst_cell] at hj
      rw [Allocator.heap_take, Function.update_of_ne]
      rintro rfl
      obtain ⟨x, hx, hxj⟩ := List.mem_map.mp hj
      exact hnd.1 (List.mem_append_right _ (List.mem_map.mpr ⟨x, (mem_atPrice.mp hx).1, hxj⟩))
    · exact h.price_lt
    · rw [Allocator.links_take]
      apply hc.frame
      intro j hj
      rw [Function.update_of_ne]
      rintro rfl
      exact hnd.1 (List.mem_append_left _ hj)
    · exact h.slots
    · exact ⟨default, by simp [Allocator.take]⟩

theorem append_run (h : Reserved B s.allocator s.orderBuffer rs r.slot free) {b : OrderBlock}
    (hb : s.allocator.slot r.slot = .live b) (hd : b.data = r.data) (hp : r.raw.price < B) :
    ∃ a buf, appendList r.slot r.raw.price s = .ok (⟨⟩, s.setBook a buf) ∧
      Rep B a buf (rs ++ [r]) free := by
  have hl := h.levels _ hp
  have hi : r.slot ∉ ((atPrice r.raw.price rs).map Resting.cell).map Prod.fst := by
    rw [Rep.map_fst_cell]
    exact h.notMem _
  obtain ⟨a, hr, ha⟩ := appendList_run hp hl hi hb
  have hnode : s.allocator.heap r.slot = some ⟨r.data, b.prev, b.next⟩ := by
    simp [Allocator.heap, hb, OrderBlock.node, hd]
  refine ⟨a, _, hr, ?_⟩
  constructor
  · intro p hpB
    rw [ha.heap]
    by_cases hpr : p = r.raw.price
    · subst hpr
      rw [Function.update_self, atPrice_append, atPrice_cons_self, List.map_append]
      exact hl.append hi hnode
    · rw [Function.update_of_ne hpr, atPrice_append, atPrice_cons_of_ne (Ne.symm hpr)]
      simp only [atPrice, List.filter_nil, List.append_nil]
      apply (h.levels p hpB).frame
      intro j hj
      rw [Rep.map_fst_cell] at hj
      apply appendHeap_of_ne
      · rintro rfl; exact h.notMem p hj
      · intro ht
        have hn := (List.nodup_append.mp (List.nodup_cons.mp h.nodup).2).2.1
        apply slot_notMem_atPrice hn hpr hj
        rw [← Rep.map_fst_cell]
        exact last_mem (hl.tail ▸ ht)
  · intro x hx
    rcases List.mem_append.mp hx with hx | hx
    · exact h.price_lt x hx
    · rw [List.mem_singleton.mp hx]; exact hp
  · rw [ha.links, ha.freeHead]
    exact h.chain
  · refine List.Perm.trans ?_ h.slots
    simp only [List.map_append, List.map_cons, List.map_nil, List.cons_append, ← List.append_assoc]
    exact List.perm_append_singleton _ _

/-- Filling in a reserved block and linking it rests the order. The two updates `f` and `g` of
the rest of the engine are those of the best price and of the counter. -/
theorem rest_run {f g : Engine B A → Engine B A}
    (hf : ∀ s a buf, f (s.setBook a buf) = (f s).setBook a buf)
    (hg : ∀ s a buf, g (s.setBook a buf) = (g s).setBook a buf)
    (h : Reserved B s.allocator s.orderBuffer rs r.slot free) (hp : r.raw.price < B) :
    ∃ a buf, (do
        modify f
        store r.slot { ← load r.slot with id := r.id, key := r.key, currQty := r.currQty }
        modify g
        store r.slot { ← load r.slot with raw := r.raw }
        appendList r.slot r.raw.price
        insertKey r.key r.slot
        return r.id : EngineM B A ℕ) s =
      .ok (r.id, { (g (f s)).setBook a buf with
        orderBlocksMap := Function.update (g (f s)).orderBlocksMap r.key (some r.slot) }) ∧
      Rep B a buf (rs ++ [r]) free := by
  have hkeep : ∀ f : Engine B A → Engine B A,
      (∀ s a buf, f (s.setBook a buf) = (f s).setBook a buf) →
      ∀ s, f s = (f s).setBook s.allocator s.orderBuffer :=
    fun f hf s => hf s s.allocator s.orderBuffer
  obtain ⟨b, hb⟩ := h.live
  let b₁ : OrderBlock := { b with id := r.id, key := r.key, currQty := r.currQty }
  let a₁ := s.allocator.write r.slot (.live b₁)
  have hslot₁ : a₁.slot r.slot = .live b₁ := by simp [a₁, Allocator.write]
  let b₂ : OrderBlock := { b₁ with raw := r.raw }
  let a₂ := a₁.write r.slot (.live b₂)
  have hslot₂ : a₂.slot r.slot = .live b₂ := by simp [a₂, Allocator.write]
  have hload : load r.slot (f s) = .ok (b, f s) := by
    rw [hkeep f hf s]
    exact load_apply hb
  have hstore : store r.slot b₁ (f s) = .ok (⟨⟩, (f s).setBook a₁ s.orderBuffer) := by
    rw [hkeep f hf s]
    exact store_apply _ hb
  have hload₁ : load r.slot ((g (f s)).setBook a₁ s.orderBuffer) =
      .ok (b₁, (g (f s)).setBook a₁ s.orderBuffer) := load_apply hslot₁
  have hstore₁ : store r.slot b₂ ((g (f s)).setBook a₁ s.orderBuffer) =
      .ok (⟨⟩, (g (f s)).setBook a₂ s.orderBuffer) := store_apply _ hslot₁
  obtain ⟨a, buf, happend, hrep⟩ := append_run (s := (g (f s)).setBook a₂ s.orderBuffer)
    ((h.store b₁).store b₂) hslot₂ rfl hp
  refine ⟨a, buf, ?_, hrep⟩
  rw [modify_bind, bind_ok hload, bind_ok hstore, modify_bind, hg, bind_ok hload₁, bind_ok hstore₁,
    bind_ok happend]
  rfl

end Engine

end LowLevel.OrderBook
