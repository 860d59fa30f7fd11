import Mathlib.Data.List.Nodup
import Mathlib.Logic.Function.Basic

/-! # Doubly linked lists in a heap

Cells live at addresses of a partial heap and carry a value and two links.
A pair of end pointers represents the sequence of cells met from head to tail.
Unlinking, appending and overwriting a value act on the represented sequence
as the corresponding list operations, and touch no cell outside of it.
-/

namespace LowLevel

structure Node (β : Type*) where
  val : β
  prev : Option ℕ
  next : Option ℕ

abbrev Heap (β : Type*) := ℕ → Option (Node β)

structure Ends where
  head : Option ℕ := none
  tail : Option ℕ := none
  deriving DecidableEq, Repr

namespace DoublyLinked

variable {β : Type*}

/-- The address of the first cell, or the continuation of an empty list. -/
def first : List (ℕ × β) → Option ℕ → Option ℕ
  | [], n => n
  | c :: _, _ => some c.1

/-- The address of the last cell, or the predecessor of an empty list. -/
def last : Option ℕ → List (ℕ × β) → Option ℕ
  | p, [] => p
  | _, c :: l => last (some c.1) l

/-- The heap holds the given cells, linked in order between two neighbours. -/
def Chain (h : Heap β) : Option ℕ → List (ℕ × β) → Option ℕ → Prop
  | _, [], _ => True
  | p, c :: l, n => h c.1 = some ⟨c.2, p, first l n⟩ ∧ Chain h (some c.1) l n

@[simp] theorem first_nil (n : Option ℕ) : first ([] : List (ℕ × β)) n = n := rfl
@[simp] theorem first_cons (c : ℕ × β) (l : List (ℕ × β)) (n : Option ℕ) :
    first (c :: l) n = some c.1 := rfl
@[simp] theorem last_nil (p : Option ℕ) : last p ([] : List (ℕ × β)) = p := rfl
@[simp] theorem last_cons (p : Option ℕ) (c : ℕ × β) (l : List (ℕ × β)) :
    last p (c :: l) = last (some c.1) l := rfl
@[simp] theorem chain_nil (h : Heap β) (p n : Option ℕ) : Chain h p [] n := trivial

@[simp] theorem chain_cons {h : Heap β} {p n : Option ℕ} {c : ℕ × β} {l : List (ℕ × β)} :
    Chain h p (c :: l) n ↔ h c.1 = some ⟨c.2, p, first l n⟩ ∧ Chain h (some c.1) l n := Iff.rfl

@[simp] theorem first_append (l₁ l₂ : List (ℕ × β)) (n : Option ℕ) :
    first (l₁ ++ l₂) n = first l₁ (first l₂ n) := by cases l₁ <;> rfl

@[simp] theorem last_append (p : Option ℕ) (l₁ l₂ : List (ℕ × β)) :
    last p (l₁ ++ l₂) = last (last p l₁) l₂ := by
  induction l₁ generalizing p with
  | nil => rfl
  | cons c l₁ ih => exact ih _

theorem chain_append {h : Heap β} {p n : Option ℕ} {l₁ l₂ : List (ℕ × β)} :
    Chain h p (l₁ ++ l₂) n ↔ Chain h p l₁ (first l₂ n) ∧ Chain h (last p l₁) l₂ n := by
  induction l₁ generalizing p with
  | nil => simp
  | cons c l₁ ih => simp [ih, and_assoc]

theorem Chain.frame {h h' : Heap β} {p n : Option ℕ} {l : List (ℕ × β)}
    (hc : Chain h p l n) (hh : ∀ i ∈ l.map Prod.fst, h' i = h i) : Chain h' p l n := by
  induction l generalizing p with
  | nil => trivial
  | cons c l ih =>
    refine ⟨(hh _ (by simp)).trans hc.1, ih hc.2 fun i hi => hh i ?_⟩
    exact List.mem_cons_of_mem _ hi

def setNext (h : Heap β) (i : ℕ) (n : Option ℕ) : Heap β :=
  Function.update h i ((h i).map fun c => { c with next := n })

def setPrev (h : Heap β) (i : ℕ) (p : Option ℕ) : Heap β :=
  Function.update h i ((h i).map fun c => { c with prev := p })

def setVal (h : Heap β) (i : ℕ) (v : β) : Heap β :=
  Function.update h i ((h i).map fun c => { c with val := v })

/-- Redirect the forward link of a neighbour, when there is one. -/
def relinkNext (h : Heap β) (p n : Option ℕ) : Heap β :=
  match p with
  | some j => setNext h j n
  | none => h

/-- Redirect the backward link of a neighbour, when there is one. -/
def relinkPrev (h : Heap β) (n p : Option ℕ) : Heap β :=
  match n with
  | some j => setPrev h j p
  | none => h

theorem setNext_of_ne (h : Heap β) {i j : ℕ} (hij : j ≠ i) (n : Option ℕ) :
    setNext h i n j = h j := Function.update_of_ne hij _ _

theorem setPrev_of_ne (h : Heap β) {i j : ℕ} (hij : j ≠ i) (p : Option ℕ) :
    setPrev h i p j = h j := Function.update_of_ne hij _ _

theorem setVal_of_ne (h : Heap β) {i j : ℕ} (hij : j ≠ i) (v : β) :
    setVal h i v j = h j := Function.update_of_ne hij _ _

theorem last_mem {l : List (ℕ × β)} {j : ℕ} (hj : last none l = some j) :
    j ∈ l.map Prod.fst := by
  rcases List.eq_nil_or_concat l with rfl | ⟨l', a, rfl⟩
  · simp at hj
  · simp_all

theorem first_mem {l : List (ℕ × β)} {j : ℕ} (hj : first l none = some j) :
    j ∈ l.map Prod.fst := by
  cases l with
  | nil => simp at hj
  | cons c l => simp_all

theorem relinkNext_of_ne (h : Heap β) {p : Option ℕ} {j : ℕ} (hj : p ≠ some j) (n : Option ℕ) :
    relinkNext h p n j = h j := by
  cases p with
  | none => rfl
  | some i =>
    have hij : j ≠ i := by rintro rfl; exact hj rfl
    exact setNext_of_ne h hij n

theorem relinkPrev_of_ne (h : Heap β) {n : Option ℕ} {j : ℕ} (hj : n ≠ some j) (p : Option ℕ) :
    relinkPrev h n p j = h j := by
  cases n with
  | none => rfl
  | some i =>
    have hij : j ≠ i := by rintro rfl; exact hj rfl
    exact setPrev_of_ne h hij p

theorem isSome_relinkNext {h : Heap β} {p n : Option ℕ} {i : ℕ} (hi : (h i).isSome) :
    (relinkNext h p n i).isSome := by
  cases p with
  | none => exact hi
  | some j =>
    by_cases hij : i = j
    · subst hij
      simpa [relinkNext, setNext] using hi
    · rwa [relinkNext, setNext_of_ne _ hij]

theorem Chain.relinkNext {h : Heap β} {l : List (ℕ × β)} {n : Option ℕ}
    (hc : Chain h none l n) (hn : (l.map Prod.fst).Nodup) (n' : Option ℕ) :
    Chain (relinkNext h (last none l) n') none l n' := by
  rcases List.eq_nil_or_concat l with rfl | ⟨l', a, rfl⟩
  · trivial
  · rw [List.concat_eq_append] at *
    have ha : a.1 ∉ l'.map Prod.fst := by
      rw [List.map_append, List.nodup_append] at hn
      exact fun hm => hn.2.2 _ hm _ (by simp) rfl
    obtain ⟨hl, ha', -⟩ := chain_append.mp hc
    refine chain_append.mpr ⟨hl.frame fun i hi => ?_, ?_, trivial⟩
    · exact relinkNext_of_ne h (by rintro he; simp at he; exact ha (he ▸ hi)) n'
    · simp [DoublyLinked.relinkNext, setNext, ha']

theorem Chain.relinkPrev {h : Heap β} {l : List (ℕ × β)} {p : Option ℕ}
    (hc : Chain h p l none) (hn : (l.map Prod.fst).Nodup) (p' : Option ℕ) :
    Chain (relinkPrev h (first l none) p') p' l none := by
  cases l with
  | nil => trivial
  | cons b l =>
    obtain ⟨hb, hl⟩ := hc
    have hb' : b.1 ∉ l.map Prod.fst := (List.nodup_cons.mp hn).1
    refine ⟨by simp [DoublyLinked.relinkPrev, setPrev, hb], hl.frame fun i hi => ?_⟩
    exact relinkPrev_of_ne h (by rintro he; simp at he; exact hb' (he ▸ hi)) p'

/-- The end pointers and the heap represent the given sequence of cells. -/
structure IsList (h : Heap β) (e : Ends) (l : List (ℕ × β)) : Prop where
  head : e.head = first l none
  tail : e.tail = last none l
  chain : Chain h none l none
  nodup : (l.map Prod.fst).Nodup

theorem isList_nil (h : Heap β) : IsList h {} [] := ⟨rfl, rfl, trivial, by simp⟩

theorem IsList.frame {h h' : Heap β} {e : Ends} {l : List (ℕ × β)} (hl : IsList h e l)
    (hh : ∀ i ∈ l.map Prod.fst, h' i = h i) : IsList h' e l :=
  ⟨hl.head, hl.tail, hl.chain.frame hh, hl.nodup⟩

theorem IsList.get {h : Heap β} {e : Ends} {l₁ l₂ : List (ℕ × β)} {c : ℕ × β}
    (hl : IsList h e (l₁ ++ c :: l₂)) :
    h c.1 = some ⟨c.2, last none l₁, first l₂ none⟩ :=
  (chain_append.mp hl.chain).2.1

theorem IsList.exists_of_mem {h : Heap β} {e : Ends} {l : List (ℕ × β)} {i : ℕ}
    (hl : IsList h e l) (hi : i ∈ l.map Prod.fst) : ∃ c, h i = some c := by
  obtain ⟨c, hc, rfl⟩ := List.mem_map.mp hi
  obtain ⟨l₁, l₂, rfl⟩ := List.append_of_mem hc
  exact ⟨_, hl.get⟩

/-- The cells met by following at most `fuel` links. -/
def walk (h : Heap β) : ℕ → Option ℕ → List (ℕ × β)
  | 0, _ => []
  | _ + 1, none => []
  | fuel + 1, some i =>
    match h i with
    | some c => (i, c.val) :: walk h fuel c.next
    | none => []

theorem Chain.walk {h : Heap β} {p : Option ℕ} {l : List (ℕ × β)} (hc : Chain h p l none)
    {fuel : ℕ} (hf : l.length ≤ fuel) : DoublyLinked.walk h fuel (first l none) = l := by
  induction l generalizing p fuel with
  | nil => cases fuel <;> rfl
  | cons c l ih =>
    cases fuel with
    | zero => simp at hf
    | succ fuel =>
      obtain ⟨hcell, hl⟩ := hc
      simp only [first_cons, DoublyLinked.walk, hcell]
      rw [ih hl (Nat.le_of_succ_le_succ hf)]

theorem IsList.walk {h : Heap β} {e : Ends} {l : List (ℕ × β)} (hl : IsList h e l)
    {fuel : ℕ} (hf : l.length ≤ fuel) : DoublyLinked.walk h fuel e.head = l := by
  rw [hl.head]
  exact hl.chain.walk hf

/-- A cell and its two neighbours have different addresses. -/
theorem IsList.neighbours {h : Heap β} {e : Ends} {l₁ l₂ : List (ℕ × β)} {c : ℕ × β}
    (hl : IsList h e (l₁ ++ c :: l₂)) :
    last none l₁ ≠ some c.1 ∧ first l₂ none ≠ some c.1 ∧
      ∀ j, last none l₁ = some j → first l₂ none ≠ some j := by
  have hn := hl.nodup
  simp only [List.map_append, List.map_cons, List.nodup_append, List.nodup_cons,
    List.mem_cons] at hn
  obtain ⟨-, ⟨hc₂, -⟩, hd⟩ := hn
  refine ⟨fun h => hd _ (last_mem h) _ (Or.inl rfl) rfl, fun h => hc₂ (first_mem h), ?_⟩
  exact fun j hj hj' => hd _ (last_mem hj) _ (Or.inr (first_mem hj')) rfl

/-- The heap after detaching a cell: its neighbours skip over it. -/
def unlinkHeap (h : Heap β) (i : ℕ) (p n : Option ℕ) : Heap β :=
  setPrev (setNext (relinkPrev (relinkNext h p n) n p) i none) i none

/-- The end pointers after detaching a cell with the given neighbours. -/
def unlinkEnds (e : Ends) (p n : Option ℕ) : Ends :=
  ⟨if p = none then n else e.head, if n = none then p else e.tail⟩

theorem unlinkHeap_of_ne (h : Heap β) {i j : ℕ} {p n : Option ℕ} (hi : j ≠ i)
    (hp : p ≠ some j) (hn : n ≠ some j) : unlinkHeap h i p n j = h j := by
  rw [unlinkHeap, setPrev_of_ne _ hi, setNext_of_ne _ hi, relinkPrev_of_ne _ hn,
    relinkNext_of_ne _ hp]

theorem unlinkHeap_of_notMem {h : Heap β} {l₁ l₂ : List (ℕ × β)} {c : ℕ × β} {j : ℕ}
    (hj : j ∉ (l₁ ++ c :: l₂).map Prod.fst) :
    unlinkHeap h c.1 (last none l₁) (first l₂ none) j = h j := by
  apply unlinkHeap_of_ne
  · rintro rfl; simp at hj
  · intro he; exact hj (by simpa using Or.inl (by simpa using last_mem he))
  · intro he; exact hj (by simpa using Or.inr (Or.inr (by simpa using first_mem he)))

/-- A detached cell keeps its value. -/
theorem IsList.unlinkHeap_self {h : Heap β} {e : Ends} {l₁ l₂ : List (ℕ × β)} {c : ℕ × β}
    (hl : IsList h e (l₁ ++ c :: l₂)) :
    unlinkHeap h c.1 (last none l₁) (first l₂ none) c.1 = some ⟨c.2, none, none⟩ := by
  obtain ⟨hc₁, hc₂, -⟩ := hl.neighbours
  have hc : relinkPrev (relinkNext h (last none l₁) (first l₂ none)) (first l₂ none)
      (last none l₁) c.1 = some ⟨c.2, last none l₁, first l₂ none⟩ := by
    rw [relinkPrev_of_ne _ hc₂, relinkNext_of_ne _ hc₁, hl.get]
  simp [unlinkHeap, setPrev, setNext, hc]

theorem last_eq_none {l : List (ℕ × β)} : last none l = none ↔ l = [] := by
  rcases List.eq_nil_or_concat l with rfl | ⟨l', a, rfl⟩ <;> simp

theorem first_eq_none {l : List (ℕ × β)} : first l none = none ↔ l = [] := by
  cases l <;> simp

theorem IsList.unlink {h : Heap β} {e : Ends} {l₁ l₂ : List (ℕ × β)} {c : ℕ × β}
    (hl : IsList h e (l₁ ++ c :: l₂)) :
    IsList (unlinkHeap h c.1 (last none l₁) (first l₂ none))
      (unlinkEnds e (last none l₁) (first l₂ none)) (l₁ ++ l₂) := by
  have hn := hl.nodup
  simp only [List.map_append, List.map_cons, List.nodup_append, List.nodup_cons,
    List.mem_cons] at hn
  obtain ⟨hn₁, ⟨hc₂, hn₂⟩, hd⟩ := hn
  have hc₁ : c.1 ∉ l₁.map Prod.fst := fun hm => hd _ hm _ (Or.inl rfl) rfl
  obtain ⟨hl₁, -, hl₂⟩ := chain_append.mp hl.chain
  refine ⟨?_, ?_, chain_append.mpr ⟨?_, ?_⟩, ?_⟩
  · cases l₁ with
    | nil => simp [unlinkEnds]
    | cons a l => simp [unlinkEnds, last_eq_none, hl.head, -last_cons]
  · cases l₂ with
    | nil => simp [unlinkEnds]
    | cons b l => simp [unlinkEnds, hl.tail]
  · -- of the cells before, only the last is relinked
    refine (hl₁.relinkNext hn₁ (first l₂ none)).frame fun i hi => ?_
    have hic : i ≠ c.1 := fun he => hc₁ (he ▸ hi)
    have hi₂ : first l₂ none ≠ some i := fun he => hd _ hi _ (Or.inr (first_mem he)) rfl
    rw [unlinkHeap, setPrev_of_ne _ hic, setNext_of_ne _ hic, relinkPrev_of_ne _ hi₂]
  · have hl₂' : Chain (relinkNext h (last none l₁) (first l₂ none)) (some c.1) l₂ none := by
      refine hl₂.frame fun i hi => relinkNext_of_ne h ?_ _
      exact fun he => hd _ (last_mem he) _ (Or.inr hi) rfl
    refine (hl₂'.relinkPrev hn₂ (last none l₁)).frame fun i hi => ?_
    have hic : i ≠ c.1 := fun he => hc₂ (he ▸ hi)
    rw [unlinkHeap, setPrev_of_ne _ hic, setNext_of_ne _ hic]
  · simp only [List.map_append, List.nodup_append]
    exact ⟨hn₁, hn₂, fun a ha b hb => hd a ha b (Or.inr hb)⟩

def appendHeap (h : Heap β) (e : Ends) (i : ℕ) : Heap β :=
  relinkNext (setPrev (setNext h i none) i e.tail) e.tail (some i)

/-- The end pointers after linking a cell behind the current tail. -/
def appendEnds (e : Ends) (i : ℕ) : Ends :=
  ⟨if e.tail = none then some i else e.head, some i⟩

theorem appendHeap_of_ne (h : Heap β) {e : Ends} {i j : ℕ} (hi : j ≠ i)
    (ht : e.tail ≠ some j) : appendHeap h e i j = h j := by
  rw [appendHeap, relinkNext_of_ne _ ht, setPrev_of_ne _ hi, setNext_of_ne _ hi]

theorem IsList.tail_ne {h : Heap β} {e : Ends} {l : List (ℕ × β)} (hl : IsList h e l)
    {i : ℕ} (hi : i ∉ l.map Prod.fst) : e.tail ≠ some i :=
  fun he => hi (last_mem (hl.tail ▸ he))

theorem IsList.append {h : Heap β} {e : Ends} {l : List (ℕ × β)} (hl : IsList h e l)
    {i : ℕ} {c : Node β} (hi : i ∉ l.map Prod.fst) (hc : h i = some c) :
    IsList (appendHeap h e i) (appendEnds e i) (l ++ [(i, c.val)]) := by
  refine ⟨?_, by simp [appendEnds], chain_append.mpr ⟨?_, ?_, trivial⟩, ?_⟩
  · cases l with
    | nil => simp [appendEnds, hl.tail]
    | cons a l => simp [appendEnds, last_eq_none, hl.tail, hl.head, -last_cons]
  · rw [appendHeap, hl.tail]
    refine (hl.chain.frame fun j hj => ?_).relinkNext hl.nodup _
    have hji : j ≠ i := fun he => hi (he ▸ hj)
    rw [setPrev_of_ne _ hji, setNext_of_ne _ hji]
  · rw [appendHeap, relinkNext_of_ne _ (hl.tail_ne hi)]
    simp [setPrev, setNext, hc, hl.tail]
  · simp only [List.map_append, List.nodup_append]
    refine ⟨hl.nodup, by simp, fun a ha b hb he => hi ?_⟩
    obtain rfl : b = i := by simpa using hb
    exact he ▸ ha

def linkHeap (h : Heap β) (i : ℕ) (p n : Option ℕ) : Heap β :=
  relinkPrev (relinkNext (setPrev (setNext h i n) i p) p (some i)) n (some i)

/-- The end pointers after linking a cell between two neighbours. -/
def linkEnds (e : Ends) (i : ℕ) (p n : Option ℕ) : Ends :=
  ⟨if p = none then some i else e.head, if n = none then some i else e.tail⟩

theorem IsList.link {h : Heap β} {e : Ends} {l₁ l₂ : List (ℕ × β)} (hl : IsList h e (l₁ ++ l₂))
    {i : ℕ} {c : Node β} (hi : i ∉ (l₁ ++ l₂).map Prod.fst) (hc : h i = some c) :
    IsList (linkHeap h i (last none l₁) (first l₂ none))
      (linkEnds e i (last none l₁) (first l₂ none)) (l₁ ++ (i, c.val) :: l₂) := by
  have hn := hl.nodup
  rw [List.map_append, List.nodup_append] at hn
  obtain ⟨hn₁, hn₂, hd⟩ := hn
  rw [List.map_append, List.mem_append, not_or] at hi
  obtain ⟨hi₁, hi₂⟩ := hi
  obtain ⟨hl₁, hl₂⟩ := chain_append.mp hl.chain
  have hset : ∀ j ≠ i, setPrev (setNext h i (first l₂ none)) i (last none l₁) j = h j := by
    intro j hj
    rw [setPrev_of_ne _ hj, setNext_of_ne _ hj]
  refine ⟨?_, ?_, chain_append.mpr ⟨?_, ?_, ?_⟩, ?_⟩
  · cases l₁ with
    | nil => simp [linkEnds]
    | cons a l => simp [linkEnds, last_eq_none, hl.head, -last_cons]
  · cases l₂ with
    | nil => simp [linkEnds]
    | cons b l => simp [linkEnds, hl.tail]
  · -- of the cells before, only the last is relinked
    have hl₁' := hl₁.frame fun j hj => hset j fun he => hi₁ (he ▸ hj)
    refine (hl₁'.relinkNext hn₁ (some i)).frame fun j hj => relinkPrev_of_ne _ ?_ _
    exact fun he => hd _ hj _ (first_mem he) rfl
  · have h₁ : last none l₁ ≠ some i := fun he => hi₁ (last_mem he)
    have h₂ : first l₂ none ≠ some i := fun he => hi₂ (first_mem he)
    rw [linkHeap, relinkPrev_of_ne _ h₂, relinkNext_of_ne _ h₁]
    simp [setPrev, setNext, hc]
  · have hl₂' : Chain (relinkNext (setPrev (setNext h i (first l₂ none)) i (last none l₁))
        (last none l₁) (some i)) (last none l₁) l₂ none := by
      refine hl₂.frame fun j hj => ?_
      rw [relinkNext_of_ne _ fun he => hd _ (last_mem he) _ hj rfl]
      exact hset j fun he => hi₂ (he ▸ hj)
    exact hl₂'.relinkPrev hn₂ (some i)
  · simp only [List.map_append, List.map_cons, List.nodup_append, List.nodup_cons, List.mem_cons]
    refine ⟨hn₁, ⟨hi₂, hn₂⟩, fun a ha b hb => ?_⟩
    rcases hb with rfl | hb
    · rintro rfl
      exact hi₁ ha
    · exact hd a ha b hb

theorem IsList.setVal {h : Heap β} {e : Ends} {l₁ l₂ : List (ℕ × β)} {c : ℕ × β}
    (hl : IsList h e (l₁ ++ c :: l₂)) (v : β) :
    IsList (setVal h c.1 v) e (l₁ ++ (c.1, v) :: l₂) := by
  have hn := hl.nodup
  simp only [List.map_append, List.map_cons, List.nodup_append, List.nodup_cons,
    List.mem_cons] at hn
  obtain ⟨-, ⟨hc₂, -⟩, hd⟩ := hn
  obtain ⟨hl₁, hc, hl₂⟩ := chain_append.mp hl.chain
  refine ⟨by simpa using hl.head, by simpa using hl.tail, chain_append.mpr ⟨?_, ?_, ?_⟩, ?_⟩
  · refine hl₁.frame fun i hi => setVal_of_ne h (fun he => ?_) v
    exact hd _ hi _ (Or.inl he) rfl
  · simp [DoublyLinked.setVal, hc]
  · refine hl₂.frame fun i hi => setVal_of_ne h ?_ v
    rintro rfl
    exact hc₂ hi
  · simpa using hl.nodup

end DoublyLinked

end LowLevel
