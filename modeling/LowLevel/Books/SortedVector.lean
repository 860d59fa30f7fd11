import LowLevel.Books.ListBook
import LowLevel.Foundations.Search

/-! # The sorted vector book

Each side is one vector from the worst to the best order, so that the best one
is at the back. An insert finds its place by binary search under the inverted
comparison, and a cancel scans for the id from the worst order on.
-/

namespace LowLevel.Books

open Ladder

namespace SortedVector

def insert (side : Side) (book : List Order) (order : Order) : List Order :=
  book.insertIdx (lowerBound (fun o => Order.lt side o order) book) order

def cancel (book : List Order) (id : ℕ) : Option (List Order) :=
  (book.findIdx? fun o => o.id = id).map book.eraseIdx

def ops (side : Side) : SideOps (List Order) where
  waiting book := !book.isEmpty
  price book := book.getLast?.map Order.price
  front book := book.getLast?
  resize book size := book.getLast?.map fun o => book.dropLast ++ [{ o with size }]
  pop book := book.getLast?.map fun _ => book.dropLast
  insert book _ order := some (insert side book order)
  cancel book id := some (cancel book id)

end SortedVector

/-- `OrderBook_SortedVector`, which numbers orders and prices market orders as
the list book does. -/
def sortedVector : BookClass (List Order) where
  ops := SortedVector.ops
  init _ := []
  accepts _ := true
  issue := preIncrement
  marketPrice := listMarketPrice

namespace SortedVector

variable {book : List Order} {l : Ladder} {side : Side} {ids : ℕ → ℕ} {n : ℕ}

/-- The vector holds the orders of a ladder from the worst to the best. -/
def Rep (book : List Order) (l : Ladder) : Prop := book = (l.rows.map Prod.snd).reverse

theorem represents (side : Side) : Represents (ops side) side ids (fun _ => True) Rep where
  waiting _ h := by
    rw [Rep] at h
    simp [ops, h]
  price _ h hl := by simp [ops, Rep] at h ⊢; simp [h, hl]
  front _ h hl := by simp [ops, Rep] at h ⊢; simp [h, hl]
  resize {n book l r rows} size _ h hl := by
    rw [Rep, hl] at h
    subst h
    refine ⟨(rows.map Prod.snd).reverse ++ [{ r.2 with size }], ?_, ?_⟩
    · simp [ops]
    · simp [Rep]
  pop {n book l r rows} _ h hl := by
    rw [Rep, hl] at h
    subst h
    refine ⟨(rows.map Prod.snd).reverse, ?_, rfl⟩
    simp [ops]
  unknown {n book l i} hi h hk := by
    rw [Rep] at h
    subst h
    have hnone : ∀ r ∈ l.rows, r.2.id ≠ i := by
      rintro r hr rfl
      simp [hi.known trivial r hr] at hk
    simp only [ops, cancel, Option.some.injEq, Option.map_eq_none_iff, List.findIdx?_eq_none_iff]
    intro o ho
    simp only [List.mem_reverse, List.mem_map] at ho
    obtain ⟨r, hr, rfl⟩ := ho
    simpa using hnone r hr
  cancel {n book l i m} hi h hk := by
    obtain ⟨rfl, hm⟩ := hi.sound hk
    obtain ⟨r, hr, rfl⟩ := List.mem_map.mp hm
    have hid := hi.idOf r hr
    obtain ⟨rows₁, rows₂, hl⟩ := List.append_of_mem hr
    rw [Rep, hl] at h
    subst h
    have hn := hi.nodup
    -- the table tells every other row apart from the one that is removed
    have hother : ∀ r' ∈ rows₂, r'.2.id ≠ r.2.id := by
      intro r' hr' he
      have hmem : r' ∈ l.rows := by simp [hl, hr']
      have hk' := hi.known trivial r' hmem
      rw [he, hi.known trivial r hr] at hk'
      rw [hl, List.map_append, List.map_cons, List.nodup_middle, List.nodup_cons,
        List.mem_append, not_or] at hn
      exact hn.1.2 (by rw [Option.some.inj hk']; exact List.mem_map_of_mem hr')
    have hfind : ((rows₁ ++ r :: rows₂).map Prod.snd).reverse.findIdx? (fun o => o.id = ids r.1) =
        some rows₂.length := by
      have hnone : ((rows₂.map Prod.snd).reverse.findIdx? fun o => o.id = ids r.1) = none := by
        rw [List.findIdx?_eq_none_iff]
        intro o ho
        simp only [List.mem_reverse, List.mem_map] at ho
        obtain ⟨r', hr', rfl⟩ := ho
        simpa [← hid] using hother r' hr'
      simp [List.findIdx?_append, hnone, List.findIdx?_cons, hid]
    refine ⟨((rows₁ ++ rows₂).map Prod.snd).reverse, ?_, ?_⟩
    · simp only [ops, cancel, hfind, Option.map_some]
      simp [List.eraseIdx_append_of_length_le]
    · rw [Rep, hl, filter_row (hl ▸ hi.nodup)]

theorem lt_of_better {o order : Order} (h : side.better order.price o.price) :
    Order.lt side o order = true := by
  rw [Order.lt, if_pos h]

theorem lt_of_stays {r : ℕ × Order} {order : Order} (h : stays side order.price r)
    (hid : r.2.id < order.id) : Order.lt side r.2 order = false := by
  cases side <;> simp only [Order.lt, Side.better, stays] at h ⊢ <;> grind

theorem insert_rep (hi : Inv side ids (fun _ => True) n l) (h : Rep book l) {order : Order}
    (hid : ∀ r ∈ l.rows, r.2.id < order.id) :
    Rep (insert side book order) (l.insert side n order) := by
  rw [Rep] at h
  subst h
  have hsplit : (l.rows.map Prod.snd).reverse =
      ((l.rows.dropWhile (stays side order.price)).map Prod.snd).reverse ++
        ((l.rows.takeWhile (stays side order.price)).map Prod.snd).reverse := by
    rw [← List.reverse_append, ← List.map_append, List.takeWhile_append_dropWhile]
  rw [insert, hsplit, insertIdx_lowerBound_append, Rep, Ladder.insert]
  · simp
  · intro o ho
    simp only [List.mem_reverse, List.mem_map] at ho
    obtain ⟨r, hr, rfl⟩ := ho
    exact lt_of_better (better_of_mem_dropWhile hi.sorted hr)
  · intro o ho
    simp only [List.mem_reverse, List.mem_map] at ho
    obtain ⟨r, hr, rfl⟩ := ho
    exact lt_of_stays (List.mem_takeWhile_imp hr) (hid r ((List.takeWhile_sublist _).mem hr))

end SortedVector

end LowLevel.Books
