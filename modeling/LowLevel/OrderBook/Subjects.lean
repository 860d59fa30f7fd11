import LowLevel.OrderBook.Trades

/-! # The orders that answers are about

Answers name an order by account and reference number, which two orders may
share. The matcher tells orders apart by their arrival numbers, so each of its
answers is given the arrival number of the order it is about. Executed and
Cancelled messages are about the order that entered or about an open one, and
go to its account.
-/

namespace LowLevel.OrderBook

open FlowGenerator Engine

variable {B A : ℕ} {s : Engine B A} {rs : List Resting} {free : List ℕ} {n : Indexed}
  {msg : InboundMessage} {x : OutboundMessage} {subject : Option ℕ}

/-- The messages that tell the owner of an order what became of its shares. -/
def OutboundMessage.isNotice (o : OutboundMessage) : Bool := o.isExecuted || o.isCancelled

def fillSubjects (seq : ℕ) (fs : List Fill) : List (Option ℕ) :=
  fs.flatMap fun f => [some seq, some f.resting.arrivalSequence]

def remainderSubjects (seq : ℕ) : Remainder → List (Option ℕ)
  | .cancelled _ => [some seq]
  | _ => []

def cancelSubjects (found : Option SimOrder) (c : CancelRequestView) : List (Option ℕ) :=
  match found with
  | some o => if o.remainingQty ≤ c.quantity then [none] else [some o.arrivalSequence]
  | none => [none]

namespace Indexed

/-- The arrival number of the order that each answer is about. -/
def subjects (A : ℕ) (n : Indexed) (msg : InboundMessage) : List (Option ℕ) :=
  match msg.message with
  | .enter order =>
    let m := n.matching SimOrder.reaches msg.account order
    some n.nextArrivalSequence :: (fillSubjects n.nextArrivalSequence m.fills ++
      remainderSubjects n.nextArrivalSequence (remainder A order m))
  | .cancel c => cancelSubjects (n.find (orderKey msg.account c.userRefNum)) c
  | _ => []

/-- The answers to a message with the orders they are about. -/
def answers (A : ℕ) (n : Indexed) (msg : InboundMessage) : List (OutboundMessage × Option ℕ) :=
  (n.process A msg).2.zip (n.subjects A msg)

/-- The answers to a sequence of messages with the orders they are about. -/
def reports (A : ℕ) : Indexed → List InboundMessage → List (OutboundMessage × Option ℕ)
  | _, [] => []
  | n, msg :: msgs => n.answers A msg ++ reports A (n.process A msg).1 msgs

end Indexed

theorem length_fillSubjects (seq : ℕ) (fs : List Fill) :
    (fillSubjects seq fs).length = 2 * fs.length := by
  induction fs with
  | nil => rfl
  | cons f fs ih =>
    rw [fillSubjects, List.flatMap_cons, List.length_append, ← fillSubjects, ih, List.length_cons]
    simp only [List.length_cons, List.length_nil]
    omega

theorem length_remainderSubjects (account ref : UInt32) (q seq : ℕ) (r : Remainder) :
    (remainderMessages account ref q r).length = (remainderSubjects seq r).length := by
  cases r <;> rfl

theorem length_cancelSubjects (account : UInt32) (found : Option SimOrder) (c : CancelRequestView) :
    (Naive.cancelMessages account found c).length = (cancelSubjects found c).length := by
  cases found with
  | none => rfl
  | some o =>
    simp only [Naive.cancelMessages, cancelSubjects]
    split <;> rfl

theorem length_subjects (n : Indexed) (msg : InboundMessage) :
    (n.process A msg).2.length = (n.subjects A msg).length := by
  unfold Indexed.process Indexed.subjects
  cases msg.message with
  | enter order =>
    simp only [Naive.enterMessages, Naive.outcome, List.length_cons, List.length_append,
      length_fillMessages, length_fillSubjects,
      length_remainderSubjects _ _ _ n.nextArrivalSequence]
  | cancel c => exact length_cancelSubjects msg.account _ c
  | _ => rfl

theorem map_fst_answers (n : Indexed) (msg : InboundMessage) :
    (n.answers A msg).map Prod.fst = (n.process A msg).2 :=
  List.map_fst_zip (length_subjects n msg).le

theorem reports_append (n : Indexed) (pre post : List InboundMessage) :
    n.reports A (pre ++ post) = n.reports A pre ++ (n.run A pre).reports A post := by
  induction pre generalizing n with
  | nil => rfl
  | cons m pre ih =>
    rw [List.cons_append, Indexed.reports, Indexed.reports, ih, List.append_assoc]
    rfl

theorem mem_zip_fills {account ref : UInt32} {t seq : ℕ} {fs : List Fill}
    (hx : (x, subject) ∈ (fillMessages account ref t fs).zip (fillSubjects seq fs)) :
    (subject = some seq ∧ x.account = account) ∨
      ∃ f ∈ fs, subject = some f.resting.arrivalSequence ∧ x.account = f.resting.account := by
  induction fs generalizing t with
  | nil => cases hx
  | cons f fs ih =>
    simp only [fillMessages, legs, fillSubjects, List.flatMap_cons, List.cons_append,
      List.nil_append, List.zip_cons_cons, List.mem_cons] at hx
    rcases hx with hx | hx | hx
    · obtain ⟨rfl, rfl⟩ := Prod.mk.inj hx
      exact .inl ⟨rfl, rfl⟩
    · obtain ⟨rfl, rfl⟩ := Prod.mk.inj hx
      exact .inr ⟨f, List.mem_cons_self .., rfl, rfl⟩
    · rcases ih hx with h | ⟨g, hg, h⟩
      · exact .inl h
      · exact .inr ⟨g, List.mem_cons_of_mem _ hg, h⟩

theorem Agrees.key_of_find {key : UInt64} {o : SimOrder} (h : Agrees s n rs free)
    (hfound : n.find key = some o) : o.key = key := by
  rcases h.find_eq key with ⟨-, hnone⟩ | ⟨l₁, r, l₂, -, -, hkey, hsome⟩
  · rw [hnone] at hfound
    cases hfound
  · rw [hsome] at hfound
    obtain rfl := Option.some.inj hfound
    exact hkey

theorem Agrees.mem_answers (h : Agrees s n rs free)
    (hx : (x, subject) ∈ n.answers A msg) (hnotice : x.isNotice = true) :
    (isEnter msg = true ∧ subject = some n.nextArrivalSequence ∧ x.account = msg.account) ∨
      ∃ o ∈ n.openOrders, subject = some o.arrivalSequence ∧ x.account = o.account := by
  unfold Indexed.answers Indexed.process Indexed.subjects at hx
  unfold isEnter
  cases hm : msg.message with
  | enter order =>
    simp only [hm, Naive.enterMessages, Naive.outcome, List.zip_cons_cons, List.mem_cons] at hx
    rcases hx with hx | hx
    · obtain ⟨rfl, rfl⟩ := Prod.mk.inj hx
      cases hnotice
    rw [List.zip_append (by rw [length_fillMessages, length_fillSubjects]), List.mem_append] at hx
    rcases hx with hx | hx
    · rcases mem_zip_fills hx with ⟨hs, ha⟩ | ⟨f, hf, hs, ha⟩
      · exact .inl ⟨rfl, hs, ha⟩
      · obtain ⟨o, ho, q, hq⟩ := mem_fills hf
        rw [hq] at hs ha
        exact .inr ⟨o, ho, hs, ha⟩
    · cases hrem : remainder A order (n.matching SimOrder.reaches msg.account order) with
      | cancelled reason =>
        rw [hrem, remainderMessages, remainderSubjects, List.zip_cons_cons, List.zip_nil_left,
          List.mem_singleton] at hx
        obtain ⟨rfl, rfl⟩ := Prod.mk.inj hx
        exact .inl ⟨rfl, rfl, rfl⟩
      | _ => rw [hrem] at hx; cases hx
  | cancel c =>
    simp only [hm, Naive.cancelMessages, cancelSubjects] at hx
    cases hfound : n.find (orderKey msg.account c.userRefNum) with
    | none =>
      simp only [hfound, List.zip_cons_cons, List.zip_nil_left, List.mem_singleton] at hx
      obtain ⟨rfl, rfl⟩ := Prod.mk.inj hx
      cases hnotice
    | some o =>
      have haccount := (orderKey_inj.mp (h.key_of_find hfound)).1
      simp only [hfound] at hx
      split at hx
      · simp only [List.zip_cons_cons, List.zip_nil_left, List.mem_singleton] at hx
        obtain ⟨rfl, rfl⟩ := Prod.mk.inj hx
        cases hnotice
      · simp only [List.zip_cons_cons, List.zip_nil_left, List.mem_singleton] at hx
        obtain ⟨rfl, rfl⟩ := Prod.mk.inj hx
        exact .inr ⟨o, Indexed.mem_of_find hfound, rfl, haccount.symm⟩
  | _ => simp [hm] at hx

end LowLevel.OrderBook
