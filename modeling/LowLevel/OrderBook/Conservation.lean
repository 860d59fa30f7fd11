import LowLevel.OrderBook.Keys
import Mathlib.Algebra.BigOperators.Group.List.Basic

/-! # Conservation of shares

For every key, the shares entered under it are the shares reported as executed
or cancelled and the shares still in the book. The law is a sum over the whole
history, so it does not depend on how keys are used; with distinct keys it is
a law about each order.
-/

namespace LowLevel.OrderBook

open DoublyLinked FlowGenerator Engine

variable {B A : ℕ} {s : Engine B A} {rs : List Resting} {free : List ℕ} {n : Indexed}
  {msgs : List InboundMessage} {os os' : List SimOrder} {k : UInt64}

def openShares (k : UInt64) (os : List SimOrder) : ℕ :=
  (os.map fun o => if o.key = k then o.remainingQty else 0).sum

def filledShares (k : UInt64) (fs : List Fill) : ℕ :=
  (fs.map fun f => if f.resting.key = k then f.qty else 0).sum

/-- The shares of a key that messages report as executed or cancelled. -/
def reportedShares (k : UInt64) (out : List OutboundMessage) : ℕ :=
  (out.map fun o => if o.key = k then o.quantity else 0).sum

def enteredShares (k : UInt64) (msgs : List InboundMessage) : ℕ :=
  (msgs.map fun m => match m.message with
    | .enter order => if orderKey m.account order.userRefNum = k then order.quantity else 0
    | _ => 0).sum

section Sums

variable (account ref : UInt32) (qty price matchNo : ℕ) (c : Char)

@[simp] theorem executed_key : (executed account ref qty price c matchNo).key =
    orderKey account ref := rfl
@[simp] theorem executed_quantity : (executed account ref qty price c matchNo).quantity = qty := rfl
@[simp] theorem cancelled_key : (cancelled account ref qty c).key = orderKey account ref := rfl
@[simp] theorem cancelled_quantity : (cancelled account ref qty c).quantity = qty := rfl
@[simp] theorem cancelRejected_quantity : (cancelRejected account ref).quantity = 0 := rfl

@[simp] theorem openShares_cons (o : SimOrder) :
    openShares k (o :: os) = (if o.key = k then o.remainingQty else 0) + openShares k os := by
  simp [openShares]

@[simp] theorem openShares_append :
    openShares k (os ++ os') = openShares k os + openShares k os' := by
  simp [openShares]

theorem openShares_perm (h : os.Perm os') : openShares k os = openShares k os' :=
  (h.map _).sum_eq

@[simp] theorem filledShares_append (fs : List Fill) (f : Fill) :
    filledShares k (fs ++ [f]) = filledShares k fs + if f.resting.key = k then f.qty else 0 := by
  simp [filledShares]

@[simp] theorem reportedShares_append (l l' : List OutboundMessage) :
    reportedShares k (l ++ l') = reportedShares k l + reportedShares k l' := by
  simp [reportedShares]

@[simp] theorem reportedShares_cons (o : OutboundMessage) (l : List OutboundMessage) :
    reportedShares k (o :: l) = (if o.key = k then o.quantity else 0) + reportedShares k l := by
  simp [reportedShares]

end Sums

theorem trade_shares {m : Matching} {i : ℕ} {r : SimOrder} (hi : m.openOrders[i]? = some r) :
    openShares k (trade m i r).openOrders + filledShares k (trade m i r).fills =
      openShares k m.openOrders + filledShares k m.fills := by
  obtain ⟨os, hos, htrade⟩ := trade_perm hi
  rw [openShares_perm htrade, openShares_perm hos, trade_fills, filledShares_append]
  unfold leftover
  by_cases hk : r.key = k
  · by_cases hle : r.remainingQty ≤ m.remainingQty
    · simp only [hle, if_true, List.nil_append, openShares_cons, hk]
      omega
    · have hk' : ({ r with remainingQty := r.remainingQty - m.remainingQty } : SimOrder).key = k :=
        hk
      simp only [hle, if_false, List.cons_append, List.nil_append, openShares_cons, hk, hk',
        if_true]
      omega
  · by_cases hle : r.remainingQty ≤ m.remainingQty
    · simp [hle, hk]
    · have hk' : ({ r with remainingQty := r.remainingQty - m.remainingQty } : SimOrder).key ≠ k :=
        hk
      simp [hle, hk, hk']

theorem matching_shares (account : UInt32) (order : EnterRequestView) (n : Naive)
    (rule : SimOrder → SimOrder → Bool) :
    openShares k (n.matching rule account order).openOrders +
        filledShares k (n.matching rule account order).fills = openShares k n.openOrders ∧
      (n.matching rule account order).remainingQty +
        ((n.matching rule account order).fills.map Fill.qty).sum = order.quantity := by
  apply matching_invariant (P := fun m =>
    openShares k m.openOrders + filledShares k m.fills = openShares k n.openOrders ∧
      m.remainingQty + (m.fills.map Fill.qty).sum = order.quantity)
  · simp [filledShares]
  · intro m i r ⟨hopen, hqty⟩ _ hbest
    rw [trade_shares (best_spec hbest).1]
    refine ⟨hopen, ?_⟩
    rw [trade_remainingQty, trade_fills, List.map_append, List.sum_append]
    simp only [List.map_cons, List.map_nil, List.sum_cons, List.sum_nil]
    omega

theorem reportedShares_fillMessages (account ref : UInt32) (t : ℕ) (fs : List Fill) :
    reportedShares k (fillMessages account ref t fs) =
      (if orderKey account ref = k then (fs.map Fill.qty).sum else 0) + filledShares k fs := by
  induction fs generalizing t with
  | nil => simp [fillMessages, reportedShares, filledShares]
  | cons f fs ih =>
    have hfilled : filledShares k (f :: fs) =
        (if f.resting.key = k then f.qty else 0) + filledShares k fs := by simp [filledShares]
    have hlegs : reportedShares k (legs account ref ((t + 1) % 2 ^ 64) f) =
        (if orderKey account ref = k then f.qty else 0) +
          if f.resting.key = k then f.qty else 0 := by
      simp only [legs, reportedShares_cons, executed_key, executed_quantity]
      rfl
    rw [fillMessages, reportedShares_append, ih, hfilled, hlegs, List.map_cons, List.sum_cons]
    split <;> omega

theorem enter_shares (n : Naive) (rule : SimOrder → SimOrder → Bool) (account : UInt32)
    (order : EnterRequestView) :
    openShares k (n.enter rule A account order).openOrders +
        reportedShares k (n.enterMessages rule A account order) =
      openShares k n.openOrders +
        if orderKey account order.userRefNum = k then order.quantity else 0 := by
  obtain ⟨hopen, hqty⟩ := matching_shares (k := k) account order n rule
  have hkey : ∀ q, ({ n.incoming account order with remainingQty := q } : SimOrder).key =
      orderKey account order.userRefNum := fun _ => rfl
  have hsum : reportedShares k (n.enterMessages rule A account order) =
      reportedShares k (fillMessages account order.userRefNum n.trades
        (n.matching rule account order).fills) +
      reportedShares k (remainderMessages account order.userRefNum
        (n.matching rule account order).remainingQty
        (remainder A order (n.matching rule account order))) := by
    simp [Naive.enterMessages, Naive.outcome, accepted, OutboundMessage.quantity]
  -- the remainder is cancelled, rests, or is nothing
  have hrest : openShares k (n.enter rule A account order).openOrders +
      reportedShares k (remainderMessages account order.userRefNum
        (n.matching rule account order).remainingQty
        (remainder A order (n.matching rule account order))) =
      openShares k (n.matching rule account order).openOrders +
        if orderKey account order.userRefNum = k
          then (n.matching rule account order).remainingQty else 0 := by
    simp only [Naive.enter]
    cases hrem : remainder A order (n.matching rule account order) with
    | none =>
      have hz : (n.matching rule account order).remainingQty = 0 := by
        unfold remainder at hrem
        split at hrem
        · assumption
        · split at hrem
          · cases hrem
          · split at hrem <;> cases hrem
      simp [remainderMessages, reportedShares, hz]
    | rested =>
      simp only [if_true, openShares_append, openShares_cons, hkey]
      simp [remainderMessages, reportedShares, openShares]
    | cancelled reason =>
      simp only [remainderMessages, reportedShares_cons, cancelled_key, cancelled_quantity]
      rfl
  rw [hsum, reportedShares_fillMessages]
  split at hrest <;> rename_i hk <;> simp only [hk, if_true, if_false] <;> omega

theorem cancel_shares {account : UInt32} {c : CancelRequestView} {found : Option SimOrder}
    (n : Naive) (hmem : ∀ o, found = some o → o ∈ n.openOrders ∧
      o.key = orderKey account c.userRefNum) :
    openShares k (n.cancel found c).openOrders +
        reportedShares k (Naive.cancelMessages account found c) = openShares k n.openOrders := by
  cases found with
  | none => simp [Naive.cancel, Naive.cancelMessages, reportedShares]
  | some o =>
    obtain ⟨ho, hkey⟩ := hmem o rfl
    unfold Naive.cancel Naive.cancelMessages
    by_cases hle : o.remainingQty ≤ c.quantity
    · simp [hle, reportedShares]
    · obtain ⟨os, hos, hreduce⟩ := reduce_perm ho c.quantity
      simp only [hle, if_false, reportedShares_cons, cancelled_key, cancelled_quantity, ← hkey]
      rw [openShares_perm hreduce, openShares_perm hos, openShares_cons]
      have hnil : reportedShares k [] = 0 := rfl
      have hkey' : ({ o with remainingQty := c.quantity } : SimOrder).key = o.key := rfl
      by_cases hk : o.key = k
      · by_cases hq : c.quantity = 0
        · simp only [hq, hk, hnil, if_true]
          omega
        · simp only [hq, hk, hkey', hnil, if_true, if_false, openShares_cons]
          omega
      · by_cases hq : c.quantity = 0
        · simp only [hq, hk, hnil, if_true, if_false]
          omega
        · simp only [hq, hk, hkey', hnil, if_false, openShares_cons]
          omega

theorem Agrees.process_shares (h : Agrees s n rs free) (msg : InboundMessage) :
    openShares k (n.process A msg).1.openOrders + reportedShares k (n.process A msg).2 =
      openShares k n.openOrders + enteredShares k [msg] := by
  unfold Indexed.process enteredShares
  cases hm : msg.message with
  | enter order => simpa [hm] using enter_shares n.toNaive SimOrder.reaches msg.account order
  | cancel c =>
    simp only [List.map_cons, List.map_nil, List.sum_cons, List.sum_nil, hm, Nat.add_zero]
    apply cancel_shares n.toNaive
    intro o ho
    rcases h.find_eq (orderKey msg.account c.userRefNum) with ⟨-, hnone⟩ |
      ⟨l₁, r, l₂, rfl, -, hkey, hfind⟩
    · rw [hnone] at ho
      cases ho
    · rw [hfind] at ho
      obtain rfl := Option.some.inj ho
      exact ⟨Indexed.mem_of_find hfind, hkey⟩
  | _ => simp [hm, reportedShares]

/-- Over a whole run, the shares of a key are reported or still open. -/
theorem Agrees.run_shares (h : Agrees s n rs free) (hmsgs : ∀ m ∈ msgs, Admissible B m) :
    openShares k (n.run A msgs).openOrders + reportedShares k (n.outputs A msgs).flatten =
      openShares k n.openOrders + enteredShares k msgs := by
  induction msgs generalizing s n rs free with
  | nil => simp [Indexed.run, Indexed.outputs, reportedShares, enteredShares]
  | cons m msgs ih =>
    obtain ⟨s', rs', free', -, h', -⟩ := process_run m h (hmsgs m (by simp))
    have hrest := ih h' fun x hx => hmsgs x (List.mem_cons_of_mem _ hx)
    have hstep := h.process_shares (k := k) m
    have hentered : enteredShares k (m :: msgs) = enteredShares k [m] + enteredShares k msgs := by
      simp [enteredShares]
    change openShares k ((n.process A m).1.run A msgs).openOrders + _ = _
    rw [Indexed.outputs, List.flatten_cons, reportedShares_append, hentered]
    omega

section Names

def enterKey (msg : InboundMessage) : Option UInt64 :=
  match msg.message with
  | .enter order => some (orderKey msg.account order.userRefNum)
  | _ => none

/-- The messages that are part of the life of an order, as opposed to rejects. -/
def OutboundMessage.isReport (o : OutboundMessage) : Bool :=
  o.isAccepted || o.isExecuted || o.isCancelled

theorem mem_fillMessages {account ref : UInt32} {t : ℕ} {fs : List Fill} {x : OutboundMessage}
    (hx : x ∈ fillMessages account ref t fs) :
    x.isAccepted = false ∧ (x.key = orderKey account ref ∨ ∃ f ∈ fs, x.key = f.resting.key) := by
  induction fs generalizing t with
  | nil => cases hx
  | cons f fs ih =>
    rw [fillMessages, List.mem_append] at hx
    rcases hx with hx | hx
    · simp only [legs, List.mem_cons, List.not_mem_nil, or_false] at hx
      rcases hx with rfl | rfl
      · exact ⟨rfl, .inl rfl⟩
      · exact ⟨rfl, .inr ⟨f, List.mem_cons_self .., rfl⟩⟩
    · obtain ⟨hacc, hkey⟩ := ih hx
      refine ⟨hacc, hkey.imp_right ?_⟩
      rintro ⟨g, hg, hgk⟩
      exact ⟨g, List.mem_cons_of_mem _ hg, hgk⟩

theorem mem_fills {rule : SimOrder → SimOrder → Bool} {n : Naive} {account : UInt32}
    {order : EnterRequestView} {f : Fill} (hf : f ∈ (n.matching rule account order).fills) :
    ∃ o ∈ n.openOrders, o.Same f.resting := by
  have hinv : (∀ o ∈ (n.matching rule account order).openOrders, ∃ o' ∈ n.openOrders, o'.Same o) ∧
      ∀ f ∈ (n.matching rule account order).fills, ∃ o ∈ n.openOrders, o.Same f.resting := by
    apply matching_invariant (P := fun m => (∀ o ∈ m.openOrders, ∃ o' ∈ n.openOrders, o'.Same o) ∧
      ∀ f ∈ m.fills, ∃ o ∈ n.openOrders, o.Same f.resting)
    · exact ⟨fun o ho => ⟨o, ho, o.remainingQty, rfl⟩, fun f hf => by cases hf⟩
    · intro m i r ⟨hopen, hfills⟩ _ hbest
      have hi := (best_spec hbest).1
      constructor
      · intro o ho
        obtain ⟨x, hx, q, rfl⟩ := mem_trade hi ho
        obtain ⟨y, hy, q', rfl⟩ := hopen x hx
        exact ⟨y, hy, q, rfl⟩
      · intro g hg
        rw [trade_fills, List.mem_append, List.mem_singleton] at hg
        rcases hg with hg | rfl
        · exact hfills g hg
        · exact hopen r (List.mem_of_getElem? hi)
  exact hinv.2 f hf

theorem Agrees.process_names (h : Agrees s n rs free) {msg : InboundMessage} {x : OutboundMessage}
    (hx : x ∈ (n.process A msg).2) (hrep : x.isReport = true) :
    enterKey msg = some x.key ∨ (x.isAccepted = false ∧ x.key ∈ n.openOrders.map SimOrder.key) := by
  unfold Indexed.process at hx
  unfold enterKey
  cases hm : msg.message with
  | enter order =>
    simp only [hm, Naive.enterMessages, Naive.outcome, List.mem_cons, List.mem_append] at hx
    rcases hx with rfl | hx | hx
    · exact .inl rfl
    · obtain ⟨hacc, hkey | ⟨f, hf, hkey⟩⟩ := mem_fillMessages hx
      · exact .inl (congrArg some hkey.symm)
      · obtain ⟨o, ho, q, hq⟩ := mem_fills hf
        refine .inr ⟨hacc, List.mem_map.mpr ⟨o, ho, ?_⟩⟩
        rw [hkey, hq]
        rfl
    · left
      cases hrem : remainder A order (n.matching SimOrder.reaches msg.account order) with
      | cancelled reason =>
        rw [hrem, remainderMessages, List.mem_singleton] at hx
        rw [hx]
        rfl
      | _ => rw [hrem] at hx; cases hx
  | cancel c =>
    simp only [hm] at hx
    rcases h.find_eq (orderKey msg.account c.userRefNum) with ⟨-, hfind⟩ |
      ⟨l₁, r, l₂, rfl, -, hkey, hfind⟩
    · rw [hfind, Naive.cancelMessages, List.mem_singleton] at hx
      subst hx
      cases hrep
    · rw [hfind, Naive.cancelMessages] at hx
      split at hx
      · rw [List.mem_singleton] at hx
        subst hx
        cases hrep
      · rw [List.mem_singleton] at hx
        subst hx
        refine .inr ⟨rfl, List.mem_map.mpr ⟨r.sim, Indexed.mem_of_find hfind, hkey⟩⟩
  | _ => simp [hm] at hx

theorem mem_process {msg : InboundMessage} {o : SimOrder}
    (ho : o ∈ (n.process A msg).1.openOrders) :
    (∃ order, msg.message = .enter order ∧ (n.incoming msg.account order).Same o) ∨
      ∃ x ∈ n.openOrders, x.Same o := by
  unfold Indexed.process at ho
  cases hm : msg.message with
  | enter order =>
    simp only [hm, Naive.enter] at ho
    split at ho
    · rcases List.mem_append.mp ho with ho | ho
      · exact .inr (mem_matchLoop ho)
      · rw [List.mem_singleton.mp ho]
        exact .inl ⟨order, rfl, _, rfl⟩
    · exact .inr (mem_matchLoop ho)
  | cancel c =>
    right
    simp only [hm, Naive.cancel] at ho
    split at ho
    · rename_i x hfind
      split at ho
      · exact ⟨o, ho, o.remainingQty, rfl⟩
      · obtain ⟨os, hos, hreduce⟩ := reduce_perm (Indexed.mem_of_find hfind) c.quantity
        have hx := hos.mem_iff.mpr (List.mem_cons_self ..)
        rw [hreduce.mem_iff] at ho
        split at ho
        · exact ⟨o, hos.mem_iff.mpr (List.mem_cons_of_mem _ ho), o.remainingQty, rfl⟩
        · rcases List.mem_cons.mp ho with rfl | ho
          · exact ⟨x, hx, _, rfl⟩
          · exact ⟨o, hos.mem_iff.mpr (List.mem_cons_of_mem _ ho), o.remainingQty, rfl⟩
    · exact ⟨o, ho, o.remainingQty, rfl⟩
  | _ =>
    rw [hm] at ho
    exact .inr ⟨o, ho, o.remainingQty, rfl⟩

theorem process_keys {msg : InboundMessage} {key : UInt64}
    (hkey : key ∈ (n.process A msg).1.openOrders.map SimOrder.key) :
    enterKey msg = some key ∨ key ∈ n.openOrders.map SimOrder.key := by
  obtain ⟨o, ho, rfl⟩ := List.mem_map.mp hkey
  rcases mem_process ho with ⟨order, hm, q, rfl⟩ | ⟨x, hx, q, rfl⟩
  · left
    rw [enterKey, hm]
    rfl
  · exact .inr (List.mem_map.mpr ⟨x, hx, rfl⟩)

theorem mem_filterMap_enterKey {m : InboundMessage} (hm : enterKey m = some k) :
    k ∈ (m :: msgs).filterMap enterKey := by
  rw [List.filterMap_cons, hm]
  exact List.mem_cons_self ..

theorem mem_filterMap_cons {m : InboundMessage} (hk : k ∈ msgs.filterMap enterKey) :
    k ∈ (m :: msgs).filterMap enterKey := by
  obtain ⟨x, hx, hxk⟩ := List.mem_filterMap.mp hk
  exact List.mem_filterMap.mpr ⟨x, List.mem_cons_of_mem _ hx, hxk⟩

/-- Every report of a run names an order that was open before or has entered, and every
acceptance an order that has entered. -/
theorem Agrees.run_names (h : Agrees s n rs free) (hmsgs : ∀ m ∈ msgs, Admissible B m)
    {x : OutboundMessage} (hx : x ∈ (n.outputs A msgs).flatten) (hrep : x.isReport = true) :
    x.key ∈ msgs.filterMap enterKey ∨
      (x.isAccepted = false ∧ x.key ∈ n.openOrders.map SimOrder.key) := by
  induction msgs generalizing s n rs free with
  | nil => cases hx
  | cons m msgs ih =>
    obtain ⟨s', rs', free', -, h', -⟩ := process_run m h (hmsgs m (by simp))
    rw [Indexed.outputs, List.flatten_cons, List.mem_append] at hx
    rcases hx with hx | hx
    · exact (h.process_names hx hrep).imp_left mem_filterMap_enterKey
    · rcases ih h' (fun y hy => hmsgs y (List.mem_cons_of_mem _ hy)) hx with hkey | ⟨hacc, hkey⟩
      · exact .inl (mem_filterMap_cons hkey)
      · rcases process_keys hkey with hkey | hkey
        · exact .inl (mem_filterMap_enterKey hkey)
        · exact .inr ⟨hacc, hkey⟩

theorem outputs_append (n : Indexed) (pre post : List InboundMessage) :
    n.outputs A (pre ++ post) = n.outputs A pre ++ (n.run A pre).outputs A post := by
  induction pre generalizing n with
  | nil => rfl
  | cons m pre ih =>
    rw [List.cons_append, Indexed.outputs, Indexed.outputs, ih]
    rfl

end Names

section Orders

def executedShares (k : UInt64) (out : List OutboundMessage) : ℕ :=
  ((out.filter fun o => o.isExecuted && decide (o.key = k)).map OutboundMessage.quantity).sum

def cancelledShares (k : UInt64) (out : List OutboundMessage) : ℕ :=
  ((out.filter fun o => o.isCancelled && decide (o.key = k)).map OutboundMessage.quantity).sum

def restingShares (k : UInt64) (s : Engine B A) : ℕ :=
  ((s.resting.filter (·.2.key = k)).map (·.2.currQty)).sum

theorem reportedShares_eq (k : UInt64) (out : List OutboundMessage) :
    reportedShares k out = executedShares k out + cancelledShares k out := by
  induction out with
  | nil => rfl
  | cons o out ih =>
    rw [reportedShares_cons, ih]
    unfold executedShares cancelledShares
    by_cases hk : o.key = k
    · cases hm : o.message with
      | cancelled v =>
        simp [OutboundMessage.isExecuted, OutboundMessage.isCancelled, OutboundMessage.quantity,
          hm, hk, Nat.add_left_comm]
      | executed v =>
        simp [OutboundMessage.isExecuted, OutboundMessage.isCancelled, OutboundMessage.quantity,
          hm, hk, Nat.add_assoc]
      | _ =>
        simp [OutboundMessage.isExecuted, OutboundMessage.isCancelled, OutboundMessage.quantity, hm]
    · simp [hk]

theorem sum_filter_map {α : Type*} (p : α → Bool) (f : α → ℕ) (l : List α) :
    ((l.filter p).map f).sum = (l.map fun x => if p x then f x else 0).sum := by
  induction l with
  | nil => rfl
  | cons x l ih => cases hp : p x <;> simp [hp, ih]

theorem Agrees.restingShares_eq (h : Agrees s n rs free) :
    restingShares k s = openShares k n.openOrders := by
  unfold restingShares
  rw [(((resting_perm h.book.rep).filter _).map _).sum_eq, openShares_perm h.orders, sum_filter_map]
  simp only [openShares, List.map_map, Function.comp_def, decide_eq_true_eq]
  rfl

theorem enteredShares_of_nodup (hn : (msgs.filterMap enterKey).Nodup) {msg : InboundMessage}
    (hmsg : msg ∈ msgs) {order : EnterRequestView} (horder : msg.message = .enter order) :
    enteredShares (orderKey msg.account order.userRefNum) msgs = order.quantity := by
  obtain ⟨pre, post, rfl⟩ := List.append_of_mem hmsg
  have hkey : enterKey msg = some (orderKey msg.account order.userRefNum) := by
    simp [enterKey, horder]
  rw [List.filterMap_append, List.filterMap_cons, hkey, List.nodup_middle, List.nodup_cons,
    List.mem_append, not_or] at hn
  have hzero : ∀ l : List InboundMessage, orderKey msg.account order.userRefNum ∉
      l.filterMap enterKey → enteredShares (orderKey msg.account order.userRefNum) l = 0 := by
    intro l hl
    apply List.sum_eq_zero
    intro q hq
    obtain ⟨m, hm, rfl⟩ := List.mem_map.mp hq
    split
    · rename_i o ho
      rw [if_neg]
      intro he
      exact hl (List.mem_filterMap.mpr ⟨m, hm, by simp [enterKey, ho, he]⟩)
    · rfl
  have hpre := hzero pre hn.1.1
  have hpost := hzero post hn.1.2
  unfold enteredShares at hpre hpost ⊢
  rw [List.map_append, List.sum_append, hpre, List.map_cons, List.sum_cons, hpost, horder]
  simp

theorem isAccepted_outcome {n : Naive} {account : UInt32} {order : EnterRequestView}
    {x : OutboundMessage} (hx : x ∈ n.outcome SimOrder.reaches A account order) :
    x.isAccepted = false := by
  unfold Naive.outcome at hx
  rcases List.mem_append.mp hx with hx | hx
  · exact (mem_fillMessages hx).1
  · cases hrem : remainder A order (n.matching SimOrder.reaches account order) with
    | cancelled reason =>
      rw [hrem, remainderMessages, List.mem_singleton] at hx
      rw [hx]
      rfl
    | _ => rw [hrem] at hx; cases hx

theorem Agrees.accepted_first (h : Agrees s n rs free) (hempty : n.openOrders = [])
    (hmsgs : ∀ m ∈ msgs, Admissible B m) (hunique : (msgs.filterMap enterKey).Nodup)
    {msg : InboundMessage} (hmsg : msg ∈ msgs) {order : EnterRequestView}
    (horder : msg.message = .enter order) :
    ∃ l₁ a l₂, (n.outputs A msgs).flatten = l₁ ++ a :: l₂ ∧ a.isAccepted = true ∧
      a.key = orderKey msg.account order.userRefNum ∧
      (∀ x ∈ l₁, x.key = orderKey msg.account order.userRefNum → x.isReport = false) ∧
      ∀ x ∈ l₂, x.key = orderKey msg.account order.userRefNum → x.isAccepted = false := by
  obtain ⟨pre, post, rfl⟩ := List.append_of_mem hmsg
  have hkey : enterKey msg = some (orderKey msg.account order.userRefNum) := by
    simp [enterKey, horder]
  rw [List.filterMap_append, List.filterMap_cons, hkey, List.nodup_middle, List.nodup_cons,
    List.mem_append, not_or] at hunique
  obtain ⟨⟨hpre, hpost⟩, -⟩ := hunique
  have hadm : ∀ m ∈ pre, Admissible B m := fun m hm => hmsgs m (List.mem_append_left _ hm)
  obtain ⟨s₁, rs₁, free₁, -, h₁, -⟩ := forM_run h hadm
  obtain ⟨s₂, rs₂, free₂, -, h₂, -⟩ := process_run msg h₁ (hmsgs msg hmsg)
  have hstep : ((n.run A pre).process A msg).2 =
      (n.run A pre).enterMessages SimOrder.reaches A msg.account order := by
    simp [Indexed.process, horder]
  have hflat : (n.outputs A (pre ++ msg :: post)).flatten = (n.outputs A pre).flatten ++
      ⟨msg.account, accepted order ((n.run A pre).incoming msg.account order).id⟩ ::
        ((n.run A pre).outcome SimOrder.reaches A msg.account order ++
          (((n.run A pre).process A msg).1.outputs A post).flatten) := by
    rw [outputs_append, List.flatten_append, Indexed.outputs, List.flatten_cons, hstep,
      Naive.enterMessages, List.cons_append]
  refine ⟨_, _, _, hflat, rfl, rfl, ?_, ?_⟩
  · -- a report before the request would name a key of an earlier one
    intro x hx hxk
    by_contra hrep
    rcases h.run_names hadm hx (by simpa using hrep) with hmem | ⟨-, hmem⟩
    · exact hpre (hxk ▸ hmem)
    · rw [hempty] at hmem
      cases hmem
  · intro x hx hxk
    rcases List.mem_append.mp hx with hx | hx
    · exact isAccepted_outcome hx
    · by_contra hacc
      have hacc : x.isAccepted = true := by simpa using hacc
      have hrep : x.isReport = true := by simp [OutboundMessage.isReport, hacc]
      rcases h₂.run_names (fun m hm => hmsgs m (by simp [hm])) hx hrep with hmem | ⟨hnot, -⟩
      · exact hpost (hxk ▸ hmem)
      · rw [hacc] at hnot
        cases hnot

/-- What the messages of a run say about one order: its shares are accounted for, and its only
acceptance comes first. -/
structure Accounted (key : UInt64) (quantity : ℕ) (s : Engine B A) : Prop where
  shares : quantity = executedShares key s.outgoingQueue + cancelledShares key s.outgoingQueue +
    restingShares key s
  accepted : ∃ l₁ a l₂, s.outgoingQueue = l₁ ++ a :: l₂ ∧ a.isAccepted = true ∧ a.key = key ∧
    (∀ x ∈ l₁, x.key = key → x.isReport = false) ∧ ∀ x ∈ l₂, x.key = key → x.isAccepted = false

/-- Shares are conserved for every order of a run in which no key is entered twice, and reports
name orders that were entered. -/
theorem run_accounted (hA : 0 < A) (hmsgs : ∀ m ∈ msgs, Admissible B m)
    (hunique : (msgs.filterMap enterKey).Nodup) :
    ∃ s : Engine B A, run msgs = .ok s ∧
      (∀ msg ∈ msgs, ∀ order, msg.message = .enter order →
        Accounted (orderKey msg.account order.userRefNum) order.quantity s) ∧
      ∀ x ∈ s.outgoingQueue, x.isExecuted = true ∨ x.isCancelled = true →
        x.key ∈ msgs.filterMap enterKey := by
  obtain ⟨s, rs, free, hrun, h, hout, -⟩ := run_agrees hA hmsgs
  have hinit := agrees_init (B := B) hA
  refine ⟨s, hrun, ?_, ?_⟩
  · intro msg hmsg order horder
    constructor
    case shares =>
      have hsum := hinit.run_shares (k := orderKey msg.account order.userRefNum) hmsgs
      rw [enteredShares_of_nodup hunique hmsg horder, ← h.restingShares_eq, ← hout,
        reportedShares_eq] at hsum
      have hnil :
          openShares (orderKey msg.account order.userRefNum) ({} : Indexed).openOrders = 0 := rfl
      omega
    case accepted =>
      rw [hout]
      exact hinit.accepted_first rfl hmsgs hunique hmsg horder
  · intro x hx hkind
    have hrep : x.isReport = true := by
      rcases hkind with hkind | hkind <;> simp [OutboundMessage.isReport, hkind]
    rw [hout] at hx
    rcases hinit.run_names hmsgs hx hrep with hkey | ⟨-, hkey⟩
    · exact hkey
    · cases hkey

/-- A witness run: a partial fill, a market remainder and a reduce request. -/
theorem run_accounted_marketSell : ∃ s : Engine 3 2,
    run [enterMessage 1 1 .B 5 1, enterMessage 2 1 .S 8 MARKETPRICE, enterMessage 1 2 .S 4 2,
      cancelMessage 1 2 1] = .ok s ∧
    (∀ msg ∈ [enterMessage 1 1 .B 5 1, enterMessage 2 1 .S 8 MARKETPRICE, enterMessage 1 2 .S 4 2,
        cancelMessage 1 2 1], ∀ order, msg.message = .enter order →
      Accounted (orderKey msg.account order.userRefNum) order.quantity s) ∧
    ∀ x ∈ s.outgoingQueue, x.isExecuted = true ∨ x.isCancelled = true →
      x.key ∈ [enterMessage 1 1 .B 5 1, enterMessage 2 1 .S 8 MARKETPRICE,
        enterMessage 1 2 .S 4 2, cancelMessage 1 2 1].filterMap enterKey :=
  run_accounted (by decide) (by decide) (by decide)

end Orders

end LowLevel.OrderBook
