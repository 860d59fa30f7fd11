import LowLevel.Network.Exchange

/-! # Orders and the connections that entered them

An account names a descriptor, and the last connection that had the descriptor
holds the account. As long as a descriptor is handed out again only when the
orders entered under it are settled, every order that rests or is owed a notice
was entered by the holder of its account. A message that an earlier holder left
in the queue may still be processed, but at that moment the account has no
orders, since it stands before all messages of the new holder.
-/

namespace LowLevel.Network.Exchange

open OrderBook

variable {B A : ℕ} {own : Int32 → Bool} {x x' : Exchange B A} {holder : UInt32 → ℕ}
  {history queue : List Arrival} {arrival : Arrival} {stake stake' : UInt32 → Prop}
  {seq connection : ℕ}

section History

theorem matcher_append (history : List Arrival) (arrival : Arrival) :
    matcher A (history ++ [arrival]) = ((matcher A history).process A arrival.1).1 := by
  unfold matcher Indexed.run
  rw [List.map_append, List.foldl_append]
  rfl

theorem reports_append (history : List Arrival) (arrival : Arrival) :
    reports A (history ++ [arrival]) =
      reports A history ++ (matcher A history).answers A arrival.1 := by
  unfold reports
  rw [List.map_append, OrderBook.reports_append, List.map_singleton, Indexed.reports,
    Indexed.reports, List.append_nil]
  rfl

theorem entrant_append (h : entrant history seq = some connection) (later : List Arrival) :
    entrant (history ++ later) seq = some connection := by
  obtain ⟨arrival, hget, hconn⟩ := Option.map_eq_some_iff.mp h
  unfold entrant
  rw [List.filter_append, List.getElem?_append_left (List.getElem?_eq_some_iff.mp hget).1, hget]
  exact congrArg some hconn

theorem entrant_next (henter : isEnter arrival.1 = true) :
    entrant (history ++ [arrival]) (matcher A history).nextArrivalSequence = some arrival.2 := by
  have hnext : (matcher A history).nextArrivalSequence =
      (history.filter (isEnter ·.1)).length := by
    rw [matcher, nextArrivalSequence_run, List.countP_map, List.countP_eq_length_filter]
    exact Nat.zero_add _
  unfold entrant
  rw [hnext, List.filter_append, List.getElem?_append_right (Nat.le_refl _), Nat.sub_self,
    List.filter_singleton, henter]
  rfl

end History

section Queue

/-- A message comes from the holder of its account if it enters an order, or if the account has
orders or may have some once the messages before it are processed. -/
def Fair (holder : UInt32 → ℕ) : (UInt32 → Prop) → List Arrival → Prop
  | _, [] => True
  | stake, arrival :: queue =>
    (stake arrival.1.account ∨ isEnter arrival.1 = true →
      arrival.2 = holder arrival.1.account) ∧
    Fair holder (fun a => stake a ∨ isEnter arrival.1 = true ∧ arrival.1.account = a) queue

theorem Fair.mono (h : Fair holder stake queue) (hstake : ∀ a, stake' a → stake a) :
    Fair holder stake' queue := by
  induction queue generalizing stake stake' with
  | nil => trivial
  | cons arrival queue ih =>
    refine ⟨fun hneed => h.1 (hneed.imp_left (hstake _)), ih h.2 fun a ha => ?_⟩
    exact ha.imp_left (hstake a)

theorem Fair.append (h : Fair holder stake queue)
    (harrival : arrival.2 = holder arrival.1.account) :
    Fair holder stake (queue ++ [arrival]) := by
  induction queue generalizing stake with
  | nil => exact ⟨fun _ => harrival, trivial⟩
  | cons first queue ih => exact ⟨h.1, ih h.2⟩

theorem Fair.handOver {account : UInt32} (h : Fair holder stake queue) (hstake : ¬ stake account)
    (henter : ∀ arrival ∈ queue, isEnter arrival.1 = true → arrival.1.account ≠ account)
    (connection : ℕ) : Fair (Function.update holder account connection) stake queue := by
  induction queue generalizing stake with
  | nil => trivial
  | cons arrival queue ih =>
    have hfirst := henter arrival (List.mem_cons_self ..)
    constructor
    · intro hneed
      have hne : arrival.1.account ≠ account := by
        rintro rfl
        rcases hneed with hneed | hneed
        · exact hstake hneed
        · exact hfirst hneed rfl
      rw [Function.update_of_ne hne]
      exact h.1 hneed
    · apply ih h.2
      · rintro (hs | ⟨he, ha⟩)
        · exact hstake hs
        · exact hfirst he ha
      · exact fun a ha => henter a (List.mem_cons_of_mem _ ha)

end Queue

def HasOrders (A : ℕ) (history : List Arrival) (account : UInt32) : Prop :=
  ∃ o ∈ (matcher A history).openOrders, o.account = account

/-- What every connection that holds an account can rely on. -/
structure Held (holder : UInt32 → ℕ) (x : Exchange B A) : Prop where
  clients : ∀ fd connection, x.clients fd = some connection → holder fd.toUInt32 = connection
  resting : ∀ o ∈ (matcher A x.history).openOrders,
    entrant x.history o.arrivalSequence = some (holder o.account)
  queue : Fair holder (HasOrders A x.history) x.queue
  unsent : ∀ r ∈ (reports A x.history).drop x.written.length, r.1.isNotice = true →
    ∃ seq, r.2 = some seq ∧ entrant x.history seq = some (holder r.1.account)

namespace Held

theorem of_settled {account : UInt32} (hf : x.Follows) (hsettled : x.settled account = true) :
    ¬ HasOrders A x.history account ∧
      (∀ arrival ∈ x.queue, isEnter arrival.1 = true → arrival.1.account ≠ account) ∧
      ∀ r ∈ (reports A x.history).drop x.written.length, r.1.isNotice = true →
        r.1.account ≠ account := by
  simp only [settled, Bool.and_eq_true, List.all_eq_true, Bool.not_eq_true', Bool.and_eq_false_iff,
    decide_eq_true_eq, decide_eq_false_iff_not] at hsettled
  obtain ⟨⟨hresting, hqueue⟩, hunsent⟩ := hsettled
  refine ⟨?_, fun arrival ha he => ?_, fun r hr hn => ?_⟩
  · rintro ⟨o, ho, rfl⟩
    obtain ⟨rs, free, hagrees⟩ := hf.agrees
    have hmem : o.openOrder ∈ x.engine.resting.map (·.2.openOrder) :=
      hagrees.openOrders_perm.mem_iff.mpr (List.mem_map.mpr ⟨o, ho, rfl⟩)
    obtain ⟨c, hc, heq⟩ := List.mem_map.mp hmem
    exact hresting c hc (congrArg OpenOrder.account heq)
  · exact (hqueue arrival ha).resolve_left (by rw [he]; exact Bool.noConfusion)
  · have hmem : r.1 ∈ x.engine.outgoingQueue.drop x.written.length := by
      rw [← hf.published, ← List.map_drop]
      exact List.mem_map.mpr ⟨r, hr, rfl⟩
    exact (hunsent r.1 hmem).resolve_left (by rw [hn]; exact Bool.noConfusion)

theorem accept {fd : Int32} (hf : x.Follows) (h : Held holder x)
    (hsettled : x.settled fd.toUInt32 = true) :
    Held (Function.update holder fd.toUInt32 x.accepted)
      { x with
        clients := Function.update x.clients fd (some x.accepted)
        accepted := x.accepted + 1 } := by
  obtain ⟨hresting, hqueue, hunsent⟩ := of_settled hf hsettled
  constructor
  case clients =>
    intro fd' connection hc
    change Function.update x.clients fd (some x.accepted) fd' = some connection at hc
    by_cases hfd : fd' = fd
    · subst hfd
      rw [Function.update_self] at hc ⊢
      exact Option.some.inj hc
    · have hne : fd'.toUInt32 ≠ fd.toUInt32 := by
        intro he
        rw [← Int32.toInt32_toUInt32 fd', he, Int32.toInt32_toUInt32] at hfd
        exact hfd rfl
      rw [Function.update_of_ne hfd] at hc
      rw [Function.update_of_ne hne]
      exact h.clients fd' connection hc
  case resting =>
    intro o ho
    rw [Function.update_of_ne fun he => hresting ⟨o, ho, he⟩]
    exact h.resting o ho
  case queue => exact h.queue.handOver hresting hqueue _
  case unsent =>
    intro r hr hn
    rw [Function.update_of_ne (hunsent r hr hn)]
    exact h.unsent r hr hn

theorem close {fd : Int32} (h : Held holder x) :
    Held holder { x with clients := Function.update x.clients fd none } := by
  refine ⟨fun fd' connection hc => h.clients fd' connection ?_, h.resting, h.queue, h.unsent⟩
  change Function.update x.clients fd none fd' = some connection at hc
  by_cases hfd : fd' = fd
  · subst hfd
    rw [Function.update_self] at hc
    cases hc
  · rwa [Function.update_of_ne hfd] at hc

theorem read {fd : Int32} (h : Held holder x) (hc : x.clients fd = some connection)
    (message : UOUCHMessage) :
    Held holder { x with queue := x.queue ++ [(⟨fd.toUInt32, message⟩, connection)] } :=
  ⟨h.clients, h.resting, h.queue.append (h.clients fd connection hc).symm, h.unsent⟩

end Held

section Process

variable {engine : Engine B A}

/-- The exchange after the engine has processed the head of the queue. -/
def processed (x : Exchange B A) (arrival : Arrival) (queue : List Arrival)
    (engine : Engine B A) : Exchange B A :=
  { x with queue, engine, history := x.history ++ [arrival] }

theorem Follows.processed (h : x.Follows)
    (hrun : Engine.process arrival.1 x.engine = .ok (⟨⟩, engine)) (queue : List Arrival) :
    (x.processed arrival queue engine).Follows := by
  obtain ⟨rs, free, hagrees⟩ := h.agrees
  obtain ⟨rs', free', hagrees', hout⟩ := process_of_ok hagrees hrun
  constructor
  case agrees =>
    refine ⟨rs', free', ?_⟩
    simp only [Exchange.processed, matcher_append]
    exact hagrees'
  case published =>
    simp only [Exchange.processed, reports_append, List.map_append, map_fst_answers]
    rw [h.published, hout]
  case written =>
    simp only [Exchange.processed]
    rw [hout]
    exact h.written.trans (List.prefix_append ..)

theorem Held.processed (hf : x.Follows) (h : Held holder x) (hqueue : x.queue = arrival :: queue) :
    Held holder (x.processed arrival queue engine) := by
  obtain ⟨rs, free, hagrees⟩ := hf.agrees
  obtain ⟨hhead, hrest⟩ := hqueue ▸ h.queue
  constructor
  case clients => exact h.clients
  case resting =>
    intro o ho
    simp only [Exchange.processed, matcher_append] at ho ⊢
    rcases mem_process ho with ⟨order, hm, q, rfl⟩ | ⟨y, hy, q, rfl⟩
    · have henter : isEnter arrival.1 = true := by rw [isEnter, hm]
      refine (entrant_next henter).trans (congrArg some ?_)
      exact hhead (.inr henter)
    · exact entrant_append (h.resting y hy) _
  case queue =>
    refine hrest.mono ?_
    rintro a ⟨o, ho, rfl⟩
    simp only [Exchange.processed, matcher_append] at ho
    rcases mem_process ho with ⟨order, hm, q, rfl⟩ | ⟨y, hy, q, rfl⟩
    · exact .inr ⟨by rw [isEnter, hm], rfl⟩
    · exact .inl ⟨y, hy, rfl⟩
  case unsent =>
    intro r hr hn
    simp only [Exchange.processed, reports_append] at hr ⊢
    rcases List.mem_append.mp ((List.drop_append ▸ hr)) with hr | hr
    · obtain ⟨seq, hs, he⟩ := h.unsent r hr hn
      exact ⟨seq, hs, entrant_append he _⟩
    · rcases hagrees.mem_answers (List.mem_of_mem_drop hr) hn with
        ⟨henter, hs, ha⟩ | ⟨o, ho, hs, ha⟩
      · refine ⟨_, hs, (entrant_next henter).trans (congrArg some ?_)⟩
        rw [ha]
        exact hhead (.inr henter)
      · refine ⟨_, hs, ?_⟩
        rw [ha]
        exact entrant_append (h.resting o ho) _

theorem Owned.processed (hf : x.Follows) (h : Held holder x) (hqueue : x.queue = arrival :: queue)
    (howned : x.Owned) : (x.processed arrival queue engine).Owned := by
  obtain ⟨rs, free, hagrees⟩ := hf.agrees
  obtain ⟨hhead, -⟩ := hqueue ▸ h.queue
  constructor
  case cancels =>
    intro before msg connection after cancel o hsplit hm hfind hlt
    simp only [Exchange.processed] at hsplit ⊢
    rcases List.eq_nil_or_concat after with rfl | ⟨after', last, rfl⟩
    · obtain ⟨rfl, hlast⟩ := List.append_inj' hsplit rfl
      obtain rfl : arrival = (msg, connection) := List.singleton_inj.mp hlast
      have ho := Indexed.mem_of_find hfind
      have haccount := (orderKey_inj.mp (hagrees.key_of_find hfind)).1
      have hentered := h.resting o ho
      rw [haccount, ← hhead (.inl ⟨o, ho, haccount⟩)] at hentered
      exact entrant_append hentered _
    · rw [List.concat_eq_append, ← List.cons_append, ← List.append_assoc] at hsplit
      obtain ⟨hhist, -⟩ := List.append_inj' hsplit rfl
      exact entrant_append
        (howned.cancels before msg connection after' cancel o hhist hm hfind hlt) _
  case notices =>
    intro k message connection hk hn
    obtain ⟨seq, hget, he⟩ := howned.notices k message connection hk hn
    refine ⟨seq, ?_, entrant_append he _⟩
    simp only [Exchange.processed, reports_append]
    rw [List.getElem?_append_left (List.getElem?_eq_some_iff.mp hget).1, hget]

end Process

section Send

variable {message : OutboundMessage}

def sent (x : Exchange B A) (message : OutboundMessage) : Exchange B A :=
  { x with written := x.written ++ [(message, x.clients message.account.toInt32)] }

theorem Follows.sent (h : x.Follows)
    (hnext : x.engine.outgoingQueue[x.written.length]? = some message) :
    (x.sent message).Follows := by
  refine ⟨h.agrees, h.published, ?_⟩
  obtain ⟨rest, hrest⟩ := h.written
  have hlen : (x.written.map Prod.fst).length = x.written.length := List.length_map ..
  rw [← hrest, List.getElem?_append_right hlen.le, hlen, Nat.sub_self] at hnext
  cases rest with
  | nil => cases hnext
  | cons first rest =>
    obtain rfl := Option.some.inj hnext
    refine ⟨rest, ?_⟩
    simp only [Exchange.sent, List.map_append, List.map_singleton, List.append_assoc,
      List.singleton_append]
    exact hrest

theorem Held.sent (h : Held holder x) (message : OutboundMessage) :
    Held holder (x.sent message) := by
  refine ⟨h.clients, h.resting, h.queue, fun r hr hn => h.unsent r ?_ hn⟩
  simp only [Exchange.sent, List.length_append, List.length_singleton, ← List.drop_drop] at hr
  exact List.mem_of_mem_drop hr

theorem Owned.sent (hf : x.Follows) (h : Held holder x) (howned : x.Owned)
    (hnext : x.engine.outgoingQueue[x.written.length]? = some message) :
    (x.sent message).Owned := by
  refine ⟨howned.cancels, fun k notice connection hk hn => ?_⟩
  simp only [Exchange.sent] at hk ⊢
  rcases Nat.lt_or_ge k x.written.length with hlt | hge
  · rw [List.getElem?_append_left hlt] at hk
    exact howned.notices k notice connection hk hn
  · rw [List.getElem?_append_right hge] at hk
    have hbound := (List.getElem?_eq_some_iff.mp hk).1
    obtain rfl : k = x.written.length := by
      rw [List.length_singleton] at hbound
      omega
    obtain ⟨rfl, hclient⟩ := Prod.mk.inj (List.mem_singleton.mp (List.mem_of_getElem? hk))
    rw [← hf.published, List.getElem?_map] at hnext
    obtain ⟨r, hget, rfl⟩ := Option.map_eq_some_iff.mp hnext
    have hmem : r ∈ (reports A x.history).drop x.written.length := by
      apply List.mem_of_getElem? (i := 0)
      rw [List.getElem?_drop]
      exact hget
    obtain ⟨seq, hs, he⟩ := h.unsent r hmem hn
    have hheld := h.clients _ connection hclient.symm
    rw [UInt32.toUInt32_toInt32] at hheld
    exact ⟨seq, by rw [hget, ← hs], he.trans (congrArg some hheld)⟩

end Send

/-- The engine follows the matcher, every account has a holder, and orders are owned. -/
structure Invariant (x : Exchange B A) : Prop where
  follows : x.Follows
  held : ∃ holder, Held holder x
  owned : x.Owned

theorem invariant_init (hA : 0 < A) : Invariant ({} : Exchange B A) := by
  constructor
  case follows => exact ⟨⟨_, _, agrees_init hA⟩, rfl, List.nil_prefix⟩
  case held =>
    refine ⟨fun _ => 0, fun fd c hc => ?_, fun o ho => ?_, trivial, fun r hr => ?_⟩
    · cases hc
    · cases ho
    · cases hr
  case owned =>
    refine ⟨fun before msg c after cancel o hsplit => ?_, fun k message c hk => ?_⟩
    · cases before <;> cases hsplit
    · cases hk

theorem receiveMsg_invariant {event : Event} (h : Invariant x)
    (hcond : x.settledFirst (.receive event) = true)
    (hstep : x.receiveMsg own event = some x') : Invariant x' := by
  obtain ⟨hf, ⟨holder, hheld⟩, howned⟩ := h
  cases event with
  | accept fd =>
    obtain ⟨-, heq⟩ := Option.ite_none_right_eq_some.mp hstep
    obtain rfl := Option.some.inj heq
    exact ⟨⟨hf.agrees, hf.published, hf.written⟩, ⟨_, hheld.accept hf hcond⟩,
      ⟨howned.cancels, howned.notices⟩⟩
  | close fd =>
    obtain ⟨connection, -, heq⟩ := Option.bind_eq_some_iff.mp hstep
    obtain rfl := Option.some.inj heq
    exact ⟨⟨hf.agrees, hf.published, hf.written⟩, ⟨_, hheld.close⟩,
      ⟨howned.cancels, howned.notices⟩⟩
  | read fd message =>
    obtain ⟨connection, hc, heq⟩ := Option.bind_eq_some_iff.mp hstep
    obtain rfl := Option.some.inj heq
    exact ⟨⟨hf.agrees, hf.published, hf.written⟩, ⟨_, hheld.read hc message⟩,
      ⟨howned.cancels, howned.notices⟩⟩

theorem process_invariant (h : Invariant x) (hstep : x.process = some x') : Invariant x' := by
  obtain ⟨hf, ⟨holder, hheld⟩, howned⟩ := h
  unfold process at hstep
  split at hstep
  · cases hstep
  · rename_i arrival queue hqueue
    split at hstep
    · rename_i engine hrun
      obtain rfl := Option.some.inj hstep
      exact ⟨hf.processed hrun queue, ⟨holder, hheld.processed hf hqueue⟩,
        howned.processed hf hheld hqueue⟩
    · cases hstep

theorem sendMsg_invariant (h : Invariant x) (hstep : x.sendMsg = some x') : Invariant x' := by
  obtain ⟨hf, ⟨holder, hheld⟩, howned⟩ := h
  obtain ⟨message, hnext, heq⟩ := Option.bind_eq_some_iff.mp hstep
  obtain rfl := Option.some.inj heq
  exact ⟨hf.sent hnext, ⟨holder, hheld.sent message⟩, howned.sent hf hheld hnext⟩

/-- In every run in which a descriptor is handed out again only when the orders entered under
it are settled, orders belong to the connection that entered them. -/
theorem owned_of_settledFirst (hA : 0 < A) {acts : List Action}
    (hrun : ((machine B A own).under settledFirst).run {} acts = some x) :
    x.Follows ∧ x.Owned := by
  have h : Invariant x := by
    refine Machine.run_invariant (fun y act y' hy hstep => ?_) (invariant_init hA) hrun
    obtain ⟨hcond, hstep⟩ := Machine.under_step.mp hstep
    cases act with
    | receive event => exact receiveMsg_invariant hy hcond hstep
    | process => exact process_invariant hy hstep
    | send => exact sendMsg_invariant hy hstep
  exact ⟨h.follows, h.owned⟩

def firstFive (fd : Int32) : Bool := fd < 5

def bid : UOUCHMessage := (enterMessage 5 1 .B 3 0).message

def cancelBid : UOUCHMessage := .cancel ⟨1, 0⟩

/-- A client enters a bid, cancels it and leaves; the next one gets its descriptor. -/
def settledReuse : List Action :=
  [.receive (.accept 5), .receive (.read 5 bid), .process, .receive (.read 5 cancelBid), .process,
    .send, .send, .receive (.close 5), .receive (.accept 5), .receive (.read 5 bid), .process]

theorem owned_of_settledFirst_reuse : ∃ x : Exchange 2 2,
    ((machine 2 2 firstFive).under settledFirst).run {} settledReuse = some x ∧
      x.Follows ∧ x.Owned := by
  have hsome : (((machine 2 2 firstFive).under settledFirst).run {} settledReuse).isSome := by
    decide +kernel
  obtain ⟨x, hrun⟩ := Option.isSome_iff_exists.mp hsome
  exact ⟨x, hrun, owned_of_settledFirst (by decide) hrun⟩

/-- A client leaves while its bid rests; the next one gets its descriptor and cancels the bid. -/
def earlyReuse : List Action :=
  [.receive (.accept 5), .receive (.read 5 bid), .process, .receive (.close 5),
    .receive (.accept 5), .receive (.read 5 cancelBid), .process, .send, .send]

theorem earlyReuse_not_owned : ∃ x : Exchange 2 2,
    (machine 2 2 firstFive).run {} earlyReuse = some x ∧
      (cancelled 5 1 3 'U', some 1) ∈ x.written ∧ ¬ x.Owned := by
  have hlogs : ((machine 2 2 firstFive).run {} earlyReuse).map
      (fun x => (x.history, x.written[1]?)) =
      some ([(⟨5, bid⟩, 0), (⟨5, cancelBid⟩, 1)], some (cancelled 5 1 3 'U', some 1)) := by
    decide +kernel
  obtain ⟨x, hrun, hx⟩ := Option.map_eq_some_iff.mp hlogs
  obtain ⟨hhistory, hwritten⟩ := Prod.mk.inj hx
  refine ⟨x, hrun, ?_, fun h => ?_⟩
  · exact List.mem_of_getElem? hwritten
  · have hentered := h.cancels [(⟨5, bid⟩, 0)] ⟨5, cancelBid⟩ 1 [] ⟨1, 0⟩ ⟨5, 1, .B, 0, 3, 0⟩
      hhistory rfl (by decide +kernel) (by decide)
    rw [hhistory] at hentered
    exact absurd hentered (by decide)

end LowLevel.Network.Exchange
