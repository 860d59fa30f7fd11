import LowLevel.Queues.LfStack

/-! # The lock-free stack is linearizable while pops find a node

The nodes from the head hold the values of the stack, and the calls in the order
of their successful exchanges have the results of that stack. A pop that reads a
null head dereferences it when it returns; so this holds along the runs in which
no pop does.
-/

namespace LowLevel.Queues.LfStack

open Linearization

variable {ι T : Type*}

def Chain (nodes : ℕ → Option (Node T)) : Option ℕ → List (ℕ × T) → Prop
  | p, [] => p = none
  | p, (n, value) :: rest => p = some n ∧ ∃ prev, nodes n = some ⟨value, prev⟩ ∧
      Chain nodes prev rest

def Public (s : LfStack ι T) (n : ℕ) : Prop := ∀ u, s.phase u ≠ .pushExchange n

/-- What a thread knows of its call and of the node it holds; `stacked` are the nodes on the
stack. -/
def Knows (s : LfStack ι T) (stacked : List ℕ) (t : ι) : Prop :=
  match s.phase t with
  | .idle => True
  | .pushLoad value => ∃ id, s.calls.status t = .called id (.push value)
  | .pushExchange n => n ∉ stacked ∧ ∃ id value prev, s.nodes n = some ⟨value, prev⟩ ∧
      s.calls.status t = .called id (.push value)
  | .pushReturn => ∃ id value, s.calls.status t = .settled id (.push value) none
  | .popLoad => ∃ id, s.calls.status t = .called id .pop
  | .popTest currHead => ∃ n node id, currHead = some n ∧ s.nodes n = some node ∧ s.Public n ∧
      s.calls.status t = .called id .pop
  | .popExchange n prev => s.Public n ∧ ∃ id value, s.nodes n = some ⟨value, prev⟩ ∧
      s.calls.status t = .called id .pop
  | .popReturn currHead => ∃ n id value prev, currHead = some n ∧ s.Public n ∧
      s.nodes n = some ⟨value, prev⟩ ∧ s.calls.status t = .settled id .pop (some value)
  | .crashed => False

/-- The nodes from the head hold the stack that the calls have left. -/
structure Inv [DecidableEq ι] (s : LfStack ι T) (entries : List (ℕ × T)) : Prop where
  calls : s.calls.Ok StackOp.apply [] (entries.map Prod.snd)
  chain : Chain s.nodes s.head entries
  fresh : ∀ n, s.made ≤ n → s.nodes n = none
  distinct : ∀ t u n, s.phase t = .pushExchange n → s.phase u = .pushExchange n → t = u
  threads : ∀ t, s.Knows (entries.map Prod.fst) t
  fault : s.fault = false

section Chains

variable {nodes nodes' : ℕ → Option (Node T)} {p : Option ℕ} {entries : List (ℕ × T)}

theorem Chain.frame (h : Chain nodes p entries)
    (hn : ∀ n ∈ entries.map Prod.fst, nodes' n = nodes n) : Chain nodes' p entries := by
  induction entries generalizing p with
  | nil => exact h
  | cons e rest ih =>
    obtain ⟨hp, prev, hnode, hrest⟩ := h
    refine ⟨hp, prev, (hn _ (List.mem_cons_self ..)).trans hnode, ih hrest fun n hmem => ?_⟩
    exact hn n (List.mem_cons_of_mem _ hmem)

theorem Chain.isSome (h : Chain nodes p entries) {n : ℕ} (hn : n ∈ entries.map Prod.fst) :
    ∃ node, nodes n = some node := by
  induction entries generalizing p with
  | nil => cases hn
  | cons e rest ih =>
    obtain ⟨-, prev, hnode, hrest⟩ := h
    rcases List.mem_cons.mp hn with rfl | hn
    · exact ⟨_, hnode⟩
    · exact ih hrest hn

theorem Chain.cons_of_some {n : ℕ} (h : Chain nodes p entries) (hp : p = some n) :
    ∃ value prev rest, entries = (n, value) :: rest ∧ nodes n = some ⟨value, prev⟩ ∧
      Chain nodes prev rest := by
  cases entries with
  | nil =>
    rw [hp] at h
    cases h
  | cons e rest =>
    obtain ⟨m, value⟩ := e
    obtain ⟨hp', prev, hnode, hrest⟩ := h
    obtain rfl : m = n := Option.some.inj (hp'.symm.trans hp)
    exact ⟨value, prev, rest, rfl, hnode, hrest⟩

end Chains

section Steps

variable [DecidableEq ι] {s : LfStack ι T} {entries entries' : List (ℕ × T)} {t : ι}

theorem Inv.init : Inv ({} : LfStack ι T) [] where
  calls := .start _ _
  chain := rfl
  fresh _ _ := rfl
  distinct t u n h := by cases h
  threads t := trivial
  fault := rfl

theorem Inv.own (h : Inv s entries) {n : ℕ} (ht : s.phase t = .pushExchange n) :
    n ∉ entries.map Prod.fst ∧ ∃ id value prev, s.nodes n = some ⟨value, prev⟩ ∧
      s.calls.status t = .called id (.push value) := by
  have hknows := h.threads t
  rw [Knows, ht] at hknows
  exact hknows

theorem Inv.public_stacked (h : Inv s entries) {n : ℕ} (hn : n ∈ entries.map Prod.fst) :
    s.Public n := by
  intro u hu
  exact (h.own hu).1 hn

theorem Inv.distinct_goTo (h : Inv s entries) {p : Phase T} (hp : ∀ n, p ≠ .pushExchange n)
    (u v : ι) (n : ℕ) (hu : (s.goTo t p).phase u = .pushExchange n)
    (hv : (s.goTo t p).phase v = .pushExchange n) : u = v := by
  rcases update_eq hu with ⟨-, heq⟩ | ⟨-, hu'⟩
  · exact absurd heq (hp n)
  · rcases update_eq hv with ⟨-, heq⟩ | ⟨-, hv'⟩
    · exact absurd heq (hp n)
    · exact h.distinct u v n hu' hv'

theorem Public.goTo {n : ℕ} (h : s.Public n) (t : ι) {p : Phase T} (hp : p ≠ .pushExchange n) :
    (s.goTo t p).Public n := by
  intro u hu
  rcases update_eq hu with ⟨-, heq⟩ | ⟨-, hu'⟩
  · exact hp heq
  · exact h u hu'

/-- What the other threads know stays true if neither their own nodes nor the public ones change,
their own nodes are not stacked, and no public node becomes that of the thread that moves. -/
theorem Inv.others (h : Inv s entries) (s' : LfStack ι T)
    (hphase : ∀ u ≠ t, s'.phase u = s.phase u)
    (hstatus : ∀ u ≠ t, s'.calls.status u = s.calls.status u)
    (hown : ∀ u ≠ t, ∀ n, s.phase u = .pushExchange n →
      s'.nodes n = s.nodes n ∧ n ∉ entries'.map Prod.fst)
    (hpublic : ∀ n node, s.Public n → s.nodes n = some node →
      s'.nodes n = s.nodes n ∧ s'.phase t ≠ .pushExchange n) :
    ∀ u ≠ t, s'.Knows (entries'.map Prod.fst) u := by
  intro u hu
  have hstays : ∀ n node, s.Public n → s.nodes n = some node →
      s'.nodes n = some node ∧ s'.Public n := by
    intro n node hn hnode
    obtain ⟨hsame, ht⟩ := hpublic n node hn hnode
    refine ⟨hsame.trans hnode, fun v => ?_⟩
    rcases eq_or_ne v t with rfl | hv
    · exact ht
    · rw [hphase v hv]
      exact hn v
  have hknows := h.threads u
  have howned := hown u hu
  rw [Knows, hphase u hu, hstatus u hu]
  rw [Knows] at hknows
  cases hp : s.phase u with
  | idle => trivial
  | pushLoad value =>
    rw [hp] at hknows
    exact hknows
  | pushExchange n =>
    rw [hp] at hknows
    obtain ⟨hsame, hnot⟩ := howned n hp
    obtain ⟨-, id, value, prev, hnode, hcalled⟩ := hknows
    exact ⟨hnot, id, value, prev, hsame.trans hnode, hcalled⟩
  | pushReturn =>
    rw [hp] at hknows
    exact hknows
  | popLoad =>
    rw [hp] at hknows
    exact hknows
  | popTest currHead =>
    rw [hp] at hknows
    obtain ⟨n, node, id, rfl, hnode, hn, hcalled⟩ := hknows
    obtain ⟨hnode', hn'⟩ := hstays n node hn hnode
    exact ⟨n, node, id, rfl, hnode', hn', hcalled⟩
  | popExchange n prev =>
    rw [hp] at hknows
    obtain ⟨hn, id, value, hnode, hcalled⟩ := hknows
    obtain ⟨hnode', hn'⟩ := hstays n _ hn hnode
    exact ⟨hn', id, value, hnode', hcalled⟩
  | popReturn currHead =>
    rw [hp] at hknows
    obtain ⟨n, id, value, prev, rfl, hn, hnode, hsettled⟩ := hknows
    obtain ⟨hnode', hn'⟩ := hstays n _ hn hnode
    exact ⟨n, id, value, prev, rfl, hn', hnode', hsettled⟩
  | crashed =>
    rw [hp] at hknows
    exact hknows

theorem Inv.moveHead (h : Inv s entries) {p : Phase T} {head : Option ℕ}
    {calls : Calls ι (StackOp T) (Option T)}
    (hcalls : calls.Ok StackOp.apply [] (entries'.map Prod.snd))
    (hchain : Chain s.nodes head entries')
    (hstatus : ∀ u ≠ t, calls.status u = s.calls.status u) (hp : ∀ n, p ≠ .pushExchange n)
    (hown : ∀ u ≠ t, ∀ n, s.phase u = .pushExchange n → n ∉ entries'.map Prod.fst)
    (hknows : ({ s.goTo t p with head, calls } : LfStack ι T).Knows (entries'.map Prod.fst) t) :
    Inv { s.goTo t p with head, calls } entries' := by
  have hphase : ∀ u ≠ t, (s.goTo t p).phase u = s.phase u := fun u hu => Function.update_of_ne hu ..
  have hself : (s.goTo t p).phase t = p := Function.update_self ..
  constructor
  case calls => exact hcalls
  case chain => exact hchain
  case fresh => exact h.fresh
  case distinct => exact h.distinct_goTo hp
  case threads =>
    intro u
    rcases eq_or_ne u t with rfl | hu
    · exact hknows
    · refine h.others { s.goTo t p with head, calls } hphase hstatus ?_ ?_ u hu
      · exact fun v hv n hn => ⟨rfl, hown v hv n hn⟩
      · intro n node _ _
        refine ⟨rfl, ?_⟩
        show (s.goTo t p).phase t ≠ .pushExchange n
        rw [hself]
        exact hp n
  case fault => exact h.fault

/-- A step that changes the phase and the calls of a thread that neither had nor gets a node of its
own. -/
theorem Inv.local_step (h : Inv s entries) {p : Phase T} {calls : Calls ι (StackOp T) (Option T)}
    (hcalls : calls.Ok StackOp.apply [] (entries.map Prod.snd))
    (hstatus : ∀ u ≠ t, calls.status u = s.calls.status u) (hp : ∀ n, p ≠ .pushExchange n)
    (hknows : ({ s.goTo t p with calls } : LfStack ι T).Knows (entries.map Prod.fst) t) :
    Inv { s.goTo t p with calls } entries :=
  h.moveHead hcalls h.chain hstatus hp (fun _ _ _ hn => (h.own hn).1) hknows

theorem Inv.make (h : Inv s entries) {value : T} (hp : s.phase t = .pushLoad value) :
    Inv { s.goTo t (.pushExchange s.made) with
      nodes := Function.update s.nodes s.made (some ⟨value, s.head⟩)
      made := s.made + 1 } entries := by
  have hself := h.threads t
  rw [Knows, hp] at hself
  obtain ⟨id, hcalled⟩ := hself
  have hnew := h.fresh s.made le_rfl
  -- every node that exists is another one
  have hne : ∀ n node, s.nodes n = some node → n ≠ s.made := by
    rintro n node hn rfl
    rw [hnew] at hn
    cases hn
  have hstacked : ∀ n ∈ entries.map Prod.fst, n ≠ s.made := by
    intro n hn
    obtain ⟨node, hnode⟩ := h.chain.isSome hn
    exact hne n node hnode
  have hown : ∀ u n, s.phase u = .pushExchange n → n ≠ s.made ∧ n ∉ entries.map Prod.fst := by
    intro u n hu
    obtain ⟨hnot, -, value', prev, hnode, -⟩ := h.own hu
    exact ⟨hne n _ hnode, hnot⟩
  constructor
  case calls => exact h.calls
  case chain => exact h.chain.frame fun n hn => Function.update_of_ne (hstacked n hn) ..
  case fresh =>
    intro n hn
    have hle : s.made + 1 ≤ n := hn
    show Function.update s.nodes s.made _ n = none
    rw [Function.update_of_ne (by omega)]
    exact h.fresh n (by omega)
  case distinct =>
    intro u v n hu hv
    rcases update_eq hu with ⟨hut, heq⟩ | ⟨-, hu'⟩ <;>
      rcases update_eq hv with ⟨hvt, heq'⟩ | ⟨-, hv'⟩
    · exact hut.trans hvt.symm
    · cases heq
      exact absurd rfl (hown v _ hv').1
    · cases heq'
      exact absurd rfl (hown u _ hu').1
    · exact h.distinct u v n hu' hv'
  case threads =>
    intro u
    rcases eq_or_ne u t with rfl | hu
    · rw [Knows]
      simp only [goTo, Function.update_self]
      exact ⟨fun hn => hstacked _ hn rfl, id, value, s.head, rfl, hcalled⟩
    · refine h.others _ ?_ ?_ ?_ ?_ u hu
      · exact fun v hv => Function.update_of_ne hv ..
      · exact fun _ _ => rfl
      · intro v _ n hv
        exact ⟨Function.update_of_ne (hown v n hv).1 .., (hown v n hv).2⟩
      · intro n node hn hnode
        refine ⟨Function.update_of_ne (hne n node hnode) .., ?_⟩
        intro heq
        rw [goTo] at heq
        simp only [Function.update_self, Phase.pushExchange.injEq] at heq
        exact hne n node hnode heq.symm
  case fault => exact h.fault

theorem Inv.relink (h : Inv s entries) {n : ℕ} {node : Node T} (hp : s.phase t = .pushExchange n)
    (hnode : s.nodes n = some node) (prev : Option ℕ) :
    Inv { s with nodes := Function.update s.nodes n (some { node with prev }) } entries := by
  obtain ⟨hnot, id, value, prev', hnode', hcalled⟩ := h.own hp
  have hstacked : ∀ m ∈ entries.map Prod.fst, m ≠ n := by
    rintro m hm rfl
    exact hnot hm
  constructor
  case calls => exact h.calls
  case chain => exact h.chain.frame fun m hm => Function.update_of_ne (hstacked m hm) ..
  case fresh =>
    intro m hm
    have hne : m ≠ n := by
      rintro rfl
      have hle : s.made ≤ m := hm
      rw [h.fresh m hle] at hnode
      cases hnode
    show Function.update s.nodes n _ m = none
    rw [Function.update_of_ne hne]
    exact h.fresh m hm
  case distinct => exact h.distinct
  case threads =>
    intro u
    rcases eq_or_ne u t with rfl | hu
    · rw [Knows]
      simp only [hp]
      obtain rfl : node = ⟨value, prev'⟩ := Option.some.inj (hnode.symm.trans hnode')
      exact ⟨hnot, id, value, prev, Function.update_self .., hcalled⟩
    · refine h.others _ ?_ ?_ ?_ ?_ u hu
      · exact fun _ _ => rfl
      · exact fun _ _ => rfl
      · intro v hv m hm
        have hne : m ≠ n := by
          rintro rfl
          exact hv (h.distinct v t m hm hp)
        exact ⟨Function.update_of_ne hne .., (h.own hm).1⟩
      · intro m node' hm hnode''
        have hne : m ≠ n := by
          rintro rfl
          exact hm t hp
        refine ⟨Function.update_of_ne hne .., ?_⟩
        exact hm t
  case fault => exact h.fault

theorem Inv.publish (h : Inv s entries) {n : ℕ} {node : Node T} (hp : s.phase t = .pushExchange n)
    (hnode : s.nodes n = some node) (hhead : s.head = node.prev) :
    Inv { s.goTo t .pushReturn with head := some n, calls := s.calls.settle t none }
      ((n, node.data) :: entries) := by
  obtain ⟨hnot, id, value, prev, hnode', hcalled⟩ := h.own hp
  obtain rfl : node = ⟨value, prev⟩ := Option.some.inj (hnode.symm.trans hnode')
  apply h.moveHead (h.calls.settle hcalled rfl)
  · have hchain := h.chain
    rw [hhead] at hchain
    exact ⟨rfl, prev, hnode, hchain⟩
  · exact fun u hu => Calls.status_settle_of_ne hu
  · exact fun _ => nofun
  · intro u hu m hm hmem
    rcases List.mem_cons.mp hmem with rfl | hmem
    · exact hu (h.distinct u t _ hm hp)
    · exact (h.own hm).1 hmem
  · rw [Knows]
    simp only [goTo, Function.update_self]
    exact ⟨id, value, Calls.status_settle_self hcalled⟩

theorem Inv.take (h : Inv s entries) {n : ℕ} {prev : Option ℕ}
    (hp : s.phase t = .popExchange n prev)
    (hhead : s.head = some n) :
    ∃ entries', Inv { s.goTo t (.popReturn (some n)) with
      head := prev
      calls := s.calls.settle t ((s.nodes n).map Node.data) } entries' := by
  have hself := h.threads t
  rw [Knows, hp] at hself
  obtain ⟨hpublic, id, value, hnode, hcalled⟩ := hself
  obtain ⟨value', prev', rest, rfl, hnode', hrest⟩ := h.chain.cons_of_some hhead
  obtain ⟨rfl, rfl⟩ : value' = value ∧ prev' = prev := by
    have := Option.some.inj (hnode'.symm.trans hnode)
    exact ⟨congrArg Node.data this, congrArg Node.prev this⟩
  refine ⟨rest, ?_⟩
  rw [hnode, Option.map_some]
  apply h.moveHead (h.calls.settle hcalled rfl) hrest
  · exact fun u hu => Calls.status_settle_of_ne hu
  · exact fun _ => nofun
  · exact fun _ _ m hm hmem => (h.own hm).1 (List.mem_cons_of_mem _ hmem)
  · rw [Knows]
    simp only [goTo, Function.update_self]
    have hpublic' : (s.goTo t (.popReturn (some n))).Public n := hpublic.goTo t nofun
    exact ⟨n, id, value', prev', rfl, hpublic', hnode, Calls.status_settle_self hcalled⟩

theorem Inv.call (h : Inv s entries) {p : Phase T} {op : StackOp T} (hp : ∀ n, p ≠ .pushExchange n)
    (hknows : ({ s.goTo t p with calls := s.calls.call t op } : LfStack ι T).Knows
      (entries.map Prod.fst) t) : Inv { s.goTo t p with calls := s.calls.call t op } entries :=
  h.local_step (h.calls.call t op) (fun _ hu => Calls.status_call_of_ne hu) hp hknows

theorem Inv.see (h : Inv s entries) {id : ℕ} (hcalled : s.calls.status t = .called id .pop)
    (hhead : s.head.isSome = true) : Inv (s.goTo t (.popTest s.head)) entries := by
  obtain ⟨n, hn⟩ := Option.isSome_iff_exists.mp hhead
  obtain ⟨value, prev, rest, rfl, hnode, -⟩ := h.chain.cons_of_some hn
  refine h.local_step h.calls (fun _ _ => rfl) (fun _ => nofun) ?_
  have hpublic : (s.goTo t (.popTest s.head)).Public n :=
    (h.public_stacked (List.mem_cons_self ..)).goTo t nofun
  rw [Knows]
  simp only [goTo, Function.update_self]
  exact ⟨n, _, id, hn, hnode, hpublic, hcalled⟩

theorem Inv.ret (h : Inv s entries) {id : ℕ} {op : StackOp T} {res : Option T}
    (hsettled : s.calls.status t = .settled id op res) :
    Inv { s.goTo t .idle with calls := s.calls.ret t res } entries := by
  refine h.local_step (h.calls.ret hsettled) (fun _ hu => Calls.status_ret_of_ne hu)
    (fun _ => nofun) ?_
  rw [Knows]
  simp only [goTo, Function.update_self]

/-- No pop reads a null head: neither when it begins nor in an exchange that fails. -/
def seesNode (s : LfStack ι T) : Action ι T → Bool
  | .push .. | .pop _ => true
  | .move t _ =>
    match s.phase t with
    | .popLoad | .popExchange .. => s.head.isSome
    | _ => true

theorem Inv.move {s' : LfStack ι T} {spurious : Bool} (h : Inv s entries)
    (hsees : s.seesNode (.move t spurious) = true) (hmove : s.move t spurious = some s') :
    ∃ entries', Inv s' entries' := by
  have hself := h.threads t
  rw [Knows] at hself
  rw [seesNode] at hsees
  rw [LfStack.move] at hmove
  cases hp : s.phase t with
  | idle =>
    rw [hp] at hmove
    cases hmove
  | pushLoad value =>
    rw [hp] at hmove
    obtain rfl := Option.some.inj hmove
    exact ⟨entries, h.make hp⟩
  | pushExchange n =>
    obtain ⟨-, id, value, prev, hnode, -⟩ := h.own hp
    simp only [hp, hnode] at hmove
    split at hmove
    · next hhead =>
      obtain rfl := Option.some.inj hmove
      exact ⟨_, h.publish hp hnode hhead.1⟩
    · obtain rfl := Option.some.inj hmove
      exact ⟨entries, h.relink hp hnode s.head⟩
  | pushReturn =>
    rw [hp] at hmove hself
    obtain ⟨id, value, hsettled⟩ := hself
    obtain rfl := Option.some.inj hmove
    exact ⟨entries, h.ret hsettled⟩
  | popLoad =>
    rw [hp] at hmove hself hsees
    obtain ⟨id, hcalled⟩ := hself
    obtain rfl := Option.some.inj hmove
    exact ⟨entries, h.see hcalled hsees⟩
  | popTest currHead =>
    rw [hp] at hmove hself
    obtain ⟨n, node, id, rfl, hnode, hpublic, hcalled⟩ := hself
    simp only [hnode] at hmove
    obtain rfl := Option.some.inj hmove
    refine ⟨entries, h.local_step h.calls (fun _ _ => rfl) (fun _ => nofun) ?_⟩
    have hpublic' : (s.goTo t (.popExchange n node.prev)).Public n := hpublic.goTo t nofun
    rw [Knows]
    simp only [goTo, Function.update_self]
    exact ⟨hpublic', id, node.data, hnode, hcalled⟩
  | popExchange n prev =>
    rw [hp] at hmove hself hsees
    obtain ⟨-, id, value, -, hcalled⟩ := hself
    simp only at hmove
    split at hmove
    · next hhead =>
      obtain rfl := Option.some.inj hmove
      exact h.take hp hhead.1
    · obtain rfl := Option.some.inj hmove
      exact ⟨entries, h.see hcalled hsees⟩
  | popReturn currHead =>
    rw [hp] at hmove hself
    obtain ⟨n, id, value, prev, rfl, -, hnode, hsettled⟩ := hself
    simp only [hnode] at hmove
    obtain rfl := Option.some.inj hmove
    exact ⟨entries, h.ret hsettled⟩
  | crashed =>
    rw [hp] at hmove
    cases hmove

theorem Inv.step {s' : LfStack ι T} {act : Action ι T} (h : Inv s entries)
    (hsees : s.seesNode act = true) (hstep : s.step act = some s') :
    ∃ entries', Inv s' entries' := by
  cases act with
  | push t value =>
    rw [LfStack.step] at hstep
    split at hstep
    · obtain rfl := Option.some.inj hstep
      refine ⟨entries, h.call (fun _ => nofun) ?_⟩
      rw [Knows]
      simp only [goTo, Function.update_self]
      exact ⟨s.calls.count, Calls.status_call_self⟩
    · cases hstep
  | pop t =>
    rw [LfStack.step] at hstep
    split at hstep
    · obtain rfl := Option.some.inj hstep
      refine ⟨entries, h.call (fun _ => nofun) ?_⟩
      rw [Knows]
      simp only [goTo, Function.update_self]
      exact ⟨s.calls.count, Calls.status_call_self⟩
    · cases hstep
  | move t spurious => exact h.move hsees hstep

theorem reachable_inv (h : ((machine ι T).under seesNode).Reachable s) :
    ∃ entries, Inv s entries := by
  refine h.invariant (P := fun s => ∃ entries, Inv s entries) ⟨[], Inv.init⟩ ?_
  rintro s₁ act s₂ ⟨entries, hinv⟩ hstep
  obtain ⟨hsees, hs₂⟩ := Machine.under_step.mp hstep
  exact hinv.step hsees hs₂

end Steps

section Conservation

variable {order : List (Entry (StackOp T) (Option T))} {stack : List T}

def pushed (order : List (Entry (StackOp T) (Option T))) : List T :=
  order.filterMap fun e => match e.op with
    | .push value => some value
    | .pop => none

def popped (order : List (Entry (StackOp T) (Option T))) : List T :=
  order.filterMap fun e => match e.op with
    | .push _ => none
    | .pop => e.res

theorem pushed_append (order rest : List (Entry (StackOp T) (Option T))) :
    pushed (order ++ rest) = pushed order ++ pushed rest := List.filterMap_append

theorem popped_append (order rest : List (Entry (StackOp T) (Option T))) :
    popped (order ++ rest) = popped order ++ popped rest := List.filterMap_append

theorem perm_pushed (h : Replays StackOp.apply [] order stack) :
    (popped order ++ stack).Perm (pushed order) := by
  induction h with
  | nil => exact List.Perm.refl _
  | @snoc order stack id op _ ih =>
    rw [popped_append, pushed_append]
    cases op with
    | push value =>
      show (popped order ++ [] ++ value :: stack).Perm (pushed order ++ [value])
      rw [List.append_nil]
      exact (List.perm_middle.trans (ih.cons value)).trans
        (List.perm_append_singleton value _).symm
    | pop =>
      cases stack with
      | nil =>
        show (popped order ++ [] ++ []).Perm (pushed order ++ [])
        rwa [List.append_nil, List.append_nil (pushed order)]
      | cons value rest =>
        show (popped order ++ [value] ++ rest).Perm (pushed order ++ [])
        rwa [List.append_nil, List.append_assoc]

end Conservation

/-- The calls have an order in which they are those of a stack, which the nodes from the head
hold; every pushed value is popped once or still there, and no null pointer was dereferenced. -/
structure Behaves (s : LfStack ι T) : Prop where
  linear : ∃ order entries,
    Linearizes StackOp.apply [] s.calls.events order (entries.map Prod.snd) ∧
    (popped order ++ entries.map Prod.snd).Perm (pushed order) ∧ Chain s.nodes s.head entries
  fault : s.fault = false

variable [DecidableEq ι]

theorem behaves_of_seesNode {s : LfStack ι T}
    (h : ((machine ι T).under seesNode).Reachable s) : Behaves s := by
  obtain ⟨entries, hinv⟩ := reachable_inv h
  have hlinear := hinv.calls.linearizes
  constructor
  · exact ⟨s.calls.order, entries, hlinear, perm_pushed hlinear.replays, hinv.chain⟩
  · exact hinv.fault

/-- A push and a pop race: the exchange of the pop fails once and finds the new node. -/
theorem behaves_of_seesNode_race : ∃ s : LfStack ℕ ℕ,
    ((machine ℕ ℕ).under seesNode).Reachable s ∧ Behaves s ∧
    s.calls.order = [⟨0, .push 7, none⟩, ⟨1, .push 9, none⟩, ⟨2, .pop, some 9⟩] := by
  have hrun : ((machine ℕ ℕ).under seesNode).Reachable _ :=
    ⟨[.push 0 7, .move 0 false, .move 0 false, .move 0 false, .push 0 9, .move 0 false, .pop 1,
      .move 1 false, .move 1 false, .move 0 true, .move 0 false, .move 1 false, .move 1 false,
      .move 1 false, .move 1 false], rfl⟩
  exact ⟨_, hrun, behaves_of_seesNode hrun, rfl⟩

/-- A pop of the empty stack returns what a null pointer points to. -/
theorem not_behaves_empty :
    ¬ ∀ s : LfStack ℕ ℕ, (machine ℕ ℕ).Reachable s → Behaves s := by
  intro h
  have hrun : (machine ℕ ℕ).Reachable _ :=
    ⟨[.pop 0, .move 0 false, .move 0 false, .move 0 false], rfl⟩
  cases (h _ hrun).fault

end LowLevel.Queues.LfStack
