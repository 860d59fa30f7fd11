import LowLevel.Foundations.Progress
import LowLevel.Network.EchoServer
import Mathlib.Algebra.BigOperators.Group.List.Basic
import Mathlib.Algebra.Order.Ring.Nat

/-! # No client of the echo server is left

Whatever fails or is cut short, the server keeps one accept in flight and one
request for each client that it has not closed. Once nobody sends any more it
comes to rest, and then it waits for all of them.
-/

namespace LowLevel.Network.EchoServer

variable {s s' t : Server} {sqe : Sqe} {cqe : Cqe} {job : Job} {jobs rest : List Job}
  {completed : List Cqe} {fd res listenFd : Int32} {i : ℕ} {data : List UInt8} {a : Action}

section Attended

namespace Job

/-- The client that a job is for; an accept has one when it has succeeded. -/
def client : Job → Option Int32
  | queued sqe => if sqe.req.type = .accept then none else some sqe.req.clientFd
  | done cqe =>
    if cqe.req.type = .accept then if cqe.res < 0 then none else some cqe.res
    else some cqe.req.clientFd

def isAccept : Job → Bool
  | queued sqe => decide (sqe.req.type = .accept)
  | done cqe => decide (cqe.req.type = .accept)

/-- A request has a client unless it is an accept, and a send has something to send. -/
def Sound : Job → Prop
  | queued sqe =>
    match sqe.req.type with
    | .accept => sqe.req.clientFd < 0
    | .read => 0 ≤ sqe.req.clientFd ∧ sqe.fd = sqe.req.clientFd
    | .write => 0 ≤ sqe.req.clientFd ∧ 0 < sqe.len
  | done cqe => if cqe.req.type = .accept then cqe.req.clientFd < 0 else 0 ≤ cqe.req.clientFd

end Job

/-- One accept is in flight, and one request for each open client. -/
structure Attended (s : Server) : Prop where
  claimed : s.claimed = []
  accepting : s.flight.countP Job.isAccept = 1
  clients : (s.listenFd :: s.flight.filterMap Job.client).Perm s.opened
  nodup : s.opened.Nodup
  sound : ∀ j ∈ s.flight, j.Sound

theorem Attended.start (listenFd : Int32) : Attended (.start listenFd) where
  claimed := rfl
  accepting := rfl
  clients := List.Perm.refl _
  nodup := List.nodup_singleton _
  sound := by
    intro j hj
    obtain rfl := List.mem_singleton.mp hj
    change (-1 : Int32) < 0
    decide

theorem Attended.exchange (h : Attended s) (hjobs : s.flight.Perm (job :: rest))
    (hjobs' : s'.flight.Perm (jobs ++ rest)) (hclaimed : s'.claimed = [])
    (hlisten : s'.listenFd = s.listenFd)
    (haccept : jobs.countP Job.isAccept = [job].countP Job.isAccept)
    (hopened : ∀ l, ([job].filterMap Job.client ++ l).Perm s.opened →
      (jobs.filterMap Job.client ++ l).Perm s'.opened)
    (hnodup : s'.opened.Nodup) (hsound : ∀ j ∈ jobs, j.Sound) : Attended s' := by
  constructor
  case claimed => exact hclaimed
  case accepting =>
    rw [hjobs'.countP_eq, List.countP_append, haccept, ← List.countP_append, List.singleton_append,
      ← hjobs.countP_eq]
    exact h.accepting
  case clients =>
    have hbefore : ([job].filterMap Job.client ++ s.listenFd :: rest.filterMap Job.client).Perm
        s.opened := by
      refine List.perm_middle.trans (List.Perm.trans (List.Perm.cons _ ?_) h.clients)
      rw [← List.filterMap_append, List.singleton_append]
      exact (hjobs.filterMap Job.client).symm
    refine List.Perm.trans ?_ (hopened _ hbefore)
    rw [hlisten]
    refine List.Perm.trans (List.Perm.cons _ ?_) List.perm_middle.symm
    rw [← List.filterMap_append]
    exact hjobs'.filterMap Job.client
  case nodup => exact hnodup
  case sound =>
    intro j hj
    rcases List.mem_append.mp (hjobs'.mem_iff.mp hj) with hj | hj
    · exact hsound j hj
    · exact h.sound j (hjobs.mem_iff.mpr (List.mem_cons_of_mem _ hj))

theorem perm_filter_of_perm_cons {l opened : List Int32} (hperm : (fd :: l).Perm opened)
    (hnodup : opened.Nodup) : l.Perm (opened.filter (· ≠ fd)) := by
  have hfd := (List.nodup_cons.mp (hperm.nodup_iff.mpr hnodup)).1
  have hfilter := hperm.filter (· ≠ fd)
  rw [List.filter_cons_of_neg (by simp), List.filter_eq_self.mpr] at hfilter
  · exact hfilter
  · intro x hx
    have hne : x ≠ fd := by
      rintro rfl
      exact hfd hx
    simpa using hne

section Handle

theorem toNatClampNeg_pos (hres : ¬ res < 0) (hzero : res ≠ 0) : 0 < res.toNatClampNeg := by
  have hle := Int32.le_iff_toInt_le.mp (Int32.not_lt.mp hres)
  have hne : res.toInt ≠ (0 : Int32).toInt := fun heq => hzero (Int32.toInt_inj.mp heq)
  rw [Int32.toInt_zero] at hle hne
  unfold Int32.toNatClampNeg
  omega

/-- What the server does after a completion, before it submits what it has claimed. -/
inductive Server.Follows (s : Server) (cqe : Cqe) : Server → Prop
  | reaccept (htype : cqe.req.type = .accept) (hres : cqe.res < 0) : Follows s cqe s.queueAccept
  | accept (htype : cqe.req.type = .accept) (hres : 0 ≤ cqe.res) :
    Follows s cqe (s.queueAccept.queueRead cqe.res)
  | drop (htype : cqe.req.type ≠ .accept) : Follows s cqe (s.close cqe.req.clientFd)
  | echo (htype : cqe.req.type = .read) (hlen : 0 < cqe.res.toNatClampNeg) :
    Follows s cqe (s.queueWrite cqe.req cqe.res.toNatClampNeg)
  | receive (htype : cqe.req.type = .write) : Follows s cqe (s.queueRead cqe.req.clientFd)

theorem Server.handle_follows (hsound : (Job.done cqe).Sound) :
    ∃ t, s.handle cqe.req cqe.res = t.submit ∧ s.Follows cqe t := by
  unfold Server.handle
  simp only [Job.Sound] at hsound
  by_cases hres : cqe.res < 0
  · rw [if_pos hres]
    cases htype : cqe.req.type with
    | accept =>
      rw [htype, if_pos rfl] at hsound
      simp only [if_neg (Int32.not_le.mpr hsound), if_true]
      exact ⟨_, rfl, .reaccept htype hres⟩
    | read | write =>
      rw [htype, if_neg (by decide)] at hsound
      simp only [if_pos hsound, reduceCtorEq, if_false]
      exact ⟨_, rfl, .drop (by rw [htype]; decide)⟩
  · rw [if_neg hres]
    cases htype : cqe.req.type with
    | accept => exact ⟨_, rfl, .accept htype (Int32.not_lt.mp hres)⟩
    | read =>
      by_cases hzero : cqe.res = 0
      · simp only [if_pos hzero]
        exact ⟨_, rfl, .drop (by rw [htype]; decide)⟩
      · simp only [if_neg hzero]
        exact ⟨_, rfl, .echo htype (toNatClampNeg_pos hres hzero)⟩
    | write => exact ⟨_, rfl, .receive htype⟩

theorem Server.Follows.flight_eq (h : s.Follows cqe t) : t.flight = s.flight := by
  cases h <;> rfl

theorem Attended.submit (h : Attended s) (hhead : s.completed = cqe :: completed)
    (hflight : t.flight = s.submitted.map .queued ++ completed.map .done)
    (hlisten : t.listenFd = s.listenFd)
    (haccept : (t.claimed.map Job.queued).countP Job.isAccept =
      [Job.done cqe].countP Job.isAccept)
    (hopened : ∀ l, ([Job.done cqe].filterMap Job.client ++ l).Perm s.opened →
      ((t.claimed.map Job.queued).filterMap Job.client ++ l).Perm t.opened)
    (hnodup : t.opened.Nodup) (hsound : ∀ sqe ∈ t.claimed, (Job.queued sqe).Sound) :
    Attended t.submit := by
  have hperm : s.flight.Perm (.done cqe :: t.flight) := by
    rw [hflight, Server.flight, hhead]
    exact List.perm_middle
  refine h.exchange hperm (flight_submit t) rfl hlisten haccept hopened hnodup ?_
  intro j hj
  obtain ⟨sqe, hsqe, rfl⟩ := List.mem_map.mp hj
  exact hsound sqe hsqe

theorem Attended.head (h : Attended s) (hhead : s.completed = cqe :: completed) :
    (Job.done cqe).Sound := by
  refine h.sound _ (List.mem_append_right _ (List.mem_map_of_mem ?_))
  rw [hhead]
  exact List.mem_cons_self ..

theorem Attended.handle (h : Attended s) (hhead : s.completed = cqe :: completed) :
    Attended ({ s with completed }.handle cqe.req cqe.res) := by
  have hclaimed := h.claimed
  have hsound := h.head hhead
  obtain ⟨t, heq, hfollows⟩ := Server.handle_follows (s := { s with completed }) hsound
  rw [heq]
  simp only [Job.Sound] at hsound
  cases hfollows with
  | reaccept htype hres =>
    rw [if_pos htype] at hsound
    refine h.submit hhead rfl rfl ?_ ?_ h.nodup ?_
    · simp [Server.queueAccept, Server.claimSqe, hclaimed, Job.isAccept, htype]
    · simp [Server.queueAccept, Server.claimSqe, hclaimed, Job.client, htype, hres]
    · simp [Server.queueAccept, Server.claimSqe, hclaimed, Job.Sound]
  | accept htype hres =>
    refine h.submit hhead rfl rfl ?_ ?_ h.nodup ?_
    · simp [Server.queueAccept, Server.queueRead, Server.claimSqe, hclaimed, Job.isAccept, htype]
    · simp [Server.queueAccept, Server.queueRead, Server.claimSqe, hclaimed, Job.client, htype,
        Int32.not_lt.mpr hres]
    · simp [Server.queueAccept, Server.queueRead, Server.claimSqe, hclaimed, Job.Sound, hres]
  | drop htype =>
    have hdrop := fun l (hl : (cqe.req.clientFd :: l).Perm s.opened) =>
      perm_filter_of_perm_cons hl h.nodup
    refine h.submit hhead rfl rfl ?_ ?_ (h.nodup.filter _) ?_
    · simp [Server.close, hclaimed, Job.isAccept, htype]
    · simpa [Server.close, hclaimed, Job.client, htype] using hdrop
    · simp [Server.close, hclaimed]
  | echo htype hlen =>
    rw [if_neg (by rw [htype]; decide)] at hsound
    refine h.submit hhead rfl rfl ?_ ?_ h.nodup ?_
    · simp [Server.queueWrite, Server.claimSqe, hclaimed, Job.isAccept, htype]
    · simp [Server.queueWrite, Server.claimSqe, hclaimed, Job.client, htype]
    · simp [Server.queueWrite, Server.claimSqe, hclaimed, Job.Sound, hsound, hlen]
  | receive htype =>
    rw [if_neg (by rw [htype]; decide)] at hsound
    refine h.submit hhead rfl rfl ?_ ?_ h.nodup ?_
    · simp [Server.queueRead, Server.claimSqe, hclaimed, Job.isAccept, htype]
    · simp [Server.queueRead, Server.claimSqe, hclaimed, Job.client, htype]
    · simp [Server.queueRead, Server.claimSqe, hclaimed, Job.Sound, hsound]

end Handle

section Complete

variable {s₁ : Server} {req : Request}

theorem Attended.finish (h : Attended s) (hsqe : s.submitted[i]? = some sqe)
    (hclaimed : s₁.claimed = []) (hlisten : s₁.listenFd = s.listenFd)
    (hsubmitted : s₁.submitted = s.submitted) (hcompleted : s₁.completed = s.completed)
    (haccept : (Job.done cqe).isAccept = (Job.queued sqe).isAccept)
    (hopened : ∀ l, ([Job.queued sqe].filterMap Job.client ++ l).Perm s.opened →
      ([Job.done cqe].filterMap Job.client ++ l).Perm s₁.opened)
    (hnodup : s₁.opened.Nodup) (hsound : (Job.done cqe).Sound) : Attended (s₁.finish i cqe) := by
  have hperm := flight_finish s₁ i cqe
  rw [hsubmitted, hcompleted] at hperm
  refine h.exchange (flight_submitted hsqe) hperm hclaimed hlisten ?_ hopened hnodup ?_
  · rw [List.countP_singleton, List.countP_singleton, haccept]
  · intro j hj
    obtain rfl := List.mem_singleton.mp hj
    exact hsound

theorem Attended.complete (h : Attended s) (hs' : s.complete i res data = some s') :
    Attended s' := by
  obtain ⟨sqe, s₁, req, hsqe, hperform, rfl⟩ := Server.complete_eq hs'
  have hsound := h.sound _ (mem_flight_queued hsqe)
  simp only [Job.Sound] at hsound
  unfold Server.perform at hperform
  split at hperform
  · rename_i hres
    obtain ⟨rfl, rfl⟩ := Prod.mk.inj (Option.some.inj hperform)
    refine h.finish hsqe h.claimed rfl rfl rfl rfl ?_ h.nodup ?_
    · cases htype : sqe.req.type <;> simp [Job.client, htype, hres]
    · cases htype : sqe.req.type <;> simp_all [Job.Sound]
  · rename_i hres
    cases htype : sqe.req.type with
    | accept =>
      simp only [htype] at hperform hsound
      obtain ⟨hnew, heq⟩ := Option.ite_none_right_eq_some.mp hperform
      obtain ⟨rfl, rfl⟩ := Prod.mk.inj (Option.some.inj heq)
      refine h.finish hsqe h.claimed rfl rfl rfl rfl ?_ ?_ ?_
      · simp [Job.client, htype, hres]
      · exact List.nodup_cons.mpr ⟨hnew, h.nodup⟩
      · simp [Job.Sound, htype, hsound]
    | read =>
      simp only [htype] at hperform hsound
      obtain ⟨-, heq⟩ := Option.ite_none_right_eq_some.mp hperform
      obtain ⟨rfl, rfl⟩ := Prod.mk.inj (Option.some.inj heq)
      refine h.finish hsqe h.claimed rfl rfl rfl ?_ ?_ h.nodup ?_
      · simp [Job.isAccept, htype]
      · simp [Job.client, htype]
      · simp [Job.Sound, hsound]
    | write =>
      simp only [htype] at hperform hsound
      obtain ⟨-, heq⟩ := Option.ite_none_right_eq_some.mp hperform
      obtain ⟨rfl, rfl⟩ := Prod.mk.inj (Option.some.inj heq)
      refine h.finish hsqe h.claimed rfl rfl rfl rfl ?_ h.nodup ?_
      · simp [Job.client, htype]
      · simp [Job.Sound, htype, hsound]

end Complete

theorem Attended.step (h : Attended s) (hs' : s.step a = some s') : Attended s' := by
  cases a with
  | complete i res data => exact h.complete hs'
  | handle =>
    obtain ⟨cqe, completed, hhead, rfl⟩ := Server.step_handle hs'
    exact h.handle hhead

/-- In every state, whatever has failed: the server goes on to accept, no open client is left
without a request, and no request is for a client that was closed. -/
theorem attended_reachable (h : (machine listenFd).Reachable s) : Attended s :=
  h.invariant (.start listenFd) fun _ _ _ ih hs' => ih.step hs'

/-- Two clients, and a send to one of them fails. -/
theorem attended_reachable_failedSend : ∃ s, (machine 3).Reachable s ∧
    s.opened = [7, 3] ∧ s.submitted.map (fun sqe => (sqe.req.type, sqe.fd)) =
      [(.accept, 3), (.read, 7)] ∧ Attended s := by
  have hrun : ((machine 3).run (.start 3) [.complete 0 5 [], .handle, .complete 0 7 [], .handle,
      .complete 0 2 [104, 105], .handle, .complete 2 (-1) [], .handle]).map
      (fun s => (s.opened, s.submitted.map fun sqe => (sqe.req.type, sqe.fd))) =
        some ([7, 3], [(.accept, 3), (.read, 7)]) := by decide +kernel
  obtain ⟨s, hs, heq⟩ := Option.map_eq_some_iff.mp hrun
  obtain ⟨hopened, hsubmitted⟩ := Prod.mk.inj heq
  exact ⟨s, ⟨_, hs⟩, hopened, hsubmitted, attended_reachable ⟨_, hs⟩⟩

end Attended

section Listening

/-- How many steps it takes, at most, until a job waits for its client. -/
def Job.worth : Job → ℕ
  | .queued sqe => if sqe.req.type = .write then 2 else 0
  | .done cqe => if cqe.req.type = .read then 3 else 1

theorem Job.worth_done_pos (cqe : Cqe) : 0 < (Job.done cqe).worth := by
  simp only [Job.worth]
  split <;> omega

def Server.rank (s : Server) : ℕ := (s.flight.map Job.worth).sum

def Action.isServer : Action → Bool
  | .handle => true
  | .complete .. => false

/-- Nobody connects or sends. The kernel has only the sends of the server left to complete, each of
them with a failure or with what it could send. -/
def Draining (s : Server) : Action → Prop
  | .handle => True
  | .complete i res _ =>
    match s.submitted[i]? with
    | some sqe => sqe.req.type = .write ∧ (res < 0 ∨ 0 < res ∧ res.toNatClampNeg ≤ sqe.len)
    | none => ∀ sqe ∈ s.submitted, sqe.req.type ≠ .write

/-- The server waits for a connection, and for each open client to send something. -/
structure Listening (s : Server) : Prop where
  completed : s.completed = []
  accepting : ∃ sqe ∈ s.submitted, sqe.req.type = .accept
  receiving : ∀ fd ∈ s.opened, fd ≠ s.listenFd → s.Receiving fd

def Drained (s : Server) : Prop :=
  s.completed = [] ∧ ∀ sqe ∈ s.submitted, sqe.req.type ≠ .write

def Busy (s : Server) : Bool → Prop
  | true => s.completed ≠ []
  | false => ∃ sqe ∈ s.submitted, sqe.req.type = .write

theorem rank_lt (hjobs : s.flight.Perm (job :: rest)) (hjobs' : s'.flight.Perm (jobs ++ rest))
    (hlt : (jobs.map Job.worth).sum < job.worth) : s'.rank < s.rank := by
  unfold Server.rank
  rw [(hjobs.map Job.worth).sum_eq, (hjobs'.map Job.worth).sum_eq, List.map_append,
    List.sum_append, List.map_cons, List.sum_cons]
  omega

theorem Server.Follows.worth_lt (h : s.Follows cqe t) (hclaimed : s.claimed = []) :
    ((t.claimed.map Job.queued).map Job.worth).sum < (Job.done cqe).worth := by
  cases h with
  | reaccept htype | accept htype | receive htype =>
    simp [Server.queueAccept, Server.queueRead, Server.claimSqe, hclaimed, Job.worth, htype]
  | drop =>
    rw [Server.close, hclaimed]
    exact Job.worth_done_pos cqe
  | echo htype => simp [Server.queueWrite, Server.claimSqe, hclaimed, Job.worth, htype]

theorem Attended.handle_rank_lt (h : Attended s) (hhead : s.completed = cqe :: completed) :
    ({ s with completed }.handle cqe.req cqe.res).rank < s.rank := by
  obtain ⟨t, heq, hfollows⟩ := Server.handle_follows (s := { s with completed }) (h.head hhead)
  have hperm : s.flight.Perm (.done cqe :: t.flight) := by
    rw [hfollows.flight_eq, Server.flight, hhead]
    exact List.perm_middle
  rw [heq]
  exact rank_lt hperm (flight_submit t) (hfollows.worth_lt h.claimed)

theorem complete_rank_lt (hdrain : Draining s (.complete i res data))
    (hs' : s.complete i res data = some s') : s'.rank < s.rank := by
  obtain ⟨sqe, s₁, req, hsqe, hperform, rfl⟩ := Server.complete_eq hs'
  simp only [Draining, hsqe] at hdrain
  obtain ⟨htype, -⟩ := hdrain
  have hsame : s₁.submitted = s.submitted ∧ s₁.completed = s.completed ∧ req = sqe.req := by
    unfold Server.perform at hperform
    split at hperform
    · obtain ⟨rfl, rfl⟩ := Prod.mk.inj (Option.some.inj hperform)
      exact ⟨rfl, rfl, rfl⟩
    · simp only [htype] at hperform
      obtain ⟨-, heq⟩ := Option.ite_none_right_eq_some.mp hperform
      obtain ⟨rfl, rfl⟩ := Prod.mk.inj (Option.some.inj heq)
      exact ⟨rfl, rfl, rfl⟩
  obtain ⟨hsubmitted, hcompleted, rfl⟩ := hsame
  have hperm := flight_finish s₁ i ⟨sqe.req, sqe.len, res⟩
  rw [hsubmitted, hcompleted] at hperm
  refine rank_lt (flight_submitted hsqe) hperm ?_
  simp [Job.worth, htype]

theorem Busy.complete (h : Busy s false) (hdrain : Draining s (.complete i res data)) :
    ∃ s', s.complete i res data = some s' := by
  cases hsqe : s.submitted[i]? with
  | none =>
    obtain ⟨sqe, hmem, htype⟩ := h
    simp only [Draining, hsqe] at hdrain
    exact absurd htype (hdrain sqe hmem)
  | some sqe =>
    simp only [Draining, hsqe] at hdrain
    obtain ⟨htype, hres⟩ := hdrain
    unfold Server.complete Server.perform
    rw [hsqe, Option.bind_some]
    rcases hres with hneg | ⟨hpos, hlen⟩
    · rw [if_pos hneg]
      exact ⟨_, rfl⟩
    · rw [if_neg (Int32.not_lt.mpr (Int32.le_of_lt hpos))]
      simp only [htype, if_pos (And.intro hpos hlen)]
      exact ⟨_, rfl⟩

theorem Drained.stuck (h : Drained s) (hdrain : Draining s a) : s.step a = none := by
  cases a with
  | complete i res data =>
    change s.complete i res data = none
    cases hsqe : s.submitted[i]? with
    | none => rw [Server.complete, hsqe, Option.bind_none]
    | some sqe =>
      simp only [Draining, hsqe] at hdrain
      exact absurd hdrain.1 (h.2 sqe (List.mem_of_getElem? hsqe))
  | handle =>
    simp only [Server.step]
    rw [h.1]

theorem descent (listenFd : Int32) : (machine listenFd).Descent (fun a => some a.isServer)
    Draining Attended Drained Server.rank Busy := by
  constructor
  case inv => exact fun s a s' h _ hs' => h.step hs'
  case falls =>
    intro s a s' h hdrain hs'
    cases a with
    | complete i res data => exact complete_rank_lt hdrain hs'
    | handle =>
      obtain ⟨cqe, completed, hhead, rfl⟩ := Server.step_handle hs'
      exact h.handle_rank_lt hhead
  case quiet => exact fun s a _ hdrain hdrained => hdrained.stuck hdrain
  case free =>
    intro s _ hnot
    by_cases hcompleted : s.completed = []
    · by_contra hidle
      refine hnot ⟨hcompleted, ?_⟩
      intro sqe hsqe htype
      exact hidle ⟨false, sqe, hsqe, htype⟩
    · exact ⟨true, hcompleted⟩
  case moves =>
    intro s a b _ hdrain hbusy hb
    obtain rfl := Option.some.inj hb
    cases a with
    | complete i res data => exact hbusy.complete hdrain
    | handle =>
      obtain ⟨cqe, completed, hhead⟩ := List.exists_cons_of_ne_nil hbusy
      refine ⟨{ s with completed }.handle cqe.req cqe.res, ?_⟩
      change s.step .handle = _
      simp only [Server.step]
      rw [hhead]

/-- With nothing left to do, the one request of each client is a receive. -/
theorem Drained.listening (h : Drained s) (hattended : Attended s) : Listening s := by
  have hflight : s.flight = s.submitted.map .queued := by
    rw [Server.flight, h.1, List.map_nil, List.append_nil]
  constructor
  case completed => exact h.1
  case accepting =>
    have hpos : 0 < s.flight.countP Job.isAccept := by
      rw [hattended.accepting]
      exact Nat.one_pos
    obtain ⟨job, hjob, haccept⟩ := List.countP_pos_iff.mp hpos
    rw [hflight] at hjob
    obtain ⟨sqe, hsqe, rfl⟩ := List.mem_map.mp hjob
    exact ⟨sqe, hsqe, of_decide_eq_true haccept⟩
  case receiving =>
    intro fd hfd hne
    have hclient := (List.mem_cons.mp (hattended.clients.mem_iff.mpr hfd)).resolve_left hne
    obtain ⟨job, hjob, hclient⟩ := List.mem_filterMap.mp hclient
    have hsound := hattended.sound job hjob
    rw [hflight] at hjob
    obtain ⟨sqe, hsqe, rfl⟩ := List.mem_map.mp hjob
    refine ⟨sqe, List.mem_append_right _ hsqe, ?_⟩
    cases htype : sqe.req.type with
    | accept => simp [Job.client, htype] at hclient
    | read =>
      simp only [Job.Sound, htype] at hsound
      simp only [Job.client, htype, reduceCtorEq, if_false, Option.some.injEq] at hclient
      exact ⟨rfl, hsound.2.trans hclient⟩
    | write => exact absurd htype (h.2 sqe hsqe)

/-- When the clients fall silent, whatever happened before and whatever becomes of the last sends,
the server comes to wait for all clients that it has not closed. -/
theorem eventually_listening {sched : ℕ → Action} (h : (machine listenFd).Reachable s)
    (hdrain : ∀ n, Draining ((machine listenFd).along s sched n) (sched n))
    (hfair : Machine.Fair (fun a => some a.isServer) sched) :
    ∃ n, ∀ m, n ≤ m → Listening ((machine listenFd).along s sched m) := by
  obtain ⟨n, hn⟩ := (descent listenFd).eventually (attended_reachable h) hdrain hfair
  refine ⟨n, fun m hm => ?_⟩
  obtain ⟨hattended, hdrained⟩ := hn m hm
  exact hdrained.listening hattended

/-- The kernel completes one send with this result and then has nothing else to do. -/
def lastSend (res : Int32) (n : ℕ) : Action :=
  if n % 2 = 1 then .handle else if n = 0 then .complete 1 res [] else .complete 9 0 []

theorem lastSend_fair (res : Int32) :
    Machine.Fair (fun a => some a.isServer) (lastSend res) := by
  intro b n
  cases b with
  | false =>
    refine ⟨2 * (n + 1), by omega, ?_⟩
    rw [lastSend, if_neg (by omega), if_neg (by omega)]
    rfl
  | true =>
    refine ⟨2 * n + 1, by omega, ?_⟩
    rw [lastSend, if_pos (by omega)]
    rfl

theorem drained_of_types (hcompleted : s.completed.isEmpty = true)
    (htypes : s.submitted.map (fun sqe => sqe.req.type) = [.accept, .read]) :
    Drained s ∧ s.submitted.length ≤ 9 := by
  refine ⟨⟨List.isEmpty_iff.mp hcompleted, ?_⟩, ?_⟩
  · intro sqe hsqe htype
    have hmem := List.mem_map_of_mem (f := fun sqe : Sqe => sqe.req.type) hsqe
    rw [htypes, htype] at hmem
    exact absurd hmem (by decide)
  · rw [← List.length_map (fun sqe : Sqe => sqe.req.type), htypes]
    decide

theorem Drained.draining_lastSend (h : Drained s) (hlen : s.submitted.length ≤ 9) {n : ℕ}
    (hn : n ≠ 0) : Draining s (lastSend res n) := by
  unfold lastSend
  rw [if_neg hn]
  split
  · trivial
  · simp only [Draining]
    rw [List.getElem?_eq_none hlen]
    exact h.2

/-- Once there is nothing left to do, nothing happens. -/
theorem Drained.along_lastSend (h : Drained ((machine listenFd).along s (lastSend res) 2))
    (hlen : ((machine listenFd).along s (lastSend res) 2).submitted.length ≤ 9) (n : ℕ) :
    (machine listenFd).along s (lastSend res) (2 + n) =
      (machine listenFd).along s (lastSend res) 2 := by
  induction n with
  | zero => rfl
  | succ n ih =>
    rw [← Nat.add_assoc, Machine.along, ih, Machine.turn]
    have hstuck : (machine listenFd).step _ (lastSend res (2 + n)) = none :=
      h.stuck (h.draining_lastSend hlen (by omega))
    rw [hstuck, Option.getD_none]

theorem Drained.draining_along {len : ℕ}
    (h : Drained ((machine listenFd).along s (lastSend res) 2))
    (hlen : ((machine listenFd).along s (lastSend res) 2).submitted.length ≤ 9)
    (hsend : (s.submitted[1]?.map fun sqe => (sqe.req.type, sqe.len)) = some (.write, len))
    (hres : 0 < res) (hle : res.toNatClampNeg ≤ len) (n : ℕ) :
    Draining ((machine listenFd).along s (lastSend res) n) (lastSend res n) := by
  match n with
  | 0 =>
    obtain ⟨sqe, hsqe, hwrite⟩ := Option.map_eq_some_iff.mp hsend
    obtain ⟨htype, rfl⟩ := Prod.mk.inj hwrite
    change Draining s (.complete 1 res [])
    simp only [Draining, hsqe]
    exact ⟨htype, Or.inr ⟨hres, hle⟩⟩
  | 1 => trivial
  | n + 2 =>
    rw [Nat.add_comm n 2, h.along_lastSend hlen n]
    exact h.draining_lastSend hlen (by omega)

/-- A client has sent two bytes, of which one is sent back. -/
theorem eventually_listening_lastSend : ∃ s, (machine 3).Reachable s ∧
    s.received 5 = [104, 105] ∧ ∃ n, ∀ m, n ≤ m →
      Listening ((machine 3).along s (lastSend 1) m) := by
  have hrun : ((machine 3).run (.start 3)
      [.complete 0 5 [], .handle, .complete 1 2 [104, 105], .handle]).map (fun s =>
        (s.received 5, s.submitted[1]?.map fun sqe => (sqe.req.type, sqe.len),
          ((machine 3).along s (lastSend 1) 2).completed.isEmpty,
          ((machine 3).along s (lastSend 1) 2).submitted.map fun sqe => sqe.req.type)) =
      some ([104, 105], some (.write, 2), true, [.accept, .read]) := by decide +kernel
  obtain ⟨s, hs, heq⟩ := Option.map_eq_some_iff.mp hrun
  obtain ⟨hreceived, heq⟩ := Prod.mk.inj heq
  obtain ⟨hsend, heq⟩ := Prod.mk.inj heq
  obtain ⟨hcompleted, htypes⟩ := Prod.mk.inj heq
  obtain ⟨hdrained, hlen⟩ := drained_of_types hcompleted htypes
  exact ⟨s, ⟨_, hs⟩, hreceived, eventually_listening ⟨_, hs⟩
    (hdrained.draining_along hlen hsend (by decide) (by decide)) (lastSend_fair 1)⟩

/-- No operation fails, and the server takes note of no send that was cut short. -/
def faithful (s : Server) : Action → Bool
  | .complete _ res _ => decide (0 ≤ res)
  | .handle => s.completed.head?.all fun cqe =>
    decide (cqe.req.type = .write → cqe.res.toNatClampNeg = cqe.len)

theorem Inv.faithful_step (h : Inv s) (hfaithful : faithful s a = true)
    (hs' : (machine listenFd).step s a = some s') : Inv s' := by
  cases a with
  | complete i res data => exact h.complete (of_decide_eq_true hfaithful) hs'
  | handle =>
    obtain ⟨cqe, completed, hhead, rfl⟩ := Server.step_handle hs'
    simp only [faithful, hhead, List.head?_cons, Option.all_some, decide_eq_true_eq] at hfaithful
    exact h.handle hhead hfaithful

theorem Drained.faithful_lastSend (h : Drained s) {n : ℕ} (hn : n ≠ 0) :
    faithful s (lastSend res n) = true := by
  unfold lastSend
  rw [if_neg hn]
  split
  · rw [faithful, h.1]
    rfl
  · rfl

def Echoed (s : Server) : Prop :=
  ∀ fd ∈ s.opened, fd ≠ s.listenFd → s.sent fd = s.received fd

/-- If moreover no operation fails and no send is cut short, everything comes back. -/
theorem eventually_echoed {sched : ℕ → Action}
    (h : ((machine listenFd).under faithful).Reachable s)
    (hfaithful : ∀ n, faithful ((machine listenFd).along s sched n) (sched n) = true)
    (hdrain : ∀ n, Draining ((machine listenFd).along s sched n) (sched n))
    (hfair : Machine.Fair (fun a => some a.isServer) sched) :
    ∃ n, ∀ m, n ≤ m → Echoed ((machine listenFd).along s sched m) := by
  obtain ⟨hattended, hinv⟩ : Attended s ∧ Inv s := by
    refine h.invariant (P := fun s => Attended s ∧ Inv s) ⟨.start listenFd, .start listenFd⟩ ?_
    rintro s a s' ⟨hattended, hinv⟩ hstep
    obtain ⟨hfaithful, hstep⟩ := Machine.under_step.mp hstep
    exact ⟨hattended.step hstep, hinv.faithful_step hfaithful hstep⟩
  have halong : ∀ n, Inv ((machine listenFd).along s sched n) := by
    intro n
    induction n with
    | zero => exact hinv
    | succ n ih =>
      rcases Machine.Progress.turn_cases (machine listenFd) _ (sched n) with hstep | hsame
      · exact ih.faithful_step (hfaithful n) hstep
      · rw [Machine.along, hsame]
        exact ih
  obtain ⟨n, hn⟩ := (descent listenFd).eventually hattended hdrain hfair
  refine ⟨n, fun m hm fd hfd hne => ?_⟩
  obtain ⟨hattended, hdrained⟩ := hn m hm
  exact ((halong m).echoes fd).2 ((hdrained.listening hattended).receiving fd hfd hne)

/-- A client has sent two bytes, which are sent back as a whole. -/
theorem eventually_echoed_lastSend : ∃ s, ((machine 3).under faithful).Reachable s ∧
    s.received 5 = [104, 105] ∧ ∃ n, ∀ m, n ≤ m →
      Echoed ((machine 3).along s (lastSend 2) m) := by
  have hrun : (((machine 3).under faithful).run (.start 3)
      [.complete 0 5 [], .handle, .complete 1 2 [104, 105], .handle]).map (fun s =>
        ((s.received 5, faithful ((machine 3).along s (lastSend 2) 1) .handle),
          s.submitted[1]?.map fun sqe => (sqe.req.type, sqe.len),
          ((machine 3).along s (lastSend 2) 2).completed.isEmpty,
          ((machine 3).along s (lastSend 2) 2).submitted.map fun sqe => sqe.req.type)) =
      some (([104, 105], true), some (.write, 2), true, [.accept, .read]) := by decide +kernel
  obtain ⟨s, hs, heq⟩ := Option.map_eq_some_iff.mp hrun
  obtain ⟨hbefore, heq⟩ := Prod.mk.inj heq
  obtain ⟨hreceived, hhandle⟩ := Prod.mk.inj hbefore
  obtain ⟨hsend, heq⟩ := Prod.mk.inj heq
  obtain ⟨hcompleted, htypes⟩ := Prod.mk.inj heq
  obtain ⟨hdrained, hlen⟩ := drained_of_types hcompleted htypes
  have hfaithful : ∀ n, faithful ((machine 3).along s (lastSend 2) n) (lastSend 2 n) = true
    | 0 => rfl
    | 1 => hhandle
    | n + 2 => by
      rw [Nat.add_comm n 2, hdrained.along_lastSend hlen n]
      exact hdrained.faithful_lastSend (by omega)
  exact ⟨s, ⟨_, hs⟩, hreceived, eventually_echoed ⟨_, hs⟩ hfaithful
    (hdrained.draining_along hlen hsend (by decide) (by decide)) (lastSend_fair 2)⟩

end Listening

end LowLevel.Network.EchoServer
