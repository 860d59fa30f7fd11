import LowLevel.Foundations.InFlight
import LowLevel.Foundations.Machine
import Mathlib.Data.Nat.Notation
import Mathlib.Logic.Function.Basic

/-! # The io_uring echo server

What a client sends is received into the buffer of a request, and the same
request sends it back. The kernel may complete the submitted requests in any
order; the server takes the completions as they come. After a send it receives
again, whether or not everything was sent.
-/

namespace LowLevel.Network.EchoServer

def readSize : ℕ := 4096

inductive EventType where
  | accept
  | read
  | write
  deriving DecidableEq

structure Request where
  type : EventType
  clientFd : Int32 := -1
  buf : List UInt8 := []

/-- A submission: a request with the descriptor and the length that it was prepared with. -/
structure Sqe where
  req : Request
  fd : Int32
  len : ℕ := 0

/-- A completed request with its result; the length that was asked for is noted. -/
structure Cqe where
  req : Request
  len : ℕ
  res : Int32

/-- The ring on both sides, and the streams of the clients. The requests belong to the ring while
they are in flight. A descriptor that was closed may be given to another client. -/
structure Server where
  listenFd : Int32
  claimed : List Sqe := []
  submitted : List Sqe := []
  completed : List Cqe := []
  opened : List Int32
  received : Int32 → List UInt8 := fun _ => []
  sent : Int32 → List UInt8 := fun _ => []

namespace Server

variable (s : Server)

def claimSqe (sqe : Sqe) : Server := { s with claimed := s.claimed ++ [sqe] }

def queueAccept : Server := s.claimSqe { req := { type := .accept }, fd := s.listenFd }

def queueRead (clientFd : Int32) : Server :=
  let req : Request := { type := .read, clientFd, buf := List.replicate readSize 0 }
  s.claimSqe { req, fd := clientFd, len := readSize }

def queueWrite (req : Request) (len : ℕ) : Server :=
  s.claimSqe { req := { req with type := .write }, fd := req.clientFd, len }

def submit : Server := { s with submitted := s.submitted ++ s.claimed, claimed := [] }

def close (fd : Int32) : Server := { s with opened := s.opened.filter (· ≠ fd) }

def start (listenFd : Int32) : Server :=
  ({ listenFd, opened := [listenFd] } : Server).queueAccept.submit

/-- One round of the loop, with the completion taken from the ring. -/
def handle (req : Request) (res : Int32) : Server :=
  if res < 0 then
    let s := if 0 ≤ req.clientFd then s.close req.clientFd else s
    (if req.type = .accept then s.queueAccept else s).submit
  else
    match req.type with
    | .accept => (s.queueAccept.queueRead res).submit
    | .read =>
      if res = 0 then (s.close req.clientFd).submit
      else (s.queueWrite req res.toNatClampNeg).submit
    | .write => (s.queueRead req.clientFd).submit

/-- What the kernel does for a request. An accept opens a descriptor that is not in use, for a
client whose streams begin. A receive puts data into the buffer, none at the end of the stream; a
send takes at least one byte. An operation that fails does nothing. -/
def perform (sqe : Sqe) (res : Int32) (data : List UInt8) : Option (Server × Request) :=
  if res < 0 then some (s, sqe.req)
  else
    match sqe.req.type with
    | .accept =>
      if res ∉ s.opened then
        some ({ s with
          opened := res :: s.opened
          received := Function.update s.received res []
          sent := Function.update s.sent res [] }, sqe.req)
      else none
    | .read =>
      if data.length = res.toNatClampNeg ∧ data.length ≤ sqe.len then
        some ({ s with received := Function.update s.received sqe.fd (s.received sqe.fd ++ data) },
          { sqe.req with buf := data ++ sqe.req.buf.drop data.length })
      else none
    | .write =>
      if 0 < res ∧ res.toNatClampNeg ≤ sqe.len then
        let sent := s.sent sqe.fd ++ sqe.req.buf.take res.toNatClampNeg
        some ({ s with sent := Function.update s.sent sqe.fd sent }, sqe.req)
      else none

def complete (i : ℕ) (res : Int32) (data : List UInt8) : Option Server :=
  s.submitted[i]?.bind fun sqe => (s.perform sqe res data).map fun (s, req) => { s with
    submitted := s.submitted.eraseIdx i
    completed := s.completed ++ [⟨req, sqe.len, res⟩] }

end Server

inductive Action where
  | complete (i : ℕ) (res : Int32) (data : List UInt8)
  | handle

def Server.step (s : Server) : Action → Option Server
  | .complete i res data => s.complete i res data
  | .handle =>
    match s.completed with
    | [] => none
    | cqe :: completed => some ({ s with completed }.handle cqe.req cqe.res)

def machine (listenFd : Int32) : Machine Server Action where
  init := .start listenFd
  step := Server.step

def succeeds (_ : Server) : Action → Bool
  | .complete _ res _ => 0 ≤ res
  | .handle => true

def Server.Receiving (s : Server) (fd : Int32) : Prop :=
  ∃ sqe ∈ s.claimed ++ s.submitted, sqe.req.type = .read ∧ sqe.fd = fd

/-- What was sent back to a client is a beginning of what was received from it, and all of it when
a receive is queued. -/
def Server.Echoes (s : Server) : Prop :=
  ∀ fd, s.sent fd <+: s.received fd ∧ (s.Receiving fd → s.sent fd = s.received fd)

/-- If the completion that the server takes next is that of a send, everything was sent. -/
def Server.SentWhole (s : Server) : Action → Prop
  | .complete .. => True
  | .handle => ∀ cqe ∈ s.completed.head?, cqe.req.type = .write → cqe.res.toNatClampNeg = cqe.len

section Flight

inductive Job where
  | queued (sqe : Sqe)
  | done (cqe : Cqe)

namespace Job

def owner : Job → Option Int32
  | queued sqe => if sqe.req.type = .accept then none else some sqe.fd
  | done cqe => if cqe.req.type = .accept then some cqe.res else some cqe.req.clientFd

/-- What was sent to the client and what was received from it, as the job tells. -/
def Holds : Job → List UInt8 × List UInt8 → Prop
  | queued sqe, (sent, received) =>
    match sqe.req.type with
    | .accept => True
    | .read => sqe.req.clientFd = sqe.fd ∧ received = sent
    | .write => sqe.req.clientFd = sqe.fd ∧ sqe.len ≤ sqe.req.buf.length ∧
        received = sent ++ sqe.req.buf.take sqe.len
  | done cqe, (sent, received) => 0 ≤ cqe.res ∧
    match cqe.req.type with
    | .accept => sent = [] ∧ received = []
    | .read => cqe.res.toNatClampNeg ≤ cqe.req.buf.length ∧
        received = sent ++ cqe.req.buf.take cqe.res.toNatClampNeg
    | .write => cqe.len ≤ cqe.req.buf.length ∧ cqe.res.toNatClampNeg ≤ cqe.len ∧
        received = sent ++ (cqe.req.buf.take cqe.len).drop cqe.res.toNatClampNeg

end Job

namespace Server

def flight (s : Server) : List Job := s.submitted.map .queued ++ s.completed.map .done

def streams (s : Server) (fd : Int32) : List UInt8 × List UInt8 := (s.sent fd, s.received fd)

end Server

end Flight

/-- What holds between two rounds of the loop: every client has at most one request in flight, which
tells how much of what was received is still to be sent. -/
structure Inv (s : Server) : Prop where
  claimed : s.claimed = []
  flight : InFlight Job.owner Job.Holds s.flight s.streams
  opened : ∀ fd ∈ s.flight.filterMap Job.owner, fd ∈ s.opened
  begun : ∀ fd, s.sent fd <+: s.received fd

variable {s s' : Server} {sqe : Sqe} {cqe : Cqe} {job : Job} {jobs rest : List Job} {fd res : Int32}
  {i : ℕ} {data : List UInt8} {listenFd : Int32}

theorem Inv.start (listenFd : Int32) : Inv (.start listenFd) where
  claimed := rfl
  flight := by
    constructor
    · exact List.nodup_nil
    · intro j hj k hk
      obtain rfl := List.mem_singleton.mp hj
      cases hk
  opened _ h := absurd h List.not_mem_nil
  begun _ := List.prefix_refl _

theorem Inv.echoes (h : Inv s) : s.Echoes := by
  intro fd
  refine ⟨h.begun fd, ?_⟩
  rintro ⟨sqe, hmem, htype, rfl⟩
  rw [h.claimed, List.nil_append] at hmem
  have hjob : Job.queued sqe ∈ s.flight := List.mem_append_left _ (List.mem_map_of_mem hmem)
  have hholds := h.flight.holds _ hjob sqe.fd (by simp [Job.owner, htype])
  simp only [Job.Holds, htype, Server.streams] at hholds
  exact hholds.2.symm

/-- One client's job is exchanged, and only its streams may change. -/
theorem Inv.exchange (h : Inv s) (hclaimed : s'.claimed = [])
    (hjobs : s.flight.Perm (job :: rest)) (hjobs' : s'.flight.Perm (jobs ++ rest))
    (hfd : job.owner = some fd ∨ fd ∉ s.opened) (howner : (jobs.filterMap Job.owner).Sublist [fd])
    (hstreams : ∀ c, c ≠ fd → s'.streams c = s.streams c)
    (hopened : ∀ c, c ∈ s.opened → c ≠ fd → c ∈ s'.opened)
    (hmine : fd ∈ jobs.filterMap Job.owner → fd ∈ s'.opened)
    (hholds : ∀ j ∈ jobs, ∀ c ∈ j.owner, j.Holds (s'.streams c))
    (hbegun : s'.sent fd <+: s'.received fd) : Inv s' := by
  have hfd' : job.owner = some fd ∨ fd ∉ s.flight.filterMap Job.owner :=
    hfd.imp_right fun hnot hmem => hnot (h.opened fd hmem)
  have hrest := h.flight.not_mem_rest hjobs hfd'
  constructor
  · exact hclaimed
  · exact h.flight.exchange hjobs hjobs' hfd' howner hstreams hholds
  · intro c hc
    rw [(hjobs'.filterMap Job.owner).mem_iff, List.filterMap_append, List.mem_append] at hc
    rcases hc with hc | hc
    · obtain rfl := List.mem_singleton.mp (howner.subset hc)
      exact hmine hc
    · apply hopened
      · apply h.opened
        rw [(hjobs.filterMap Job.owner).mem_iff]
        exact ((List.sublist_cons_self job rest).filterMap _).subset hc
      · rintro rfl
        exact hrest hc
  · intro c
    rcases eq_or_ne c fd with rfl | hc
    · exact hbegun
    · obtain ⟨hsent, hreceived⟩ := Prod.mk.inj (hstreams c hc)
      rw [hsent, hreceived]
      exact h.begun c

section Handle

variable {completed : List Cqe} {t : Server}

theorem Server.step_handle (hs' : s.step .handle = some s') :
    ∃ cqe completed, s.completed = cqe :: completed ∧
      s' = { s with completed }.handle cqe.req cqe.res := by
  unfold Server.step at hs'
  cases hcompleted : s.completed with
  | nil =>
    rw [hcompleted] at hs'
    cases hs'
  | cons cqe completed =>
    rw [hcompleted] at hs'
    exact ⟨cqe, completed, rfl, (Option.some.inj hs').symm⟩

theorem flight_submit (t : Server) :
    t.submit.flight.Perm (t.claimed.map .queued ++ t.flight) := by
  unfold Server.submit Server.flight
  rw [List.map_append, ← List.append_assoc]
  exact List.perm_append_comm.append_right _

theorem Inv.owner_opened (h : Inv s) (hjob : job ∈ s.flight) (hfd : job.owner = some fd) :
    fd ∈ s.opened :=
  h.opened fd (List.mem_filterMap.mpr ⟨job, hjob, hfd⟩)

theorem Inv.submit (h : Inv s) (hhead : s.completed = cqe :: completed)
    (hflight : t.flight = s.submitted.map .queued ++ completed.map .done)
    (hstreams : t.streams = s.streams) (hfd : (Job.done cqe).owner = some fd)
    (howner : ((t.claimed.map Job.queued).filterMap Job.owner).Sublist [fd])
    (hopened : ∀ c, c ∈ s.opened → c ≠ fd ∨ t.claimed ≠ [] → c ∈ t.opened)
    (hholds : ∀ sqe ∈ t.claimed, ∀ c ∈ (Job.queued sqe).owner,
      (Job.queued sqe).Holds (s.streams c)) : Inv t.submit := by
  have hperm : s.flight.Perm (.done cqe :: t.flight) := by
    rw [hflight, Server.flight, hhead]
    exact List.perm_middle
  have hmem : fd ∈ s.opened := h.owner_opened (hperm.mem_iff.mpr (List.mem_cons_self ..)) hfd
  refine h.exchange rfl hperm (flight_submit t) (.inl hfd) howner ?_ ?_ ?_ ?_ ?_
  · exact fun c _ => congrFun hstreams c
  · exact fun c hc hne => hopened c hc (.inl hne)
  · intro hclaimed
    refine hopened fd hmem (.inr ?_)
    intro hnil
    rw [hnil] at hclaimed
    cases hclaimed
  · intro j hj
    obtain ⟨sqe, hsqe, rfl⟩ := List.mem_map.mp hj
    intro c hc
    exact (congrFun hstreams c) ▸ hholds sqe hsqe c hc
  · obtain ⟨hsent, hreceived⟩ := Prod.mk.inj (congrFun hstreams fd)
    change t.sent fd <+: t.received fd
    rw [hsent, hreceived]
    exact h.begun fd

theorem Inv.head (h : Inv s) (hhead : s.completed = cqe :: completed)
    (hfd : (Job.done cqe).owner = some fd) : (Job.done cqe).Holds (s.streams fd) := by
  refine h.flight.holds _ ?_ fd hfd
  refine List.mem_append_right _ (List.mem_map_of_mem ?_)
  rw [hhead]
  exact List.mem_cons_self ..

theorem Inv.handle (h : Inv s) (hhead : s.completed = cqe :: completed)
    (hwhole : cqe.req.type = .write → cqe.res.toNatClampNeg = cqe.len) :
    Inv ({ s with completed }.handle cqe.req cqe.res) := by
  have hclaimed := h.claimed
  unfold Server.handle
  cases htype : cqe.req.type with
  | accept =>
    have hfd : (Job.done cqe).owner = some cqe.res := by simp [Job.owner, htype]
    have hholds := h.head hhead hfd
    simp only [Job.Holds, htype, Server.streams] at hholds
    obtain ⟨hres, hsent, hreceived⟩ := hholds
    rw [if_neg (Int32.not_lt.mpr hres)]
    refine h.submit hhead rfl rfl hfd ?_ (fun _ hc _ => hc) ?_
    · simp [Server.queueAccept, Server.queueRead, Server.claimSqe, hclaimed, Job.owner]
    · simp [Server.queueAccept, Server.queueRead, Server.claimSqe, hclaimed, Job.owner, Job.Holds,
        Server.streams, hsent, hreceived]
  | read =>
    have hfd : (Job.done cqe).owner = some cqe.req.clientFd := by simp [Job.owner, htype]
    have hholds := h.head hhead hfd
    simp only [Job.Holds, htype, Server.streams] at hholds
    obtain ⟨hres, hlen, hreceived⟩ := hholds
    rw [if_neg (Int32.not_lt.mpr hres)]
    simp only
    split_ifs with hzero
    · refine h.submit hhead rfl rfl hfd ?_ ?_ ?_
      · simp [Server.close, hclaimed]
      · intro c hc hne
        simpa [Server.close, hclaimed, hc] using hne
      · simp [Server.close, hclaimed]
    · refine h.submit hhead rfl rfl hfd ?_ (fun _ hc _ => hc) ?_
      · simp [Server.queueWrite, Server.claimSqe, hclaimed, Job.owner]
      · simp [Server.queueWrite, Server.claimSqe, hclaimed, Job.owner, Job.Holds,
          Server.streams, hlen, hreceived]
  | write =>
    have hfd : (Job.done cqe).owner = some cqe.req.clientFd := by simp [Job.owner, htype]
    have hholds := h.head hhead hfd
    simp only [Job.Holds, htype, Server.streams] at hholds
    obtain ⟨hres, hlen, -, hreceived⟩ := hholds
    have hall : s.received cqe.req.clientFd = s.sent cqe.req.clientFd := by
      rw [hreceived, hwhole htype, List.drop_of_length_le (List.length_take_le ..), List.append_nil]
    rw [if_neg (Int32.not_lt.mpr hres)]
    refine h.submit hhead rfl rfl hfd ?_ (fun _ hc _ => hc) ?_
    · simp [Server.queueRead, Server.claimSqe, hclaimed, Job.owner]
    · simp [Server.queueRead, Server.claimSqe, hclaimed, Job.owner, Job.Holds, Server.streams, hall]

end Handle

section Complete

variable {s₁ : Server} {req : Request}

def Server.finish (s : Server) (i : ℕ) (cqe : Cqe) : Server := { s with
  submitted := s.submitted.eraseIdx i
  completed := s.completed ++ [cqe] }

theorem Server.complete_eq (hs' : s.complete i res data = some s') :
    ∃ sqe s₁ req, s.submitted[i]? = some sqe ∧ s.perform sqe res data = some (s₁, req) ∧
      s' = s₁.finish i ⟨req, sqe.len, res⟩ := by
  obtain ⟨sqe, hsqe, hs'⟩ := Option.bind_eq_some_iff.mp hs'
  obtain ⟨⟨s₁, req⟩, hperform, rfl⟩ := Option.map_eq_some_iff.mp hs'
  exact ⟨sqe, s₁, req, hsqe, hperform, rfl⟩

theorem flight_submitted (hsqe : s.submitted[i]? = some sqe) : s.flight.Perm
    (.queued sqe :: ((s.submitted.eraseIdx i).map .queued ++ s.completed.map .done)) := by
  obtain ⟨hi, rfl⟩ := List.getElem?_eq_some_iff.mp hsqe
  have hperm := (List.getElem_cons_eraseIdx_perm hi).symm.map Job.queued
  exact hperm.append_right _

theorem flight_finish (s : Server) (i : ℕ) (cqe : Cqe) : (s.finish i cqe).flight.Perm
    ([.done cqe] ++ ((s.submitted.eraseIdx i).map .queued ++ s.completed.map .done)) := by
  unfold Server.finish Server.flight
  rw [List.map_append, ← List.append_assoc]
  exact List.perm_append_comm

theorem Inv.finish (h : Inv s) (hsqe : s.submitted[i]? = some sqe) (hclaimed : s₁.claimed = [])
    (hsubmitted : s₁.submitted = s.submitted) (hcompleted : s₁.completed = s.completed)
    (hfd : (Job.queued sqe).owner = some fd ∨ fd ∉ s.opened)
    (hcqe : (Job.done cqe).owner = some fd) (hstreams : ∀ c, c ≠ fd → s₁.streams c = s.streams c)
    (hopened : s.opened ⊆ s₁.opened) (hmine : fd ∈ s₁.opened)
    (hholds : (Job.done cqe).Holds (s₁.streams fd)) (hbegun : s₁.sent fd <+: s₁.received fd) :
    Inv (s₁.finish i cqe) := by
  have hperm := flight_finish s₁ i cqe
  rw [hsubmitted, hcompleted] at hperm
  refine h.exchange hclaimed (flight_submitted hsqe) hperm hfd ?_ hstreams ?_ ?_ ?_ hbegun
  · rw [List.filterMap_cons_some hcqe, List.filterMap_nil]
  · exact fun c hc _ => hopened hc
  · exact fun _ => hmine
  · intro j hj c hc
    obtain rfl := List.mem_singleton.mp hj
    obtain rfl := Option.some.inj (hcqe.symm.trans hc)
    exact hholds

theorem mem_flight_queued (hsqe : s.submitted[i]? = some sqe) : Job.queued sqe ∈ s.flight :=
  List.mem_append_left _ (List.mem_map_of_mem (List.mem_of_getElem? hsqe))

theorem take_eq_append {l : List UInt8} {m n : ℕ} (h : m ≤ n) :
    l.take n = l.take m ++ (l.take n).drop m := by
  have hsplit := (List.take_append_drop m (l.take n)).symm
  rwa [List.take_take, Nat.min_eq_left h] at hsplit

theorem Inv.complete (h : Inv s) (hres : 0 ≤ res) (hs' : s.complete i res data = some s') :
    Inv s' := by
  obtain ⟨sqe, s₁, req, hsqe, hperform, rfl⟩ := Server.complete_eq hs'
  unfold Server.perform at hperform
  rw [if_neg (Int32.not_lt.mpr hres)] at hperform
  cases htype : sqe.req.type with
  | accept =>
    simp only [htype] at hperform
    obtain ⟨hnew, heq⟩ := Option.ite_none_right_eq_some.mp hperform
    obtain ⟨rfl, rfl⟩ := Prod.mk.inj (Option.some.inj heq)
    refine h.finish hsqe h.claimed rfl rfl (.inr hnew) ?_ ?_ ?_ ?_ ?_ ?_
    · simp [Job.owner, htype]
    · intro c hc
      simp [Server.streams, hc]
    · exact List.subset_cons_self ..
    · exact List.mem_cons_self ..
    · simp [Job.Holds, htype, Server.streams, hres]
    · simp
  | read =>
    simp only [htype] at hperform
    obtain ⟨⟨hlen, hroom⟩, heq⟩ := Option.ite_none_right_eq_some.mp hperform
    obtain ⟨rfl, rfl⟩ := Prod.mk.inj (Option.some.inj heq)
    have hfd : (Job.queued sqe).owner = some sqe.fd := by simp [Job.owner, htype]
    have hmine := h.owner_opened (mem_flight_queued hsqe) hfd
    have hholds := h.flight.holds _ (mem_flight_queued hsqe) sqe.fd hfd
    simp only [Job.Holds, htype, Server.streams] at hholds
    obtain ⟨hclient, hreceived⟩ := hholds
    refine h.finish hsqe h.claimed rfl rfl (.inl hfd) ?_ ?_ (List.Subset.refl _) hmine ?_ ?_
    · simp [Job.owner, hclient]
    · intro c hc
      simp [Server.streams, hc]
    · simp [Job.Holds, Server.streams, hres, ← hlen, hreceived]
    · simp [hreceived]
  | write =>
    simp only [htype] at hperform
    obtain ⟨⟨hpos, hroom⟩, heq⟩ := Option.ite_none_right_eq_some.mp hperform
    obtain ⟨rfl, rfl⟩ := Prod.mk.inj (Option.some.inj heq)
    have hfd : (Job.queued sqe).owner = some sqe.fd := by simp [Job.owner, htype]
    have hmine := h.owner_opened (mem_flight_queued hsqe) hfd
    have hholds := h.flight.holds _ (mem_flight_queued hsqe) sqe.fd hfd
    simp only [Job.Holds, htype, Server.streams] at hholds
    obtain ⟨hclient, hlen, hreceived⟩ := hholds
    rw [take_eq_append hroom, ← List.append_assoc] at hreceived
    refine h.finish hsqe h.claimed rfl rfl (.inl hfd) ?_ ?_ (List.Subset.refl _) hmine ?_ ?_
    · simp [Job.owner, htype, hclient]
    · intro c hc
      simp [Server.streams, hc]
    · simp only [Job.Holds, htype, Server.streams, Function.update_self]
      exact ⟨hres, hlen, hroom, hreceived⟩
    · simp only [Function.update_self]
      exact ⟨_, hreceived.symm⟩

end Complete

section Runs

variable {a : Action}

theorem Inv.step (h : Inv s) (hs' : ((machine listenFd).under succeeds).step s a = some s')
    (hwhole : s.SentWhole a) : Inv s' := by
  obtain ⟨hsucc, hs'⟩ := Machine.under_step.mp hs'
  cases a with
  | complete i res data => exact h.complete (of_decide_eq_true hsucc) hs'
  | handle =>
    obtain ⟨cqe, completed, hhead, rfl⟩ := Server.step_handle hs'
    apply h.handle hhead
    exact hwhole cqe (by rw [hhead]; rfl)

/-- When a send took a part only, the next receive is queued although something is left. -/
theorem Inv.sentWhole (h : Inv s) (hs' : ((machine listenFd).under succeeds).step s a = some s')
    (hechoes : s'.Echoes) : s.SentWhole a := by
  obtain ⟨-, hs'⟩ := Machine.under_step.mp hs'
  cases a with
  | complete i res data => trivial
  | handle =>
    obtain ⟨cqe, completed, hhead, rfl⟩ := Server.step_handle hs'
    intro c hc htype
    obtain rfl : cqe = c := by simpa [hhead] using hc
    have hfd : (Job.done cqe).owner = some cqe.req.clientFd := by simp [Job.owner, htype]
    have hholds := h.head hhead hfd
    simp only [Job.Holds, htype, Server.streams] at hholds
    obtain ⟨hres, hlen, hroom, hreceived⟩ := hholds
    have hhandle : { s with completed }.handle cqe.req cqe.res =
        ({ s with completed }.queueRead cqe.req.clientFd).submit := by
      unfold Server.handle
      rw [if_neg (Int32.not_lt.mpr hres)]
      simp only [htype]
    rw [hhandle] at hechoes
    have hall : s.sent cqe.req.clientFd = s.received cqe.req.clientFd := by
      apply (hechoes cqe.req.clientFd).2
      refine ⟨⟨{ type := .read, clientFd := cqe.req.clientFd, buf := List.replicate readSize 0 },
        cqe.req.clientFd, readSize⟩, ?_, rfl, rfl⟩
      simp [Server.submit, Server.queueRead, Server.claimSqe]
    -- nothing may be left of what was to be sent
    have hrest := List.self_eq_append_right.mp (hall.trans hreceived)
    rw [List.drop_eq_nil_iff, List.length_take_of_le hlen] at hrest
    exact Nat.le_antisymm hroom hrest

/-- In a run without failing operations every byte is sent back once and in order exactly if no
send that the server takes note of was short. -/
theorem echoes_iff_sentWhole (listenFd : Int32) (acts : List Action) :
    ((machine listenFd).under succeeds).Always (.start listenFd) acts Server.Echoes ↔
      ((machine listenFd).under succeeds).AllSteps (.start listenFd) acts Server.SentWhole :=
  Machine.always_iff (I := Inv) (.start listenFd) (fun _ h => h.echoes)
    (fun _ _ _ h hs' hwhole => h.step hs' hwhole) fun _ _ _ h hs' hechoes => h.sentWhole hs' hechoes

/-- A client sends two bytes; one of them is sent back, and the server receives again. -/
def shortSend : List Action :=
  [.complete 0 5 [], .handle, .complete 1 2 [104, 105], .handle, .complete 1 1 [], .handle]

theorem not_echoes_shortSend : ∃ s, ((machine 3).under succeeds).Reachable s ∧
    s.received 5 = [104, 105] ∧ s.sent 5 = [104] ∧ s.Receiving 5 ∧ ¬ s.Echoes := by
  have hrun : (((machine 3).under succeeds).run (.start 3) shortSend).map
      (fun s => (s.received 5, s.sent 5, s.submitted.map fun sqe => (sqe.req.type, sqe.fd))) =
        some ([104, 105], [104], [(.accept, 3), (.read, 5)]) := by decide +kernel
  obtain ⟨s, hs, heq⟩ := Option.map_eq_some_iff.mp hrun
  obtain ⟨hreceived, heq⟩ := Prod.mk.inj heq
  obtain ⟨hsent, hqueued⟩ := Prod.mk.inj heq
  have hreceiving : s.Receiving 5 := by
    have hmem : (EventType.read, (5 : Int32)) ∈ s.submitted.map fun sqe => (sqe.req.type, sqe.fd) :=
      hqueued ▸ List.mem_cons_of_mem _ (List.mem_cons_self ..)
    obtain ⟨sqe, hsqe, hread⟩ := List.mem_map.mp hmem
    obtain ⟨htype, hfd⟩ := Prod.mk.inj hread
    exact ⟨sqe, List.mem_append_right _ hsqe, htype, hfd⟩
  refine ⟨s, ⟨_, hs⟩, hreceived, hsent, hreceiving, ?_⟩
  intro hechoes
  have hall := (hechoes 5).2 hreceiving
  rw [hsent, hreceived] at hall
  cases hall

end Runs

end LowLevel.Network.EchoServer
