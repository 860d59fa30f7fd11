import LowLevel.Network.UringStream
import Mathlib.Data.List.Nodup

/-! # The requests of the io_uring device

A request belongs to the ring while it is in flight, to the reader while it is
handled, and to no one once it is deleted. Every port keeps one accept in
flight, and every client one read until a read brings nothing. A history beside
the device records which descriptors the kernel handed out, which clients the
device knows, which of them ended, and what was received from them.
-/

namespace LowLevel.Network

open Wire

def Request.accepts (req : Request) (fd : Int32) : Bool := req.type = .accept ∧ req.listenFd = fd

def Request.reads (req : Request) (fd : Int32) : Bool := req.type = .read ∧ req.clientFd = fd

/-- The descriptor of a client that a completed accept brings. -/
def Cqe.client (cqe : Cqe) : Option Int32 :=
  if cqe.req.type = .accept ∧ ¬ cqe.res < 0 then some cqe.res else none

def Cqe.message (cqe : Cqe) : Option InboundMessage :=
  if cqe.req.type = .read ∧ 0 < cqe.res then
    some ⟨cqe.req.clientFd.toUInt32, cqe.req.buf.take cqe.res.toNatClampNeg⟩
  else none

namespace NetworkDeviceIOUring

/-- The requests given to the ring whose completion was not yet taken. -/
def outstanding (d : NetworkDeviceIOUring) : List Request :=
  (d.submitted ++ d.claimed).map Sqe.req ++ d.completed.map Cqe.req

def inHand (d : NetworkDeviceIOUring) : List Request :=
  match d.reader with
  | .waiting => []
  | .enqueuing req _ => [req]

def messageInHand (d : NetworkDeviceIOUring) : List InboundMessage :=
  match d.reader with
  | .waiting => []
  | .enqueuing _ msg => [msg]

def pendingAccepts (d : NetworkDeviceIOUring) (fd : Int32) : ℕ :=
  d.outstanding.countP fun req => req.accepts fd

def pendingReads (d : NetworkDeviceIOUring) (fd : Int32) : ℕ :=
  d.outstanding.countP fun req => req.reads fd

/-- The device with its history: descriptors handed out, clients known to the device, clients
with a read that brought nothing, and the messages received. -/
structure Traced where
  device : NetworkDeviceIOUring
  opened : List Int32 := []
  clients : List Int32 := []
  ended : List Int32 := []
  received : List InboundMessage := []

namespace Traced

def observe (t : Traced) : Action → Traced
  | .complete i res data =>
    match t.device.submitted[i]? with
    | some ⟨req, _⟩ => { t with
      opened := t.opened ++ (Cqe.client ⟨req, res⟩).toList
      received := t.received ++ (Cqe.message ⟨{ req with buf := data }, res⟩).toList }
    | none => t
  | .receiveMsg i =>
    match t.device.completed[i]? with
    | some cqe => { t with
      clients := t.clients ++ cqe.client.toList
      ended := if cqe.req.type = .read ∧ ¬ 0 < cqe.res then cqe.req.clientFd :: t.ended
        else t.ended }
    | none => t
  | _ => t

def machine (listeningFds : List Int32) : Machine Traced Action where
  init := { device := init listeningFds }
  step t act := (t.device.step act).map fun d => { t.observe act with device := d }

/-- The kernel hands out no descriptor that is open; the device closes none. -/
def unused (listeningFds : List Int32) (t : Traced) : Action → Bool
  | .complete i res _ => t.device.submitted[i]?.all fun sqe =>
    (Cqe.client ⟨sqe.req, res⟩).all fun fd => fd ∉ t.opened ∧ fd ∉ listeningFds
  | _ => true

def fromClient (fd : Int32) (msgs : List InboundMessage) : List InboundMessage :=
  msgs.filter (·.account = fd.toUInt32)

/-- Every request has one owner, ports and clients have their pending requests, and messages are
enqueued in order. -/
structure Lifecycle (listeningFds : List Int32) (t : Traced) : Prop where
  submitted : t.device.claimed = []
  inflight : t.device.inflightRequests.Perm (t.device.outstanding.map Request.addr)
  owned : (t.device.inflightRequests ++ t.device.inHand.map Request.addr ++
    t.device.freed).Perm (List.range t.device.fresh)
  accepts : ∀ fd ∈ listeningFds, t.device.pendingAccepts fd = 1
  reads : ∀ fd, t.device.pendingReads fd + t.device.inHand.countP (·.reads fd) =
    if fd ∈ t.clients ∧ fd ∉ t.ended then 1 else 0
  accounts : (t.clients.map Int32.toUInt32).Nodup
  order : ∀ fd, fromClient fd t.device.queue <+: fromClient fd t.received

/-- Every client whose reads all brought something has one pending read, every other none. -/
def Rearmed (t : Traced) : Prop :=
  ∀ fd, t.device.pendingReads fd = if fd ∈ t.clients ∧ fd ∉ t.ended then 1 else 0

end Traced

/-- The requests outside the ring are in somebody's hand or deleted. -/
structure Owns (d : NetworkDeviceIOUring) (hand : List Request) : Prop where
  inflight : d.inflightRequests.Perm (d.outstanding.map Request.addr)
  all : (d.inflightRequests ++ hand.map Request.addr ++ d.freed).Perm (List.range d.fresh)

section Ownership

variable {d : NetworkDeviceIOUring} {hand : List Request} {req : Request}

theorem claimSqe_outstanding (req : Request) (len : ℕ) :
    (d.claimSqe req len).outstanding.Perm (req :: d.outstanding) := by
  simp only [outstanding, claimSqe, ← List.append_assoc, List.map_append, List.map_singleton]
  rw [List.append_assoc _ [req], List.singleton_append]
  exact List.perm_middle

theorem Owns.claimSqe (h : Owns d (req :: hand)) (len : ℕ) : Owns (d.claimSqe req len) hand := by
  have hnew : req.addr ∉ d.inflightRequests := by
    have hnodup := h.all.nodup_iff.mpr List.nodup_range
    rw [List.map_cons, List.append_assoc, List.nodup_append] at hnodup
    exact fun hmem => hnodup.2.2 _ hmem _ (List.mem_cons_self ..) rfl
  have hinsert : (d.claimSqe req len).inflightRequests = req.addr :: d.inflightRequests :=
    List.insert_of_not_mem hnew
  constructor
  case inflight =>
    rw [hinsert]
    exact (h.inflight.cons _).trans ((claimSqe_outstanding req len).map _).symm
  case all =>
    rw [hinsert]
    refine List.Perm.trans ?_ h.all
    rw [List.map_cons, List.append_assoc, List.append_assoc]
    exact List.perm_middle.symm

theorem Owns.allocate (h : Owns d hand) (haddr : req.addr = d.fresh) :
    Owns { d with fresh := d.fresh + 1 } (req :: hand) := by
  refine ⟨h.inflight, ?_⟩
  have hall := h.all
  simp only [List.map_cons, haddr, List.range_succ, List.append_assoc] at hall ⊢
  refine List.perm_middle.trans ?_
  exact (hall.cons _).trans (List.perm_append_singleton _ _).symm

theorem Owns.queueAccept (h : Owns d hand) (fd : Int32) : Owns (d.queueAccept fd) hand :=
  (h.allocate rfl).claimSqe 0

theorem Owns.queueRead (h : Owns d hand) (fd : Int32) : Owns (d.queueRead fd) hand :=
  (h.allocate rfl).claimSqe kMaxReqSize

theorem submit_outstanding (d : NetworkDeviceIOUring) : d.submit.outstanding = d.outstanding := by
  simp [outstanding, submit]

theorem Owns.submit (h : Owns d hand) : Owns d.submit hand :=
  ⟨(submit_outstanding d).symm ▸ h.inflight, h.all⟩

theorem Owns.delete (h : Owns d (req :: hand)) : Owns (d.delete req) hand := by
  refine ⟨h.inflight, List.Perm.trans ?_ h.all⟩
  simp only [NetworkDeviceIOUring.delete, List.map_cons, List.append_assoc]
  exact List.perm_middle.append_left _

theorem Owns.take {cqe : Cqe} {l₁ l₂ : List Cqe} (h : Owns d hand)
    (hl : d.completed = l₁ ++ cqe :: l₂) :
    Owns { d with
      completed := l₁ ++ l₂
      inflightRequests := d.inflightRequests.erase cqe.req.addr } (cqe.req :: hand) := by
  have hout : d.outstanding.Perm (cqe.req ::
      ((d.submitted ++ d.claimed).map Sqe.req ++ (l₁ ++ l₂).map Cqe.req)) := by
    simp only [outstanding, hl, List.map_append, List.map_cons, ← List.append_assoc]
    exact List.perm_middle
  have hinflight := h.inflight.trans (hout.map Request.addr)
  have hmem : cqe.req.addr ∈ d.inflightRequests :=
    hinflight.mem_iff.mpr (List.mem_cons_self ..)
  constructor
  case inflight =>
    have herase := hinflight.erase cqe.req.addr
    rwa [List.map_cons, List.erase_cons_head] at herase
  case all =>
    refine List.Perm.trans ?_ h.all
    simp only [List.map_cons, List.append_assoc]
    refine List.perm_middle.trans ?_
    exact ((List.perm_cons_erase hmem).symm.append_right _)

end Ownership

section Counts

variable {d : NetworkDeviceIOUring}

@[simp] theorem pendingAccepts_submit (fd : Int32) :
    d.submit.pendingAccepts fd = d.pendingAccepts fd := by
  rw [pendingAccepts, submit_outstanding, pendingAccepts]

@[simp] theorem pendingReads_submit (fd : Int32) :
    d.submit.pendingReads fd = d.pendingReads fd := by
  rw [pendingReads, submit_outstanding, pendingReads]

@[simp] theorem pendingAccepts_delete (req : Request) (fd : Int32) :
    (d.delete req).pendingAccepts fd = d.pendingAccepts fd := rfl

@[simp] theorem pendingReads_delete (req : Request) (fd : Int32) :
    (d.delete req).pendingReads fd = d.pendingReads fd := rfl

theorem pendingAccepts_claimSqe (req : Request) (len : ℕ) (fd : Int32) :
    (d.claimSqe req len).pendingAccepts fd =
      d.pendingAccepts fd + if req.accepts fd then 1 else 0 := by
  rw [pendingAccepts, (claimSqe_outstanding req len).countP_eq, List.countP_cons, pendingAccepts]

theorem pendingReads_claimSqe (req : Request) (len : ℕ) (fd : Int32) :
    (d.claimSqe req len).pendingReads fd =
      d.pendingReads fd + if req.reads fd then 1 else 0 := by
  rw [pendingReads, (claimSqe_outstanding req len).countP_eq, List.countP_cons, pendingReads]

@[simp] theorem pendingAccepts_queueAccept (fd' fd : Int32) :
    (d.queueAccept fd').pendingAccepts fd =
      d.pendingAccepts fd + if fd' = fd then 1 else 0 := by
  rw [queueAccept, pendingAccepts_claimSqe]
  simp [Request.accepts, pendingAccepts, outstanding]

@[simp] theorem pendingReads_queueAccept (fd' fd : Int32) :
    (d.queueAccept fd').pendingReads fd = d.pendingReads fd := by
  rw [queueAccept, pendingReads_claimSqe]
  simp [Request.reads, pendingReads, outstanding]

@[simp] theorem pendingAccepts_queueRead (fd' fd : Int32) :
    (d.queueRead fd').pendingAccepts fd = d.pendingAccepts fd := by
  rw [queueRead, pendingAccepts_claimSqe]
  simp [Request.accepts, pendingAccepts, outstanding]

@[simp] theorem pendingReads_queueRead (fd' fd : Int32) :
    (d.queueRead fd').pendingReads fd = d.pendingReads fd + if fd' = fd then 1 else 0 := by
  rw [queueRead, pendingReads_claimSqe]
  simp [Request.reads, pendingReads, outstanding]

@[simp] theorem pendingAccepts_queueWrite (req : Request) (len : ℕ) (fd : Int32) :
    (d.queueWrite req len).pendingAccepts fd = d.pendingAccepts fd := by
  rw [queueWrite, pendingAccepts_claimSqe]
  simp [Request.accepts]

@[simp] theorem pendingReads_queueWrite (req : Request) (len : ℕ) (fd : Int32) :
    (d.queueWrite req len).pendingReads fd = d.pendingReads fd := by
  rw [queueWrite, pendingReads_claimSqe]
  simp [Request.reads]

theorem pendingAccepts_take {cqe : Cqe} {l₁ l₂ : List Cqe} (hl : d.completed = l₁ ++ cqe :: l₂)
    (inflight : List ℕ) (fd : Int32) :
    d.pendingAccepts fd = { d with completed := l₁ ++ l₂, inflightRequests := inflight
      }.pendingAccepts fd + if cqe.req.accepts fd then 1 else 0 := by
  simp only [pendingAccepts, outstanding, hl, List.map_append, List.map_cons, List.countP_append,
    List.countP_cons]
  omega

theorem pendingReads_take {cqe : Cqe} {l₁ l₂ : List Cqe} (hl : d.completed = l₁ ++ cqe :: l₂)
    (inflight : List ℕ) (fd : Int32) :
    d.pendingReads fd = { d with completed := l₁ ++ l₂, inflightRequests := inflight
      }.pendingReads fd + if cqe.req.reads fd then 1 else 0 := by
  simp only [pendingReads, outstanding, hl, List.map_append, List.map_cons, List.countP_append,
    List.countP_cons]
  omega

end Counts

theorem account_inj {fd fd' : Int32} (h : fd.toUInt32 = fd'.toUInt32) : fd = fd' := by
  rw [← Int32.toInt32_toUInt32 fd, h, Int32.toInt32_toUInt32]

namespace Traced

/-- What the steps preserve: beside the lifecycle, where the descriptors handed out and the
messages received are. -/
structure Inv (listeningFds : List Int32) (t : Traced) : Prop where
  submitted : t.device.claimed = []
  owns : Owns t.device t.device.inHand
  accepts : ∀ fd, t.device.pendingAccepts fd = if fd ∈ listeningFds then 1 else 0
  reads : ∀ fd, t.device.pendingReads fd + t.device.inHand.countP (·.reads fd) =
    if fd ∈ t.clients ∧ fd ∉ t.ended then 1 else 0
  hand : ∀ req msg, t.device.reader = .enqueuing req msg → req.type = .read
  opened : t.opened.Perm (t.clients ++ t.device.completed.filterMap Cqe.client)
  distinct : t.opened.Nodup
  ended : ∀ fd ∈ t.ended, fd ∈ t.clients
  order : ∀ fd, fromClient fd t.received = fromClient fd t.device.queue ++
    fromClient fd t.device.messageInHand ++
      fromClient fd (t.device.completed.filterMap Cqe.message)

variable {listeningFds : List Int32} {t t' : Traced} {d : NetworkDeviceIOUring}

theorem Inv.lifecycle (h : Inv listeningFds t) : Lifecycle listeningFds t := by
  constructor
  case submitted => exact h.submitted
  case inflight => exact h.owns.inflight
  case owned => exact h.owns.all
  case accepts =>
    intro fd hfd
    rw [h.accepts, if_pos hfd]
  case reads => exact h.reads
  case accounts =>
    have hnodup := List.nodup_append.mp (h.opened.nodup_iff.mp h.distinct)
    exact List.pairwise_map.mpr (hnodup.1.imp fun hne heq => hne (account_inj heq))
  case order =>
    intro fd
    rw [h.order, List.append_assoc]
    exact List.prefix_append ..

theorem Inv.rearmed (h : Inv listeningFds t) (hreader : t.device.reader = .waiting) :
    t.Rearmed := by
  intro fd
  have hreads := h.reads fd
  rw [inHand, hreader] at hreads
  exact hreads

theorem Inv.sendMsg (h : Inv listeningFds t) (message : OutboundMessage) :
    Inv listeningFds { t with device := (t.device.sendMsg message).2 } := by
  unfold NetworkDeviceIOUring.sendMsg
  split
  · exact h
  · next size hsize =>
    constructor
    case submitted => rfl
    case owns =>
      apply Owns.submit
      exact Owns.claimSqe (h.owns.allocate rfl) size
    case accepts =>
      intro fd
      simp only [pendingAccepts_submit, pendingAccepts_queueWrite]
      exact h.accepts fd
    case reads =>
      intro fd
      simp only [pendingReads_submit, pendingReads_queueWrite]
      exact h.reads fd
    case hand => exact h.hand
    case opened => exact h.opened
    case distinct => exact h.distinct
    case ended => exact h.ended
    case order => exact h.order

theorem Inv.enqueued (h : Inv listeningFds t) (hstep : t.device.enqueued = some d) :
    Inv listeningFds { t with device := d } := by
  unfold NetworkDeviceIOUring.enqueued at hstep
  split at hstep
  · cases hstep
  · next req msg hreader =>
    obtain rfl := Option.some.inj hstep
    have hhand : t.device.inHand = [req] := by rw [inHand, hreader]
    have hmessage : t.device.messageInHand = [msg] := by rw [messageInHand, hreader]
    constructor
    case submitted => rfl
    case owns =>
      have howns := h.owns
      rw [hhand] at howns
      have htaken : Owns { t.device with reader := .waiting, queue := t.device.queue ++ [msg] }
          [req] := ⟨howns.inflight, howns.all⟩
      exact (htaken.queueRead req.clientFd).submit.delete
    case accepts =>
      intro fd
      simp only [pendingAccepts_delete, pendingAccepts_submit, pendingAccepts_queueRead]
      exact h.accepts fd
    case reads =>
      intro fd
      have hreads := h.reads fd
      rw [hhand, List.countP_singleton, Request.reads, h.hand req msg hreader] at hreads
      simp only [true_and, decide_eq_true_eq] at hreads
      simp only [pendingReads_delete, pendingReads_submit, pendingReads_queueRead]
      exact hreads
    case hand => exact fun req' msg' hr => by cases hr
    case opened => exact h.opened
    case distinct => exact h.distinct
    case ended => exact h.ended
    case order =>
      intro fd
      have horder := h.order fd
      rw [hmessage] at horder
      rw [horder, fromClient, fromClient, fromClient, ← List.filter_append]
      exact (congrArg (· ++ _) (List.append_nil _)).symm

theorem filterMap_one {α β : Type*} (f : α → Option β) (x : α) :
    [x].filterMap f = (f x).toList := by
  cases hx : f x with
  | none => rw [List.filterMap_cons_none hx]; rfl
  | some y => rw [List.filterMap_cons_some hx]; rfl

theorem complete_spec {d d' : NetworkDeviceIOUring} {i : ℕ} {res : Int32} {data : List UInt8}
    (hstep : d.complete i res data = some d') :
    ∃ sqe l₁ l₂ buf streams, d.submitted[i]? = some sqe ∧ d.submitted = l₁ ++ sqe :: l₂ ∧
      d' = { d with
        submitted := l₁ ++ l₂
        completed := d.completed ++ [⟨{ sqe.req with buf }, res⟩]
        streams } ∧
      Cqe.message ⟨{ sqe.req with buf }, res⟩ =
        Cqe.message ⟨{ sqe.req with buf := data }, res⟩ := by
  unfold NetworkDeviceIOUring.complete at hstep
  split at hstep
  · cases hstep
  · next req len hsqe =>
    obtain ⟨l₁, l₂, hl, -, herase⟩ := split_at hsqe
    obtain ⟨addr, type, clientFd, listenFd, old⟩ := req
    cases type with
    | accept =>
      simp only [herase, Option.some.injEq] at hstep
      subst hstep
      exact ⟨_, l₁, l₂, _, _, hsqe, hl, rfl, rfl⟩
    | read =>
      simp only [herase] at hstep
      split_ifs at hstep with hdata
      obtain rfl := Option.some.inj hstep
      refine ⟨_, l₁, l₂, _, _, hsqe, hl, rfl, ?_⟩
      simp [Cqe.message, ← hdata.1]
    | write =>
      simp only [herase] at hstep
      split_ifs at hstep
      obtain rfl := Option.some.inj hstep
      exact ⟨_, l₁, l₂, _, _, hsqe, hl, rfl, rfl⟩

theorem Inv.complete {i : ℕ} {res : Int32} {data : List UInt8} (h : Inv listeningFds t)
    (hcond : t.unused listeningFds (.complete i res data) = true)
    (hstep : t.device.complete i res data = some d) :
    Inv listeningFds { t.observe (.complete i res data) with device := d } := by
  obtain ⟨sqe, l₁, l₂, buf, streams, hsqe, hl, rfl, hmessage⟩ := complete_spec hstep
  have hout : ∀ p : Request → Bool, p { sqe.req with buf } = p sqe.req →
      ({ t.device with
        submitted := l₁ ++ l₂
        completed := t.device.completed ++ [⟨{ sqe.req with buf }, res⟩]
        streams } : NetworkDeviceIOUring).outstanding.countP p = t.device.outstanding.countP p := by
    intro p hp
    simp only [outstanding, hl, h.submitted, List.append_nil, List.map_append, List.map_cons,
      List.countP_append, List.countP_cons, List.map_nil, List.countP_nil, hp]
    omega
  have haddr : (({ t.device with
      submitted := l₁ ++ l₂
      completed := t.device.completed ++ [⟨{ sqe.req with buf }, res⟩]
      streams } : NetworkDeviceIOUring).outstanding.map Request.addr).Perm
      (t.device.outstanding.map Request.addr) := by
    simp only [outstanding, hl, h.submitted, List.append_nil, List.map_append, List.map_cons,
      List.map_nil, ← List.append_assoc]
    refine (List.perm_append_singleton _ _).trans ?_
    rw [List.append_assoc, List.append_assoc]
    exact List.perm_middle.symm
  constructor
  case submitted => exact h.submitted
  case owns => exact ⟨h.owns.inflight.trans haddr.symm, h.owns.all⟩
  case accepts =>
    intro fd
    exact (hout (·.accepts fd) rfl).trans (h.accepts fd)
  case reads =>
    intro fd
    have hreads := h.reads fd
    simp only [observe, hsqe]
    rw [pendingReads, hout (·.reads fd) rfl]
    exact hreads
  case hand => exact h.hand
  case opened =>
    simp only [observe, hsqe, List.filterMap_append, ← List.append_assoc]
    refine (h.opened.append_right _).trans (List.Perm.of_eq (congrArg _ ?_))
    exact (filterMap_one Cqe.client ⟨{ sqe.req with buf }, res⟩).symm
  case distinct =>
    simp only [observe, hsqe]
    cases hclient : Cqe.client ⟨sqe.req, res⟩ with
    | none => simpa using h.distinct
    | some fd =>
      simp only [unused, hsqe, Option.all_some, hclient, decide_eq_true_eq] at hcond
      exact List.nodup_append.mpr ⟨h.distinct, List.pairwise_singleton .., fun x hx y hy heq =>
        hcond.1 (List.mem_singleton.mp hy ▸ heq ▸ hx)⟩
  case ended =>
    simp only [observe, hsqe]
    exact h.ended
  case order =>
    intro fd
    simp only [observe, hsqe, List.filterMap_append, fromClient, List.filter_append]
    have horder := h.order fd
    simp only [fromClient] at horder
    rw [horder, List.append_assoc, ← hmessage, filterMap_one]
    rfl

section Receive

variable {cqe : Cqe} {l₁ l₂ : List Cqe}

def taken (d : NetworkDeviceIOUring) (cqe : Cqe) (l₁ l₂ : List Cqe) : NetworkDeviceIOUring :=
  { d with
    completed := l₁ ++ l₂
    inflightRequests := d.inflightRequests.erase cqe.req.addr }

theorem Inv.client_new (h : Inv listeningFds t) (hl : t.device.completed = l₁ ++ cqe :: l₂)
    {fd : Int32} (hfd : cqe.client = some fd) : fd ∉ t.clients := by
  intro hmem
  have hnodup := List.nodup_append.mp (h.opened.nodup_iff.mp h.distinct)
  refine hnodup.2.2 fd hmem fd ?_ rfl
  rw [List.mem_filterMap]
  exact ⟨cqe, by rw [hl]; simp, hfd⟩

theorem Inv.read_single (h : Inv listeningFds t) (hl : t.device.completed = l₁ ++ cqe :: l₂)
    (htype : cqe.req.type = .read) :
    cqe.req.clientFd ∈ t.clients ∧ cqe.req.clientFd ∉ t.ended ∧
      (taken t.device cqe l₁ l₂).pendingReads cqe.req.clientFd = 0 := by
  have hreads := h.reads cqe.req.clientFd
  have hone : cqe.req.reads cqe.req.clientFd = true := by simp [Request.reads, htype]
  rw [pendingReads_take hl (t.device.inflightRequests.erase cqe.req.addr), if_pos hone] at hreads
  have hzero : (taken t.device cqe l₁ l₂).pendingReads cqe.req.clientFd + 1 ≤
      if cqe.req.clientFd ∈ t.clients ∧ cqe.req.clientFd ∉ t.ended then 1 else 0 := by
    rw [← hreads]
    exact Nat.le_add_right ..
  split_ifs at hzero with hin
  · exact ⟨hin.1, hin.2, by omega⟩
  · omega

theorem Inv.no_other_message (h : Inv listeningFds t) (hl : t.device.completed = l₁ ++ cqe :: l₂)
    (htype : cqe.req.type = .read) :
    fromClient cqe.req.clientFd ((l₁ ++ l₂).filterMap Cqe.message) = [] := by
  obtain ⟨-, -, hzero⟩ := h.read_single hl htype
  rw [pendingReads, List.countP_eq_zero] at hzero
  rw [fromClient, List.filter_eq_nil_iff]
  intro m hm
  obtain ⟨other, hother, hmsg⟩ := List.mem_filterMap.mp hm
  have hread := hzero other.req (List.mem_append_right _ (List.mem_map.mpr ⟨other, hother, rfl⟩))
  unfold Cqe.message at hmsg
  split_ifs at hmsg with hif
  obtain rfl := Option.some.inj hmsg
  intro heq
  apply hread
  have hfd : other.req.clientFd = cqe.req.clientFd := account_inj (of_decide_eq_true heq)
  simp [Request.reads, hif.1, hfd]

theorem Inv.owns_taken (h : Inv listeningFds t) (hreader : t.device.reader = .waiting)
    (hl : t.device.completed = l₁ ++ cqe :: l₂) : Owns (taken t.device cqe l₁ l₂) [cqe.req] := by
  have howns := h.owns
  rw [inHand, hreader] at howns
  exact howns.take hl

theorem Inv.accepts_taken (h : Inv listeningFds t) (hl : t.device.completed = l₁ ++ cqe :: l₂)
    (fd : Int32) : (taken t.device cqe l₁ l₂).pendingAccepts fd +
      (if cqe.req.accepts fd then 1 else 0) = if fd ∈ listeningFds then 1 else 0 := by
  rw [← h.accepts, pendingAccepts_take hl (t.device.inflightRequests.erase cqe.req.addr)]
  rfl

theorem Inv.reads_taken (h : Inv listeningFds t) (hreader : t.device.reader = .waiting)
    (hl : t.device.completed = l₁ ++ cqe :: l₂) (fd : Int32) :
    (taken t.device cqe l₁ l₂).pendingReads fd + (if cqe.req.reads fd then 1 else 0) =
      if fd ∈ t.clients ∧ fd ∉ t.ended then 1 else 0 := by
  rw [← h.rearmed hreader, pendingReads_take hl (t.device.inflightRequests.erase cqe.req.addr)]
  rfl

/-- A completion is handled for good: what is left to see is who owns the requests and which are
pending. -/
theorem Inv.handled {d : NetworkDeviceIOUring} {ended : List Int32} (h : Inv listeningFds t)
    (hreader : t.device.reader = .waiting) (hl : t.device.completed = l₁ ++ cqe :: l₂)
    (hsame : d.reader = t.device.reader ∧ d.completed = l₁ ++ l₂ ∧ d.queue = t.device.queue)
    (hclaimed : d.claimed = []) (howns : Owns d [])
    (haccepts : ∀ fd, d.pendingAccepts fd = if fd ∈ listeningFds then 1 else 0)
    (hreads : ∀ fd, d.pendingReads fd =
      if fd ∈ t.clients ++ cqe.client.toList ∧ fd ∉ ended then 1 else 0)
    (hended : ∀ fd ∈ ended, fd ∈ t.clients) (hmessage : cqe.message = none) :
    Inv listeningFds { t with clients := t.clients ++ cqe.client.toList, ended, device := d } := by
  obtain ⟨hreader', hcompleted, hqueue⟩ := hsame
  rw [hreader] at hreader'
  have hhand : d.inHand = [] := by rw [inHand, hreader']
  constructor
  case submitted => exact hclaimed
  case owns =>
    rw [hhand]
    exact howns
  case accepts => exact haccepts
  case reads =>
    intro fd
    rw [hhand]
    exact hreads fd
  case hand =>
    intro req msg hr
    rw [hreader'] at hr
    cases hr
  case opened =>
    rw [hcompleted]
    refine h.opened.trans ?_
    rw [hl, List.append_assoc, List.filterMap_append, List.filterMap_cons, List.filterMap_append]
    cases cqe.client with
    | none => exact List.Perm.refl _
    | some fd => exact List.perm_middle.append_left _
  case distinct => exact h.distinct
  case ended => exact fun fd hfd => List.mem_append_left _ (hended fd hfd)
  case order =>
    intro fd
    have horder := h.order fd
    rw [messageInHand, hreader, hl, List.filterMap_append, List.filterMap_cons_none hmessage,
      ← List.filterMap_append] at horder
    simp only [messageInHand, hreader', hcompleted, hqueue]
    exact horder

theorem Inv.receive_accept (h : Inv listeningFds t) (hreader : t.device.reader = .waiting)
    (hl : t.device.completed = l₁ ++ cqe :: l₂) (htype : cqe.req.type = .accept) :
    Inv listeningFds { t with
      clients := t.clients ++ cqe.client.toList
      device := (taken t.device cqe l₁ l₂).handle cqe.req cqe.res } := by
  have howns := h.owns_taken hreader hl
  have hmessage : cqe.message = none := by simp [Cqe.message, htype]
  have haccepts : ∀ fd, (taken t.device cqe l₁ l₂).pendingAccepts fd +
      (if cqe.req.listenFd = fd then 1 else 0) = if fd ∈ listeningFds then 1 else 0 := by
    intro fd
    simpa [Request.accepts, htype] using h.accepts_taken hl fd
  have hreads : ∀ fd, (taken t.device cqe l₁ l₂).pendingReads fd =
      if fd ∈ t.clients ∧ fd ∉ t.ended then 1 else 0 := by
    intro fd
    simpa [Request.reads, htype] using h.reads_taken hreader hl fd
  by_cases hneg : cqe.res < 0
  · have hclient : cqe.client = none := by simp [Cqe.client, hneg]
    simp only [handle, hneg, if_true, htype]
    refine h.handled hreader hl ⟨rfl, rfl, rfl⟩ rfl ?_ ?_ ?_ h.ended hmessage
    · exact (howns.queueAccept cqe.req.listenFd).submit.delete
    · intro fd
      simpa using haccepts fd
    · intro fd
      simpa [hclient] using hreads fd
  · have hclient : cqe.client = some cqe.res := by simp [Cqe.client, htype, hneg]
    have hnew := h.client_new hl hclient
    have hnot : cqe.res ∉ t.ended := fun hmem => hnew (h.ended _ hmem)
    simp only [handle, hneg, if_false, htype]
    refine h.handled hreader hl ⟨rfl, rfl, rfl⟩ rfl ?_ ?_ ?_ h.ended hmessage
    · exact ((howns.queueAccept cqe.req.listenFd).queueRead cqe.res).submit.delete
    · intro fd
      simpa using haccepts fd
    · intro fd
      simp only [pendingReads_delete, pendingReads_submit, pendingReads_queueRead,
        pendingReads_queueAccept, hreads, hclient, Option.toList_some, List.mem_append,
        List.mem_singleton]
      by_cases hfd : cqe.res = fd
      · subst hfd
        simp [hnew, hnot]
      · simp [hfd, Ne.symm hfd]

theorem Inv.accepts_read (h : Inv listeningFds t) (hl : t.device.completed = l₁ ++ cqe :: l₂)
    (htype : cqe.req.type = .read) (fd : Int32) :
    (taken t.device cqe l₁ l₂).pendingAccepts fd = if fd ∈ listeningFds then 1 else 0 := by
  simpa [Request.accepts, htype] using h.accepts_taken hl fd

theorem Inv.reads_read (h : Inv listeningFds t) (hreader : t.device.reader = .waiting)
    (hl : t.device.completed = l₁ ++ cqe :: l₂) (htype : cqe.req.type = .read) (fd : Int32) :
    (taken t.device cqe l₁ l₂).pendingReads fd + (if cqe.req.clientFd = fd then 1 else 0) =
      if fd ∈ t.clients ∧ fd ∉ t.ended then 1 else 0 := by
  simpa [Request.reads, htype] using h.reads_taken hreader hl fd

/-- A read that brought a message is held until the message is enqueued. -/
theorem Inv.receive_message (h : Inv listeningFds t) (hreader : t.device.reader = .waiting)
    (hl : t.device.completed = l₁ ++ cqe :: l₂) (htype : cqe.req.type = .read)
    (hpos : 0 < cqe.res) :
    Inv listeningFds { t with
      device := (taken t.device cqe l₁ l₂).handle cqe.req cqe.res } := by
  have howns := h.owns_taken hreader hl
  have hclient : cqe.client = none := by simp [Cqe.client, htype]
  have hneg : ¬ cqe.res < 0 := Int32.not_lt.mpr (Int32.le_of_lt hpos)
  have hnz : cqe.res ≠ 0 := fun hz => absurd (hz ▸ hpos) (by decide)
  have hmessage : cqe.message = some ⟨cqe.req.clientFd.toUInt32,
      cqe.req.buf.take cqe.res.toNatClampNeg⟩ := if_pos ⟨htype, hpos⟩
  simp only [handle, hneg, if_false, htype, hnz]
  constructor
  case submitted => exact h.submitted
  case owns => exact ⟨howns.inflight, howns.all⟩
  case accepts => exact h.accepts_read hl htype
  case reads =>
    intro fd
    refine Eq.trans ?_ (h.reads_read hreader hl htype fd)
    simp only [inHand, List.countP_singleton, Request.reads, htype, true_and, decide_eq_true_eq]
    rfl
  case hand =>
    intro req msg hr
    obtain ⟨rfl, -⟩ := Reader.enqueuing.inj hr
    exact htype
  case opened =>
    have hopened := h.opened
    rwa [hl, List.filterMap_append, List.filterMap_cons_none hclient,
      ← List.filterMap_append] at hopened
  case distinct => exact h.distinct
  case ended => exact h.ended
  case order =>
    intro fd
    have horder := h.order fd
    have hother := h.no_other_message hl htype
    rw [messageInHand, hreader, hl, List.filterMap_append,
      List.filterMap_cons_some hmessage] at horder
    simp only [messageInHand, taken, List.filterMap_append, fromClient, List.filter_append,
      List.append_eq_nil_iff] at horder hother ⊢
    rw [horder]
    by_cases hfd : cqe.req.clientFd = fd
    · -- it is the only message of its client that waits
      subst hfd
      rw [hother.1]
      simp
    · have hne : ¬ cqe.req.clientFd.toUInt32 = fd.toUInt32 := fun he => hfd (account_inj he)
      simp [hne]

/-- A read that brought nothing ends its client. -/
theorem Inv.receive_end (h : Inv listeningFds t) (hreader : t.device.reader = .waiting)
    (hl : t.device.completed = l₁ ++ cqe :: l₂) (htype : cqe.req.type = .read)
    (hpos : ¬ 0 < cqe.res) :
    Inv listeningFds { t with
      clients := t.clients ++ cqe.client.toList
      ended := cqe.req.clientFd :: t.ended
      device := (taken t.device cqe l₁ l₂).handle cqe.req cqe.res } := by
  have howns := h.owns_taken hreader hl
  have hclient : cqe.client = none := by simp [Cqe.client, htype]
  have hmessage : cqe.message = none := by simp [Cqe.message, hpos]
  obtain ⟨hknown, -, hzero⟩ := h.read_single hl htype
  have hhandle : (taken t.device cqe l₁ l₂).handle cqe.req cqe.res =
      (taken t.device cqe l₁ l₂).delete cqe.req := by
    simp only [handle, htype]
    split_ifs with hneg hz
    · rfl
    · rfl
    · exact absurd (Int32.le_antisymm (Int32.not_lt.mp hpos) (Int32.not_lt.mp hneg)) hz
  rw [hhandle]
  refine h.handled hreader hl ⟨rfl, rfl, rfl⟩ h.submitted howns.delete (h.accepts_read hl htype)
    ?_ ?_ hmessage
  · intro fd
    simp only [pendingReads_delete, hclient, Option.toList_none, List.append_nil]
    have hreads := h.reads_read hreader hl htype fd
    by_cases hfd : cqe.req.clientFd = fd
    · subst hfd
      simp [hzero]
    · simpa [hfd, Ne.symm hfd] using hreads
  · intro fd hfd
    rcases List.mem_cons.mp hfd with rfl | hfd
    · exact hknown
    · exact h.ended fd hfd

theorem Inv.receive_read (h : Inv listeningFds t) (hreader : t.device.reader = .waiting)
    (hl : t.device.completed = l₁ ++ cqe :: l₂) (htype : cqe.req.type = .read) :
    Inv listeningFds { t with
      clients := t.clients ++ cqe.client.toList
      ended := if ¬ 0 < cqe.res then cqe.req.clientFd :: t.ended else t.ended
      device := (taken t.device cqe l₁ l₂).handle cqe.req cqe.res } := by
  by_cases hpos : 0 < cqe.res
  · have hclient : cqe.client = none := by simp [Cqe.client, htype]
    rw [if_neg (not_not.mpr hpos), hclient, Option.toList_none, List.append_nil]
    exact h.receive_message hreader hl htype hpos
  · rw [if_pos hpos]
    exact h.receive_end hreader hl htype hpos

theorem Inv.receive_write (h : Inv listeningFds t) (hreader : t.device.reader = .waiting)
    (hl : t.device.completed = l₁ ++ cqe :: l₂) (htype : cqe.req.type = .write) :
    Inv listeningFds { t with
      clients := t.clients ++ cqe.client.toList
      device := (taken t.device cqe l₁ l₂).handle cqe.req cqe.res } := by
  have howns := h.owns_taken hreader hl
  have hclient : cqe.client = none := by simp [Cqe.client, htype]
  have hmessage : cqe.message = none := by simp [Cqe.message, htype]
  have haccepts : ∀ fd, (taken t.device cqe l₁ l₂).pendingAccepts fd =
      if fd ∈ listeningFds then 1 else 0 := by
    intro fd
    simpa [Request.accepts, htype] using h.accepts_taken hl fd
  have hreads : ∀ fd, (taken t.device cqe l₁ l₂).pendingReads fd =
      if fd ∈ t.clients ++ cqe.client.toList ∧ fd ∉ t.ended then 1 else 0 := by
    intro fd
    simpa [Request.reads, htype, hclient] using h.reads_taken hreader hl fd
  have hdelete : Inv listeningFds { t with
      clients := t.clients ++ cqe.client.toList
      device := (taken t.device cqe l₁ l₂).delete cqe.req } :=
    h.handled hreader hl ⟨rfl, rfl, rfl⟩ h.submitted howns.delete haccepts hreads h.ended hmessage
  simp only [handle, htype]
  split_ifs
  · exact hdelete
  · exact hdelete
  · refine h.handled hreader hl ⟨rfl, rfl, rfl⟩ rfl ?_ ?_ ?_ h.ended hmessage
    · apply Owns.submit
      apply Owns.claimSqe
      exact ⟨howns.inflight, howns.all⟩
    · intro fd
      rw [pendingAccepts_submit, pendingAccepts_queueWrite]
      exact haccepts fd
    · intro fd
      rw [pendingReads_submit, pendingReads_queueWrite]
      exact hreads fd
  · exact hdelete

theorem Inv.receiveMsg {i : ℕ} (h : Inv listeningFds t) (hstep : t.device.receiveMsg i = some d) :
    Inv listeningFds { t.observe (.receiveMsg i) with device := d } := by
  unfold NetworkDeviceIOUring.receiveMsg at hstep
  split at hstep
  · next cqe hreader hcqe =>
    obtain rfl := Option.some.inj hstep
    obtain ⟨l₁, l₂, hl, -, herase⟩ := split_at hcqe
    simp only [observe, hcqe, herase]
    cases htype : cqe.req.type with
    | accept => simpa [htype, taken] using h.receive_accept hreader hl htype
    | read => simpa [htype, taken] using h.receive_read hreader hl htype
    | write => simpa [htype, taken] using h.receive_write hreader hl htype
  · cases hstep

end Receive

theorem foldl_queueAccept (fds : List Int32) {d : NetworkDeviceIOUring} (h : Owns d []) :
    Owns (fds.foldl queueAccept d) [] ∧
      (∀ fd, (fds.foldl queueAccept d).pendingAccepts fd = d.pendingAccepts fd + fds.count fd) ∧
      (∀ fd, (fds.foldl queueAccept d).pendingReads fd = d.pendingReads fd) ∧
      (fds.foldl queueAccept d).reader = d.reader ∧
      (fds.foldl queueAccept d).completed = d.completed ∧
      (fds.foldl queueAccept d).queue = d.queue := by
  induction fds generalizing d with
  | nil => exact ⟨h, fun fd => rfl, fun fd => rfl, rfl, rfl, rfl⟩
  | cons x fds ih =>
    obtain ⟨howns, haccepts, hreads, hsame⟩ := ih (h.queueAccept x)
    refine ⟨howns, fun fd => ?_, fun fd => ?_, hsame⟩
    · rw [List.foldl_cons, haccepts, pendingAccepts_queueAccept, List.count_cons]
      simp only [beq_iff_eq]
      omega
    · rw [List.foldl_cons, hreads, pendingReads_queueAccept]

theorem inv_init (hnodup : listeningFds.Nodup) :
    Inv listeningFds { device := NetworkDeviceIOUring.init listeningFds } := by
  have hempty : Owns {} [] := ⟨List.Perm.refl _, List.Perm.refl _⟩
  obtain ⟨howns, haccepts, hreads, hreader, hcompleted, hqueue⟩ :=
    foldl_queueAccept listeningFds hempty
  have hhand : (NetworkDeviceIOUring.init listeningFds).inHand = [] := by
    rw [inHand, show (NetworkDeviceIOUring.init listeningFds).reader = .waiting from hreader]
  constructor
  case submitted => rfl
  case owns =>
    rw [hhand]
    exact howns.submit
  case accepts =>
    intro fd
    rw [NetworkDeviceIOUring.init, pendingAccepts_submit, haccepts]
    split_ifs with hfd
    · exact (Nat.zero_add _).trans (List.count_eq_one_of_mem hnodup hfd)
    · exact (Nat.zero_add _).trans (List.count_eq_zero_of_not_mem hfd)
  case reads =>
    intro fd
    rw [hhand, NetworkDeviceIOUring.init, pendingReads_submit, hreads]
    simp [pendingReads, outstanding]
  case hand =>
    intro req msg hr
    cases hreader.symm.trans hr
  case opened =>
    rw [NetworkDeviceIOUring.init, submit_completed, hcompleted]
    exact List.Perm.refl _
  case distinct => exact List.nodup_nil
  case ended => exact fun fd hfd => absurd hfd List.not_mem_nil
  case order =>
    intro fd
    simp only [NetworkDeviceIOUring.init, messageInHand, submit, hreader, hcompleted, hqueue]
    rfl

theorem step_inv {act : Action} (h : Inv listeningFds t)
    (hcond : t.unused listeningFds act = true)
    (hstep : (machine listeningFds).step t act = some t') : Inv listeningFds t' := by
  obtain ⟨d, hd, rfl⟩ := Option.map_eq_some_iff.mp hstep
  cases act with
  | sendMsg message =>
    obtain rfl := Option.some.inj hd
    exact h.sendMsg message
  | receiveMsg i => exact h.receiveMsg hd
  | enqueued => exact h.enqueued hd
  | complete i res data => exact h.complete hcond hd

/-- In every reachable state each request has one owner, each port one pending accept, and each
client that has not ended one pending read, or one in the hand of the reader. -/
theorem requests_lifecycle (hnodup : listeningFds.Nodup) {acts : List Action}
    (hrun : ((machine listeningFds).under (unused listeningFds)).run
      (machine listeningFds).init acts = some t) :
    Lifecycle listeningFds t ∧ (t.device.reader = .waiting → t.Rearmed) := by
  have h : Inv listeningFds t := by
    refine Machine.run_invariant (fun s act s' hs hstep => ?_) (inv_init hnodup) hrun
    obtain ⟨hcond, hstep⟩ := Machine.under_step.mp hstep
    exact step_inv hs hcond hstep
  exact ⟨h.lifecycle, h.rearmed⟩

/-- A client connects, sends one byte, and the reader enqueues it. -/
def oneByte : List Action :=
  [.complete 0 7 [], .receiveMsg 0, .complete 1 1 [65], .receiveMsg 0, .enqueued]

theorem requests_lifecycle_oneByte : ∃ t, ((machine [3]).under (unused [3])).run (machine [3]).init
    oneByte = some t ∧ Lifecycle [3] t ∧ t.Rearmed := by
  have hreader : (((machine [3]).under (unused [3])).run (machine [3]).init oneByte).map
      (fun t => t.device.reader) = some .waiting := by decide +kernel
  obtain ⟨t, hrun, hwaiting⟩ := Option.map_eq_some_iff.mp hreader
  obtain ⟨hlife, hrearmed⟩ := requests_lifecycle (by decide) hrun
  exact ⟨t, hrun, hlife, hrearmed hwaiting⟩

def sentBetween : List Action :=
  [.complete 0 7 [], .receiveMsg 0, .complete 1 1 [65], .receiveMsg 0, .sendMsg firstResponse]

/-- When the send is over, the client has no pending read yet. -/
theorem sentBetween_not_rearmed : ∃ t, ((machine [3]).under (unused [3])).run (machine [3]).init
    sentBetween = some t ∧ ¬ t.Rearmed := by
  have hstate : (((machine [3]).under (unused [3])).run (machine [3]).init sentBetween).map
      (fun t => (t.device.pendingReads 7, t.clients, t.ended)) = some (0, [7], []) := by
    decide +kernel
  obtain ⟨t, hrun, heq⟩ := Option.map_eq_some_iff.mp hstate
  obtain ⟨hreads, hrest⟩ := Prod.mk.inj heq
  obtain ⟨hclients, hended⟩ := Prod.mk.inj hrest
  refine ⟨t, hrun, fun h => ?_⟩
  have hone := h 7
  rw [hreads, hclients, hended] at hone
  exact absurd hone (by decide)

end Traced

end NetworkDeviceIOUring

end LowLevel.Network
