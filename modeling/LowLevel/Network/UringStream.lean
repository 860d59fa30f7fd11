import LowLevel.Network.Uring

/-! # The outbound streams of the io_uring device

A short send leaves a remainder that is submitted again when its completion is
handled, behind whatever was submitted to the same client in between. While
nothing gets between a short send and its remainder, the stream of each client,
the remainder and the pending sends spell the messages in the order they were
sent.
-/

namespace LowLevel.Network

open Wire

def Request.writesTo (req : Request) (fd : Int32) : Bool := req.type = .write ∧ req.clientFd = fd

def Cqe.short (cqe : Cqe) : Bool := cqe.res.toNatClampNeg < cqe.req.buf.length

def Cqe.remainder (cqe : Cqe) : List UInt8 := cqe.req.buf.drop cqe.res.toNatClampNeg

namespace NetworkDeviceIOUring

def pending (d : NetworkDeviceIOUring) (fd : Int32) : List Sqe :=
  d.submitted.filter fun sqe => sqe.req.writesTo fd

def waiting (d : NetworkDeviceIOUring) (fd : Int32) : List Cqe :=
  d.completed.filter fun cqe => cqe.req.writesTo fd && cqe.short

/-- No send fails, and sends to one client are executed in the order of submission. -/
def inOrder (d : NetworkDeviceIOUring) : Action → Bool
  | .complete i res _ => d.submitted[i]?.all fun sqe =>
    sqe.req.type ≠ .write ∨
      (0 < res ∧ ∀ x ∈ d.submitted.take i, x.req.writesTo sqe.req.clientFd = false)
  | _ => true

/-- Nothing gets between a short send and its remainder: a send is short only if no other one to
the client is pending, and no message is sent to a client while a short send to it waits. -/
def unbroken (d : NetworkDeviceIOUring) : Action → Bool
  | .complete i res _ => d.submitted[i]?.all fun sqe =>
    sqe.req.type ≠ .write ∨ sqe.req.buf.length ≤ res.toNatClampNeg ∨
      ∀ x ∈ d.submitted.eraseIdx i, x.req.writesTo sqe.req.clientFd = false
  | .sendMsg message => sendSize (window message.bytes 0 0) = none ∨
    d.waiting message.account.toInt32 = []
  | _ => true

def sentTo (fd : Int32) (acts : List Action) : List UInt8 :=
  acts.flatMap fun
    | .sendMsg message => if message.account.toInt32 = fd then message.wire.getD [] else []
    | _ => []

/-- What was sent to a client is its stream, a remainder and the pending sends. -/
structure Outbound (d : NetworkDeviceIOUring) (fd : Int32) (sent : List UInt8) : Prop where
  bytes : d.streams fd ++ (d.waiting fd).flatMap Cqe.remainder ++
    (d.pending fd).flatMap (fun sqe => sqe.req.buf) = sent
  single : d.waiting fd = [] ∨ (d.waiting fd).length = 1 ∧ d.pending fd = []

/-- Between calls everything claimed is submitted, and completed sends took something. -/
structure Settled (d : NetworkDeviceIOUring) : Prop where
  claimed : d.claimed = []
  taken : ∀ cqe ∈ d.completed, cqe.req.type = .write → 0 < cqe.res

section Fields

variable (d : NetworkDeviceIOUring) (fd : Int32) (req : Request) (len : ℕ)

@[simp] theorem claimSqe_claimed : (d.claimSqe req len).claimed = d.claimed ++ [⟨req, len⟩] := rfl

@[simp] theorem claimSqe_submitted : (d.claimSqe req len).submitted = d.submitted := rfl

@[simp] theorem claimSqe_completed : (d.claimSqe req len).completed = d.completed := rfl

@[simp] theorem claimSqe_streams : (d.claimSqe req len).streams = d.streams := rfl

@[simp] theorem submit_claimed : d.submit.claimed = [] := rfl

@[simp] theorem submit_submitted : d.submit.submitted = d.submitted ++ d.claimed := rfl

@[simp] theorem submit_completed : d.submit.completed = d.completed := rfl

@[simp] theorem submit_streams : d.submit.streams = d.streams := rfl

end Fields

theorem split_at {α : Type*} {l : List α} {i : ℕ} {x : α} (h : l[i]? = some x) :
    ∃ l₁ l₂, l = l₁ ++ x :: l₂ ∧ l.take i = l₁ ∧ l.eraseIdx i = l₁ ++ l₂ := by
  obtain ⟨hi, rfl⟩ := List.getElem?_eq_some_iff.mp h
  refine ⟨l.take i, l.drop (i + 1), ?_, rfl, List.eraseIdx_eq_take_drop_succ ..⟩
  rw [List.getElem_cons_drop, List.take_append_drop]

section Steps

variable {d d' : NetworkDeviceIOUring} {fd : Int32} {sent : List UInt8} {req : Request}
  {res : Int32}

theorem writesTo_iff : req.writesTo fd = true ↔ req.type = .write ∧ req.clientFd = fd := by
  simp [Request.writesTo]

theorem writesTo_of_ne (h : req.type ≠ .write) : req.writesTo fd = false := by
  simp [Request.writesTo, h]

/-- Handling a completion submits the remainder of a short send, or no send. -/
structure Handled (d d' : NetworkDeviceIOUring) (req : Request) (res : Int32) : Prop where
  claimed : d'.claimed = []
  completed : d'.completed = d.completed
  streams : d'.streams = d.streams
  submitted : ∃ new, d'.submitted = d.submitted ++ new ∧
    ((req.type = .write ∧ Cqe.short ⟨req, res⟩ = true ∧
        ∃ len, new = [⟨{ req with buf := Cqe.remainder ⟨req, res⟩ }, len⟩]) ∨
      (¬ (req.type = .write ∧ Cqe.short ⟨req, res⟩ = true) ∧ ∀ x ∈ new, x.req.type ≠ .write))

theorem handled (h : d.claimed = []) (htaken : req.type = .write → 0 < res) :
    Handled d (d.handle req res) req res := by
  cases htype : req.type with
  | accept =>
    simp only [handle, htype]
    split_ifs
    · refine ⟨rfl, rfl, rfl, _, rfl, Or.inr ⟨by simp [htype], ?_⟩⟩
      simp [queueAccept, h]
    · refine ⟨rfl, rfl, rfl, _, rfl, Or.inr ⟨by simp [htype], ?_⟩⟩
      simp [queueAccept, queueRead, h]
  | read =>
    have hnone : Handled d (d.delete req) req res :=
      ⟨h, rfl, rfl, [], (List.append_nil _).symm, Or.inr ⟨by simp [htype], by simp⟩⟩
    simp only [handle, htype]
    split_ifs
    · exact hnone
    · exact hnone
    · exact ⟨h, rfl, rfl, [], (List.append_nil _).symm, Or.inr ⟨by simp [htype], by simp⟩⟩
  | write =>
    have hpos := htaken htype
    simp only [handle, htype]
    split_ifs with hneg hzero hshort
    · exact absurd hpos (Int32.not_lt.mpr (Int32.le_of_lt hneg))
    · rw [hzero] at hpos
      exact absurd hpos (by decide)
    · refine ⟨rfl, rfl, rfl, _, rfl, Or.inl ⟨htype, decide_eq_true hshort, ?_⟩⟩
      refine ⟨(req.buf.drop res.toNatClampNeg).length, ?_⟩
      simp [queueWrite, h, Cqe.remainder, htype]
    · refine ⟨h, rfl, rfl, [], (List.append_nil _).symm, Or.inr ⟨?_, by simp⟩⟩
      simp [Cqe.short, hshort]

theorem Outbound.congr (h : Outbound d fd sent) (hstreams : d'.streams fd = d.streams fd)
    (hwaiting : d'.waiting fd = d.waiting fd) (hpending : d'.pending fd = d.pending fd) :
    Outbound d' fd sent := by
  refine ⟨?_, ?_⟩
  · rw [hstreams, hwaiting, hpending]
    exact h.bytes
  · rw [hwaiting, hpending]
    exact h.single

theorem Outbound.append {new : List Sqe} (h : Outbound d fd sent)
    (hstreams : d'.streams fd = d.streams fd) (hwaiting : d'.waiting fd = d.waiting fd)
    (hsub : d'.submitted = d.submitted ++ new)
    (hnew : d.waiting fd = [] ∨ ∀ x ∈ new, x.req.writesTo fd = false) :
    Outbound d' fd (sent ++
      (new.filter fun sqe => sqe.req.writesTo fd).flatMap fun sqe => sqe.req.buf) := by
  have hpending : d'.pending fd =
      d.pending fd ++ new.filter fun sqe => sqe.req.writesTo fd := by
    rw [pending, hsub, List.filter_append]
    rfl
  refine ⟨?_, ?_⟩
  · rw [hstreams, hwaiting, hpending, List.flatMap_append, ← List.append_assoc, h.bytes]
  · rw [hwaiting, hpending]
    rcases hnew with hnew | hnew
    · exact Or.inl hnew
    · rw [List.filter_eq_nil_iff.mpr fun x hx => by simp [hnew x hx], List.append_nil]
      exact h.single

theorem sendMsg_outbound {message : OutboundMessage} (hs : d.Settled) (h : Outbound d fd sent)
    (hcond : d.unbroken (.sendMsg message) = true) :
    Outbound (d.sendMsg message).2 fd (sent ++ sentTo fd [.sendMsg message]) := by
  unfold sendMsg
  cases hsize : sendSize (window message.bytes 0 0) with
  | none => simpa [sentTo, OutboundMessage.wire, hsize] using h
  | some size =>
    have hwaits : d.waiting message.account.toInt32 = [] := by
      simpa [unbroken, hsize] using hcond
    have hbytes : sentTo fd [.sendMsg message] =
        if message.account.toInt32 = fd then message.bytes.toList.take size else [] := by
      simp [sentTo, OutboundMessage.wire, hsize]
    have hnew : d.waiting fd = [] ∨ ∀ x ∈ ({ d with fresh := d.fresh + 1 }.queueWrite
        ⟨d.fresh, .write, message.account.toInt32, -1, message.bytes.toList.take size⟩
          size).claimed, x.req.writesTo fd = false := by
      rcases eq_or_ne message.account.toInt32 fd with rfl | hfd
      · exact Or.inl hwaits
      · exact Or.inr (by simp [queueWrite, hs.claimed, Request.writesTo, hfd])
    have hstreams : ({ d with fresh := d.fresh + 1 }.queueWrite
        ⟨d.fresh, .write, message.account.toInt32, -1, message.bytes.toList.take size⟩
          size).submit.streams fd = d.streams fd := rfl
    have hout := h.append hstreams rfl rfl hnew
    rw [hbytes]
    split_ifs with hfd
    · simpa [queueWrite, hs.claimed, Request.writesTo, hfd] using hout
    · simpa [queueWrite, hs.claimed, Request.writesTo, hfd] using hout

theorem receiveMsg_cases {i : ℕ} (hs : d.Settled) (hstep : d.receiveMsg i = some d') :
    ∃ cqe l₁ l₂, d.completed = l₁ ++ cqe :: l₂ ∧
      Handled { d with completed := l₁ ++ l₂ } d' cqe.req cqe.res := by
  unfold receiveMsg at hstep
  split at hstep
  · next cqe hreader hcqe =>
    obtain rfl := Option.some.inj hstep
    obtain ⟨l₁, l₂, hl, -, herase⟩ := split_at hcqe
    refine ⟨cqe, l₁, l₂, hl, ?_⟩
    have hmem : cqe ∈ d.completed := by simp [hl]
    obtain ⟨hclaimed, hcompleted, hstreams, hsub⟩ := handled (d := { d with
      completed := d.completed.eraseIdx i
      inflightRequests := d.inflightRequests.erase cqe.req.addr }) hs.claimed (hs.taken cqe hmem)
    exact ⟨hclaimed, hcompleted.trans herase, hstreams, hsub⟩
  · cases hstep

theorem receiveMsg_outbound {i : ℕ} (hs : d.Settled) (h : Outbound d fd sent)
    (hstep : d.receiveMsg i = some d') : Outbound d' fd sent := by
  obtain ⟨cqe, l₁, l₂, hl, -, hcompleted, hstreams, new, hsub, hnew⟩ := receiveMsg_cases hs hstep
  simp only at hcompleted hsub
  have hwaiting' : d'.waiting fd = l₁.filter (fun cqe => cqe.req.writesTo fd && cqe.short) ++
      l₂.filter fun cqe => cqe.req.writesTo fd && cqe.short := by
    rw [waiting, hcompleted, List.filter_append]
  cases hcut : cqe.req.writesTo fd && cqe.short with
  | true =>
    have hwaiting : d.waiting fd = l₁.filter (fun cqe => cqe.req.writesTo fd && cqe.short) ++
        cqe :: l₂.filter fun cqe => cqe.req.writesTo fd && cqe.short := by
      rw [waiting, hl, List.filter_append, List.filter_cons, if_pos hcut]
    -- it is the only short send to the client, and none is pending
    obtain ⟨hone, hnone⟩ : (d.waiting fd).length = 1 ∧ d.pending fd = [] := by
      rcases h.single with hnil | hone
      · simp [hwaiting] at hnil
      · exact hone
    rw [hwaiting, List.length_append, List.length_cons] at hone
    have h₁ := List.eq_nil_of_length_eq_zero (l := l₁.filter fun cqe =>
      cqe.req.writesTo fd && cqe.short) (by omega)
    have h₂ := List.eq_nil_of_length_eq_zero (l := l₂.filter fun cqe =>
      cqe.req.writesTo fd && cqe.short) (by omega)
    rw [h₁, h₂] at hwaiting hwaiting'
    obtain ⟨hto, hshort⟩ := Bool.and_eq_true_iff.mp hcut
    have hwrite := writesTo_iff.mp hto
    rcases hnew with ⟨-, -, len, rfl⟩ | ⟨hno, -⟩
    · have hpending : d'.pending fd = [⟨{ cqe.req with buf := cqe.remainder }, len⟩] := by
        have hrem : Request.writesTo { cqe.req with buf := cqe.remainder } fd = true :=
          writesTo_iff.mpr hwrite
        have hold : (d.submitted.filter fun sqe => sqe.req.writesTo fd) = [] := hnone
        rw [pending, hsub, List.filter_append, hold, List.filter_cons, if_pos hrem]
        rfl
      refine ⟨?_, Or.inl hwaiting'⟩
      have hbytes := h.bytes
      rw [hwaiting, hnone] at hbytes
      rw [hwaiting', hpending, hstreams]
      simpa using hbytes
    · exact absurd ⟨hwrite.1, hshort⟩ hno
  | false =>
    have hwaiting : d'.waiting fd = d.waiting fd := by
      rw [hwaiting', waiting, hl, List.filter_append, List.filter_cons_of_neg (by simp [hcut])]
    have hnone : ∀ x ∈ new, x.req.writesTo fd = false := by
      rcases hnew with ⟨hwrite, hshort, len, rfl⟩ | ⟨-, hno⟩
      · intro x hx
        obtain rfl := List.mem_singleton.mp hx
        have hfd : cqe.req.writesTo fd = false := by
          rw [show cqe.short = true from hshort, Bool.and_true] at hcut
          exact hcut
        exact hfd
      · exact fun x hx => writesTo_of_ne (hno x hx)
    have hout := h.append (congrFun hstreams fd) hwaiting hsub (Or.inr hnone)
    rw [List.filter_eq_nil_iff.mpr fun x hx => by simp [hnone x hx]] at hout
    simpa using hout

theorem enqueued_outbound (hs : d.Settled) (h : Outbound d fd sent)
    (hstep : d.enqueued = some d') : Outbound d' fd sent := by
  unfold enqueued at hstep
  split at hstep
  · cases hstep
  · next req msg hreader =>
    obtain rfl := Option.some.inj hstep
    refine h.congr rfl rfl ?_
    simp [pending, queueRead, delete, hs.claimed, Request.writesTo]

structure Completed (d d' : NetworkDeviceIOUring) (sqe : Sqe) (res : Int32) : Prop where
  claimed : d'.claimed = d.claimed
  completed : ∃ req, d'.completed = d.completed ++ [⟨req, res⟩] ∧ req.type = sqe.req.type ∧
    (sqe.req.type = .write → req = sqe.req)
  streams : d'.streams = if sqe.req.type = .write then Function.update d.streams sqe.req.clientFd
    (d.streams sqe.req.clientFd ++ sqe.req.buf.take res.toNatClampNeg) else d.streams

theorem complete_cases {i : ℕ} {data : List UInt8} (hstep : d.complete i res data = some d') :
    ∃ sqe, d.submitted[i]? = some sqe ∧ d'.submitted = d.submitted.eraseIdx i ∧
      Completed d d' sqe res := by
  unfold complete at hstep
  split at hstep
  · cases hstep
  · next req len hsqe =>
    refine ⟨⟨req, len⟩, hsqe, ?_⟩
    cases htype : req.type with
    | accept =>
      simp only [htype, Option.some.injEq] at hstep
      subst hstep
      exact ⟨rfl, rfl, ⟨req, rfl, rfl, fun _ => rfl⟩, by simp [htype]⟩
    | read =>
      simp only [htype] at hstep
      split_ifs at hstep
      obtain rfl := Option.some.inj hstep
      refine ⟨rfl, rfl, ⟨_, rfl, htype.symm, fun h => ?_⟩, by simp [htype]⟩
      rw [htype] at h
      cases h
    | write =>
      simp only [htype] at hstep
      split_ifs at hstep
      obtain rfl := Option.some.inj hstep
      exact ⟨rfl, rfl, ⟨req, rfl, rfl, fun _ => rfl⟩, by simp [htype]⟩

theorem complete_other {i : ℕ} {data : List UInt8} (h : Outbound d fd sent)
    (hstep : d.complete i res data = some d')
    (hother : ∀ sqe, d.submitted[i]? = some sqe → sqe.req.writesTo fd = false) :
    Outbound d' fd sent := by
  obtain ⟨sqe, hsqe, hsub, -, ⟨req, hcompleted, hreq, hsame⟩, hstreams⟩ := complete_cases hstep
  obtain ⟨l₁, l₂, hl, -, herase⟩ := split_at hsqe
  have hto := hother sqe hsqe
  refine h.congr ?_ ?_ ?_
  · rw [hstreams]
    split_ifs with hwrite
    · refine Function.update_of_ne ?_ _ _
      rintro rfl
      simp [Request.writesTo, hwrite] at hto
    · rfl
  · have hno : req.writesTo fd = false := by
      by_cases hwrite : sqe.req.type = .write
      · rw [hsame hwrite]
        exact hto
      · exact writesTo_of_ne (hreq ▸ hwrite)
    simp [waiting, hcompleted, List.filter_append, hno]
  · rw [pending, hsub, herase, pending, hl, List.filter_append, List.filter_append,
      List.filter_cons, if_neg (Bool.eq_false_iff.mp hto)]

theorem Outbound.waiting_eq_nil {sqe : Sqe} {rest : List Sqe} (h : Outbound d fd sent)
    (hpending : d.pending fd = sqe :: rest) : d.waiting fd = [] := by
  rcases h.single with hnil | ⟨-, hnil⟩
  · exact hnil
  · rw [hpending] at hnil
    cases hnil

theorem Outbound.whole {sqe : Sqe} {rest : List Sqe} (h : Outbound d fd sent)
    (hpending : d.pending fd = sqe :: rest) (hpending' : d'.pending fd = rest)
    (hstream : d'.streams fd = d.streams fd ++ sqe.req.buf) (hwaiting : d'.waiting fd = []) :
    Outbound d' fd sent := by
  refine ⟨?_, Or.inl hwaiting⟩
  have hbytes := h.bytes
  rw [h.waiting_eq_nil hpending, hpending] at hbytes
  rw [hstream, hwaiting, hpending']
  simpa using hbytes

/-- What a short send leaves over waits for its completion to be handled. -/
theorem Outbound.short {sqe : Sqe} (h : Outbound d fd sent) (hpending : d.pending fd = [sqe])
    (hpending' : d'.pending fd = [])
    (hstream : d'.streams fd = d.streams fd ++ sqe.req.buf.take res.toNatClampNeg)
    (hwaiting : d'.waiting fd = [⟨sqe.req, res⟩]) : Outbound d' fd sent := by
  refine ⟨?_, Or.inr ⟨by rw [hwaiting]; rfl, hpending'⟩⟩
  have hbytes := h.bytes
  rw [h.waiting_eq_nil hpending, hpending] at hbytes
  rw [hstream, hwaiting, hpending']
  simpa [Cqe.remainder] using hbytes

/-- A completed send leaves the pending ones and reaches the stream, or waits with its
remainder. -/
theorem complete_outbound {i : ℕ} {data : List UInt8} (h : Outbound d fd sent)
    (hstep : d.complete i res data = some d') (hord : d.inOrder (.complete i res data) = true)
    (hunb : d.unbroken (.complete i res data) = true) : Outbound d' fd sent := by
  obtain ⟨sqe, hsqe, hsub, -, ⟨req, hcompleted, -, hsame⟩, hstreams⟩ := complete_cases hstep
  obtain ⟨l₁, l₂, hl, htake, herase⟩ := split_at hsqe
  rw [herase] at hsub
  have hpending' : d'.pending fd = l₁.filter (fun sqe => sqe.req.writesTo fd) ++
      l₂.filter fun sqe => sqe.req.writesTo fd := by
    rw [pending, hsub, List.filter_append]
  cases hto : sqe.req.writesTo fd with
  | false =>
    refine complete_other h hstep ?_
    rintro sqe' hsqe'
    obtain rfl := Option.some.inj (hsqe.symm.trans hsqe')
    exact hto
  | true =>
    obtain ⟨hwrite, rfl⟩ := writesTo_iff.mp hto
    obtain rfl := hsame hwrite
    have hfirst : l₁.filter (fun x => x.req.writesTo sqe.req.clientFd) = [] := by
      rw [inOrder, hsqe, Option.all_some, decide_eq_true_eq] at hord
      rw [List.filter_eq_nil_iff]
      intro x hx
      rw [(hord.resolve_left (fun h => h hwrite)).2 x (htake ▸ hx)]
      simp
    have hpending : d.pending sqe.req.clientFd =
        sqe :: l₂.filter fun x => x.req.writesTo sqe.req.clientFd := by
      rw [pending, hl, List.filter_append, hfirst, List.filter_cons, if_pos hto]
      rfl
    rw [hfirst, List.nil_append] at hpending'
    have hold : (d.completed.filter fun cqe =>
        cqe.req.writesTo sqe.req.clientFd && cqe.short) = [] := h.waiting_eq_nil hpending
    have hstream : d'.streams sqe.req.clientFd =
        d.streams sqe.req.clientFd ++ sqe.req.buf.take res.toNatClampNeg := by
      rw [hstreams, if_pos hwrite, Function.update_self]
    cases hshort : Cqe.short ⟨sqe.req, res⟩ with
    | false =>
      have hlen : sqe.req.buf.length ≤ res.toNatClampNeg := by
        simpa [Cqe.short] using hshort
      rw [List.take_of_length_le hlen] at hstream
      refine h.whole hpending hpending' hstream ?_
      rw [waiting, hcompleted, List.filter_append, hold, List.filter_cons,
        if_neg (by simp [hshort])]
      rfl
    | true =>
      have hlt : ¬ sqe.req.buf.length ≤ res.toNatClampNeg := by
        simpa [Cqe.short] using hshort
      have hnone : d'.pending sqe.req.clientFd = [] := by
        rw [unbroken, hsqe, Option.all_some, decide_eq_true_eq, herase] at hunb
        rw [pending, hsub, List.filter_eq_nil_iff]
        intro x hx
        rw [((hunb.resolve_left fun h => h hwrite).resolve_left hlt) x hx]
        simp
      rw [← hpending', hnone] at hpending
      refine h.short hpending hnone hstream ?_
      rw [waiting, hcompleted, List.filter_append, hold, List.filter_cons,
        if_pos (by simp [hto, hshort])]
      rfl

variable {act : Action}

theorem step_settled (hs : d.Settled) (hord : d.inOrder act = true)
    (hstep : d.step act = some d') : d'.Settled := by
  cases act with
  | sendMsg message =>
    obtain rfl := Option.some.inj hstep
    unfold sendMsg
    split
    · exact hs
    · exact ⟨rfl, hs.taken⟩
  | receiveMsg i =>
    obtain ⟨cqe, l₁, l₂, hl, hclaimed, hcompleted, -, -⟩ := receiveMsg_cases hs hstep
    refine ⟨hclaimed, fun x hx => hs.taken x ?_⟩
    rw [hcompleted] at hx
    rw [hl]
    rcases List.mem_append.mp hx with hx | hx
    · exact List.mem_append_left _ hx
    · exact List.mem_append_right _ (List.mem_cons_of_mem _ hx)
  | enqueued =>
    simp only [step, enqueued] at hstep
    split at hstep
    · cases hstep
    · obtain rfl := Option.some.inj hstep
      exact ⟨rfl, hs.taken⟩
  | complete i res data =>
    obtain ⟨sqe, hsqe, -, hclaimed, ⟨req, hcompleted, hreq, -⟩, -⟩ := complete_cases hstep
    refine ⟨hclaimed.trans hs.claimed, fun x hx hwrite => ?_⟩
    rw [hcompleted] at hx
    rcases List.mem_append.mp hx with hx | hx
    · exact hs.taken x hx hwrite
    · obtain rfl := List.mem_singleton.mp hx
      rw [inOrder, hsqe, Option.all_some, decide_eq_true_eq] at hord
      exact (hord.resolve_left fun h => h (hreq ▸ hwrite)).1

theorem step_outbound (hs : d.Settled) (h : Outbound d fd sent) (hord : d.inOrder act = true)
    (hunb : d.unbroken act = true) (hstep : d.step act = some d') :
    Outbound d' fd (sent ++ sentTo fd [act]) := by
  cases act with
  | sendMsg message =>
    obtain rfl := Option.some.inj hstep
    exact sendMsg_outbound hs h hunb
  | receiveMsg i => simpa [sentTo] using receiveMsg_outbound hs h hstep
  | enqueued => simpa [sentTo] using enqueued_outbound hs h hstep
  | complete i res data => simpa [sentTo] using complete_outbound h hstep hord hunb

end Steps

section Runs

theorem claimed_accepts (fds : List Int32) (d : NetworkDeviceIOUring)
    (h : ∀ x ∈ d.claimed, x.req.type = .accept) :
    (∀ x ∈ (fds.foldl queueAccept d).claimed, x.req.type = .accept) ∧
      (fds.foldl queueAccept d).submitted = d.submitted ∧
      (fds.foldl queueAccept d).completed = d.completed ∧
      (fds.foldl queueAccept d).streams = d.streams := by
  induction fds generalizing d with
  | nil => exact ⟨h, rfl, rfl, rfl⟩
  | cons fd fds ih =>
    refine ih (d.queueAccept fd) fun x hx => ?_
    rcases List.mem_append.mp hx with hx | hx
    · exact h x hx
    · rw [List.mem_singleton.mp hx]

theorem init_outbound (listeningFds : List Int32) :
    (init listeningFds).Settled ∧ ∀ fd, Outbound (init listeningFds) fd [] := by
  obtain ⟨haccept, hsub, hcompleted, hstreams⟩ := claimed_accepts listeningFds {} (by simp)
  refine ⟨⟨rfl, ?_⟩, fun fd => ?_⟩
  · intro x hx
    rw [init, submit_completed, hcompleted] at hx
    cases hx
  · have hpending : (init listeningFds).pending fd = [] := by
      rw [init, pending, submit_submitted, hsub, List.filter_eq_nil_iff]
      intro x hx
      rw [writesTo_of_ne (by rw [haccept x hx]; decide)]
      simp
    have hwaiting : (init listeningFds).waiting fd = [] := by
      rw [init, waiting, submit_completed, hcompleted]
      rfl
    refine ⟨?_, Or.inl hwaiting⟩
    rw [hpending, hwaiting, init, submit_streams, hstreams]
    rfl

/-- While no send fails and nothing gets between a short send and its remainder, every client has
received a beginning of the messages sent to it. -/
theorem streams_in_order (listeningFds : List Int32) {acts : List Action}
    {d : NetworkDeviceIOUring}
    (hrun : ((machine listeningFds).under fun d act => d.inOrder act && d.unbroken act).run
      (init listeningFds) acts = some d) (fd : Int32) : d.streams fd <+: sentTo fd acts := by
  have hinv : d.Settled ∧ Outbound d fd (sentTo fd acts) := by
    refine Machine.run_history (Q := fun acts d => d.Settled ∧ Outbound d fd (sentTo fd acts)) ?_
      ⟨(init_outbound listeningFds).1, (init_outbound listeningFds).2 fd⟩ hrun
    rintro acts d act d' ⟨hs, h⟩ hstep
    obtain ⟨hcond, hstep⟩ := Machine.under_step.mp hstep
    obtain ⟨hord, hunb⟩ := Bool.and_eq_true_iff.mp hcond
    refine ⟨step_settled hs hord hstep, ?_⟩
    rw [sentTo, List.flatMap_append]
    exact step_outbound hs h hord hunb hstep
  exact ⟨_, by rw [← List.append_assoc]; exact hinv.2.bytes⟩

def firstResponse : OutboundMessage := (Response.cancelled [.userRefNum 1]).publish 7

def secondResponse : OutboundMessage := (Response.cancelled [.userRefNum 2]).publish 7

/-- The first response is cut, and sent to the end before the second one. -/
def resumedActs : List Action := [
  .sendMsg firstResponse, .complete 1 5 [], .receiveMsg 0, .complete 1 13 [], .receiveMsg 0,
  .sendMsg secondResponse, .complete 1 18 []]

theorem streams_in_order_resumed : ∃ d, ((machine [3]).under fun d act =>
    d.inOrder act && d.unbroken act).run (init [3]) resumedActs = some d ∧
      d.streams 7 <+: sentTo 7 resumedActs := by
  obtain ⟨d, hd⟩ := Option.isSome_iff_exists.mp (show (((machine [3]).under fun d act =>
    d.inOrder act && d.unbroken act).run (init [3]) resumedActs).isSome = true by decide +kernel)
  exact ⟨d, hd, streams_in_order [3] hd 7⟩

/-- The second response is submitted while the first one is cut. -/
def interleavedActs : List Action := [
  .sendMsg firstResponse, .sendMsg secondResponse, .complete 1 5 [], .complete 1 18 []]

/-- The second response lands in the middle of the first. -/
theorem interleaved_not_in_order : ∃ d, ((machine [3]).under inOrder).run (init [3])
    interleavedActs = some d ∧ ¬ d.streams 7 <+: sentTo 7 interleavedActs := by
  have hstream : (((machine [3]).under inOrder).run (init [3]) interleavedActs).map
      (fun d => (d.streams 7).isPrefixOf (sentTo 7 interleavedActs)) = some false := by
    decide +kernel
  obtain ⟨d, hd, hno⟩ := Option.map_eq_some_iff.mp hstream
  refine ⟨d, hd, fun h => ?_⟩
  rw [List.isPrefixOf_iff_prefix.mpr h] at hno
  cases hno

end Runs

end NetworkDeviceIOUring

end LowLevel.Network
