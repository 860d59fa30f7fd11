import LowLevel.Foundations.Reassembly
import LowLevel.Wire.Codec

/-! # The outbound stream

A response is built, copied into the fixed payload of the outgoing queue, sent
with a length chosen by its type byte, and cut out of the received bytes by the
client's reader with a length it chooses from the same byte. The lengths are
written down in four places and agree.
-/

namespace LowLevel.Wire

/-- The size of the outgoing payload; the source takes the maximum over three of four types. -/
abbrev outSize : ℕ :=
  max (max AcceptResponseView.WIRE_SIZE CancelledResponseView.WIRE_SIZE)
    ExecutedResponseView.WIRE_SIZE

structure OutboundMessage where
  account : UInt32
  bytes : Vector UInt8 outSize

def publish {n : ℕ} (account : UInt32) (bytes : Vector UInt8 n)
    (h : 0 + n ≤ outSize := by decide) : OutboundMessage :=
  ⟨account, write (.replicate outSize 0) 0 n (window bytes 0) h⟩

inductive Response where
  | accept (calls : List AcceptResponseBuilder.Setter)
  | executed (calls : List ExecutedResponseBuilder.Setter)
  | cancelled (calls : List CancelledResponseBuilder.Setter)
  | cancelReject (calls : List CancelRejectResponseBuilder.Setter)

namespace Response

def publish (account : UInt32) : Response → OutboundMessage
  | accept calls => Wire.publish account (acceptResponse.build calls).bytes
  | executed calls => Wire.publish account (executedResponse.build calls).bytes
  | cancelled calls => Wire.publish account (cancelledResponse.build calls).bytes
  | cancelReject calls => Wire.publish account (cancelRejectResponse.build calls).bytes

/-- The type of a response and the reference number set last. -/
def key : Response → UInt8 × UInt32
  | accept calls => (AcceptResponseView.TYPE, (calls.foldl AcceptResponse.set {}).userRefNum)
  | executed calls => (ExecutedResponseView.TYPE, (calls.foldl ExecutedResponse.set {}).userRefNum)
  | cancelled calls =>
    (CancelledResponseView.TYPE, (calls.foldl CancelledResponse.set {}).userRefNum)
  | cancelReject calls =>
    (CancelRejectResponseView.TYPE, (calls.foldl CancelRejectResponse.set {}).userRefNum)

end Response

/-- The length that is sent for a type byte; other bytes are refused. -/
def sendSize (type : UInt8) : Option ℕ :=
  if type = 'A'.toUInt8 then some AcceptResponseView.WIRE_SIZE
  else if type = 'C'.toUInt8 then some CancelledResponseView.WIRE_SIZE
  else if type = 'I'.toUInt8 then some CancelRejectResponseView.WIRE_SIZE
  else if type = 'E'.toUInt8 then some ExecutedResponseView.WIRE_SIZE
  else none

def OutboundMessage.wire (m : OutboundMessage) : Option (List UInt8) :=
  (sendSize (window m.bytes 0 0)).map fun size => m.bytes.toList.take size

/-- The bytes of a sequence of messages, each written as a whole. -/
def delivered (ms : List OutboundMessage) : Option (List UInt8) :=
  (ms.mapM OutboundMessage.wire).map List.flatten

namespace ResponseReader

inductive Fault where
  | unknownType
  | outOfBounds
  | nonTermination
  deriving DecidableEq

def responseSize (type : UInt8) : Except Fault ℕ :=
  if type = AcceptResponseView.TYPE then .ok AcceptResponseView.WIRE_SIZE
  else if type = CancelledResponseView.TYPE then .ok CancelledResponseView.WIRE_SIZE
  else if type = CancelRejectResponseView.TYPE then .ok CancelRejectResponseView.WIRE_SIZE
  else if type = ExecutedResponseView.TYPE then .ok ExecutedResponseView.WIRE_SIZE
  else .error .unknownType

/-- Take a response off the buffered bytes, if it is there as a whole. -/
def popResponse : List UInt8 → Except Fault (Option ((UInt8 × UInt32) × List UInt8))
  | [] => .ok none
  | type :: rest => do
    let size ← responseSize type
    let buffered := (type :: rest).toArray.toVector
    if rest.length + 1 < size then return none
    else if h : 9 + 4 ≤ (type :: rest).toArray.size then
      return some ((type, loadBe32 buffered 9 h), (type :: rest).drop size)
    else throw .outOfBounds

end ResponseReader

open ResponseReader

variable {n : ℕ} {b : Vector UInt8 n} {t : UInt8} {l : List UInt8}

theorem toList_eq_cons (hn : 0 < n) (hb : window b 0 0 = t) : ∃ tl, b.toList = t :: tl := by
  obtain ⟨x, tl, hx⟩ := List.exists_cons_of_ne_nil (List.ne_nil_of_length_pos
    (by rwa [Vector.length_toList] : 0 < b.toList.length))
  refine ⟨tl, ?_⟩
  rw [window, ← Vector.getElem?_toList, hx] at hb
  rw [hx, ← hb]
  rfl

theorem popResponse_short (hb : window b 0 0 = t) (hs : responseSize t = .ok n)
    (hl : l <+: b.toList) (hlen : l.length < b.toList.length) : popResponse l = .ok none := by
  rw [Vector.length_toList] at hlen
  cases l with
  | nil => rfl
  | cons x rest =>
    obtain ⟨tl, htl⟩ := toList_eq_cons (by omega) hb
    rw [htl, List.cons_prefix_cons] at hl
    obtain ⟨rfl, -⟩ := hl
    rw [popResponse, hs]
    simp only [List.length_cons] at hlen
    simp [bind, Except.bind, hlen, pure, Except.pure]

theorem popResponse_full (hb : window b 0 0 = t) (hs : responseSize t = .ok n) (hn : 9 + 4 ≤ n)
    (l : List UInt8) :
    popResponse (b.toList ++ l) = .ok (some ((t, loadBe32 b 9 hn), l)) := by
  obtain ⟨tl, htl⟩ := toList_eq_cons (by omega) hb
  have hlen : b.toList.length = n := Vector.length_toList
  rw [htl, List.length_cons] at hlen
  have hload : ∀ h, loadBe32 (t :: (tl ++ l)).toArray.toVector 9 h = loadBe32 b 9 hn := by
    intro h
    unfold loadBe32 loadBe
    congr 2
    apply ofBytes_congr
    intro i hi
    have hin : 9 + i < b.toList.length := by rw [Vector.length_toList]; omega
    have happend : (b.toList ++ l)[9 + i]? = b.toList[9 + i]? := List.getElem?_append_left hin
    rw [window, window, ← Vector.getElem?_toList, ← Vector.getElem?_toList, ← happend, htl]
    simp
  rw [htl, List.cons_append, popResponse, hs]
  have hsize : ¬ (tl ++ l).length + 1 < n := by rw [List.length_append]; omega
  have hbound : 9 + 4 ≤ (t :: (tl ++ l)).toArray.size := by simp; omega
  simp only [bind, Except.bind, hsize, if_false, hbound, dif_pos, hload, pure, Except.pure]
  have hdrop : (t :: (tl ++ l)).drop n = l := by rw [← hlen]; simp
  rw [hdrop]

/-- A published message is sent as the bytes that were built, whenever the send switch knows
its type by its length. -/
theorem wire_publish (account : UInt32) (h : 0 + n ≤ outSize) (hn : 0 < n)
    (hb : window b 0 0 = t) (hs : sendSize t = some n) :
    (publish account b h).wire = some b.toList := by
  have htype : window (publish account b h).bytes 0 0 = t := by
    rw [publish, window_write_self h hn, hb]
  have htake : (publish account b h).bytes.toList.take n = b.toList := by
    apply List.ext_getElem?
    intro i
    by_cases hi : i < n
    · have hbytes := window_write_self (b := .replicate outSize 0) (f := window b 0) h hi
      have hout : i < outSize := by omega
      rw [window, Nat.zero_add, window, Nat.zero_add, Vector.getElem?_eq_getElem hout,
        Vector.getElem?_eq_getElem hi] at hbytes
      rw [List.getElem?_take_of_lt hi, Vector.getElem?_toList, Vector.getElem?_toList, publish,
        Vector.getElem?_eq_getElem hout, Vector.getElem?_eq_getElem hi]
      exact congrArg some hbytes
    · rw [List.getElem?_eq_none (by simp; omega), List.getElem?_eq_none (by simp; omega)]
  rw [OutboundMessage.wire, htype, hs, Option.map_some, htake]

namespace Response

def bytes : Response → List UInt8
  | accept calls => (acceptResponse.build calls).bytes.toList
  | executed calls => (executedResponse.build calls).bytes.toList
  | cancelled calls => (cancelledResponse.build calls).bytes.toList
  | cancelReject calls => (cancelRejectResponse.build calls).bytes.toList

theorem wire_publish (account : UInt32) (r : Response) :
    (r.publish account).wire = some r.bytes := by
  cases r with
  | accept calls =>
    exact Wire.wire_publish account _ (by decide) (acceptResponse_roundTrips.type_build calls) rfl
  | executed calls =>
    exact Wire.wire_publish account _ (by decide) (executedResponse_roundTrips.type_build calls) rfl
  | cancelled calls =>
    exact Wire.wire_publish account _ (by decide) (cancelledResponse_roundTrips.type_build calls)
      rfl
  | cancelReject calls =>
    exact Wire.wire_publish account _ (by decide)
      (cancelRejectResponse_roundTrips.type_build calls) rfl

/-- A response is the bytes of a message whose type byte determines their number, with the
reference number at its common offset. -/
theorem bytes_eq (r : Response) : ∃ (n : ℕ) (b : Vector UInt8 n) (h : 9 + 4 ≤ n),
    r.bytes = b.toList ∧ window b 0 0 = r.key.1 ∧ responseSize r.key.1 = .ok n ∧
      loadBe32 b 9 h = r.key.2 := by
  cases r with
  | accept calls =>
    exact ⟨_, _, by decide, rfl, acceptResponse_roundTrips.type_build calls, rfl,
      congrArg AcceptResponse.userRefNum (acceptResponse_roundTrips.fields_build calls)⟩
  | executed calls =>
    exact ⟨_, _, by decide, rfl, executedResponse_roundTrips.type_build calls, rfl,
      congrArg ExecutedResponse.userRefNum (executedResponse_roundTrips.fields_build calls)⟩
  | cancelled calls =>
    exact ⟨_, _, by decide, rfl, cancelledResponse_roundTrips.type_build calls, rfl,
      congrArg CancelledResponse.userRefNum (cancelledResponse_roundTrips.fields_build calls)⟩
  | cancelReject calls =>
    exact ⟨_, _, by decide, rfl, cancelRejectResponse_roundTrips.type_build calls, rfl,
      congrArg CancelRejectResponse.userRefNum
        (cancelRejectResponse_roundTrips.fields_build calls)⟩

theorem selfDelimiting : SelfDelimiting bytes key popResponse := by
  constructor
  case empty => rfl
  case short =>
    intro r l hl hlen
    obtain ⟨n, b, -, hbytes, htype, hsize, -⟩ := r.bytes_eq
    rw [hbytes] at hl hlen
    exact popResponse_short htype hsize hl hlen
  case full =>
    intro r l
    obtain ⟨n, b, hn, hbytes, htype, hsize, hload⟩ := r.bytes_eq
    rw [hbytes, popResponse_full htype hsize hn, hload]
  case nonempty =>
    intro r hnil
    obtain ⟨n, b, hn, hbytes, -⟩ := r.bytes_eq
    have hlen : b.toList.length = n := Vector.length_toList
    rw [← hbytes, hnil, List.length_nil] at hlen
    omega

theorem delivered_publish (account : UInt32) (rs : List Response) :
    delivered (rs.map (publish account)) = some (rs.flatMap bytes) := by
  have hmap : (rs.map (publish account)).mapM OutboundMessage.wire = some (rs.map bytes) := by
    induction rs with
    | nil => rfl
    | cons r rs ih => simp [r.wire_publish, ih]
  rw [delivered, hmap, Option.map_some, List.flatMap_def]

end Response

/-- The responses of one account come out of the client's reader as they were published, in order
and each once, however the stream is cut into chunks and whenever the reader looks for a response;
the unknown-type error is never raised, and draining the reader leaves its buffer empty. -/
theorem responses_delivered (account : UInt32) (rs : List Response) :
    ∃ bytes, delivered (rs.map (Response.publish account)) = some bytes ∧
      ∀ acts, Reassembly.received acts = bytes →
        ∃ r, Reassembly.Receiver.run popResponse acts {} = .ok r ∧
          r.popped <+: rs.map Response.key ∧
          r.drain popResponse .nonTermination (r.buffered.length + 1) =
            .ok ⟨[], rs.map Response.key⟩ :=
  ⟨_, Response.delivered_publish account rs, fun _ hacts =>
    Response.selfDelimiting.run_drain _ hacts⟩

end LowLevel.Wire
