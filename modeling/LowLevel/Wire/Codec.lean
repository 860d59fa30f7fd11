import LowLevel.Wire.Messages
import Mathlib.Data.List.Forall2
import Mathlib.Data.List.Induction

/-! # Round trips of the codec

Every setter writes exactly the bytes that the accessor of its field reads, and
the fields of a message tile its buffer. A built message therefore decodes to
the values set last, and a received one is rebuilt byte for byte from what its
accessors return.
-/

namespace LowLevel.Wire

/-- A message type with its view and builder, and the record of its fields. -/
structure MessageType where
  wireSize : ℕ
  type : UInt8
  pos : 0 + 1 ≤ wireSize
  Setter : Type
  Fields : Type
  call : Builder wireSize type → Setter → Builder wireSize type
  fields : View wireSize type → Fields
  set : Fields → Setter → Fields
  unset : Fields
  setters : Fields → List Setter
  select : View wireSize type → UOUCHMessage

namespace MessageType

variable (T : MessageType)

def build (calls : List T.Setter) : Builder T.wireSize T.type :=
  calls.foldl T.call (.fresh T.wireSize T.type T.pos)

/-- What was set last is what is read, whatever the order and number of the calls; and calling
every setter with what was read, in any order, gives the bytes that were read. -/
structure RoundTrips : Prop where
  type_build : ∀ calls, window (T.build calls).bytes 0 0 = T.type
  decode_build : ∀ calls, decode (T.build calls).bytes = some (T.select ⟨(T.build calls).bytes⟩)
  fields_build : ∀ calls, T.fields ⟨(T.build calls).bytes⟩ = calls.foldl T.set T.unset
  build_fields : ∀ (buf : Vector UInt8 T.wireSize) calls, window buf 0 0 = T.type →
    (∀ c, c ∈ calls ↔ c ∈ T.setters (T.fields ⟨buf⟩)) → (T.build calls).bytes = buf

end MessageType

def enterRequest : MessageType where
  wireSize := EnterRequestView.WIRE_SIZE
  type := EnterRequestView.TYPE
  pos := by decide
  Setter := EnterRequestBuilder.Setter
  Fields := EnterRequest
  call := EnterRequestBuilder.call
  fields := EnterRequestView.fields
  set := EnterRequest.set
  unset := {}
  setters := EnterRequest.setters
  select := .enter

def cancelRequest : MessageType where
  wireSize := CancelRequestView.WIRE_SIZE
  type := CancelRequestView.TYPE
  pos := by decide
  Setter := CancelRequestBuilder.Setter
  Fields := CancelRequest
  call := CancelRequestBuilder.call
  fields := CancelRequestView.fields
  set := CancelRequest.set
  unset := {}
  setters := CancelRequest.setters
  select := .cancel

def acceptResponse : MessageType where
  wireSize := AcceptResponseView.WIRE_SIZE
  type := AcceptResponseView.TYPE
  pos := by decide
  Setter := AcceptResponseBuilder.Setter
  Fields := AcceptResponse
  call := AcceptResponseBuilder.call
  fields := AcceptResponseView.fields
  set := AcceptResponse.set
  unset := {}
  setters := AcceptResponse.setters
  select := .accept

def cancelledResponse : MessageType where
  wireSize := CancelledResponseView.WIRE_SIZE
  type := CancelledResponseView.TYPE
  pos := by decide
  Setter := CancelledResponseBuilder.Setter
  Fields := CancelledResponse
  call := CancelledResponseBuilder.call
  fields := CancelledResponseView.fields
  set := CancelledResponse.set
  unset := {}
  setters := CancelledResponse.setters
  select := .cancelled

def cancelRejectResponse : MessageType where
  wireSize := CancelRejectResponseView.WIRE_SIZE
  type := CancelRejectResponseView.TYPE
  pos := by decide
  Setter := CancelRejectResponseBuilder.Setter
  Fields := CancelRejectResponse
  call := CancelRejectResponseBuilder.call
  fields := CancelRejectResponseView.fields
  set := CancelRejectResponse.set
  unset := {}
  setters := CancelRejectResponse.setters
  select := .cancelReject

def executedResponse : MessageType where
  wireSize := ExecutedResponseView.WIRE_SIZE
  type := ExecutedResponseView.TYPE
  pos := by decide
  Setter := ExecutedResponseBuilder.Setter
  Fields := ExecutedResponse
  call := ExecutedResponseBuilder.call
  fields := ExecutedResponseView.fields
  set := ExecutedResponse.set
  unset := {}
  setters := ExecutedResponse.setters
  select := .executed

namespace MessageType

variable {T : MessageType}

/-- The obligations of one message type: how a setter acts on the fields and on the type byte,
what a fresh builder reads as, and which windows the setters copy. -/
structure Layout (T : MessageType) (windows : List (ℕ × ℕ)) : Prop where
  fields_fresh : T.fields ⟨(Builder.fresh T.wireSize T.type T.pos).bytes⟩ = T.unset
  fields_call : ∀ b c, T.fields ⟨(T.call b c).bytes⟩ = T.set (T.fields ⟨b.bytes⟩) c
  type_call : ∀ b c, window (T.call b c).bytes 0 0 = window b.bytes 0 0
  decode_type : ∀ buf : Vector UInt8 T.wireSize, window buf 0 0 = T.type →
    decode buf = some (T.select ⟨buf⟩)
  copies : ∀ buf, List.Forall₂ (fun c x => Copies (fun b => (T.call ⟨b⟩ c).bytes) buf x.1 x.2)
    (T.setters (T.fields ⟨buf⟩)) windows
  covers : ∀ i < T.wireSize, i = 0 ∨ ∃ x ∈ windows, x.1 ≤ i ∧ i < x.1 + x.2

variable {windows : List (ℕ × ℕ)}

theorem type_fresh (T : MessageType) :
    window (Builder.fresh T.wireSize T.type T.pos).bytes 0 0 = T.type :=
  window_write_self (f := fun _ => T.type) T.pos Nat.one_pos

theorem Layout.type_build (h : T.Layout windows) (calls : List T.Setter) :
    window (T.build calls).bytes 0 0 = T.type := by
  induction calls using List.reverseRecOn with
  | nil => exact T.type_fresh
  | append_singleton calls c ih =>
    rw [build, List.foldl_concat]
    exact (h.type_call _ c).trans ih

theorem Layout.fields_build (h : T.Layout windows) (calls : List T.Setter) :
    T.fields ⟨(T.build calls).bytes⟩ = calls.foldl T.set T.unset := by
  induction calls using List.reverseRecOn with
  | nil => exact h.fields_fresh
  | append_singleton calls c ih =>
    rw [build, List.foldl_concat, List.foldl_concat, h.fields_call, ← ih]
    rfl

theorem build_eq_foldl (calls : List T.Setter) (b : Builder T.wireSize T.type) :
    (calls.foldl T.call b).bytes =
      (calls.map fun c b => (T.call ⟨b⟩ c).bytes).foldl (fun b op => op b) b.bytes := by
  induction calls generalizing b with
  | nil => rfl
  | cons c calls ih => exact ih _

theorem Layout.roundTrips (h : T.Layout windows) : T.RoundTrips := by
  constructor
  case type_build => exact h.type_build
  case decode_build => exact fun calls => h.decode_type _ (h.type_build calls)
  case fields_build => exact h.fields_build
  case build_fields =>
    intro buf calls htype hcalls
    have hcopies := h.copies buf
    rw [build, build_eq_foldl]
    apply foldl_copies
    · simp only [List.forall_mem_map]
      intro c hc
      obtain ⟨i, hi, rfl⟩ := List.getElem_of_mem ((hcalls c).mp hc)
      have hlen := hcopies.length_eq
      exact ⟨_, _, (List.forall₂_iff_get.mp hcopies).2 i hi (by omega)⟩
    · intro i hi
      rcases h.covers i hi with rfl | ⟨x, hx, hin⟩
      · left
        have heq := T.type_fresh.trans htype.symm
        simpa [window, Vector.getElem?_eq_getElem hi] using heq
      · right
        obtain ⟨k, hk, rfl⟩ := List.getElem_of_mem hx
        have hlen := hcopies.length_eq
        refine ⟨_, List.mem_map.mpr ⟨(T.setters (T.fields ⟨buf⟩))[k],
          (hcalls _).mpr (List.getElem_mem _), rfl⟩, _, _, ?_, hin⟩
        exact (List.forall₂_iff_get.mp hcopies).2 k (by omega) hk

end MessageType

theorem viewAt_self {n : ℕ} (buf : Vector UInt8 n) (type : UInt8) :
    viewAt buf n type = some ⟨buf⟩ := by
  have heq : Vector.ofFn (fun i : Fin n => window buf 0 i) = buf := by
    apply Vector.ext
    intro i hi
    simp [window]
  rw [viewAt, if_pos le_rfl, heq]

attribute [local simp] storeBe16 storeBe32 storeBe64 storeBe storeChar storeStr_eq
  loadBe16_write loadBe32_write loadBe64_write loadChar_write loadStr_write

attribute [local irreducible] storeStr

section EnterRequest

attribute [local simp] EnterRequestView.userRefNum EnterRequestView.side EnterRequestView.quantity
  EnterRequestView.symbol EnterRequestView.price EnterRequestView.timeInForce
  EnterRequestView.display EnterRequestView.capacity EnterRequestView.interMarketSweepElig
  EnterRequestView.crossType EnterRequestView.clOrdID EnterRequestView.appendageLength
  EnterRequestBuilder.userRefNum EnterRequestBuilder.side EnterRequestBuilder.quantity
  EnterRequestBuilder.symbol EnterRequestBuilder.price EnterRequestBuilder.timeInForce
  EnterRequestBuilder.display EnterRequestBuilder.capacity EnterRequestBuilder.interMarketSweepElig
  EnterRequestBuilder.crossType EnterRequestBuilder.clOrdID EnterRequestBuilder.appendageLength

theorem EnterRequestView.fields_call (b : EnterRequestBuilder)
    (c : EnterRequestBuilder.Setter) :
    fields ⟨(b.call c).buf⟩ = (fields ⟨b.buf⟩).set c := by
  cases c <;>
    simp (disch := decide) [EnterRequestBuilder.call, fields, EnterRequest.set]

theorem EnterRequestBuilder.type_call (b : EnterRequestBuilder) (c : Setter) :
    loadChar (b.call c).buf 0 = loadChar b.buf 0 := by
  cases c <;> simp (disch := decide) [call]

theorem EnterRequestView.fields_fresh :
    fields ⟨(Builder.fresh WIRE_SIZE TYPE).buf⟩ = {} := by
  simp (disch := decide) [Builder.fresh, fields]

theorem EnterRequestView.decode_type (buf : Vector UInt8 WIRE_SIZE)
    (h : window buf 0 0 = TYPE) :
    decode buf = some (.enter ⟨buf⟩) := by
  rw [decode, h, viewAt_self]
  rfl

theorem EnterRequestView.copies (buf : Vector UInt8 WIRE_SIZE) :
    List.Forall₂
      (fun c x => Copies (fun b => (EnterRequestBuilder.call ⟨b⟩ c).buf) buf x.1 x.2)
      (fields ⟨buf⟩).setters
      [(1, 4), (5, 1), (6, 4), (10, 8), (18, 8), (26, 1), (27, 1), (28, 1), (29, 1), (30, 1),
        (31, 14), (45, 2)] := by
  simp only [EnterRequest.setters, fields, EnterRequestBuilder.call,
    List.forall₂_cons, List.Forall₂.nil, and_true]
  exact ⟨copies_storeBe32 (by decide), copies_storeEnum (by decide), copies_storeBe32 (by decide),
    copies_storeStr (by decide), copies_storeBe64 (by decide), copies_storeEnum (by decide),
    copies_storeEnum (by decide), copies_storeEnum (by decide), copies_storeEnum (by decide),
    copies_storeEnum (by decide), copies_storeStr (by decide), copies_storeBe16 (by decide)⟩

theorem enterRequest_roundTrips : enterRequest.RoundTrips :=
  MessageType.Layout.roundTrips {
    fields_fresh := EnterRequestView.fields_fresh
    fields_call := EnterRequestView.fields_call
    type_call := EnterRequestBuilder.type_call
    decode_type := EnterRequestView.decode_type
    copies := EnterRequestView.copies
    covers := by decide }

end EnterRequest

section CancelRequest

attribute [local simp] CancelRequestView.userRefNum CancelRequestView.quantity
  CancelRequestBuilder.userRefNum CancelRequestBuilder.quantity

theorem CancelRequestView.fields_call (b : CancelRequestBuilder)
    (c : CancelRequestBuilder.Setter) :
    fields ⟨(b.call c).buf⟩ = (fields ⟨b.buf⟩).set c := by
  cases c <;>
    simp (disch := decide) [CancelRequestBuilder.call, fields, CancelRequest.set]

theorem CancelRequestBuilder.type_call (b : CancelRequestBuilder) (c : Setter) :
    loadChar (b.call c).buf 0 = loadChar b.buf 0 := by
  cases c <;> simp (disch := decide) [call]

theorem CancelRequestView.fields_fresh :
    fields ⟨(Builder.fresh WIRE_SIZE TYPE).buf⟩ = {} := by
  simp (disch := decide) [Builder.fresh, fields]

theorem CancelRequestView.decode_type (buf : Vector UInt8 WIRE_SIZE)
    (h : window buf 0 0 = TYPE) :
    decode buf = some (.cancel ⟨buf⟩) := by
  rw [decode, h, viewAt_self]
  rfl

theorem CancelRequestView.copies (buf : Vector UInt8 WIRE_SIZE) :
    List.Forall₂
      (fun c x => Copies (fun b => (CancelRequestBuilder.call ⟨b⟩ c).buf) buf x.1 x.2)
      (fields ⟨buf⟩).setters
      [(1, 4), (5, 4)] := by
  simp only [CancelRequest.setters, fields, CancelRequestBuilder.call,
    List.forall₂_cons, List.Forall₂.nil, and_true]
  exact ⟨copies_storeBe32 (by decide), copies_storeBe32 (by decide)⟩

theorem cancelRequest_roundTrips : cancelRequest.RoundTrips :=
  MessageType.Layout.roundTrips {
    fields_fresh := CancelRequestView.fields_fresh
    fields_call := CancelRequestView.fields_call
    type_call := CancelRequestBuilder.type_call
    decode_type := CancelRequestView.decode_type
    copies := CancelRequestView.copies
    covers := by decide }

end CancelRequest

section AcceptResponse

attribute [local simp] AcceptResponseView.timestamp AcceptResponseView.userRefNum
  AcceptResponseView.side AcceptResponseView.quantity AcceptResponseView.symbol
  AcceptResponseView.price AcceptResponseView.timeInForce AcceptResponseView.display
  AcceptResponseView.orderReferenceNumber AcceptResponseView.capacity
  AcceptResponseView.interMarketSweepElig AcceptResponseView.crossType
  AcceptResponseView.orderState AcceptResponseView.clOrdID AcceptResponseView.appendageLength
  AcceptResponseBuilder.timestamp AcceptResponseBuilder.userRefNum AcceptResponseBuilder.side
  AcceptResponseBuilder.quantity AcceptResponseBuilder.symbol AcceptResponseBuilder.price
  AcceptResponseBuilder.timeInForce AcceptResponseBuilder.display
  AcceptResponseBuilder.orderReferenceNumber AcceptResponseBuilder.capacity
  AcceptResponseBuilder.interMarketSweepElig AcceptResponseBuilder.crossType
  AcceptResponseBuilder.orderState AcceptResponseBuilder.clOrdID
  AcceptResponseBuilder.appendageLength

theorem AcceptResponseView.fields_call (b : AcceptResponseBuilder)
    (c : AcceptResponseBuilder.Setter) :
    fields ⟨(b.call c).buf⟩ = (fields ⟨b.buf⟩).set c := by
  cases c <;>
    simp (disch := decide) [AcceptResponseBuilder.call, fields, AcceptResponse.set]

theorem AcceptResponseBuilder.type_call (b : AcceptResponseBuilder) (c : Setter) :
    loadChar (b.call c).buf 0 = loadChar b.buf 0 := by
  cases c <;> simp (disch := decide) [call]

theorem AcceptResponseView.fields_fresh :
    fields ⟨(Builder.fresh WIRE_SIZE TYPE).buf⟩ = {} := by
  simp (disch := decide) [Builder.fresh, fields]

theorem AcceptResponseView.decode_type (buf : Vector UInt8 WIRE_SIZE)
    (h : window buf 0 0 = TYPE) :
    decode buf = some (.accept ⟨buf⟩) := by
  rw [decode, h, viewAt_self]
  rfl

theorem AcceptResponseView.copies (buf : Vector UInt8 WIRE_SIZE) :
    List.Forall₂
      (fun c x => Copies (fun b => (AcceptResponseBuilder.call ⟨b⟩ c).buf) buf x.1 x.2)
      (fields ⟨buf⟩).setters
      [(1, 8), (9, 4), (13, 1), (14, 4), (18, 8), (26, 8), (34, 1), (35, 1), (36, 8), (44, 1),
        (45, 1), (46, 1), (47, 1), (48, 14), (62, 2)] := by
  simp only [AcceptResponse.setters, fields, AcceptResponseBuilder.call,
    List.forall₂_cons, List.Forall₂.nil, and_true]
  exact ⟨copies_storeBe64 (by decide), copies_storeBe32 (by decide), copies_storeEnum (by decide),
    copies_storeBe32 (by decide), copies_storeStr (by decide), copies_storeBe64 (by decide),
    copies_storeEnum (by decide), copies_storeEnum (by decide), copies_storeBe64 (by decide),
    copies_storeChar (by decide), copies_storeEnum (by decide), copies_storeEnum (by decide),
    copies_storeEnum (by decide), copies_storeStr (by decide), copies_storeBe16 (by decide)⟩

theorem acceptResponse_roundTrips : acceptResponse.RoundTrips :=
  MessageType.Layout.roundTrips {
    fields_fresh := AcceptResponseView.fields_fresh
    fields_call := AcceptResponseView.fields_call
    type_call := AcceptResponseBuilder.type_call
    decode_type := AcceptResponseView.decode_type
    copies := AcceptResponseView.copies
    covers := by decide }

end AcceptResponse

section CancelledResponse

attribute [local simp] CancelledResponseView.timestamp CancelledResponseView.userRefNum
  CancelledResponseView.quantity CancelledResponseView.reason CancelledResponseBuilder.timestamp
  CancelledResponseBuilder.userRefNum CancelledResponseBuilder.quantity
  CancelledResponseBuilder.reason

theorem CancelledResponseView.fields_call (b : CancelledResponseBuilder)
    (c : CancelledResponseBuilder.Setter) :
    fields ⟨(b.call c).buf⟩ = (fields ⟨b.buf⟩).set c := by
  cases c <;>
    simp (disch := decide) [CancelledResponseBuilder.call, fields, CancelledResponse.set]

theorem CancelledResponseBuilder.type_call (b : CancelledResponseBuilder) (c : Setter) :
    loadChar (b.call c).buf 0 = loadChar b.buf 0 := by
  cases c <;> simp (disch := decide) [call]

theorem CancelledResponseView.fields_fresh :
    fields ⟨(Builder.fresh WIRE_SIZE TYPE).buf⟩ = {} := by
  simp (disch := decide) [Builder.fresh, fields]

theorem CancelledResponseView.decode_type (buf : Vector UInt8 WIRE_SIZE)
    (h : window buf 0 0 = TYPE) :
    decode buf = some (.cancelled ⟨buf⟩) := by
  rw [decode, h, viewAt_self]
  rfl

theorem CancelledResponseView.copies (buf : Vector UInt8 WIRE_SIZE) :
    List.Forall₂
      (fun c x => Copies (fun b => (CancelledResponseBuilder.call ⟨b⟩ c).buf) buf x.1 x.2)
      (fields ⟨buf⟩).setters
      [(1, 8), (9, 4), (13, 4), (17, 1)] := by
  simp only [CancelledResponse.setters, fields, CancelledResponseBuilder.call,
    List.forall₂_cons, List.Forall₂.nil, and_true]
  exact ⟨copies_storeBe64 (by decide), copies_storeBe32 (by decide), copies_storeBe32 (by decide),
    copies_storeChar (by decide)⟩

theorem cancelledResponse_roundTrips : cancelledResponse.RoundTrips :=
  MessageType.Layout.roundTrips {
    fields_fresh := CancelledResponseView.fields_fresh
    fields_call := CancelledResponseView.fields_call
    type_call := CancelledResponseBuilder.type_call
    decode_type := CancelledResponseView.decode_type
    copies := CancelledResponseView.copies
    covers := by decide }

end CancelledResponse

section CancelRejectResponse

attribute [local simp] CancelRejectResponseView.timestamp CancelRejectResponseView.userRefNum
  CancelRejectResponseView.appendageLength CancelRejectResponseBuilder.timestamp
  CancelRejectResponseBuilder.userRefNum CancelRejectResponseBuilder.appendageLength

theorem CancelRejectResponseView.fields_call (b : CancelRejectResponseBuilder)
    (c : CancelRejectResponseBuilder.Setter) :
    fields ⟨(b.call c).buf⟩ = (fields ⟨b.buf⟩).set c := by
  cases c <;>
    simp (disch := decide) [CancelRejectResponseBuilder.call, fields, CancelRejectResponse.set]

theorem CancelRejectResponseBuilder.type_call (b : CancelRejectResponseBuilder) (c : Setter) :
    loadChar (b.call c).buf 0 = loadChar b.buf 0 := by
  cases c <;> simp (disch := decide) [call]

theorem CancelRejectResponseView.fields_fresh :
    fields ⟨(Builder.fresh WIRE_SIZE TYPE).buf⟩ = {} := by
  simp (disch := decide) [Builder.fresh, fields]

theorem CancelRejectResponseView.decode_type (buf : Vector UInt8 WIRE_SIZE)
    (h : window buf 0 0 = TYPE) :
    decode buf = some (.cancelReject ⟨buf⟩) := by
  rw [decode, h, viewAt_self]
  rfl

theorem CancelRejectResponseView.copies (buf : Vector UInt8 WIRE_SIZE) :
    List.Forall₂
      (fun c x => Copies (fun b => (CancelRejectResponseBuilder.call ⟨b⟩ c).buf) buf x.1 x.2)
      (fields ⟨buf⟩).setters
      [(1, 8), (9, 4), (13, 2)] := by
  simp only [CancelRejectResponse.setters, fields, CancelRejectResponseBuilder.call,
    List.forall₂_cons, List.Forall₂.nil, and_true]
  exact ⟨copies_storeBe64 (by decide), copies_storeBe32 (by decide), copies_storeBe16 (by decide)⟩

theorem cancelRejectResponse_roundTrips : cancelRejectResponse.RoundTrips :=
  MessageType.Layout.roundTrips {
    fields_fresh := CancelRejectResponseView.fields_fresh
    fields_call := CancelRejectResponseView.fields_call
    type_call := CancelRejectResponseBuilder.type_call
    decode_type := CancelRejectResponseView.decode_type
    copies := CancelRejectResponseView.copies
    covers := by decide }

end CancelRejectResponse

section ExecutedResponse

attribute [local simp] ExecutedResponseView.timestamp ExecutedResponseView.userRefNum
  ExecutedResponseView.quantity ExecutedResponseView.price ExecutedResponseView.liquidityFlag
  ExecutedResponseView.matchNumber ExecutedResponseView.appendageLength
  ExecutedResponseBuilder.timestamp ExecutedResponseBuilder.userRefNum
  ExecutedResponseBuilder.quantity ExecutedResponseBuilder.price
  ExecutedResponseBuilder.liquidityFlag ExecutedResponseBuilder.matchNumber
  ExecutedResponseBuilder.appendageLength

theorem ExecutedResponseView.fields_call (b : ExecutedResponseBuilder)
    (c : ExecutedResponseBuilder.Setter) :
    fields ⟨(b.call c).buf⟩ = (fields ⟨b.buf⟩).set c := by
  cases c <;>
    simp (disch := decide) [ExecutedResponseBuilder.call, fields, ExecutedResponse.set]

theorem ExecutedResponseBuilder.type_call (b : ExecutedResponseBuilder) (c : Setter) :
    loadChar (b.call c).buf 0 = loadChar b.buf 0 := by
  cases c <;> simp (disch := decide) [call]

theorem ExecutedResponseView.fields_fresh :
    fields ⟨(Builder.fresh WIRE_SIZE TYPE).buf⟩ = {} := by
  simp (disch := decide) [Builder.fresh, fields]

theorem ExecutedResponseView.decode_type (buf : Vector UInt8 WIRE_SIZE)
    (h : window buf 0 0 = TYPE) :
    decode buf = some (.executed ⟨buf⟩) := by
  rw [decode, h, viewAt_self]
  rfl

theorem ExecutedResponseView.copies (buf : Vector UInt8 WIRE_SIZE) :
    List.Forall₂
      (fun c x => Copies (fun b => (ExecutedResponseBuilder.call ⟨b⟩ c).buf) buf x.1 x.2)
      (fields ⟨buf⟩).setters
      [(1, 8), (9, 4), (13, 4), (17, 8), (25, 1), (26, 8), (34, 2)] := by
  simp only [ExecutedResponse.setters, fields, ExecutedResponseBuilder.call,
    List.forall₂_cons, List.Forall₂.nil, and_true]
  exact ⟨copies_storeBe64 (by decide), copies_storeBe32 (by decide), copies_storeBe32 (by decide),
    copies_storeBe64 (by decide), copies_storeChar (by decide), copies_storeBe64 (by decide),
    copies_storeBe16 (by decide)⟩

theorem executedResponse_roundTrips : executedResponse.RoundTrips :=
  MessageType.Layout.roundTrips {
    fields_fresh := ExecutedResponseView.fields_fresh
    fields_call := ExecutedResponseView.fields_call
    type_call := ExecutedResponseBuilder.type_call
    decode_type := ExecutedResponseView.decode_type
    copies := ExecutedResponseView.copies
    covers := by decide }

end ExecutedResponse

/-- The codec of every message type of the protocol subset is a bijection. -/
theorem codec_roundTrips : enterRequest.RoundTrips ∧ cancelRequest.RoundTrips ∧
    acceptResponse.RoundTrips ∧ cancelledResponse.RoundTrips ∧
    cancelRejectResponse.RoundTrips ∧ executedResponse.RoundTrips :=
  ⟨enterRequest_roundTrips, cancelRequest_roundTrips, acceptResponse_roundTrips,
    cancelledResponse_roundTrips, cancelRejectResponse_roundTrips, executedResponse_roundTrips⟩

end LowLevel.Wire
