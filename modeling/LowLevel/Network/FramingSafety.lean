import LowLevel.Network.Framing

/-! # Streams that the framing server survives

The server takes any length. A message is stored in a buffer of fixed size, with
a zero behind it, and the count of the bytes that are left starts at the length;
so a length of zero is counted below zero, and a length that the buffer does not
hold is written past its end. The streams without such a length are those that
it reads safely.
-/

namespace LowLevel.Network.Framing

variable {s s' : Connection} {messages : List (List UInt8)} {field body bytes : List UInt8}
  {b : UInt8} {left : ℕ}

/-- Every write is inside the buffer, and the count is never decremented below zero. -/
def Connection.Safe (s : Connection) (rs : List Recv) : Prop :=
  ∃ s', s.serve rs = some s' ∧ s'.underflow = false

def Connection.SafeOn (s : Connection) (bytes : List UInt8) : Prop :=
  ∃ s', s.readBytes bytes = some s' ∧ s'.underflow = false

/-- The lengths in a stream fit: those of complete messages are at least one and leave room for the
terminator. A length may end the stream, and the last message may have a length that does not fit
if it breaks off before that matters. -/
inductive WellSized : List UInt8 → Prop
  | length {field : List UInt8} (hbar : bar ∉ field) : WellSized field
  | start {field : List UInt8} (hbar : bar ∉ field) : WellSized (field ++ [bar])
  | body {field body : List UInt8} (hbar : bar ∉ field)
    (hshort : body.length < (lengthOf field).toNat) (hroom : body.length ≤ bufferSize) :
    WellSized (field ++ bar :: body)
  | message {field body rest : List UInt8} (hbar : bar ∉ field) (hpos : 1 ≤ body.length)
    (hlen : body.length < bufferSize) (hbody : (lengthOf field).toNat = body.length)
    (hrest : WellSized rest) : WellSized (field ++ bar :: (body ++ rest))

theorem readBytes_underflow (h : s.underflow = true) (hs' : s.readBytes bytes = some s') :
    s'.underflow = true := by
  refine readBytes_invariant (P := fun s₁ => s₁.underflow = true) ?_ h hs'
  intro s₁ b s₂ h₁ hs₂
  rw [(readByte_frame hs₂).2, h₁, Bool.true_or]

section Unsafe

theorem Filling.not_safeOn_zero (h : Filling s messages body 0) :
    ¬ s.SafeOn (b :: bytes) := by
  rintro ⟨s', hs', hsafe⟩
  rw [readBytes_cons] at hs'
  obtain ⟨s₁, hs₁, hs'⟩ := Option.bind_eq_some_iff.mp hs'
  have hunder : s₁.underflow = true := by
    have hacc : s.acc = 0 := UInt64.toNat_inj.mp h.acc
    rw [(readByte_frame hs₁).2, h.gettingLen, hacc]
    exact Bool.or_true _
  rw [readBytes_underflow hunder hs'] at hsafe
  cases hsafe

theorem Filling.readByte_full (h : Filling s messages body left)
    (hfull : body.length = bufferSize) :
    s.readByte b = none := by
  have hput : s.put b = none := dif_neg (by rw [h.msgIdx, hfull]; exact lt_irrefl _)
  rw [h.readByte, hput]
  rfl

theorem Filling.readByte_last (h : Filling s messages body 1)
    (hfull : body.length + 1 = bufferSize) : s.readByte b = none := by
  obtain ⟨s₁, h₁, hs₁⟩ := h.count Nat.one_pos (by omega) b
  have hput : s₁.put 0 = none := by
    refine dif_neg ?_
    rw [h₁.msgIdx, List.length_append]
    exact (Nat.lt_irrefl _ <| hfull ▸ ·)
  rw [hs₁, if_pos rfl, Connection.finish, hput]
  rfl

theorem Filling.not_safeOn (h : Filling s messages [] left) {k : ℕ} (hk : k < bytes.length)
    (hshort : k < left) (hroom : k ≤ bufferSize)
    (hbreak : ∀ s₁ body b, Filling s₁ messages body (left - k) → body.length = k →
      s₁.readByte b = none) : ¬ s.SafeOn bytes := by
  rintro ⟨s', hs', -⟩
  have htake : (bytes.take k).length = k := List.length_take_of_le hk.le
  obtain ⟨s₁, hs₁, h₁⟩ := h.readBytes (htake.trans_lt hshort) (by simpa [htake] using hroom)
  rw [List.nil_append, htake] at h₁
  rw [← List.take_append_drop k bytes, readBytes_append, hs₁, Option.bind_some,
    List.drop_eq_getElem_cons hk, readBytes_cons, hbreak s₁ _ _ h₁ htake] at hs'
  cases hs'

theorem Filling.not_safeOn_long (h : Filling s messages [] left) (hleft : bufferSize ≤ left)
    (hlong : left ≤ bytes.length ∨ bufferSize < bytes.length) : ¬ s.SafeOn bytes := by
  rcases hleft.eq_or_lt with rfl | hlt
  · -- all bytes fit, but not the terminator
    have hk : 1023 < bytes.length := by
      have : bufferSize = 1024 := rfl
      omega
    refine h.not_safeOn hk (by decide) (by decide) ?_
    intro s₁ body b h₁ hbody
    exact h₁.readByte_last (congrArg (· + 1) hbody)
  · refine h.not_safeOn (hlong.elim hlt.trans_le id) hlt le_rfl ?_
    intro s₁ body b h₁ hbody
    exact h₁.readByte_full hbody

end Unsafe

section WellSized

theorem WellSized.safeOn (h : WellSized bytes) (hidle : Idle s messages) : s.SafeOn bytes := by
  induction h generalizing s messages with
  | length hbar => exact ⟨_, hidle.readField hbar, hidle.underflow⟩
  | start hbar =>
    obtain ⟨s₁, hs₁, h₁⟩ := hidle.readLength hbar
    exact ⟨s₁, hs₁ [], h₁.underflow⟩
  | body hbar hshort hroom =>
    obtain ⟨s₁, hs₁, h₁⟩ := hidle.readLength hbar
    obtain ⟨s', hs', h'⟩ := h₁.readBytes hshort ((Nat.zero_add _).trans_le hroom)
    exact ⟨s', (hs₁ _).trans hs', h'.underflow⟩
  | message hbar hpos hlen hbody _ ih =>
    obtain ⟨s₁, hs₁, h₁⟩ := hidle.readLength hbar
    rw [hbody] at h₁
    obtain ⟨s₂, hs₂, h₂⟩ := h₁.complete hpos rfl ((Nat.zero_add _).trans_lt hlen)
    obtain ⟨s', hs', hsafe⟩ := ih h₂
    refine ⟨s', ?_, hsafe⟩
    rw [hs₁, readBytes_append, hs₂]
    exact hs'

/-- What the server has read safely breaks off inside a message, or begins with a message that
fits. -/
theorem Filling.fits (h : Filling s messages [] left) (hne : bytes ≠ []) (hsafe : s.SafeOn bytes) :
    (bytes.length < left ∧ bytes.length ≤ bufferSize) ∨
      (1 ≤ left ∧ left ≤ bytes.length ∧ left < bufferSize) := by
  have hpos : left ≠ 0 := by
    rintro rfl
    obtain ⟨b, bytes, rfl⟩ := List.exists_cons_of_ne_nil hne
    exact h.not_safeOn_zero hsafe
  have hlong : bufferSize ≤ left → ¬ (left ≤ bytes.length ∨ bufferSize < bytes.length) :=
    fun hleft hlong => h.not_safeOn_long hleft hlong hsafe
  omega

theorem Filling.safeOn_rest (h : Filling s messages [] body.length) (hpos : 1 ≤ body.length)
    (hlen : body.length < bufferSize) (hsafe : s.SafeOn (body ++ bytes)) :
    ∃ s', Idle s' (messages ++ [body]) ∧ s'.SafeOn bytes := by
  obtain ⟨s₁, hs₁, h₁⟩ := h.complete hpos rfl ((Nat.zero_add _).trans_lt hlen)
  obtain ⟨s', hs', hunder⟩ := hsafe
  rw [readBytes_append, hs₁] at hs'
  exact ⟨s₁, h₁, s', hs', hunder⟩

theorem Idle.wellSized (hidle : Idle s messages) (h : s.SafeOn bytes) : WellSized bytes := by
  -- a complete message makes the stream shorter
  induction hn : bytes.length using Nat.strong_induction_on generalizing bytes s messages with
  | _ n ih =>
    by_cases hbar : bar ∈ bytes
    · obtain ⟨field, rest, rfl, hfield⟩ := List.eq_append_cons_of_mem hbar
      obtain ⟨s₁, hs₁, h₁⟩ := hidle.readLength hfield
      have hsafe : s₁.SafeOn rest := by
        obtain ⟨s', hs', hunder⟩ := h
        exact ⟨s', (hs₁ rest).symm.trans hs', hunder⟩
      rcases eq_or_ne rest [] with rfl | hne
      · exact .start hfield
      · rcases h₁.fits hne hsafe with ⟨hshort, hroom⟩ | ⟨hpos, hle, hlen⟩
        · exact .body hfield hshort hroom
        · have htake := List.length_take_of_le hle
          rw [← List.take_append_drop (lengthOf field).toNat rest] at hsafe ⊢
          rw [← htake] at h₁ hpos hlen
          obtain ⟨s₂, h₂, hsafe₂⟩ := h₁.safeOn_rest hpos hlen hsafe
          refine .message hfield hpos hlen htake.symm (ih _ ?_ h₂ hsafe₂ rfl)
          rw [← hn, List.length_append, List.length_cons, List.length_drop]
          omega
    · exact .length hbar

theorem safeOn_iff (hidle : Idle s messages) : s.SafeOn bytes ↔ WellSized bytes :=
  ⟨hidle.wellSized, fun h => h.safeOn hidle⟩

end WellSized

theorem safe_iff_wellSized (msgBuffer : Vector UInt8 bufferSize) {rs : List Recv}
    (hrs : ∀ r ∈ rs, r.Open) :
    (Connection.accept msgBuffer).Safe rs ↔ WellSized (rs.flatMap Recv.bytes) := by
  rw [Connection.Safe, serve_eq rfl hrs]
  exact safeOn_iff (idle_accept msgBuffer)

/-- A message, and a length that does not fit with the beginning of its body. -/
theorem safe_iff_wellSized_cut :
    (Connection.accept (Vector.replicate bufferSize 0)).Safe
      [.read [49, 124], .read [65, 50, 48], .read [52, 56, 124, 66]] := by
  have hcut : WellSized ([50, 48, 52, 56] ++ bar :: [66]) := by
    refine .body ?_ ?_ ?_ <;> decide
  have hall : WellSized ([49] ++ bar :: ([65] ++ ([50, 48, 52, 56] ++ bar :: [66]))) := by
    refine .message ?_ ?_ ?_ ?_ hcut <;> decide
  exact (safe_iff_wellSized _ (by decide)).mpr hall

/-- The stream `0|x`: the count of a message of length zero is decremented below zero. -/
theorem not_safe_zero : ¬ ∀ (msgBuffer : Vector UInt8 bufferSize) (rs : List Recv),
    (∀ r ∈ rs, r.Open) → (Connection.accept msgBuffer).Safe rs := by
  intro h
  have hidle := idle_accept (Vector.replicate bufferSize 0)
  have hfield : bar ∉ ([48] : List UInt8) := by decide
  have hsafe := h (Vector.replicate bufferSize 0) [.read [48, 124, 120]] (by decide)
  rw [Connection.Safe, serve_eq rfl (by decide)] at hsafe
  obtain ⟨s₁, hs₁, h₁⟩ := hidle.readLength hfield
  have hzero : (lengthOf [48]).toNat = 0 := by decide
  rw [hzero] at h₁
  obtain ⟨s', hs', hunder⟩ := hsafe
  exact h₁.not_safeOn_zero ⟨s', (hs₁ [120]).symm.trans hs', hunder⟩

end LowLevel.Network.Framing
