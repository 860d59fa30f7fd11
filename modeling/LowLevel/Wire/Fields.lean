import LowLevel.Foundations.Bytes
import LowLevel.OrderBook.Messages

/-! # Fields on the wire

Loads and stores of the field kinds of the protocol: big-endian numbers of 16,
32 and 64 bits, single characters and space-padded strings. The host is little
endian, so a number is copied as a native word and its bytes are swapped.
-/

namespace LowLevel.Wire

open OrderBook

/-- An enumeration over `char`: every byte is the code of exactly one value. -/
class CharEnum (E : Type) where
  toChar : E → UInt8
  ofChar : UInt8 → E
  ofChar_toChar : ∀ e, ofChar (toChar e) = e
  toChar_ofChar : ∀ c, toChar (ofChar c) = c

open CharEnum

attribute [simp] ofChar_toChar toChar_ofChar

instance : CharEnum SideEnum where
  toChar
    | .B => 66 | .S => 83 | .T => 84 | .E => 69
    | .other code _ => code
  ofChar c :=
    if h₁ : c = 66 then .B else if h₂ : c = 83 then .S else if h₃ : c = 84 then .T
    else if h₄ : c = 69 then .E else .other c (by simp [h₁, h₂, h₃, h₄])
  ofChar_toChar
    | .other code h => by
      simp only [List.mem_cons, List.not_mem_nil, or_false, not_or] at h
      simp [h]
    | .B | .S | .T | .E => rfl
  toChar_ofChar c := by split_ifs <;> simp_all

instance : CharEnum TimeInForceEnum where
  toChar
    | .Day => 48 | .IOC => 51 | .FOK => 53 | .GTC => 54 | .E => 69
    | .other code _ => code
  ofChar c :=
    if h₁ : c = 48 then .Day else if h₂ : c = 51 then .IOC else if h₃ : c = 53 then .FOK
    else if h₄ : c = 54 then .GTC else if h₅ : c = 69 then .E
    else .other c (by simp [h₁, h₂, h₃, h₄, h₅])
  ofChar_toChar
    | .other code h => by
      simp only [List.mem_cons, List.not_mem_nil, or_false, not_or] at h
      simp [h]
    | .Day | .IOC | .FOK | .GTC | .E => rfl
  toChar_ofChar c := by split_ifs <;> simp_all

instance : CharEnum DisplayEnum where
  toChar
    | .Y => 89 | .N => 78 | .A => 65
    | .other code _ => code
  ofChar c :=
    if h₁ : c = 89 then .Y else if h₂ : c = 78 then .N else if h₃ : c = 65 then .A
    else .other c (by simp [h₁, h₂, h₃])
  ofChar_toChar
    | .other code h => by
      simp only [List.mem_cons, List.not_mem_nil, or_false, not_or] at h
      simp [h]
    | .Y | .N | .A => rfl
  toChar_ofChar c := by split_ifs <;> simp_all

instance : CharEnum CapacityEnum where
  toChar := CapacityEnum.char
  ofChar c :=
    if h₁ : c = 65 then .A else if h₂ : c = 80 then .P else if h₃ : c = 82 then .R
    else if h₄ : c = 79 then .O else .other c (by simp [h₁, h₂, h₃, h₄])
  ofChar_toChar
    | .other code h => by
      simp only [List.mem_cons, List.not_mem_nil, or_false, not_or] at h
      simp [CapacityEnum.char, h]
    | .A | .P | .R | .O => rfl
  toChar_ofChar c := by split_ifs <;> simp_all [CapacityEnum.char]

instance : CharEnum InterMarketSweepEligEnum where
  toChar
    | .Y => 89 | .N => 78
    | .other code _ => code
  ofChar c :=
    if h₁ : c = 89 then .Y else if h₂ : c = 78 then .N else .other c (by simp [h₁, h₂])
  ofChar_toChar
    | .other code h => by
      simp only [List.mem_cons, List.not_mem_nil, or_false, not_or] at h
      simp [h]
    | .Y | .N => rfl
  toChar_ofChar c := by split_ifs <;> simp_all

instance : CharEnum CrossTypeEnum where
  toChar
    | .N => 78 | .O => 79 | .C => 67 | .H => 72 | .S => 83 | .R => 82 | .E => 69 | .A => 65
    | .other code _ => code
  ofChar c :=
    if h₁ : c = 78 then .N else if h₂ : c = 79 then .O else if h₃ : c = 67 then .C
    else if h₄ : c = 72 then .H else if h₅ : c = 83 then .S else if h₆ : c = 82 then .R
    else if h₇ : c = 69 then .E else if h₈ : c = 65 then .A
    else .other c (by simp [h₁, h₂, h₃, h₄, h₅, h₆, h₇, h₈])
  ofChar_toChar
    | .other code h => by
      simp only [List.mem_cons, List.not_mem_nil, or_false, not_or] at h
      simp [h]
    | .N | .O | .C | .H | .S | .R | .E | .A => rfl
  toChar_ofChar c := by split_ifs <;> simp_all

instance : CharEnum OrderStateEnum where
  toChar
    | .L => 76 | .D => 68
    | .other code _ => code
  ofChar c :=
    if h₁ : c = 76 then .L else if h₂ : c = 68 then .D else .other c (by simp [h₁, h₂])
  ofChar_toChar
    | .other code h => by
      simp only [List.mem_cons, List.not_mem_nil, or_false, not_or] at h
      simp [h]
    | .L | .D => rfl
  toChar_ofChar c := by split_ifs <;> simp_all

variable {n : ℕ}

/-- The `w`-byte number at an offset: a native word whose bytes are swapped. -/
def loadBe (w : ℕ) (p : Vector UInt8 n) (off : ℕ) (_ : off + w ≤ n) : ℕ :=
  bswap w (ofBytes (window p off) w)

def storeBe (w : ℕ) (p : Vector UInt8 n) (off v : ℕ) (h : off + w ≤ n) : Vector UInt8 n :=
  write p off w (byte (bswap w v)) h

def loadBe16 (p : Vector UInt8 n) (off : ℕ) (h : off + 2 ≤ n := by decide) : UInt16 :=
  .ofNat (loadBe 2 p off h)

def loadBe32 (p : Vector UInt8 n) (off : ℕ) (h : off + 4 ≤ n := by decide) : UInt32 :=
  .ofNat (loadBe 4 p off h)

def loadBe64 (p : Vector UInt8 n) (off : ℕ) (h : off + 8 ≤ n := by decide) : UInt64 :=
  .ofNat (loadBe 8 p off h)

def loadChar (p : Vector UInt8 n) (off : ℕ) (_ : off + 1 ≤ n := by decide) : UInt8 :=
  window p off 0

def loadStr (p : Vector UInt8 n) (off w : ℕ) (_ : off + w ≤ n := by decide) : Vector UInt8 w :=
  .ofFn fun i => window p off i

def storeBe16 (p : Vector UInt8 n) (off : ℕ) (v : UInt16) (h : off + 2 ≤ n := by decide) :
    Vector UInt8 n :=
  storeBe 2 p off v.toNat h

def storeBe32 (p : Vector UInt8 n) (off : ℕ) (v : UInt32) (h : off + 4 ≤ n := by decide) :
    Vector UInt8 n :=
  storeBe 4 p off v.toNat h

def storeBe64 (p : Vector UInt8 n) (off : ℕ) (v : UInt64) (h : off + 8 ≤ n := by decide) :
    Vector UInt8 n :=
  storeBe 8 p off v.toNat h

def storeChar (p : Vector UInt8 n) (off : ℕ) (c : UInt8) (h : off + 1 ≤ n := by decide) :
    Vector UInt8 n :=
  write p off 1 (fun _ => c) h

/-- Copy as much of a string as fits and fill the rest of the field with spaces. -/
def storeStr (p : Vector UInt8 n) (off : ℕ) (s : List UInt8) (w : ℕ)
    (h : off + w ≤ n := by decide) : Vector UInt8 n :=
  let copyN := min s.length w
  let p := write p off copyN (fun i => s[i]?.getD 0) (by omega)
  if copyN < w then write p (off + copyN) (w - copyN) (fun _ => 32) (by omega) else p

/-- A string cut to the field width, or extended to it by spaces. -/
def padded (w : ℕ) (s : List UInt8) : Vector UInt8 w := .ofFn fun i => s[i.1]?.getD 32

theorem storeStr_eq (p : Vector UInt8 n) (off : ℕ) (s : List UInt8) (w : ℕ) (h : off + w ≤ n) :
    storeStr p off s w h = write p off w (fun i => s[i]?.getD 32) h := by
  apply Vector.ext
  intro i hi
  rw [getElem_write, storeStr]
  split_ifs <;> simp only [getElem_write] <;> grind

section Lemmas

variable {p q : Vector UInt8 n} {f : ℕ → UInt8} {off off' w w' : ℕ} {h : off + w ≤ n}
  {h' : off' + w' ≤ n}

/-! Reads of the field just stored. -/

theorem loadBe_write_self {v : ℕ} (hv : v < 256 ^ w) :
    loadBe w (write p off w (byte (bswap w v)) h) off h = v := by
  have hword : ofBytes (window (write p off w (byte (bswap w v)) h) off) w =
      ofBytes (byte (bswap w v)) w :=
    ofBytes_congr fun i hi => window_write_self h hi
  rw [loadBe, hword, ofBytes_byte, Nat.mod_eq_of_lt (bswap_lt w v), bswap_bswap hv]

@[simp] theorem loadBe16_write_self (v : UInt16) (h : off + 2 ≤ n) :
    loadBe16 (write p off 2 (byte (bswap 2 v.toNat)) h) off h = v := by
  rw [loadBe16, loadBe_write_self v.toNat_lt, UInt16.ofNat_toNat]

@[simp] theorem loadBe32_write_self (v : UInt32) (h : off + 4 ≤ n) :
    loadBe32 (write p off 4 (byte (bswap 4 v.toNat)) h) off h = v := by
  rw [loadBe32, loadBe_write_self v.toNat_lt, UInt32.ofNat_toNat]

@[simp] theorem loadBe64_write_self (v : UInt64) (h : off + 8 ≤ n) :
    loadBe64 (write p off 8 (byte (bswap 8 v.toNat)) h) off h = v := by
  rw [loadBe64, loadBe_write_self v.toNat_lt, UInt64.ofNat_toNat]

@[simp] theorem loadChar_write_self (c : UInt8) (h : off + 1 ≤ n) :
    loadChar (write p off 1 (fun _ => c) h) off h = c :=
  window_write_self (f := fun _ => c) h Nat.one_pos

@[simp] theorem loadStr_write_self (s : List UInt8) :
    loadStr (write p off w (fun i => s[i]?.getD 32) h) off w h = padded w s := by
  unfold loadStr padded
  congr 1
  ext i : 1
  exact window_write_self h i.2

/-! Reads of a field elsewhere. -/

theorem loadBe_write (hd : off' + w' ≤ off ∨ off + w ≤ off') :
    loadBe w' (write p off w f h) off' h' = loadBe w' p off' h' :=
  congrArg (bswap w') (ofBytes_congr fun _ hi => window_write_of_disjoint h hi hd)

theorem loadBe16_write {h' : off' + 2 ≤ n} (hd : off' + 2 ≤ off ∨ off + w ≤ off') :
    loadBe16 (write p off w f h) off' h' = loadBe16 p off' h' := by
  rw [loadBe16, loadBe_write hd, loadBe16]

theorem loadBe32_write {h' : off' + 4 ≤ n} (hd : off' + 4 ≤ off ∨ off + w ≤ off') :
    loadBe32 (write p off w f h) off' h' = loadBe32 p off' h' := by
  rw [loadBe32, loadBe_write hd, loadBe32]

theorem loadBe64_write {h' : off' + 8 ≤ n} (hd : off' + 8 ≤ off ∨ off + w ≤ off') :
    loadBe64 (write p off w f h) off' h' = loadBe64 p off' h' := by
  rw [loadBe64, loadBe_write hd, loadBe64]

theorem loadChar_write {h' : off' + 1 ≤ n} (hd : off' + 1 ≤ off ∨ off + w ≤ off') :
    loadChar (write p off w f h) off' h' = loadChar p off' h' :=
  window_write_of_disjoint h Nat.one_pos hd

theorem loadStr_write (hd : off' + w' ≤ off ∨ off + w ≤ off') :
    loadStr (write p off w f h) off' w' h' = loadStr p off' w' h' := by
  unfold loadStr
  congr 1
  ext i : 1
  exact window_write_of_disjoint h i.2 hd

/-! Reads of an unset field. -/

theorem window_replicate (off i : ℕ) : window (.replicate n 0) off i = 0 := by
  rw [window, Vector.getElem?_replicate]
  split_ifs <;> rfl

theorem ofBytes_zero (w : ℕ) : ofBytes (fun _ => 0) w = 0 := by
  induction w with
  | zero => rfl
  | succ w ih => simp [ofBytes, ih]

theorem loadBe_replicate : loadBe w (.replicate n 0) off h = 0 := by
  have hbyte : byte 0 = fun _ => 0 := by
    funext i
    simp [byte]
  rw [loadBe, funext (window_replicate off), ofBytes_zero, bswap, hbyte, ofBytes_zero]

@[simp] theorem loadBe16_replicate (h : off + 2 ≤ n) : loadBe16 (.replicate n 0) off h = 0 := by
  rw [loadBe16, loadBe_replicate]
  rfl

@[simp] theorem loadBe32_replicate (h : off + 4 ≤ n) : loadBe32 (.replicate n 0) off h = 0 := by
  rw [loadBe32, loadBe_replicate]
  rfl

@[simp] theorem loadBe64_replicate (h : off + 8 ≤ n) : loadBe64 (.replicate n 0) off h = 0 := by
  rw [loadBe64, loadBe_replicate]
  rfl

@[simp] theorem loadChar_replicate (h : off + 1 ≤ n) : loadChar (.replicate n 0) off h = 0 :=
  window_replicate off 0

@[simp] theorem loadStr_replicate : loadStr (.replicate n 0) off w h = .replicate w 0 := by
  apply Vector.ext
  intro i hi
  rw [loadStr, Vector.getElem_ofFn, window_replicate, Vector.getElem_replicate]

/-! Stores of a field read elsewhere copy its bytes. -/

theorem copies_storeBe : Copies (fun p => storeBe w p off (loadBe w q off h) h) q off w := by
  refine ⟨h, fun p => write_congr h fun i hi => ?_⟩
  rw [loadBe, bswap_bswap (ofBytes_lt _ w), byte_ofBytes hi]

theorem copies_storeBe16 (h : off + 2 ≤ n) :
    Copies (fun p => storeBe16 p off (loadBe16 q off h) h) q off 2 := by
  unfold storeBe16 loadBe16
  simpa only [UInt16.toNat_ofNat_of_lt' (bswap_lt 2 _), loadBe] using copies_storeBe (h := h)

theorem copies_storeBe32 (h : off + 4 ≤ n) :
    Copies (fun p => storeBe32 p off (loadBe32 q off h) h) q off 4 := by
  unfold storeBe32 loadBe32
  simpa only [UInt32.toNat_ofNat_of_lt' (bswap_lt 4 _), loadBe] using copies_storeBe (h := h)

theorem copies_storeBe64 (h : off + 8 ≤ n) :
    Copies (fun p => storeBe64 p off (loadBe64 q off h) h) q off 8 := by
  unfold storeBe64 loadBe64
  simpa only [UInt64.toNat_ofNat_of_lt' (bswap_lt 8 _), loadBe] using copies_storeBe (h := h)

theorem copies_storeChar (h : off + 1 ≤ n) :
    Copies (fun p => storeChar p off (loadChar q off h) h) q off 1 := by
  refine ⟨h, fun p => write_congr h fun i hi => ?_⟩
  obtain rfl : i = 0 := by omega
  rfl

theorem copies_storeEnum {E : Type} [CharEnum E] (h : off + 1 ≤ n) :
    Copies (fun p => storeChar p off (toChar (ofChar (loadChar q off h) : E)) h) q off 1 := by
  simpa only [toChar_ofChar] using copies_storeChar h

theorem copies_storeStr (h : off + w ≤ n) :
    Copies (fun p => storeStr p off (loadStr q off w h).toList w h) q off w := by
  refine ⟨h, fun p => (storeStr_eq ..).trans ?_⟩
  exact write_congr h fun i hi => by simp [loadStr, hi]

end Lemmas

end LowLevel.Wire
