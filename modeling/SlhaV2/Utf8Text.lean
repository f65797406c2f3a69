import Mathlib.Data.List.Basic
import Mathlib.Tactic.Common

/-!
# Text as UTF-8 bytes

An ASCII character is encoded by its own byte, and the first byte of any other
character lies above the ASCII range. A scanner can therefore compare bytes
where its grammar compares characters.
-/
namespace SlhaV2.Utf8Text

def encode (cs : List Char) : List UInt8 := cs.flatMap String.utf8EncodeChar

/-- `str::as_bytes`. -/
def bytes (s : String) : List UInt8 := encode s.toList

/-- `str::from_utf8`. -/
def fromUtf8 (l : List UInt8) : Option String := String.fromUTF8? ⟨l.toArray⟩

/-- The length of the longest prefix that is valid. -/
def validUpTo (l : List UInt8) : ℕ :=
  ((List.range (l.length + 1)).reverse.find? fun n => (fromUtf8 (l.take n)).isSome).getD 0

/-- How many bytes the first byte of a sequence calls for. -/
def charWidth (b : UInt8) : ℕ :=
  if b < 0x80 then 1
  else if b < 0xC2 then 0
  else if b < 0xE0 then 2
  else if b < 0xF0 then 3
  else if b < 0xF5 then 4
  else 0

/-- A byte that may stand at index `i` behind the first byte of a sequence. -/
def isContinuation (first : UInt8) (i : ℕ) (b : UInt8) : Bool :=
  if i = 0 then
    (if first = 0xE0 then 0xA0 else if first = 0xF0 then 0x90 else 0x80) ≤ b ∧
      b ≤ (if first = 0xED then 0x9F else if first = 0xF4 then 0x8F else 0xBF)
  else 0x80 ≤ b ∧ b ≤ 0xBF

/-- `Utf8Error::error_len` of the bytes from the first invalid sequence on. -/
def errorLen : List UInt8 → Option ℕ
  | [] => none
  | first :: rest =>
      if charWidth first < 2 then some 1
      else
        (((rest.take (charWidth first - 1)).zipIdx.find? fun e =>
          !isContinuation first e.2 e.1).map fun e => e.2 + 1)

/-- The text of a `Utf8Error`. -/
def utf8Error (l : List UInt8) : String :=
  match errorLen (l.drop (validUpTo l)) with
  | some n => s!"invalid utf-8 sequence of {n} bytes from index {validUpTo l}"
  | none => s!"incomplete utf-8 byte sequence from index {validUpTo l}"

/-- The byte of an ASCII character. -/
def byte (c : Char) : UInt8 := UInt8.ofNat c.toNat

def headByte (c : Char) : UInt8 := (String.utf8EncodeChar c).headD 0

@[simp] theorem encode_nil : encode [] = [] := rfl

@[simp] theorem encode_cons (c : Char) (cs : List Char) :
    encode (c :: cs) = String.utf8EncodeChar c ++ encode cs := rfl

theorem encode_append (cs ds : List Char) : encode (cs ++ ds) = encode cs ++ encode ds :=
  List.flatMap_append

theorem fromUtf8_encode (cs : List Char) : fromUtf8 (encode cs) = some (String.ofList cs) := by
  have harray : (⟨(encode cs).toArray⟩ : ByteArray) = cs.utf8Encode := by
    apply ByteArray.ext
    exact (List.data_toByteArray).symm
  unfold fromUtf8 String.fromUTF8?
  rw [harray, dif_pos ByteArray.isValidUTF8_utf8Encode]
  rfl

theorem bytes_of_fromUtf8 {l : List UInt8} {s : String} (h : fromUtf8 l = some s) :
    bytes s = l := by
  have hdata : (s.toList.utf8Encode).data.toList = bytes s := by
    simp [bytes, encode, List.utf8Encode]
  rw [← hdata, String.utf8Encode_toList]
  unfold fromUtf8 String.fromUTF8? at h
  split_ifs at h
  cases h
  rfl

theorem length_encode_le {cs ds : List Char} (h : cs.Sublist ds) :
    (encode cs).length ≤ (encode ds).length := by
  induction h with
  | slnil => exact Nat.le_refl _
  | cons c _ ih =>
      rw [encode_cons, List.length_append]
      omega
  | cons_cons c _ ih =>
      rw [encode_cons, encode_cons, List.length_append, List.length_append]
      omega

/-- What holds of all ASCII characters holds of one. -/
theorem of_ascii {p : Char → Prop} (h : ∀ n < 128, p (Char.ofNat n)) {c : Char}
    (hc : c.toNat < 128) : p c := by
  have hp := h c.toNat hc
  rwa [Char.ofNat_toNat] at hp

theorem utf8EncodeChar_ascii {c : Char} (h : c.toNat < 128) :
    String.utf8EncodeChar c = [byte c] := by
  unfold String.utf8EncodeChar
  exact if_pos (Nat.le_of_lt_succ h)

theorem encode_cons_ascii {c : Char} (h : c.toNat < 128) (cs : List Char) :
    encode (c :: cs) = byte c :: encode cs := by
  rw [encode_cons, utf8EncodeChar_ascii h]
  rfl

theorem encode_ascii {cs : List Char} (h : ∀ c ∈ cs, c.toNat < 128) : encode cs = cs.map byte := by
  induction cs with
  | nil => rfl
  | cons c cs ih =>
      rw [encode_cons_ascii (h c List.mem_cons_self), List.map_cons,
        ih fun d hd => h d (List.mem_cons_of_mem c hd)]

theorem utf8EncodeChar_eq_cons (c : Char) :
    ∃ tail, String.utf8EncodeChar c = headByte c :: tail := by
  unfold headByte
  cases h : String.utf8EncodeChar c with
  | nil => exact absurd h String.utf8EncodeChar_ne_nil
  | cons b tail => exact ⟨tail, rfl⟩

theorem headByte_ascii {c : Char} (h : c.toNat < 128) : headByte c = byte c := by
  unfold headByte
  rw [utf8EncodeChar_ascii h]
  rfl

theorem toNat_byte {c : Char} (h : c.toNat < 128) : (byte c).toNat = c.toNat := by
  unfold byte
  rw [UInt8.toNat_ofNat']
  omega

theorem le_headByte {c : Char} (h : 128 ≤ c.toNat) : 192 ≤ (headByte c).toNat := by
  have hv : c.val.toNat = c.toNat := rfl
  unfold headByte String.utf8EncodeChar
  dsimp only
  rw [hv, if_neg (by omega)]
  split_ifs
  all_goals
    simp only [List.headD_cons, UInt8.toNat_ofNat']
    omega

/-- The first byte tells an ASCII character from every other character. -/
theorem headByte_eq_iff {c k : Char} (hk : k.toNat < 128) : headByte c = byte k ↔ c = k := by
  constructor
  · intro h
    by_cases hc : c.toNat < 128
    · rw [headByte_ascii hc] at h
      have hnat := congrArg UInt8.toNat h
      rw [toNat_byte hc, toNat_byte hk] at hnat
      exact Char.toNat_inj.mp hnat
    · have hle := le_headByte (Nat.le_of_not_lt hc)
      rw [h, toNat_byte hk] at hle
      omega
  · rintro rfl
    exact headByte_ascii hk

/-- The bytes of a character: its own one, or a sequence above the ASCII range. -/
theorem le_utf8EncodeChar {c : Char} {n : ℕ} (hn : n ≤ 128) (h : n ≤ c.toNat) :
    ∀ b ∈ String.utf8EncodeChar c, n ≤ b.toNat := by
  have hv : c.val.toNat = c.toNat := rfl
  unfold String.utf8EncodeChar
  dsimp only
  rw [hv]
  split_ifs
  all_goals
    simp only [List.forall_mem_cons, UInt8.toNat_ofNat', List.not_mem_nil, false_implies,
      implies_true, and_true]
    omega

/-- The byte of an ASCII character stands for that character only. -/
theorem eq_of_byte_mem {c k : Char} (hk : k.toNat < 128) (h : byte k ∈ String.utf8EncodeChar c) :
    c = k := by
  by_cases hc : c.toNat < 128
  · rw [utf8EncodeChar_ascii hc, List.mem_singleton, eq_comm, ← headByte_ascii hc] at h
    exact (headByte_eq_iff hk).mp h
  · have hle := le_utf8EncodeChar (Nat.le_refl 128) (Nat.le_of_not_lt hc) _ h
    rw [toNat_byte hk] at hle
    exact absurd hk (Nat.not_lt_of_le hle)

theorem byte_mem_encode {cs : List Char} {k : Char} (hk : k.toNat < 128) :
    byte k ∈ encode cs ↔ k ∈ cs := by
  constructor
  · intro h
    obtain ⟨c, hc, hb⟩ := List.mem_flatMap.mp h
    exact eq_of_byte_mem hk hb ▸ hc
  · intro h
    refine List.mem_flatMap.mpr ⟨k, h, ?_⟩
    rw [utf8EncodeChar_ascii hk]
    exact List.mem_singleton_self _

end SlhaV2.Utf8Text
