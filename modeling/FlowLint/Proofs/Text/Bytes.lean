import FlowLint.Text.Layout
import Mathlib.Data.List.Infix

/-!
The bytes of a text in UTF-8. No character's bytes start those of another one, so a text starts with
another one if its bytes do. An ASCII character is the byte of its number, and none of these bytes
is part of any other character.
-/

namespace FlowLint.Text

/-- The bytes of a text. -/
def bytes (cs : List Char) : List UInt8 := cs.flatMap String.utf8EncodeChar

/-- The byte of an ASCII character. -/
def byte (c : Char) : UInt8 := UInt8.ofNat c.toNat

variable {c d : Char} {cs ds : List Char}

@[simp] theorem bytes_nil : bytes [] = [] := rfl

@[simp] theorem bytes_cons (c : Char) (cs : List Char) :
    bytes (c :: cs) = String.utf8EncodeChar c ++ bytes cs := rfl

@[simp] theorem bytes_append (cs ds : List Char) : bytes (cs ++ ds) = bytes cs ++ bytes ds :=
  List.flatMap_append

@[simp] theorem length_bytes (cs : List Char) : (bytes cs).length = byteLength cs := by
  induction cs with
  | nil => rfl
  | cons c cs ih => simp [ih]

theorem utf8EncodeChar_ne_nil (c : Char) : String.utf8EncodeChar c ≠ [] := by
  rw [← List.length_pos_iff, String.length_utf8EncodeChar]
  exact c.utf8Size_pos

theorem bytes_ne_nil (c : Char) (cs : List Char) : bytes (c :: cs) ≠ [] :=
  List.append_ne_nil_of_left_ne_nil (utf8EncodeChar_ne_nil c) _

theorem take_bytes (cs ds : List Char) : (bytes (cs ++ ds)).take (byteLength cs) = bytes cs := by
  rw [bytes_append, List.take_left' (length_bytes cs)]

theorem getElem?_bytes (cs ds : List Char) :
    (bytes (cs ++ ds))[byteLength cs]? = (bytes ds).head? := by
  rw [bytes_append, List.getElem?_append_right (length_bytes cs).le, length_bytes, Nat.sub_self,
    List.head?_eq_getElem?]

/-! ### Prefixes -/

/-- The bytes of a character do not start those of another one. -/
theorem eq_of_utf8EncodeChar_append {bs bs' : List UInt8}
    (h : String.utf8EncodeChar c ++ bs = String.utf8EncodeChar d ++ bs') : c = d := by
  have first (c : Char) (bs : List UInt8) :
      (String.utf8EncodeChar c ++ bs).toByteArray.utf8DecodeChar? 0 = some c := by
    rw [List.toByteArray_append]
    exact ByteArray.utf8DecodeChar?_utf8EncodeChar_append
  have read := first d bs'
  rw [← h, first c bs] at read
  exact Option.some.inj read

/-- A text that starts with the bytes of another one starts with it. -/
theorem prefix_of_bytes (h : bytes cs <+: bytes ds) : cs <+: ds := by
  induction cs generalizing ds with
  | nil => exact List.nil_prefix
  | cons c cs ih =>
    cases ds with
    | nil =>
      have size := h.length_le
      have pos := c.utf8Size_pos
      rw [length_bytes, length_bytes, byteLength_cons, byteLength_nil] at size
      omega
    | cons d ds =>
      obtain ⟨bs, h⟩ := h
      rw [bytes_cons, bytes_cons, List.append_assoc] at h
      obtain rfl := eq_of_utf8EncodeChar_append h
      exact (List.prefix_cons_inj c).2 (ih ⟨bs, List.append_cancel_left h⟩)

/-! ### ASCII -/

theorem utf8EncodeChar_of_ascii (h : c.toNat < 128) : String.utf8EncodeChar c = [byte c] :=
  if_pos (Nat.le_of_lt_succ h)

/-- The bytes of all other characters have larger numbers. -/
theorem le_of_mem_utf8EncodeChar (h : ¬ c.toNat < 128) {b : UInt8}
    (hb : b ∈ String.utf8EncodeChar c) : 128 ≤ b.toNat := by
  have more : ¬ c.val.toNat ≤ 127 := fun le => h (Nat.lt_succ_of_le le)
  have above (n : Nat) (range : 128 ≤ n ∧ n < 256) : 128 ≤ (UInt8.ofNat n).toNat := by
    rw [UInt8.toNat_ofNat']
    omega
  rw [String.utf8EncodeChar, if_neg more] at hb
  split at hb
  · simp only [List.mem_cons, List.not_mem_nil, or_false] at hb
    rcases hb with rfl | rfl <;> exact above _ (by omega)
  split at hb
  · simp only [List.mem_cons, List.not_mem_nil, or_false] at hb
    rcases hb with rfl | rfl | rfl <;> exact above _ (by omega)
  · simp only [List.mem_cons, List.not_mem_nil, or_false] at hb
    rcases hb with rfl | rfl | rfl | rfl <;> exact above _ (by omega)

theorem toNat_byte (h : c.toNat < 128) : (byte c).toNat = c.toNat := by
  rw [byte, UInt8.toNat_ofNat']
  omega

/-- Among the bytes of a character that of an ASCII character is found only if it is the same. -/
theorem eq_byte_iff (h : c.toNat < 128) {b : UInt8} (hb : b ∈ String.utf8EncodeChar d) :
    b = byte c ↔ d = c := by
  by_cases ascii : d.toNat < 128
  · rw [utf8EncodeChar_of_ascii ascii, List.mem_singleton] at hb
    subst hb
    constructor
    · intro same
      have number := congrArg UInt8.toNat same
      rw [toNat_byte ascii, toNat_byte h] at number
      exact Char.toNat_inj.1 number
    · exact congrArg byte
  · have above := le_of_mem_utf8EncodeChar ascii hb
    constructor
    · rintro rfl
      rw [toNat_byte h] at above
      omega
    · rintro rfl
      exact absurd h ascii

/-- A text that starts with the byte of an ASCII character starts with the character. -/
theorem head?_of_byte (h : c.toNat < 128) (first : (bytes ds).head? = some (byte c)) :
    ds.head? = some c := by
  obtain ⟨bs, text⟩ := List.head?_eq_some_iff.1 first
  have starts : bytes [c] <+: bytes ds := by
    rw [bytes_cons, bytes_nil, utf8EncodeChar_of_ascii h, text]
    exact List.prefix_append [byte c] bs
  obtain ⟨cs, rfl⟩ := prefix_of_bytes starts
  rfl

/-! ### Character boundaries -/

/-- The text from a byte on, none if no character starts there. The end of the text is such a
    place. -/
def fromByte? : List Char → Nat → Option (List Char)
  | cs,      0     => some cs
  | [],      _ + 1 => none
  | c :: cs, n + 1 => if n + 1 < c.utf8Size then none else fromByte? cs (n + 1 - c.utf8Size)

theorem fromByte?_append (before after : List Char) :
    fromByte? (before ++ after) (byteLength before) = some after := by
  induction before with
  | nil => cases after <;> rfl
  | cons c before ih =>
    have pos := c.utf8Size_pos
    have some : c.utf8Size + byteLength before ≠ 0 := by omega
    obtain ⟨n, hn⟩ := Nat.exists_eq_add_one_of_ne_zero some
    rw [byteLength_cons, hn, List.cons_append, fromByte?, ← hn, if_neg (by omega),
      Nat.add_sub_cancel_left, ih]

/-- The text between two bytes, none if it does not start and end with whole characters. -/
def slice? (cs : List Char) (start stop : Nat) : Option (List Char) := do
  let ds ← fromByte? cs start
  let es ← fromByte? cs stop
  if start ≤ stop then some (ds.take (ds.length - es.length)) else none

theorem slice?_append (before between after : List Char) :
    slice? (before ++ (between ++ after)) (byteLength before) (byteLength (before ++ between)) =
      some between := by
  have stop := fromByte?_append (before ++ between) after
  rw [List.append_assoc] at stop
  rw [slice?, fromByte?_append, stop]
  simp

end FlowLint.Text
