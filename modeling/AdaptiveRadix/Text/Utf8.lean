/-
Bytes read as UTF-8 where some may not be UTF-8 at all. What cannot be read is replaced
piece by piece: the longest run of bytes that still begins some character, or else a
single byte, becomes one replacement character.
-/
namespace AdaptiveRadix.Text.Utf8

/-- Stands for a piece that is no character. -/
def replacement : Char := '\uFFFD'

/-- What the first byte of a character of several bytes fixes: the bits it contributes, how many
bytes follow, and the range of the second byte. The narrower ranges leave out overlong forms,
surrogates and code points past the last one. -/
structure Lead where
  bits : Nat
  following : Nat
  low : UInt8
  high : UInt8

def Lead.ofByte? (b : UInt8) : Option Lead :=
  if 0xC2 ≤ b ∧ b ≤ 0xDF then some ⟨b.toNat % 32, 1, 0x80, 0xBF⟩
  else if b = 0xE0 then some ⟨b.toNat % 16, 2, 0xA0, 0xBF⟩
  else if b = 0xED then some ⟨b.toNat % 16, 2, 0x80, 0x9F⟩
  else if 0xE1 ≤ b ∧ b ≤ 0xEF then some ⟨b.toNat % 16, 2, 0x80, 0xBF⟩
  else if b = 0xF0 then some ⟨b.toNat % 8, 3, 0x90, 0xBF⟩
  else if 0xF1 ≤ b ∧ b ≤ 0xF3 then some ⟨b.toNat % 8, 3, 0x80, 0xBF⟩
  else if b = 0xF4 then some ⟨b.toNat % 8, 3, 0x80, 0x8F⟩
  else none

/-- Reads the rest of a character whose bits so far are `bits`, and gives what follows it. The
range bounds the next byte alone; the bytes after it are ordinary continuation bytes. -/
def readFollowing (bits : Nat) : Nat → UInt8 → UInt8 → List UInt8 → Char × List UInt8
  | 0, _, _, rest => (Char.ofNat bits, rest)
  | _ + 1, _, _, [] => (replacement, [])
  | n + 1, low, high, b :: rest =>
    if low ≤ b ∧ b ≤ high then readFollowing (bits * 64 + b.toNat % 64) n 0x80 0xBF rest
    else (replacement, b :: rest)

theorem length_readFollowing_le (bits n : Nat) (low high : UInt8) (bytes : List UInt8) :
    (readFollowing bits n low high bytes).2.length ≤ bytes.length := by
  induction n generalizing bits low high bytes with
  | zero => simp [readFollowing]
  | succ n ih =>
    cases bytes with
    | nil => simp [readFollowing]
    | cons b rest =>
      simp only [readFollowing]
      split
      · exact Nat.le_succ_of_le (ih ..)
      · exact Nat.le_refl _

/-- The first character of a text that begins with byte `b`, and what follows it. -/
def readChar (b : UInt8) (rest : List UInt8) : Char × List UInt8 :=
  if b < 0x80 then (Char.ofNat b.toNat, rest)
  else match Lead.ofByte? b with
    | none => (replacement, rest)
    | some lead => readFollowing lead.bits lead.following lead.low lead.high rest

theorem length_readChar_le (b : UInt8) (rest : List UInt8) :
    (readChar b rest).2.length ≤ rest.length := by
  unfold readChar
  split
  · exact Nat.le_refl _
  · split
    · exact Nat.le_refl _
    · exact length_readFollowing_le ..

def decodeChars : List UInt8 → List Char
  | [] => []
  | b :: rest => (readChar b rest).1 :: decodeChars (readChar b rest).2
termination_by bytes => bytes.length
decreasing_by
  have := length_readChar_le b rest
  simp only [List.length_cons]
  omega

/-- The text of the bytes, with a replacement character for each piece that is none. -/
def decode (bytes : List UInt8) : String :=
  String.ofList (decodeChars bytes)

end AdaptiveRadix.Text.Utf8
