/-! # Bytes read as text

Bytes that should be UTF-8 but need not be. Every stretch that cannot be the start of a character,
taken as far as it could have been, becomes one replacement character. -/
namespace SelectiveSync.Text
set_option autoImplicit false

/-- A byte that only continues a character, as the bits it adds. -/
def continuation? (lo hi : UInt8) : List UInt8 → Option (Nat × List UInt8)
  | b :: rest => if lo ≤ b ∧ b ≤ hi then some (b.toNat % 64, rest) else none
  | [] => none

/-- The number of continuation bytes after a first byte, the bits the first byte holds and the
bounds of the second byte, which shut out overlong forms, surrogates and numbers too large. -/
def lead? (b : UInt8) : Option (Nat × Nat × UInt8 × UInt8) :=
  if b < 0x80 then some (0, b.toNat, 0x80, 0xbf)
  else if 0xc2 ≤ b ∧ b ≤ 0xdf then some (1, b.toNat % 32, 0x80, 0xbf)
  else if b = 0xe0 then some (2, 0, 0xa0, 0xbf)
  else if b = 0xed then some (2, 13, 0x80, 0x9f)
  else if 0xe1 ≤ b ∧ b ≤ 0xef then some (2, b.toNat % 16, 0x80, 0xbf)
  else if b = 0xf0 then some (3, 0, 0x90, 0xbf)
  else if 0xf1 ≤ b ∧ b ≤ 0xf3 then some (3, b.toNat % 8, 0x80, 0xbf)
  else if b = 0xf4 then some (3, 4, 0x80, 0x8f)
  else none

/-- The `n` continuation bytes still due after `bits`: the character, or nothing where one is
missing, and what follows in both cases. -/
def continued (n bits : Nat) (lo hi : UInt8) (bytes : List UInt8) : Option Char × List UInt8 :=
  match n with
  | 0 => (some (Char.ofNat bits), bytes)
  | n + 1 =>
    match continuation? lo hi bytes with
    | some (more, rest) => continued n (bits * 64 + more) 0x80 0xbf rest
    | none => (none, bytes)

/-- The first character of some bytes, or nothing in place of a faulty stretch, and what follows. -/
def firstChar (b : UInt8) (rest : List UInt8) : Option Char × List UInt8 :=
  match lead? b with
  | none => (none, rest)
  | some (n, bits, lo, hi) => continued n bits lo hi rest

theorem length_continued_le (n bits : Nat) (lo hi : UInt8) (bytes : List UInt8) :
    (continued n bits lo hi bytes).2.length ≤ bytes.length := by
  induction n generalizing bits lo hi bytes with
  | zero => simp [continued]
  | succ n ih =>
    unfold continued
    cases bytes with
    | nil => simp [continuation?]
    | cons b rest =>
      simp only [continuation?]
      split
      · rename_i h
        split at h
        · cases h
          exact Nat.le_succ_of_le (ih _ _ _ _)
        · cases h
      · simp

theorem length_firstChar_le (b : UInt8) (rest : List UInt8) :
    (firstChar b rest).2.length ≤ rest.length := by
  unfold firstChar
  split
  · simp
  · exact length_continued_le _ _ _ _ _

def lossyChars : List UInt8 → List Char
  | [] => []
  | b :: rest =>
    ((firstChar b rest).1.getD '\ufffd') :: lossyChars (firstChar b rest).2
termination_by bytes => bytes.length
decreasing_by
  have := length_firstChar_le b rest
  simp only [List.length_cons]
  omega

/-- The text of some bytes with replacement characters where they are not UTF-8. -/
def lossy (bytes : List UInt8) : String :=
  String.ofList (lossyChars bytes)

end SelectiveSync.Text
