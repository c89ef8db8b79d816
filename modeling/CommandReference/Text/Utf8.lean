namespace CommandReference

/-! UTF-8 as a machine that reads one byte at a time. Between characters it
waits for a leading byte; inside a character it knows how many continuation
bytes are owed, in which range the next one must lie, and the code point read
so far. The bytes that cannot begin or continue a character are refused at once,
so the longest prefix of a malformed sequence that could still have become a
character is known when it is refused. -/

abbrev Bytes := List UInt8

namespace Utf8

/-- The way in which a byte sequence fails to be text. Indices count bytes. -/
inductive Malformation where
  /-- The bytes from `index` on, `length` of them, begin no character. -/
  | invalid (index length : Nat)
  /-- The text ends inside the character that begins at `index`. -/
  | incomplete (index : Nat)
  deriving DecidableEq, Repr

def Malformation.message : Malformation → String
  | .invalid index length =>
      s!"invalid utf-8 sequence of {length} bytes from index {index}"
  | .incomplete index => s!"incomplete utf-8 byte sequence from index {index}"

/-- A character that has begun: continuation bytes owed, the range of the next
one, the code point so far, and the number of bytes read. -/
structure Partial where
  owed : Nat
  low : Nat
  high : Nat
  code : Nat
  read : Nat
  deriving DecidableEq, Repr

/-- What a leading byte announces: a whole character, or one that has begun.
The narrower second-byte ranges shut out overlong forms, surrogates and code
points beyond the last one. -/
def lead (byte : Nat) : Option (Char ⊕ Partial) :=
  if byte < 0x80 then some (.inl (Char.ofNat byte))
  else if byte < 0xC2 then none
  else if byte < 0xE0 then some (.inr ⟨1, 0x80, 0xBF, byte - 0xC0, 1⟩)
  else if byte = 0xE0 then some (.inr ⟨2, 0xA0, 0xBF, 0, 1⟩)
  else if byte = 0xED then some (.inr ⟨2, 0x80, 0x9F, 0xD, 1⟩)
  else if byte < 0xF0 then some (.inr ⟨2, 0x80, 0xBF, byte - 0xE0, 1⟩)
  else if byte = 0xF0 then some (.inr ⟨3, 0x90, 0xBF, 0, 1⟩)
  else if byte < 0xF4 then some (.inr ⟨3, 0x80, 0xBF, byte - 0xF0, 1⟩)
  else if byte = 0xF4 then some (.inr ⟨3, 0x80, 0x8F, 4, 1⟩)
  else none

def Partial.advance (pending : Partial) (byte : Nat) : Option (Char ⊕ Partial) :=
  if pending.low ≤ byte ∧ byte ≤ pending.high then
    let code := pending.code * 64 + (byte - 0x80)
    if pending.owed = 1 then some (.inl (Char.ofNat code))
    else some (.inr ⟨pending.owed - 1, 0x80, 0xBF, code, pending.read + 1⟩)
  else none

mutual

def decodeFrom (index : Nat) : Bytes → Except Malformation (List Char)
  | [] => .ok []
  | byte :: rest =>
      match lead byte.toNat with
      | none => .error (.invalid index 1)
      | some (.inl character) => (decodeFrom (index + 1) rest).map (character :: ·)
      | some (.inr pending) => decodeWithin index pending rest

def decodeWithin (index : Nat) (pending : Partial) :
    Bytes → Except Malformation (List Char)
  | [] => .error (.incomplete index)
  | byte :: rest =>
      match pending.advance byte.toNat with
      | none => .error (.invalid index pending.read)
      | some (.inl character) =>
          (decodeFrom (index + pending.read + 1) rest).map (character :: ·)
      | some (.inr further) => decodeWithin index further rest

end

def decode (bytes : Bytes) : Except Malformation String :=
  (decodeFrom 0 bytes).map String.ofList

def encode (text : String) : Bytes :=
  text.toList.flatMap String.utf8EncodeChar

def length : List Char → Nat
  | [] => 0
  | character :: rest => character.utf8Size + length rest

example : decode [0x63, 0xC3, 0xA9] = .ok "cé" := rfl

example : decode [0x61, 0xE2, 0x82, 0x41] = .error (.invalid 1 2) := rfl

example : decode [0x61, 0xE2, 0x82] = .error (.incomplete 1) := rfl

end Utf8

end CommandReference
