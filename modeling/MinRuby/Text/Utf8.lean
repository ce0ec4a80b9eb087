/-!
# UTF-8

Strict decoding of bytes. Every character has one spelling: overlong forms, surrogates and codes
beyond the last plane are refused where they start to differ from a valid form. A failure says which
bytes could not be read and why.

* `decode_of_ascii` — bytes below 128 decode to the characters with their codes.
-/

namespace MinRuby.Text

/-- Why bytes are no UTF-8 text. -/
inductive Utf8Fault where
  /-- No character starts with the byte. -/
  | start
  /-- A byte does not go on with the character that has been started. -/
  | continuation
  /-- The bytes end in the middle of a character. -/
  | truncated
deriving DecidableEq, Repr

/-- The bytes that could not be decoded: the offset of the first one, its value, and how many
there are. -/
structure Utf8Error where
  fault : Utf8Fault
  offset : Nat
  byte : Nat
  count : Nat
deriving DecidableEq, Repr

/-- Whether a byte goes on with a character. -/
def isContinuation (b : Nat) : Bool := 0x80 ≤ b && b < 0xc0

/-- Whether a byte can follow the first byte of a character of two bytes or more. Some first bytes
leave less room, so that no character has two spellings and no surrogate has one. -/
def follows (first b : Nat) : Bool :=
  isContinuation b && (first != 0xe0 || 0xa0 ≤ b) && (first != 0xed || b < 0xa0) &&
    (first != 0xf0 || 0x90 ≤ b) && (first != 0xf4 || b < 0x90)

/-- How many bytes a character has that starts with the given one; zero if none does. -/
def sequenceLength (first : Nat) : Nat :=
  if first < 0x80 then 1
  else if first < 0xc2 then 0
  else if first < 0xe0 then 2
  else if first < 0xf0 then 3
  else if first < 0xf5 then 4
  else 0

/-- What a byte adds to the code of the character that it goes on with. -/
def payload (code b : Nat) : Nat := code * 64 + b % 64

/-- The number of further bytes that go on with a character, at most `wanted`. -/
def goodBytes (first wanted : Nat) (rest : List Nat) : Nat :=
  match rest with
  | [] => 0
  | b :: rest =>
    if wanted = 0 || !follows first b then 0
    else 1 + ((rest.take (wanted - 1)).takeWhile isContinuation).length

/-- The character that starts with the given byte, and how many further bytes it has. -/
def decodeChar (offset first : Nat) (rest : List Nat) : Except Utf8Error (Char × Nat) :=
  match sequenceLength first with
  | 0 => .error ⟨.start, offset, first, 1⟩
  | wanted + 1 =>
    let good := goodBytes first wanted rest
    if good = wanted then
      let code := if wanted = 0 then first else first % Nat.pow 2 (6 - wanted)
      .ok (Char.ofNat ((rest.take wanted).foldl payload code), wanted)
    else if good = rest.length then .error ⟨.truncated, offset, first, good + 1⟩
    else .error ⟨.continuation, offset, first, good + 1⟩

/-- The characters of a text whose first byte has the given offset. -/
def decodeFrom (offset : Nat) : List Nat → Except Utf8Error (List Char)
  | [] => .ok []
  | first :: rest =>
    match decodeChar offset first rest with
    | .error e => .error e
    | .ok (c, more) => (c :: ·) <$> decodeFrom (offset + more + 1) (rest.drop more)
termination_by bytes => bytes.length
decreasing_by simp only [List.length_drop, List.length_cons]; omega

/-- The text that bytes spell. -/
def decode (bytes : List Nat) : Except Utf8Error (List Char) := decodeFrom 0 bytes

theorem decodeFrom_of_ascii (offset : Nat) (bytes : List Nat) (h : ∀ b ∈ bytes, b < 0x80) :
    decodeFrom offset bytes = .ok (bytes.map Char.ofNat) := by
  induction bytes generalizing offset with
  | nil => simp [decodeFrom]
  | cons b rest ih =>
    have hb : b < 0x80 := h b List.mem_cons_self
    have hl : sequenceLength b = 1 := by simp [sequenceLength, hb]
    have hg : goodBytes b 0 rest = 0 := by cases rest <;> simp [goodBytes]
    have hrest := ih (offset + 1) fun c hc => h c (List.mem_cons_of_mem _ hc)
    rw [decodeFrom]
    simp [decodeChar, hl, hg, hrest, Functor.map, Except.map]

theorem decode_of_ascii (bytes : List Nat) (h : ∀ b ∈ bytes, b < 0x80) :
    decode bytes = .ok (bytes.map Char.ofNat) := decodeFrom_of_ascii 0 bytes h

/-- A byte in hexadecimal. -/
def byteText (b : Nat) : String :=
  let digits := Nat.toDigits 16 b
  "0x" ++ String.ofList (List.replicate (2 - digits.length) '0' ++ digits)

/-- What is wrong with the bytes, in words. -/
def Utf8Fault.description : Utf8Fault → String
  | start => "invalid start byte"
  | continuation => "invalid continuation byte"
  | truncated => "unexpected end of data"

/-- The text of a decoding error. -/
def Utf8Error.message (e : Utf8Error) : String :=
  let bytes :=
    if e.count = 1 then s!"byte {byteText e.byte} in position {e.offset}"
    else s!"bytes in position {e.offset}-{e.offset + e.count - 1}"
  s!"'utf-8' codec can't decode {bytes}: {e.fault.description}"

end MinRuby.Text
