namespace Reckoner

inductive Utf8Fault
  | start
  | continuation
  | cut
deriving DecidableEq

/-- A fault of some bytes, at a place in the block that was being decoded. -/
structure Undecodable where
  fault : Utf8Fault
  first : UInt8
  position : Nat
  length : Nat
deriving DecidableEq

/-- How many bytes a sequence has that begins with the given byte, and the range of the second one. -/
def sequenceShape (byte : UInt8) : Option (Nat × UInt8 × UInt8) :=
  if byte < 0x80 then some (1, 0x80, 0xbf)
  else if byte < 0xc2 then none
  else if byte < 0xe0 then some (2, 0x80, 0xbf)
  else if byte = 0xe0 then some (3, 0xa0, 0xbf)
  else if byte = 0xed then some (3, 0x80, 0x9f)
  else if byte < 0xf0 then some (3, 0x80, 0xbf)
  else if byte = 0xf0 then some (4, 0x90, 0xbf)
  else if byte < 0xf4 then some (4, 0x80, 0xbf)
  else if byte = 0xf4 then some (4, 0x80, 0x8f)
  else none

/-- A sequence under way: its first byte, how many bytes were read, how many are to come, and the range of the
next one. -/
structure OpenSequence where
  first : UInt8
  read : Nat
  missing : Nat
  low : UInt8
  high : UInt8

/-- Whether two bytes begin the code of a surrogate, which is no character. -/
def isSurrogateStart (first second : UInt8) : Bool := first == 0xed && 0xa0 ≤ second && second ≤ 0xbf

/-- Looks for the first fault from a place in a block on. When a block is full the next one begins with the bytes
of the sequence under way. The beginning of a surrogate is not judged at the end of a block, but at the start of
the next one. -/
def faultFrom (blockSize : Nat) (position room : Nat) (current : Option OpenSequence) :
    List UInt8 → Option Undecodable
  | [] => current.map fun sequence => ⟨.cut, sequence.first, 0, sequence.read⟩
  | byte :: rest =>
    let position := if room = 0 then (current.map OpenSequence.read).getD 0 else position
    let room := (if room = 0 then blockSize else room) - 1
    match current with
    | none =>
      match sequenceShape byte with
      | none => some ⟨.start, byte, position, 1⟩
      | some (1, _, _) => faultFrom blockSize (position + 1) room none rest
      | some (length, low, high) =>
        faultFrom blockSize (position + 1) room (some ⟨byte, 1, length - 1, low, high⟩) rest
    | some sequence =>
      if byte < sequence.low ∨ sequence.high < byte then
        let postponed := isSurrogateStart sequence.first byte && (room == 0 || rest.isEmpty)
        some ⟨.continuation, sequence.first, if postponed then 0 else position - sequence.read, sequence.read⟩
      else if sequence.missing = 1 then faultFrom blockSize (position + 1) room none rest
      else
        faultFrom blockSize (position + 1) room
          (some ⟨sequence.first, sequence.read + 1, sequence.missing - 1, 0x80, 0xbf⟩) rest

/-- Decodes bytes that are handed over in blocks of the given size. -/
def decodeUtf8 (blockSize : Nat) (bytes : ByteArray) : Except Undecodable String :=
  match String.fromUTF8? bytes with
  | some text => .ok text
  | none =>
    match faultFrom blockSize 0 blockSize none bytes.toList with
    | some fault => .error fault
    | none => .ok ""

theorem decodeUtf8_toUTF8 (blockSize : Nat) (text : String) : decodeUtf8 blockSize text.toUTF8 = .ok text := by
  have decoded : String.fromUTF8? text.toUTF8 = some text := dif_pos text.isValidUTF8
  rw [decodeUtf8, decoded]

/-- Bytes that are decoded are those of the text, unless it is empty. -/
theorem toUTF8_of_decodeUtf8 {blockSize : Nat} {bytes : ByteArray} {text : String}
    (decoded : decodeUtf8 blockSize bytes = .ok text) (filled : text ≠ "") : text.toUTF8 = bytes := by
  rw [decodeUtf8] at decoded
  cases valid : String.fromUTF8? bytes with
  | some found =>
    rw [valid] at decoded
    obtain rfl := Except.ok.inj decoded
    rw [String.fromUTF8?] at valid
    split at valid
    · obtain rfl := Option.some.inj valid
      rfl
    · cases valid
  | none =>
    rw [valid] at decoded
    dsimp only at decoded
    split at decoded
    · cases decoded
    · exact absurd (Except.ok.inj decoded).symm filled

def Undecodable.message (error : Undecodable) : String :=
  let digit (n : Nat) : String := String.singleton (Nat.digitChar n)
  let bytes :=
    if error.length = 1 then
      s!"byte 0x{digit (error.first.toNat / 16)}{digit (error.first.toNat % 16)} in position {error.position}"
    else s!"bytes in position {error.position}-{error.position + error.length - 1}"
  let cause := match error.fault with
    | .start => "invalid start byte"
    | .continuation => "invalid continuation byte"
    | .cut => "unexpected end of data"
  s!"'utf-8' codec can't decode {bytes}: {cause}"

end Reckoner
