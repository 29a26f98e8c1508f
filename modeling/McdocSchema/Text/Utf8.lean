/-!
# UTF-8

Strict decoding of octets to characters by a machine that knows how many octets of a character are
still owed and within which bounds the next one has to be. The first octet that rules a text out ends
the decoding; the fault tells which octets it is about.
-/

namespace McdocSchema.Text

namespace Utf8

/-- What is wrong with some octets. -/
inductive Cause
  | start | continuation | truncated
  deriving DecidableEq, Repr

/-- A fault: what is wrong, the first octet it is about, where that one is, and how many there are. -/
structure Fault where
  cause : Cause
  octet : UInt8
  offset : Nat
  count : Nat
  deriving DecidableEq, Repr

def Cause.message : Cause → String
  | .start => "invalid start byte"
  | .continuation => "invalid continuation byte"
  | .truncated => "unexpected end of data"

/-- Two hexadecimal digits. -/
def hexOctet (b : UInt8) : String :=
  String.ofList [Nat.digitChar (b.toNat / 16), Nat.digitChar (b.toNat % 16)]

def Fault.message (f : Fault) : String :=
  let place :=
    if f.count ≤ 1 then "byte 0x" ++ hexOctet f.octet ++ " in position " ++ toString f.offset
    else
      "bytes in position " ++ toString f.offset ++ "-" ++ toString (f.offset + f.count - 1)
  "'utf-8' codec can't decode " ++ place ++ ": " ++ f.cause.message

/-- A character of which some octets are owed: its bits so far, the octets read and owed, and the
bounds of the next one. -/
structure Owed where
  bits : Nat
  lead : UInt8
  read : Nat
  left : Nat
  low : UInt8
  high : UInt8
  deriving Repr

/-- What a leading octet beyond ASCII promises. -/
def promise? (b : UInt8) : Option Owed :=
  if 0xC2 ≤ b && b ≤ 0xDF then some ⟨b.toNat - 0xC0, b, 1, 1, 0x80, 0xBF⟩
  else if b == 0xE0 then some ⟨0, b, 1, 2, 0xA0, 0xBF⟩
  else if b == 0xED then some ⟨0xD, b, 1, 2, 0x80, 0x9F⟩
  else if 0xE1 ≤ b && b ≤ 0xEF then some ⟨b.toNat - 0xE0, b, 1, 2, 0x80, 0xBF⟩
  else if b == 0xF0 then some ⟨0, b, 1, 3, 0x90, 0xBF⟩
  else if b == 0xF4 then some ⟨4, b, 1, 3, 0x80, 0x8F⟩
  else if 0xF1 ≤ b && b ≤ 0xF3 then some ⟨b.toNat - 0xF0, b, 1, 3, 0x80, 0xBF⟩
  else none

/-- The fault of a character whose octets are not all there. -/
def Owed.fault (o : Owed) (cause : Cause) (offset : Nat) : Fault :=
  ⟨cause, o.lead, offset - o.read, o.read⟩

/-- Decodes octets from an offset on, `owed` being the character that is not finished and `done` the
characters so far, the latest first. -/
def decodeFrom (offset : Nat) (owed : Option Owed) (done : List Char) :
    List UInt8 → Except Fault (List Char)
  | [] =>
    match owed with
    | none => .ok done.reverse
    | some o => .error (o.fault .truncated offset)
  | b :: bs =>
    match owed with
    | none =>
      if b < 0x80 then decodeFrom (offset + 1) none (Char.ofNat b.toNat :: done) bs
      else
        match promise? b with
        | some o => decodeFrom (offset + 1) (some o) done bs
        | none => .error ⟨.start, b, offset, 1⟩
    | some o =>
      if o.low ≤ b && b ≤ o.high then
        let bits := o.bits * 64 + (b.toNat - 0x80)
        if o.left ≤ 1 then decodeFrom (offset + 1) none (Char.ofNat bits :: done) bs
        else
          decodeFrom (offset + 1) (some ⟨bits, o.lead, o.read + 1, o.left - 1, 0x80, 0xBF⟩) done bs
      else .error (o.fault .continuation offset)

/-- The characters that octets stand for. -/
def decode (octets : List UInt8) : Except Fault (List Char) :=
  decodeFrom 0 none [] octets

/-- The octets of a text. -/
def encode (text : String) : List UInt8 :=
  text.toList.flatMap String.utf8EncodeChar

end Utf8

/-- Makes one line feed of every way to end a line. -/
def unifyLines : List Char → List Char
  | '\r' :: '\n' :: cs => '\n' :: unifyLines cs
  | '\r' :: cs => '\n' :: unifyLines cs
  | c :: cs => c :: unifyLines cs
  | [] => []

end McdocSchema.Text
