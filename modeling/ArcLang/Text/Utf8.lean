import ArcLang.Text.Lines

/-!
# Reading UTF-8

A text file is a list of octets. `Utf8.decode` reads them strictly: overlong forms, surrogates and
codes past the last one are refused. A refusal names the octets that began a character and could
not go on, which are always a front part of some well-formed sequence, or one octet that starts
none.
-/

namespace ArcLang.Utf8

/-- Why octets are no character. -/
inductive Reason
  | invalidStart
  | invalidContinuation
  | unexpectedEnd
  deriving DecidableEq

/-- Where reading stopped: the first octet of the refused run, its place, and the run's length. -/
structure Fault where
  octet : Nat
  place : Nat
  length : Nat
  reason : Reason
  deriving DecidableEq

namespace Reason

/-- The decoder's own words. -/
def message : Reason → String
  | invalidStart => "invalid start byte"
  | invalidContinuation => "invalid continuation byte"
  | unexpectedEnd => "unexpected end of data"

end Reason

/-- One octet as two lower-case hexadecimal digits. -/
def hexOctet (n : Nat) : String :=
  String.ofList [Nat.digitChar (n / 16), Nat.digitChar (n % 16)]

/-- The wording of a refusal: one octet is shown, of several the places. -/
def Fault.message (f : Fault) : String :=
  let what :=
    if f.length = 1 then s!"byte 0x{hexOctet f.octet} in position {f.place}"
    else s!"bytes in position {f.place}-{f.place + f.length - 1}"
  s!"'utf-8' codec can't decode {what}: {f.reason.message}"

/-- What a first octet promises: the bits it brings, and the range of each octet to follow. -/
def lead (b : Nat) : Option (Nat × List (Nat × Nat)) :=
  if b ≤ 0x7F then some (b, [])
  else if b < 0xC2 then none
  else if b ≤ 0xDF then some (b - 0xC0, [(0x80, 0xBF)])
  else if b = 0xE0 then some (0, [(0xA0, 0xBF), (0x80, 0xBF)])
  else if b = 0xED then some (0xD, [(0x80, 0x9F), (0x80, 0xBF)])
  else if b ≤ 0xEF then some (b - 0xE0, [(0x80, 0xBF), (0x80, 0xBF)])
  else if b = 0xF0 then some (0, [(0x90, 0xBF), (0x80, 0xBF), (0x80, 0xBF)])
  else if b ≤ 0xF3 then some (b - 0xF0, [(0x80, 0xBF), (0x80, 0xBF), (0x80, 0xBF)])
  else if b = 0xF4 then some (4, [(0x80, 0x8F), (0x80, 0xBF), (0x80, 0xBF)])
  else none

/-- A character that has begun: its first octet, the octets read, their bits, and what is owed. -/
structure Begun where
  octet : Nat
  read : Nat
  bits : Nat
  owed : List (Nat × Nat)

/-- Reads octets from `place` on, inside a character that has begun if there is one. -/
def decodeFrom (place : Nat) : Option Begun → List UInt8 → Except Fault (List Char)
  | none, [] => .ok []
  | some p, [] => .error ⟨p.octet, place - p.read, p.read, .unexpectedEnd⟩
  | none, b :: rest =>
    match lead b.toNat with
    | none => .error ⟨b.toNat, place, 1, .invalidStart⟩
    | some (bits, []) => (Char.ofNat bits :: ·) <$> decodeFrom (place + 1) none rest
    | some (bits, owed) => decodeFrom (place + 1) (some ⟨b.toNat, 1, bits, owed⟩) rest
  | some p, b :: rest =>
    match p.owed with
    | [] => .error ⟨p.octet, place - p.read, p.read, .invalidContinuation⟩
    | (low, high) :: owed =>
      if low ≤ b.toNat ∧ b.toNat ≤ high then
        let bits := p.bits * 64 + (b.toNat - 0x80)
        if owed.isEmpty then (Char.ofNat bits :: ·) <$> decodeFrom (place + 1) none rest
        else decodeFrom (place + 1) (some ⟨p.octet, p.read + 1, bits, owed⟩) rest
      else .error ⟨p.octet, place - p.read, p.read, .invalidContinuation⟩

/-- The characters that a list of octets writes. -/
def decode (octets : List UInt8) : Except Fault (List Char) := decodeFrom 0 none octets

/-- The text of a file: its characters, with every line end turned into a line feed. -/
def readText (octets : List UInt8) : Except Fault String :=
  (fun text => String.ofList (unifyLineEnds text)) <$> decode octets

end ArcLang.Utf8
