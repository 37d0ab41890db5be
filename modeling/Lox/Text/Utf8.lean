/-! # Bytes as text

  Reads bytes as UTF-8. A failure says where the first sequence starts that is not valid, and
  whether it is broken off by the end of the bytes or by a byte that cannot follow.
-/

namespace Lox.Utf8

/-- Why bytes are no text. -/
inductive Failure where
  /-- The first `length` bytes from `index` on start no valid sequence with what follows. -/
  | invalid (length index : Nat)
  /-- The bytes end inside the sequence that starts at `index`. -/
  | incomplete (index : Nat)
  deriving DecidableEq, Repr

/-- What a failure says. -/
def Failure.message : Failure → String
  | invalid length index =>
    "invalid utf-8 sequence of " ++ toString length ++ " bytes from index " ++ toString index
  | incomplete index => "incomplete utf-8 byte sequence from index " ++ toString index

/-- A sequence of which some bytes have been read. -/
structure Pending where
  /-- Where it starts. -/
  start : Nat
  /-- How many of its bytes have been read. -/
  taken : Nat
  /-- How many are still to come. -/
  missing : Nat
  /-- The bits of the code point read so far. -/
  bits : Nat
  /-- The least value of the next byte. -/
  low : UInt8
  /-- The greatest value of the next byte. -/
  high : UInt8

/-- What a byte that starts a sequence of several bytes leads to. The bounds on the second
    byte exclude overlong forms, surrogates and code points that are too large. -/
def Pending.ofLead? (start : Nat) (byte : UInt8) : Option Pending :=
  let pending (missing : Nat) (low high : UInt8) : Option Pending :=
    some { start, taken := 1, missing, bits := byte.toNat % Nat.pow 2 (6 - missing), low, high }
  if byte < 0xc2 then none
  else if byte < 0xe0 then pending 1 0x80 0xbf
  else if byte = 0xe0 then pending 2 0xa0 0xbf
  else if byte = 0xed then pending 2 0x80 0x9f
  else if byte < 0xf0 then pending 2 0x80 0xbf
  else if byte = 0xf0 then pending 3 0x90 0xbf
  else if byte < 0xf4 then pending 3 0x80 0xbf
  else if byte = 0xf4 then pending 3 0x80 0x8f
  else none

/-- Reads bytes from an index on. The characters read so far are given in reverse. -/
def decodeFrom (index : Nat) (pending : Option Pending) (chars : List Char) :
    List UInt8 → Except Failure (List Char)
  | [] =>
    match pending with
    | some p => .error (.incomplete p.start)
    | none => .ok chars.reverse
  | byte :: rest =>
    match pending with
    | none =>
      if byte < 0x80 then decodeFrom (index + 1) none (Char.ofNat byte.toNat :: chars) rest
      else
        match Pending.ofLead? index byte with
        | some p => decodeFrom (index + 1) (some p) chars rest
        | none => .error (.invalid 1 index)
    | some p =>
      if p.low ≤ byte ∧ byte ≤ p.high then
        let bits := p.bits * 64 + byte.toNat % 64
        if p.missing = 1 then decodeFrom (index + 1) none (Char.ofNat bits :: chars) rest
        else
          decodeFrom (index + 1)
            (some { p with
              taken := p.taken + 1, missing := p.missing - 1, bits, low := 0x80, high := 0xbf })
            chars rest
      else .error (.invalid p.taken p.start)

/-- Reads bytes as text. -/
def decode (bytes : List UInt8) : Except Failure String :=
  (decodeFrom 0 none [] bytes).map String.ofList

end Lox.Utf8
