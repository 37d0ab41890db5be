import Lox.Number.Notation
import Lox.Text.Quoted
import Lox.Token

/-! # Token listings

  A token listing shows one token a line, either as its label, lexeme and literal or as a
  JSON object.
-/

namespace Lox

/-- A number in a token listing. Whole numbers of less than 64 bits end in `.0` and have no
    negative zero; the others are written with the shortest digits. -/
def TokenKind.numberText (x : Float) : String :=
  match Number.whole? x with
  | some w =>
    if w.magnitude < Nat.pow 2 63 then
      (if w.magnitude = 0 then "0" else w.text) ++ ".0"
    else Number.plain x
  | none => Number.plain x

/-- The literal that a token carries, `null` if it carries none. -/
def TokenKind.literalText : TokenKind → String
  | .string text => text
  | .number value => numberText value
  | _ => "null"

/-- The kind of a token as a JSON value: its label, or an object with its literal. -/
def TokenKind.json : TokenKind → String
  | .string text => "\x7b\"STRING\":" ++ Quoted.json text ++ "\x7d"
  | .number value => "\x7b\"NUMBER\":" ++ Number.json value ++ "\x7d"
  | kind => "\"" ++ kind.label ++ "\""

/-- A token as one line of text. -/
def Token.text (t : Token) : String :=
  t.kind.label ++ " " ++ t.lexeme ++ " " ++ t.kind.literalText

/-- A token as one JSON object. -/
def Token.json (t : Token) : String :=
  "\x7b\"token_type\":" ++ t.kind.json ++
    ",\"lexeme\":" ++ Quoted.json t.lexeme ++
    ",\"line\":" ++ toString t.line ++ "\x7d"

end Lox
