/-! # Quoted text

  Two ways to put a text between double quotes: the JSON form, which escapes only what JSON
  forbids to stand for itself, and the form in which messages show the name of a file.
-/

namespace Lox.Quoted

/-- The lower-case hexadecimal digits of a number. -/
def hex (n : Nat) : String :=
  String.ofList (Nat.toDigits 16 n)

/-- One character inside a JSON string. -/
def jsonChar (c : Char) : String :=
  match c with
  | '"' => "\\\""
  | '\\' => "\\\\"
  | '\x08' => "\\b"
  | '\x0c' => "\\f"
  | '\n' => "\\n"
  | '\r' => "\\r"
  | '\t' => "\\t"
  | _ =>
    if c.toNat < 0x10 then "\\u000" ++ hex c.toNat
    else if c.toNat < 0x20 then "\\u00" ++ hex c.toNat
    else c.toString

/-- A text as a JSON string: control characters, the quote and the backslash are escaped,
    all else stands for itself. -/
def json (text : String) : String :=
  "\"" ++ String.join (text.toList.map jsonChar) ++ "\""

/-- One character inside a quoted file name. -/
def pathChar (c : Char) : String :=
  match c with
  | '"' => "\\\""
  | '\x27' => "\\'"
  | '\\' => "\\\\"
  | '\x00' => "\\0"
  | '\n' => "\\n"
  | '\r' => "\\r"
  | '\t' => "\\t"
  | _ =>
    if c.toNat < 0x20 ∨ c.toNat = 0x7f then "\\u\x7b" ++ hex c.toNat ++ "\x7d"
    else c.toString

/-- A file name as messages show it. -/
def path (name : String) : String :=
  "\"" ++ String.join (name.toList.map pathChar) ++ "\""

end Lox.Quoted
