/-! # Tokens

  The vocabulary of the language: punctuators and keywords with their spelling, the kinds
  of token, and tokens as they stand in a source text. String and number tokens carry the
  value they denote; comparing kinds looks past it (`TokenKind.agrees`).
-/

namespace Lox

/-! ### Fixed spellings -/

/-- Operators and separators. -/
inductive Punctuator where
  | leftParen | rightParen | leftBrace | rightBrace
  | comma | dot | minus | plus | semicolon | slash | star
  | bang | bangEqual | equal | equalEqual
  | greater | greaterEqual | less | lessEqual
  deriving DecidableEq, Repr

namespace Punctuator

/-- How a punctuator is written. -/
def spelling : Punctuator → String
  | leftParen => "("
  | rightParen => ")"
  | leftBrace => "\x7b"
  | rightBrace => "\x7d"
  | comma => ","
  | dot => "."
  | minus => "-"
  | plus => "+"
  | semicolon => ";"
  | slash => "/"
  | star => "*"
  | bang => "!"
  | bangEqual => "!="
  | equal => "="
  | equalEqual => "=="
  | greater => ">"
  | greaterEqual => ">="
  | less => "<"
  | lessEqual => "<="

/-- The name under which token listings show a punctuator. -/
def label : Punctuator → String
  | leftParen => "LEFT_PAREN"
  | rightParen => "RIGHT_PAREN"
  | leftBrace => "LEFT_BRACE"
  | rightBrace => "RIGHT_BRACE"
  | comma => "COMMA"
  | dot => "DOT"
  | minus => "MINUS"
  | plus => "PLUS"
  | semicolon => "SEMICOLON"
  | slash => "SLASH"
  | star => "STAR"
  | bang => "BANG"
  | bangEqual => "BANG_EQUAL"
  | equal => "EQUAL"
  | equalEqual => "EQUAL_EQUAL"
  | greater => "GREATER"
  | greaterEqual => "GREATER_EQUAL"
  | less => "LESS"
  | lessEqual => "LESS_EQUAL"

/-- Every punctuator. -/
def all : List Punctuator :=
  [leftParen, rightParen, leftBrace, rightBrace, comma, dot, minus, plus, semicolon, slash,
   star, bang, bangEqual, equal, equalEqual, greater, greaterEqual, less, lessEqual]

theorem mem_all (p : Punctuator) : p ∈ all := by
  cases p <;> decide

end Punctuator

/-- Words that are no names. -/
inductive Keyword where
  | andWord | classWord | elseWord | falseWord | funWord | forWord | ifWord | nilWord
  | orWord | printWord | returnWord | superWord | thisWord | trueWord | varWord | whileWord
  deriving DecidableEq, Repr

namespace Keyword

/-- How a keyword is written. -/
def spelling : Keyword → String
  | andWord => "and"
  | classWord => "class"
  | elseWord => "else"
  | falseWord => "false"
  | funWord => "fun"
  | forWord => "for"
  | ifWord => "if"
  | nilWord => "nil"
  | orWord => "or"
  | printWord => "print"
  | returnWord => "return"
  | superWord => "super"
  | thisWord => "this"
  | trueWord => "true"
  | varWord => "var"
  | whileWord => "while"

/-- The name under which token listings show a keyword. -/
def label : Keyword → String
  | andWord => "AND"
  | classWord => "CLASS"
  | elseWord => "ELSE"
  | falseWord => "FALSE"
  | funWord => "FUN"
  | forWord => "FOR"
  | ifWord => "IF"
  | nilWord => "NIL"
  | orWord => "OR"
  | printWord => "PRINT"
  | returnWord => "RETURN"
  | superWord => "SUPER"
  | thisWord => "THIS"
  | trueWord => "TRUE"
  | varWord => "VAR"
  | whileWord => "WHILE"

/-- Every keyword. -/
def all : List Keyword :=
  [andWord, classWord, elseWord, falseWord, funWord, forWord, ifWord, nilWord,
   orWord, printWord, returnWord, superWord, thisWord, trueWord, varWord, whileWord]

theorem mem_all (k : Keyword) : k ∈ all := by
  cases k <;> decide

/-- The keyword with this spelling. -/
def ofSpelling? (word : String) : Option Keyword :=
  all.find? (·.spelling == word)

end Keyword

/-! ### Kinds of token -/

/-- The lexical categories. -/
inductive TokenKind where
  /-- An operator or separator. -/
  | punctuator (p : Punctuator)
  /-- A reserved word. -/
  | keyword (k : Keyword)
  /-- A name. -/
  | identifier
  /-- A string literal with the text between its quotes. -/
  | string (text : String)
  /-- A number literal with its value. -/
  | number (value : Float)
  /-- The end of the token stream. -/
  | eof
  deriving DecidableEq, Repr

namespace TokenKind

/-- The name under which token listings show a kind. -/
def label : TokenKind → String
  | punctuator p => p.label
  | keyword k => k.label
  | identifier => "IDENTIFIER"
  | string _ => "STRING"
  | number _ => "NUMBER"
  | eof => "EOF"

/-- Two kinds agree when they are the same category, whatever literals they carry. -/
def agrees : TokenKind → TokenKind → Bool
  | punctuator p, punctuator q => p == q
  | keyword k, keyword l => k == l
  | identifier, identifier => true
  | string _, string _ => true
  | number _, number _ => true
  | eof, eof => true
  | _, _ => false

theorem agrees_refl (k : TokenKind) : k.agrees k = true := by
  cases k <;> simp [agrees]

theorem agrees_punctuator {k : TokenKind} {p : Punctuator} :
    k.agrees (punctuator p) = true ↔ k = punctuator p := by
  cases k <;> simp [agrees]

theorem agrees_keyword {k : TokenKind} {w : Keyword} :
    k.agrees (keyword w) = true ↔ k = keyword w := by
  cases k <;> simp [agrees]

theorem agrees_identifier {k : TokenKind} :
    k.agrees identifier = true ↔ k = identifier := by
  cases k <;> simp [agrees]

/-- The category with this label that carries no literal. -/
def ofLabel? (name : String) : Option TokenKind :=
  ((Punctuator.all.map punctuator) ++ (Keyword.all.map keyword) ++ [identifier, eof]).find?
    (·.label == name)

end TokenKind

/-! ### Tokens -/

/-- A token of a source text. -/
structure Token where
  /-- Its category. -/
  kind : TokenKind
  /-- The characters it consists of. -/
  lexeme : String
  /-- The line on which it ends, counted from one. -/
  line : Nat
  deriving DecidableEq, Repr

namespace Token

/-- Whether a token marks the end of the input. -/
def isEof (t : Token) : Bool :=
  t.kind.agrees .eof

/-- Two tokens agree when their kinds, lexemes and lines do. -/
def agrees (a b : Token) : Bool :=
  a.kind.agrees b.kind && a.lexeme == b.lexeme && a.line == b.line

/-- A name that no source text contains, placed on a line. -/
def synthetic (name : String) (line : Nat) : Token :=
  ⟨.identifier, name, line⟩

/-- The end of an input whose last line is `line`. -/
def ending (line : Nat) : Token :=
  ⟨.eof, "", line⟩

end Token

end Lox
