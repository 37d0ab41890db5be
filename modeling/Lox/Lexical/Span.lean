import Lox.Number.Notation
import Lox.Token

/-! # Spans

  A source text is a sequence of spans: blanks, comments, lexemes and the stretches that
  belong to no lexeme. `spans` cuts a text into its spans from left to right; `spans_text`
  says that nothing is lost or added, and `takeSpan_head` that no span is empty.

  Only ASCII letters, digits and the underscore make up names, and only the space, the tab,
  the carriage return and the newline are blank.
-/

namespace Lox.Lexical

/-! ### Character classes -/

/-- Characters between lexemes. -/
def isBlank (c : Char) : Bool :=
  c == ' ' || c == '\r' || c == '\t' || c == '\n'

/-- Decimal digits. -/
def isDigit (c : Char) : Bool :=
  '0' ≤ c && c ≤ '9'

/-- Characters that a name may start with. -/
def isNameStart (c : Char) : Bool :=
  ('a' ≤ c && c ≤ 'z') || ('A' ≤ c && c ≤ 'Z') || c == '_'

/-- Characters that a name may go on with. -/
def isNamePart (c : Char) : Bool :=
  isNameStart c || isDigit c

/-! ### Kinds of span -/

/-- One stretch of a source text. -/
inductive Span where
  /-- A character between lexemes. -/
  | blank (c : Char)
  /-- Two slashes and all that follows them on the line. -/
  | comment (text : List Char)
  /-- The characters of one token. -/
  | lexeme (kind : TokenKind) (text : List Char)
  /-- A character that starts no lexeme. -/
  | stray (c : Char)
  /-- A quote that is never closed, with all that follows it. -/
  | openString (text : List Char)
  deriving DecidableEq, Repr

/-- The characters of a span. -/
def Span.text : Span → List Char
  | blank c => [c]
  | comment text => text
  | lexeme _ text => text
  | stray c => [c]
  | openString text => text

/-! ### The span at the head of a text

    Each function is given the first character of a text and the characters after it, and
    returns the first span with the characters that follow the span. -/

/-- The punctuators of one character. A few of them are the first half of a longer one. -/
def punctuator? : Char → Option Punctuator
  | '(' => some .leftParen
  | ')' => some .rightParen
  | '\x7b' => some .leftBrace
  | '\x7d' => some .rightBrace
  | ',' => some .comma
  | '.' => some .dot
  | '-' => some .minus
  | '+' => some .plus
  | ';' => some .semicolon
  | '/' => some .slash
  | '*' => some .star
  | '!' => some .bang
  | '=' => some .equal
  | '<' => some .less
  | '>' => some .greater
  | _ => none

/-- The punctuator that a following `=` makes of a punctuator of one character. -/
def withEqual? : Punctuator → Option Punctuator
  | .bang => some .bangEqual
  | .equal => some .equalEqual
  | .less => some .lessEqual
  | .greater => some .greaterEqual
  | _ => none

/-- A punctuator of one or two characters, or a stray character. -/
def takePunctuator (c : Char) (rest : List Char) : Span × List Char :=
  match punctuator? c with
  | none => (.stray c, rest)
  | some p =>
    match withEqual? p, rest with
    | some q, '=' :: rest' => (.lexeme (.punctuator q) [c, '='], rest')
    | _, _ => (.lexeme (.punctuator p) [c], rest)

/-- A comment, up to the newline that ends it. -/
def takeComment (c : Char) (rest : List Char) : Span × List Char :=
  (.comment (c :: rest.takeWhile (· != '\n')), rest.dropWhile (· != '\n'))

/-- A string up to its closing quote, or the rest of the text if there is none. -/
def takeString (c : Char) (rest : List Char) : Span × List Char :=
  let inside := rest.takeWhile (· != '"')
  match rest.dropWhile (· != '"') with
  | [] => (.openString (c :: inside), [])
  | quote :: rest' =>
    (.lexeme (.string (String.ofList inside)) (c :: inside ++ [quote]), rest')

/-- Digits, and a point with more digits if a digit follows the point. -/
def takeNumber (c : Char) (rest : List Char) : Span × List Char :=
  let whole := c :: rest.takeWhile isDigit
  match rest.dropWhile isDigit with
  | '.' :: d :: rest' =>
    if isDigit d then
      let fraction := d :: rest'.takeWhile isDigit
      (.lexeme (.number (Number.ofDecimal whole fraction)) (whole ++ '.' :: fraction),
        rest'.dropWhile isDigit)
    else
      (.lexeme (.number (Number.ofDecimal whole [])) whole, '.' :: d :: rest')
  | rest' => (.lexeme (.number (Number.ofDecimal whole [])) whole, rest')

/-- The kind of a word: a keyword if it is spelled like one, a name otherwise. -/
def wordKind (word : List Char) : TokenKind :=
  match Keyword.ofSpelling? (String.ofList word) with
  | some k => .keyword k
  | none => .identifier

/-- A name or keyword. -/
def takeWord (c : Char) (rest : List Char) : Span × List Char :=
  let word := c :: rest.takeWhile isNamePart
  (.lexeme (wordKind word) word, rest.dropWhile isNamePart)

/-- Whether two slashes start a text. -/
def startsComment (c : Char) (rest : List Char) : Bool :=
  c == '/' && rest.head? == some '/'

/-- The first span of a text that starts with `c`, and the text after the span. -/
def takeSpan (c : Char) (rest : List Char) : Span × List Char :=
  if isBlank c then (.blank c, rest)
  else if startsComment c rest then takeComment c rest
  else if c == '"' then takeString c rest
  else if isDigit c then takeNumber c rest
  else if isNameStart c then takeWord c rest
  else takePunctuator c rest

/-! ### Nothing is lost -/

theorem takePunctuator_text (c : Char) (rest : List Char) :
    (takePunctuator c rest).1.text ++ (takePunctuator c rest).2 = c :: rest := by
  unfold takePunctuator
  split
  · rfl
  · split <;> rfl

theorem takeComment_text (c : Char) (rest : List Char) :
    (takeComment c rest).1.text ++ (takeComment c rest).2 = c :: rest := by
  simp [takeComment, Span.text]

theorem takeString_text (c : Char) (rest : List Char) :
    (takeString c rest).1.text ++ (takeString c rest).2 = c :: rest := by
  have cut := List.takeWhile_append_dropWhile (p := (· != '"')) (l := rest)
  unfold takeString
  split
  · next h => simp_all [Span.text]
  · next h => rw [h] at cut; simpa [Span.text] using cut

theorem takeNumber_text (c : Char) (rest : List Char) :
    (takeNumber c rest).1.text ++ (takeNumber c rest).2 = c :: rest := by
  have cut := List.takeWhile_append_dropWhile (p := isDigit) (l := rest)
  unfold takeNumber
  split
  · next h =>
    rw [h] at cut
    split <;> simpa [Span.text] using cut
  · simp [Span.text]

theorem takeWord_text (c : Char) (rest : List Char) :
    (takeWord c rest).1.text ++ (takeWord c rest).2 = c :: rest := by
  simp [takeWord, Span.text]

/-- The first span and the text after it make up the whole text. -/
theorem takeSpan_text (c : Char) (rest : List Char) :
    (takeSpan c rest).1.text ++ (takeSpan c rest).2 = c :: rest := by
  unfold takeSpan
  split
  · rfl
  split
  · exact takeComment_text c rest
  split
  · exact takeString_text c rest
  split
  · exact takeNumber_text c rest
  split
  · exact takeWord_text c rest
  · exact takePunctuator_text c rest

/-- The first span starts with the first character of the text. -/
theorem takeSpan_head (c : Char) (rest : List Char) :
    (takeSpan c rest).1.text.head? = some c := by
  unfold takeSpan
  split
  · rfl
  split
  · rfl
  split
  · unfold takeString; split <;> rfl
  split
  · unfold takeNumber
    split
    · split <;> rfl
    · rfl
  split
  · rfl
  · unfold takePunctuator
    split
    · rfl
    · split <;> rfl

/-- The text after the first span is shorter than the whole text. -/
theorem takeSpan_snd_length (c : Char) (rest : List Char) :
    (takeSpan c rest).2.length < (c :: rest).length := by
  have whole := congrArg List.length (takeSpan_text c rest)
  have head := takeSpan_head c rest
  rw [List.length_append] at whole
  cases h : (takeSpan c rest).1.text with
  | nil => rw [h] at head; contradiction
  | cons _ _ => rw [h, List.length_cons] at whole; omega

/-! ### All spans of a text -/

/-- Cuts a text into its spans. -/
def spans : List Char → List Span
  | [] => []
  | c :: rest => (takeSpan c rest).1 :: spans (takeSpan c rest).2
termination_by text => text.length
decreasing_by exact takeSpan_snd_length c rest

/-- The spans of a text make up the text. -/
theorem spans_text (text : List Char) : (spans text).flatMap Span.text = text := by
  fun_induction spans text with
  | case1 => rfl
  | case2 c rest ih => rw [List.flatMap_cons, ih, takeSpan_text]

end Lox.Lexical
