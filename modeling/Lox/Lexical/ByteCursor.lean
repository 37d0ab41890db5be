import Lox.Lexical.Stream

/-! # The stream of a text, byte by byte

  A text in memory is a sequence of bytes, and a stream is read from it by a cursor that moves
  over the bytes: it looks one or two of them ahead, where zero stands for the bytes that are
  not there, and cuts out the texts of lexemes. To take a byte that is not there, or to cut a
  text within a character, breaks the reading off altogether (`Breakdown`).
-/

namespace Lox.Lexical

/-- Why reading breaks off altogether. -/
inductive Breakdown where
  /-- A byte was asked for that the text does not have. -/
  | noByte
  /-- A text was to be cut elsewhere than between two of its characters. -/
  | noBoundary
  deriving DecidableEq, Repr

/-! ### Texts as bytes -/

section

variable (source : String)

/-- The byte at an index, or zero behind the last one. -/
def byteAt (index : Nat) : UInt8 :=
  source.toUTF8.data[index]?.getD 0

/-- Whether a byte goes on with a character that another byte starts. -/
def isContinuation (byte : UInt8) : Bool :=
  0x80 ≤ byte && byte < 0xc0

/-- Whether an index lies between two characters, or at an end of the text. -/
def isBoundary (index : Nat) : Bool :=
  index == 0 ||
    if source.toUTF8.size ≤ index then index == source.toUTF8.size
    else !isContinuation (byteAt source index)

/-- The text between two indices. -/
def slice (first last : Nat) : Except Breakdown String :=
  if first ≤ last ∧ isBoundary source first ∧ isBoundary source last then
    match String.fromUTF8? (source.toUTF8.extract first last) with
    | some text => .ok text
    | none => .error .noBoundary
  else .error .noBoundary

/-- The bytes between two indices. -/
def sliceBytes (first last : Nat) : Except Breakdown ByteArray :=
  if first ≤ last ∧ last ≤ source.toUTF8.size then .ok (source.toUTF8.extract first last)
  else .error .noByte

end

/-- How far behind the start of some bytes a byte is found first. -/
def memchr? (byte : UInt8) (bytes : ByteArray) : Option Nat :=
  bytes.data.findIdx? (· == byte)

/-- The value that a number is written for: digits, or digits on both sides of a point. -/
def numberValue (text : String) : Float :=
  let digits := text.toList.takeWhile (· != '.')
  Number.ofDecimal digits (text.toList.drop (digits.length + 1))

/-- The kind of a word that is given by its bytes. -/
def wordKindOfBytes (word : ByteArray) : TokenKind :=
  match Keyword.all.find? (·.spelling.toUTF8.data = word.data) with
  | some k => .keyword k
  | none => .identifier

/-! ### The cursor -/

/-- A place in the bytes of a text. -/
structure ByteCursor where
  /-- The index at which the span that is being read starts. -/
  start : Nat
  /-- The index after the bytes read so far. -/
  current : Nat
  /-- The line of that place. -/
  line : Nat
  /-- Whether the end token was handed out. -/
  done : Bool
  deriving DecidableEq, Repr

/-- What is read of a span: the kind of its token if it makes one, or why it is no lexeme. -/
abbrev Outcome := Except LexicalError (Option TokenKind)

namespace ByteCursor

/-- The start of a text. -/
def initial : ByteCursor :=
  ⟨0, 0, 1, false⟩

variable (source : String)

/-- Whether all bytes have been read. -/
def atEnd (cursor : ByteCursor) : Bool :=
  source.toUTF8.size ≤ cursor.current

/-- Takes the next byte. -/
def advance (cursor : ByteCursor) : Except Breakdown (UInt8 × ByteCursor) :=
  match source.toUTF8.data[cursor.current]? with
  | some byte => .ok (byte, { cursor with current := cursor.current + 1 })
  | none => .error .noByte

/-- The character that the next byte stands for on its own, which is the next character only
    if that has the one byte. -/
def peek (cursor : ByteCursor) : Char :=
  Char.ofUInt8 (byteAt source cursor.current)

/-- The same for the byte after the next. -/
def peekNext (cursor : ByteCursor) : Char :=
  Char.ofUInt8 (byteAt source (cursor.current + 1))

/-- Moves on over one byte without looking at it. -/
def skip (cursor : ByteCursor) : ByteCursor :=
  { cursor with current := cursor.current + 1 }

/-- The bytes that are left. -/
def remaining (cursor : ByteCursor) : Nat :=
  source.toUTF8.size - cursor.current

theorem current_lt_of_peek {cursor : ByteCursor} {p : Char → Bool}
    (stops : p (Char.ofUInt8 0) = false) (found : p (cursor.peek source) = true) :
    cursor.current < source.toUTF8.size := by
  refine Decidable.byContradiction fun beyond => ?_
  have none : source.toUTF8.data[cursor.current]? = none :=
    Array.getElem?_eq_none (Nat.le_of_not_lt beyond)
  rw [peek, byteAt, none, Option.getD_none, stops] at found
  cases found

theorem advance_ok {cursor after : ByteCursor} {byte : UInt8}
    (h : cursor.advance source = .ok (byte, after)) :
    cursor.current < source.toUTF8.size ∧ after = cursor.skip := by
  unfold advance at h
  split at h
  · next found =>
    cases h
    exact ⟨(Array.getElem?_eq_some_iff.mp found).1, rfl⟩
  · cases h

/-! ### Spans of several bytes -/

/-- Moves on as long as there are characters of a class. Zero is in none of the classes that
    this is used for, so it stops at the end of the text. -/
def skipWhile (p : Char → Bool) (stops : p (Char.ofUInt8 0) = false) (cursor : ByteCursor) :
    ByteCursor :=
  if p (cursor.peek source) then skipWhile p stops cursor.skip else cursor
termination_by cursor.remaining source
decreasing_by
  have inside := current_lt_of_peek source stops ‹_›
  simp only [remaining, skip]
  omega

/-- Moves on to the end of the line. -/
def skipLine (cursor : ByteCursor) : Except Breakdown ByteCursor := do
  let bytes ← sliceBytes source cursor.current source.toUTF8.size
  match memchr? '\n'.toUInt8 bytes with
  | some offset => return { cursor with current := cursor.current + offset }
  | none => return { cursor with current := source.toUTF8.size }

/-- Moves on to the next quote, or to the end, and counts the lines. -/
def skipString (cursor : ByteCursor) : Except Breakdown ByteCursor :=
  if cursor.atEnd source || cursor.peek source == '"' then .ok cursor
  else
    match _h : cursor.advance source with
    | .error e => .error e
    | .ok (byte, after) =>
      skipString
        (if Char.ofUInt8 byte == '\n' then { after with line := after.line + 1 } else after)
termination_by cursor.remaining source
decreasing_by
  obtain ⟨inside, rfl⟩ := advance_ok source _h
  simp only [remaining]
  split <;> (simp only [skip]; omega)

/-- A string, whose opening quote has been taken. -/
def string (cursor : ByteCursor) : Except Breakdown (Outcome × ByteCursor) := do
  let cursor ← cursor.skipString source
  if cursor.atEnd source then
    return (.error ⟨.unterminatedString, cursor.line⟩, cursor)
  else
    let cursor := cursor.skip
    let contents ← slice source (cursor.start + 1) (cursor.current - 1)
    return (.ok (some (.string contents)), cursor)

/-- Moves on over a point and the digits after it, if a digit follows the point. -/
def skipFraction (cursor : ByteCursor) : ByteCursor :=
  if cursor.peek source == '.' && isDigit (cursor.peekNext source) then
    cursor.skip.skipWhile source isDigit rfl
  else cursor

/-- A number, whose first digit has been taken. -/
def number (cursor : ByteCursor) : Except Breakdown (Outcome × ByteCursor) := do
  let cursor := (cursor.skipWhile source isDigit rfl).skipFraction source
  let text ← slice source cursor.start cursor.current
  return (.ok (some (.number (numberValue text))), cursor)

/-- A name or keyword, whose first character has been taken. -/
def word (cursor : ByteCursor) : Except Breakdown (Outcome × ByteCursor) := do
  let cursor := cursor.skipWhile source isNamePart rfl
  let bytes ← sliceBytes source cursor.start cursor.current
  return (.ok (some (wordKindOfBytes bytes)), cursor)

/-- A punctuator that may be continued by `=`. -/
def punctuator (short : Punctuator) (cursor : ByteCursor) : Outcome × ByteCursor :=
  match withEqual? short with
  | some long =>
    if cursor.peek source == '=' then (.ok (some (.punctuator long)), cursor.skip)
    else (.ok (some (.punctuator short)), cursor)
  | none => (.ok (some (.punctuator short)), cursor)

/-- A character that starts no lexeme; its first byte has been taken. Reading goes on with the
    next character, not with the next byte. -/
def stray (byte : UInt8) (cursor : ByteCursor) : Except Breakdown (Outcome × ByteCursor) := do
  let rest ← slice source cursor.start source.toUTF8.size
  let c := rest.toList.head?.getD (Char.ofUInt8 byte)
  return (.error ⟨.unexpectedCharacter c, cursor.line⟩,
    { cursor with current := cursor.start + c.utf8Size })

/-! ### The stream -/

/-- Reads a span whose first byte has been taken. -/
def scanFrom (byte : UInt8) (cursor : ByteCursor) : Except Breakdown (Outcome × ByteCursor) := do
  let c := Char.ofUInt8 byte
  if c == '/' && cursor.peek source == '/' then
    return (.ok none, ← cursor.skipLine source)
  else if c == '\n' then
    return (.ok none, { cursor with line := cursor.line + 1 })
  else if isBlank c then
    return (.ok none, cursor)
  else if c == '"' then
    cursor.string source
  else if isDigit c then
    cursor.number source
  else if isNameStart c then
    cursor.word source
  else
    match punctuator? c with
    | some p => return cursor.punctuator source p
    | none => cursor.stray source byte

/-- Reads the span that starts at the cursor. -/
def scanSpan (cursor : ByteCursor) : Except Breakdown (Outcome × ByteCursor) := do
  let (byte, cursor) ← { cursor with start := cursor.current }.advance source
  cursor.scanFrom source byte

/-! ### Reading gets on -/

section

variable {cursor after : ByteCursor} {outcome : Outcome}

theorem ok_of_bind {ε α β : Type} {x : Except ε α} {f : α → Except ε β} {b : β}
    (h : (x >>= f) = .ok b) : ∃ a, x = .ok a ∧ f a = .ok b := by
  cases x with
  | error e => cases h
  | ok a => exact ⟨a, rfl, h⟩

theorem skipWhile_current (p : Char → Bool) (stops : p (Char.ofUInt8 0) = false)
    (cursor : ByteCursor) : cursor.current ≤ (cursor.skipWhile source p stops).current := by
  fun_induction skipWhile source p stops cursor with
  | case1 cursor _ ih => exact Nat.le_trans (Nat.le_succ _) ih
  | case2 => exact Nat.le_refl _

theorem skipLine_current (h : cursor.skipLine source = .ok after) :
    cursor.current ≤ after.current := by
  obtain ⟨bytes, cut, h⟩ := ok_of_bind h
  unfold sliceBytes at cut
  split at cut
  · next inside =>
    split at h
    · cases h
      exact Nat.le_add_right _ _
    · cases h
      exact inside.1
  · cases cut

theorem skipString_current (h : cursor.skipString source = .ok after) :
    cursor.current ≤ after.current := by
  fun_induction skipString source cursor with
  | case1 => cases h; exact Nat.le_refl _
  | case2 => cases h
  | case3 cursor _ byte next taken ih =>
    obtain ⟨_, rfl⟩ := advance_ok source taken
    have later := ih h
    refine Nat.le_trans (Nat.le_succ _) (Nat.le_trans (Nat.le_of_eq ?_) later)
    split <;> rfl

theorem string_current (h : cursor.string source = .ok (outcome, after)) :
    cursor.current ≤ after.current := by
  obtain ⟨last, found, h⟩ := ok_of_bind h
  have onward := skipString_current source found
  split at h
  · cases h
    exact onward
  · obtain ⟨contents, _, h⟩ := ok_of_bind h
    cases h
    exact Nat.le_succ_of_le onward

theorem skipFraction_current (cursor : ByteCursor) :
    cursor.current ≤ (cursor.skipFraction source).current := by
  unfold skipFraction
  split
  · exact Nat.le_trans (Nat.le_succ _) (skipWhile_current source isDigit rfl cursor.skip)
  · exact Nat.le_refl _

theorem number_current (h : cursor.number source = .ok (outcome, after)) :
    cursor.current ≤ after.current := by
  obtain ⟨text, _, h⟩ := ok_of_bind h
  cases h
  exact Nat.le_trans (skipWhile_current source isDigit rfl cursor) (skipFraction_current source _)

theorem word_current (h : cursor.word source = .ok (outcome, after)) :
    cursor.current ≤ after.current := by
  obtain ⟨bytes, _, h⟩ := ok_of_bind h
  cases h
  exact skipWhile_current source isNamePart rfl cursor

theorem punctuator_current (short : Punctuator) (cursor : ByteCursor) :
    cursor.current ≤ (cursor.punctuator source short).2.current := by
  unfold punctuator
  split
  · split
    · exact Nat.le_succ _
    · exact Nat.le_refl _
  · exact Nat.le_refl _

theorem stray_current {byte : UInt8} (h : cursor.stray source byte = .ok (outcome, after)) :
    cursor.start < after.current := by
  obtain ⟨rest, _, h⟩ := ok_of_bind h
  cases h
  exact Nat.lt_add_of_pos_right (Char.utf8Size_pos _)

theorem scanFrom_current {byte : UInt8} (begun : cursor.start < cursor.current)
    (h : cursor.scanFrom source byte = .ok (outcome, after)) : cursor.start < after.current := by
  unfold scanFrom at h
  dsimp only at h
  -- a comment, the two kinds of blanks, a string, a number and a word
  split at h
  · obtain ⟨last, found, h⟩ := ok_of_bind h
    cases h
    exact Nat.lt_of_lt_of_le begun (skipLine_current source found)
  split at h
  · cases h
    exact begun
  split at h
  · cases h
    exact begun
  split at h
  · exact Nat.lt_of_lt_of_le begun (string_current source h)
  split at h
  · exact Nat.lt_of_lt_of_le begun (number_current source h)
  split at h
  · exact Nat.lt_of_lt_of_le begun (word_current source h)
  split at h
  · next p _ =>
    obtain rfl : _ = after := congrArg Prod.snd (Except.ok.inj h)
    exact Nat.lt_of_lt_of_le begun (punctuator_current source p _)
  · exact stray_current source h

/-- A span has at least one byte. -/
theorem scanSpan_current (h : cursor.scanSpan source = .ok (outcome, after)) :
    cursor.current < after.current := by
  obtain ⟨⟨byte, next⟩, taken, h⟩ := ok_of_bind h
  obtain ⟨_, rfl⟩ := advance_ok source taken
  exact scanFrom_current source (Nat.lt_succ_self cursor.current) h

end

/-! ### Item by item -/

/-- The next item, if there is one. -/
def next (cursor : ByteCursor) : Except Breakdown (Option Item × ByteCursor) :=
  if cursor.done then
    .ok (none, cursor)
  else if cursor.atEnd source then
    .ok (some (.token (.ending cursor.line)), { cursor with done := true })
  else
    match _h : cursor.scanSpan source with
    | .error e => .error e
    | .ok (.error fault, after) => .ok (some (.fault fault), after)
    | .ok (.ok (some kind), after) => do
      let lexeme ← slice source after.start after.current
      return (some (.token ⟨kind, lexeme, after.line⟩), after)
    | .ok (.ok none, after) => next after
termination_by cursor.remaining source
decreasing_by
  have onward := scanSpan_current source _h
  have inside : cursor.current < source.toUTF8.size := by
    simpa [atEnd] using ‹¬cursor.atEnd source = true›
  simp only [remaining]
  omega

/-- What a cursor hands out the first, the second, the third time and so on. -/
def answer : Nat → ByteCursor → Except Breakdown (Option Item)
  | 0, cursor => Prod.fst <$> cursor.next source
  | n + 1, cursor => do
    let (_, after) ← cursor.next source
    answer n after

/-- Where the spans that are read start and end, one after another. -/
def cuts (cursor : ByteCursor) : Except Breakdown (List (Nat × Nat)) :=
  if cursor.atEnd source then
    .ok []
  else
    match _h : cursor.scanSpan source with
    | .error e => .error e
    | .ok (_, after) => ((after.start, after.current) :: ·) <$> cuts after
termination_by cursor.remaining source
decreasing_by
  have onward := scanSpan_current source _h
  have inside : cursor.current < source.toUTF8.size := by
    simpa [atEnd] using ‹¬cursor.atEnd source = true›
  simp only [remaining]
  omega

end ByteCursor

end Lox.Lexical
