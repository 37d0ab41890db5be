import Lox.Proofs.Lexical.Encoding
import Lox.Proofs.Lexical.LongestMatch

/-! # The stream is read from the bytes

  A cursor that stands between two characters reads the span that starts there and stands
  behind it (`scanSpan_eq`). It never breaks off: no byte is taken that is not there, and every
  text is cut between two characters, although the bytes of a comment or a string are passed
  over one by one. So the items it hands out are those of the stream (`answer_eq`).
-/

namespace Lox.Lexical

/-- What is read of a span that ends on a line. -/
def Span.outcome (line : Nat) : Span → Outcome
  | blank _ => .ok none
  | comment _ => .ok none
  | lexeme kind _ => .ok (some kind)
  | stray c => .error ⟨.unexpectedCharacter c, line⟩
  | openString _ => .error ⟨.unterminatedString, line⟩

namespace ByteCursor

variable {source : String} {cursor : ByteCursor} {before after : List Char}

/-- Whether a cursor stands between two parts of a text. -/
structure Between (source : String) (before after : List Char) (cursor : ByteCursor) : Prop where
  /-- The parts make up the text. -/
  text : source.toList = before ++ after
  /-- The bytes of the first part have been read. -/
  current : cursor.current = width before

theorem between_initial (source : String) : Between source [] source.toList initial :=
  ⟨rfl, rfl⟩

/-- The bytes that a cursor has not read. -/
def ahead (source : String) (cursor : ByteCursor) : List UInt8 :=
  source.toUTF8.data.toList.drop cursor.current

theorem ahead_skip (source : String) (cursor : ByteCursor) :
    cursor.skip.ahead source = (cursor.ahead source).tail := by
  rw [ahead, ahead, List.tail_drop]
  rfl

theorem ahead_cons {byte : UInt8} {bytes : List UInt8} (h : cursor.ahead source = byte :: bytes) :
    cursor.skip.ahead source = bytes := by
  rw [ahead_skip, h, List.tail_cons]

theorem atEnd_iff : cursor.atEnd source = true ↔ cursor.ahead source = [] := by
  rw [atEnd, decide_eq_true_iff, ahead, List.drop_eq_nil_iff, Array.length_toList]
  rfl

theorem byteAt_ahead (source : String) (cursor : ByteCursor) (further : Nat) :
    byteAt source (cursor.current + further) = (cursor.ahead source)[further]?.getD 0 := by
  rw [byteAt, ahead, List.getElem?_drop, Array.getElem?_toList]

theorem advance_eq {byte : UInt8} {bytes : List UInt8} (h : cursor.ahead source = byte :: bytes) :
    cursor.advance source = .ok (byte, cursor.skip) := by
  have here : source.toUTF8.data[cursor.current]? = some byte := by
    rw [← Array.getElem?_toList, ← Nat.add_zero cursor.current, ← List.getElem?_drop]
    exact congrArg (·[0]?) h
  rw [advance, here]
  rfl

namespace Between

variable (h : Between source before after cursor)
include h

theorem ahead_eq : cursor.ahead source = encoded after := by
  rw [ahead, bytes_eq, h.text, h.current, encoded_append]
  exact List.drop_left

theorem atEnd_eq : cursor.atEnd source = after.isEmpty := by
  rw [Bool.eq_iff_iff, atEnd_iff, h.ahead_eq, List.isEmpty_iff]
  constructor
  · intro none
    by_contra some
    have pos := width_pos some
    rw [width, none] at pos
    exact Nat.lt_irrefl 0 pos
  · rintro rfl
    rfl

theorem peek_eq {p : Char → Bool} (plain : Plain p) (zero : p (Char.ofUInt8 0) = false) :
    p (cursor.peek source) = after.head?.any p := by
  rw [peek, ← Nat.add_zero cursor.current, byteAt_ahead, h.ahead_eq]
  exact head_encoded plain zero after

/-- A cursor that has passed over some characters. -/
theorem moved {passed rest : List Char} {other : ByteCursor} (split : after = passed ++ rest)
    (current : other.current = width (before ++ passed)) :
    Between source (before ++ passed) rest other :=
  ⟨by rw [h.text, split, List.append_assoc], current⟩

theorem skip {c : Char} {rest : List Char} (ascii : IsAscii c) (split : after = c :: rest) :
    Between source (before ++ [c]) rest cursor.skip := by
  refine h.moved split ?_
  obtain ⟨byte, code, _⟩ := encode_ascii ascii
  have one : c.utf8Size = 1 := by
    rw [← String.length_utf8EncodeChar, code]
    rfl
  rw [width_append, width_cons, width_nil, one, ← h.current]
  rfl

end Between

/-! ### Spans of several bytes -/

/-- A loop over the characters of a class takes all of them. -/
theorem skipWhile_eq {p : Char → Bool} (plain : Plain p) (stops : p (Char.ofUInt8 0) = false)
    (h : Between source before after cursor) : cursor.skipWhile source p stops =
      { cursor with current := width (before ++ after.takeWhile p) } := by
  induction after generalizing before cursor with
  | nil =>
    have last : ¬p (cursor.peek source) = true := by
      rw [h.peek_eq plain stops]
      exact Bool.false_ne_true
    rw [skipWhile, if_neg last, List.takeWhile_nil, List.append_nil, ← h.current]
  | cons c rest ih =>
    have here : p (cursor.peek source) = p c := h.peek_eq plain stops
    rw [skipWhile, here]
    by_cases holds : p c = true
    · have next := ih (h.skip (plain c holds) rfl)
      rw [List.takeWhile_cons_of_pos holds, List.append_cons, if_pos holds, next]
      rfl
    · rw [List.takeWhile_cons_of_neg holds, List.append_nil, if_neg holds, ← h.current]

theorem findIdx?_takeWhile {α : Type} (p : α → Bool) (xs : List α) :
    xs.findIdx? p = none ∧ xs.takeWhile (fun x => !p x) = xs ∨
      xs.findIdx? p = some (xs.takeWhile fun x => !p x).length := by
  induction xs with
  | nil => exact .inl ⟨rfl, rfl⟩
  | cons x xs ih =>
    rw [List.findIdx?_cons, List.takeWhile_cons]
    cases p x with
    | true => exact .inr rfl
    | false =>
      rcases ih with ⟨none, all⟩ | found
      · exact .inl ⟨by simp [none], by simp [all]⟩
      · exact .inr (by simp [found])

theorem beq_toUInt8 {c : Char} (ascii : IsAscii c) (byte : UInt8) :
    (byte == c.toUInt8) = (Char.ofUInt8 byte == c) := by
  have code : c.toUInt8.toNat = c.toNat := by
    show c.toNat % 256 = c.toNat
    exact Nat.mod_eq_of_lt (Nat.lt_trans ascii (by decide))
  rw [Bool.eq_iff_iff, beq_iff_eq, beq_iff_eq, ← UInt8.toNat_inj, code]
  exact ⟨fun same => Char.toNat_inj.mp same, fun same => congrArg Char.toNat same⟩

theorem even_ne {c : Char} (ascii : IsAscii c) : Even (· != c) :=
  (plain_eq ascii).even.not

/-- A comment ends before the next newline, or at the end of the text. -/
theorem skipLine_eq (h : Between source before after cursor) : cursor.skipLine source =
    .ok { cursor with current := width (before ++ after.takeWhile (· != '\n')) } := by
  have whole : source.toList = before ++ after ++ [] := h.text.trans (List.append_nil _).symm
  have size : source.toUTF8.size = width before + width after := by
    rw [size_eq, h.text, width_append]
  have line := (takeWhile_encoded (even_ne (by decide : IsAscii '\n')) after).1
  have find := findIdx?_takeWhile (fun byte => Char.ofUInt8 byte == '\n') (encoded after)
  have same : memchr? '\n'.toUInt8 (String.ofList after).toUTF8 =
      (encoded after).findIdx? (fun byte => Char.ofUInt8 byte == '\n') := by
    rw [memchr?, ← toUTF8_ofList, ← List.findIdx?_toArray, Array.toArray_toList]
    exact congrArg (fun p => Array.findIdx? p _) (funext (beq_toUInt8 (by decide)))
  rw [skipLine, h.current, size, sliceBytes_eq whole]
  dsimp only [bind, Except.bind]
  rw [same, width_append]
  rcases find with ⟨none, all⟩ | found
  · have all : (encoded after).takeWhile (fun byte => Char.ofUInt8 byte != '\n') =
        encoded after := all
    rw [none, width, width, width, ← line, all]
    rfl
  · rw [found]
    have length : ((encoded after).takeWhile fun byte => !(Char.ofUInt8 byte == '\n')).length =
        width (after.takeWhile (· != '\n')) := congrArg List.length line
    rw [length]
    rfl

/-- The bytes of a string are passed over one by one, and its lines are counted. -/
theorem skipString_bytes {bytes : List UInt8} (h : cursor.ahead source = bytes) :
    cursor.skipString source =
      let inside := bytes.takeWhile fun byte => Char.ofUInt8 byte != '"'
      .ok { cursor with
        current := cursor.current + inside.length
        line := cursor.line + inside.countP fun byte => Char.ofUInt8 byte == '\n' } := by
  induction bytes generalizing cursor with
  | nil => rw [skipString, atEnd_iff.mpr h, Bool.true_or, if_pos rfl]; rfl
  | cons byte bytes ih =>
    have notEnd : cursor.atEnd source = false := by
      rw [Bool.eq_false_iff, ne_eq, atEnd_iff, h]
      exact List.cons_ne_nil byte bytes
    have here : cursor.peek source = Char.ofUInt8 byte := by
      rw [peek, ← Nat.add_zero cursor.current, byteAt_ahead, h]
      rfl
    rw [skipString, notEnd, Bool.false_or, here]
    by_cases quote : (Char.ofUInt8 byte == '"') = true
    · rw [if_pos quote, List.takeWhile_cons_of_neg (by simpa using quote)]
      rfl
    · rw [if_neg quote, List.takeWhile_cons_of_pos (by simpa using quote)]
      split
      · next failed =>
        rw [advance_eq h] at failed
        cases failed
      · next byte' next taken =>
        rw [advance_eq h] at taken
        cases taken
        dsimp only
        rw [List.length_cons, List.countP_cons]
        split
        · -- a newline
          have later : { cursor.skip with line := cursor.skip.line + 1 }.ahead source = bytes :=
            ahead_cons h
          rw [ih later]
          simp only [skip, Except.ok.injEq, mk.injEq, true_and, and_true]
          omega
        · rw [ih (ahead_cons h)]
          simp only [skip, Except.ok.injEq, mk.injEq, true_and, and_true]
          omega

theorem skipString_eq (h : Between source before after cursor) :
    cursor.skipString source =
      let inside := after.takeWhile (· != '"')
      .ok { cursor with
        current := width (before ++ inside), line := cursor.line + inside.count '\n' } := by
  have bytes := (takeWhile_encoded (even_ne (by decide : IsAscii '"')) after).1
  rw [skipString_bytes h.ahead_eq, bytes]
  dsimp only
  rw [countP_encoded (plain_eq (by decide : IsAscii '\n')), h.current, width_append]
  rfl

/-! ### One span -/

/-- What a cursor reads of a span that starts after some characters, and where it is then. -/
def leave (cursor : ByteCursor) (before : List Char) (span : Span) : Outcome × ByteCursor :=
  (span.outcome (cursor.line + span.newlines),
    { cursor with current := width (before ++ span.text), line := cursor.line + span.newlines })

theorem leave_lexeme (cursor : ByteCursor) (before : List Char) (kind : TokenKind)
    {text : List Char} (same : '\n' ∉ text) : cursor.leave before (.lexeme kind text) =
      (.ok (some kind), { cursor with current := width (before ++ text) }) := by
  have none : (Span.lexeme kind text).newlines = 0 := List.count_eq_zero.mpr same
  rw [leave, none]
  rfl

/-- The characters of a fraction that a text starts with. -/
def fractionOf : List Char → List Char
  | '.' :: d :: rest => if isDigit d then '.' :: d :: rest.takeWhile isDigit else []
  | _ => []

theorem fractionOf_prefix (text : List Char) : ∃ rest, fractionOf text ++ rest = text := by
  fun_cases fractionOf text with
  | case1 d rest digit => exact ⟨rest.dropWhile isDigit, by simp⟩
  | case2 d rest digit => exact ⟨_, rfl⟩
  | case3 => exact ⟨_, rfl⟩

theorem fractionOf_chars (text : List Char) :
    ∀ d ∈ fractionOf text, d = '.' ∨ isDigit d = true := by
  fun_cases fractionOf text with
  | case1 d rest digit =>
    rintro e (_ | ⟨_, _ | ⟨_, mem⟩⟩)
    · exact .inl rfl
    · exact .inr digit
    · exact .inr (List.mem_takeWhile_imp mem)
  | case2 => nofun
  | case3 => nofun

theorem skipFraction_eq (h : Between source before after cursor) : cursor.skipFraction source =
    { cursor with current := width (before ++ fractionOf after) } := by
  have point : (cursor.peek source == '.') = after.head?.any (· == '.') :=
    h.peek_eq (plain_eq (by decide)) (by decide)
  have nothing : { cursor with current := width (before ++ []) } = cursor := by
    rw [List.append_nil, ← h.current]
  rw [skipFraction, point]
  fun_cases fractionOf after with
  | case1 d rest digit =>
    have behind := h.skip (by decide) rfl
    have next : isDigit (cursor.peekNext source) = isDigit d := behind.peek_eq plain_isDigit rfl
    have digits := skipWhile_eq plain_isDigit rfl behind
    rw [List.takeWhile_cons_of_pos digit, List.append_assoc] at digits
    rw [next, if_pos (by simp [digit]), digits]
    rfl
  | case2 d rest digit =>
    have next : isDigit (cursor.peekNext source) = isDigit d :=
      (h.skip (by decide) rfl).peek_eq plain_isDigit rfl
    rw [next, if_neg (by simp [digit]), nothing]
  | case3 _ other =>
    rw [nothing]
    cases after with
    | nil => rfl
    | cons e tail =>
      by_cases dot : e = '.'
      · subst dot
        have next : isDigit (cursor.peekNext source) = tail.head?.any isDigit :=
          (h.skip (by decide) rfl).peek_eq plain_isDigit rfl
        cases tail with
        | nil => simp [next]
        | cons d rest => exact absurd rfl (other d rest)
      · simp [dot]

theorem ne_point_of_digit {d : Char} (digit : isDigit d = true) : (d != '.') = true := by
  rw [bne_iff_ne]
  rintro rfl
  exact absurd digit (by decide)

theorem numberValue_whole {digits : List Char} (all : ∀ d ∈ digits, isDigit d = true) :
    numberValue (String.ofList digits) = Number.ofDecimal digits [] := by
  have points : ∀ d ∈ digits, (d != '.') = true := fun d mem => ne_point_of_digit (all d mem)
  unfold numberValue
  rw [String.toList_ofList, List.takeWhile_eq_self_iff.mpr points]
  exact congrArg (Number.ofDecimal digits) (List.drop_of_length_le (Nat.le_succ _))

theorem numberValue_decimal {digits : List Char} (all : ∀ d ∈ digits, isDigit d = true)
    (fraction : List Char) : numberValue (String.ofList (digits ++ '.' :: fraction)) =
      Number.ofDecimal digits fraction := by
  have points : ∀ d ∈ digits, (d != '.') = true := fun d mem => ne_point_of_digit (all d mem)
  unfold numberValue
  have length : digits.length + 1 = (digits ++ ['.']).length := by rw [List.length_append]; rfl
  have tail : (digits ++ '.' :: fraction).drop (digits.length + 1) = fraction := by
    rw [List.append_cons, length, List.drop_left]
  rw [String.toList_ofList, (takeWhile_until points (by decide)).1]
  exact congrArg (Number.ofDecimal digits) tail

/-- A number is its digits, with the fraction that they start. -/
theorem takeNumber_eq {c : Char} {rest : List Char} (digit : isDigit c = true) :
    let text := c :: rest.takeWhile isDigit ++ fractionOf (rest.dropWhile isDigit)
    (takeNumber c rest).1 = .lexeme (.number (numberValue (String.ofList text))) text := by
  have all : ∀ d ∈ c :: rest.takeWhile isDigit, isDigit d = true :=
    List.forall_mem_cons.mpr ⟨digit, fun d mem => List.mem_takeWhile_imp mem⟩
  unfold takeNumber
  dsimp only
  generalize rest.dropWhile isDigit = tail
  fun_cases fractionOf tail with
  | case1 d more digit' =>
    rw [numberValue_decimal all]
    simp [digit']
  | case2 d more digit' =>
    rw [List.append_nil, numberValue_whole all]
    simp [digit']
  | case3 _ other =>
    rw [List.append_nil, numberValue_whole all]
    split
    · exact absurd rfl (other _ _)
    · rfl

/-- Words are the same if their bytes are. -/
theorem wordKindOfBytes_eq (word : List Char) :
    wordKindOfBytes (String.ofList word).toUTF8 = wordKind word := by
  have same : ∀ k : Keyword,
      decide (k.spelling.toUTF8.data = (String.ofList word).toUTF8.data) =
        (k.spelling == String.ofList word) := by
    intro k
    rw [Bool.eq_iff_iff, decide_eq_true_iff, beq_iff_eq, ← ByteArray.ext_iff,
      String.toUTF8_eq_toByteArray, String.toUTF8_eq_toByteArray, String.toByteArray_inj]
  have found : Keyword.all.find?
      (fun k => k.spelling.toUTF8.data = (String.ofList word).toUTF8.data) =
        Keyword.ofSpelling? (String.ofList word) := congrArg Keyword.all.find? (funext same)
  cases kind : Keyword.ofSpelling? (String.ofList word) with
  | none => simp only [wordKindOfBytes, wordKind, found, kind]
  | some k => simp only [wordKindOfBytes, wordKind, found, kind]

section

variable {c : Char} {rest : List Char} (h : Between source (before ++ [c]) rest cursor)
include h

theorem comment_eq (first : c ≠ '\n') : cursor.skipLine source =
    .ok (cursor.leave before (takeComment c rest).1).2 := by
  have line : (c :: rest.takeWhile (· != '\n')).count '\n' = 0 := by
    rw [List.count_cons_of_ne first, List.count_eq_zero]
    exact fun mem => absurd (List.mem_takeWhile_imp mem) (by decide)
  rw [skipLine_eq h]
  simp [leave, takeComment, Span.newlines, Span.text, line]

theorem string_eq (start : cursor.start = width before) (quote : c = '"') :
    cursor.string source = .ok (cursor.leave before (takeString c rest).1) := by
  subst quote
  have text : rest.takeWhile (· != '"') ++ rest.dropWhile (· != '"') = rest :=
    List.takeWhile_append_dropWhile
  have skipped := skipString_eq h
  unfold takeString
  generalize rest.takeWhile (· != '"') = inside at text skipped ⊢
  have passed : Between source (before ++ ['"'] ++ inside) (rest.dropWhile (· != '"'))
      { cursor with
        current := width (before ++ ['"'] ++ inside), line := cursor.line + inside.count '\n' } :=
    h.moved text.symm rfl
  have ended := passed.atEnd_eq
  rw [string, skipped]
  show (if atEnd source _ = true then _ else _ : Except Breakdown (Outcome × ByteCursor)) = _
  cases ends : rest.dropWhile (· != '"') with
  | nil =>
    rw [ends] at ended
    rw [ended, if_pos List.isEmpty_nil]
    simp [leave, Span.outcome, Span.newlines, Span.text]
    rfl
  | cons d rest' =>
    rw [ends] at ended text
    have quote : d = '"' := by
      have first := List.head?_dropWhile_not (· != '"') rest
      rw [ends] at first
      simpa using first
    subst quote
    have first : cursor.start + 1 = width (before ++ ['"']) := by
      rw [width_append, start]
      rfl
    have cut : slice source (cursor.start + 1) (width (before ++ ['"'] ++ inside)) =
        .ok (String.ofList inside) := by
      rw [first, width_append _ inside]
      refine slice_eq (c := '"' :: rest') ?_
      rw [h.text, ← text, ← List.append_assoc]
    rw [ended, List.isEmpty_cons, if_neg Bool.false_ne_true]
    show (slice source (cursor.start + 1) (width (before ++ ['"'] ++ inside)) >>= _) = _
    rw [cut]
    have one : '"'.utf8Size = 1 := rfl
    simp [leave, Span.outcome, Span.newlines, Span.text, skip, one, Nat.add_assoc]

/-- The text of a lexeme that ends where the cursor stands. -/
theorem lexeme_cut {text more : List Char} (start : cursor.start = width before)
    (split : c :: rest = text ++ more) :
    slice source cursor.start (width (before ++ text)) = .ok (String.ofList text) := by
  rw [start, width_append]
  refine slice_eq (c := more) ?_
  rw [h.text, List.append_assoc, List.append_assoc, ← split]
  rfl

theorem number_eq (start : cursor.start = width before) (digit : isDigit c = true) :
    cursor.number source = .ok (cursor.leave before (takeNumber c rest).1) := by
  have text := List.takeWhile_append_dropWhile (p := isDigit) (l := rest)
  have passed : Between source (before ++ [c] ++ rest.takeWhile isDigit) (rest.dropWhile isDigit)
      { cursor with current := width (before ++ [c] ++ rest.takeWhile isDigit) } :=
    h.moved text.symm rfl
  obtain ⟨more, tail⟩ := fractionOf_prefix (rest.dropWhile isDigit)
  have split : c :: rest = c :: rest.takeWhile isDigit ++ fractionOf (rest.dropWhile isDigit) ++
      more := by
    rw [List.append_assoc, tail, List.cons_append, text]
  have sameLine : '\n' ∉ c :: rest.takeWhile isDigit ++ fractionOf (rest.dropWhile isDigit) := by
    rintro (_ | ⟨_, mem⟩)
    · exact absurd digit (by decide)
    · rcases List.mem_append.mp mem with mem | mem
      · exact absurd (List.mem_takeWhile_imp mem) (by decide)
      · exact absurd (fractionOf_chars _ _ mem) (by decide)
  rw [number, skipWhile_eq plain_isDigit rfl h, skipFraction_eq passed, takeNumber_eq digit,
    leave_lexeme _ _ _ sameLine]
  have last : before ++ [c] ++ rest.takeWhile isDigit ++ fractionOf (rest.dropWhile isDigit) =
      before ++ (c :: rest.takeWhile isDigit ++ fractionOf (rest.dropWhile isDigit)) := by simp
  dsimp only
  rw [last, lexeme_cut h start split]
  rfl

theorem word_eq (start : cursor.start = width before) (first : isNamePart c = true) :
    cursor.word source = .ok (cursor.leave before (takeWord c rest).1) := by
  have sameLine : '\n' ∉ c :: rest.takeWhile isNamePart := by
    rintro (_ | ⟨_, mem⟩)
    · exact absurd first (by decide)
    · exact absurd (List.mem_takeWhile_imp mem) (by decide)
  have last : before ++ [c] ++ rest.takeWhile isNamePart =
      before ++ (c :: rest.takeWhile isNamePart) := (List.append_cons _ _ _).symm
  have split : source.toList = before ++ (c :: rest.takeWhile isNamePart) ++
      rest.dropWhile isNamePart := by
    rw [h.text, ← last, List.append_assoc _ _ (rest.dropWhile isNamePart),
      List.takeWhile_append_dropWhile]
  rw [word, skipWhile_eq plain_isNamePart rfl h, takeWord, leave_lexeme _ _ _ sameLine]
  dsimp only
  rw [last, start, width_append, sliceBytes_eq split, ← wordKindOfBytes_eq]
  rfl

theorem punctuator_eq {p : Punctuator} (found : punctuator? c = some p) (first : c ≠ '\n') :
    cursor.punctuator source p = cursor.leave before (takePunctuator c rest).1 := by
  have equal : (cursor.peek source == '=') = rest.head?.any (· == '=') :=
    h.peek_eq (plain_eq (by decide)) (by decide)
  have short : '\n' ∉ [c] := by simpa using first.symm
  have long : '\n' ∉ [c, '='] := by simpa using first.symm
  have here : { cursor with current := width (before ++ [c]) } = cursor := by rw [← h.current]
  unfold punctuator takePunctuator
  rw [found, equal]
  dsimp only
  cases withEqual? p with
  | none => exact ((leave_lexeme _ _ _ short).trans (by rw [here])).symm
  | some q =>
    by_cases next : rest.head?.any (· == '=') = true
    · obtain ⟨tail, rfl⟩ : ∃ tail, rest = '=' :: tail := by
        cases rest with
        | nil => exact absurd next Bool.false_ne_true
        | cons d tail => exact ⟨tail, by rw [beq_iff_eq.mp next]⟩
      have behind : cursor.skip = { cursor with current := width (before ++ [c, '=']) } := by
        rw [List.append_cons, ← (h.skip (by decide) rfl).current]
        rfl
      dsimp only
      rw [if_pos next, behind]
      exact (leave_lexeme _ _ _ long).symm
    · dsimp only
      rw [if_neg next]
      split
      · exact absurd rfl next
      · exact ((leave_lexeme _ _ _ short).trans (by rw [here])).symm

end

theorem stray_eq {c : Char} {rest : List Char} {byte : UInt8}
    (text : source.toList = before ++ c :: rest) (start : cursor.start = width before)
    (found : punctuator? c = none) (line : c ≠ '\n') :
    cursor.stray source byte = .ok (cursor.leave before (takePunctuator c rest).1) := by
  have size : source.toUTF8.size = width before + width (c :: rest) := by
    rw [size_eq, text, width_append]
  have cut : slice source (width before) (width before + width (c :: rest)) =
      .ok (String.ofList (c :: rest)) := slice_eq (text.trans (List.append_nil _).symm)
  have sameLine : (Span.stray c).newlines = 0 :=
    List.count_eq_zero.mpr (by simpa [Span.text] using line.symm)
  have taken : takePunctuator c rest = (.stray c, rest) := by rw [takePunctuator, found]
  have last : width before + c.utf8Size = width (before ++ [c]) := by
    rw [width_append, width_cons, width_nil, Nat.add_zero]
  rw [stray, start, size, cut, taken, leave, sameLine]
  show Except.ok (_, { cursor with start := width before, current := _ }) = _
  rw [String.toList_ofList, List.head?_cons, Option.getD_some, last, ← start]
  rfl

/-- No lexeme starts with a character beyond ASCII, and no blank is one. -/
theorem outside_classes {c : Char} (other : ¬IsAscii c) : c ≠ '/' ∧ c ≠ '\n' ∧
    isBlank c = false ∧ c ≠ '"' ∧ isDigit c = false ∧ isNameStart c = false ∧
    punctuator? c = none := by
  have apart : ∀ {d : Char}, IsAscii d → c ≠ d := fun ascii same => other (same ▸ ascii)
  refine ⟨apart (by decide), apart (by decide), ?_, apart (by decide), ?_, ?_, ?_⟩
  · simp only [isBlank, Bool.or_eq_false_iff, beq_eq_false_iff_ne]
    exact ⟨⟨⟨apart (by decide), apart (by decide)⟩, apart (by decide)⟩, apart (by decide)⟩
  · exact Bool.eq_false_iff.mpr fun digit => other (plain_isDigit c digit)
  · refine Bool.eq_false_iff.mpr fun start => other (plain_isNamePart c ?_)
    rw [isNamePart, start, Bool.true_or]
  · by_contra some
    obtain ⟨p, found⟩ := Option.ne_none_iff_exists'.mp some
    unfold punctuator? at found
    split at found <;> first | exact other (by decide) | cases found

theorem takeSpan_other {c : Char} (other : ¬IsAscii c) (rest : List Char) :
    takeSpan c rest = takePunctuator c rest := by
  obtain ⟨slash, _, blank, quote, digit, start, _⟩ := outside_classes other
  simp [takeSpan, startsComment, slash, blank, quote, digit, start]

/-- What is read on after an ASCII character. -/
theorem scanFrom_ascii {d : Char} {rest : List Char} {byte : UInt8} (code : Char.ofUInt8 byte = d)
    (h : Between source (before ++ [d]) rest cursor) (start : cursor.start = width before) :
    cursor.scanFrom source byte = .ok (cursor.leave before (takeSpan d rest).1) := by
  have slash : (cursor.peek source == '/') = rest.head?.any (· == '/') :=
    h.peek_eq (plain_eq (by decide)) (by decide)
  have comment : (d == '/' && cursor.peek source == '/') = startsComment d rest := by
    rw [slash, startsComment]
    cases rest <;> rfl
  rw [scanFrom, code, comment]
  -- one case for each branch of the reading, in its order
  by_cases isComment : startsComment d rest = true
  · have first : d = '/' := by
      rw [startsComment, Bool.and_eq_true] at isComment
      exact beq_iff_eq.mp isComment.1
    have taken : takeSpan d rest = takeComment d rest := by
      rw [takeSpan, if_pos isComment, first]
      rfl
    rw [if_pos isComment, comment_eq h (first ▸ by decide), taken]
    rfl
  rw [if_neg isComment]
  by_cases line : d = '\n'
  · subst line
    have taken : takeSpan '\n' rest = (.blank '\n', rest) := if_pos rfl
    rw [if_pos (beq_self_eq_true _), taken, leave, Span.text, ← h.current]
    rfl
  rw [if_neg (mt beq_iff_eq.mp line)]
  by_cases blank : isBlank d = true
  · have taken : takeSpan d rest = (.blank d, rest) := if_pos blank
    have sameLine : (Span.blank d).newlines = 0 :=
      List.count_eq_zero.mpr (by simpa [Span.text] using Ne.symm line)
    rw [if_pos blank, taken, leave, sameLine, Span.text, ← h.current]
    rfl
  rw [if_neg blank]
  by_cases quote : d = '"'
  · have taken : takeSpan d rest = takeString d rest := by
      rw [takeSpan, if_neg blank, if_neg isComment, if_pos (beq_iff_eq.mpr quote)]
    rw [if_pos (beq_iff_eq.mpr quote), string_eq h start quote, taken]
  rw [if_neg (mt beq_iff_eq.mp quote)]
  have word : takeSpan d rest = if isDigit d then takeNumber d rest
      else if isNameStart d then takeWord d rest else takePunctuator d rest := by
    rw [takeSpan, if_neg blank, if_neg isComment, if_neg (mt beq_iff_eq.mp quote)]
  rw [word]
  by_cases digit : isDigit d = true
  · rw [if_pos digit, if_pos digit, number_eq h start digit]
  rw [if_neg digit, if_neg digit]
  by_cases letter : isNameStart d = true
  · have part : isNamePart d = true := by rw [isNamePart, letter, Bool.true_or]
    rw [if_pos letter, if_pos letter, word_eq h start part]
  rw [if_neg letter, if_neg letter]
  cases found : punctuator? d with
  | none =>
    have text : source.toList = before ++ d :: rest := h.text.trans (List.append_cons ..).symm
    exact stray_eq text start found line
  | some p => exact congrArg Except.ok (punctuator_eq h found line)

/-- What is read on after the first byte of another character. -/
theorem scanFrom_other {d : Char} {rest : List Char} {byte : UInt8}
    (beyond : ¬IsAscii (Char.ofUInt8 byte)) (other : ¬IsAscii d)
    (text : source.toList = before ++ d :: rest) (start : cursor.start = width before) :
    cursor.scanFrom source byte = .ok (cursor.leave before (takeSpan d rest).1) := by
  -- the byte is in no class, like the character
  obtain ⟨slash, line, blank, quote, digit, letter, none⟩ := outside_classes beyond
  obtain ⟨_, line', _, _, _, _, none'⟩ := outside_classes other
  have aside : cursor.scanFrom source byte = cursor.stray source byte := by
    simp [scanFrom, slash, line, blank, quote, digit, letter, none]
  rw [aside, stray_eq text start none' line', takeSpan_other other]

/-- A cursor between two characters reads the span that starts there, and stands behind it. -/
theorem scanSpan_eq {d : Char} {rest : List Char} (h : Between source before (d :: rest) cursor) :
    cursor.scanSpan source =
      .ok (leave { cursor with start := cursor.current } before (takeSpan d rest).1) := by
  generalize begun : { cursor with start := cursor.current } = first
  have stands : Between source before (d :: rest) first := begun ▸ ⟨h.text, h.current⟩
  have start : first.skip.start = width before := by
    rw [← begun]
    exact h.current
  obtain ⟨byte, more, code, _⟩ := encode_lead d
  have bytes : first.ahead source = byte :: (more ++ encoded rest) := by
    rw [stands.ahead_eq, encoded_cons, code]
    rfl
  rw [scanSpan, begun, advance_eq bytes]
  show first.skip.scanFrom source byte = _
  by_cases ascii : IsAscii d
  · obtain ⟨only, code', same⟩ := encode_ascii ascii
    obtain ⟨rfl, _⟩ := List.cons.inj (code.symm.trans code')
    exact scanFrom_ascii same (stands.skip ascii rfl) start
  · have beyond := encode_other ascii byte (code ▸ List.mem_cons_self ..)
    exact scanFrom_other beyond ascii stands.text start

/-! ### All spans and items -/

/-- The cursor behind the first span of a text. -/
theorem Between.behind {d : Char} {rest : List Char}
    (h : Between source before (d :: rest) cursor) :
    Between source (before ++ (takeSpan d rest).1.text) (takeSpan d rest).2
      (leave { cursor with start := cursor.current } before (takeSpan d rest).1).2 :=
  h.moved (takeSpan_text d rest).symm rfl

/-- The text of the first span is cut between characters. -/
theorem Between.cut {d : Char} {rest : List Char} (h : Between source before (d :: rest) cursor) :
    slice source (width before) (width (before ++ (takeSpan d rest).1.text)) =
      .ok (String.ofList (takeSpan d rest).1.text) := by
  rw [width_append]
  refine slice_eq (c := (takeSpan d rest).2) ?_
  rw [h.text, List.append_assoc, takeSpan_text]

/-- Whether some cuts follow one another from an index to another one, none of them empty. -/
def Consecutive (first : Nat) : List (Nat × Nat) → Nat → Prop
  | [], last => first = last
  | cut :: cuts, last => cut.1 = first ∧ cut.1 < cut.2 ∧ Consecutive cut.2 cuts last

theorem cuts_of_scanSpan {read : Outcome × ByteCursor} (inside : cursor.atEnd source = false)
    (h : cursor.scanSpan source = .ok read) :
    cursor.cuts source = ((read.2.start, read.2.current) :: ·) <$> read.2.cuts source := by
  rw [cuts, if_neg (Bool.eq_false_iff.mp inside)]
  split
  · next failed => cases failed.symm.trans h
  · next found =>
    cases found.symm.trans h
    rfl

/-- The cuts are those of the spans. -/
theorem cuts_eq (h : Between source before after cursor) : ∃ cuts,
    cursor.cuts source = .ok cuts ∧ Consecutive (width before) cuts source.toUTF8.size ∧
    List.Forall₂ (fun cut span => slice source cut.1 cut.2 = .ok (String.ofList span.text))
      cuts (spans after) := by
  fun_induction spans after generalizing before cursor with
  | case1 =>
    have ended : cursor.atEnd source = true := by rw [h.atEnd_eq, List.isEmpty_nil]
    refine ⟨[], by rw [cuts, if_pos ended], ?_, .nil⟩
    rw [Consecutive, size_eq, h.text, List.append_nil]
  | case2 c rest ih =>
    have inside : cursor.atEnd source = false := by rw [h.atEnd_eq, List.isEmpty_cons]
    obtain ⟨later, read, follow, texts⟩ := ih h.behind
    have first : cursor.cuts source =
        .ok ((width before, width (before ++ (takeSpan c rest).1.text)) :: later) := by
      rw [cuts_of_scanSpan inside (scanSpan_eq h), read, ← h.current]
      rfl
    have some : (takeSpan c rest).1.text ≠ [] := fun none => by
      have head := takeSpan_head c rest
      rw [none] at head
      cases head
    have wide := width_pos some
    refine ⟨_, first, ⟨rfl, ?_, follow⟩, .cons h.cut texts⟩
    show width before < width _
    rw [width_append]
    omega

/-- Which items a cursor has left to hand out: those of the spans that it has not read. -/
inductive Left (source : String) : ByteCursor → List Item → Prop where
  /-- The end token was handed out. -/
  | ended {cursor : ByteCursor} : cursor.done = true → Left source cursor []
  /-- Some spans are left, and the end token. -/
  | spans {before after : List Char} {cursor : ByteCursor} :
      Between source before after cursor → cursor.done = false →
      Left source cursor (itemsFrom cursor.line (spans after))

/-- How the next item is found in the next span, or behind it. -/
theorem next_of_scanSpan {read : Outcome × ByteCursor} (going : cursor.done = false)
    (inside : cursor.atEnd source = false) (h : cursor.scanSpan source = .ok read) :
    cursor.next source =
      match read.1 with
      | .error fault => .ok (some (.fault fault), read.2)
      | .ok (some kind) => do
        let lexeme ← slice source read.2.start read.2.current
        return (some (.token ⟨kind, lexeme, read.2.line⟩), read.2)
      | .ok none => read.2.next source := by
  rw [next, if_neg (Bool.eq_false_iff.mp going), if_neg (Bool.eq_false_iff.mp inside)]
  split
  · next failed => cases failed.symm.trans h
  -- an error, a token, and a blank or comment
  all_goals
    next found =>
      cases found.symm.trans h
      rfl

/-- One step hands out the first of the items that are left, and never breaks off. -/
theorem next_left {left : List Item} (h : Left source cursor left) :
    ∃ later, cursor.next source = .ok (left.head?, later) ∧ Left source later left.tail := by
  cases h with
  | ended done => exact ⟨cursor, by rw [next, if_pos done]; rfl, .ended done⟩
  | @spans before after _ h going =>
    fun_induction Lexical.spans after generalizing before cursor with
    | case1 =>
      have ended : cursor.atEnd source = true := by rw [h.atEnd_eq, List.isEmpty_nil]
      refine ⟨{ cursor with done := true }, ?_, .ended rfl⟩
      rw [next, if_neg (Bool.eq_false_iff.mp going), if_pos ended]
      rfl
    | case2 c rest ih =>
      have inside : cursor.atEnd source = false := by rw [h.atEnd_eq, List.isEmpty_cons]
      have step := next_of_scanSpan going inside (scanSpan_eq h)
      have cut := h.cut
      have onward := Left.spans h.behind going
      have further := ih h.behind going
      rw [step, itemsFrom]
      generalize (takeSpan c rest).1 = span at *
      -- a span without an item leads to the next one
      cases span with
      | blank => exact further
      | comment => exact further
      | lexeme kind text =>
        refine ⟨_, ?_, onward⟩
        have token : slice source cursor.current (width (before ++ text)) =
            .ok (String.ofList text) := h.current ▸ cut
        show (slice source cursor.current (width (before ++ text)) >>= _) = _
        rw [token]
        rfl
      | stray => exact ⟨_, rfl, onward⟩
      | openString => exact ⟨_, rfl, onward⟩

theorem answer_left {left : List Item} (h : Left source cursor left) (n : Nat) :
    cursor.answer source n = .ok left[n]? := by
  induction n generalizing cursor left with
  | zero =>
    obtain ⟨later, step, _⟩ := next_left h
    rw [answer, step, ← List.head?_eq_getElem?]
    rfl
  | succ n ih =>
    obtain ⟨later, step, rest⟩ := next_left h
    rw [answer, step, ← List.getElem?_tail]
    exact ih rest

theorem left_initial (source : String) : Left source initial (items source) :=
  .spans (between_initial source) rfl

end ByteCursor

/-! ### The main statement -/

/-- A text is cut into spans that are not empty and lose nothing. Each of them may stand where it
    stands: it is a blank, a comment, the longest lexeme that can stand there or a stretch that
    belongs to no lexeme. No other spans do so. The stream reports these spans in order, with one
    end token after them.

    A cursor that reads the bytes of the text finds these spans, one behind the other from the
    first byte to the last, and cuts each of them out between two characters. It hands the stream
    out item by item, and nothing afterwards; it never takes a byte that is not there, nor does
    it cut a text within a character. -/
theorem spans_are_longest_matches (source : String) :
    (spans source.toList).flatMap Span.text = source.toList ∧
    (∀ span ∈ spans source.toList, span.text ≠ []) ∧
    AllStand (spans source.toList) ∧
    (∀ others, others.flatMap Span.text = source.toList → AllStand others →
      others = spans source.toList) ∧
    (∃ body line, items source = body ++ [.token (.ending line)] ∧
      List.Forall₂ Span.Reported ((spans source.toList).filter Span.isReported) body ∧
      ∀ t, .token t ∈ body → t.kind ≠ .eof) ∧
    (∃ cuts, ByteCursor.initial.cuts source = .ok cuts ∧
      ByteCursor.Consecutive 0 cuts source.toUTF8.size ∧
      List.Forall₂ (fun cut span => slice source cut.1 cut.2 = .ok (String.ofList span.text))
        cuts (spans source.toList)) ∧
    ∀ n, ByteCursor.initial.answer source n = .ok (items source)[n]? := by
  have stand := spans_stand source.toList
  refine ⟨spans_text _, stand.text_ne_nil, stand, ?_, ?_, ?_, ?_⟩
  · intro others covers stand'
    rw [← covers]
    exact spans_unique others stand'
  · exact itemsFrom_reports _ stand 1
  · exact ByteCursor.cuts_eq (ByteCursor.between_initial source)
  · exact ByteCursor.answer_left (ByteCursor.left_initial source)

end Lox.Lexical
