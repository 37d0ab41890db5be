import Mathlib.Data.List.Forall2
import Mathlib.Data.List.Infix
import Mathlib.Data.List.TakeWhile
import Lox.Proofs.Lexical.Words

/-! # Longest matches

  The lexical rules say which texts are lexemes and of which kind (`Lexeme`). A text is cut
  from left to right; where a lexeme can stand, the longest one does, and what belongs to no
  lexeme is a blank, a comment, a stray character or a string that is never closed
  (`Span.Stands`). There is one way to cut a text like this (`spans_unique`), and `spans` finds
  it (`spans_stand`); the stream reports the spans in order (`itemsFrom_reports`).
-/

namespace Lox.Lexical

/-! ### The lexical rules -/

/-- The texts that match a lexical rule, with the kind that the rule prescribes. -/
inductive Lexeme : TokenKind → List Char → Prop where
  /-- A letter or underscore, then letters, underscores and digits; no keyword. -/
  | name {c : Char} {rest : List Char} : isNameStart c = true →
      (∀ d ∈ rest, isNamePart d = true) →
      (∀ k : Keyword, String.ofList (c :: rest) ≠ k.spelling) → Lexeme .identifier (c :: rest)
  /-- A keyword. -/
  | keyword (k : Keyword) : Lexeme (.keyword k) k.spelling.toList
  /-- Digits. -/
  | whole {digits : List Char} : digits ≠ [] → (∀ d ∈ digits, isDigit d = true) →
      Lexeme (.number (Number.ofDecimal digits [])) digits
  /-- Digits, a dot and more digits. -/
  | decimal {digits fraction : List Char} : digits ≠ [] → (∀ d ∈ digits, isDigit d = true) →
      fraction ≠ [] → (∀ d ∈ fraction, isDigit d = true) →
      Lexeme (.number (Number.ofDecimal digits fraction)) (digits ++ '.' :: fraction)
  /-- Anything but quotes between two quotes. -/
  | string {inside : List Char} : '"' ∉ inside →
      Lexeme (.string (String.ofList inside)) ('"' :: inside ++ ['"'])
  /-- An operator or separator. -/
  | punctuator (p : Punctuator) : Lexeme (.punctuator p) p.spelling.toList

/-- Whether a lexeme is the longest one that a text can start with, and of the only kind that
    the rules prescribe for it. -/
def Longest (kind : TokenKind) (text after : List Char) : Prop :=
  Lexeme kind text ∧ ∀ kind' text', Lexeme kind' text' → text' <+: text ++ after →
    text'.length ≤ text.length ∧ (text' = text → kind' = kind)

/-- Whether a span may stand before the rest of a text. -/
def Span.Stands (after : List Char) : Span → Prop
  | blank c => isBlank c = true
  | comment text => ∃ body, text = '/' :: '/' :: body ∧ '\n' ∉ body ∧
      ∀ d, after.head? = some d → d = '\n'
  | lexeme kind text => Longest kind text after ∧ ¬['/', '/'] <+: text ++ after
  | stray c => isBlank c = false ∧ ∀ kind rest, ¬Lexeme kind (c :: rest)
  | openString text => ∃ inside, text = '"' :: inside ∧ '"' ∉ inside ∧ after = []

/-- Whether each of some spans may stand where it stands. -/
def AllStand : List Span → Prop
  | [] => True
  | span :: rest => span.Stands (rest.flatMap Span.text) ∧ AllStand rest

/-! ### Character classes -/

section

variable {c : Char}

theorem isNameStart_of_digit (h : isDigit c = true) : isNameStart c = false := by
  simp only [isDigit, isNameStart, Bool.and_eq_true, decide_eq_true_eq, Bool.or_eq_false_iff,
    Bool.and_eq_false_iff, decide_eq_false_iff_not, beq_eq_false_iff_ne, ne_eq] at h ⊢
  simp only [Char.le_def, UInt32.le_iff_toNat_le, Char.ext_iff, UInt32.ext_iff] at h ⊢
  simp at h ⊢
  omega

theorem isBlank_of_nameStart (h : isNameStart c = true) : isBlank c = false := by
  by_contra blank
  simp only [isBlank, Bool.not_eq_false, Bool.or_eq_true, beq_iff_eq] at blank
  rcases blank with ((rfl | rfl) | rfl) | rfl <;> exact absurd h (by decide)

theorem isBlank_of_digit (h : isDigit c = true) : isBlank c = false := by
  by_contra blank
  simp only [isBlank, Bool.not_eq_false, Bool.or_eq_true, beq_iff_eq] at blank
  rcases blank with ((rfl | rfl) | rfl) | rfl <;> exact absurd h (by decide)

end

/-! ### Lexemes by their first characters -/

section

variable {kind : TokenKind} {c : Char} {rest : List Char}

theorem wordKind_spelling (k : Keyword) : wordKind k.spelling.toList = .keyword k := by
  cases k <;> decide

theorem spelling_nameParts (k : Keyword) : ∀ d ∈ k.spelling.toList, isNamePart d = true := by
  apply List.all_eq_true.mp
  cases k <;> decide

theorem spelling_start {k : Keyword} (h : k.spelling.toList = c :: rest) :
    isNameStart c = true := by
  cases k <;> (simp [Keyword.spelling] at h; rw [← h.1]; decide)

/-- The punctuators of one and of two characters. -/
theorem spelling_punctuator {p : Punctuator} (h : p.spelling.toList = c :: rest) :
    rest = [] ∧ punctuator? c = some p ∨
      rest = ['='] ∧ ∃ q, punctuator? c = some q ∧ withEqual? q = some p := by
  cases p <;> (simp [Punctuator.spelling] at h; obtain ⟨rfl, rfl⟩ := h) <;> decide

theorem spelling_of_punctuator? {p : Punctuator} (h : punctuator? c = some p) :
    p.spelling.toList = [c] := by
  unfold punctuator? at h
  split at h <;> cases h <;> rfl

theorem spelling_withEqual? {p q : Punctuator} (h : withEqual? p = some q) :
    q.spelling.toList = p.spelling.toList ++ ['='] := by
  cases p <;> cases h <;> rfl

theorem punctuator?_not_word {p : Punctuator} (h : punctuator? c = some p) :
    isNameStart c = false ∧ isDigit c = false ∧ c ≠ '"' ∧ isBlank c = false := by
  unfold punctuator? at h
  split at h <;> cases h <;> decide

theorem Lexeme.ne_nil {text : List Char} (h : Lexeme kind text) : text ≠ [] := by
  cases h with
  | name => exact List.cons_ne_nil _ _
  | keyword k => cases k <;> decide
  | whole some => exact some
  | decimal => simp
  | string => simp
  | punctuator p => cases p <;> decide

/-- The four forms of a lexeme, told apart by its first character. -/
theorem Lexeme.forms (h : Lexeme kind (c :: rest)) :
    (isNameStart c = true ∧ (∀ d ∈ rest, isNamePart d = true) ∧ kind = wordKind (c :: rest)) ∨
    (isDigit c = true ∧
      (((∀ d ∈ c :: rest, isDigit d = true) ∧ kind = .number (Number.ofDecimal (c :: rest) [])) ∨
        ∃ digits fraction, c :: rest = digits ++ '.' :: fraction ∧
          (∀ d ∈ digits, isDigit d = true) ∧ fraction ≠ [] ∧
          (∀ d ∈ fraction, isDigit d = true) ∧
          kind = .number (Number.ofDecimal digits fraction))) ∨
    (c = '"' ∧ ∃ inside, rest = inside ++ ['"'] ∧ '"' ∉ inside ∧
      kind = .string (String.ofList inside)) ∨
    ∃ p, kind = .punctuator p ∧ p.spelling.toList = c :: rest := by
  generalize whole : c :: rest = text at h
  cases h with
  | name start parts noKeyword =>
    cases whole
    refine .inl ⟨start, parts, ?_⟩
    have none : Keyword.ofSpelling? (String.ofList (c :: rest)) = none := by
      refine List.find?_eq_none.mpr fun k _ same => ?_
      exact noKeyword k (beq_iff_eq.mp same).symm
    rw [wordKind, none]
  | keyword k =>
    refine .inl ⟨spelling_start whole.symm, fun d hd => spelling_nameParts k d ?_, ?_⟩
    · rw [← whole]
      exact List.mem_cons_of_mem c hd
    · exact (wordKind_spelling k).symm
  | whole _ all =>
    subst whole
    exact .inr (.inl ⟨all c (List.mem_cons_self ..), .inl ⟨all, rfl⟩⟩)
  | @decimal digits fraction nonempty all nonempty' all' =>
    have digit : isDigit c = true := by
      cases digits with
      | nil => exact absurd rfl nonempty
      | cons d digits =>
        cases whole
        exact all c (List.mem_cons_self ..)
    exact .inr (.inl ⟨digit, .inr ⟨digits, fraction, rfl, all, nonempty', all', rfl⟩⟩)
  | string free =>
    cases whole
    exact .inr (.inr (.inl ⟨rfl, _, rfl, free, rfl⟩))
  | punctuator p => exact .inr (.inr (.inr ⟨p, rfl, rfl⟩))

/-- What the first character of a punctuator is not. -/
theorem punctuator_not_word {p : Punctuator} (h : p.spelling.toList = c :: rest) :
    isNameStart c = false ∧ isDigit c = false ∧ c ≠ '"' ∧ isBlank c = false := by
  rcases spelling_punctuator h with ⟨_, found⟩ | ⟨_, q, found, _⟩
  · exact punctuator?_not_word found
  · exact punctuator?_not_word found

theorem isBlank_of_lexeme (h : Lexeme kind (c :: rest)) : isBlank c = false := by
  rcases h.forms with ⟨start, _⟩ | ⟨digit, _⟩ | ⟨rfl, _⟩ | ⟨p, _, spelled⟩
  · exact isBlank_of_nameStart start
  · exact isBlank_of_digit digit
  · rfl
  · exact (punctuator_not_word spelled).2.2.2

/-! ### Longest lexemes -/

/-- A prefix of characters of a class is no longer than the stretch of such characters. -/
theorem length_le_takeWhile {p : Char → Bool} {pre text : List Char} (h : pre <+: text)
    (all : ∀ d ∈ pre, p d = true) : pre.length ≤ (text.takeWhile p).length := by
  obtain ⟨after, rfl⟩ := h
  rw [List.takeWhile_append_of_pos all, List.length_append]
  exact Nat.le_add_right _ _

/-- A stretch of characters of a class ends where one of another class stands. -/
theorem takeWhile_until {p : Char → Bool} {body after : List Char} {d : Char}
    (all : ∀ e ∈ body, p e = true) (stop : p d = false) :
    (body ++ d :: after).takeWhile p = body ∧ (body ++ d :: after).dropWhile p = d :: after := by
  rw [List.takeWhile_append_of_pos all, List.dropWhile_append_of_pos all]
  simp [stop]

theorem longest_word (start : isNameStart c = true) :
    Longest (wordKind (c :: rest.takeWhile isNamePart)) (c :: rest.takeWhile isNamePart)
      (rest.dropWhile isNamePart) := by
  have all : ∀ d ∈ rest.takeWhile isNamePart, isNamePart d = true :=
    fun d hd => List.mem_takeWhile_imp hd
  refine ⟨?_, ?_⟩
  · cases word : Keyword.ofSpelling? (String.ofList (c :: rest.takeWhile isNamePart)) with
    | none =>
      rw [wordKind, word]
      refine .name start all fun k same => ?_
      have other := List.find?_eq_none.mp word k (Keyword.mem_all k)
      rw [same] at other
      exact other (beq_self_eq_true _)
    | some k =>
      have found := List.find?_some word
      have spelled : k.spelling = String.ofList (c :: rest.takeWhile isNamePart) :=
        beq_iff_eq.mp found
      have text : k.spelling.toList = c :: rest.takeWhile isNamePart := by
        rw [spelled, String.toList_ofList]
      rw [wordKind, word, ← text]
      exact .keyword k
  · intro kind' text' h inside
    rw [List.cons_append, List.takeWhile_append_dropWhile] at inside
    cases text' with
    | nil => exact absurd rfl h.ne_nil
    | cons d rest' =>
      obtain ⟨rfl, within⟩ := List.cons_prefix_cons.mp inside
      -- what else begins with this character is a word, and goes no further
      rcases h.forms with ⟨_, parts, word⟩ | ⟨digit, _⟩ | ⟨rfl, _⟩ | ⟨p, _, spelled⟩
      · refine ⟨Nat.succ_le_succ (length_le_takeWhile within parts), ?_⟩
        intro same
        rw [word, same]
      · rw [isNameStart_of_digit digit] at start
        cases start
      · exact absurd start (by decide)
      · rw [(punctuator_not_word spelled).1] at start
        cases start

/-- What a lexeme at the head of a text that starts with digits can be. -/
theorem number_at_head {text : List Char} (h : Lexeme kind (c :: rest)) (digit : isDigit c = true)
    (inside : c :: rest <+: text) :
    ((∀ d ∈ c :: rest, isDigit d = true) ∧ kind = .number (Number.ofDecimal (c :: rest) [])) ∨
      ∃ d tail, text.dropWhile isDigit = '.' :: d :: tail ∧ isDigit d = true ∧
        ∃ more, more <+: tail ∧ (∀ e ∈ more, isDigit e = true) ∧
          c :: rest = text.takeWhile isDigit ++ '.' :: d :: more ∧
          kind = .number (Number.ofDecimal (text.takeWhile isDigit) (d :: more)) := by
  rcases h.forms with ⟨start, _⟩ | ⟨_, whole | ⟨digits, fraction, split, all, some, all', named⟩⟩ |
    ⟨rfl, _⟩ | ⟨p, _, spelled⟩
  · rw [isNameStart_of_digit digit] at start
    cases start
  · exact .inl whole
  · right
    obtain ⟨after, rfl⟩ := inside
    have dot : isDigit '.' = false := by decide
    have ends : c :: rest ++ after = digits ++ '.' :: (fraction ++ after) := by simp [split]
    obtain ⟨taken, dropped⟩ : (digits ++ '.' :: (fraction ++ after)).takeWhile isDigit = digits ∧
      _ := takeWhile_until all dot
    rw [ends, taken, dropped, split]
    cases fraction with
    | nil => exact absurd rfl some
    | cons d more =>
      exact ⟨d, more ++ after, rfl, all' d (List.mem_cons_self ..), more,
        List.prefix_append .., fun e he => all' e (List.mem_cons_of_mem d he), rfl, named⟩
  · exact absurd digit (by decide)
  · rw [(punctuator_not_word spelled).2.1] at digit
    cases digit

theorem longest_string (free : '"' ∉ rest) (after : List Char) :
    Longest (.string (String.ofList rest)) ('"' :: rest ++ ['"']) after := by
  refine ⟨.string free, ?_⟩
  intro kind' text' h inside
  cases text' with
  | nil => exact absurd rfl h.ne_nil
  | cons d rest' =>
    obtain ⟨rfl, within⟩ := List.cons_prefix_cons.mp inside
    rcases h.forms with ⟨start, _⟩ | ⟨digit, _⟩ | ⟨_, inner, rfl, free', named⟩ | ⟨p, _, spelled⟩
    · exact absurd start (by decide)
    · exact absurd digit (by decide)
    · -- both end at the first quote
      have same : inner = rest := by
        have other : ∀ {l : List Char}, '"' ∉ l → ∀ d ∈ l, (d != '"') = true :=
          fun free d hd => bne_iff_ne.mpr fun eq => free (eq ▸ hd)
        obtain ⟨tail, whole⟩ := within
        have whole : inner ++ '"' :: tail = rest ++ '"' :: after := by simpa using whole
        rw [← (takeWhile_until (other free') (bne_self_eq_false _)).1, whole]
        exact (takeWhile_until (other free) (bne_self_eq_false _)).1
      subst same
      exact ⟨Nat.le_refl _, fun _ => named⟩
    · exact absurd rfl (punctuator_not_word spelled).2.2.1

/-- Digits that no fraction follows. -/
theorem longest_whole (digit : isDigit c = true)
    (last : ∀ d tail, rest.dropWhile isDigit = '.' :: d :: tail → isDigit d = false) :
    Longest (.number (Number.ofDecimal (c :: rest.takeWhile isDigit) []))
      (c :: rest.takeWhile isDigit) (rest.dropWhile isDigit) := by
  have all : ∀ d ∈ c :: rest.takeWhile isDigit, isDigit d = true :=
    List.forall_mem_cons.mpr ⟨digit, fun d hd => List.mem_takeWhile_imp hd⟩
  refine ⟨.whole (List.cons_ne_nil _ _) all, ?_⟩
  intro kind' text' h inside
  rw [List.cons_append, List.takeWhile_append_dropWhile] at inside
  cases text' with
  | nil => exact absurd rfl h.ne_nil
  | cons d rest' =>
    obtain ⟨rfl, _⟩ := List.cons_prefix_cons.mp inside
    rcases number_at_head h digit inside with ⟨digits, named⟩ | ⟨d', tail, follows, digit', _⟩
    · have short := length_le_takeWhile inside digits
      rw [List.takeWhile_cons_of_pos digit] at short
      exact ⟨short, fun same => same ▸ named⟩
    · rw [List.dropWhile_cons_of_pos digit] at follows
      rw [last d' tail follows] at digit'
      cases digit'

/-- Digits, a dot and all digits that follow it. -/
theorem longest_decimal (digit : isDigit c = true) {d : Char} {tail : List Char}
    (follows : rest.dropWhile isDigit = '.' :: d :: tail) (digit' : isDigit d = true) :
    Longest (.number (Number.ofDecimal (c :: rest.takeWhile isDigit) (d :: tail.takeWhile isDigit)))
      (c :: rest.takeWhile isDigit ++ '.' :: d :: tail.takeWhile isDigit)
      (tail.dropWhile isDigit) := by
  have all : ∀ d ∈ c :: rest.takeWhile isDigit, isDigit d = true :=
    List.forall_mem_cons.mpr ⟨digit, fun d hd => List.mem_takeWhile_imp hd⟩
  have all' : ∀ e ∈ d :: tail.takeWhile isDigit, isDigit e = true :=
    List.forall_mem_cons.mpr ⟨digit', fun d hd => List.mem_takeWhile_imp hd⟩
  refine ⟨.decimal (List.cons_ne_nil _ _) all (List.cons_ne_nil _ _) all', ?_⟩
  intro kind' text' h inside
  have whole : c :: rest.takeWhile isDigit ++ '.' :: d :: tail.takeWhile isDigit ++
      tail.dropWhile isDigit = c :: rest := by
    have cut := List.takeWhile_append_dropWhile (p := isDigit) (l := rest)
    rw [follows] at cut
    simpa using cut
  rw [whole] at inside
  cases text' with
  | nil => exact absurd rfl h.ne_nil
  | cons e rest' =>
    obtain ⟨rfl, _⟩ := List.cons_prefix_cons.mp inside
    rcases number_at_head h digit inside with
      ⟨digits, _⟩ | ⟨d', tail', follows', _, more, within, digits, split, named⟩
    · -- what has no dot ends before it
      have short := length_le_takeWhile inside digits
      rw [List.takeWhile_cons_of_pos digit] at short
      have shorter : (e :: rest').length < (e :: List.takeWhile isDigit rest ++
          '.' :: d :: tail.takeWhile isDigit).length := by
        rw [List.length_append]
        exact Nat.lt_of_le_of_lt short (Nat.lt_add_of_pos_right (Nat.succ_pos _))
      exact ⟨Nat.le_of_lt shorter, fun same => absurd (congrArg List.length same)
        (Nat.ne_of_lt shorter)⟩
    · rw [List.dropWhile_cons_of_pos digit, follows] at follows'
      rw [List.takeWhile_cons_of_pos digit] at split named
      cases follows'
      have short := length_le_takeWhile within digits
      rw [split]
      refine ⟨?_, fun same => ?_⟩
      · rw [List.length_append, List.length_append]
        exact Nat.add_le_add_left (Nat.succ_le_succ (Nat.succ_le_succ short)) _
      · have fraction := List.append_cancel_left same
        cases fraction
        exact named

theorem takeNumber_longest (digit : isDigit c = true) : ∃ kind text,
    (takeNumber c rest).1 = .lexeme kind text ∧ Longest kind text (takeNumber c rest).2 := by
  unfold takeNumber
  split
  · next d tail follows =>
    by_cases digit' : isDigit d = true
    · rw [if_pos digit']
      exact ⟨_, _, rfl, longest_decimal digit follows digit'⟩
    · rw [if_neg digit']
      refine ⟨_, _, rfl, ?_⟩
      have last : ∀ d' tail', rest.dropWhile isDigit = '.' :: d' :: tail' →
          isDigit d' = false := by
        intro d' tail' follows'
        rw [follows] at follows'
        cases follows'
        exact Bool.eq_false_iff.mpr digit'
      have longest := longest_whole digit last
      rw [follows] at longest
      exact longest
  · next after noFraction =>
    exact ⟨_, _, rfl, longest_whole digit fun d tail follows => (noFraction d tail follows).elim⟩

theorem takePunctuator_longest (start : isNameStart c = false) (digit : isDigit c = false)
    (quote : c ≠ '"') {p : Punctuator} (found : punctuator? c = some p) : ∃ kind text,
    (takePunctuator c rest).1 = .lexeme kind text ∧
      Longest kind text (takePunctuator c rest).2 := by
  -- every lexeme that starts so is a punctuator of one character, or of two
  have others : ∀ {kind' rest'}, Lexeme kind' (c :: rest') →
      rest' = [] ∧ kind' = .punctuator p ∨
        rest' = ['='] ∧ ∃ q, withEqual? p = some q ∧ kind' = .punctuator q := by
    intro kind' rest' h
    rcases h.forms with ⟨start', _⟩ | ⟨digit', _⟩ | ⟨rfl, _⟩ | ⟨q, rfl, spelled⟩
    · rw [start] at start'
      cases start'
    · rw [digit] at digit'
      cases digit'
    · exact absurd rfl quote
    · rcases spelling_punctuator spelled with ⟨rfl, found'⟩ | ⟨rfl, q', found', longer⟩
      · rw [found] at found'
        cases found'
        exact .inl ⟨rfl, rfl⟩
      · rw [found] at found'
        cases found'
        exact .inr ⟨rfl, q, longer, rfl⟩
  have short : p.spelling.toList = [c] := spelling_of_punctuator? found
  unfold takePunctuator
  rw [found]
  dsimp only
  split
  · next q tail longer =>
    refine ⟨_, _, rfl, ?_, ?_⟩
    · have spelled : q.spelling.toList = [c, '='] := by
        rw [spelling_withEqual? longer, short]
        rfl
      exact spelled ▸ Lexeme.punctuator q
    · intro kind' text' h inside
      cases text' with
      | nil => exact absurd rfl h.ne_nil
      | cons d rest' =>
        obtain ⟨rfl, _⟩ := List.cons_prefix_cons.mp inside
        rcases others h with ⟨rfl, _⟩ | ⟨rfl, q', longer', rfl⟩
        · exact ⟨by simp, by simp⟩
        · rw [longer] at longer'
          cases longer'
          exact ⟨Nat.le_refl _, fun _ => rfl⟩
  · next noEqual =>
    refine ⟨_, _, rfl, short ▸ Lexeme.punctuator p, ?_⟩
    intro kind' text' h inside
    cases text' with
    | nil => exact absurd rfl h.ne_nil
    | cons d rest' =>
      obtain ⟨rfl, within⟩ := List.cons_prefix_cons.mp inside
      rcases others h with ⟨rfl, rfl⟩ | ⟨rfl, q, longer, _⟩
      · exact ⟨Nat.le_refl _, fun _ => rfl⟩
      · obtain ⟨tail, whole⟩ := within
        exact (noEqual q tail longer whole.symm).elim

/-- Two longest lexemes at the head of one text are the same. -/
theorem Longest.unique {kind' : TokenKind} {text text' after after' : List Char}
    (h : Longest kind text after) (h' : Longest kind' text' after')
    (whole : text ++ after = text' ++ after') :
    kind' = kind ∧ text' = text ∧ after' = after := by
  obtain ⟨short, same⟩ := h.2 kind' text' h'.1 (whole ▸ List.prefix_append ..)
  obtain ⟨short', _⟩ := h'.2 kind text h.1 (whole ▸ List.prefix_append ..)
  obtain ⟨rfl, rfl⟩ := List.append_inj whole (Nat.le_antisymm short' short)
  exact ⟨same rfl, rfl, rfl⟩

end

/-! ### The first span of a text stands -/

section

variable {c : Char} {rest : List Char}

theorem takeString_stands (rest : List Char) :
    (takeString '"' rest).1.Stands (takeString '"' rest).2 := by
  have free : '"' ∉ rest.takeWhile (· != '"') := fun inside =>
    absurd (List.mem_takeWhile_imp inside) (by decide)
  unfold takeString
  split
  · exact ⟨_, rfl, free, rfl⟩
  · next quote after closes =>
    have closing : quote = '"' := by
      have stop := List.head?_dropWhile_not (· != '"') rest
      rw [closes] at stop
      simpa using stop
    subst closing
    exact ⟨longest_string free after, by simp⟩

theorem takeComment_stands (second : rest.head? = some '/') :
    (takeComment '/' rest).1.Stands (takeComment '/' rest).2 := by
  cases rest with
  | nil => cases second
  | cons d rest =>
    cases second
    refine ⟨rest.takeWhile (· != '\n'), rfl, ?_, ?_⟩
    · exact fun inside => absurd (List.mem_takeWhile_imp inside) (by decide)
    · intro d follows
      have stop := List.head?_dropWhile_not (· != '\n') rest
      have follows : (rest.dropWhile (· != '\n')).head? = some d := follows
      rw [follows] at stop
      simpa using stop

/-- A character that starts none of the forms starts no lexeme. -/
theorem no_lexeme (start : isNameStart c = false) (digit : isDigit c = false) (quote : c ≠ '"')
    (none : punctuator? c = none) (kind : TokenKind) (rest : List Char) :
    ¬Lexeme kind (c :: rest) := by
  intro h
  rcases h.forms with ⟨start', _⟩ | ⟨digit', _⟩ | ⟨rfl, _⟩ | ⟨p, _, spelled⟩
  · rw [start] at start'
    cases start'
  · rw [digit] at digit'
    cases digit'
  · exact quote rfl
  · rcases spelling_punctuator spelled with ⟨_, found⟩ | ⟨_, q, found, _⟩ <;>
      (rw [none] at found; cases found)

theorem startsComment_iff : startsComment c rest = true ↔ ['/', '/'] <+: c :: rest := by
  cases rest with
  | nil => simp [startsComment]
  | cons d rest =>
    simp only [startsComment, List.head?_cons, Bool.and_eq_true, beq_iff_eq, Option.some.injEq,
      List.cons_prefix_cons, List.nil_prefix, and_true]
    exact and_congr eq_comm eq_comm

theorem takeSpan_stands (c : Char) (rest : List Char) :
    (takeSpan c rest).1.Stands (takeSpan c rest).2 := by
  have whole := takeSpan_text c rest
  have stands : ∀ {taken : Span × List Char}, takeSpan c rest = taken →
      startsComment c rest = false → (∃ kind text, taken.1 = .lexeme kind text ∧
        Longest kind text taken.2) → taken.1.Stands taken.2 := by
    rintro taken rfl noComment ⟨kind, text, span, longest⟩
    rw [span] at whole ⊢
    refine ⟨longest, ?_⟩
    rw [show text ++ (takeSpan c rest).2 = c :: rest from whole, ← startsComment_iff, noComment]
    exact Bool.false_ne_true
  -- in the order in which the scanner tries the forms
  by_cases blank : isBlank c = true
  · rw [takeSpan, if_pos blank]
    exact blank
  by_cases comment : startsComment c rest = true
  · rw [takeSpan, if_neg blank, if_pos comment]
    obtain ⟨rfl, second⟩ : c = '/' ∧ rest.head? = some '/' := by
      simpa [startsComment] using comment
    exact takeComment_stands second
  by_cases quote : c = '"'
  · subst quote
    exact takeString_stands rest
  have noComment : startsComment c rest = false := Bool.eq_false_iff.mpr comment
  have noQuote : ¬(c == '"') = true := fun same => quote (beq_iff_eq.mp same)
  by_cases digit : isDigit c = true
  · have taken : takeSpan c rest = takeNumber c rest := by
      rw [takeSpan, if_neg blank, if_neg comment, if_neg noQuote, if_pos digit]
    rw [taken]
    exact stands taken noComment (takeNumber_longest digit)
  by_cases start : isNameStart c = true
  · have taken : takeSpan c rest = takeWord c rest := by
      rw [takeSpan, if_neg blank, if_neg comment, if_neg noQuote, if_neg digit, if_pos start]
    rw [taken]
    exact stands taken noComment ⟨_, _, rfl, longest_word start⟩
  have taken : takeSpan c rest = takePunctuator c rest := by
    rw [takeSpan, if_neg blank, if_neg comment, if_neg noQuote, if_neg digit, if_neg start]
  rw [taken]
  have digit := Bool.eq_false_iff.mpr digit
  have start := Bool.eq_false_iff.mpr start
  cases found : punctuator? c with
  | none =>
    rw [takePunctuator, found]
    exact ⟨Bool.eq_false_iff.mpr blank, no_lexeme start digit quote found⟩
  | some p => exact stands taken noComment (takePunctuator_longest start digit quote found)

/-! ### No other span does -/

theorem Span.Stands.text_ne_nil {s : Span} {after : List Char} (h : s.Stands after) :
    s.text ≠ [] := by
  cases s with
  | blank c => exact List.cons_ne_nil _ _
  | comment text =>
    obtain ⟨body, rfl, _⟩ := h
    exact List.cons_ne_nil _ _
  | lexeme kind text => exact h.1.1.ne_nil
  | stray c => exact List.cons_ne_nil _ _
  | openString text =>
    obtain ⟨inside, rfl, _⟩ := h
    exact List.cons_ne_nil _ _

/-- A lexeme that starts with a quote has a second one. -/
theorem quote_mem_of_lexeme {kind : TokenKind} {text : List Char} (h : Lexeme kind text)
    (within : text <+: '"' :: rest) : '"' ∈ rest := by
  cases text with
  | nil => exact absurd rfl h.ne_nil
  | cons d tail =>
    obtain ⟨rfl, after⟩ := List.cons_prefix_cons.mp within
    rcases h.forms with ⟨start, _⟩ | ⟨digit, _⟩ | ⟨_, inside, rfl, _⟩ | ⟨p, _, spelled⟩
    · exact absurd start (by decide)
    · exact absurd digit (by decide)
    · exact after.subset (List.mem_append_right inside (List.mem_singleton_self _))
    · exact absurd rfl (punctuator_not_word spelled).2.2.1

/-- What the first character of a text is not, if no lexeme starts with it. -/
theorem stray_not_start (none : ∀ kind rest, ¬Lexeme kind (c :: rest)) :
    c ≠ '/' ∧ c ≠ '"' ∧ isDigit c = false ∧ isNameStart c = false ∧ punctuator? c = .none := by
  refine ⟨?_, ?_, ?_, ?_, ?_⟩
  · rintro rfl
    exact none _ _ (.punctuator .slash)
  · rintro rfl
    exact none _ _ (.string List.not_mem_nil)
  · by_contra digit
    exact none _ [] (.whole (List.cons_ne_nil _ _) (by simpa using digit))
  · by_contra start
    exact none _ [] (@longest_word c [] (by simpa using start)).1
  · by_contra some
    obtain ⟨p, found⟩ := Option.ne_none_iff_exists'.mp some
    exact none _ [] (spelling_of_punctuator? found ▸ Lexeme.punctuator p)

theorem takeComment_of_stands {body after : List Char} (sameLine : '\n' ∉ body)
    (ends : ∀ d, after.head? = some d → d = '\n') :
    takeComment '/' ('/' :: body ++ after) = (.comment ('/' :: '/' :: body), after) := by
  have all : ∀ d ∈ '/' :: body, (d != '\n') = true := by
    refine List.forall_mem_cons.mpr ⟨by decide, fun d hd => bne_iff_ne.mpr ?_⟩
    exact fun same => sameLine (same ▸ hd)
  unfold takeComment
  cases after with
  | nil =>
    rw [List.append_nil, List.takeWhile_eq_self_iff.mpr all, List.dropWhile_eq_nil_iff.mpr all]
  | cons d after =>
    cases ends d rfl
    obtain ⟨taken, dropped⟩ : ('/' :: body ++ '\n' :: after).takeWhile (· != '\n') = '/' :: body ∧
      _ := takeWhile_until all (bne_self_eq_false _)
    rw [taken, dropped]

theorem takeString_of_open {inside : List Char} (free : '"' ∉ inside) :
    takeString '"' inside = (.openString ('"' :: inside), []) := by
  have all : ∀ d ∈ inside, (d != '"') = true := fun d hd =>
    bne_iff_ne.mpr fun same => free (same ▸ hd)
  rw [takeString, List.takeWhile_eq_self_iff.mpr all, List.dropWhile_eq_nil_iff.mpr all]

/-- Where a lexeme can stand, the longest one is cut off. -/
theorem takeSpan_of_longest {kind : TokenKind} {tail after : List Char}
    (longest : Longest kind (c :: tail) after) (noComment : ¬['/', '/'] <+: c :: tail ++ after) :
    takeSpan c (tail ++ after) = (.lexeme kind (c :: tail), after) := by
  have stands := takeSpan_stands c (tail ++ after)
  have whole := takeSpan_text c (tail ++ after)
  generalize takeSpan c (tail ++ after) = taken at stands whole
  obtain ⟨s, after'⟩ := taken
  -- what is taken stands there, and nothing else can stand where a longest lexeme does
  cases s with
  | blank d =>
    obtain ⟨rfl, _⟩ := List.cons.inj whole
    rw [Span.Stands, isBlank_of_lexeme longest.1] at stands
    cases stands
  | comment text' =>
    obtain ⟨body, rfl, _⟩ := stands
    rw [List.cons_append, ← whole] at noComment
    exact absurd (by simp [Span.text]) noComment
  | lexeme kind' text' =>
    obtain ⟨rfl, rfl, rfl⟩ := longest.unique stands.1 whole.symm
    rfl
  | stray d =>
    obtain ⟨rfl, _⟩ := List.cons.inj whole
    exact absurd longest.1 (stands.2 kind tail)
  | openString text' =>
    obtain ⟨inside, rfl, free, rfl⟩ := stands
    obtain ⟨rfl, same⟩ := List.cons.inj whole
    have within : '"' :: tail <+: '"' :: inside := by
      refine List.cons_prefix_cons.mpr ⟨rfl, after, ?_⟩
      exact same.symm.trans (List.append_nil inside)
    exact absurd (quote_mem_of_lexeme longest.1 within) free

/-- The span that may stand at the head of a text is the one that is cut off. -/
theorem takeSpan_of_stands {s : Span} {after : List Char} (stands : s.Stands after)
    (whole : s.text ++ after = c :: rest) : takeSpan c rest = (s, after) := by
  cases s with
  | blank d =>
    obtain ⟨rfl, rfl⟩ := List.cons.inj whole
    exact if_pos stands
  | comment text =>
    obtain ⟨body, rfl, sameLine, ends⟩ := stands
    obtain ⟨rfl, rfl⟩ := List.cons.inj whole
    exact takeComment_of_stands sameLine ends
  | lexeme kind text =>
    obtain ⟨longest, noComment⟩ := stands
    cases text with
    | nil => exact absurd rfl longest.1.ne_nil
    | cons d tail =>
      obtain ⟨rfl, rfl⟩ := List.cons.inj whole
      exact takeSpan_of_longest longest noComment
  | stray d =>
    obtain ⟨rfl, rfl⟩ := List.cons.inj whole
    obtain ⟨slash, quote, digit, start, none⟩ := stray_not_start stands.2
    have noComment : startsComment d after = false := by simp [startsComment, slash]
    simp [takeSpan, takePunctuator, stands.1, noComment, quote, digit, start, none]
  | openString text =>
    obtain ⟨inside, rfl, free, rfl⟩ := stands
    obtain ⟨rfl, same⟩ := List.cons.inj whole
    have same : rest = inside := same.symm.trans (List.append_nil inside)
    rw [same]
    exact takeString_of_open free

end

/-! ### All spans of a text -/

theorem spans_stand (text : List Char) : AllStand (spans text) := by
  fun_induction spans text with
  | case1 => exact trivial
  | case2 c rest ih =>
    refine ⟨?_, ih⟩
    rw [spans_text]
    exact takeSpan_stands c rest

/-- There is one way to cut a text into spans that stand. -/
theorem spans_unique (ss : List Span) (stand : AllStand ss) :
    ss = spans (ss.flatMap Span.text) := by
  induction ss with
  | nil => rw [List.flatMap_nil, spans]
  | cons s ss ih =>
    obtain ⟨first, later⟩ := stand
    rw [List.flatMap_cons]
    cases whole : s.text ++ ss.flatMap Span.text with
    | nil => exact absurd (List.append_eq_nil_iff.mp whole).1 first.text_ne_nil
    | cons c rest =>
      rw [spans, takeSpan_of_stands first whole]
      exact congrArg (s :: ·) (ih later)

theorem AllStand.text_ne_nil {ss : List Span} (stand : AllStand ss) :
    ∀ s ∈ ss, s.text ≠ [] := by
  induction ss with
  | nil => exact fun _ no => nomatch no
  | cons s ss ih =>
    exact List.forall_mem_cons.mpr ⟨stand.1.text_ne_nil, ih stand.2⟩

/-! ### The stream of a text -/

/-- What a span has to be reported as, if it is reported. -/
inductive Span.Reported : Span → Item → Prop where
  /-- The span is the lexeme of a token. -/
  | token (kind : TokenKind) (text : List Char) (line : Nat) :
      Reported (.lexeme kind text) (.token ⟨kind, String.ofList text, line⟩)
  /-- The character is the one that the error names. -/
  | stray (c : Char) (line : Nat) :
      Reported (.stray c) (.fault ⟨.unexpectedCharacter c, line⟩)
  /-- The error has no closing quote. -/
  | openString (text : List Char) (line : Nat) :
      Reported (.openString text) (.fault ⟨.unterminatedString, line⟩)

/-- Whether a span leaves a trace in the stream. -/
def Span.isReported : Span → Bool
  | blank _ => false
  | comment _ => false
  | _ => true

theorem Lexeme.kind_ne_eof {kind : TokenKind} {text : List Char} (h : Lexeme kind text) :
    kind ≠ .eof := by
  cases h <;> nofun

/-- The stream reports, in order, all spans but blanks and comments; then it ends. -/
theorem itemsFrom_reports (ss : List Span) (stand : AllStand ss) (line : Nat) : ∃ body last,
    itemsFrom line ss = body ++ [.token (.ending last)] ∧
      List.Forall₂ Span.Reported (ss.filter Span.isReported) body ∧
      ∀ t, .token t ∈ body → t.kind ≠ .eof := by
  induction ss generalizing line with
  | nil => exact ⟨[], line, rfl, .nil, nofun⟩
  | cons s ss ih =>
    obtain ⟨body, last, stream, reports, noEnd⟩ := ih stand.2 (line + s.newlines)
    cases s with
    | blank c => exact ⟨body, last, stream, reports, noEnd⟩
    | comment text => exact ⟨body, last, stream, reports, noEnd⟩
    | lexeme kind text =>
      refine ⟨_ :: body, last, congrArg (_ :: ·) stream, .cons (.token ..) reports, ?_⟩
      intro t ht
      rcases List.mem_cons.mp ht with ht | ht
      · cases ht
        exact stand.1.1.1.kind_ne_eof
      · exact noEnd t ht
    | stray c =>
      refine ⟨_ :: body, last, congrArg (_ :: ·) stream, .cons (.stray ..) reports, ?_⟩
      exact fun t ht => noEnd t ((List.mem_cons.mp ht).resolve_left nofun)
    | openString text =>
      refine ⟨_ :: body, last, congrArg (_ :: ·) stream, .cons (.openString ..) reports, ?_⟩
      exact fun t ht => noEnd t ((List.mem_cons.mp ht).resolve_left nofun)

end Lox.Lexical
