import Lox.Lexical.Stream

/-! # Names, keywords and lines of a text

  No name of a text is spelled like a keyword, and every keyword is spelled as it should be.
  The tokens of a text stand on lines one after another.
-/

namespace Lox.Lexical

/-- Whether a kind goes with a spelling, as far as words are concerned. -/
def WordFits (kind : TokenKind) (text : String) : Prop :=
  (kind = .identifier → ∀ k : Keyword, text ≠ k.spelling) ∧
    ∀ k : Keyword, kind = .keyword k → text = k.spelling

/-- Whether a token is spelled as its kind demands, as far as words are concerned. -/
def Spelled (t : Token) : Prop :=
  WordFits t.kind t.lexeme

theorem wordFits_of_no_word {kind : TokenKind} (text : String)
    (name : kind ≠ .identifier) (word : ∀ k, kind ≠ .keyword k) : WordFits kind text :=
  ⟨fun h => absurd h name, fun k h => absurd h (word k)⟩

theorem string_fits (value text : String) : WordFits (.string value) text :=
  wordFits_of_no_word text nofun fun _ => nofun

theorem number_fits (value : Float) (text : String) : WordFits (.number value) text :=
  wordFits_of_no_word text nofun fun _ => nofun

theorem punctuator_fits (p : Punctuator) (text : String) : WordFits (.punctuator p) text :=
  wordFits_of_no_word text nofun fun _ => nofun

theorem eof_fits (text : String) : WordFits .eof text :=
  wordFits_of_no_word text nofun fun _ => nofun

theorem wordKind_fits (word : List Char) : WordFits (wordKind word) (String.ofList word) := by
  unfold wordKind
  cases h : Keyword.ofSpelling? (String.ofList word) with
  | none =>
    refine ⟨?_, fun _ => nofun⟩
    intro _ k same
    have other := List.find?_eq_none.mp h k (Keyword.mem_all k)
    rw [same] at other
    exact other (beq_self_eq_true _)
  | some k =>
    refine ⟨nofun, ?_⟩
    intro k' hk'
    cases hk'
    have found := List.find?_some h
    exact (beq_iff_eq.mp found).symm

/-- What is known of a lexeme that was cut off. -/
def Span.Fits : Span → Prop
  | lexeme kind text => WordFits kind (String.ofList text)
  | _ => True

theorem takeString_fits (c : Char) (rest : List Char) : (takeString c rest).1.Fits := by
  unfold takeString
  split
  · exact trivial
  · exact string_fits _ _

theorem takeNumber_fits (c : Char) (rest : List Char) : (takeNumber c rest).1.Fits := by
  unfold takeNumber
  split
  · split <;> exact number_fits _ _
  · exact number_fits _ _

theorem takePunctuator_fits (c : Char) (rest : List Char) : (takePunctuator c rest).1.Fits := by
  unfold takePunctuator
  split
  · exact trivial
  · split <;> exact punctuator_fits _ _

theorem takeSpan_fits (c : Char) (rest : List Char) : (takeSpan c rest).1.Fits := by
  unfold takeSpan
  -- blanks and comments are no lexemes, and of the lexemes only a word has to be compared
  split
  · exact trivial
  split
  · exact trivial
  split
  · exact takeString_fits c rest
  split
  · exact takeNumber_fits c rest
  split
  · exact wordKind_fits _
  · exact takePunctuator_fits c rest

theorem spans_fit (text : List Char) : ∀ span ∈ spans text, span.Fits := by
  fun_induction spans text with
  | case1 => exact List.forall_mem_nil _
  | case2 c rest ih =>
    intro span hspan
    rcases List.mem_cons.mp hspan with rfl | hspan
    · exact takeSpan_fits c rest
    · exact ih span hspan

theorem itemsFrom_spelled (ss : List Span) (fit : ∀ span ∈ ss, span.Fits) :
    ∀ line t, .token t ∈ itemsFrom line ss → Spelled t := by
  induction ss with
  | nil =>
    intro line t ht
    rw [itemsFrom, List.mem_singleton] at ht
    cases ht
    exact eof_fits _
  | cons span rest ih =>
    intro line t ht
    have first := fit span (List.mem_cons_self ..)
    have later := ih (fun s hs => fit s (List.mem_cons_of_mem span hs)) (line + span.newlines) t
    rw [itemsFrom] at ht
    cases span with
    | lexeme kind text =>
      rcases List.mem_cons.mp ht with ht | ht
      · cases ht
        exact first
      · exact later ht
    | stray c =>
      rcases List.mem_cons.mp ht with ht | ht
      · cases ht
      · exact later ht
    | openString text =>
      rcases List.mem_cons.mp ht with ht | ht
      · cases ht
      · exact later ht
    | blank c => exact later ht
    | comment text => exact later ht

/-- The names of a text are no keywords, and its keywords are spelled as such. -/
theorem tokens_spelled (source : String) : ∀ t ∈ tokens source, Spelled t := by
  intro t ht
  obtain ⟨item, hitem, same⟩ := List.mem_filterMap.mp ht
  cases item with
  | token t' =>
    cases same
    exact itemsFrom_spelled _ (spans_fit _) 1 t hitem
  | fault e => cases same

/-! ### Lines -/

theorem item?_line {span : Span} {line : Nat} {item : Item}
    (h : span.item? line = some item) : item.line = line := by
  cases span <;> cases h <;> rfl

theorem itemsFrom_lines (spans : List Span) : ∀ line : Nat,
    (∀ item ∈ itemsFrom line spans, line ≤ item.line) ∧
      (itemsFrom line spans).Pairwise (·.line ≤ ·.line) := by
  induction spans with
  | nil =>
    intro line
    exact ⟨List.forall_mem_singleton.mpr (Nat.le_refl line), List.pairwise_singleton _ _⟩
  | cons span rest ih =>
    intro line
    obtain ⟨above, ordered⟩ := ih (line + span.newlines)
    have later : ∀ item ∈ itemsFrom (line + span.newlines) rest, line ≤ item.line :=
      fun item mem => Nat.le_trans (Nat.le_add_right _ _) (above item mem)
    rw [itemsFrom]
    cases found : span.item? (line + span.newlines) with
    | none => exact ⟨later, ordered⟩
    | some item =>
      have own : item.line = line + span.newlines := item?_line found
      refine ⟨List.forall_mem_cons.mpr ⟨?_, later⟩, List.pairwise_cons.mpr ⟨?_, ordered⟩⟩
      · rw [own]
        exact Nat.le_add_right _ _
      · rw [own]
        exact above

/-- The tokens of a text stand on lines one after another. -/
theorem tokens_lines (source : String) :
    (tokens source).Pairwise (·.line ≤ ·.line) := by
  refine List.Pairwise.filterMap _ ?_ (itemsFrom_lines _ 1).2
  intro item item' le t ht t' ht'
  cases item <;> cases ht
  cases item' <;> cases ht'
  exact le

end Lox.Lexical
