import Lox.Proofs.Lexical.LongestMatch

/-! # Forms

  A form is a word, or a list of a head word and further forms, written between parentheses
  with a space before each part. If no word has a space or a parenthesis in it, the text of a
  form tells where the form ends and what its parts are, whatever is written after it
  (`Form.text_unique`).
-/

namespace Lox

/-- A word, or a head word with parts. -/
inductive Form where
  | word (text : String)
  | node (head : String) (parts : List Form)

namespace Form

mutual

/-- A form as it is written. -/
def text : Form → List Char
  | word w => w.toList
  | node head parts => '(' :: (head.toList ++ textAll parts ++ [')'])

/-- Parts as they are written, each after a space. -/
def textAll : List Form → List Char
  | [] => []
  | part :: rest => ' ' :: (part.text ++ textAll rest)

end

/-! ### Words -/

/-- Whether a character may stand in a word. -/
def isPlain (c : Char) : Bool :=
  c != ' ' && c != '(' && c != ')'

/-- Whether a text can be told from what stands around it. -/
def IsWord (w : String) : Prop :=
  w.toList ≠ [] ∧ ∀ c ∈ w.toList, isPlain c = true

mutual

/-- Whether all words of a form can be told from what stands around them. -/
def Legible : Form → Prop
  | word w => IsWord w
  | node head parts => IsWord head ∧ AllLegible parts

/-- Whether all words of some forms can be told from what stands around them. -/
def AllLegible : List Form → Prop
  | [] => True
  | part :: rest => part.Legible ∧ AllLegible rest

end

/-- Whether what follows a word does not go on with it. -/
def Delimits (rest : List Char) : Prop :=
  ∀ c, rest.head? = some c → isPlain c = false

theorem delimits_nil : Delimits [] :=
  nofun

theorem delimits_cons {c : Char} (h : isPlain c = false) (rest : List Char) :
    Delimits (c :: rest) := by
  rintro _ ⟨⟩
  exact h

/-- After its head word, a list goes on with a part or is closed. -/
theorem delimits_textAll (parts : List Form) (rest : List Char) :
    Delimits (textAll parts ++ ')' :: rest) := by
  cases parts with
  | nil => exact delimits_cons rfl rest
  | cons part parts => exact delimits_cons rfl _

section

variable {u v rest rest' : List Char}

theorem takeWhile_word (plain : ∀ c ∈ u, isPlain c = true) (ends : Delimits rest) :
    (u ++ rest).takeWhile isPlain = u := by
  cases rest with
  | nil => rw [List.append_nil, List.takeWhile_eq_self_iff.mpr plain]
  | cons c rest => exact (Lexical.takeWhile_until plain (ends c rfl)).1

/-- A word ends where its characters do. -/
theorem word_unique (plain : ∀ c ∈ u, isPlain c = true) (plain' : ∀ c ∈ v, isPlain c = true)
    (ends : Delimits rest) (ends' : Delimits rest') (same : u ++ rest = v ++ rest') :
    u = v ∧ rest = rest' := by
  have words : u = v := by
    rw [← takeWhile_word plain ends, same, takeWhile_word plain' ends']
  subst words
  exact ⟨rfl, List.append_cancel_left same⟩

/-- A word does not start like a list. -/
theorem ne_paren_of_isWord {w : String} (word : IsWord w) :
    w.toList ++ rest ≠ '(' :: rest' := by
  intro same
  cases h : w.toList with
  | nil => exact word.1 h
  | cons c _ =>
    rw [h] at same
    obtain ⟨rfl, _⟩ := List.cons.inj same
    exact absurd (word.2 '(' (h ▸ List.mem_cons_self ..)) (by decide)

end

/-! ### The text determines the form -/

mutual

theorem text_unique : ∀ (f g : Form) {rest rest' : List Char}, f.Legible → g.Legible →
    Delimits rest → Delimits rest' → f.text ++ rest = g.text ++ rest' → f = g ∧ rest = rest'
  | .word u, .word v, rest, rest', hf, hg, ends, ends', same => by
    obtain ⟨words, rests⟩ := word_unique hf.2 hg.2 ends ends' same
    exact ⟨congrArg Form.word (String.toList_inj.mp words), rests⟩
  | .word u, .node head parts, rest, rest', hf, hg, ends, ends', same =>
    absurd same (ne_paren_of_isWord hf)
  | .node head parts, .word v, rest, rest', hf, hg, ends, ends', same =>
    absurd same.symm (ne_paren_of_isWord hg)
  | .node head parts, .node head' parts', rest, rest', hf, hg, ends, ends', same => by
    have inside : head.toList ++ (textAll parts ++ ')' :: rest) =
        head'.toList ++ (textAll parts' ++ ')' :: rest') := by
      simpa [text] using same
    -- the head word ends at the first space or at the closing parenthesis
    obtain ⟨heads, tails⟩ := word_unique hf.1.2 hg.1.2 (delimits_textAll parts rest)
      (delimits_textAll parts' rest') inside
    obtain ⟨rfl, rests⟩ := textAll_unique parts parts' hf.2 hg.2 tails
    rw [String.toList_inj.mp heads]
    exact ⟨rfl, rests⟩

theorem textAll_unique : ∀ (ps qs : List Form) {rest rest' : List Char}, AllLegible ps →
    AllLegible qs → textAll ps ++ ')' :: rest = textAll qs ++ ')' :: rest' →
    ps = qs ∧ rest = rest'
  | [], [], _, _, _, _, same => ⟨rfl, (List.cons.inj same).2⟩
  | [], q :: qs, _, _, _, _, same => absurd (List.cons.inj same).1 (by decide)
  | p :: ps, [], _, _, _, _, same => absurd (List.cons.inj same).1 (by decide)
  | p :: ps, q :: qs, rest, rest', hp, hq, same => by
    have inside : p.text ++ (textAll ps ++ ')' :: rest) =
        q.text ++ (textAll qs ++ ')' :: rest') := by
      simpa [textAll] using same
    obtain ⟨rfl, tails⟩ := text_unique p q hp.1 hq.1 (delimits_textAll ps rest)
      (delimits_textAll qs rest') inside
    obtain ⟨rfl, rests⟩ := textAll_unique ps qs hp.2 hq.2 tails
    exact ⟨rfl, rests⟩

end

/-- Legible forms with the same text are the same. -/
theorem text_injective {f g : Form} (hf : f.Legible) (hg : g.Legible) (same : f.text = g.text) :
    f = g := by
  have texts : f.text ++ [] = g.text ++ [] := by rw [same]
  exact (text_unique f g hf hg delimits_nil delimits_nil texts).1

end Form

end Lox
