import Mathlib.Data.List.TakeWhile
import Lox.Lexical.ByteCursor

/-! # Characters in bytes

  A text in memory is the sequence of the encodings of its characters (`encoded`). An ASCII
  character has one byte, its code; all bytes of another character are larger than those. So
  whether a character belongs to a class that treats all characters beyond ASCII alike can be
  seen of any of its bytes, and a stretch of such characters of a stretch of bytes
  (`takeWhile_encoded`). A text is cut between two characters where a first part of it ends
  (`slice_eq`).
-/

namespace Lox.Lexical

/-! ### The bytes of a character -/

/-- The bytes of a text. -/
def encoded (text : List Char) : List UInt8 :=
  text.flatMap String.utf8EncodeChar

/-- The number of bytes of a text. -/
def width (text : List Char) : Nat :=
  (encoded text).length

@[simp] theorem encoded_nil : encoded [] = [] :=
  rfl

@[simp] theorem encoded_cons (c : Char) (text : List Char) :
    encoded (c :: text) = String.utf8EncodeChar c ++ encoded text :=
  rfl

@[simp] theorem encoded_append (a b : List Char) : encoded (a ++ b) = encoded a ++ encoded b :=
  List.flatMap_append

@[simp] theorem width_nil : width [] = 0 :=
  rfl

@[simp] theorem width_cons (c : Char) (text : List Char) :
    width (c :: text) = c.utf8Size + width text := by
  rw [width, encoded_cons, List.length_append, String.length_utf8EncodeChar]
  rfl

@[simp] theorem width_append (a b : List Char) : width (a ++ b) = width a + width b := by
  rw [width, encoded_append, List.length_append]
  rfl

theorem width_pos {text : List Char} (some : text ≠ []) : 0 < width text := by
  cases text with
  | nil => exact absurd rfl some
  | cons c text =>
    rw [width_cons]
    exact Nat.add_pos_left (Char.utf8Size_pos c) _

/-- Whether a character has a code below 128. -/
def IsAscii (c : Char) : Prop :=
  c.toNat < 128

instance (c : Char) : Decidable (IsAscii c) :=
  inferInstanceAs (Decidable (c.toNat < 128))

/-- An ASCII character is encoded by its code. -/
theorem encode_ascii {c : Char} (ascii : IsAscii c) : ∃ byte, String.utf8EncodeChar c = [byte] ∧
    Char.ofUInt8 byte = c := by
  have small : c.val.toNat ≤ 127 := Nat.le_of_lt_succ ascii
  refine ⟨UInt8.ofNat c.val.toNat, ?_, ?_⟩
  · unfold String.utf8EncodeChar
    exact if_pos small
  · apply Char.ext
    apply UInt32.toNat_inj.mp
    have code : (UInt8.ofNat c.val.toNat).toNat = c.val.toNat % 256 := UInt8.toNat_ofNat'
    show (UInt8.ofNat c.val.toNat).toNat = c.val.toNat
    omega

/-- The bytes of any other character are larger than those of ASCII characters. -/
theorem encode_other {c : Char} (other : ¬IsAscii c) :
    ∀ byte ∈ String.utf8EncodeChar c, ¬IsAscii (Char.ofUInt8 byte) := by
  have large : ¬c.val.toNat ≤ 127 := fun small => other (Nat.lt_succ_of_le small)
  have above : ∀ n : Nat, n < 256 → 128 ≤ n → ¬IsAscii (Char.ofUInt8 (UInt8.ofNat n)) := by
    intro n fits above ascii
    have code : (UInt8.ofNat n).toNat = n % 256 := UInt8.toNat_ofNat'
    have small : (UInt8.ofNat n).toNat < 128 := ascii
    omega
  intro byte mem
  unfold String.utf8EncodeChar at mem
  simp only [large, if_false] at mem
  -- two, three or four bytes
  split at mem
  · simp only [List.mem_cons, List.not_mem_nil, or_false] at mem
    rcases mem with rfl | rfl <;> (apply above <;> omega)
  · split at mem
    · simp only [List.mem_cons, List.not_mem_nil, or_false] at mem
      rcases mem with rfl | rfl | rfl <;> (apply above <;> omega)
    · simp only [List.mem_cons, List.not_mem_nil, or_false] at mem
      rcases mem with rfl | rfl | rfl | rfl <;> (apply above <;> omega)

/-- The first byte of a character goes on with no other one. -/
theorem encode_lead (c : Char) : ∃ lead more, String.utf8EncodeChar c = lead :: more ∧
    isContinuation lead = false := by
  have fresh : ∀ n : Nat, n < 256 → n < 128 ∨ 192 ≤ n →
      isContinuation (UInt8.ofNat n) = false := by
    intro n fits outside
    have code : (UInt8.ofNat n).toNat = n := UInt8.toNat_ofNat_of_lt' fits
    unfold isContinuation
    rw [Bool.and_eq_false_iff, decide_eq_false_iff_not, decide_eq_false_iff_not,
      UInt8.le_iff_toNat_le, UInt8.lt_iff_toNat_lt, code]
    show ¬128 ≤ n ∨ ¬n < 192
    omega
  unfold String.utf8EncodeChar
  dsimp only
  split
  · exact ⟨_, _, rfl, fresh _ (by omega) (by omega)⟩
  · split
    · exact ⟨_, _, rfl, fresh _ (by omega) (by omega)⟩
    · split <;> exact ⟨_, _, rfl, fresh _ (by omega) (by omega)⟩

/-! ### Classes of characters -/

/-- Whether a class treats all characters beyond ASCII alike. -/
def Even (p : Char → Bool) : Prop :=
  ∀ c d, ¬IsAscii c → ¬IsAscii d → p c = p d

/-- Whether there is no character beyond ASCII in a class. -/
def Plain (p : Char → Bool) : Prop :=
  ∀ c, p c = true → IsAscii c

theorem Plain.even {p : Char → Bool} (plain : Plain p) : Even p := by
  have none : ∀ c, ¬IsAscii c → p c = false :=
    fun c other => Bool.eq_false_iff.mpr fun holds => other (plain c holds)
  intro c d other other'
  rw [none c other, none d other']

theorem Even.not {p : Char → Bool} (even : Even p) : Even fun c => !p c :=
  fun c d other other' => congrArg _ (even c d other other')

theorem plain_eq {c : Char} (ascii : IsAscii c) : Plain (· == c) := by
  intro d same
  rw [beq_iff_eq.mp same]
  exact ascii

theorem plain_isDigit : Plain isDigit := by
  intro c digit
  simp only [isDigit, Bool.and_eq_true, decide_eq_true_eq] at digit
  have below : c.toNat ≤ '9'.toNat := digit.2
  exact Nat.lt_of_le_of_lt below (by decide)

theorem plain_isNamePart : Plain isNamePart := by
  intro c part
  simp only [isNamePart, isNameStart, Bool.or_eq_true, Bool.and_eq_true, decide_eq_true_eq,
    beq_iff_eq] at part
  rcases part with ((lower | upper) | rfl) | digit
  · have below : c.toNat ≤ 'z'.toNat := lower.2
    exact Nat.lt_of_le_of_lt below (by decide)
  · have below : c.toNat ≤ 'Z'.toNat := upper.2
    exact Nat.lt_of_le_of_lt below (by decide)
  · decide
  · exact plain_isDigit c digit

section

variable {p : Char → Bool} (even : Even p)
include even

/-- A class can be seen of any byte of a character. -/
theorem Even.byte (c : Char) :
    ∀ byte ∈ String.utf8EncodeChar c, p (Char.ofUInt8 byte) = p c := by
  intro byte mem
  by_cases ascii : IsAscii c
  · obtain ⟨only, code, same⟩ := encode_ascii ascii
    rw [code, List.mem_singleton] at mem
    rw [mem, same]
  · exact even _ _ (encode_other ascii byte mem) ascii

/-- A stretch of characters of a class is a stretch of bytes. -/
theorem takeWhile_encoded (text : List Char) :
    (encoded text).takeWhile (fun byte => p (Char.ofUInt8 byte)) = encoded (text.takeWhile p) ∧
    (encoded text).dropWhile (fun byte => p (Char.ofUInt8 byte)) = encoded (text.dropWhile p) := by
  induction text with
  | nil => exact ⟨rfl, rfl⟩
  | cons c text ih =>
    have bytes := even.byte c
    cases holds : p c with
    | true =>
      rw [holds] at bytes
      rw [List.takeWhile_cons_of_pos holds, List.dropWhile_cons_of_pos holds, encoded_cons,
        encoded_cons, List.takeWhile_append_of_pos bytes, List.dropWhile_append_of_pos bytes,
        ih.1, ih.2]
      exact ⟨rfl, rfl⟩
    | false =>
      -- the first byte of the character already ends the stretch
      obtain ⟨byte, more, split, _⟩ := encode_lead c
      have first : p (Char.ofUInt8 byte) = false := by
        rw [bytes byte (split ▸ List.mem_cons_self ..), holds]
      have fails : ¬p c = true := Bool.eq_false_iff.mp holds
      rw [List.takeWhile_cons_of_neg fails, List.dropWhile_cons_of_neg fails, encoded_cons, split]
      simp [first]

end

/-- The first byte of a text is in a class if its first character is. -/
theorem head_encoded {p : Char → Bool} (plain : Plain p) (zero : p (Char.ofUInt8 0) = false)
    (text : List Char) :
    p (Char.ofUInt8 ((encoded text)[0]?.getD 0)) = text.head?.any p := by
  cases text with
  | nil => exact zero
  | cons c text =>
    obtain ⟨byte, more, split, _⟩ := encode_lead c
    rw [encoded_cons, split]
    exact plain.even.byte c byte (split ▸ List.mem_cons_self ..)

/-- The characters of a class that has none beyond ASCII can be counted byte by byte. -/
theorem countP_encoded {p : Char → Bool} (plain : Plain p) (text : List Char) :
    (encoded text).countP (fun byte => p (Char.ofUInt8 byte)) = text.countP p := by
  induction text with
  | nil => rfl
  | cons c text ih =>
    rw [encoded_cons, List.countP_append, ih, List.countP_cons, Nat.add_comm]
    congr 1
    by_cases ascii : IsAscii c
    · obtain ⟨byte, code, same⟩ := encode_ascii ascii
      rw [code, List.countP_singleton, same]
    · have none : p c = false := Bool.eq_false_iff.mpr fun holds => ascii (plain c holds)
      rw [none, if_neg Bool.false_ne_true, List.countP_eq_zero]
      intro byte mem
      rw [plain.even.byte c byte mem, none]
      exact Bool.false_ne_true

/-! ### Cutting a text -/

variable {source : String} {a b c : List Char}

theorem bytes_eq (source : String) : source.toUTF8.data.toList = encoded source.toList := by
  rw [String.toUTF8_eq_toByteArray, ← String.utf8Encode_toList, List.utf8Encode,
    List.toList_data_toByteArray]
  rfl

theorem size_eq (source : String) : source.toUTF8.size = width source.toList := by
  rw [← ByteArray.size_data, ← Array.length_toList, bytes_eq]
  rfl

theorem byteAt_eq (source : String) (index : Nat) :
    byteAt source index = (encoded source.toList)[index]?.getD 0 := by
  rw [byteAt, ← Array.getElem?_toList, bytes_eq]

theorem toUTF8_ofList (text : List Char) : (String.ofList text).toUTF8.data.toList =
    encoded text := by
  rw [bytes_eq, String.toList_ofList]

theorem extract_eq (split : source.toList = a ++ b ++ c) :
    source.toUTF8.extract (width a) (width a + width b) = (String.ofList b).toUTF8 := by
  apply ByteArray.ext
  apply Array.toList_inj.mp
  rw [ByteArray.data_extract, Array.toList_extract, bytes_eq, split, toUTF8_ofList,
    encoded_append, encoded_append, List.extract_eq_take_drop, Nat.add_sub_cancel_left,
    List.append_assoc]
  show (List.drop (encoded a).length _).take _ = _
  rw [List.drop_left]
  exact List.take_left

theorem fromUTF8?_toUTF8 (text : String) : String.fromUTF8? text.toUTF8 = some text := by
  unfold String.fromUTF8?
  exact dif_pos text.isValidUTF8

/-- A text may be cut where a first part of it ends. -/
theorem isBoundary_width (split : source.toList = a ++ b) :
    isBoundary source (width a) = true := by
  unfold isBoundary
  cases b with
  | nil =>
    -- the end of the text
    have last : width a = source.toUTF8.size := by rw [size_eq, split, List.append_nil]
    rw [if_pos (Nat.le_of_eq last.symm), last, beq_self_eq_true, Bool.or_true]
  | cons c b =>
    obtain ⟨lead, more, bytes, fresh⟩ := encode_lead c
    have inside : ¬source.toUTF8.size ≤ width a := by
      rw [size_eq, split, width_append]
      have pos := width_pos (List.cons_ne_nil c b)
      omega
    have here : byteAt source (width a) = lead := by
      rw [byteAt_eq, split, encoded_append, encoded_cons, bytes, width,
        List.getElem?_append_right (Nat.le_refl _), Nat.sub_self]
      rfl
    rw [if_neg inside, here, fresh, Bool.not_false, Bool.or_true]

theorem slice_eq (split : source.toList = a ++ b ++ c) :
    slice source (width a) (width a + width b) = .ok (String.ofList b) := by
  have first : isBoundary source (width a) = true :=
    isBoundary_width (split.trans (List.append_assoc a b c))
  have last : isBoundary source (width a + width b) = true := by
    rw [← width_append]
    exact isBoundary_width split
  unfold slice
  rw [if_pos ⟨Nat.le_add_right _ _, first, last⟩, extract_eq split, fromUTF8?_toUTF8]

theorem sliceBytes_eq (split : source.toList = a ++ b ++ c) :
    sliceBytes source (width a) (width a + width b) = .ok (String.ofList b).toUTF8 := by
  have inside : width a + width b ≤ source.toUTF8.size := by
    rw [size_eq, split, width_append, width_append]
    exact Nat.le_add_right _ _
  unfold sliceBytes
  rw [if_pos ⟨Nat.le_add_right _ _, inside⟩, extract_eq split]

end Lox.Lexical
