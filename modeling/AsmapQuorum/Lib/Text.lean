import Mathlib.Data.List.DropRight
import Mathlib.Data.String.Basic

/-!
# Texts: UTF-8, lines and words

The standard functions a reader of text files is written with, on lists of characters.

* `fromUtf8` — the text of a byte string, if it is one (`fromUtf8_eq_some`).
* `terminated sep` — words, each with a separator behind it; **they can be told apart again**
  (`terminated_injective`).
* `lines` — the lines, without the `\n` or `\r\n` at their end.
* `words sep` — the maximal runs of letters, that is of what is no separator; `trim sep` — the list
  without the separators at its ends.  **Trimming changes no word** (`words_trim`), and a list
  without words is trimmed to nothing (`trim_eq_nil`).
-/

namespace Text

/-! ### UTF-8 -/

/-- `str::from_utf8`. -/
def fromUtf8 (bytes : List UInt8) : Option (List Char) :=
  bytes.toByteArray.utf8Decode?.map Array.toList

/-- **A byte string is a text when it is the encoding of one.** -/
theorem fromUtf8_eq_some {bytes : List UInt8} {text : List Char} :
    fromUtf8 bytes = some text ↔ bytes = text.flatMap String.utf8EncodeChar := by
  constructor
  · intro h
    obtain ⟨chars, hchars, rfl⟩ := Option.map_eq_some_iff.1 h
    have hsome : bytes.toByteArray.utf8Decode?.isSome := by rw [hchars]; rfl
    have hencode := ByteArray.utf8Encode_get_utf8Decode? (h := hsome)
    simp only [hchars, Option.get_some] at hencode
    exact List.toByteArray_inj.1 hencode.symm
  · rintro rfl
    rw [fromUtf8, show (text.flatMap String.utf8EncodeChar).toByteArray = text.utf8Encode from rfl,
      List.utf8Decode?_utf8Encode]
    rfl

/-- **Different texts are encoded differently.** -/
theorem flatMap_utf8EncodeChar_injective :
    Function.Injective fun text : List Char => text.flatMap String.utf8EncodeChar := by
  intro text text' h
  have hdecode := fromUtf8_eq_some.2 h
  rw [fromUtf8_eq_some.2 rfl, Option.some.injEq] at hdecode
  exact hdecode

/-! ### Separated texts -/

section Separated

variable {α : Type*} {sep : α}

/-- The first separator tells what stands in front of it. -/
theorem append_sep_inj {u v s t : List α} (hu : sep ∉ u) (hv : sep ∉ v)
    (h : u ++ sep :: s = v ++ sep :: t) :
    u = v ∧ s = t := by
  induction u generalizing v with
  | nil =>
    cases v with
    | nil => exact ⟨rfl, (List.cons.inj h).2⟩
    | cons b v =>
      obtain ⟨rfl, -⟩ := List.cons.inj h
      exact absurd (List.mem_cons_self ..) hv
  | cons a u ih =>
    rw [List.mem_cons, not_or] at hu
    cases v with
    | nil => exact absurd (List.cons.inj h).1.symm hu.1
    | cons b v =>
      rw [List.mem_cons, not_or] at hv
      obtain ⟨rfl, hrest⟩ := List.cons.inj h
      obtain ⟨rfl, hst⟩ := ih hu.2 hv.2 hrest
      exact ⟨rfl, hst⟩

/-- Words with a separator behind each. -/
def terminated (sep : α) (L : List (List α)) : List α := L.flatMap fun w => w ++ [sep]

theorem terminated_cons (w : List α) (L : List (List α)) :
    terminated sep (w :: L) = w ++ sep :: terminated sep L := by
  rw [terminated, List.flatMap_cons, List.append_assoc]
  rfl

/-- **The words of a text are found again.** -/
theorem terminated_injective {L M : List (List α)} (hL : ∀ w ∈ L, sep ∉ w) (hM : ∀ w ∈ M, sep ∉ w)
    (h : terminated sep L = terminated sep M) : L = M := by
  induction L generalizing M with
  | nil =>
    cases M with
    | nil => rfl
    | cons w M =>
      rw [terminated_cons] at h
      exact absurd h.symm (List.append_ne_nil_of_right_ne_nil w (List.cons_ne_nil _ _))
  | cons v L ih =>
    rw [terminated_cons] at h
    cases M with
    | nil => exact absurd h (List.append_ne_nil_of_right_ne_nil v (List.cons_ne_nil _ _))
    | cons w M =>
      rw [terminated_cons] at h
      rw [List.forall_mem_cons] at hL hM
      obtain ⟨rfl, hrest⟩ := append_sep_inj hL.1 hM.1 h
      rw [ih hL.2 hM.2 hrest]

end Separated

/-! ### Lines -/

/-- The line that a `\n` ends: a `\r` in front of it belongs to the end. -/
def stripCr (line : List Char) : List Char := if line.getLast? = some '\r' then
    line.dropLast else line

/-- The lines of what is left, when `line` is the open one. -/
def linesAfter : List Char → List Char → List (List Char)
  | line, [] => if line.isEmpty then [] else [line]
  | line, c :: s =>
    if c = '\n' then stripCr line :: linesAfter [] s else linesAfter (line ++ [c]) s

/-- `str::lines`. -/
def lines (s : List Char) : List (List Char) := linesAfter [] s

/-- A line that was written with its `\n`, and without control characters in it, is read back. -/
theorem linesAfter_append_newline {line s : List Char} (hn : '\n' ∉ line) (hr : '\r' ∉ line)
    (acc : List Char) (hacc : '\r' ∉ acc) :
    linesAfter acc (line ++ '\n' :: s) = (acc ++ line) :: lines s := by
  induction line generalizing acc with
  | nil =>
    have hlast : acc.getLast? ≠ some '\r' := fun h => hacc (List.mem_of_getLast? h)
    rw [List.nil_append, List.append_nil, linesAfter, if_pos rfl, stripCr, if_neg hlast]
    rfl
  | cons c line ih =>
    rw [List.mem_cons, not_or] at hn hr
    rw [List.cons_append, linesAfter, if_neg (Ne.symm hn.1), ih hn.2 hr.2 _ (by simp [hacc, hr.1]),
      List.append_assoc]
    rfl

theorem lines_append_newline {line : List Char} (hn : '\n' ∉ line) (hr : '\r' ∉ line)
    (s : List Char) :
    lines (line ++ '\n' :: s) = line :: lines s :=
  linesAfter_append_newline hn hr [] List.not_mem_nil

/-! ### Words -/

section Words

variable {α : Type*} {sep : α → Bool}

/-- The words of what is left, when `word` is the open one. -/
def wordsAfter (sep : α → Bool) : List α → List α → List (List α)
  | word, [] => if word.isEmpty then [] else [word]
  | word, a :: s =>
    if sep a then
      if word.isEmpty then wordsAfter sep [] s else word :: wordsAfter sep [] s
    else wordsAfter sep (word ++ [a]) s

/-- The maximal runs without a separator. -/
def words (sep : α → Bool) (s : List α) : List (List α) := wordsAfter sep [] s

/-- The list without the separators at its ends. -/
def trim (sep : α → Bool) (s : List α) : List α := (s.dropWhile sep).rdropWhile sep

/-- A separator at the end ends the open word, as the end itself does. -/
theorem wordsAfter_append_sep {a : α} (ha : sep a = true) (s : List α) (word : List α) :
    wordsAfter sep word (s ++ [a]) = wordsAfter sep word s := by
  induction s generalizing word with
  | nil =>
    show (if sep a = true then _ else _) = _
    rw [if_pos ha]
    rfl
  | cons b s ih =>
    rw [List.cons_append, wordsAfter, wordsAfter, ih, ih]

theorem words_dropWhile (s : List α) : words sep (s.dropWhile sep) = words sep s := by
  induction s with
  | nil => rfl
  | cons a s ih =>
    by_cases ha : sep a = true
    · rw [List.dropWhile_cons_of_pos ha, ih]
      show _ = wordsAfter sep [] (a :: s)
      rw [wordsAfter, if_pos ha]
      rfl
    · rw [List.dropWhile_cons_of_neg ha]

theorem words_rdropWhile (s : List α) : words sep (s.rdropWhile sep) = words sep s := by
  induction s using List.reverseRecOn with
  | nil => rfl
  | append_singleton s a ih =>
    by_cases ha : sep a = true
    · rw [List.rdropWhile_concat_pos _ _ _ ha, ih]
      exact (wordsAfter_append_sep ha s []).symm
    · rw [List.rdropWhile_concat_neg _ _ _ ha]

/-- **Trimming changes no word.** -/
theorem words_trim (s : List α) : words sep (trim sep s) = words sep s := by
  rw [trim, words_rdropWhile, words_dropWhile]

/-- Letters join the open word. -/
theorem wordsAfter_append {w : List α} (hw : ∀ a ∈ w, sep a = false) (s word : List α) :
    wordsAfter sep word (w ++ s) = wordsAfter sep (word ++ w) s := by
  induction w generalizing word with
  | nil => rw [List.nil_append, List.append_nil]
  | cons a w ih =>
    rw [List.forall_mem_cons] at hw
    rw [List.cons_append, wordsAfter, if_neg (by rw [hw.1]; decide), ih hw.2, List.append_assoc]
    rfl

/-- Two words with one separator between them. -/
theorem words_pair {u v : List α} (hu : ∀ a ∈ u, sep a = false) (hv : ∀ a ∈ v, sep a = false)
    (hune : u ≠ []) (hvne : v ≠ []) {a : α} (ha : sep a = true) :
    words sep (u ++ a :: v) = [u, v] := by
  have hlast : wordsAfter sep [] v = [v] := by
    have := wordsAfter_append hv [] []
    rw [List.append_nil] at this
    rw [this, wordsAfter, if_neg (by simpa using hvne)]
    rfl
  rw [words, wordsAfter_append hu, List.nil_append, wordsAfter, if_pos ha,
    if_neg (by simpa using hune), hlast]

theorem wordsAfter_eq_nil {s word : List α} :
    wordsAfter sep word s = [] ↔ word = [] ∧ ∀ a ∈ s, sep a = true := by
  induction s generalizing word with
  | nil => simp [wordsAfter]
  | cons a s ih =>
    rw [wordsAfter, List.forall_mem_cons]
    by_cases ha : sep a = true
    · rw [if_pos ha]
      cases word with
      | nil => simp [ih, ha]
      | cons b word => simp
    · rw [if_neg ha, ih]
      simp [ha]

/-- Nothing is left of a list without words. -/
theorem trim_eq_nil {s : List α} : trim sep s = [] ↔ words sep s = [] := by
  rw [words, wordsAfter_eq_nil, trim, List.rdropWhile_eq_nil_iff]
  constructor
  · intro h
    refine ⟨rfl, List.dropWhile_eq_nil_iff.1 ?_⟩
    cases hs : s.dropWhile sep with
    | nil => rfl
    | cons a rest =>
      have hhead := List.head?_dropWhile_not sep s
      rw [hs] at hhead h
      have hfirst : sep a = false := hhead
      rw [h a (List.mem_cons_self ..)] at hfirst
      cases hfirst
  · rintro ⟨-, h⟩ a ha
    exact h a ((List.dropWhile_sublist sep).mem ha)

end Words

/-- `char::is_whitespace`: the property `White_Space` of Unicode. -/
def isWhitespace (c : Char) : Bool :=
  let n := c.toNat
  (0x9 ≤ n && n ≤ 0xd) || n == 0x20 || n == 0x85 || n == 0xa0 || n == 0x1680 ||
    (0x2000 ≤ n && n ≤ 0x200a) || n == 0x2028 || n == 0x2029 || n == 0x202f || n == 0x205f ||
      n == 0x3000

end Text
