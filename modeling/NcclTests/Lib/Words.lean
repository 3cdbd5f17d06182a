import Mathlib

/-!
# Lines of words

A text is divided into lines by some characters and its lines into words by more of them. A
word comes with the text after it, so that something can be read where it stands.
`map_text_wordLines`: without that, these are the non-empty pieces of the pieces.
-/

namespace Words

variable {α : Type*}

/-- A word where it stands. -/
structure Word (α : Type*) where
  text : List α
  after : List α
  deriving DecidableEq

/-- The text from a word on. -/
def Word.here (w : Word α) : List α := w.text ++ w.after

/-- The words of a line. -/
def words (isSpace : α → Bool) (line : List α) : List (List α) :=
  (line.splitOnP isSpace).filter fun piece => !piece.isEmpty

/-- One more word at the start. -/
def consWord (w : Word α) : List (List (Word α)) → List (List (Word α))
  | [] => [[w]]
  | line :: lines => (w :: line) :: lines

/-- One more character of the first word. -/
def consChar (c : α) : List (List (Word α)) → List (List (Word α))
  | (w :: line) :: lines => ({ w with text := c :: w.text } :: line) :: lines
  | lines => lines

/-- A word ends before this text. -/
def Ends (isSpace : α → Bool) : List α → Prop
  | [] => True
  | c :: _ => isSpace c

section

variable (isNewline isSpace : α → Bool)

instance : ∀ text : List α, Decidable (Ends isSpace text)
  | [] => isTrue trivial
  | c :: _ => inferInstanceAs (Decidable (isSpace c = true))

/-- The words of each line. -/
def wordLines : List α → List (List (Word α))
  | [] => [[]]
  | c :: rest =>
    if isNewline c then [] :: wordLines rest
    else if isSpace c then wordLines rest
    else if Ends isSpace rest then consWord ⟨[c], rest⟩ (wordLines rest)
    else consChar c (wordLines rest)

end

variable {isNewline isSpace : α → Bool}

theorem words_nil : words isSpace ([] : List α) = [] := by
  rw [words, List.splitOnP_nil]
  rfl

theorem words_cons_of_space {c : α} (space : isSpace c) (line : List α) :
    words isSpace (c :: line) = words isSpace line := by
  rw [words, List.splitOnP_cons_eq_if_modifyHead, if_pos space]
  rfl

/-- The first piece of a line is empty where a word ends. -/
theorem splitOnP_of_ends {line : List α} (ends : Ends isSpace line) :
    ∃ pieces, line.splitOnP isSpace = [] :: pieces := by
  cases line with
  | nil => exact ⟨[], List.splitOnP_nil⟩
  | cons c line =>
    have space : isSpace c = true := ends
    rw [List.splitOnP_cons_eq_if_modifyHead, if_pos space]
    exact ⟨_, rfl⟩

theorem splitOnP_of_not_ends {line : List α} (goes_on : ¬ Ends isSpace line) :
    ∃ c piece pieces, line.splitOnP isSpace = (c :: piece) :: pieces := by
  cases line with
  | nil => exact absurd trivial goes_on
  | cons c line =>
    have letter : ¬ isSpace c = true := goes_on
    obtain ⟨piece, pieces, split_line⟩ :=
      List.exists_cons_of_ne_nil (List.splitOnP_ne_nil isSpace line)
    rw [List.splitOnP_cons_eq_if_modifyHead, if_neg letter, split_line]
    exact ⟨c, piece, pieces, rfl⟩

/-- A letter before a space is a word. -/
theorem words_cons_of_ends {c : α} (letter : ¬ isSpace c) {line : List α}
    (ends : Ends isSpace line) : words isSpace (c :: line) = [c] :: words isSpace line := by
  obtain ⟨pieces, split_line⟩ := splitOnP_of_ends ends
  rw [words, words, List.splitOnP_cons_eq_if_modifyHead, if_neg letter, split_line]
  rfl

/-- A letter before another belongs to its word. -/
theorem words_cons_of_not_ends {c : α} (letter : ¬ isSpace c) {line : List α}
    (goes_on : ¬ Ends isSpace line) : ∃ w ws, words isSpace line = w :: ws ∧
      words isSpace (c :: line) = (c :: w) :: ws := by
  obtain ⟨d, piece, pieces, split_line⟩ := splitOnP_of_not_ends goes_on
  refine ⟨d :: piece, pieces.filter fun piece => !piece.isEmpty, ?_, ?_⟩
  · rw [words, split_line]
    rfl
  · rw [words, List.splitOnP_cons_eq_if_modifyHead, if_neg letter, split_line]
    rfl

theorem exists_lines (isNewline : α → Bool) (text : List α) :
    ∃ line lines, text.splitOnP isNewline = line :: lines :=
  List.exists_cons_of_ne_nil (List.splitOnP_ne_nil isNewline text)

section Lines

variable (newline_space : ∀ c, isNewline c → isSpace c)

include newline_space

/-- A word ends in a text where it does in the first line. -/
theorem ends_line_iff {text line : List α} {lines : List (List α)}
    (split_text : text.splitOnP isNewline = line :: lines) :
    Ends isSpace line ↔ Ends isSpace text := by
  cases text with
  | nil =>
    rw [List.splitOnP_nil, List.cons.injEq] at split_text
    rw [← split_text.1]
  | cons c rest =>
    rw [List.splitOnP_cons_eq_if_modifyHead] at split_text
    split at split_text
    · next newline =>
      obtain ⟨rfl, -⟩ := List.cons.inj split_text
      exact iff_of_true trivial (newline_space c newline)
    · obtain ⟨first, others, split_rest⟩ := exists_lines isNewline rest
      rw [split_rest, List.modifyHead_cons, List.cons.injEq] at split_text
      rw [← split_text.1]
      exact Iff.rfl

/-- **The words of each line**, where they stand left out. -/
theorem map_text_wordLines (text : List α) :
    (wordLines isNewline isSpace text).map (List.map Word.text) =
      (text.splitOnP isNewline).map (words isSpace) := by
  induction text with
  | nil => simp [wordLines, words]
  | cons c rest ih =>
    obtain ⟨line, lines, split_rest⟩ := exists_lines isNewline rest
    rw [wordLines, List.splitOnP_cons_eq_if_modifyHead]
    split
    · rw [List.map_cons, List.map_cons, ih, words_nil]
      rfl
    rw [split_rest, List.map_cons] at ih
    rw [split_rest, List.modifyHead_cons, List.map_cons]
    cases located : wordLines isNewline isSpace rest with
    | nil =>
      rw [located] at ih
      cases ih
    | cons first others =>
      rw [located, List.map_cons, List.cons.injEq] at ih
      obtain ⟨first_words, other_words⟩ := ih
      split
      · next space =>
        rw [words_cons_of_space space, List.map_cons, first_words, other_words]
      split
      · next letter ends =>
        have ends_line := (ends_line_iff newline_space split_rest).2 ends
        rw [words_cons_of_ends letter ends_line, consWord, List.map_cons, List.map_cons,
          first_words, other_words]
      · next letter goes_on =>
        have goes_on_line : ¬ Ends isSpace line :=
          fun ends => goes_on ((ends_line_iff newline_space split_rest).1 ends)
        obtain ⟨w, ws, line_words, longer⟩ := words_cons_of_not_ends letter goes_on_line
        rw [line_words] at first_words
        cases first with
        | nil => cases first_words
        | cons word line =>
          rw [List.map_cons, List.cons.injEq] at first_words
          rw [longer, consChar, List.map_cons, List.map_cons, first_words.1, first_words.2,
            other_words]

end Lines

/-! ## Reading a word -/

variable (isNewline isSpace) in
theorem exists_wordLines (text : List α) :
    ∃ line lines, wordLines isNewline isSpace text = line :: lines := by
  induction text with
  | nil => exact ⟨[], [], rfl⟩
  | cons c rest ih =>
    rw [wordLines]
    split
    · exact ⟨[], _, rfl⟩
    split
    · exact ih
    obtain ⟨line, lines, located⟩ := ih
    rw [located]
    split
    · exact ⟨_, lines, rfl⟩
    · cases line <;> exact ⟨_, lines, rfl⟩

/-- A word at the start of a text is the first one of its first line. -/
theorem wordLines_append (newline_space : ∀ c, isNewline c → isSpace c) {word after : List α}
    (nonempty : word ≠ []) (letters : ∀ c ∈ word, ¬ isSpace c) (ends : Ends isSpace after) :
    wordLines isNewline isSpace (word ++ after) =
      consWord ⟨word, after⟩ (wordLines isNewline isSpace after) := by
  induction word with
  | nil => exact absurd rfl nonempty
  | cons c word ih =>
    obtain ⟨letter, letters⟩ := List.forall_mem_cons.1 letters
    rw [List.cons_append, wordLines, if_neg fun newline => letter (newline_space c newline),
      if_neg letter]
    cases word with
    | nil => rw [List.nil_append, if_pos ends]
    | cons d word =>
      have goes_on : ¬ Ends isSpace (d :: word ++ after) := (List.forall_mem_cons.1 letters).1
      rw [if_neg goes_on, ih (List.cons_ne_nil d word) letters]
      cases wordLines isNewline isSpace after <;> rfl

/-- A word of letters that ends where it should. -/
structure Word.Delimited (isSpace : α → Bool) (w : Word α) : Prop where
  nonempty : w.text ≠ []
  letters : ∀ c ∈ w.text, ¬ isSpace c
  ends : Ends isSpace w.after

theorem delimited_of_mem {text : List α} :
    ∀ line ∈ wordLines isNewline isSpace text, ∀ w ∈ line, w.Delimited isSpace := by
  induction text with
  | nil => simp [wordLines]
  | cons c rest ih =>
    rw [wordLines]
    split
    · simpa using ih
    split
    · exact ih
    next letter =>
    obtain ⟨line, lines, located⟩ := exists_wordLines isNewline isSpace rest
    rw [located, List.forall_mem_cons] at ih
    obtain ⟨first, others⟩ := ih
    rw [located]
    split
    · next ends =>
      have word : Word.Delimited isSpace ⟨[c], rest⟩ :=
        ⟨List.cons_ne_nil c [], by simpa using letter, ends⟩
      rw [consWord, List.forall_mem_cons, List.forall_mem_cons]
      exact ⟨⟨word, first⟩, others⟩
    · cases line with
      | nil => exact List.forall_mem_cons.2 ⟨first, others⟩
      | cons w line =>
        obtain ⟨word, first⟩ := List.forall_mem_cons.1 first
        have longer : Word.Delimited isSpace { w with text := c :: w.text } :=
          ⟨List.cons_ne_nil c _, List.forall_mem_cons.2 ⟨letter, word.letters⟩, word.ends⟩
        rw [consChar, List.forall_mem_cons, List.forall_mem_cons]
        exact ⟨⟨longer, first⟩, others⟩

/-- There is one wherever there is a letter. -/
theorem exists_delimited {c : α} (letter : ¬ isSpace c) (rest : List α) :
    ∃ w : Word α, w.here = c :: rest ∧ w.Delimited isSpace := by
  refine ⟨⟨(c :: rest).takeWhile fun d => !isSpace d, (c :: rest).dropWhile fun d => !isSpace d⟩,
    List.takeWhile_append_dropWhile, ?_, fun d inside => ?_, ?_⟩
  · rw [List.takeWhile_cons_of_pos (by simp [letter])]
    exact List.cons_ne_nil _ _
  · simpa using List.mem_takeWhile_imp inside
  · have first := List.head?_dropWhile_not (fun d => !isSpace d) (c :: rest)
    dsimp only
    split at first
    · next d head =>
      obtain ⟨rest, same⟩ := List.head?_eq_some_iff.1 head
      rw [same]
      show isSpace d = true
      simpa using first
    · next none_ =>
      rw [List.head?_eq_none_iff.1 none_]
      trivial

namespace Word.Delimited

variable {w : Word α}

theorem exists_here (word : w.Delimited isSpace) :
    ∃ c rest, w.here = c :: rest ∧ ¬ isSpace c := by
  obtain ⟨c, rest, text⟩ := List.exists_cons_of_ne_nil word.nonempty
  refine ⟨c, rest ++ w.after, by rw [Word.here, text, List.cons_append], word.letters c ?_⟩
  rw [text]
  exact List.mem_cons_self

theorem wordLines_here (newline_space : ∀ c, isNewline c → isSpace c)
    (word : w.Delimited isSpace) :
    wordLines isNewline isSpace w.here = consWord w (wordLines isNewline isSpace w.after) :=
  wordLines_append newline_space word.nonempty word.letters word.ends

/-- What is read without a space, up to one, is the word. -/
theorem length_eq (word : w.Delimited isSpace) {n : Nat} (within : n ≤ w.here.length)
    (letters : ∀ c ∈ w.here.take n, ¬ isSpace c) (ends : Ends isSpace (w.here.drop n)) :
    n = w.text.length := by
  rcases Nat.lt_trichotomy n w.text.length with short | same | long
  · rw [Word.here, List.drop_append_of_le_length short.le, List.drop_eq_getElem_cons short] at ends
    exact absurd ends (word.letters _ (List.getElem_mem short))
  · exact same
  · obtain ⟨c, rest, after⟩ : ∃ c rest, w.after = c :: rest := by
      refine List.exists_cons_of_ne_nil fun none_ => ?_
      rw [Word.here, none_, List.append_nil] at within
      omega
    have space : isSpace c := by
      have ends := word.ends
      rwa [after] at ends
    refine absurd space (letters c ?_)
    rw [Word.here, after, List.take_append, List.mem_append]
    obtain ⟨k, more⟩ := Nat.exists_eq_add_of_lt long
    have rest_ : n - w.text.length = k + 1 := by omega
    rw [rest_, List.take_succ_cons]
    exact .inr List.mem_cons_self

end Word.Delimited

/-- A word and the space before the next one take two characters at least. -/
theorem two_mul_length_le (text : List α) :
    2 * (wordLines isNewline isSpace text).flatten.length ≤
      text.length + if Ends isSpace text then 0 else 1 := by
  induction text with
  | nil => simp [wordLines]
  | cons c rest ih =>
    have bound : 2 * (wordLines isNewline isSpace rest).flatten.length ≤ rest.length + 1 := by
      split at ih <;> omega
    rw [wordLines, List.length_cons]
    split
    · rw [List.flatten_cons, List.nil_append]
      omega
    split
    · omega
    obtain ⟨line, lines, located⟩ := exists_wordLines isNewline isSpace rest
    rw [located] at ih bound ⊢
    rw [List.flatten_cons, List.length_append] at ih bound
    next letter =>
    rw [if_neg (show ¬ Ends isSpace (c :: rest) from letter)]
    split
    · next ends =>
      rw [if_pos ends] at ih
      rw [consWord, List.flatten_cons, List.length_append, List.length_cons]
      omega
    · cases line with
      | nil =>
        rw [consChar, List.flatten_cons, List.length_append]
        · omega
        · rintro _ _ _ ⟨⟩
      | cons w line =>
        rw [consChar, List.flatten_cons, List.length_append, List.length_cons]
        rw [List.length_cons] at bound
        omega

end Words
