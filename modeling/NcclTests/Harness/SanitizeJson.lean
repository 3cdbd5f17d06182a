import Mathlib
import NcclTests.Lib.Stores
import NcclTests.Harness.JsonWriter

/-!
# Quoting a string

`sanitizeJson` with each of its stores to `out[c]`. They are those of a C string
(`sanitizeStores_eq`): the characters that `sanitizeLoop` leaves, from `out[0]` on, and the
NUL after them.
-/

namespace NcclTests.Harness

open Json

/-! ## The stores -/

/-- `sanitizeLoop` with `out[c]` the next place: where it stores what, in order, and its
result. -/
def sanitizeStores (lim : Nat) (c : Nat) : CString → List (Nat × Char) × Bool
  | [] => ([(c, '\x00')], true)
  | ch :: rest =>
    if c + 1 ≥ lim then ([(c, '\x00')], false)
    else if ch ∈ ['"', '\\', '/', '\t', '\n'] then
      if c + 2 > lim then ([(c, '\x00')], false)
      else
        let (stores, ok) := sanitizeStores lim (c + 2) rest
        ((c, '\\') :: (c + 1, escapeLetter ch) :: stores, ok)
    else if ch.toNat ≥ 0x7F ∨ ch.toNat ≤ 0x1F then ([(c, '\x00')], false)
    else
      let (stores, ok) := sanitizeStores lim (c + 1) rest
      ((c, ch) :: stores, ok)

/-- The stores that put a string from `out[c]` on. -/
def stringStores (c : Nat) : CString → List (Nat × Char)
  | [] => [(c, '\x00')]
  | ch :: rest => (c, ch) :: stringStores (c + 1) rest

/-- What is stored is the result of `sanitizeLoop`. -/
theorem sanitizeStores_eq (lim c : Nat) (text : CString) :
    sanitizeStores lim c text =
      (stringStores c (sanitizeLoop lim c text).1, (sanitizeLoop lim c text).2) := by
  induction text generalizing c with
  | nil => rfl
  | cons ch rest ih =>
    rw [sanitizeStores, sanitizeLoop]
    split
    · rfl
    split
    · split
      · rfl
      · rw [ih]
        rfl
    split
    · rfl
    · rw [ih]
      rfl

theorem stringStores_lt_iff (lim c : Nat) (body : CString) :
    (∀ store ∈ stringStores c body, store.1 < lim) ↔ c + body.length < lim := by
  induction body generalizing c with
  | nil => simp [stringStores]
  | cons ch rest ih =>
    rw [stringStores, List.forall_mem_cons, ih, List.length_cons]
    omega

theorem le_of_mem_stringStores {c : Nat} {body : CString} {store : Nat × Char}
    (mem : store ∈ stringStores c body) : c ≤ store.1 := by
  induction body generalizing c with
  | nil =>
    rw [stringStores, List.mem_singleton] at mem
    rw [mem]
  | cons ch rest ih =>
    rcases List.mem_cons.1 mem with here | later
    · rw [here]
    · exact Nat.le_of_succ_le (ih later)

theorem nodup_stringStores (c : Nat) (body : CString) :
    ((stringStores c body).map Prod.fst).Nodup := by
  induction body generalizing c with
  | nil => exact List.nodup_singleton c
  | cons ch rest ih =>
    rw [stringStores, List.map_cons, List.nodup_cons]
    refine ⟨?_, ih (c + 1)⟩
    intro mem
    obtain ⟨store, later, same⟩ := List.mem_map.1 mem
    have above := le_of_mem_stringStores later
    dsimp only at same
    omega

/-! ## The characters -/

/-- The characters of the first cases of the `switch`. -/
def IsEscaped (ch : Char) : Prop := ch ∈ ['"', '\\', '/', '\t', '\n']

instance (ch : Char) : Decidable (IsEscaped ch) := inferInstanceAs (Decidable (_ ∈ _))

/-- The characters that do not stop `sanitizeJson`. -/
def IsSupported (ch : Char) : Prop := IsEscaped ch ∨ IsPrintable ch

/-- How many characters `ch` becomes. -/
def width (ch : Char) : Nat := if IsEscaped ch then 2 else 1

def expandedLength (text : CString) : Nat := (text.map width).sum

theorem unescapeLetter_escapeLetter {ch : Char} (escaped : IsEscaped ch) :
    unescapeLetter (escapeLetter ch) = some ch := by
  simp only [IsEscaped, List.mem_cons, List.not_mem_nil, or_false] at escaped
  rcases escaped with rfl | rfl | rfl | rfl | rfl <;> rfl

theorem isPrintable_of_default {ch : Char} (supported : ¬ (ch.toNat ≥ 0x7F ∨ ch.toNat ≤ 0x1F)) :
    IsPrintable ch := by
  unfold IsPrintable
  omega

theorem ne_of_not_isEscaped {ch other : Char} (plain : ¬ IsEscaped ch)
    (escaped : IsEscaped other) : ch ≠ other := by
  rintro rfl
  exact plain escaped

/-! ## The text in the buffer -/

/-- The characters of `body` and a NUL are at the start of the array. -/
def HoldsString (array : Nat → Char) (body : CString) : Prop :=
  (∀ k ch, body[k]? = some ch → array k = ch) ∧ array body.length = '\x00'

theorem mem_stringStores_of_getElem? {c k : Nat} {body : CString} {ch : Char}
    (at_k : body[k]? = some ch) : (c + k, ch) ∈ stringStores c body := by
  induction body generalizing c k with
  | nil => cases at_k
  | cons first rest ih =>
    cases k with
    | zero =>
      rw [List.getElem?_cons_zero, Option.some.injEq] at at_k
      rw [at_k]
      exact List.mem_cons_self
    | succ k =>
      rw [List.getElem?_cons_succ] at at_k
      rw [← Nat.succ_add_eq_add_succ]
      exact List.mem_cons_of_mem _ (ih at_k)

theorem nul_mem_stringStores (c : Nat) (body : CString) :
    (c + body.length, '\x00') ∈ stringStores c body := by
  induction body generalizing c with
  | nil => exact List.mem_singleton_self _
  | cons ch rest ih =>
    rw [List.length_cons, ← Nat.succ_add_eq_add_succ]
    exact List.mem_cons_of_mem _ (ih (c + 1))

/-- The stores of a string leave the string. -/
theorem holdsString_run (body : CString) (out : Nat → Char) :
    HoldsString (Stores.run (stringStores 0 body) out) body := by
  constructor
  · intro k ch at_k
    have mem := mem_stringStores_of_getElem? (c := 0) at_k
    rw [Nat.zero_add] at mem
    exact Stores.run_of_mem (nodup_stringStores 0 body) mem
  · have mem := nul_mem_stringStores 0 body
    rw [Nat.zero_add] at mem
    exact Stores.run_of_mem (nodup_stringStores 0 body) mem

theorem sanitizeLoop_stringBody (lim c : Nat) (text : CString) :
    StringBody (sanitizeLoop lim c text).1 := by
  induction text generalizing c with
  | nil => exact .nil
  | cons ch rest ih =>
    rw [sanitizeLoop]
    split
    · exact .nil
    split
    · next escaped =>
      split
      · exact .nil
      · refine .escape ?_ (ih (c + 2))
        rw [unescapeLetter_escapeLetter escaped, Option.isSome_some]
    split
    · exact .nil
    · next plain supported =>
      apply StringBody.plain (isPrintable_of_default supported) _ _ (ih (c + 1))
      · exact ne_of_not_isEscaped plain (by decide)
      · exact ne_of_not_isEscaped plain (by decide)

/-- The body is that of the characters read, and all are read where the result is true. -/
theorem sanitizeLoop_unescape (lim c : Nat) (text : CString) :
    ∃ unread, ∃ kept, text = kept ++ unread ∧
      unescape (sanitizeLoop lim c text).1 = some kept ∧
      ((sanitizeLoop lim c text).2 = true ↔ unread = []) := by
  induction text generalizing c with
  | nil => exact ⟨[], [], rfl, rfl, by simp [sanitizeLoop]⟩
  | cons ch rest ih =>
    have stopped : ∃ unread, ∃ kept, ch :: rest = kept ++ unread ∧
        unescape [] = some kept ∧ (false = true ↔ unread = []) :=
      ⟨ch :: rest, [], rfl, rfl, by simp⟩
    rw [sanitizeLoop]
    split
    · exact stopped
    split
    · next escaped =>
      split
      · exact stopped
      · obtain ⟨unread, kept, split_rest, text_of_body, all_read⟩ := ih (c + 2)
        refine ⟨unread, ch :: kept, ?_, ?_, all_read⟩
        · rw [split_rest, List.cons_append]
        · rw [unescape_cons_escape (unescapeLetter_escapeLetter escaped), text_of_body,
            Option.map_some]
    split
    · exact stopped
    · next plain supported =>
      obtain ⟨unread, kept, split_rest, text_of_body, all_read⟩ := ih (c + 1)
      refine ⟨unread, ch :: kept, ?_, ?_, all_read⟩
      · rw [split_rest, List.cons_append]
      · have no_quote : ch ≠ '"' := ne_of_not_isEscaped plain (by decide)
        have no_backslash : ch ≠ '\\' := ne_of_not_isEscaped plain (by decide)
        rw [unescape_cons_plain (isPrintable_of_default supported) no_quote no_backslash,
          text_of_body, Option.map_some]

/-- Supported characters are all read where there is room for two of each. -/
theorem sanitizeLoop_complete {lim c : Nat} {text : CString}
    (supported : ∀ ch ∈ text, IsSupported ch) (room : c + 2 * text.length < lim) :
    (sanitizeLoop lim c text).2 = true := by
  induction text generalizing c with
  | nil => rfl
  | cons ch rest ih =>
    rw [List.forall_mem_cons] at supported
    rw [List.length_cons] at room
    rw [sanitizeLoop, if_neg (by omega)]
    split
    · rw [if_neg (by omega)]
      exact ih supported.2 (by omega)
    · next plain =>
      have shown : IsPrintable ch := supported.1.resolve_left plain
      unfold IsPrintable at shown
      rw [if_neg (by omega)]
      exact ih supported.2 (by omega)

/-- A short string of such characters is read back from what `jsonStr` writes. -/
theorem unescape_sanitized {text : CString} (supported : ∀ ch ∈ text, IsSupported ch)
    (short : text.length < 1024) : unescape (sanitized text) = some text := by
  obtain ⟨unread, kept, split_text, text_of_body, all_read⟩ := sanitizeLoop_unescape 2048 0 text
  have complete := all_read.1 (sanitizeLoop_complete supported (by omega))
  rw [complete, List.append_nil] at split_text
  rw [sanitized, sanitizeJson, text_of_body, split_text]

/-- **Round trip**: the buffer holds a string body, whose text is all of `text` where
`sanitizeJson` returns true and misses some of its end where it returns false.

The induction is on the characters written: each is stored as one letter or one whole escape, and
the loop stops before one that has no room, so that no escape is ever cut in two. -/
theorem sanitizeJson_round_trip (lim : Nat) (text : CString) (out : Nat → Char) :
    ∃ body, ∃ kept, HoldsString (Stores.run (sanitizeStores lim 0 text).1 out) body ∧
      StringBody body ∧ unescape body = some kept ∧
      ((sanitizeStores lim 0 text).2 = true → kept = text) ∧
      ((sanitizeStores lim 0 text).2 = false → kept <+: text ∧ kept ≠ text) := by
  obtain ⟨unread, kept, split_text, text_of_body, all_read⟩ := sanitizeLoop_unescape lim 0 text
  rw [sanitizeStores_eq]
  refine ⟨_, kept, holdsString_run _ out, sanitizeLoop_stringBody lim 0 text, text_of_body,
    ?_, ?_⟩
  · intro copied
    rw [split_text, all_read.1 copied, List.append_nil]
  · intro stopped
    refine ⟨⟨unread, split_text.symm⟩, ?_⟩
    rintro rfl
    have nothing_left : unread = [] := List.self_eq_append_right.1 split_text
    rw [all_read.2 nothing_left] at stopped
    cases stopped

/-! ## The bounds of the buffer -/

/-- With `out[c]` next, an escape ends at the end of the buffer: the characters before it
are copied and fill `out` up to two places. -/
def EscapeFills (lim c : Nat) (text : CString) : Prop :=
  ∃ before ch after, text = before ++ ch :: after ∧ (∀ x ∈ before, IsSupported x) ∧
    IsEscaped ch ∧ c + expandedLength before + 2 = lim

theorem not_escapeFills_nil (lim c : Nat) : ¬ EscapeFills lim c [] := by
  intro found
  rcases found with ⟨before, ch, after, split_text, -⟩
  simp at split_text

theorem escapeFills_cons_iff (lim c : Nat) (ch : Char) (rest : CString) :
    EscapeFills lim c (ch :: rest) ↔
      (IsEscaped ch ∧ c + 2 = lim) ∨ (IsSupported ch ∧ EscapeFills lim (c + width ch) rest) := by
  constructor
  · intro found
    rcases found with ⟨before, x, after, split_text, supported, escaped, fills⟩
    cases before with
    | nil =>
      obtain ⟨rfl, -⟩ := List.cons.inj split_text
      exact .inl ⟨escaped, fills⟩
    | cons first before =>
      obtain ⟨rfl, split_rest⟩ := List.cons.inj split_text
      obtain ⟨first_supported, supported⟩ := List.forall_mem_cons.1 supported
      refine .inr ⟨first_supported, before, x, after, split_rest, supported, escaped, ?_⟩
      rw [expandedLength, List.map_cons, List.sum_cons] at fills
      rw [expandedLength]
      omega
  · rintro (⟨escaped, fills⟩ | ⟨first_supported, before, x, after, split_rest, supported,
      escaped, fills⟩)
    · exact ⟨[], ch, rest, rfl, List.forall_mem_nil _, escaped, fills⟩
    · refine ⟨ch :: before, x, after, ?_, List.forall_mem_cons.2 ⟨first_supported, supported⟩,
        escaped, ?_⟩
      · rw [split_rest, List.cons_append]
      · rw [expandedLength] at fills
        rw [expandedLength, List.map_cons, List.sum_cons]
        omega

theorem EscapeFills.le {lim c : Nat} {text : CString} (fills : EscapeFills lim c text) :
    c + 2 ≤ lim := by
  obtain ⟨before, -, -, -, -, -, fills⟩ := fills
  omega

/-- Nothing is stored from the end of the buffer on. -/
theorem sanitizeLoop_full {lim c : Nat} (full : lim ≤ c + 1) (text : CString) :
    (sanitizeLoop lim c text).1 = [] := by
  cases text with
  | nil => rfl
  | cons ch rest => rw [sanitizeLoop, if_pos full]

theorem sanitizeLoop_lt_iff {lim c : Nat} (inside : c < lim) (text : CString) :
    c + (sanitizeLoop lim c text).1.length < lim ↔ ¬ EscapeFills lim c text := by
  induction text generalizing c with
  | nil => simp [sanitizeLoop, inside, not_escapeFills_nil]
  | cons ch rest ih =>
    rw [sanitizeLoop]
    split
    · next full =>
      rw [List.length_nil, Nat.add_zero]
      refine iff_of_true inside ?_
      intro fills
      have room := fills.le
      omega
    rw [escapeFills_cons_iff]
    split
    · next escaped =>
      replace escaped : IsEscaped ch := escaped
      rw [if_neg (by omega), width, if_pos escaped]
      simp only [escaped, IsSupported, true_or, true_and, List.length_cons]
      rcases Nat.lt_or_ge (c + 2) lim with room | exact_fit
      · rw [not_or, ← ih room]
        omega
      · have fits : c + 2 = lim := by omega
        rw [sanitizeLoop_full (by omega)]
        simp [fits]
    · next plain =>
      replace plain : ¬ IsEscaped ch := plain
      split
      · next stops =>
        have unsupported : ¬ IsSupported ch := by
          rintro (escaped | printable)
          · exact plain escaped
          · unfold IsPrintable at printable
            omega
        simp [plain, unsupported, inside]
      · next supported =>
        have printable : IsSupported ch := .inr (isPrintable_of_default supported)
        rw [width, if_neg plain, List.length_cons]
        simp only [plain, printable, false_and, false_or, true_and]
        rw [← ih (by omega)]
        omega

theorem sanitizeStores_lt_iff {lim c : Nat} (inside : c < lim) (text : CString) :
    (∀ store ∈ (sanitizeStores lim c text).1, store.1 < lim) ↔ ¬ EscapeFills lim c text := by
  rw [sanitizeStores_eq, stringStores_lt_iff]
  exact sanitizeLoop_lt_iff inside text

/-- **Every store is inside the buffer** exactly where no escape ends at the end of it. An escape
takes two characters and is stored while `c + 2 > lim` does not hold, which leaves no place for the
NUL that ends the text; a plain character is stored only if one is left behind it. -/
theorem sanitizeJson_in_bounds_iff (lim : Nat) (nonempty : 1 ≤ lim) (text : CString) :
    (∀ store ∈ (sanitizeStores lim 0 text).1, store.1 < lim) ↔ ¬ EscapeFills lim 0 text :=
  sanitizeStores_lt_iff nonempty text

theorem sanitizeJson_in_bounds_iff_newline :
    (∀ store ∈ (sanitizeStores 4 0 "a\nb".toList).1, store.1 < 4) ↔
      ¬ EscapeFills 4 0 "a\nb".toList :=
  sanitizeJson_in_bounds_iff 4 (by decide) "a\nb".toList

theorem escapeFills_letters (n : Nat) :
    EscapeFills (n + 2) 0 (List.replicate n 'a' ++ ['"']) := by
  refine ⟨List.replicate n 'a', '"', [], rfl, ?_, by decide, ?_⟩
  · intro x mem
    rw [List.eq_of_mem_replicate mem]
    exact .inr (by unfold IsPrintable; decide)
  · have one : width 'a' = 1 := by decide
    rw [expandedLength, List.map_replicate, List.sum_replicate, one, smul_eq_mul]
    omega

/-- The buffer of `jsonStr` and 2046 letters before a quote: the NUL is put at `tmp[2048]`. -/
theorem sanitizeJson_overrun :
    ¬ ∀ lim : Nat, 1 ≤ lim → ∀ text : CString, (∀ ch ∈ text, ch ≠ '\x00') →
      ∀ store ∈ (sanitizeStores lim 0 text).1, store.1 < lim := by
  intro in_bounds
  have bounded := in_bounds 2048 (by decide) (List.replicate 2046 'a' ++ ['"']) ?_
  · exact (sanitizeStores_lt_iff (by decide) _).1 bounded (escapeFills_letters 2046)
  · intro ch mem
    rcases List.mem_append.1 mem with letter | quote
    · rw [List.eq_of_mem_replicate letter]
      decide
    · rw [List.mem_singleton.1 quote]
      decide

end NcclTests.Harness
