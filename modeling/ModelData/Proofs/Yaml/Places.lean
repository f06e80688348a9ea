import ModelData.Yaml.Scalar
import ModelData.Yaml.Style
import ModelData.Proofs.Text.Lists

/-!
Places in a written text. A reader goes from the end of one line over the indentation of the
next to what stands there: a dash, a key, or the end of the text. A gap within a scalar is a
run of blanks, or line breaks with blanks around them.
-/

namespace ModelData.Yaml

/-- A text that starts where no reader goes on over blanks, breaks or a comment. -/
def Solid (text : List Char) : Prop :=
  ∃ c rest, text = c :: rest ∧ c ≠ ' ' ∧ c ≠ '#' ∧ isBreak c = false

/-- What a line goes on with behind its indentation: an item, a key or the end of the text. -/
inductive Onset : List Char → Prop where
  | done : Onset []
  | dash (rest : List Char) : Onset ('-' :: ' ' :: rest)
  | key {c : Char} (hkey : c.isLower = true ∨ c = '_') (rest : List Char) : Onset (c :: rest)

@[simp] theorem spaces_zero : spaces 0 = [] :=
  rfl

theorem spaces_succ (n : Nat) : spaces (n + 1) = ' ' :: spaces n :=
  rfl

@[simp] theorem length_spaces (n : Nat) : (spaces n).length = n :=
  List.length_replicate

theorem newLine_append (n : Nat) (more : List Char) :
    newLine n ++ more = '\n' :: (spaces n ++ more) :=
  rfl

@[simp] theorem length_newLine (n : Nat) : (newLine n).length = n + 1 := by
  simp [newLine]

theorem not_isLower_of_mem {c : Char} (h : c.isLower = true ∨ c = '_') :
    c ∉ [' ', '\n', '\t', '#', '-', '?', ':', '.', '\u2028', '\u2029'] := by
  have hword : (c.isLower || decide (c = '_')) = true := by simpa using h
  exact not_mem_of_all (p := fun d => d.isLower || decide (d = '_')) hword (by decide)

theorem Solid.append {text : List Char} (h : Solid text) (tail : List Char) :
    Solid (text ++ tail) := by
  obtain ⟨c, rest, rfl, hc⟩ := h
  exact ⟨c, rest ++ tail, rfl, hc⟩

theorem Onset.solid {more : List Char} (h : Onset more) (hmore : more ≠ []) : Solid more := by
  cases h with
  | done => exact absurd rfl hmore
  | dash rest => exact ⟨'-', _, rfl, by decide, by decide, by decide⟩
  | @key c hkey rest =>
    have hc := not_isLower_of_mem hkey
    simp only [List.mem_cons, List.not_mem_nil, or_false, not_or] at hc
    exact ⟨c, rest, rfl, hc.1, hc.2.2.2.1, by simp [isBreak, hc]⟩

theorem Onset.head_ne {text : List Char} (h : Onset text) : text.head? ≠ some '%' := by
  cases h with
  | done => simp
  | dash tail => simp
  | key hkey tail =>
    rintro heq
    obtain rfl := Option.some.inj heq
    exact absurd hkey (by decide)

theorem Onset.append {text : List Char} (h : Onset text) (hfilled : text ≠ [])
    (tail : List Char) : Onset (text ++ tail) := by
  cases h with
  | done => exact absurd rfl hfilled
  | dash rest => exact .dash (rest ++ tail)
  | key hkey rest => exact .key hkey (rest ++ tail)

namespace Cursor

variable {rest : List Char} {column line : Nat} {fresh : Bool}

theorem skip_of_solid (h : Solid rest) :
    (⟨rest, column, line, fresh⟩ : Cursor).skip = ⟨rest, column, line, fresh⟩ := by
  obtain ⟨c, rest, rfl, hspace, hcomment, hbreak⟩ := h
  simp [skip, skipFrom, hspace, hcomment, hbreak]

theorem skip_of_onset (h : Onset rest) :
    (⟨rest, column, line, fresh⟩ : Cursor).skip = ⟨rest, column, line, fresh⟩ := by
  by_cases hrest : rest = []
  · subst hrest
    rfl
  · exact skip_of_solid (h.solid hrest)

theorem skip_space :
    (⟨' ' :: rest, column, line, fresh⟩ : Cursor).skip =
      (⟨rest, column + 1, line, fresh⟩ : Cursor).skip :=
  rfl

theorem skip_spaces (n : Nat) :
    (⟨spaces n ++ rest, column, line, fresh⟩ : Cursor).skip =
      (⟨rest, column + n, line, fresh⟩ : Cursor).skip := by
  induction n generalizing column with
  | zero => rfl
  | succ n ih => rw [spaces_succ, List.cons_append, skip_space, ih, Nat.add_right_comm,
      Nat.add_assoc]

theorem skip_newLine (n : Nat) :
    (⟨newLine n ++ rest, column, line, fresh⟩ : Cursor).skip =
      (⟨rest, n, line + 1, true⟩ : Cursor).skip := by
  rw [newLine_append]
  exact (skip_spaces n).trans (by rw [Nat.zero_add])

theorem skipSpaces_of_solid (h : Solid rest) :
    (⟨rest, column, line, fresh⟩ : Cursor).skipSpaces = ⟨rest, column, line, fresh⟩ := by
  obtain ⟨c, rest, rfl, hspace, -, -⟩ := h
  simp [skipSpaces, hspace]

theorem skipSpaces_newLine (n : Nat) :
    (⟨newLine n ++ rest, column, line, fresh⟩ : Cursor).skipSpaces =
      ⟨newLine n ++ rest, column, line, fresh⟩ :=
  rfl

theorem skipSpaces_of_onset (h : Onset rest) :
    (⟨rest, column, line, fresh⟩ : Cursor).skipSpaces = ⟨rest, column, line, fresh⟩ := by
  by_cases hrest : rest = []
  · subst hrest
    rfl
  · exact skipSpaces_of_solid (h.solid hrest)

theorem atDocumentMark_of_column (h : column ≠ 0) :
    (⟨rest, column, line, fresh⟩ : Cursor).atDocumentMark = false := by
  simp [atDocumentMark, h]

theorem atDocumentMark_of_head {c : Char} (h : c ≠ '-' ∧ c ≠ '.') :
    (⟨c :: rest, column, line, fresh⟩ : Cursor).atDocumentMark = false := by
  simp [atDocumentMark, hasMark, startMark, endMark, Ne.symm h.1, Ne.symm h.2]

theorem atDocumentMark_of_onset (h : Onset rest) :
    (⟨rest, column, line, fresh⟩ : Cursor).atDocumentMark = false := by
  cases h with
  | done => simp [atDocumentMark, hasMark, startMark, endMark]
  | dash rest => simp [atDocumentMark, hasMark, startMark, endMark]
  | key hkey rest =>
    have hc := not_isLower_of_mem hkey
    simp only [List.mem_cons, List.not_mem_nil, or_false, not_or] at hc
    exact atDocumentMark_of_head ⟨hc.2.2.2.2.1, hc.2.2.2.2.2.2.2.1⟩

theorem atStop_of_solid (h : Solid rest) (hcolumn : column ≠ 0) :
    (⟨rest, column, line, fresh⟩ : Cursor).atStop = false := by
  obtain ⟨c, tail, rfl, -⟩ := h
  rw [atStop, atDocumentMark_of_column hcolumn]
  rfl

theorem atStop_of_onset (h : Onset rest) :
    (⟨rest, column, line, fresh⟩ : Cursor).atStop = rest.isEmpty := by
  rw [atStop, atDocumentMark_of_onset h, Bool.or_false, atEnd]

theorem atDash_of_onset (h : Onset rest) (hdash : ∀ tail, rest ≠ '-' :: ' ' :: tail) :
    (⟨rest, column, line, fresh⟩ : Cursor).atDash = false := by
  cases h with
  | done => rfl
  | dash tail => exact absurd rfl (hdash tail)
  | key hkey rest =>
    have hc := not_isLower_of_mem hkey
    simp only [List.mem_cons, List.not_mem_nil, or_false, not_or] at hc
    simp [atDash, hasMark, Ne.symm hc.2.2.2.2.1]

theorem atColon_of_onset (h : Onset rest) :
    (⟨rest, column, line, fresh⟩ : Cursor).atColon = false := by
  cases h with
  | done => rfl
  | dash rest => rfl
  | key hkey rest =>
    have hc := not_isLower_of_mem hkey
    simp only [List.mem_cons, List.not_mem_nil, or_false, not_or] at hc
    simp [atColon, hasMark, Ne.symm hc.2.2.2.2.2.2.1]

end Cursor

section Breaks

variable {isSpace : Char → Bool} {rest : List Char}

theorem readBreaks_cons (isSpace : Char → Bool) (c : Char) (rest : List Char)
    (column line : Nat) :
    readBreaks isSpace (c :: rest) column line =
      if (Cursor.mk (c :: rest) column line true).atDocumentMark then
        ([], ⟨c :: rest, column, line, true⟩)
      else if isBreak c then
        (c :: (readBreaks isSpace rest 0 (line + 1)).1,
          (readBreaks isSpace rest 0 (line + 1)).2)
      else if isSpace c then readBreaks isSpace rest (column + 1) line
      else ([], ⟨c :: rest, column, line, true⟩) :=
  rfl

theorem readBreaks_stop (h : ∀ c ∈ rest.head?, isSpace c = false ∧ isBreak c = false)
    (column line : Nat) :
    readBreaks isSpace rest column line = ([], ⟨rest, column, line, true⟩) := by
  cases rest with
  | nil => rfl
  | cons c rest =>
    obtain ⟨hspace, hbreak⟩ := h c rfl
    simp [readBreaks_cons, hspace, hbreak]

theorem readBreaks_spaces (h : isSpace ' ' = true) (n column line : Nat) :
    readBreaks isSpace (spaces n ++ rest) column line =
      readBreaks isSpace rest (column + n) line := by
  induction n generalizing column with
  | zero => rfl
  | succ n ih =>
    rw [spaces_succ, List.cons_append, readBreaks_cons,
      Cursor.atDocumentMark_of_head (by decide), if_neg Bool.false_ne_true, if_neg (by decide),
      if_pos h, ih, Nat.add_right_comm, Nat.add_assoc]

theorem readBreaks_break (column line : Nat) :
    readBreaks isSpace ('\n' :: rest) column line =
      ('\n' :: (readBreaks isSpace rest 0 (line + 1)).1,
        (readBreaks isSpace rest 0 (line + 1)).2) := by
  rw [readBreaks_cons, Cursor.atDocumentMark_of_head (by decide), if_neg Bool.false_ne_true,
    if_pos (by decide)]

/-- Some line breaks and the indentation of the line behind them. -/
theorem readBreaks_replicate (hspace : isSpace ' ' = true)
    (hrest : ∀ c ∈ rest.head?, isSpace c = false ∧ isBreak c = false) (k n column line : Nat) :
    readBreaks isSpace (List.replicate (k + 1) '\n' ++ (spaces n ++ rest)) column line =
      (List.replicate (k + 1) '\n', ⟨rest, n, line + (k + 1), true⟩) := by
  induction k generalizing column line with
  | zero =>
    rw [List.replicate_one, List.singleton_append, readBreaks_break, readBreaks_spaces hspace,
      readBreaks_stop hrest, Nat.zero_add]
  | succ k ih =>
    rw [List.replicate_succ, List.cons_append, readBreaks_break, ih, Nat.add_assoc,
      Nat.add_comm 1]

theorem readBreaks_newLine (hspace : isSpace ' ' = true)
    (hrest : ∀ c ∈ rest.head?, isSpace c = false ∧ isBreak c = false) (n column line : Nat) :
    readBreaks isSpace (newLine n ++ rest) column line =
      (['\n'], ⟨rest, n, line + 1, true⟩) :=
  readBreaks_replicate hspace hrest 0 n column line

theorem joinBreaks_replicate (k : Nat) :
    joinBreaks (List.replicate (k + 2) '\n') = List.replicate (k + 1) '\n' := by
  simp [List.replicate_succ, joinBreaks]

end Breaks

end ModelData.Yaml
