import ModelData.Proofs.Yaml.QuotedTexts
import ModelData.Proofs.Number.Digits

/-!
Texts in double quotes. Escapes are read back as the characters that they stand for, and a
folded line as if it were not folded. There is one exception: a line that is folded behind an
escape, in front of a blank, is continued with a backslash for that blank, and where the
indentation alone fills the line it is folded again between the two. The backslash is then
read as a character of the text, and the line break as one blank more.
-/

namespace ModelData.Yaml

/-- A blank with something behind it. -/
def isInnerBlank : List Char → Bool
  | ' ' :: _ :: _ => true
  | _ => false

/-- What is read for a text in double quotes whose lines start at an indentation. -/
def spoil (indent : Nat) : (first : Bool) → List Char → List Char
  | _, [] => []
  | first, c :: rest =>
    if lineWidth ≤ indent && !first && (escape? c).isSome && isInnerBlank rest then
      c :: '\\' :: ' ' :: spoil indent false rest
    else c :: spoil indent false rest

/-- A quoted text is read up to its closing quote. -/
def Reads (text out : List Char) : Prop :=
  ∀ ⦃rest column line fresh steps⦄, text.length < steps →
    ∃ column' line', readDouble steps ⟨text ++ '"' :: rest, column, line, fresh⟩ =
      .ok (out, ⟨rest, column', line', false⟩)

/-- A text is read, also behind blanks: no line break follows these. -/
structure Unquotes (text out : List Char) : Prop where
  gap : ∃ k more, text = spaces k ++ more ∧ ∀ rest, EndsGap (more ++ '"' :: rest)
  reads : Reads text out

variable {text out rest : List Char} {column line steps : Nat} {fresh : Bool} {c : Char}

section Steps

variable {more : List Char} {last : Cursor}

theorem readDouble_escape (e : Char) (rest : List Char) :
    readDouble (steps + 1) ⟨'\\' :: e :: rest, column, line, fresh⟩ =
      match letterValue? e, codeLength? e with
      | some d, _ =>
        readDouble steps ⟨rest, column + 2, line, false⟩ >>= fun p => .ok (d :: p.1, p.2)
      | none, some places =>
        codeChar places rest >>= fun d =>
          readDouble steps ⟨rest.drop places, column + (places + 2), line, false⟩ >>= fun p =>
            .ok (d :: p.1, p.2)
      | none, none =>
        if isBreak e then
          let (breaks, next) :=
            readBreaks (fun d => d = ' ' || d = '\t') (e :: rest) (column + 1) line
          if next.atDocumentMark then .error .malformed
          else readDouble steps { next with fresh := false } >>= fun p =>
            .ok (breaks.drop 1 ++ p.1, p.2)
        else .error .malformed :=
  rfl

theorem readDouble_letter {e : Char} (he : letterValue? e = some c)
    (h : readDouble steps ⟨rest, column + 2, line, false⟩ = .ok (more, last)) :
    readDouble (steps + 1) ⟨'\\' :: e :: rest, column, line, fresh⟩ = .ok (c :: more, last) := by
  rw [readDouble_escape, he, h]
  rfl

theorem readDouble_code {e : Char} {places : Nat} {digits : List Char}
    (he : letterValue? e = none) (hplaces : codeLength? e = some places)
    (hdigits : codeChar places (digits ++ rest) = .ok c) (hlength : digits.length = places)
    (h : readDouble steps ⟨rest, column + (places + 2), line, false⟩ = .ok (more, last)) :
    readDouble (steps + 1) ⟨'\\' :: e :: (digits ++ rest), column, line, fresh⟩ =
      .ok (c :: more, last) := by
  have hdrop : (digits ++ rest).drop places = rest := List.drop_left' hlength
  rw [readDouble_escape, he, hplaces]
  simp only [hdigits, hdrop, ok_bind, h]

theorem readDouble_newLine {n : Nat} (hn : n ≠ 0) (hrest : EndsGap rest)
    (h : readDouble steps ⟨rest, n, line + 1, false⟩ = .ok (more, last)) :
    readDouble (steps + 1) ⟨'\\' :: (newLine n ++ rest), column, line, fresh⟩ =
      .ok (more, last) := by
  have hbreaks := @readBreaks_newLine (fun d => decide (d = ' ') || decide (d = '\t')) rest
    (by decide) hrest.head n (column + 1) line
  rw [newLine_append] at hbreaks ⊢
  have hmark : (⟨rest, n, line + 1, true⟩ : Cursor).atDocumentMark = false :=
    Cursor.atDocumentMark_of_column hn
  have hvalue : letterValue? '\n' = none := rfl
  have hlength : codeLength? '\n' = none := rfl
  have hbreak : isBreak '\n' = true := rfl
  rw [readDouble_escape, hvalue, hlength, hbreaks]
  simp [hbreak, hmark, h]

/-- Any other character is a part of the text, or starts a gap in it. -/
theorem readDouble_cons (hquote : c ≠ '"') (hslash : c ≠ '\\') :
    readDouble (steps + 1) ⟨c :: rest, column, line, fresh⟩ =
      if startsGap c then
        readQuotedGap ⟨c :: rest, column, line, fresh⟩ >>= fun gap =>
          readDouble steps gap.2 >>= fun p => .ok (gap.1 ++ p.1, p.2)
      else
        readDouble steps ⟨rest, column + 1, line, false⟩ >>= fun p => .ok (c :: p.1, p.2) := by
  simp [readDouble, hslash, Cursor.forward]
  rfl

theorem readDouble_char (hc : startsGap c = false) (hquote : c ≠ '"') (hslash : c ≠ '\\')
    (h : readDouble steps ⟨rest, column + 1, line, false⟩ = .ok (more, last)) :
    readDouble (steps + 1) ⟨c :: rest, column, line, fresh⟩ = .ok (c :: more, last) := by
  rw [readDouble_cons hquote hslash, hc, if_neg Bool.false_ne_true, h]
  rfl

theorem readDouble_gap (hc : startsGap c = true) {gap : List Char} {next : Cursor}
    (hgap : readQuotedGap ⟨c :: rest, column, line, fresh⟩ = .ok (gap, next)) :
    readDouble (steps + 1) ⟨c :: rest, column, line, fresh⟩ =
      (readDouble steps next >>= fun p => .ok (gap ++ p.1, p.2)) := by
  have hquote : c ≠ '"' := by
    rintro rfl
    exact Bool.false_ne_true hc
  have hslash : c ≠ '\\' := by
    rintro rfl
    exact Bool.false_ne_true hc
  rw [readDouble_cons hquote hslash, if_pos hc, hgap, ok_bind]

end Steps

section Pieces

theorem Unquotes.nil : Unquotes [] [] := by
  refine ⟨⟨0, [], rfl, fun rest => ⟨'"', rest, rfl, rfl⟩⟩, fun rest column line fresh steps h => ?_⟩
  obtain ⟨steps, rfl⟩ : ∃ n, steps = n + 1 := Nat.exists_eq_add_one_of_ne_zero (by omega)
  exact ⟨_, _, rfl⟩

/-- A text that starts where no gap does. -/
theorem Unquotes.of_head {tail : List Char} (hc : startsGap c = false)
    (h : Reads (c :: tail) out) : Unquotes (c :: tail) out :=
  ⟨⟨0, c :: tail, rfl, fun rest => ⟨c, tail ++ '"' :: rest, rfl, hc⟩⟩, h⟩

theorem Reads.letter {e : Char} (he : letterValue? e = some c) (h : Reads text out) :
    Unquotes ('\\' :: e :: text) (c :: out) := by
  refine .of_head rfl fun rest column line fresh steps hsteps => ?_
  simp only [List.length_cons] at hsteps
  obtain ⟨steps, rfl⟩ : ∃ n, steps = n + 1 := Nat.exists_eq_add_one_of_ne_zero (by omega)
  obtain ⟨column', line', hread⟩ := @h rest (column + 2) line false steps (by omega)
  exact ⟨column', line', readDouble_letter he hread⟩

theorem Reads.code {e : Char} {places : Nat} {digits : List Char} (he : letterValue? e = none)
    (hplaces : codeLength? e = some places) (hlength : digits.length = places)
    (hdigits : ∀ rest, codeChar places (digits ++ rest) = .ok c) (h : Reads text out) :
    Unquotes ('\\' :: e :: (digits ++ text)) (c :: out) := by
  refine .of_head rfl fun rest column line fresh steps hsteps => ?_
  simp only [List.length_cons, List.length_append] at hsteps
  obtain ⟨steps, rfl⟩ : ∃ n, steps = n + 1 := Nat.exists_eq_add_one_of_ne_zero (by omega)
  obtain ⟨column', line', hread⟩ := @h rest (column + (places + 2)) line false steps (by omega)
  rw [List.cons_append, List.cons_append, List.append_assoc]
  exact ⟨column', line', readDouble_code he hplaces (hdigits _) hlength hread⟩

theorem Unquotes.newLine {n : Nat} (hn : n ≠ 0) (hgap : ∀ rest, EndsGap (text ++ '"' :: rest))
    (h : Reads text out) : Unquotes ('\\' :: (newLine n ++ text)) out := by
  refine .of_head rfl fun rest column line fresh steps hsteps => ?_
  simp only [List.length_cons, List.length_append] at hsteps
  obtain ⟨steps, rfl⟩ : ∃ n, steps = n + 1 := Nat.exists_eq_add_one_of_ne_zero (by omega)
  obtain ⟨column', line', hread⟩ := @h rest n (line + 1) false steps (by omega)
  rw [List.cons_append, List.append_assoc]
  exact ⟨column', line', readDouble_newLine hn (hgap rest) hread⟩

theorem Unquotes.char (hc : startsGap c = false) (hquote : c ≠ '"') (hslash : c ≠ '\\')
    (h : Reads text out) : Unquotes (c :: text) (c :: out) := by
  refine .of_head hc fun rest column line fresh steps hsteps => ?_
  simp only [List.length_cons] at hsteps
  obtain ⟨steps, rfl⟩ : ∃ n, steps = n + 1 := Nat.exists_eq_add_one_of_ne_zero (by omega)
  obtain ⟨column', line', hread⟩ := @h rest (column + 1) line false steps (by omega)
  exact ⟨column', line', readDouble_char hc hquote hslash hread⟩

/-- A line break that is not escaped reads as a blank. -/
theorem Reads.newLine {n : Nat} (hn : n ≠ 0) (hgap : ∀ rest, EndsGap (text ++ '"' :: rest))
    (h : Reads text out) : Reads (newLine n ++ text) (' ' :: out) := by
  intro rest column line fresh steps hsteps
  simp only [List.length_append, length_newLine] at hsteps
  obtain ⟨steps, rfl⟩ : ∃ n, steps = n + 1 := Nat.exists_eq_add_one_of_ne_zero (by omega)
  obtain ⟨column', line', hread⟩ := @h rest n (line + 1) false steps (by omega)
  have hbreaks := @readQuotedGap_breaks (text ++ '"' :: rest) column line fresh 0 n hn (hgap rest)
  refine ⟨column', line', ?_⟩
  rw [List.append_assoc]
  refine (readDouble_gap rfl hbreaks).trans ?_
  rw [hread]
  rfl

/-- A blank in front of others belongs to their gap. -/
theorem Unquotes.space (h : Unquotes text out) : Unquotes (' ' :: text) (' ' :: out) := by
  obtain ⟨⟨k, more, rfl, hmore⟩, hreads⟩ := h
  refine ⟨⟨k + 1, more, rfl, hmore⟩, fun rest column line fresh steps hsteps => ?_⟩
  rw [List.length_cons] at hsteps
  obtain ⟨steps, rfl⟩ : ∃ n, steps = n + 1 := Nat.exists_eq_add_one_of_ne_zero (by omega)
  have hlong := @readQuotedGap_spaces _ column line fresh (k + 1) (hmore rest)
  have hread : ∃ column' line', (readDouble steps ⟨more ++ '"' :: rest, column + (k + 1), line,
      false⟩ >>= fun p => .ok (spaces (k + 1) ++ p.1, p.2)) =
        .ok (' ' :: out, ⟨rest, column', line', false⟩) := by
    cases k with
    | zero =>
      obtain ⟨column', line', hread⟩ := @hreads rest (column + 1) line false steps (by omega)
      refine ⟨column', line', ?_⟩
      rw [spaces_zero, List.nil_append] at hread
      rw [hread]
      rfl
    | succ k =>
      obtain ⟨column', line', hread⟩ := @hreads rest (column + 1) line false (steps + 1) (by omega)
      have hshort := @readQuotedGap_spaces _ (column + 1) line false (k + 1) (hmore rest)
      rw [List.append_assoc, spaces_succ, List.cons_append,
        readDouble_gap rfl (by rwa [← List.cons_append, ← spaces_succ])] at hread
      obtain ⟨⟨inner, last⟩, hinner, heq⟩ := bind_eq_ok hread
      refine ⟨column', line', ?_⟩
      obtain ⟨hout, rfl⟩ := Prod.mk.inj (Except.ok.inj heq)
      rw [show column + (k + 1 + 1) = column + 1 + (k + 1) by omega, hinner, ← hout]
      rfl
  obtain ⟨column', line', hread⟩ := hread
  refine ⟨column', line', ?_⟩
  rw [List.cons_append, List.append_assoc]
  exact (readDouble_gap rfl hlong).trans hread

end Pieces

section Escapes

variable {marks : List Char}

theorem digitValue?_upper :
    ∀ m < 16, Digits.digitValue? (Char.toUpper (Nat.digitChar m)) = some m := by
  decide

theorem length_upperHex (places n : Nat) : (upperHex places n).length = places := by
  rw [upperHex, List.length_map, Digits.length_hex]

theorem codeChar_upperHex {places : Nat} (hplaces : places ≠ 0) (h : c.toNat < 16 ^ places)
    (rest : List Char) : codeChar places (upperHex places c.toNat ++ rest) = .ok c := by
  have htake : (upperHex places c.toNat ++ rest).take places = upperHex places c.toNat :=
    List.take_left' (length_upperHex places c.toNat)
  have hread : Digits.read? 16 (upperHex places c.toNat) = some c.toNat :=
    Digits.read?_hex digitValue?_upper hplaces h
  have hvalid : c.toNat.isValidChar := c.valid
  simp only [codeChar, htake, length_upperHex, Nat.lt_irrefl, if_false, hread, hvalid, if_true,
    Char.ofNat_toNat]

theorem letterValue?_letterEscapes : ∀ p ∈ letterEscapes, letterValue? p.2 = some p.1 :=
  forall_mem_of_all (by decide)

/-- An escape is a letter that stands for the character, or one that tells the length of its
code, and the code. -/
theorem escape_cases (hc : escape? c = some marks) :
    (∃ letter, isOrdinary letter = true ∧ letterValue? letter = some c ∧ marks = ['\\', letter]) ∨
      ∃ e places, isOrdinary e = true ∧ letterValue? e = none ∧ codeLength? e = some places ∧
        places ≠ 0 ∧ c.toNat < 16 ^ places ∧ marks = '\\' :: e :: upperHex places c.toNat := by
  have hletters : ∀ p ∈ letterEscapes, isOrdinary p.2 = true := forall_mem_of_all (by decide)
  unfold escape? at hc
  split at hc
  · next letter hletter =>
    obtain ⟨before, after, hlist, -⟩ := List.lookup_eq_some_iff.1 hletter
    have hmem : (c, letter) ∈ letterEscapes := hlist ▸ by simp
    exact .inl ⟨letter, hletters _ hmem, letterValue?_letterEscapes _ hmem,
      (Option.some.inj hc).symm⟩
  split at hc
  · cases hc
  have hbound : c.toNat < 16 ^ 8 := by
    have hvalid := c.valid
    simp only [UInt32.isValidChar, Nat.isValidChar] at hvalid
    have hnat : c.toNat = c.val.toNat := rfl
    omega
  split at hc
  · next hsmall =>
    exact .inr ⟨'x', 2, rfl, rfl, rfl, by decide, hsmall, (Option.some.inj hc).symm⟩
  split at hc
  · next hsmall =>
    exact .inr ⟨'u', 4, rfl, rfl, rfl, by decide, hsmall, (Option.some.inj hc).symm⟩
  · exact .inr ⟨'U', 8, rfl, rfl, rfl, by decide, hbound, (Option.some.inj hc).symm⟩

/-- The character is read from its escape. -/
theorem Reads.escape (hc : escape? c = some marks) (h : Reads text out) :
    Unquotes (marks ++ text) (c :: out) := by
  obtain ⟨letter, -, hvalue, rfl⟩ | ⟨e, places, -, hnone, hplaces, hpos, hbound, rfl⟩ :=
    escape_cases hc
  · exact h.letter hvalue
  · exact h.code hnone hplaces (length_upperHex places _) (codeChar_upperHex hpos hbound)

theorem two_le_length_escape (hc : escape? c = some marks) : 2 ≤ marks.length := by
  obtain ⟨letter, -, -, rfl⟩ | ⟨e, places, -, -, -, -, -, rfl⟩ := escape_cases hc
  · exact Nat.le_refl 2
  · exact Nat.le_add_left ..

/-- What is not escaped is printable, and neither a quote nor a backslash. -/
theorem printed_of_escape (h : escape? c = none) : Printed c ∧ c ≠ '"' ∧ c ≠ '\\' := by
  unfold escape? at h
  split at h
  · cases h
  · next hnone =>
    have hne : ∀ p ∈ letterEscapes, c ≠ p.1 := by
      intro p hp heq
      rw [List.lookup_eq_none_iff] at hnone
      simpa [heq] using hnone p hp
    split at h
    · next hprintable =>
      refine ⟨⟨?_, hne ('\n', 'n') (by decide)⟩, hne ('"', '"') (by decide),
        hne ('\\', '\\') (by decide)⟩
      simp only [isOrdinary, hprintable, Bool.or_true]
    · split at h
      · cases h
      · split at h <;> cases h

theorem head_escape (hc : escape? c = some marks) : ∃ tail, marks = '\\' :: tail := by
  obtain ⟨letter, -, -, rfl⟩ | ⟨e, places, -, -, -, -, -, rfl⟩ := escape_cases hc
  · exact ⟨_, rfl⟩
  · exact ⟨_, rfl⟩

end Escapes

section Folding

variable {cs more : List Char} {indent : Nat} {first : Bool}

theorem isInnerBlank_space (more : List Char) : isInnerBlank (' ' :: more) = !more.isEmpty := by
  cases more <;> rfl

theorem isInnerBlank_of_head (h : cs.head? ≠ some ' ') : isInnerBlank cs = false := by
  cases cs with
  | nil => rfl
  | cons c cs =>
    have hc : c ≠ ' ' := by simpa using h
    cases cs <;> simp [isInnerBlank, hc]

/-- Behind an escape a line may be folded. -/
theorem foldDouble_escape {marks : List Char} (hc : escape? c = some marks) (folds : Bool)
    (afterEscape : Bool) (column : Nat) :
    foldDouble folds indent first afterEscape column (c :: cs) =
      if folds && !first && !cs.isEmpty && lineWidth + 1 < column + marks.length then
        marks ++ (doubleBreak indent cs).1 ++
          foldDouble folds indent false true (doubleBreak indent cs).2 cs
      else marks ++ foldDouble folds indent false true (column + marks.length) cs := by
  rw [foldDouble, hc]

/-- In front of a blank, or of what follows an escape, a line may be folded. -/
theorem foldDouble_printed (hc : escape? c = none) (folds : Bool) (afterEscape : Bool)
    (column : Nat) :
    foldDouble folds indent first afterEscape column (c :: cs) =
      if folds && !first && !cs.isEmpty && (c = ' ' || afterEscape) && lineWidth < column then
        (doubleBreak indent (c :: cs)).1 ++
          c :: foldDouble folds indent false false ((doubleBreak indent (c :: cs)).2 + 1) cs
      else c :: foldDouble folds indent false false (column + 1) cs := by
  rw [foldDouble, hc]

theorem endsGap_foldDouble (h : cs.head? ≠ some ' ') (afterEscape : Bool) (column : Nat)
    (rest : List Char) :
    EndsGap (foldDouble true indent first afterEscape column cs ++ '"' :: rest) := by
  cases cs with
  | nil => exact ⟨'"', rest, rfl, rfl⟩
  | cons c cs =>
    have hspace : c ≠ ' ' := by simpa using h
    cases hc : escape? c with
    | some marks =>
      obtain ⟨tail, rfl⟩ := head_escape hc
      rw [foldDouble_escape hc]
      split <;> exact ⟨'\\', _, rfl, rfl⟩
    | none =>
      obtain ⟨hprinted, -, -⟩ := printed_of_escape hc
      obtain ⟨hbreak, htab⟩ := hprinted.not_break
      have hgap : startsGap c = false := by simp [startsGap, hspace, htab, hbreak]
      have hhead : (c :: cs).head? ≠ some ' ' := h
      rw [foldDouble_printed hc]
      split
      · rw [doubleBreak, if_neg hhead]
        exact ⟨'\\', _, rfl, rfl⟩
      · exact ⟨c, _, rfl, hgap⟩

theorem spoil_escape {marks : List Char} (hc : escape? c = some marks) :
    spoil indent first (c :: more) =
      if lineWidth ≤ indent ∧ first = false ∧ isInnerBlank more = true then
        c :: '\\' :: ' ' :: spoil indent false more
      else c :: spoil indent false more := by
  rw [spoil, hc]
  simp [and_assoc]

theorem spoil_printed (hc : escape? c = none) :
    spoil indent first (c :: more) = c :: spoil indent false more := by
  simp [spoil, hc]

/-- What is read for the rest of a text, wherever it is written. -/
def Follows (indent : Nat) (cs : List Char) : Prop :=
  ∀ afterEscape column, indent ≤ column →
    Unquotes (foldDouble true indent false afterEscape column cs) (spoil indent false cs)

theorem foldDouble_space (afterEscape : Bool) (column : Nat) :
    foldDouble true indent first afterEscape column (' ' :: more) =
      if !first && !more.isEmpty && lineWidth < column then
        '\\' :: (newLine indent ++ '\\' :: ' ' ::
          foldDouble true indent false false (indent + 2) more)
      else ' ' :: foldDouble true indent false false (column + 1) more := by
  have hescape : escape? ' ' = none := by decide
  rw [foldDouble_printed hescape]
  by_cases hfold : (!first && !more.isEmpty && decide (lineWidth < column)) = true
  · rw [if_pos hfold, if_pos (by simpa using hfold), doubleBreak, List.head?_cons, if_pos rfl]
    simp
  · rw [if_neg hfold, if_neg (by simpa using hfold)]

/-- A blank is read as one, whether the line is folded before it or not. -/
theorem Follows.space (hmore : Follows indent more) (hindent : indent ≠ 0) (afterEscape : Bool)
    {column : Nat} (hcolumn : indent ≤ column) :
    Unquotes (foldDouble true indent first afterEscape column (' ' :: more))
      (' ' :: spoil indent false more) := by
  rw [foldDouble_space]
  split
  · have hrest := (hmore false (indent + 2) (by omega)).reads.letter (e := ' ') rfl
    exact .newLine hindent (fun rest => ⟨'\\', _, rfl, rfl⟩) hrest.reads
  · exact (hmore false (column + 1) (by omega)).space

/-- A blank that continues a line behind a backslash is read as one, unless the line is folded
again in front of it. -/
theorem Follows.continued (hmore : Follows indent more) (hindent : indent ≠ 0) :
    Unquotes ('\\' :: foldDouble true indent false true (indent + 1) (' ' :: more))
      (if lineWidth ≤ indent ∧ isInnerBlank (' ' :: more) = true then
        '\\' :: ' ' :: spoil indent false (' ' :: more)
      else spoil indent false (' ' :: more)) := by
  have hspoil : spoil indent false (' ' :: more) = ' ' :: spoil indent false more := by
    have hescape : escape? ' ' = none := by decide
    rw [spoil_printed hescape]
  rw [foldDouble_space, hspoil, isInnerBlank_space]
  by_cases hfold : lineWidth ≤ indent ∧ (!more.isEmpty) = true
  · rw [if_pos hfold, if_pos (by simp only [hfold.2]; simp; omega)]
    have hrest := (hmore false (indent + 2) (by omega)).reads.letter (e := ' ') rfl
    have hbreak : Reads (newLine indent ++ '\\' :: ' ' ::
        foldDouble true indent false false (indent + 2) more)
        (' ' :: ' ' :: spoil indent false more) :=
      .newLine hindent (fun rest => ⟨'\\', _, rfl, rfl⟩) hrest.reads
    exact hbreak.letter (e := '\\') rfl
  · have hno : ¬ (!false && !more.isEmpty && decide (lineWidth < indent + 1)) = true := by
      intro hall
      simp only [Bool.and_eq_true, decide_eq_true_eq] at hall
      exact hfold ⟨by omega, hall.1.2⟩
    rw [if_neg hfold, if_neg hno]
    exact (hmore false (indent + 1 + 1) (by omega)).reads.letter (e := ' ') rfl

/-- What is read from a line break behind an escape on. -/
theorem Follows.broken (hmore : Follows indent more)
    (hblank : ∀ rest, more = ' ' :: rest → Follows indent rest) (hindent : indent ≠ 0) :
    Unquotes ((doubleBreak indent more).1 ++
        foldDouble true indent false true (doubleBreak indent more).2 more)
      (if lineWidth ≤ indent ∧ isInnerBlank more = true then
        '\\' :: ' ' :: spoil indent false more
      else spoil indent false more) := by
  by_cases hhead : more.head? = some ' '
  · obtain ⟨rest, rfl⟩ : ∃ rest, more = ' ' :: rest := by
      cases more with
      | nil => simp at hhead
      | cons d rest => exact ⟨rest, by simpa using hhead⟩
    have hcontinued := (hblank rest rfl).continued hindent
    have hbreak := Unquotes.newLine hindent (fun rest => ⟨'\\', _, rfl, rfl⟩) hcontinued.reads
    rw [doubleBreak, if_pos hhead]
    simpa using hbreak
  · rw [doubleBreak, if_neg hhead, if_neg (by simp [isInnerBlank_of_head hhead])]
    have hrest := (hmore true indent (Nat.le_refl _)).reads
    exact .newLine hindent (endsGap_foldDouble hhead _ _) hrest

/-- What is read behind an escape, whether the line is folded there or not. -/
theorem Follows.escaped {marks : List Char} (hc : escape? c = some marks)
    (hmore : Follows indent more)
    (hblank : ∀ rest, more = ' ' :: rest → Follows indent rest) (hindent : indent ≠ 0)
    (afterEscape : Bool) (hcolumn : indent ≤ column) :
    Unquotes (foldDouble true indent first afterEscape column (c :: more))
      (spoil indent first (c :: more)) := by
  have htwo := two_le_length_escape hc
  rw [foldDouble_escape hc, spoil_escape hc]
  by_cases hfold : (true && !first && !more.isEmpty &&
      decide (lineWidth + 1 < column + marks.length)) = true
  · rw [if_pos hfold, List.append_assoc]
    simp only [Bool.true_and, Bool.and_eq_true, Bool.not_eq_true'] at hfold
    have hall := (hmore.broken hblank hindent).reads.escape hc
    rw [apply_ite (c :: ·)] at hall
    simpa only [hfold.1.1, true_and] using hall
  · -- where a blank in the text would be spoilt the line is too long already
    have hkept : ¬ (lineWidth ≤ indent ∧ first = false ∧ isInnerBlank more = true) := by
      rintro ⟨hwidth, rfl, hinner⟩
      refine hfold ?_
      have hfilled : more.isEmpty = false := by
        cases more with
        | nil => simp [isInnerBlank] at hinner
        | cons d more => rfl
      simp only [hfilled, Bool.not_false, Bool.true_and, decide_eq_true_eq]
      omega
    rw [if_neg hfold, if_neg hkept]
    exact (hmore true _ (by omega)).reads.escape hc

/-- What is read for a character that stands for itself. -/
theorem Follows.printed (hc : escape? c = none) (hmore : Follows indent more)
    (hindent : indent ≠ 0) (afterEscape : Bool) (hcolumn : indent ≤ column) :
    Unquotes (foldDouble true indent first afterEscape column (c :: more))
      (spoil indent first (c :: more)) := by
  rw [spoil_printed hc]
  by_cases hspace : c = ' '
  · subst hspace
    exact hmore.space hindent afterEscape hcolumn
  obtain ⟨hprinted, hquote, hslash⟩ := printed_of_escape hc
  obtain ⟨hbreak, htab⟩ := hprinted.not_break
  have hgap : startsGap c = false := by simp [startsGap, hspace, htab, hbreak]
  have hhead : (c :: more).head? ≠ some ' ' := by simpa using hspace
  rw [foldDouble_printed hc]
  split
  · rw [doubleBreak, if_neg hhead]
    have hrest := Unquotes.char hgap hquote hslash (hmore false (indent + 1) (by omega)).reads
    exact .newLine hindent (fun rest => ⟨c, _, rfl, hgap⟩) hrest.reads
  · exact Unquotes.char hgap hquote hslash (hmore false (column + 1) (by omega)).reads

/-- However a text is folded in double quotes, it is read as `spoil` says. -/
theorem unquotes_foldDouble (hindent : indent ≠ 0) (cs : List Char) (afterEscape : Bool)
    (hcolumn : indent ≤ column) :
    Unquotes (foldDouble true indent first afterEscape column cs) (spoil indent first cs) := by
  induction hn : cs.length using Nat.strongRecOn
    generalizing cs first afterEscape column with
  | ind n ih =>
  subst hn
  have hfollows {more : List Char} (hlength : more.length < cs.length) : Follows indent more :=
    fun afterEscape column hcolumn => ih _ hlength more afterEscape hcolumn rfl
  cases cs with
  | nil => exact .nil
  | cons c more =>
    have hmore : Follows indent more := hfollows (by simp)
    cases hc : escape? c with
    | none => exact hmore.printed hc hindent afterEscape hcolumn
    | some marks =>
      refine hmore.escaped hc (fun rest heq => hfollows ?_) hindent afterEscape hcolumn
      rw [heq, List.length_cons, List.length_cons]
      omega

end Folding

end ModelData.Yaml
