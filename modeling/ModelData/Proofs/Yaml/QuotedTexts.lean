import ModelData.Proofs.Yaml.PlainTexts
import ModelData.Proofs.Value.Traverse

/-!
Texts in single quotes. Only the quote is doubled there. A writer may put a line break for a
single blank, and writes a run of line breaks with one more; a reader undoes both, and blanks
that stand next to a break would be lost, but there are none.
-/

namespace ModelData.Yaml

/-- A text that goes on with something other than a gap. -/
def EndsGap (rest : List Char) : Prop :=
  ∃ c tail, rest = c :: tail ∧ startsGap c = false

variable {cs rest : List Char} {column line : Nat} {fresh : Bool}

section Gaps

theorem EndsGap.head (h : EndsGap rest) :
    ∀ c ∈ rest.head?, (decide (c = ' ') || decide (c = '\t')) = false ∧ isBreak c = false := by
  obtain ⟨d, tail, rfl, hd⟩ := h
  intro c hc
  obtain rfl : d = c := by simpa using hc
  simpa [startsGap] using hd

theorem readQuotedGap_spaces (k : Nat) (h : EndsGap rest) :
    readQuotedGap ⟨spaces k ++ rest, column, line, fresh⟩ =
      .ok (spaces k, ⟨rest, column + k, line, false⟩) := by
  obtain ⟨c, tail, rfl, hc⟩ := h
  simp only [startsGap, Bool.or_eq_false_iff, decide_eq_false_iff_not] at hc
  have hblank : ∀ d ∈ spaces k, (decide (d = ' ') || decide (d = '\t')) = true := by
    intro d hd
    simp [List.eq_of_mem_replicate hd]
  have htake : (spaces k ++ c :: tail).takeWhile
      (fun d => decide (d = ' ') || decide (d = '\t')) = spaces k := by
    rw [List.takeWhile_append_of_pos hblank, List.takeWhile_cons_of_neg (by simp [hc]),
      List.append_nil]
  simp only [readQuotedGap, htake, Cursor.forward, length_spaces,
    List.drop_left' (length_spaces k), hc.2]
  rfl

/-- Line breaks read as one less than they are, and a single one as a blank. -/
theorem readQuotedGap_breaks (k n : Nat) (hn : n ≠ 0) (h : EndsGap rest) :
    readQuotedGap ⟨List.replicate (k + 1) '\n' ++ (spaces n ++ rest), column, line, fresh⟩ =
      .ok (joinBreaks (List.replicate (k + 1) '\n'), ⟨rest, n, line + (k + 1), false⟩) := by
  have hbreaks := @readBreaks_replicate (fun d => decide (d = ' ') || decide (d = '\t')) rest
    (by decide) h.head k n column line
  have hmark : (⟨rest, n, line + (k + 1), true⟩ : Cursor).atDocumentMark = false :=
    Cursor.atDocumentMark_of_column hn
  rw [List.replicate_succ, List.cons_append] at hbreaks ⊢
  have hnone : List.takeWhile (fun d => decide (d = ' ') || decide (d = '\t'))
      ('\n' :: (List.replicate k '\n' ++ (spaces n ++ rest))) = [] := rfl
  simp only [readQuotedGap, hnone, List.length_nil, Cursor.forward, List.drop_zero,
    Nat.add_zero, hbreaks, hmark]
  rfl

end Gaps

section Steps

variable {steps : Nat} {more : List Char} {last : Cursor}

theorem readSingle_close (h : rest.head? ≠ some '\'') :
    readSingle (steps + 1) ⟨'\'' :: rest, column, line, fresh⟩ =
      .ok ([], ⟨rest, column + 1, line, false⟩) := by
  cases rest with
  | nil => rfl
  | cons c rest =>
    have hc : c ≠ '\'' := by simpa using h
    simp [readSingle, hc, Cursor.forward]

theorem readSingle_quote (h : readSingle steps ⟨rest, column + 2, line, false⟩ = .ok (more, last)) :
    readSingle (steps + 1) ⟨'\'' :: '\'' :: rest, column, line, fresh⟩ =
      .ok ('\'' :: more, last) := by
  have hstep : readSingle (steps + 1) ⟨'\'' :: '\'' :: rest, column, line, fresh⟩ =
      readSingle steps ⟨rest, column + 2, line, false⟩ >>= fun p => .ok ('\'' :: p.1, p.2) := rfl
  rw [hstep, h]
  rfl

/-- Any other character is a part of the text, or starts a gap in it. -/
theorem readSingle_cons {c : Char} (hquote : c ≠ '\'') :
    readSingle (steps + 1) ⟨c :: rest, column, line, fresh⟩ =
      if startsGap c then
        readQuotedGap ⟨c :: rest, column, line, fresh⟩ >>= fun gap =>
          readSingle steps gap.2 >>= fun p => .ok (gap.1 ++ p.1, p.2)
      else
        readSingle steps ⟨rest, column + 1, line, false⟩ >>= fun p => .ok (c :: p.1, p.2) := by
  simp [readSingle, hquote, Cursor.forward]
  rfl

theorem readSingle_char {c : Char} (hc : startsGap c = false) (hquote : c ≠ '\'')
    (h : readSingle steps ⟨rest, column + 1, line, false⟩ = .ok (more, last)) :
    readSingle (steps + 1) ⟨c :: rest, column, line, fresh⟩ = .ok (c :: more, last) := by
  rw [readSingle_cons hquote, hc, if_neg Bool.false_ne_true, h]
  rfl

theorem readSingle_gap {c : Char} {gap : List Char} {next : Cursor} (hc : startsGap c = true)
    (hgap : readQuotedGap ⟨c :: rest, column, line, fresh⟩ = .ok (gap, next))
    (h : readSingle steps next = .ok (more, last)) :
    readSingle (steps + 1) ⟨c :: rest, column, line, fresh⟩ = .ok (gap ++ more, last) := by
  have hquote : c ≠ '\'' := by
    rintro rfl
    exact Bool.false_ne_true hc
  rw [readSingle_cons hquote, if_pos hc, hgap, ok_bind, h]
  rfl

end Steps

section Folding

variable {folds : Bool} {indent : Nat}

theorem foldSingle_cons (before : Before) (column : Nat) (c : Char) (rest : List Char) :
    foldSingle folds indent before column (c :: rest) =
      if c = '\n' then
        (if before = .lineBreak then ['\n'] else ['\n', '\n'])
          ++ (if rest.head? = some '\n' then [] else spaces indent)
          ++ foldSingle folds indent .lineBreak indent rest
      else if c = '\'' then '\'' :: '\'' :: foldSingle folds indent .other (column + 2) rest
      else if c = ' ' then
        if folds && (before = .other || before = .lineBreak) && lineWidth < column && goesOn rest
        then newLine indent ++ foldSingle folds indent .other indent rest
        else c :: foldSingle folds indent .space (column + 1) rest
      else c :: foldSingle folds indent .other (column + 1) rest :=
  rfl

theorem foldSingle_spaces (k column : Nat) :
    foldSingle folds indent .space column (spaces k ++ rest) =
      spaces k ++ foldSingle folds indent .space (column + k) rest := by
  induction k generalizing column with
  | zero => rfl
  | succ k ih =>
    rw [spaces_succ, List.cons_append, foldSingle_cons, if_neg (by decide), if_neg (by decide),
      if_pos rfl, if_neg (by simp), ih, Nat.add_assoc, Nat.add_comm 1]
    rfl

theorem foldSingle_gap (before : Before) (k column : Nat) :
    foldSingle folds indent before column (spaces (k + 1) ++ rest) =
        spaces (k + 1) ++ foldSingle folds indent .space (column + (k + 1)) rest ∨
      foldSingle folds indent before column (spaces (k + 1) ++ rest) =
        newLine indent ++ foldSingle folds indent .other indent rest ∧ k = 0 := by
  rw [spaces_succ, List.cons_append, foldSingle_cons, if_neg (by decide), if_neg (by decide),
    if_pos rfl]
  split
  · next hfold =>
    cases k with
    | zero => exact .inr ⟨rfl, rfl⟩
    | succ k => simp [spaces_succ, goesOn] at hfold
  · rw [foldSingle_spaces, Nat.add_assoc, Nat.add_comm 1]
    exact .inl rfl

theorem foldSingle_breaks (hrest : rest.head? ≠ some '\n') (k column : Nat) :
    foldSingle folds indent .lineBreak column (List.replicate (k + 1) '\n' ++ rest) =
      List.replicate (k + 1) '\n' ++ (spaces indent ++
        foldSingle folds indent .lineBreak indent rest) := by
  induction k generalizing column with
  | zero =>
    rw [List.replicate_one, List.singleton_append, foldSingle_cons, if_pos rfl, if_pos rfl,
      if_neg hrest]
    rfl
  | succ k ih =>
    have hhead : (List.replicate (k + 1) '\n' ++ rest).head? = some '\n' := rfl
    rw [List.replicate_succ, List.cons_append, foldSingle_cons, if_pos rfl, if_pos rfl,
      if_pos hhead, ih]
    rfl

/-- A run of line breaks is written with one more. -/
theorem foldSingle_breaks_other {before : Before} (hbefore : before ≠ .lineBreak)
    (hrest : rest.head? ≠ some '\n') (k column : Nat) :
    foldSingle folds indent before column (List.replicate (k + 1) '\n' ++ rest) =
      List.replicate (k + 2) '\n' ++ (spaces indent ++
        foldSingle folds indent .lineBreak indent rest) := by
  have hone := @foldSingle_breaks rest folds indent hrest k column
  rw [List.replicate_succ, List.cons_append, foldSingle_cons, if_pos rfl, if_pos rfl] at hone
  rw [List.replicate_succ, List.cons_append, foldSingle_cons, if_pos rfl, if_neg hbefore]
  exact congrArg ('\n' :: ·) hone

theorem endsGap_foldSingle (hcs : ∀ c ∈ cs, isOrdinary c = true) (hspace : cs.head? ≠ some ' ')
    (hbreak : cs.head? ≠ some '\n') (before : Before) (column : Nat) (tail : List Char) :
    EndsGap (foldSingle folds indent before column cs ++ '\'' :: tail) := by
  cases cs with
  | nil => exact ⟨'\'', tail, rfl, rfl⟩
  | cons c cs =>
    have hc : c ≠ ' ' := by simpa using hspace
    have hline : c ≠ '\n' := by simpa using hbreak
    have hgap : startsGap c = false := by
      obtain ⟨hnone, htab⟩ := Printed.not_break ⟨hcs c List.mem_cons_self, hline⟩
      simp [startsGap, hc, htab, hnone]
    rw [foldSingle_cons, if_neg hline]
    by_cases hquote : c = '\''
    · rw [if_pos hquote]
      exact ⟨'\'', _, rfl, rfl⟩
    · rw [if_neg hquote, if_neg hc]
      exact ⟨c, _, rfl, hgap⟩

end Folding

section Reading

variable {folds : Bool} {indent steps : Nat}

theorem hasSpaceAtBreak_cons_cons (c d : Char) (rest : List Char) :
    hasSpaceAtBreak (c :: d :: rest) =
      ((c = ' ' && d = '\n') || (c = '\n' && d = ' ') || hasSpaceAtBreak (d :: rest)) :=
  rfl

theorem hasSpaceAtBreak_of_append (before : List Char)
    (h : hasSpaceAtBreak (before ++ rest) = false) : hasSpaceAtBreak rest = false := by
  induction before with
  | nil => exact h
  | cons c before ih =>
    refine ih ?_
    cases hmore : before ++ rest with
    | nil => rfl
    | cons d tail =>
      rw [List.cons_append, hmore, hasSpaceAtBreak_cons_cons] at h
      simp only [Bool.or_eq_false_iff] at h
      exact h.2

theorem head_of_space (h : hasSpaceAtBreak (' ' :: rest) = false) : rest.head? ≠ some '\n' := by
  cases rest with
  | nil => simp
  | cons d rest =>
    rintro heq
    obtain rfl : d = '\n' := by simpa using heq
    simp [hasSpaceAtBreak_cons_cons] at h

theorem head_of_break (h : hasSpaceAtBreak ('\n' :: rest) = false) : rest.head? ≠ some ' ' := by
  cases rest with
  | nil => simp
  | cons d rest =>
    rintro heq
    obtain rfl : d = ' ' := by simpa using heq
    simp [hasSpaceAtBreak_cons_cons] at h

theorem eq_breaks_append (cs : List Char) :
    ∃ k rest, cs = List.replicate k '\n' ++ rest ∧ rest.head? ≠ some '\n' := by
  induction cs with
  | nil => exact ⟨0, [], rfl, by simp⟩
  | cons c cs ih =>
    by_cases hc : c = '\n'
    · obtain ⟨k, rest, hcs, hrest⟩ := ih
      exact ⟨k + 1, rest, by rw [hc, hcs]; rfl, hrest⟩
    · exact ⟨0, c :: cs, rfl, by simpa using hc⟩

/-- A text for single quotes: no blank stands next to a line break. -/
structure Quotable (cs : List Char) : Prop where
  ordinary : ∀ c ∈ cs, isOrdinary c = true
  unspaced : hasSpaceAtBreak cs = false

theorem Quotable.behind {part : List Char} (h : Quotable (part ++ rest)) : Quotable rest :=
  ⟨fun c hc => h.ordinary c (List.mem_append_right part hc),
    hasSpaceAtBreak_of_append part h.unspaced⟩

theorem Quotable.head_behind_breaks {k : Nat}
    (h : Quotable (List.replicate (k + 1) '\n' ++ rest)) : rest.head? ≠ some ' ' := by
  rw [List.replicate_succ', List.append_assoc] at h
  exact head_of_break h.behind.unspaced

theorem Quotable.head_behind_spaces {k : Nat} (h : Quotable (spaces (k + 1) ++ rest)) :
    rest.head? ≠ some '\n' := by
  rw [show spaces (k + 1) = spaces k ++ [' '] from List.replicate_succ', List.append_assoc] at h
  exact head_of_space h.behind.unspaced

/-- What is left of a text is read back behind any part of it, wherever it is written. -/
def Returns (folds : Bool) (indent steps : Nat) (rest cs : List Char) : Prop :=
  ∀ before, (before = Before.lineBreak → cs.head? ≠ some '\n') →
    ∀ written column line fresh, ∃ column' line', readSingle steps
        ⟨foldSingle folds indent before written cs ++ '\'' :: rest, column, line, fresh⟩ =
      .ok (cs, ⟨rest, column', line', false⟩)

variable {more : List Char} {c : Char} {k : Nat}

theorem Returns.breaks (h : Returns folds indent steps rest more) (hindent : indent ≠ 0)
    (hcs : Quotable (List.replicate (k + 1) '\n' ++ more)) (hmore : more.head? ≠ some '\n') :
    Returns folds indent (steps + 1) rest (List.replicate (k + 1) '\n' ++ more) := by
  intro before hbefore written column line fresh
  have hother : before ≠ .lineBreak := fun heq => hbefore heq rfl
  obtain ⟨column', line', hread⟩ :=
    h .lineBreak (fun _ => hmore) indent indent (line + (k + 2)) false
  have hends := @endsGap_foldSingle more folds indent hcs.behind.ordinary
    hcs.head_behind_breaks hmore .lineBreak indent rest
  have hgap := @readQuotedGap_breaks _ column line fresh (k + 1) indent hindent hends
  rw [joinBreaks_replicate] at hgap
  rw [foldSingle_breaks_other hother hmore, List.append_assoc, List.append_assoc]
  exact ⟨column', line', readSingle_gap rfl hgap hread⟩

theorem Returns.spaces (h : Returns folds indent steps rest more) (hindent : indent ≠ 0)
    (hcs : Quotable (Yaml.spaces (k + 1) ++ more)) (hmore : more.head? ≠ some ' ') :
    Returns folds indent (steps + 1) rest (Yaml.spaces (k + 1) ++ more) := by
  intro before _ written column line fresh
  have hends (before : Before) (written : Nat) := @endsGap_foldSingle more folds indent
    hcs.behind.ordinary hmore hcs.head_behind_spaces before written rest
  obtain hgap | ⟨hgap, rfl⟩ := @foldSingle_gap more folds indent before k written
  · obtain ⟨column', line', hread⟩ :=
      h .space (by simp) (written + (k + 1)) (column + (k + 1)) line false
    rw [hgap, List.append_assoc]
    exact ⟨column', line', readSingle_gap rfl (readQuotedGap_spaces (k + 1) (hends _ _)) hread⟩
  · obtain ⟨column', line', hread⟩ := h .other (by simp) indent indent (line + 1) false
    rw [hgap, List.append_assoc]
    exact ⟨column', line', readSingle_gap rfl
      (readQuotedGap_breaks 0 indent hindent (hends _ _)) hread⟩

theorem Returns.quote (h : Returns folds indent steps rest more) :
    Returns folds indent (steps + 1) rest ('\'' :: more) := by
  intro before _ written column line fresh
  obtain ⟨column', line', hread⟩ := h .other (by simp) (written + 2) (column + 2) line false
  rw [foldSingle_cons, if_neg (by decide), if_pos rfl]
  exact ⟨column', line', readSingle_quote hread⟩

theorem Returns.char (h : Returns folds indent steps rest more) (hc : Printed c)
    (hquote : c ≠ '\'') (hspace : c ≠ ' ') :
    Returns folds indent (steps + 1) rest (c :: more) := by
  intro before _ written column line fresh
  obtain ⟨column', line', hread⟩ := h .other (by simp) (written + 1) (column + 1) line false
  obtain ⟨hnone, htab⟩ := hc.not_break
  rw [foldSingle_cons, if_neg hc.2, if_neg hquote, if_neg hspace]
  exact ⟨column', line', readSingle_char (by simp [startsGap, hspace, htab, hnone]) hquote hread⟩

/-- However a text is folded in single quotes, it is read back from behind the opening one. -/
theorem returns_quotable (hcs : Quotable cs) (hindent : indent ≠ 0)
    (hrest : rest.head? ≠ some '\'') (hsteps : cs.length < steps) :
    Returns folds indent steps rest cs := by
  -- a run of line breaks or of blanks is one step, so what is left may be much shorter
  induction hn : cs.length using Nat.strongRecOn generalizing cs steps with
  | ind n ih =>
  subst hn
  obtain ⟨steps, rfl⟩ : ∃ n, steps = n + 1 := Nat.exists_eq_add_one_of_ne_zero (by omega)
  have hgo {part more : List Char} (hmore : part ++ more = cs) (hpart : part ≠ []) :
      Returns folds indent steps rest more := by
    have hpos := List.length_pos_iff.2 hpart
    have hlength := congrArg List.length hmore
    rw [List.length_append] at hlength
    exact ih more.length (by omega) (hmore ▸ hcs).behind (by omega) rfl
  cases cs with
  | nil => exact fun _ _ _ _ _ _ => ⟨_, _, readSingle_close hrest⟩
  | cons c tail =>
    by_cases hline : c = '\n'
    · obtain ⟨k, more, rfl, hmore⟩ := eq_breaks_append tail
      rw [hline, ← List.cons_append, ← List.replicate_succ] at hcs hgo ⊢
      exact (hgo rfl (by simp)).breaks hindent hcs hmore
    by_cases hspace : c = ' '
    · obtain ⟨k, more, rfl, hmore⟩ := eq_spaces_append tail
      rw [hspace, ← List.cons_append, ← spaces_succ] at hcs hgo ⊢
      exact (hgo rfl (by simp [spaces_succ])).spaces hindent hcs hmore
    have hmore : Returns folds indent steps rest tail := @hgo [c] tail rfl (by simp)
    by_cases hquote : c = '\''
    · exact hquote ▸ hmore.quote
    · exact hmore.char ⟨hcs.ordinary c List.mem_cons_self, hline⟩ hquote hspace

end Reading

end ModelData.Yaml
