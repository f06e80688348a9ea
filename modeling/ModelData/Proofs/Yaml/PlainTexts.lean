import ModelData.Proofs.Yaml.Places

/-!
Texts as plain scalars. A plain text is a row of words with runs of blanks between them; a
writer may put a line break for a single blank, and a reader takes word for word and puts the
blank back. It stops in front of the next line because that stands less far in, or in front of
a colon.
-/

namespace ModelData.Yaml

/-- A character that may stand in a plain scalar. -/
def Printed (c : Char) : Prop :=
  isOrdinary c = true ∧ c ≠ '\n'

/-- A part of a plain scalar from the start of a word to its end. -/
structure Bare (cs : List Char) : Prop where
  filled : cs ≠ []
  printed : ∀ c ∈ cs, Printed c
  first : cs.head? ≠ some ' ' ∧ cs.head? ≠ some '#'
  last : cs.getLast? ≠ some ' '
  unmarked : hasInnerMark cs = false

/-- A word is not empty, has no blanks and does not end with a colon. -/
structure Word (w : List Char) : Prop where
  filled : w ≠ []
  printed : ∀ c ∈ w, Printed c ∧ c ≠ ' '
  last : w.getLast? ≠ some ':'

variable {cs w rest more : List Char} {c : Char}

theorem Printed.not_break (h : Printed c) : isBreak c = false ∧ c ≠ '\t' := by
  obtain ⟨hc, hline⟩ := h
  have hmarks : c ∉ ['\t', '\u2028', '\u2029'] := not_mem_of_all hc (by decide)
  simp only [List.mem_cons, List.not_mem_nil, or_false, not_or] at hmarks
  exact ⟨by simp [isBreak, hline, hmarks], hmarks.1⟩

theorem endsWord_cons_of_printed (h : Printed c) (hc : c ≠ ' ') (rest : List Char) :
    endsWord (c :: rest) = false := by
  obtain ⟨hbreak, htab⟩ := h.not_break
  simp [endsWord, hc, htab, hbreak]

theorem endsPlain_of_printed (h : Printed c) (hc : c ≠ ' ')
    (hcolon : c = ':' → endsWord rest = false) : endsPlain false c rest = false := by
  obtain ⟨hbreak, htab⟩ := h.not_break
  by_cases heq : c = ':'
  · have hrest := hcolon heq
    simp [endsPlain, hc, htab, hbreak, hrest]
  · simp [endsPlain, hc, htab, hbreak, heq]

/-- A word is taken whole, and no more than it. -/
theorem takeWord_append (h : Word w) (hrest : ∀ c tail, rest = c :: tail →
    endsPlain false c tail = true) : takeWord false (w ++ rest) = w := by
  obtain ⟨-, hprinted, hlast⟩ := h
  induction w with
  | nil =>
    cases rest with
    | nil => rfl
    | cons c tail => rw [List.nil_append, takeWord, if_pos (hrest c tail rfl)]
  | cons c w ih =>
    obtain ⟨hc, hspace⟩ := hprinted c List.mem_cons_self
    have hcolon : c = ':' → endsWord (w ++ rest) = false := by
      rintro rfl
      cases w with
      | nil => exact absurd rfl hlast
      | cons d w =>
        obtain ⟨hd, hdspace⟩ := hprinted d (by simp)
        exact endsWord_cons_of_printed hd hdspace _
    have hlast' : w.getLast? ≠ some ':' := by
      cases w with
      | nil => simp
      | cons d w => simpa [List.getLast?_cons_cons] using hlast
    rw [List.cons_append, takeWord, if_neg (by simp [endsPlain_of_printed hc hspace hcolon]),
      ih (fun d hd => hprinted d (List.mem_cons_of_mem _ hd)) hlast']

section Gaps

variable {column line : Nat} {fresh : Bool}

theorem takeGap_spaces (k : Nat) (hrest : ∀ c ∈ rest.head?, c ≠ ' ' ∧ isBreak c = false) :
    takeGap ⟨spaces k ++ rest, column, line, fresh⟩ =
      (spaces k, ⟨rest, column + k, line, fresh⟩) := by
  have htake : (spaces k ++ rest).takeWhile (fun c => decide (c = ' ')) = spaces k := by
    have hspaces : ∀ c ∈ spaces k, decide (c = ' ') = true := by
      intro c hc
      simp [List.eq_of_mem_replicate hc]
    have hnone : rest.takeWhile (fun c => decide (c = ' ')) = [] := by
      cases rest with
      | nil => rfl
      | cons c rest => exact List.takeWhile_cons_of_neg (by simp [(hrest c rfl).1])
    rw [List.takeWhile_append_of_pos hspaces, hnone, List.append_nil]
  have hskip : (⟨spaces k ++ rest, column, line, fresh⟩ : Cursor).skipSpaces =
      ⟨rest, column + k, line, fresh⟩ := by
    simp only [Cursor.skipSpaces, htake, length_spaces, Cursor.mk.injEq, and_true]
    exact List.drop_left' (length_spaces k)
  rw [takeGap, hskip]
  cases rest with
  | nil => exact Prod.ext htake rfl
  | cons c rest => simp [htake, (hrest c rfl).2]

theorem takeGap_newLine (n : Nat) (hrest : ∀ c ∈ rest.head?, c ≠ ' ' ∧ isBreak c = false) :
    takeGap ⟨newLine n ++ rest, column, line, fresh⟩ =
      ([' '], ⟨rest, n, line + 1, true⟩) := by
  have hbreaks : readBreaks (fun c => decide (c = ' ')) (newLine n ++ rest) column line =
      (['\n'], ⟨rest, n, line + 1, true⟩) :=
    readBreaks_newLine (by decide) (fun c hc => by simp [hrest c hc]) n column line
  rw [takeGap, Cursor.skipSpaces_newLine]
  simp only [newLine_append] at hbreaks ⊢
  rw [if_pos (by decide), hbreaks]
  rfl

end Gaps

section Words

theorem hasInnerMark_cons_cons (c d : Char) (rest : List Char) :
    hasInnerMark (c :: d :: rest) =
      ((c = ':' && isSpaceOrBreak d) || (isSpaceOrBreak c && d = '#') ||
        hasInnerMark (d :: rest)) :=
  rfl

theorem hasInnerMark_of_append (before : List Char) (h : hasInnerMark (before ++ rest) = false) :
    hasInnerMark rest = false := by
  induction before with
  | nil => exact h
  | cons c before ih =>
    refine ih ?_
    cases hmore : before ++ rest with
    | nil => rfl
    | cons d tail =>
      rw [List.cons_append, hmore, hasInnerMark_cons_cons] at h
      simp only [Bool.or_eq_false_iff] at h
      exact h.2

theorem Bare.word (h : Bare cs) {gap : List Char} (hcs : cs = w ++ gap) (hw : w ≠ [])
    (hspace : ∀ c ∈ w, c ≠ ' ') (hgap : gap = [] ∨ gap.head? = some ' ') : Word w := by
  refine ⟨hw, fun c hc => ⟨h.printed c (hcs ▸ List.mem_append_left _ hc), hspace c hc⟩, ?_⟩
  intro hlast
  obtain ⟨before, rfl⟩ := List.getLast?_eq_some_iff.1 hlast
  have hmark : hasInnerMark (':' :: gap) = false := by
    refine hasInnerMark_of_append before ?_
    have hunmarked := h.unmarked
    rwa [hcs, List.append_assoc] at hunmarked
  rcases hgap with rfl | hgap
  · exact absurd hmark (by decide)
  · obtain ⟨tail, rfl⟩ : ∃ tail, gap = ' ' :: tail := by
      cases gap with
      | nil => simp at hgap
      | cons c tail => exact ⟨tail, by simpa using hgap⟩
    simp [hasInnerMark_cons_cons, isSpaceOrBreak] at hmark

theorem eq_spaces_append (cs : List Char) :
    ∃ k rest, cs = spaces k ++ rest ∧ rest.head? ≠ some ' ' := by
  induction cs with
  | nil => exact ⟨0, [], rfl, by simp⟩
  | cons c cs ih =>
    by_cases hc : c = ' '
    · obtain ⟨k, rest, hcs, hrest⟩ := ih
      exact ⟨k + 1, rest, by rw [hc, hcs]; rfl, hrest⟩
    · exact ⟨0, c :: cs, rfl, by simpa using hc⟩

theorem eq_word_append (cs : List Char) :
    ∃ w gap, cs = w ++ gap ∧ (∀ c ∈ w, c ≠ ' ') ∧ (gap = [] ∨ gap.head? = some ' ') := by
  induction cs with
  | nil => exact ⟨[], [], rfl, by simp, .inl rfl⟩
  | cons c cs ih =>
    by_cases hc : c = ' '
    · exact ⟨[], c :: cs, rfl, by simp, .inr (by rw [hc]; rfl)⟩
    · obtain ⟨w, gap, hcs, hw, hgap⟩ := ih
      exact ⟨c :: w, gap, by rw [hcs]; rfl, List.forall_mem_cons.2 ⟨hc, hw⟩, hgap⟩

/-- What stands behind the gap after a word is again a row of words. -/
theorem Bare.behind (h : Bare cs) {k : Nat} (hcs : cs = w ++ (spaces (k + 1) ++ rest))
    (hrest : rest.head? ≠ some ' ') : Bare rest := by
  have hshape : cs = (w ++ spaces k) ++ (' ' :: rest) := by
    rw [hcs, show spaces (k + 1) = spaces k ++ [' '] from List.replicate_succ']
    simp
  have hfilled : rest ≠ [] := by
    rintro rfl
    refine h.last ?_
    rw [hshape, List.getLast?_append]
    rfl
  have hmark : hasInnerMark (' ' :: rest) = false := by
    have hunmarked := h.unmarked
    rw [hshape] at hunmarked
    exact hasInnerMark_of_append _ hunmarked
  refine ⟨hfilled, fun c hc => h.printed c (by rw [hcs]; simp [hc]), ⟨hrest, ?_⟩, ?_,
    hasInnerMark_of_append [' '] hmark⟩
  · intro hhash
    cases rest with
    | nil => simp at hhash
    | cons c rest =>
      obtain rfl : c = '#' := by simpa using hhash
      simp [hasInnerMark_cons_cons, isSpaceOrBreak] at hmark
  · have hlast := h.last
    rw [hshape, List.getLast?_append, List.getLast?_cons] at hlast
    intro heq
    exact hlast (by simp [heq])

/-- A plain text is a word, or a word and a gap in front of a plain text. -/
theorem Bare.exists_word (h : Bare cs) :
    ∃ w, Word w ∧ (cs = w ∨ ∃ k rest, cs = w ++ (spaces (k + 1) ++ rest) ∧ Bare rest) := by
  obtain ⟨w, gap, hcs, hspace, hgap⟩ := eq_word_append cs
  have hw : w ≠ [] := by
    rintro rfl
    rcases hgap with rfl | hgap
    · exact h.filled hcs
    · exact h.first.1 (hcs ▸ hgap)
  refine ⟨w, h.word hcs hw hspace hgap, ?_⟩
  rcases hgap with rfl | hgap
  · exact .inl (by rw [hcs, List.append_nil])
  obtain ⟨k, rest, rfl, hrest⟩ := eq_spaces_append gap
  cases k with
  | zero => exact absurd hgap hrest
  | succ k => exact .inr ⟨k, rest, hcs, h.behind hcs hrest⟩

end Words

section Folding

variable {folds : Bool} {indent : Nat}

theorem foldPlain_cons (afterSpace : Bool) (column : Nat) (c : Char) (rest : List Char) :
    foldPlain folds indent afterSpace column (c :: rest) =
      if folds && c = ' ' && !afterSpace && lineWidth < column && goesOn rest then
        newLine indent ++ foldPlain folds indent false indent rest
      else c :: foldPlain folds indent (c = ' ') (column + 1) rest :=
  rfl

theorem foldPlain_word (hw : ∀ c ∈ w, c ≠ ' ') (hfilled : w ≠ []) (afterSpace : Bool)
    (column : Nat) : foldPlain folds indent afterSpace column (w ++ rest) =
      w ++ foldPlain folds indent false (column + w.length) rest := by
  induction w generalizing afterSpace column with
  | nil => exact absurd rfl hfilled
  | cons c w ih =>
    have hc := hw c List.mem_cons_self
    rw [List.cons_append, foldPlain_cons, if_neg (by simp [hc]), decide_eq_false hc]
    cases w with
    | nil => rfl
    | cons d w =>
      rw [ih (fun e he => hw e (List.mem_cons_of_mem _ he)) (by simp), List.length_cons (a := c),
        Nat.add_assoc, Nat.add_comm 1]
      rfl

theorem foldPlain_spaces (k column : Nat) :
    foldPlain folds indent true column (spaces k ++ rest) =
      spaces k ++ foldPlain folds indent true (column + k) rest := by
  induction k generalizing column with
  | zero => rfl
  | succ k ih =>
    rw [spaces_succ, List.cons_append, foldPlain_cons, if_neg (by simp), decide_eq_true rfl, ih,
      Nat.add_assoc, Nat.add_comm 1]
    rfl

/-- A gap is written as it is, or as a line break if it is a single blank. -/
theorem foldPlain_gap (k column : Nat) :
    foldPlain folds indent false column (spaces (k + 1) ++ rest) =
        spaces (k + 1) ++ foldPlain folds indent true (column + (k + 1)) rest ∨
      foldPlain folds indent false column (spaces (k + 1) ++ rest) =
        newLine indent ++ foldPlain folds indent false indent rest ∧ k = 0 := by
  rw [spaces_succ, List.cons_append, foldPlain_cons]
  split
  · next hfold =>
    cases k with
    | zero => exact .inr ⟨rfl, rfl⟩
    | succ k => simp [spaces_succ, goesOn] at hfold
  · rw [decide_eq_true rfl, foldPlain_spaces, Nat.add_assoc, Nat.add_comm 1]
    exact .inl rfl

theorem foldPlain_false (afterSpace : Bool) (column : Nat) (cs : List Char) :
    foldPlain false indent afterSpace column cs = cs := by
  induction cs generalizing afterSpace column with
  | nil => rfl
  | cons c cs ih => rw [foldPlain_cons, if_neg (by simp), ih]

theorem head?_foldPlain (hc : cs.head? ≠ some ' ') (afterSpace : Bool) (column : Nat) :
    (foldPlain folds indent afterSpace column cs).head? = cs.head? := by
  cases cs with
  | nil => rfl
  | cons c cs =>
    have hc : c ≠ ' ' := fun heq => hc (by rw [heq]; rfl)
    rw [foldPlain_cons, if_neg (by simp [hc])]
    rfl

end Folding

section Reading

variable {folds : Bool} {indent least j column line steps : Nat} {fresh : Bool}

theorem endsPlain_newLine (n : Nat) (rest : List Char) : ∀ c tail,
    newLine n ++ rest = c :: tail → endsPlain false c tail = true := by
  intro c tail heq
  rw [newLine_append] at heq
  rw [← (List.cons.inj heq).1]
  rfl

theorem endsPlain_spaces (k : Nat) (rest : List Char) : ∀ c tail,
    spaces (k + 1) ++ rest = c :: tail → endsPlain false c tail = true := by
  intro c tail heq
  rw [spaces_succ, List.cons_append] at heq
  rw [← (List.cons.inj heq).1]
  rfl

/-- A word is taken, and what stands behind its gap if the gap does not end the scalar. -/
theorem readPlain_word (hw : Word w) (hhash : w.head? ≠ some '#')
    (hrest : ∀ c tail, rest = c :: tail → endsPlain false c tail = true) {joint : List Char}
    {next : Cursor}
    (hgap : takeGap ⟨rest, column + w.length, line, false⟩ = (joint, next)) :
    readPlain false least (steps + 1) ⟨w ++ rest, column, line, fresh⟩ =
      if joint.isEmpty || next.atDocumentMark || next.column < least then (w, next)
      else
        (if (readPlain false least steps next).1.isEmpty then w
          else w ++ joint ++ (readPlain false least steps next).1,
          (readPlain false least steps next).2) := by
  have hhead : (w ++ rest).head? ≠ some '#' := by
    rw [List.head?_append]
    cases w with
    | nil => exact absurd rfl hw.filled
    | cons c w => exact hhash
  rw [readPlain, if_neg hhead]
  simp only [takeWord_append hw hrest, List.isEmpty_iff, hw.filled, if_false, Cursor.forward,
    List.drop_left, hgap, Bool.not_false, Bool.true_and]

theorem Bare.head_word (h : Bare cs) {gap : List Char} (hcs : cs = w ++ gap) (hw : w ≠ []) :
    w.head? ≠ some '#' := by
  have hhash := h.first.2
  rw [hcs] at hhash
  cases w with
  | nil => exact absurd rfl hw
  | cons c w => exact hhash

/-- The character behind a gap. -/
theorem Bare.head_fold (h : Bare cs) (afterSpace : Bool) (column : Nat) (tail : List Char) :
    ∀ c ∈ (foldPlain folds indent afterSpace column cs ++ tail).head?,
      c ≠ ' ' ∧ isBreak c = false := by
  intro c hc
  have hhead := @head?_foldPlain _ folds indent h.first.1 afterSpace column
  cases hcs : cs with
  | nil => exact absurd hcs h.filled
  | cons d rest =>
    rw [hcs] at hhead hc
    rw [List.head?_append, hhead] at hc
    obtain rfl : d = c := by simpa using hc
    have hprinted := h.printed d (by simp [hcs])
    exact ⟨fun heq => h.first.1 (by rw [hcs, heq]; rfl), hprinted.not_break.1⟩

theorem Onset.head (h : Onset more) : ∀ c ∈ more.head?, c ≠ ' ' ∧ isBreak c = false := by
  intro c hc
  obtain ⟨d, rest, rfl, hspace, -, hbreak⟩ := h.solid (by rintro rfl; simp at hc)
  obtain rfl : d = c := by simpa using hc
  exact ⟨hspace, hbreak⟩

/-- A word, the gap behind it and what is read behind that are put together. -/
theorem readPlain_next (hw : Word w) (hhash : w.head? ≠ some '#')
    (hends : ∀ c tail, rest = c :: tail → endsPlain false c tail = true) {k : Nat}
    {next : Cursor}
    (hgap : takeGap ⟨rest, column + w.length, line, false⟩ = (spaces (k + 1), next))
    (hpos : next.column ≠ 0) (hleast : least ≤ next.column) {last : Cursor}
    (hread : readPlain false least steps next = (cs, last)) (hcs : cs ≠ []) :
    readPlain false least (steps + 1) ⟨w ++ rest, column, line, fresh⟩ =
      (w ++ (spaces (k + 1) ++ cs), last) := by
  have hmark : next.atDocumentMark = false := Cursor.atDocumentMark_of_column hpos
  rw [readPlain_word hw hhash hends hgap, hmark, hread, if_neg (by simp [spaces_succ]; omega)]
  simp [List.isEmpty_iff, hcs]

/-- A text is read back in front of the next line, however it is folded. -/
def ReturnsPlain (folds : Bool) (indent least j steps : Nat) (more cs : List Char) : Prop :=
  ∀ afterSpace written column line fresh, least ≤ column → ∃ line',
    readPlain false least steps
        ⟨foldPlain folds indent afterSpace written cs ++ (newLine j ++ more), column, line,
          fresh⟩ = (cs, ⟨more, j, line', true⟩)

theorem returnsPlain_word (hw : Word w) (hhash : w.head? ≠ some '#') (hj : j < least)
    (hmore : Onset more) : ReturnsPlain folds indent least j (steps + 1) more w := by
  intro afterSpace written column line fresh _
  have hfold := @foldPlain_word w [] folds indent (fun c hc => (hw.printed c hc).2) hw.filled
    afterSpace written
  rw [List.append_nil, foldPlain, List.append_nil] at hfold
  rw [hfold, readPlain_word hw hhash (endsPlain_newLine j more) (takeGap_newLine j hmore.head),
    if_pos (by simp [hj])]
  exact ⟨line + 1, rfl⟩

/-- Behind a gap the scalar goes on far enough in, on this line or the next. -/
theorem ReturnsPlain.behind (h : ReturnsPlain folds indent least j steps more rest)
    (hrest : Bare rest) (hw : Word w) (hhash : w.head? ≠ some '#') (hindent : least ≤ indent)
    (hpos : 0 < least) (k : Nat) :
    ReturnsPlain folds indent least j (steps + 1) more (w ++ (spaces (k + 1) ++ rest)) := by
  intro afterSpace written column line fresh hcolumn
  rw [foldPlain_word (fun c hc => (hw.printed c hc).2) hw.filled, List.append_assoc]
  obtain hgap | ⟨hgap, rfl⟩ := @foldPlain_gap rest folds indent k (written + w.length)
  · obtain ⟨line', hread⟩ := h true (written + w.length + (k + 1))
      (column + w.length + (k + 1)) line false (by omega)
    rw [hgap, List.append_assoc]
    exact ⟨line', readPlain_next hw hhash (endsPlain_spaces k _)
      (takeGap_spaces (k + 1) (hrest.head_fold _ _ _)) (by dsimp only; omega)
      (by dsimp only; omega) hread hrest.filled⟩
  · obtain ⟨line', hread⟩ := h false indent indent (line + 1) true hindent
    rw [hgap, List.append_assoc]
    exact ⟨line', readPlain_next hw hhash (endsPlain_newLine indent _)
      (takeGap_newLine indent (hrest.head_fold _ _ _)) (by dsimp only; omega) hindent hread
      hrest.filled⟩

/-- However a plain text is folded, it is read back; the next line stands less far in. -/
theorem returnsPlain_bare (h : Bare cs) (hindent : least ≤ indent) (hj : j < least)
    (hmore : Onset more) (hsteps : cs.length < steps) :
    ReturnsPlain folds indent least j steps more cs := by
  induction hn : cs.length using Nat.strongRecOn generalizing cs steps with
  | ind n ih =>
  subst hn
  obtain ⟨steps, rfl⟩ : ∃ n, steps = n + 1 := Nat.exists_eq_add_one_of_ne_zero (by omega)
  obtain ⟨w, hw, rfl | ⟨k, rest, rfl, hrest⟩⟩ := h.exists_word
  · exact returnsPlain_word hw h.first.2 hj hmore
  · have hlength : rest.length < (w ++ (spaces (k + 1) ++ rest)).length := by
      simp only [List.length_append, length_spaces]
      omega
    have hreturns := ih rest.length hlength hrest (by omega : rest.length < steps) rfl
    exact hreturns.behind hrest hw (h.head_word rfl hw.filled) hindent (by omega) k

/-- In front of a colon with a blank behind it a word ends the scalar. -/
theorem readPlain_colon (hw : Word w) (hhash : w.head? ≠ some '#') (hrest : endsWord rest = true)
    (hsteps : 0 < steps) :
    readPlain false least steps ⟨w ++ ':' :: rest, column, line, fresh⟩ =
      (w, ⟨':' :: rest, column + w.length, line, false⟩) := by
  obtain ⟨steps, rfl⟩ : ∃ n, steps = n + 1 := Nat.exists_eq_add_one_of_ne_zero (by omega)
  have hends : ∀ c tail, ':' :: rest = c :: tail → endsPlain false c tail = true := by
    intro c tail heq
    obtain ⟨rfl, rfl⟩ := List.cons.inj heq
    simp [endsPlain, hrest]
  have hgap : takeGap ⟨':' :: rest, column + w.length, line, false⟩ =
      ([], ⟨':' :: rest, column + w.length, line, false⟩) :=
    @takeGap_spaces (':' :: rest) (column + w.length) line false 0
      fun c hc => by obtain rfl : ':' = c := by simpa using hc
                     decide
  rw [readPlain_word hw hhash hends hgap, List.isEmpty_nil, Bool.true_or, Bool.true_or, if_pos rfl]

end Reading

end ModelData.Yaml
