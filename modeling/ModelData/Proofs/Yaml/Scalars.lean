import ModelData.Yaml.Block
import ModelData.Proofs.Yaml.Characters
import ModelData.Proofs.Yaml.Numbers

/-!
Scalars in their lines. What is written for a truth value, a number or a text is read as one
scalar when the next line stands less far in, and is read only up to that line. Of the texts
those in double quotes may be misread, once their indentation alone fills a line.
-/

namespace ModelData.Yaml

/-- The text that is read for one that is written with its lines at an indentation. -/
def misread (indent : Nat) (cs : List Char) : List Char :=
  match styleFor false cs with
  | .double => spoil indent true cs
  | _ => cs

/-- The text goes on with something other than a gap. -/
def Continues (rest : List Char) : Prop :=
  ∃ d tail, rest = d :: tail ∧ startsGap d = false

/-- A text that starts a node which has no marks in front of it and is no collection. -/
structure StartsScalar (text : List Char) : Prop where
  starts : ∃ c rest, text = c :: rest ∧ startsGap c = false ∧ c ∉ ['#', '!', '&'] ∧
    (c = '-' ∨ c = '?' → Continues rest)

/-- A text that starts a plain scalar. -/
structure StartsPlain (text : List Char) : Prop where
  starts : ∃ c rest, text = c :: rest ∧ startsGap c = false ∧ c ∉ indicators ∧
    (c = '-' ∨ c = '?' ∨ c = ':' → Continues rest)

/-- A scalar is read from a text in front of any line that stands less far in. -/
structure ReadsScalar (least : Nat) (text : List Char) (node : Node) : Prop where
  starts : StartsScalar text
  ordinary : ∀ c ∈ text, isOrdinary c = true
  reads : ∀ ⦃j more column line fresh steps⦄, j < least → least ≤ column → Onset more →
    text.length < steps → ∃ after line',
      readContent steps false least ⟨text ++ (newLine j ++ more), column, line, fresh⟩ =
        .ok (node, after) ∧
      after.skip = ⟨more, j, line', true⟩ ∧ after.skipSpaces.atColon = false

variable {text rest more cs : List Char} {column line steps least indent : Nat} {fresh : Bool}

section Starts

theorem Continues.append (h : Continues rest) (tail : List Char) : Continues (rest ++ tail) := by
  obtain ⟨d, rest, rfl, hd⟩ := h
  exact ⟨d, rest ++ tail, rfl, hd⟩

theorem Continues.endsWord (h : Continues rest) : endsWord rest = false := by
  obtain ⟨d, rest, rfl, hd⟩ := h
  exact hd

theorem StartsPlain.scalar (h : StartsPlain text) : StartsScalar text := by
  obtain ⟨c, rest, rfl, hgap, hmarks, hrest⟩ := h
  refine ⟨c, rest, rfl, hgap, fun hmem => hmarks ?_, fun hc => hrest (hc.imp_right .inl)⟩
  have hall : ∀ d ∈ ['#', '!', '&'], d ∈ indicators := forall_mem_of_all (by decide)
  exact hall c hmem

theorem StartsPlain.append (h : StartsPlain text) (tail : List Char) :
    StartsPlain (text ++ tail) := by
  obtain ⟨c, rest, rfl, hgap, hmarks, hrest⟩ := h
  exact ⟨c, rest ++ tail, rfl, hgap, hmarks, fun hc => (hrest hc).append tail⟩

theorem StartsScalar.append (h : StartsScalar text) (tail : List Char) :
    StartsScalar (text ++ tail) := by
  obtain ⟨c, rest, rfl, hgap, hmarks, hrest⟩ := h
  exact ⟨c, rest ++ tail, rfl, hgap, hmarks, fun hc => (hrest hc).append tail⟩

theorem StartsScalar.solid (h : StartsScalar text) : Solid text := by
  obtain ⟨c, rest, rfl, hgap, hmarks, -⟩ := h
  simp only [startsGap, Bool.or_eq_false_iff, decide_eq_false_iff_not] at hgap
  simp only [List.mem_cons, List.not_mem_nil, or_false, not_or] at hmarks
  exact ⟨c, rest, rfl, hgap.1.1, hmarks.1, hgap.2⟩

theorem StartsScalar.no_mark (h : StartsScalar text) {mark : Char}
    (hmark : mark = '-' ∨ mark = '?') :
    (⟨text, column, line, fresh⟩ : Cursor).hasMark [mark] = false := by
  obtain ⟨c, rest, rfl, -, -, hrest⟩ := h
  by_cases hc : c = mark
  · have hends := (hrest (hc ▸ hmark)).endsWord
    simp [Cursor.hasMark, hends]
  · simp [Cursor.hasMark, Ne.symm hc]

theorem StartsScalar.readMarks (h : StartsScalar text) :
    readMarks ⟨text, column, line, fresh⟩ = .ok ({}, ⟨text, column, line, fresh⟩) := by
  obtain ⟨c, rest, rfl, -, hmarks, -⟩ := h
  simp only [List.mem_cons, List.not_mem_nil, or_false, not_or] at hmarks
  have htag : readTag ⟨c :: rest, column, line, fresh⟩ =
      .ok (none, ⟨c :: rest, column, line, fresh⟩) := by
    simp [readTag, hmarks]
  have hanchor : readAnchor ⟨c :: rest, column, line, fresh⟩ =
      .ok (none, ⟨c :: rest, column, line, fresh⟩) := by
    simp [readAnchor, hmarks]
  simp only [Yaml.readMarks, htag, hanchor, ok_bind]
  rfl

/-- A node that turns out to be no key is what its content is. -/
theorem readNode_scalar (h : StartsScalar text) {dashesBefore : Bool} {node : Node} {after : Cursor}
    (hcontent : readContent steps false least ⟨text, column, line, fresh⟩ = .ok (node, after))
    (hcolon : after.skipSpaces.atColon = false) :
    readNode (steps + 1) least dashesBefore ⟨text, column, line, fresh⟩ = .ok (node, after) := by
  have hdash : (⟨text, column, line, fresh⟩ : Cursor).atDash = false := h.no_mark (.inl rfl)
  have hquestion : (⟨text, column, line, fresh⟩ : Cursor).atQuestion = false := h.no_mark (.inr rfl)
  have hempty : ({} : Marks).isEmpty = true := rfl
  simp only [readNode, hdash, hquestion, h.readMarks, ok_bind, hempty, Bool.not_true,
    Bool.false_and, Bool.false_eq_true, if_false, hcontent, Node.mark, if_true, hcolon]
  rfl

end Starts

section Plain

variable {folds : Bool} {j : Nat}

theorem readContent_plain (h : StartsPlain text) :
    readContent steps false least ⟨text, column, line, fresh⟩ =
      .ok (.scalar {} true (readPlain false least steps ⟨text, column, line, fresh⟩).1,
        (readPlain false least steps ⟨text, column, line, fresh⟩).2) := by
  obtain ⟨c, rest, rfl, hgap, hmarks, hrest⟩ := h
  have hne (d : Char) (hd : d ∈ indicators) : c ≠ d := fun heq => hmarks (heq ▸ hd)
  have hlist := hne '[' (by decide)
  have htable := hne '\x7b' (by decide)
  have halias := hne '*' (by decide)
  have hlines := hne '|' (by decide)
  have hfolded := hne '>' (by decide)
  have hsingle := hne '\'' (by decide)
  have hdouble := hne '"' (by decide)
  have hstarts : startsPlain false (c :: rest) = true := by
    by_cases hc : c = '-' ∨ c = '?' ∨ c = ':'
    · have hends := (hrest hc).endsWord
      rcases hc with rfl | rfl | rfl <;> simp [startsPlain, hends]
    · have hword : endsWord [c] = false := hgap
      have hnone : "-?:,[]\x7b\x7d#&*!|>'\"%@`".toList.contains c = false := by
        rw [List.contains_eq_mem, decide_eq_false_iff_not]
        intro hmem
        have hsplit : ∀ d ∈ "-?:,[]\x7b\x7d#&*!|>'\"%@`".toList,
            (d = '-' ∨ d = '?' ∨ d = ':') ∨ d ∈ indicators := forall_mem_of_all (by decide)
        exact (hsplit c hmem).elim hc hmarks
      simp only [startsPlain, hword, hnone, Bool.or_self, Bool.not_false, Bool.true_or]
  simp [readContent, readScalar, hlist, htable, halias, hlines, hfolded, hsingle, hdouble, hstarts]

/-- A plain text starts as it is written, with no mark of something else. -/
theorem startsPlain_foldPlain (h : Bare cs) (hstart : startsWithMark cs = false)
    (column : Nat) : StartsPlain (foldPlain folds indent false column cs) := by
  cases hcs : cs with
  | nil => exact absurd hcs h.filled
  | cons c rest =>
    subst hcs
    have hspace : c ≠ ' ' := fun heq => h.first.1 (by rw [heq]; rfl)
    obtain ⟨hbreak, htab⟩ := (h.printed c List.mem_cons_self).not_break
    simp only [startsWithMark, Bool.or_eq_false_iff, Bool.and_eq_false_iff, List.contains_eq_mem,
      decide_eq_false_iff_not] at hstart
    rw [foldPlain_cons, if_neg (by simp [hspace]), decide_eq_false hspace]
    refine ⟨c, _, rfl, by simp [startsGap, hspace, htab, hbreak], hstart.2.1, fun hc => ?_⟩
    have hblank : startsBlank rest = false := by
      rcases hstart.2.2 with hnone | hblank
      · rcases hc with hc | hc | hc
        · exact absurd hc hnone.2
        · exact absurd hc hnone.1.1
        · exact absurd hc hnone.1.2
      · exact hblank
    cases rest with
    | nil => cases hblank
    | cons d rest =>
      simp only [startsBlank, isSpaceOrBreak, Bool.or_eq_false_iff, decide_eq_false_iff_not]
        at hblank
      obtain ⟨hbreak', htab'⟩ := (h.printed d (by simp)).not_break
      rw [foldPlain_cons, if_neg (by simp [hblank.1])]
      exact ⟨d, _, rfl, by simp [startsGap, hblank.1, htab', hbreak']⟩

theorem length_le_foldPlain (afterSpace : Bool) (column : Nat) :
    cs.length ≤ (foldPlain folds indent afterSpace column cs).length := by
  induction cs generalizing afterSpace column with
  | nil => exact Nat.zero_le _
  | cons c cs ih =>
    rw [foldPlain_cons]
    split
    · have hle := ih false indent
      simp only [List.length_append, length_newLine, List.length_cons]
      omega
    · exact Nat.succ_le_succ (ih _ _)

theorem readsScalar_plain (h : Bare cs) (hstart : startsWithMark cs = false)
    (hindent : least ≤ indent) (written : Nat) :
    ReadsScalar least (foldPlain folds indent false written cs) (.scalar {} true cs) := by
  have hstarts := @startsPlain_foldPlain _ indent folds h hstart written
  refine ⟨hstarts.scalar, isOrdinary_foldPlain (fun c hc => (h.printed c hc).1) _ _,
    fun j more column line fresh steps hj hcolumn hmore hsteps => ?_⟩
  have hlength := @length_le_foldPlain cs indent folds false written
  obtain ⟨line', hread⟩ := @returnsPlain_bare cs more folds indent least j steps h hindent hj
    hmore (by omega) false written column line fresh hcolumn
  rw [readContent_plain (hstarts.append _), hread]
  refine ⟨_, line', rfl, Cursor.skip_of_onset hmore, ?_⟩
  rw [Cursor.skipSpaces_of_onset hmore, Cursor.atColon_of_onset hmore]

end Plain

section Quoted

variable {folds : Bool}

theorem length_le_foldSingle (before : Before) (column : Nat) :
    cs.length ≤ (foldSingle folds indent before column cs).length := by
  induction cs generalizing before column with
  | nil => exact Nat.zero_le _
  | cons c cs ih =>
    rw [foldSingle_cons]
    split
    · have hle := ih .lineBreak indent
      split <;> simp only [List.length_append, List.length_cons] <;> omega
    split
    · have hle := ih .other (column + 2)
      simp only [List.length_cons]
      omega
    split
    · split
      · have hle := ih .other indent
        simp only [List.length_append, length_newLine, List.length_cons]
        omega
      · exact Nat.succ_le_succ (ih _ _)
    · exact Nat.succ_le_succ (ih _ _)

/-- What follows a closing quote is the next line. -/
theorem skip_behind_quote {j : Nat} (hmore : Onset more) :
    (⟨newLine j ++ more, column, line, fresh⟩ : Cursor).skip = ⟨more, j, line + 1, true⟩ ∧
      (⟨newLine j ++ more, column, line, fresh⟩ : Cursor).skipSpaces.atColon = false := by
  refine ⟨?_, rfl⟩
  rw [Cursor.skip_newLine, Cursor.skip_of_onset hmore]

theorem startsScalar_quote {quote : Char} (h : quote = '\'' ∨ quote = '"') (rest : List Char) :
    StartsScalar (quote :: rest) := by
  have hmarks : ∀ c ∈ ['\'', '"'], startsGap c = false ∧ c ∉ ['#', '!', '&'] ∧
      ¬ (c = '-' ∨ c = '?') := forall_mem_of_all (by decide)
  obtain ⟨hgap, hmarks, hdash⟩ := hmarks quote (by simpa using h)
  exact ⟨quote, rest, rfl, hgap, hmarks, fun hc => absurd hc hdash⟩

theorem readsScalar_single (hcs : Quotable cs) (hindent : indent ≠ 0) (written : Nat) :
    ReadsScalar least ('\'' :: foldSingle folds indent .start written cs ++ ['\''])
      (.scalar {} false cs) := by
  refine ⟨startsScalar_quote (.inl rfl) _, ?_, fun j more column line fresh steps _ _ hmore
    hsteps => ?_⟩
  · exact List.forall_mem_append.2
      ⟨List.forall_mem_cons.2 ⟨rfl, isOrdinary_foldSingle hcs.ordinary _ _⟩,
        forall_mem_of_all (by decide)⟩
  have hlength := @length_le_foldSingle cs indent folds .start written
  simp only [List.length_append, List.length_cons, List.length_nil] at hsteps
  have hquote : (newLine j ++ more).head? ≠ some '\'' := by simp [newLine_append]
  obtain ⟨column', line', hread⟩ := @returns_quotable cs _ folds indent steps hcs
    hindent hquote (by omega) .start (by simp) written (column + 1) line false
  obtain ⟨hskip, hcolon⟩ := @skip_behind_quote more column' line' false j hmore
  refine ⟨_, _, ?_, hskip, hcolon⟩
  rw [List.cons_append, List.cons_append, List.append_assoc, List.singleton_append]
  simp only [readContent, readScalar, Cursor.forward, List.drop_succ_cons, List.drop_zero, hread]
  rfl

theorem readsScalar_double (hindent : indent ≠ 0) {written : Nat} (hwritten : indent ≤ written) :
    ReadsScalar least ('"' :: foldDouble true indent true false written cs ++ ['"'])
      (.scalar {} false (spoil indent true cs)) := by
  refine ⟨startsScalar_quote (.inr rfl) _, ?_, fun j more column line fresh steps _ _ hmore
    hsteps => ?_⟩
  · exact List.forall_mem_append.2
      ⟨List.forall_mem_cons.2 ⟨rfl, isOrdinary_foldDouble cs _ _ _⟩,
        forall_mem_of_all (by decide)⟩
  simp only [List.length_append, List.length_cons, List.length_nil] at hsteps
  have hunquotes : Unquotes (foldDouble true indent true false written cs)
      (spoil indent true cs) := unquotes_foldDouble hindent cs false hwritten
  obtain ⟨column', line', hread⟩ :=
    @hunquotes.reads (newLine j ++ more) (column + 1) line false steps (by omega)
  obtain ⟨hskip, hcolon⟩ := @skip_behind_quote more column' line' false j hmore
  refine ⟨_, _, ?_, hskip, hcolon⟩
  rw [List.cons_append, List.cons_append, List.append_assoc, List.singleton_append]
  simp only [readContent, readScalar, Cursor.forward, List.drop_succ_cons, List.drop_zero, hread]
  rfl

end Quoted

section Texts

theorem startsWithMark_hash (tail : List Char) : startsWithMark ('#' :: tail) = true := by
  have hmark : indicators.contains '#' = true := by decide
  simp only [startsWithMark, hmark, Bool.true_or, Bool.or_true]

theorem bare_of_allowsPlain (h : allowsPlain cs = true) :
    Bare cs ∧ startsWithMark cs = false ∧ plainKind cs = .text := by
  simp only [allowsPlain, Bool.and_eq_true, decide_eq_true_eq, Bool.not_eq_true',
    List.all_eq_true, List.contains_eq_mem, decide_eq_false_iff_not] at h
  obtain ⟨⟨⟨⟨⟨⟨hkind, hordinary⟩, hline⟩, hfirst⟩, hlast⟩, hstart⟩, hinner⟩ := h
  have hfilled : cs ≠ [] := by
    rintro rfl
    cases hkind
  have hhash : cs.head? ≠ some '#' := by
    intro heq
    obtain ⟨tail, htail⟩ := List.head?_eq_some_iff.1 heq
    rw [htail, startsWithMark_hash] at hstart
    exact Bool.false_ne_true hstart.symm
  exact ⟨⟨hfilled, fun c hc => ⟨hordinary c hc, fun heq => hline (heq ▸ hc)⟩, ⟨hfirst, hhash⟩,
    hlast, hinner⟩, hstart, hkind⟩

/-- A text is read as a scalar that stands for a text, in whatever style it is written. -/
theorem exists_readsScalar_text (cs : List Char) (hleast : least ≤ indent) (hindent : indent ≠ 0)
    (hcolumn : indent ≤ column) : ∃ isPlain,
      ReadsScalar least (writeText false indent column cs)
        (.scalar {} isPlain (misread indent cs)) ∧
      (isPlain = true → plainKind (misread indent cs) = .text) := by
  unfold writeText misread
  by_cases hplain : allowsPlain cs = true
  · have hstyle : styleFor false cs = .plain := by rw [styleFor, if_pos hplain]
    obtain ⟨hbare, hstart, hkind⟩ := bare_of_allowsPlain hplain
    rw [hstyle]
    exact ⟨true, readsScalar_plain hbare hstart hleast column, fun _ => hkind⟩
  by_cases hsingle : allowsSingle cs = true
  · have hstyle : styleFor false cs = .single := by
      rw [styleFor, if_neg hplain, hsingle]
      rfl
    rw [hstyle]
    simp only [allowsSingle, Bool.and_eq_true, List.all_eq_true, Bool.not_eq_true'] at hsingle
    exact ⟨false, readsScalar_single ⟨hsingle.1, hsingle.2⟩ hindent (column + 1), by simp⟩
  · have hstyle : styleFor false cs = .double := by
      rw [styleFor, if_neg hplain, Bool.eq_false_iff.2 hsingle]
      rfl
    rw [hstyle]
    exact ⟨false, readsScalar_double hindent (by omega), by simp⟩

end Texts

section Atoms

variable {c : Char}

/-- Letters, digits and marks of which a word may consist. -/
def isCompact (c : Char) : Bool :=
  c.isDigit || c.isLower || ['_', '-', '+', '.'].contains c

theorem isOrdinary_of_compact (h : isCompact c = true) : isOrdinary c = true := by
  delta isCompact Char.isLower at h
  simp only [Bool.or_eq_true, Char.isDigit, Bool.and_eq_true, decide_eq_true_eq,
    UInt32.le_iff_toNat_le] at h
  have hbounds : 0x20 ≤ c.toNat ∧ c.toNat ≤ 0x7e := by
    rcases h with (⟨hlow, hhigh⟩ | ⟨hlow, hhigh⟩) | hmark
    · exact ⟨Nat.le_trans (by decide) hlow, Nat.le_trans hhigh (by decide)⟩
    · exact ⟨Nat.le_trans (by decide) hlow, Nat.le_trans hhigh (by decide)⟩
    · have hall : ∀ d ∈ ['_', '-', '+', '.'], 0x20 ≤ d.toNat ∧ d.toNat ≤ 0x7e :=
        forall_mem_of_all (by decide)
      exact hall c (by simpa using hmark)
  have hrange : ' ' ≤ c ∧ c ≤ '~' := hbounds
  simp [isOrdinary, hrange]

theorem not_isCompact_of_mem (h : isCompact c = true) : c ∉ [' ', '\n', '#', ':'] :=
  not_mem_of_all h (by decide)

theorem hasInnerMark_of_compact (h : ∀ c ∈ cs, isCompact c = true) : hasInnerMark cs = false := by
  induction cs with
  | nil => rfl
  | cons c cs ih =>
    have hc := not_isCompact_of_mem (h c List.mem_cons_self)
    simp only [List.mem_cons, List.not_mem_nil, or_false, not_or] at hc
    cases cs with
    | nil => simp [hasInnerMark, hc]
    | cons d cs =>
      have hrest := ih fun e he => h e (List.mem_cons_of_mem c he)
      simp [hasInnerMark_cons_cons, hc, hrest, isSpaceOrBreak]

theorem word_of_compact (hfilled : cs ≠ []) (h : ∀ c ∈ cs, isCompact c = true) :
    Word cs ∧ cs.head? ≠ some '#' := by
  have hnone (c : Char) (hc : c ∈ cs) := not_isCompact_of_mem (h c hc)
  simp only [List.mem_cons, List.not_mem_nil, or_false, not_or] at hnone
  refine ⟨⟨hfilled, fun c hc => ⟨⟨isOrdinary_of_compact (h c hc), (hnone c hc).2.1⟩,
    (hnone c hc).1⟩, fun hlast => ?_⟩, fun hhead => ?_⟩
  · exact (hnone ':' (List.mem_of_getLast? hlast)).2.2.2 rfl
  · exact (hnone '#' (List.mem_of_head? hhead)).2.2.1 rfl

theorem bare_of_compact (hfilled : cs ≠ []) (h : ∀ c ∈ cs, isCompact c = true) : Bare cs := by
  obtain ⟨hword, hhash⟩ := word_of_compact hfilled h
  refine ⟨hfilled, fun c hc => (hword.printed c hc).1, ⟨fun hhead => ?_, hhash⟩, fun hlast => ?_,
    hasInnerMark_of_compact h⟩
  · exact (hword.printed ' ' (List.mem_of_head? hhead)).2 rfl
  · exact (hword.printed ' ' (List.mem_of_getLast? hlast)).2 rfl

theorem readsScalar_compact (hfilled : cs ≠ []) (h : ∀ c ∈ cs, isCompact c = true)
    (hstart : startsWithMark cs = false) : ReadsScalar least cs (.scalar {} true cs) := by
  have hplain := @readsScalar_plain cs least least false (bare_of_compact hfilled h) hstart
    (Nat.le_refl least) 0
  rwa [foldPlain_false] at hplain

theorem readsScalar_flag (b : Bool) :
    ReadsScalar least (flagText b) (.scalar {} true (flagText b)) := by
  cases b with
  | true => exact readsScalar_compact (by decide) (forall_mem_of_all (by decide)) (by decide)
  | false => exact readsScalar_compact (by decide) (forall_mem_of_all (by decide)) (by decide)

theorem startsWithMark_signed (h : Unsigned cs) (negative : Bool) :
    startsWithMark (Binary64.signed negative cs) = false := by
  obtain ⟨c, tail, rfl, hc⟩ := h.exists_cons
  have hmarks : c ∉ ['?', ' ', '\n', '-', ':', '.'] := not_mem_of_all hc (by decide)
  have hindicators : c ∉ indicators := not_mem_of_all hc (by decide)
  simp only [List.mem_cons, List.not_mem_nil, or_false, not_or] at hmarks
  obtain ⟨hquestion, hspace, hbreak, hdash, hcolon, hpoint⟩ := hmarks
  cases negative with
  | true =>
    have hminus : '-' ∉ indicators := by decide
    simp [Binary64.signed, startsWithMark, List.isPrefixOf, hminus, Ne.symm hdash, startsBlank,
      isSpaceOrBreak, hspace, hbreak]
  | false =>
    simp [Binary64.signed, startsWithMark, List.isPrefixOf, hindicators, hdash, Ne.symm hdash,
      Ne.symm hpoint, hquestion, hcolon]

theorem readsScalar_signed (h : Unsigned cs) (hcs : ∀ c ∈ cs, isCompact c = true)
    (negative : Bool) : ReadsScalar least (Binary64.signed negative cs)
      (.scalar {} true (Binary64.signed negative cs)) := by
  refine readsScalar_compact ?_ (fun c hc => ?_) (startsWithMark_signed h negative)
  · obtain ⟨c, tail, htext, -⟩ := Binary64.head_signed h.filled h.head negative
    simp [htext]
  · rcases Binary64.mem_signed hc with rfl | hc
    · rfl
    · exact hcs c hc

theorem readsScalar_int (i : Int) :
    ReadsScalar least (Digits.ofInt i) (.scalar {} true (Digits.ofInt i)) := by
  rw [Binary64.ofInt_eq_signed]
  refine readsScalar_signed (unsigned_ofNat _) (fun c hc => ?_) _
  simp [isCompact, Digits.isDigit_of_mem_ofNat hc]

theorem readsScalar_float (x : Binary64.Finite) :
    ReadsScalar least (x.spell floatStyle) (.scalar {} true (x.spell floatStyle)) := by
  obtain ⟨l, -, htext, -⟩ := exists_literal_float x
  rw [htext]
  refine readsScalar_signed (Literal.unsigned l) (fun c hc => ?_) _
  rcases l.mem_text hc with hmark | hdigit
  · have hall : ∀ d ∈ ['.', 'e', '+', '-'], isCompact d = true := forall_mem_of_all (by decide)
    exact hall c hmark
  · simp [isCompact, hdigit]

/-- A key is read up to its colon. -/
theorem readContent_key {s : List Char} (hfilled : s ≠ []) (h : ∀ c ∈ s, isCompact c = true)
    (hstart : startsWithMark s = false) (hrest : endsWord rest = true) (hsteps : 0 < steps) :
    readContent steps false least ⟨s ++ ':' :: rest, column, line, fresh⟩ =
      .ok (.scalar {} true s, ⟨':' :: rest, column + s.length, line, false⟩) := by
  obtain ⟨hword, hhash⟩ := word_of_compact hfilled h
  have hstarts : StartsPlain s := by
    have hplain := @startsPlain_foldPlain s 0 false (bare_of_compact hfilled h) hstart 0
    rwa [foldPlain_false] at hplain
  rw [readContent_plain (hstarts.append _), readPlain_colon hword hhash hrest hsteps]

end Atoms

end ModelData.Yaml
