import ModelData.Proofs.Yaml.Nodes

/-!
Rows of lists and tables. The rows of a collection stand in one column, each on a line of its
own, and what belongs to a row stands further in, except for the dashes of a list under a key.
What follows a row is either the next one or the line behind the collection, and a reader goes
on to it from the end of whatever the row holds.
-/

namespace ModelData.Yaml

/-- The line behind a node in a column ends the node: the text ends there, or the line stands
less far in than the node has to; it may go on in the column of dashes, but with a key. -/
def Ends (column least j : Nat) (more : List Char) : Prop :=
  (more = [] ∧ j = 0) ∨ (j < least ∧ (j = column → ∀ tail, more ≠ '-' :: ' ' :: tail))

/-- A text is read as a node in a column that has to stand at the least one or beyond. -/
structure ReadsNode (column least : Nat) (text : List Char) (node : Node) : Prop where
  solid : Solid text
  ordinary : ∀ c ∈ text, isOrdinary c = true
  reads : ∀ ⦃j more line steps dashesBefore⦄, Onset more → Ends column least j more →
    4 * (text ++ (newLine j ++ more)).length + 4 ≤ steps → ∃ after line',
      readNode steps least dashesBefore ⟨text ++ (newLine j ++ more), column, line, true⟩ =
        .ok (node, after) ∧ after.skip = ⟨more, j, line', true⟩

/-- A text is read as what stands behind the colon of a key in a column. -/
structure ReadsBehind (column : Nat) (text : List Char) (node : Node) : Prop where
  blank : endsWord text = true
  ordinary : ∀ c ∈ text, isOrdinary c = true
  reads : ∀ ⦃j more place line steps⦄, Onset more → Ends column (column + 1) j more →
    column ≤ place → 4 * (text ++ (newLine j ++ more)).length + 2 ≤ steps → ∃ after line',
      readBehind steps column ⟨text ++ (newLine j ++ more), place, line, false⟩ =
        .ok (node, after) ∧ after.skip = ⟨more, j, line', true⟩

/-- A row of a list. -/
def ReadsItem (column : Nat) (row : List Char) (node : Node) : Prop :=
  ∃ text, row = '-' :: ' ' :: text ∧ ReadsNode (column + 2) (column + 1) text node

/-- A row of a table. -/
def ReadsEntry (column : Nat) (row : List Char) (nodes : Node × Node) : Prop :=
  ∃ s text, isKey s = true ∧ row = s.toList ++ ':' :: text ∧
    nodes.1 = .scalar {} true s.toList ∧ ReadsBehind column text nodes.2

section Rows

variable (column j : Nat) (more : List Char)

/-- What follows a row: further rows, and the line behind them. -/
def rows : List (List Char) → List Char
  | [] => newLine j ++ more
  | row :: rest => newLine column ++ (row ++ rows rest)

/-- The place where a reader goes on behind a row. -/
def nextPlace (line : Nat) : List (List Char) → Cursor
  | [] => ⟨more, j, line, true⟩
  | row :: rest => ⟨row ++ rows column j more rest, column, line, true⟩

theorem rows_eq (line : Nat) (rest : List (List Char)) :
    rows column j more rest =
      newLine (nextPlace column j more line rest).column ++
        (nextPlace column j more line rest).rest := by
  cases rest <;> rfl

theorem length_nextPlace_le (rest : List (List Char)) :
    (nextPlace column j more line rest).rest.length ≤ (rows column j more rest).length := by
  rw [rows_eq column j more line rest, List.length_append]
  exact Nat.le_add_left ..

theorem atColumn_append (row : List Char) (rest : List (List Char)) :
    atColumn column (row :: rest) ++ (newLine j ++ more) = row ++ rows column j more rest := by
  induction rest generalizing row with
  | nil =>
    rw [atColumn, List.intercalate_singleton]
    rfl
  | cons next rest ih =>
    have hrest := ih next
    rw [atColumn] at hrest ⊢
    rw [List.intercalate_cons_cons, List.append_assoc, List.append_assoc, hrest]
    rfl

theorem exists_atColumn (row : List Char) (rest : List (List Char)) :
    ∃ tail, atColumn column (row :: rest) = row ++ tail := by
  cases rest with
  | nil => exact ⟨[], by rw [atColumn, List.intercalate_singleton, List.append_nil]⟩
  | cons next rest =>
    exact ⟨_, by rw [atColumn, List.intercalate_cons_cons, List.append_assoc]⟩

theorem isOrdinary_atColumn {parts : List (List Char)}
    (h : ∀ row ∈ parts, ∀ c ∈ row, isOrdinary c = true) :
    ∀ c ∈ atColumn column parts, isOrdinary c = true := by
  induction parts with
  | nil => simp [atColumn]
  | cons row rest ih =>
    have hrow := h row List.mem_cons_self
    have hrest := ih fun part hpart => h part (List.mem_cons_of_mem row hpart)
    cases rest with
    | nil =>
      rw [atColumn, List.intercalate_singleton]
      exact hrow
    | cons next rest =>
      rw [atColumn] at hrest ⊢
      rw [List.intercalate_cons_cons]
      exact List.forall_mem_append.2 ⟨List.forall_mem_append.2 ⟨hrow, isOrdinary_newLine⟩, hrest⟩

end Rows

theorem canStart_of_solid {text : List Char} (h : Solid text) {column least line : Nat}
    {fresh : Bool} (hcolumn : column ≠ 0) (hleast : least ≤ column) (dashesBefore : Bool) :
    canStart least dashesBefore ⟨text, column, line, fresh⟩ = true := by
  simp [canStart, Cursor.atStop_of_solid h hcolumn, hleast]

section Lists

variable {column least j line : Nat} {more row : List Char} {rest : List (List Char)}
  {node : Node} {nodes : List Node}

theorem ReadsItem.onset (h : ReadsItem column row node) (tail : List Char) :
    Onset (row ++ tail) := by
  obtain ⟨text, rfl, -⟩ := h
  exact .dash _

theorem ReadsItem.solid (h : ReadsItem column row node) : Solid row := by
  obtain ⟨text, rfl, -⟩ := h
  exact ⟨'-', _, rfl, by decide, by decide, by decide⟩

theorem ReadsItem.ordinary (h : ReadsItem column row node) :
    ∀ c ∈ row, isOrdinary c = true := by
  obtain ⟨text, rfl, hread⟩ := h
  exact List.forall_mem_cons.2 ⟨rfl, List.forall_mem_cons.2 ⟨rfl, hread.ordinary⟩⟩

theorem onset_items (h : List.Forall₂ (ReadsItem column) rest nodes) (hmore : Onset more) :
    Onset (nextPlace column j more line rest).rest := by
  cases h with
  | nil => exact hmore
  | cons hrow _ => exact hrow.onset _

theorem ends_item (hleast : least ≤ column + 1) (hends : Ends column least j more)
    (rest : List (List Char)) : Ends (column + 2) (column + 1)
      (nextPlace column j more line rest).column (nextPlace column j more line rest).rest := by
  cases rest with
  | nil =>
    rcases hends with hend | ⟨hj, -⟩
    · exact .inl hend
    · refine .inr ⟨Nat.lt_of_lt_of_le hj hleast, fun heq => ?_⟩
      have heq : j = column + 2 := heq
      omega
  | cons row rest =>
    refine .inr ⟨Nat.lt_succ_self column, fun heq => ?_⟩
    have heq : column = column + 2 := heq
    omega

/-- The item of a row is read, and the place behind it is where the next row starts. -/
theorem ReadsItem.reads (h : ReadsItem column row node)
    (hnodes : List.Forall₂ (ReadsItem column) rest nodes) (hmore : Onset more)
    (hleast : least ≤ column + 1) (hends : Ends column least j more) {steps : Nat}
    (hsteps : 4 * (row ++ rows column j more rest).length + 2 ≤ steps) :
    ∃ next after line',
      ((⟨row ++ rows column j more rest, column, line, true⟩ : Cursor).pastMark 1).skip = next ∧
      canStart (column + 1) false next = true ∧
      readNode steps (column + 1) false next = .ok (node, after) ∧
      after.skip = nextPlace column j more line' rest := by
  obtain ⟨text, rfl, hread⟩ := h
  have hsolid := hread.solid.append (rows column j more rest)
  have hrows := rows_eq column j more line rest
  simp only [List.cons_append, List.length_cons] at hsteps
  obtain ⟨after, line', hnode, hafter⟩ := @hread.reads _ _ line steps false
    (@onset_items column j line more rest nodes hnodes hmore)
    (@ends_item column least j line more hleast hends rest) (by rw [← hrows]; omega)
  rw [← hrows] at hnode
  refine ⟨_, after, line', Cursor.skip_space.trans (Cursor.skip_of_solid hsolid),
    canStart_of_solid hsolid (Nat.succ_ne_zero _) (Nat.le_succ _) false, hnode, hafter.trans ?_⟩
  cases rest <;> rfl

/-- Where a list ends, its reader does not go on. -/
theorem readItems_end (hmore : Onset more) (hleast : least ≤ column + 1)
    (hends : Ends column least j more) (hrow : ReadsItem column row node) {steps : Nat}
    (hsteps : 4 * (row ++ rows column j more []).length + 3 ≤ steps) : ∃ after line',
      readItems steps column (decide (column < least))
        ⟨row ++ rows column j more [], column, line, true⟩ = .ok ([node], after) ∧
      after.skip = ⟨more, j, line', true⟩ := by
  obtain ⟨steps, rfl⟩ : ∃ n, steps = n + 1 := Nat.exists_eq_add_one_of_ne_zero (by omega)
  obtain ⟨next, after, line', hnext, hstart, hread, hafter⟩ :=
    @hrow.reads column least j line more row [] node [] .nil hmore hleast hends steps (by omega)
  refine ⟨⟨more, j, line', true⟩, line', ?_, Cursor.skip_of_onset hmore⟩
  rw [nextPlace] at hafter
  rw [readItems]
  simp only [hnext, hstart, if_true, hread, ok_bind, hafter, Cursor.atStop_of_onset hmore,
    List.isEmpty_iff, Bool.not_true, Bool.false_eq_true, if_false]
  by_cases hempty : more = []
  · rw [if_pos hempty]
    rfl
  obtain ⟨hj, hdash⟩ := hends.resolve_left fun hend => hempty hend.1
  rw [if_neg hempty]
  by_cases hless : j < column
  · rw [if_pos hless]
    rfl
  · obtain rfl : j = column := by omega
    rw [if_neg (Nat.lt_irrefl j), if_neg (Nat.lt_irrefl j),
      Cursor.atDash_of_onset hmore (hdash rfl), decide_eq_true hj]
    rfl

/-- All rows of a list are read. -/
theorem readItems_rows (hrow : ReadsItem column row node)
    (hnodes : List.Forall₂ (ReadsItem column) rest nodes) (hmore : Onset more)
    (hleast : least ≤ column + 1) (hends : Ends column least j more) {steps : Nat}
    (hsteps : 4 * (row ++ rows column j more rest).length + 3 ≤ steps) : ∃ after line',
      readItems steps column (decide (column < least))
        ⟨row ++ rows column j more rest, column, line, true⟩ = .ok (node :: nodes, after) ∧
      after.skip = ⟨more, j, line', true⟩ := by
  induction hnodes generalizing row node line steps with
  | nil => exact readItems_end hmore hleast hends hrow hsteps
  | @cons next nextNode rest nodes hnext hnodes ih =>
    obtain ⟨steps, rfl⟩ : ∃ n, steps = n + 1 := Nat.exists_eq_add_one_of_ne_zero (by omega)
    obtain ⟨place, after, line', hplace, hstart, hread, hafter⟩ :=
      @hrow.reads column least j line more row (next :: rest) node (nextNode :: nodes)
        (.cons hnext hnodes) hmore hleast hends steps (by omega)
    rw [nextPlace] at hafter
    simp only [rows, List.length_append, length_newLine] at hsteps
    obtain ⟨last, line'', hrest, hlast⟩ := @ih line' next nextNode hnext steps (by
      simp only [List.length_append]
      omega)
    have honset : Onset (next ++ rows column j more rest) := hnext.onset _
    obtain ⟨text, rfl, -⟩ := hnext
    have hdash : (⟨'-' :: ' ' :: text ++ rows column j more rest, column, line', true⟩ :
        Cursor).atDash = true := rfl
    refine ⟨last, line'', ?_, hlast⟩
    rw [readItems]
    simp only [hplace, hstart, if_true, hread, ok_bind, hafter, Cursor.atStop_of_onset honset,
      Nat.lt_irrefl, if_false, hdash, hrest]
    rfl

/-- Dashes in a column are read as a list, also in the column of the key that it belongs to. -/
theorem readsNode_list (hrow : ReadsItem column row node)
    (hnodes : List.Forall₂ (ReadsItem column) rest nodes) (hleast : least ≤ column + 1) :
    ReadsNode column least (atColumn column (row :: rest)) (.list {} (node :: nodes)) := by
  refine ⟨?_, isOrdinary_atColumn column ?_,
    fun j more line steps dashesBefore hmore hends hsteps => ?_⟩
  · obtain ⟨tail, htail⟩ := exists_atColumn column row rest
    rw [htail]
    exact hrow.solid.append tail
  · refine List.forall_mem_cons.2 ⟨hrow.ordinary, fun part hpart => ?_⟩
    obtain ⟨other, -, hother⟩ := exists_of_forall₂ hnodes hpart
    exact hother.ordinary
  · obtain ⟨steps, rfl⟩ : ∃ n, steps = n + 1 := Nat.exists_eq_add_one_of_ne_zero (by omega)
    rw [atColumn_append] at hsteps ⊢
    obtain ⟨after, line', hread, hafter⟩ := @readItems_rows column least j line more row rest node
      nodes hrow hnodes hmore hleast hends steps (by omega)
    have hdash : (⟨row ++ rows column j more rest, column, line, true⟩ : Cursor).atDash = true := by
      obtain ⟨text, rfl, -⟩ := hrow
      rfl
    refine ⟨after, line', ?_, hafter⟩
    rw [readNode]
    simp only [hdash, if_true, hread, ok_bind]
    rfl

end Lists

section Keys

variable {s : String}

theorem isCompact_key (h : isKey s = true) : ∀ c ∈ s.toList, isCompact c = true := by
  intro c hc
  simp only [isKey, Bool.and_eq_true, List.all_eq_true, Bool.or_eq_true, decide_eq_true_eq] at h
  rcases h.1.1 c hc with hlower | rfl
  · simp [isCompact, hlower]
  · rfl

theorem length_key (h : isKey s = true) : s.toList.length < 64 := by
  simp only [isKey, Bool.and_eq_true, decide_eq_true_eq] at h
  rw [String.length_toList]
  exact h.2

theorem filled_key (h : isKey s = true) : s.toList ≠ [] ∧ startsWithMark s.toList = false := by
  simp only [isKey, Bool.and_eq_true] at h
  obtain ⟨hbare, hstart, -⟩ := bare_of_allowsPlain h.1.2
  exact ⟨hbare.filled, hstart⟩

theorem head_key (h : isKey s = true) :
    ∃ c tail, s.toList = c :: tail ∧ (c.isLower = true ∨ c = '_') := by
  obtain ⟨c, tail, htext⟩ := List.exists_cons_of_ne_nil (filled_key h).1
  simp only [isKey, Bool.and_eq_true, List.all_eq_true, Bool.or_eq_true, decide_eq_true_eq] at h
  exact ⟨c, tail, htext, h.1.1 c (htext ▸ List.mem_cons_self)⟩

theorem startsScalar_key (h : isKey s = true) (rest : List Char) :
    StartsScalar (s.toList ++ rest) := by
  obtain ⟨hfilled, hstart⟩ := filled_key h
  have hplain := @startsPlain_foldPlain s.toList 0 false
    (bare_of_compact hfilled (isCompact_key h)) hstart 0
  rw [foldPlain_false] at hplain
  exact hplain.scalar.append rest

end Keys

section Tables

variable {column least j line steps : Nat} {more row : List Char} {rest : List (List Char)}
  {node : Node × Node} {nodes : List (Node × Node)} {fresh : Bool}

theorem ReadsEntry.onset (h : ReadsEntry column row node) (tail : List Char) :
    Onset (row ++ tail) ∧ ∀ rest, row ++ tail ≠ '-' :: ' ' :: rest := by
  obtain ⟨s, text, hs, rfl, -⟩ := h
  obtain ⟨c, rest, htext, hc⟩ := head_key hs
  rw [htext]
  refine ⟨.key hc _, fun other heq => ?_⟩
  have hdash := (List.cons.inj heq).1
  rw [hdash] at hc
  exact absurd hc (by decide)

theorem ReadsEntry.filled (h : ReadsEntry column row node) : row ≠ [] := by
  obtain ⟨s, text, -, rfl, -⟩ := h
  simp

theorem ReadsEntry.ordinary (h : ReadsEntry column row node) :
    ∀ c ∈ row, isOrdinary c = true := by
  obtain ⟨s, text, hs, rfl, -, hread⟩ := h
  exact List.forall_mem_append.2 ⟨fun c hc => isOrdinary_of_compact (isCompact_key hs c hc),
    List.forall_mem_cons.2 ⟨rfl, hread.ordinary⟩⟩

/-- A table ends where the text ends or a line stands less far in. -/
def EndsTable (column j : Nat) (more : List Char) : Prop :=
  (more = [] ∧ j = 0) ∨ j < column

theorem ends_entry (hnodes : List.Forall₂ (ReadsEntry column) rest nodes)
    (hends : EndsTable column j more) : Ends column (column + 1)
      (nextPlace column j more line rest).column (nextPlace column j more line rest).rest := by
  cases hnodes with
  | nil =>
    rcases hends with hend | hj
    · exact .inl hend
    · exact .inr ⟨Nat.lt_succ_of_lt hj, fun heq => absurd heq (Nat.ne_of_lt hj)⟩
  | cons hrow _ => exact .inr ⟨Nat.lt_succ_self column, fun _ => (hrow.onset _).2⟩

theorem onset_entries (hnodes : List.Forall₂ (ReadsEntry column) rest nodes) (hmore : Onset more) :
    Onset (nextPlace column j more line rest).rest := by
  cases hnodes with
  | nil => exact hmore
  | cons hrow _ => exact (hrow.onset _).1

/-- The key of a row is read up to its colon, and what stands behind that up to the next row. -/
theorem ReadsEntry.reads (h : ReadsEntry column row node)
    (hnodes : List.Forall₂ (ReadsEntry column) rest nodes) (hmore : Onset more)
    (hends : EndsTable column j more)
    (hsteps : 4 * (row ++ rows column j more rest).length ≤ steps) :
    ∃ colon after line', (∀ least, readContent steps false least
        ⟨row ++ rows column j more rest, column, line, fresh⟩ = .ok (node.1, colon)) ∧
      colon.skipSpaces = colon ∧ colon.atColon = true ∧
      onOneLine ⟨row ++ rows column j more rest, column, line, fresh⟩ colon = true ∧
      readBehind steps column (colon.forward 1) = .ok (node.2, after) ∧
      after.skip = nextPlace column j more line' rest := by
  obtain ⟨s, text, hs, rfl, hkey, hread⟩ := h
  obtain ⟨hfilled, hstart⟩ := filled_key hs
  have hlength := length_key hs
  have hpos := List.length_pos_iff.2 hfilled
  have hrows := rows_eq column j more line rest
  rw [List.append_assoc, List.cons_append] at hsteps ⊢
  simp only [List.length_append, List.length_cons] at hsteps
  have hends' : endsWord (text ++ rows column j more rest) = true := by
    have hblank := hread.blank
    cases text with
    | nil => rw [hrows]; rfl
    | cons c tail => exact hblank
  obtain ⟨after, line', hbehind, hafter⟩ := @hread.reads _ _ (column + s.toList.length + 1) line
    steps (@onset_entries column j line more rest nodes hnodes hmore)
    (@ends_entry column j line more rest nodes hnodes hends) (by omega)
    (by rw [← hrows]; simp only [List.length_append]; omega)
  rw [← hrows] at hbehind
  refine ⟨⟨':' :: (text ++ rows column j more rest), column + s.toList.length, line, false⟩,
    after, line', fun least => ?_, rfl, ?_, ?_, hbehind, hafter.trans ?_⟩
  · rw [hkey]
    exact readContent_key hfilled (isCompact_key hs) hstart hends' (by omega)
  · simp [Cursor.atColon, Cursor.hasMark, hends']
  · have hspan : s.toList.length ≤ keySpan := by
      rw [keySpan]
      omega
    simp [onOneLine, hspan]
  · cases rest <;> rfl

theorem ReadsEntry.readEntry (h : ReadsEntry column row node)
    (hnodes : List.Forall₂ (ReadsEntry column) rest nodes) (hmore : Onset more)
    (hends : EndsTable column j more)
    (hsteps : 4 * (row ++ rows column j more rest).length + 1 ≤ steps) : ∃ after line',
      readEntry steps column ⟨row ++ rows column j more rest, column, line, fresh⟩ =
        .ok (node.1, node.2, after) ∧ after.skip = nextPlace column j more line' rest := by
  obtain ⟨steps, rfl⟩ : ∃ n, steps = n + 1 := Nat.exists_eq_add_one_of_ne_zero (by omega)
  obtain ⟨colon, after, line', hcontent, hskip, hcolon, hline, hbehind, hafter⟩ :=
    @h.reads column j line steps more row rest node nodes fresh hnodes hmore hends (by omega)
  obtain ⟨s, text, hs, rfl, hkey, -⟩ := h
  rw [List.append_assoc] at hcontent hline ⊢
  have hstart := startsScalar_key hs (':' :: text ++ rows column j more rest)
  have hquestion : (⟨s.toList ++ (':' :: text ++ rows column j more rest), column, line, fresh⟩ :
      Cursor).atQuestion = false := hstart.no_mark (.inr rfl)
  have hmark : node.1.mark {} = .ok node.1 := rfl
  have hempty : ({} : Marks).isEmpty = true := rfl
  refine ⟨after, line', ?_, hafter⟩
  rw [Yaml.readEntry]
  simp only [hquestion, Bool.false_eq_true, if_false, hstart.readMarks, ok_bind, hempty,
    Bool.not_true, hcontent, hskip, hcolon, hline, Bool.and_self, if_true, hbehind, hmark]
  rfl

/-- Where a table ends, its reader does not go on. -/
theorem readMoreEntries_end (hmore : Onset more) (hends : EndsTable column j more) {c : Cursor}
    (hc : c.skip = ⟨more, j, line, true⟩) (steps : Nat) :
    readMoreEntries (steps + 1) column c = .ok ([], ⟨more, j, line, true⟩) := by
  rw [readMoreEntries]
  simp only [hc, Cursor.atStop_of_onset hmore, List.isEmpty_iff, Bool.not_true,
    Bool.false_eq_true, if_false]
  by_cases hempty : more = []
  · rw [if_pos hempty]
  · rw [if_neg hempty, if_pos (hends.resolve_left fun hend => hempty hend.1)]

/-- All further rows of a table are read. -/
theorem readMoreEntries_rows (hnodes : List.Forall₂ (ReadsEntry column) rest nodes)
    (hmore : Onset more) (hends : EndsTable column j more) {c : Cursor}
    (hc : c.skip = nextPlace column j more line rest)
    (hsteps : 4 * (nextPlace column j more line rest).rest.length + 3 ≤ steps) : ∃ after line',
      readMoreEntries steps column c = .ok (nodes, after) ∧
        after.skip = ⟨more, j, line', true⟩ := by
  induction hnodes generalizing c line steps with
  | nil =>
    obtain ⟨steps, rfl⟩ : ∃ n, steps = n + 1 := Nat.exists_eq_add_one_of_ne_zero (by omega)
    exact ⟨_, line, readMoreEntries_end hmore hends hc steps, Cursor.skip_of_onset hmore⟩
  | @cons row node rest nodes hrow hnodes ih =>
    obtain ⟨steps, rfl⟩ : ∃ n, steps = n + 1 := Nat.exists_eq_add_one_of_ne_zero (by omega)
    obtain ⟨steps, rfl⟩ : ∃ n, steps = n + 1 := Nat.exists_eq_add_one_of_ne_zero (by omega)
    rw [nextPlace] at hc hsteps
    dsimp only at hsteps
    obtain ⟨honset, hdash⟩ := hrow.onset (rows column j more rest)
    obtain ⟨after, line', hread, hafter⟩ :=
      @hrow.readEntry column j line steps more row rest node nodes true hnodes hmore hends
        (by omega)
    have hlength := @length_nextPlace_le column j more line' rest
    have hpos := List.length_pos_iff.2 hrow.filled
    rw [List.length_append] at hsteps
    obtain ⟨last, line'', hrest, hlast⟩ := @ih line' steps after hafter (by omega)
    have hfilled : (row ++ rows column j more rest).isEmpty = false := by
      rw [List.isEmpty_eq_false_iff]
      exact List.append_ne_nil_of_left_ne_nil hrow.filled _
    refine ⟨last, line'', ?_, hlast⟩
    rw [readMoreEntries]
    simp only [hc, Cursor.atStop_of_onset honset, hfilled, Bool.false_eq_true, if_false,
      Bool.not_true, Nat.lt_irrefl, decide_false, Bool.false_or,
      Cursor.atDash_of_onset honset hdash, readEntries, hread, ok_bind, hrest]
    rfl

theorem readsNode_table (hrow : ReadsEntry column row node)
    (hnodes : List.Forall₂ (ReadsEntry column) rest nodes) (hleast : least ≤ column) :
    ReadsNode column least (atColumn column (row :: rest)) (.table {} (node :: nodes)) := by
  refine ⟨?_, isOrdinary_atColumn column ?_,
    fun j more line steps dashesBefore hmore hends hsteps => ?_⟩
  · obtain ⟨tail, htail⟩ := exists_atColumn column row rest
    obtain ⟨s, text, hs, rfl, -⟩ := hrow
    rw [htail, List.append_assoc]
    exact (startsScalar_key hs _).solid
  · refine List.forall_mem_cons.2 ⟨hrow.ordinary, fun part hpart => ?_⟩
    obtain ⟨other, -, hother⟩ := exists_of_forall₂ hnodes hpart
    exact hother.ordinary
  obtain ⟨steps, rfl⟩ : ∃ n, steps = n + 1 := Nat.exists_eq_add_one_of_ne_zero (by omega)
  rw [atColumn_append] at hsteps ⊢
  have htable : EndsTable column j more :=
    hends.imp_right fun hj => Nat.lt_of_lt_of_le hj.1 hleast
  obtain ⟨colon, after, line', hcontent, hskip, hcolon, hline, hbehind, hafter⟩ :=
    @hrow.reads column j line steps more row rest node nodes true hnodes hmore htable (by omega)
  have hlength := @length_nextPlace_le column j more line' rest
  obtain ⟨last, line'', hrest, hlast⟩ := @readMoreEntries_rows column j line' steps more rest nodes
    hnodes hmore htable after hafter (by
      simp only [List.length_append] at hsteps
      omega)
  obtain ⟨s, text, hs, rfl, hkey, -⟩ := hrow
  rw [List.append_assoc] at hcontent hline ⊢
  have hstart := startsScalar_key hs (':' :: text ++ rows column j more rest)
  have hdash : (⟨s.toList ++ (':' :: text ++ rows column j more rest), column, line, true⟩ :
      Cursor).atDash = false := hstart.no_mark (.inl rfl)
  have hquestion : (⟨s.toList ++ (':' :: text ++ rows column j more rest), column, line, true⟩ :
      Cursor).atQuestion = false := hstart.no_mark (.inr rfl)
  have hmark : node.1.mark {} = .ok node.1 := rfl
  have hempty : ({} : Marks).isEmpty = true := rfl
  refine ⟨last, line'', ?_, hlast⟩
  rw [readNode]
  simp only [hdash, hquestion, Bool.false_eq_true, if_false, hstart.readMarks, ok_bind, hempty,
    Bool.not_true, Bool.false_and, hcontent, hmark, hskip, hcolon, hline, Bool.and_self, if_true,
    hbehind, hrest]
  rfl

end Tables

section Behind

variable {column least : Nat} {text : List Char} {node : Node}

/-- A scalar is a node of its line, and what stands behind a colon on its line. -/
theorem ReadsScalar.readsNode (h : ReadsScalar least text node) (hleast : least ≤ column)
    (hpos : 0 < least) : ReadsNode column least text node := by
  refine ⟨h.starts.solid, h.ordinary,
    fun j more line steps dashesBefore hmore hends hsteps => ?_⟩
  obtain ⟨steps, rfl⟩ : ∃ n, steps = n + 1 := Nat.exists_eq_add_one_of_ne_zero (by omega)
  have hj : j < least := by
    rcases hends with ⟨-, rfl⟩ | ⟨hj, -⟩
    · exact hpos
    · exact hj
  rw [List.length_append] at hsteps
  obtain ⟨after, line', hread, hskip, hcolon⟩ := @h.reads j more column line true steps hj hleast
    hmore (by omega)
  exact ⟨after, line', readNode_scalar (h.starts.append _) hread hcolon, hskip⟩

theorem ReadsScalar.readsBehind (h : ReadsScalar (column + 1) text node) :
    ReadsBehind column (' ' :: text) node := by
  refine ⟨rfl, List.forall_mem_cons.2 ⟨rfl, h.ordinary⟩,
    fun j more place line steps hmore hends hplace hsteps => ?_⟩
  obtain ⟨steps, rfl⟩ : ∃ n, steps = n + 1 := Nat.exists_eq_add_one_of_ne_zero (by omega)
  obtain ⟨steps, rfl⟩ : ∃ n, steps = n + 1 := Nat.exists_eq_add_one_of_ne_zero (by omega)
  have hj : j < column + 1 := by
    rcases hends with ⟨-, rfl⟩ | ⟨hj, -⟩
    · exact Nat.succ_pos column
    · exact hj
  simp only [List.cons_append, List.length_cons, List.length_append] at hsteps
  obtain ⟨after, line', hread, hskip, hcolon⟩ := @h.reads j more (place + 1) line false steps hj
    (by omega) hmore (by omega)
  have hsolid := h.starts.solid.append (newLine j ++ more)
  have hnext : (⟨' ' :: text ++ (newLine j ++ more), place, line, false⟩ : Cursor).skip =
      ⟨text ++ (newLine j ++ more), place + 1, line, false⟩ :=
    Cursor.skip_space.trans (Cursor.skip_of_solid hsolid)
  refine ⟨after, line', ?_, hskip⟩
  rw [readBehind]
  simp only [hnext, canStart_of_solid hsolid (Nat.succ_ne_zero place) (Nat.succ_le_succ hplace),
    if_true]
  exact readNode_scalar (h.starts.append _) hread hcolon

/-- A collection stands on the lines behind its key: a table further in, a list also in the
column of the key, where its dash shows that it belongs to it. -/
theorem ReadsNode.readsBehind {inner : Nat} (h : ReadsNode inner (column + 1) text node)
    (hinner : column < inner ∨ (inner = column ∧ ∃ tail, text = '-' :: ' ' :: tail)) :
    ReadsBehind column (newLine inner ++ text) node := by
  refine ⟨rfl, List.forall_mem_append.2 ⟨isOrdinary_newLine, h.ordinary⟩,
    fun j more place line steps hmore hends hplace hsteps => ?_⟩
  obtain ⟨steps, rfl⟩ : ∃ n, steps = n + 1 := Nat.exists_eq_add_one_of_ne_zero (by omega)
  have hsolid := h.solid.append (newLine j ++ more)
  have hnext : (⟨newLine inner ++ text ++ (newLine j ++ more), place, line, false⟩ :
      Cursor).skip = ⟨text ++ (newLine j ++ more), inner, line + 1, true⟩ := by
    rw [List.append_assoc, Cursor.skip_newLine, Cursor.skip_of_solid hsolid]
  have hstart : canStart (column + 1) true
      ⟨text ++ (newLine j ++ more), inner, line + 1, true⟩ = true := by
    rcases hinner with hlt | ⟨rfl, tail, rfl⟩
    · exact canStart_of_solid hsolid (by omega) hlt true
    · have honset : Onset ('-' :: ' ' :: tail ++ (newLine j ++ more)) := .dash _
      have hdash : (⟨'-' :: ' ' :: tail ++ (newLine j ++ more), inner, line + 1, true⟩ :
          Cursor).atDash = true := rfl
      simp only [canStart, Cursor.atStop_of_onset honset, hdash]
      simp
  have hends' : Ends inner (column + 1) j more := by
    refine hends.imp_right fun hj => ⟨hj.1, fun heq => ?_⟩
    rcases hinner with hlt | ⟨rfl, -⟩
    · omega
    · exact hj.2 heq
  rw [List.append_assoc] at hsteps
  simp only [List.length_append, length_newLine] at hsteps
  obtain ⟨after, line', hread, hskip⟩ := @h.reads j more (line + 1) steps true hmore hends' (by
    simp only [List.length_append, length_newLine]
    omega)
  refine ⟨after, line', ?_, hskip⟩
  rw [readBehind]
  simp only [hnext, hstart, if_true, hread]

end Behind

end ModelData.Yaml
