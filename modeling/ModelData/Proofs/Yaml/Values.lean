import ModelData.Proofs.Yaml.Blocks

/-!
Stored values as YAML text. A storable value is written, within a line or behind a key, and
what is written is read as a node that stands for the value with its entries in order and
with its texts as they are read at their indentations.
-/

namespace ModelData.Yaml

variable {sorts : Bool} {levels : Nat} {v : Value}

/-- A value is written and read, from a column of a line on and behind a key. -/
structure Written (sorts : Bool) (levels : Nat) (v : Value) : Prop where
  inline : ∀ ⦃column least⦄, least ≤ column → 0 < least → ∃ text node,
    writeInline (writeBlock sorts levels) false column v = .ok text ∧
      ReadsNode column least text node ∧ Stands node (v.reread misread sorts column)
  behind : ∀ column keyLength, ∃ text node,
    writeBehind (writeBlock sorts levels) column keyLength v = .ok text ∧
      ReadsBehind column text node ∧ Stands node (v.rereadBehind misread sorts column)

section Scalars

/-- What is written within its line is read there and behind a key. -/
theorem written_scalar
    (h : ∀ ⦃indent column least⦄, least ≤ indent → 0 < least → indent ≤ column → ∃ text node,
      writeScalar? false indent column v = some text ∧ ReadsScalar least text node ∧
        Stands node (v.reread misread sorts indent))
    (hbehind : ∀ column,
      v.rereadBehind misread sorts column = v.reread misread sorts (column + 2)) :
    Written sorts levels v := by
  refine ⟨fun column least hleast hpos => ?_, fun column keyLength => ?_⟩
  · obtain ⟨text, node, htext, hread, hstands⟩ := h hleast hpos (Nat.le_refl column)
    refine ⟨text, node, ?_, hread.readsNode hleast hpos, hstands⟩
    rw [writeInline, htext]
  · obtain ⟨text, node, htext, hread, hstands⟩ :=
      @h (column + 2) (column + keyLength + 2) (column + 1) (by omega) (by omega) (by omega)
    refine ⟨' ' :: text, node, ?_, hread.readsBehind, hbehind column ▸ hstands⟩
    simp only [writeBehind, htext]

theorem written_flag (b : Bool) : Written sorts levels (.flag b) := by
  refine written_scalar (fun indent column least _ _ _ => ?_) fun _ => rfl
  refine ⟨flagText b, _, rfl, readsScalar_flag b, stands_scalar ?_⟩
  cases b <;> rfl

theorem written_int (i : Int) : Written sorts levels (.int i) := by
  refine written_scalar (fun indent column least _ _ _ => ?_) fun _ => rfl
  refine ⟨Digits.ofInt i, _, rfl, readsScalar_int i, stands_scalar ?_⟩
  rw [scalarValue, if_pos rfl, spelledValue, plainKind_int, intValue_int]
  rfl

theorem written_float (x : Binary64.Finite) : Written sorts levels (.float (.finite x)) := by
  refine written_scalar (fun indent column least _ _ _ => ?_) fun _ => rfl
  refine ⟨x.spell floatStyle, _, rfl, readsScalar_float x, stands_scalar ?_⟩
  rw [scalarValue, if_pos rfl, spelledValue, plainKind_float, floatValue_float]
  rfl

theorem written_text (s : String) : Written sorts levels (.text s) := by
  refine written_scalar (fun indent column least hleast hpos hcolumn => ?_) fun _ => rfl
  obtain ⟨isPlain, hread, hkind⟩ :=
    exists_readsScalar_text s.toList hleast (by omega : indent ≠ 0) hcolumn
  refine ⟨_, _, rfl, hread, stands_scalar ?_⟩
  cases isPlain with
  | true =>
    rw [scalarValue, if_pos rfl, spelledValue, hkind rfl]
    rfl
  | false => rfl

theorem readFlowItems_empty {rest : List Char} {steps column line : Nat} {fresh : Bool} :
    readFlowItems (steps + 1) ⟨']' :: rest, column, line, fresh⟩ =
      .ok ([], ⟨rest, column + 1, line, false⟩) := by
  have hsolid : Solid (']' :: rest) := ⟨']', rest, rfl, by decide, by decide, by decide⟩
  have hmark : (⟨']' :: rest, column, line, fresh⟩ : Cursor).atDocumentMark = false :=
    Cursor.atDocumentMark_of_head (by decide)
  simp only [readFlowItems, skipInFlow, Cursor.skip_of_solid hsolid, Cursor.atStop, hmark]
  rfl

theorem written_emptyList : Written sorts levels (.list []) := by
  refine written_scalar (fun indent column least _ _ _ => ?_) fun _ => rfl
  refine ⟨['[', ']'], .list {} [], rfl, ⟨⟨'[', [']'], rfl, by decide, by decide, by simp⟩,
    forall_mem_of_all (by decide), fun j more column line fresh steps _ _ hmore _ => ?_⟩,
    stands_list .nil⟩
  obtain ⟨hskip, hcolon⟩ := @skip_behind_quote more (column + 2) line false j hmore
  refine ⟨_, _, ?_, hskip, hcolon⟩
  simp only [List.cons_append, List.nil_append, readContent, flowSteps, Cursor.forward,
    List.drop_succ_cons, List.drop_zero, readFlowItems_empty]
  rfl

end Scalars

section Collections

variable {items : List Value} {entries : List (Value × Value)} {column least : Nat}

theorem exists_block_list (hfilled : items ≠ []) (hitems : ∀ v ∈ items, Written sorts levels v)
    (column : Nat) : ∃ text node,
      writeBlock sorts (levels + 1) column (.list items) = .ok text ∧
      (∃ tail, text = '-' :: ' ' :: tail) ∧
      (∀ ⦃least⦄, least ≤ column + 1 → ReadsNode column least text node) ∧
      Stands node ((Value.list items).reread misread sorts column) := by
  have hrows : ∀ v ∈ items, ∃ row node,
      (do return '-' :: ' ' :: (← writeInline (writeBlock sorts levels) false (column + 2) v)) =
        (.ok row : Except Fault (List Char)) ∧
      ReadsItem column row node ∧ Stands node (v.reread misread sorts (column + 2)) := by
    intro v hv
    obtain ⟨text, node, htext, hread, hstands⟩ :=
      (hitems v hv).inline (Nat.le_succ (column + 1)) (Nat.succ_pos column)
    exact ⟨_, node, by rw [htext]; rfl, ⟨text, rfl, hread⟩, hstands⟩
  obtain ⟨rows, nodes, hrows, hreads, hstands⟩ := exists_mapM₂ hrows
  cases hreads with
  | nil => exact absurd (List.map_eq_nil_iff.1 (List.forall₂_nil_left_iff.1 hstands)) hfilled
  | @cons row node rest nodes hrow hrest =>
    refine ⟨atColumn column (row :: rest), .list {} (node :: nodes), ?_, ?_,
      fun least hleast => readsNode_list hrow hrest hleast, ?_⟩
    · rw [writeBlock, hrows]
      rfl
    · obtain ⟨tail, htail⟩ := exists_atColumn column row rest
      obtain ⟨text, rfl, -⟩ := hrow
      exact ⟨text ++ tail, htail⟩
    · rw [Value.reread, Value.rereads_eq_map]
      exact stands_list hstands

theorem isSimpleKey_key {s : String} (h : isKey s = true) : isSimpleKey (.text s) = true := by
  have hfilled := (filled_key h).1
  have hlength := length_key h
  have hlines : s.toList.any endsLine = false := by
    rw [List.any_eq_false]
    intro c hc hends
    have hmarks : c ∉ ['\n', '\u0085', '\u2028', '\u2029'] :=
      not_mem_of_all (isCompact_key h c hc) (by decide)
    exact hmarks (by simpa [endsLine, or_assoc] using hends)
  rw [String.length_toList] at hlength
  have hempty : s.isEmpty = false := by
    rw [← Bool.not_eq_true, String.isEmpty_iff]
    rintro rfl
    exact hfilled rfl
  have hshort : s.length + 5 < keyLength := by
    rw [keyLength]
    omega
  simp only [isSimpleKey, hempty, hlines, hshort, Bool.not_false, Bool.and_self, decide_true]

theorem writeText_key {s : String} (h : isKey s = true) (indent column : Nat) :
    writeText true indent column s.toList = s.toList := by
  simp only [isKey, Bool.and_eq_true] at h
  rw [writeText, styleFor, if_pos h.1.2]
  exact foldPlain_false _ _ _

theorem arrange_eq (hkeyed : Keyed entries) :
    arrange sorts entries = Table.ordered sorts entries := by
  cases sorts with
  | true => rw [arrange, if_pos rfl, Table.sortBy_eq hkeyed.worded]
  | false => rfl

theorem exists_block_table (hfilled : entries ≠ []) (hkeyed : Keyed entries)
    (hentries : ∀ e ∈ entries, Written sorts levels e.2) (column : Nat) : ∃ text node,
      writeBlock sorts (levels + 1) column (.table entries) = .ok text ∧ Onset text ∧
      (∀ ⦃least⦄, least ≤ column → ReadsNode column least text node) ∧
      Stands node ((Value.table entries).reread misread sorts column) := by
  have hrows : ∀ e ∈ Table.ordered sorts entries, ∃ row nodes,
      writeEntry (writeBlock sorts levels) column e.1 e.2 = .ok row ∧
      ReadsEntry column row nodes ∧
      StandsEntry nodes (e.1, e.2.rereadBehind misread sorts column) := by
    intro e he
    have hmem := Table.mem_ordered.1 he
    obtain ⟨s, hs, hkey⟩ := hkeyed.words e hmem
    obtain ⟨text, node, htext, hread, hstands⟩ :=
      (hentries e hmem).behind column s.toList.length
    refine ⟨s.toList ++ ':' :: text, (.scalar {} true s.toList, node), ?_,
      ⟨s, text, hkey, rfl, rfl, hread⟩, ⟨s, hkey, hs, rfl, hstands⟩⟩
    rw [hs, writeEntry, if_pos (isSimpleKey_key hkey), writeInline]
    simp only [writeScalar?, writeText_key hkey, ok_bind, htext]
    rfl
  obtain ⟨rows, nodes, hrows, hreads, hstands⟩ := exists_mapM₂ hrows
  cases hreads with
  | nil =>
    have hnil : Table.ordered sorts entries = [] :=
      List.map_eq_nil_iff.1 (List.forall₂_nil_left_iff.1 hstands)
    exact absurd hnil (Table.ordered_ne_nil sorts hfilled)
  | @cons row node rest nodes hrow hrest =>
    refine ⟨atColumn column (row :: rest), .table {} (node :: nodes), ?_, ?_,
      fun least hleast => readsNode_table hrow hrest hleast, ?_⟩
    · rw [writeBlock, arrange_eq hkeyed, hrows]
      rfl
    · obtain ⟨tail, htail⟩ := exists_atColumn column row rest
      exact htail ▸ (hrow.onset tail).1
    · rw [reread_table]
      exact stands_table (keyed_reread hkeyed column) hstands

theorem writeScalar?_table (hfilled : entries ≠ []) (isKey : Bool) (indent column : Nat) :
    writeScalar? isKey indent column (.table entries) = none := by
  cases entries with
  | nil => exact absurd rfl hfilled
  | cons e entries => rfl

theorem written_list (hfilled : items ≠ []) (hitems : ∀ v ∈ items, Written sorts levels v) :
    Written sorts (levels + 1) (.list items) := by
  have hscalar (isKey : Bool) (indent column : Nat) :
      writeScalar? isKey indent column (.list items) = none := by
    cases items with
    | nil => exact absurd rfl hfilled
    | cons v items => rfl
  refine ⟨fun column least hleast _ => ?_, fun column keyLength => ?_⟩
  · obtain ⟨text, node, htext, -, hread, hstands⟩ := exists_block_list hfilled hitems column
    refine ⟨text, node, ?_, hread (by omega), hstands⟩
    rw [writeInline, hscalar]
    exact htext
  · obtain ⟨text, node, htext, hdash, hread, hstands⟩ := exists_block_list hfilled hitems column
    refine ⟨newLine column ++ text, node, ?_,
      (hread (Nat.le_refl _)).readsBehind (.inr ⟨rfl, hdash⟩), hstands⟩
    simp only [writeBehind, hscalar, htext, ok_bind]
    rfl

theorem written_table (hfilled : entries ≠ []) (hkeyed : Keyed entries)
    (hentries : ∀ e ∈ entries, Written sorts levels e.2) :
    Written sorts (levels + 1) (.table entries) := by
  refine ⟨fun column least hleast _ => ?_, fun column keyLength => ?_⟩
  · obtain ⟨text, node, htext, -, hread, hstands⟩ :=
      exists_block_table hfilled hkeyed hentries column
    refine ⟨text, node, ?_, hread hleast, hstands⟩
    rw [writeInline, writeScalar?_table hfilled]
    exact htext
  · obtain ⟨text, node, htext, -, hread, hstands⟩ :=
      exists_block_table hfilled hkeyed hentries (column + 2)
    refine ⟨newLine (column + 2) ++ text, node, ?_,
      (hread (by omega)).readsBehind (.inl (by omega)), hstands⟩
    simp only [writeBehind, writeScalar?_table hfilled, htext, ok_bind]
    rfl

end Collections

/-- A storable value is written, as deep as it nests, and read. -/
theorem written_of_storable (h : Storable v) (hlevels : v.depth ≤ levels) :
    Written sorts levels v := by
  induction h generalizing levels with
  | flag b => exact written_flag b
  | int i => exact written_int i
  | float x => exact written_float x
  | text s => exact written_text s
  | @list items inside ih =>
    have hpositive : 0 < (Value.list items).depth := Nat.succ_pos _
    obtain ⟨levels, rfl⟩ : ∃ n, levels = n + 1 := Nat.exists_eq_add_one_of_ne_zero (by omega)
    by_cases hfilled : items = []
    · subst hfilled
      exact written_emptyList
    · refine written_list hfilled fun v hv => ih v hv ?_
      have hdepth := depth_of_mem_list hv
      omega
  | @table entries filled keyed inside ih =>
    have hpositive : 0 < (Value.table entries).depth := Nat.succ_pos _
    obtain ⟨levels, rfl⟩ : ∃ n, levels = n + 1 := Nat.exists_eq_add_one_of_ne_zero (by omega)
    refine written_table filled keyed fun e he => ih e he ?_
    have hdepth := depth_of_mem_table he
    omega

section Documents

variable {text : List Char} {node : Node}

theorem readDirectives_onset (h : Onset text) (steps : Nat) (d : Directives) :
    readDirectives steps d (Cursor.start text) = .ok (false, Cursor.start text) := by
  have hhead := h.head_ne
  cases steps with
  | zero => rfl
  | succ steps =>
    cases text with
    | nil => rfl
    | cons c tail =>
      have hc : c ≠ '%' := fun heq => hhead (by rw [heq]; rfl)
      simp [readDirectives, Cursor.start, hc]

theorem skipEndMarks_end {c : Cursor} {column line : Nat} {fresh : Bool}
    (hc : c.skip = ⟨[], column, line, fresh⟩) {steps : Nat} (hsteps : steps ≠ 0) :
    (skipEndMarks steps c).atEnd = true := by
  obtain ⟨steps, rfl⟩ : ∃ n, steps = n + 1 := Nat.exists_eq_add_one_of_ne_zero hsteps
  have hmark : (⟨[], column, line, fresh⟩ : Cursor).hasMark Cursor.endMark = false := rfl
  simp only [skipEndMarks, hc, hmark, Bool.and_false, Bool.false_eq_true, if_false]
  rfl

/-- A text that is one node, from its start to its end, is a document. -/
theorem readDocument_node (honset : Onset text) (h : ReadsNode 0 0 text node) :
    readDocument (text ++ ['\n']) = .ok node := by
  obtain ⟨c, tail, htext, -⟩ := h.solid
  have hfilled : text ≠ [] := by simp [htext]
  have honset' := honset.append hfilled ['\n']
  have hlength : (text ++ ['\n']).length ≠ 0 := by simp
  obtain ⟨after, line', hread, hafter⟩ := @h.reads 0 [] 0 (4 * (text ++ ['\n']).length + 8) false
    .done (.inl ⟨rfl, rfl⟩) (by simp [newLine])
  have hread : readNode (4 * (text ++ ['\n']).length + 8) 0 false
      (Cursor.start (text ++ ['\n'])) = .ok (node, after) := hread
  have hstart : (Cursor.start (text ++ ['\n'])).skip = Cursor.start (text ++ ['\n']) :=
    Cursor.skip_of_onset honset'
  have hend : (Cursor.start (text ++ ['\n'])).atEnd = false := by
    simp [Cursor.start, Cursor.atEnd]
  have hmark : ((Cursor.start (text ++ ['\n'])).column = 0 &&
      (Cursor.start (text ++ ['\n'])).hasMark Cursor.startMark) = false := by
    have hnone : (Cursor.start (text ++ ['\n'])).atDocumentMark = false :=
      Cursor.atDocumentMark_of_onset honset'
    simp only [Cursor.atDocumentMark, Cursor.start, decide_true, Bool.true_and,
      Bool.or_eq_false_iff] at hnone
    simp only [Cursor.start, decide_true, Bool.true_and, hnone.1]
  have hstop : (Cursor.start (text ++ ['\n'])).atStop = false := by
    rw [Cursor.start, Cursor.atStop_of_onset honset']
    simp
  simp only [readDocument, hstart, readDirectives_onset honset', ok_bind, hend, Bool.false_and,
    Bool.false_eq_true, if_false, hmark, hstop, hread, skipEndMarks_end hafter hlength, if_true]
  rfl

/-- A stored table is written, and read as itself with its texts as they are read. -/
theorem exists_write {entries : List (Value × Value)} (h : Storable (.table entries)) :
    ∃ text, write sorts (.table entries) = .ok text ∧
      read text = .ok ((Value.table entries).reread misread sorts 0) := by
  cases h with
  | table filled keyed inside =>
    have hentries : ∀ e ∈ entries, Written sorts (Value.entryDepths entries) e.2 :=
      fun e he => written_of_storable (inside e he) (depth_le_entryDepths he)
    obtain ⟨text, node, htext, honset, hread, hstands⟩ :=
      exists_block_table filled keyed hentries 0
    have hnode : ReadsNode 0 0 text node := hread (Nat.le_refl 0)
    have hordinary : ∀ c ∈ text ++ ['\n'], isOrdinary c = true :=
      List.forall_mem_append.2 ⟨hnode.ordinary, forall_mem_of_all (by decide)⟩
    refine ⟨text ++ ['\n'], ?_, ?_⟩
    · rw [write, writeInline, writeScalar?_table filled]
      exact congrArg (· >>= fun text => Except.ok (text ++ ['\n'])) htext
    · have hreadable : (text ++ ['\n']).all isReadable = true :=
        List.all_eq_true.2 fun c hc => isReadable_of_ordinary (hordinary c hc)
      rw [read, if_pos hreadable, withoutOrderMark_of_ordinary hordinary,
        uniformBreaks_of_ordinary hordinary, readDocument_node honset hnode]
      simp only [ok_bind, hstands.resolved, hstands.unmerged]
      exact hstands.carryOut

end Documents

end ModelData.Yaml
