import ModelData.Proofs.Yaml.Onward

/-!
Codes in a text that name no character. Nodes are read by steps that go on in the text, each with
some steps fewer for the nodes in it; so nothing is wrong with a text of YAML whose tree cannot be
built other than that it is malformed or holds such a code.
-/

namespace ModelData.Yaml

/-! Nodes within brackets. -/

section Flow

variable {text : List Char} {c : Cursor}

theorem skipInFlow_readsOn (h : c.rest <:+ text) : ReadsOn text id (skipInFlow c) := by
  simp only [skipInFlow]
  split_ifs
  · exact .malformed
  · exact .ok (skip_suffix h)

/-- What readers of some steps within brackets come to. -/
structure FlowReads (text : List Char) (steps : Nat) : Prop where
  node : ∀ {c : Cursor}, c.rest <:+ text → ReadsOn text Prod.snd (readFlowNode steps c)
  value : ∀ {c : Cursor}, c.rest <:+ text → ReadsOn text Prod.snd (readFlowValue steps c)
  entry : ∀ {c : Cursor}, c.rest <:+ text → ReadsOn text (·.2.2) (readFlowEntry steps c)
  items : ∀ {c : Cursor}, c.rest <:+ text → ReadsOn text Prod.snd (readFlowItems steps c)
  entries : ∀ {c : Cursor}, c.rest <:+ text → ReadsOn text Prod.snd (readFlowEntries steps c)

theorem flowReads_zero (text : List Char) : FlowReads text 0 :=
  ⟨fun _ => .malformed, fun _ => .malformed, fun _ => .malformed, fun _ => .malformed,
    fun _ => .malformed⟩

variable {steps : Nat} (ih : FlowReads text steps)

include ih

theorem readFlowNode_readsOn (h : c.rest <:+ text) :
    ReadsOn text Prod.snd (readFlowNode (steps + 1) c) := by
  rw [readFlowNode]
  refine (readMarks_readsOn h).bind_pair fun marks inner hinner => ?_
  refine (skipInFlow_readsOn hinner).bind fun next hnext => ?_
  simp only
  split_ifs
  · exact .ok hnext
  · exact (ih.node hnext).bind_pair fun _ _ => marked_readsOn marks _
  · split
    · have hitems := ih.items (forward_suffix hnext 1)
      refine (hitems.map_pair ?_).bind_pair fun _ _ => marked_readsOn marks _
      exact fun _ => rfl
    · have hentries := ih.entries (forward_suffix hnext 1)
      refine (hentries.map_pair ?_).bind_pair fun _ _ => marked_readsOn marks _
      exact fun _ => rfl
    · exact (readAlias_readsOn hnext).bind_pair fun _ _ => marked_readsOn marks _
    · exact (readScalar_readsOn steps true 0 hnext).bind_pair fun _ _ => marked_readsOn marks _

theorem readFlowValue_readsOn (h : c.rest <:+ text) :
    ReadsOn text Prod.snd (readFlowValue (steps + 1) c) := by
  rw [readFlowValue]
  refine (skipInFlow_readsOn (forward_suffix h 1)).bind fun next hnext => ?_
  split_ifs
  · exact .ok hnext
  · refine (ih.node hnext).bind fun _ hafter => ?_
    exact (skipInFlow_readsOn hafter).bind fun _ hlast => .ok hlast

theorem readFlowEntry_readsOn (h : c.rest <:+ text) :
    ReadsOn text (·.2.2) (readFlowEntry (steps + 1) c) := by
  have hvalue (key : Node) {colon : Cursor} (hcolon : colon.rest <:+ text) :
      ReadsOn text (·.2.2) (readFlowValue steps colon >>= fun r => .ok (key, some r.1, r.2)) :=
    (ih.value hcolon).bind fun _ hlast => .ok hlast
  rw [readFlowEntry]
  split
  · refine (skipInFlow_readsOn (forward_suffix h 1)).bind fun next hnext => ?_
    have hcolon (key : Node) {after : Cursor} (hafter : after.rest <:+ text) :=
      (skipInFlow_readsOn hafter).bind fun colon hcolon =>
        show ReadsOn text (·.2.2) (if colon.rest.head? = some ':' then
          readFlowValue steps colon >>= fun r => .ok (key, some r.1, r.2)
          else .ok (key, some .empty, colon)) by
        split_ifs
        · exact hvalue key hcolon
        · exact .ok hcolon
    simp only
    split_ifs
    · exact hcolon .empty hnext
    · exact (ih.node hnext).bind_pair fun key _ hafter => hcolon key hafter
  · refine (ih.node h).bind_pair fun key after hafter => ?_
    refine (skipInFlow_readsOn hafter).bind fun colon hcolon => ?_
    split_ifs
    · exact hvalue key hcolon
    · exact .malformed
    · exact .ok hcolon

theorem readFlowItems_readsOn (h : c.rest <:+ text) :
    ReadsOn text Prod.snd (readFlowItems (steps + 1) c) := by
  rw [readFlowItems]
  refine (skipInFlow_readsOn h).bind fun next hnext => ?_
  split_ifs
  · exact .ok (forward_suffix hnext 1)
  · refine (ih.entry hnext).bind fun entry hafter => ?_
    simp only
    split
    · exact (ih.items (forward_suffix hafter 1)).bind fun _ hlast => .ok hlast
    · exact .ok (forward_suffix hafter 1)
    · exact .malformed

theorem readFlowEntries_readsOn (h : c.rest <:+ text) :
    ReadsOn text Prod.snd (readFlowEntries (steps + 1) c) := by
  rw [readFlowEntries]
  refine (skipInFlow_readsOn h).bind fun next hnext => ?_
  split_ifs
  · exact .ok (forward_suffix hnext 1)
  · refine (ih.entry hnext).bind fun entry hafter => ?_
    simp only
    split
    · exact (ih.entries (forward_suffix hafter 1)).bind fun _ hlast => .ok hlast
    · exact .ok (forward_suffix hafter 1)
    · exact .malformed

omit ih

theorem flowReads (text : List Char) (steps : Nat) : FlowReads text steps := by
  induction steps with
  | zero => exact flowReads_zero text
  | succ steps ih =>
    exact ⟨readFlowNode_readsOn ih, readFlowValue_readsOn ih, readFlowEntry_readsOn ih,
      readFlowItems_readsOn ih, readFlowEntries_readsOn ih⟩

end Flow

/-! Nodes outside brackets. -/

section Block

variable {text : List Char} {c : Cursor}

theorem readContent_readsOn (steps : Nat) (marked : Bool) (least : Nat) (h : c.rest <:+ text) :
    ReadsOn text Prod.snd (readContent steps marked least c) := by
  have hflow := flowReads text (flowSteps c)
  rw [readContent]
  split
  · exact (hflow.items (forward_suffix h 1)).bind fun _ hafter => .ok hafter
  · exact (hflow.entries (forward_suffix h 1)).bind fun _ hafter => .ok hafter
  · exact readAlias_readsOn h
  · exact readBlockScalar_readsOn false least (forward_suffix h 1)
  · exact readBlockScalar_readsOn true least (forward_suffix h 1)
  · split_ifs
    · exact .ok h
    · exact readScalar_readsOn steps false least h

/-- What readers of some steps outside brackets come to. -/
structure BlockReads (text : List Char) (steps : Nat) : Prop where
  node : ∀ least dashesBefore {c : Cursor}, c.rest <:+ text →
    ReadsOn text Prod.snd (readNode steps least dashesBefore c)
  behind : ∀ column {c : Cursor}, c.rest <:+ text →
    ReadsOn text Prod.snd (readBehind steps column c)
  entries : ∀ column {c : Cursor}, c.rest <:+ text →
    ReadsOn text Prod.snd (readEntries steps column c)
  entry : ∀ column {c : Cursor}, c.rest <:+ text →
    ReadsOn text (·.2.2) (readEntry steps column c)
  moreEntries : ∀ column {c : Cursor}, c.rest <:+ text →
    ReadsOn text Prod.snd (readMoreEntries steps column c)
  items : ∀ column underKey {c : Cursor}, c.rest <:+ text →
    ReadsOn text Prod.snd (readItems steps column underKey c)

theorem blockReads_zero (text : List Char) : BlockReads text 0 where
  node _ _ _ _ := readNode.eq_1 .. ▸ .malformed
  behind _ _ _ := readBehind.eq_1 .. ▸ .malformed
  entries _ _ _ := readEntries.eq_1 .. ▸ .malformed
  entry _ _ _ := readEntry.eq_1 .. ▸ .malformed
  moreEntries _ _ _ := readMoreEntries.eq_1 .. ▸ .malformed
  items _ _ _ _ := readItems.eq_1 .. ▸ .malformed

variable {steps : Nat} (ih : BlockReads text steps) (column : Nat)

include ih

/-- A node, or a table that starts with it as a key. -/
theorem readKeyed_readsOn (node : Node) (isKey isFresh : Bool) (h : c.rest <:+ text) :
    ReadsOn text Prod.snd
      (if isKey then
        if isFresh then
          readBehind steps column (c.skipSpaces.forward 1) >>= fun value =>
            readMoreEntries steps column value.2 >>= fun entries =>
              .ok (.table {} ((node, value.1) :: entries.1), entries.2)
        else .error .malformed
      else .ok (node, c)) := by
  split_ifs
  · have hbehind := forward_suffix (skipSpaces_suffix h) 1
    refine (ih.behind _ hbehind).bind_pair fun value last hlast => ?_
    exact (ih.moreEntries _ hlast).bind fun _ hlast => .ok hlast
  · exact .malformed
  · exact .ok h

theorem readNode_readsOn (least : Nat) (dashesBefore : Bool) (h : c.rest <:+ text) :
    ReadsOn text Prod.snd (readNode (steps + 1) least dashesBefore c) := by
  rw [readNode]
  split
  · split
    · exact (ih.items _ _ h).bind fun _ hafter => .ok hafter
    · exact .malformed
  · split
    · split
      · exact (ih.entries _ h).bind fun _ hafter => .ok hafter
      · exact .malformed
    · refine (readMarks_readsOn h).bind_pair fun marks inner hinner => ?_
      have hnext := skip_suffix hinner
      simp only
      split
      · split
        · exact (ih.node _ _ hnext).bind_pair fun _ _ => marked_readsOn marks _
        · exact .ok hnext
      · split
        · exact .ok hnext
        · refine (readContent_readsOn _ _ _ hinner).bind_pair fun content after hafter => ?_
          refine (mark_noMisfit marks content).bind_readsOn fun node => ?_
          exact readKeyed_readsOn ih c.column node _ c.fresh hafter

theorem readBehind_readsOn (h : c.rest <:+ text) :
    ReadsOn text Prod.snd (readBehind (steps + 1) column c) := by
  rw [readBehind]
  split_ifs
  · exact ih.node _ _ (skip_suffix h)
  · exact .ok (skip_suffix h)

theorem readEntries_readsOn (h : c.rest <:+ text) :
    ReadsOn text Prod.snd (readEntries (steps + 1) column c) := by
  rw [readEntries]
  refine (ih.entry column h).bind fun _ hafter => ?_
  exact (ih.moreEntries column hafter).bind fun _ hlast => .ok hlast

theorem readEntry_readsOn (h : c.rest <:+ text) :
    ReadsOn text (·.2.2) (readEntry (steps + 1) column c) := by
  rw [readEntry]
  split_ifs
  · have hnext := skip_suffix (pastMark_suffix h 1)
    have hcolon (key : Node) {after : Cursor} (hafter : after.rest <:+ text) :
        ReadsOn text (·.2.2)
          (if after.skip.fresh && after.skip.column = column && after.skip.atColon then
            readBehind steps column (after.skip.pastMark 1) >>= fun r => .ok (key, r.1, r.2)
          else .ok (key, .empty, after.skip)) := by
      split_ifs
      · refine (ih.behind column ?_).bind fun _ hlast => .ok hlast
        exact pastMark_suffix (skip_suffix hafter) 1
      · exact .ok (skip_suffix hafter)
    simp only
    split_ifs
    · exact (ih.node _ _ hnext).bind_pair fun key _ hafter => hcolon key hafter
    · exact hcolon .empty hnext
  · refine (readMarks_readsOn h).bind_pair fun marks inner hinner => ?_
    refine (readContent_readsOn _ _ _ hinner).bind_pair fun content after hafter => ?_
    simp only
    split_ifs
    · have hbehind := forward_suffix (skipSpaces_suffix hafter) 1
      refine (ih.behind column hbehind).bind_pair fun value last hlast => ?_
      exact (mark_noMisfit marks content).bind_readsOn fun _ => .ok hlast
    · exact .malformed

theorem readMoreEntries_readsOn (h : c.rest <:+ text) :
    ReadsOn text Prod.snd (readMoreEntries (steps + 1) column c) := by
  have hnext := skip_suffix h
  rw [readMoreEntries]
  split_ifs
  · exact .ok hnext
  · exact .malformed
  · exact .ok hnext
  · exact .malformed
  · exact ih.entries column hnext

/-- The items of a list behind its first. -/
theorem readMoreItems_readsOn (item : Node) (underKey : Bool) (h : c.rest <:+ text) :
    ReadsOn text Prod.snd
      (if c.skip.atStop then .ok ([item], c.skip)
      else if !c.skip.fresh then .error .malformed
      else if c.skip.column < column then .ok ([item], c.skip)
      else if column < c.skip.column then .error .malformed
      else if c.skip.atDash then
        readItems steps column underKey c.skip >>= fun r => .ok (item :: r.1, r.2)
      else if underKey then .ok ([item], c.skip)
      else .error .malformed) := by
  have hnext := skip_suffix h
  split_ifs
  · exact .ok hnext
  · exact .malformed
  · exact .ok hnext
  · exact .malformed
  · exact (ih.items column _ hnext).bind fun _ hlast => .ok hlast
  · exact .ok hnext
  · exact .malformed

theorem readItems_readsOn (underKey : Bool) (h : c.rest <:+ text) :
    ReadsOn text Prod.snd (readItems (steps + 1) column underKey c) := by
  have hnext := skip_suffix (pastMark_suffix h 1)
  rw [readItems]
  simp only
  split
  · refine (ih.node _ _ hnext).bind_pair fun item _ hafter => ?_
    exact readMoreItems_readsOn ih column item underKey hafter
  · exact readMoreItems_readsOn ih column .empty underKey hnext

omit ih

theorem blockReads (text : List Char) (steps : Nat) : BlockReads text steps := by
  induction steps with
  | zero => exact blockReads_zero text
  | succ steps ih =>
    exact ⟨fun least dashesBefore _ => readNode_readsOn ih least dashesBefore,
      fun column _ => readBehind_readsOn ih column, fun column _ => readEntries_readsOn ih column,
      fun column _ => readEntry_readsOn ih column,
      fun column _ => readMoreEntries_readsOn ih column,
      fun column underKey _ => readItems_readsOn ih column underKey⟩

end Block

/-! The document of a text. -/

section Whole

variable {text : List Char} {c : Cursor}

theorem directives_noMisfit (d : Directives) (line : List Char) : NoMisfit (d.add line) := by
  rw [Directives.add]
  split_ifs
  · exact .malformed
  · exact .ok _
  · exact .malformed
  · split
    · split_ifs
      · exact .malformed
      · exact .ok _
    · exact .malformed
  · exact .ok _

theorem readDirectives_readsOn (steps : Nat) (d : Directives) (h : c.rest <:+ text) :
    ReadsOn text Prod.snd (readDirectives steps d c) := by
  induction steps generalizing d c with
  | zero => exact .ok h
  | succ steps ih =>
    rw [readDirectives]
    split
    · refine (directives_noMisfit d _).bind_readsOn fun d => ?_
      exact (ih d (skip_suffix (forward_suffix h _))).bind fun _ hlast => .ok hlast
    · exact .ok h

theorem readDocument_readsOn (text : List Char) :
    ReadsOn text (fun _ => Cursor.start []) (readDocument text) := by
  have hstart : (Cursor.start text).skip.rest <:+ text := skip_suffix List.suffix_rfl
  have hwhole (node : Node) (after : Cursor) : ReadsOn text (fun _ => Cursor.start [])
      (if (skipEndMarks text.length after).atEnd then .ok node else .error .malformed) := by
    split_ifs
    · exact .ok List.nil_suffix
    · exact .malformed
  rw [readDocument]
  refine (readDirectives_readsOn _ _ hstart).bind_pair fun directed first hfirst => ?_
  have hplace (marked : Bool) :
      (if marked then (first.forward 3).skip else first).rest <:+ text := by
    split_ifs
    · exact skip_suffix (forward_suffix hfirst 3)
    · exact hfirst
  simp only
  split
  · exact .ok List.nil_suffix
  · generalize (decide (first.column = 0) && first.hasMark Cursor.startMark) = marked
    specialize hplace marked
    generalize (if marked = true then (first.forward 3).skip else first) = place at hplace ⊢
    split_ifs
    · exact .malformed
    · exact hwhole _ _
    · exact .malformed
    · exact ((blockReads text _).node _ _ hplace).bind_pair fun _ _ _ => hwhole _ _

/-- A text that is malformed is so alone, or holds a large code. -/
theorem largeCode_of_readDocument {text : List Char} {m : Misfit}
    (h : readDocument text = .error (.misfit m)) : LargeCode text m := by
  have hreads := readDocument_readsOn text
  rw [h] at hreads
  cases hreads with
  | large code => exact code

end Whole

/-! The text before its breaks are made uniform. -/

section Uniform

variable {mark text : List Char}

theorem nil_of_startsWith_break (hmark : '\n' ∉ mark) {rest : List Char}
    (h : mark <+: '\n' :: rest) : mark = [] := by
  cases mark with
  | nil => rfl
  | cons c mark =>
    obtain ⟨rfl, -⟩ := List.cons_prefix_cons.1 h
    simp at hmark

theorem startsWith_of_uniformBreaks (hmark : '\n' ∉ mark) (h : mark <+: uniformBreaks text) :
    mark <+: text := by
  induction text using uniformBreaks.induct generalizing mark with
  | case1 rest ih => exact nil_of_startsWith_break hmark h ▸ List.nil_prefix
  | case2 rest hnext ih =>
    rw [uniformBreaks.eq_2 _ hnext] at h
    exact nil_of_startsWith_break hmark h ▸ List.nil_prefix
  | case3 rest ih => exact nil_of_startsWith_break hmark h ▸ List.nil_prefix
  | case4 c rest hpair hreturn hnext ih =>
    rw [uniformBreaks.eq_4 _ _ hpair hreturn hnext] at h
    cases mark with
    | nil => exact List.nil_prefix
    | cons d mark =>
      obtain ⟨rfl, hrest⟩ := List.cons_prefix_cons.1 h
      exact List.cons_prefix_cons.2 ⟨rfl, ih (fun hin => hmark (List.mem_cons_of_mem d hin)) hrest⟩
  | case5 => exact h

/-- What holds no line break is in the text as it was. -/
theorem infix_of_uniformBreaks (hmark : '\n' ∉ mark) (h : mark <:+: uniformBreaks text) :
    mark <:+: text := by
  have hbroken {rest : List Char} (h : mark <:+: '\n' :: rest) : mark <:+: rest := by
    rcases List.infix_cons_iff.1 h with hstart | hin
    · exact nil_of_startsWith_break hmark hstart ▸ List.nil_infix
    · exact hin
  induction text using uniformBreaks.induct with
  | case1 rest ih =>
    have hrest := ih (hbroken h)
    exact hrest.trans ((List.suffix_cons ..).trans (List.suffix_cons ..)).isInfix
  | case2 rest hnext ih =>
    rw [uniformBreaks.eq_2 _ hnext] at h
    exact (ih (hbroken h)).trans (List.suffix_cons ..).isInfix
  | case3 rest ih => exact (ih (hbroken h)).trans (List.suffix_cons ..).isInfix
  | case4 c rest hpair hreturn hnext ih =>
    have hstart (h : mark <+: uniformBreaks (c :: rest)) := startsWith_of_uniformBreaks hmark h
    rw [uniformBreaks.eq_4 _ _ hpair hreturn hnext] at h hstart
    rcases List.infix_cons_iff.1 h with hhere | hin
    · exact (hstart hhere).isInfix
    · exact (ih hin).trans (List.suffix_cons ..).isInfix
  | case5 => exact h

/-- The digits of a number hold no line break. -/
theorem break_not_mem_of_read {base n : Nat} {digits : List Char}
    (h : Digits.read? base digits = some n) : '\n' ∉ digits :=
  fun hin => absurd (Digits.isSome_digitValue_of_read h hin) (by decide)

theorem LargeCode.of_uniformBreaks {m : Misfit}
    (h : LargeCode (uniformBreaks (withoutOrderMark text)) m) : LargeCode text m := by
  have hmark : withoutOrderMark text <:+: text := by
    unfold withoutOrderMark
    split
    · exact (List.suffix_cons ..).isInfix
    · exact List.infix_rfl
  have hholds {digits : List Char} {code : Nat} (hread : Digits.read? 16 digits = some code)
      (hin : '\\' :: 'U' :: digits <:+: uniformBreaks (withoutOrderMark text)) :
      '\\' :: 'U' :: digits <:+: text := by
    refine (infix_of_uniformBreaks ?_ hin).trans hmark
    simp [break_not_mem_of_read hread]
  cases h with
  | noCharacter holds length reads beyond small =>
    exact .noCharacter (hholds reads holds) length reads beyond small
  | tooLarge holds length reads large => exact .tooLarge (hholds reads holds) length reads large

end Uniform

end ModelData.Yaml
