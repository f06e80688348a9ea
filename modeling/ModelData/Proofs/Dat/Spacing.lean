import ModelData.Yaml.Tagged
import ModelData.Proofs.Dat.Pieces
import ModelData.Proofs.Number.Spelling

/-!
The layout over lines adds nothing but line breaks and indentation. Whether an element can be
laid out so is decided by the counts of spaces that its filled collections ask for; on one
line every element of a known kind is written, with one text for all widths and levels. The
two texts are the same without their spaces, and the same but for each line break with the
spaces after it where no name or bare text of a set breaks a line or begins with a space.
-/

namespace ModelData.Dat

/-- The text of an element for a choice of layout, a width and a level. -/
def rendered (lines : Bool) (width level : Int) (e : Element) : Except Misfit (List Char) := do
  let layout ← Layout.ofValues (.flag lines) (.int width) (.int level)
  render layout e

/-- The counts of spaces for a filled collection so many levels in, and for its children. -/
def Fits (width level : Int) (e : Element) : Prop :=
  ∀ (k : Nat) (d : Element), Element.AtDepth k d e → d.isFilled = true →
    isCount (width * (level + k)) = true ∧ isCount (width * (level + k + 1)) = true

def withoutSpace (text : List Char) : List Char :=
  text.filter fun c => !Yaml.isSpace c

/-- The text without its line breaks and the spaces right after each of them. -/
def joined : List Char → List Char
  | [] => []
  | c :: rest =>
    if c = '\n' then joined (rest.dropWhile (· = ' ')) else c :: joined rest
termination_by text => text.length
decreasing_by
  · have hle := (List.dropWhile_sublist (· = ' ') (l := rest)).length_le
    simp only [List.length_cons]
    omega
  · simp

/-- A text that neither breaks a line nor begins with a space. -/
def StaysOnLine (text : List Char) : Prop :=
  '\n' ∉ text ∧ text.head? ≠ some ' '

/-- The names and bare texts of one node. -/
def KeepsLines (e : Element) : Prop :=
  (∀ name ∈ e.keys, StaysOnLine name.chars) ∧ ∀ s ∈ e.words, StaysOnLine s.toList

section Obstacles

variable {layout : Layout} {e : Element}

theorem membersObstacle?_eq (layout : Layout) (members : List Member) :
    membersObstacle? layout members =
      (members.filterMap Member.element?).findSome? (obstacle? layout) := by
  induction members with
  | nil => rfl
  | cons m rest ih =>
    cases m with
    | scalar | float =>
      simpa [membersObstacle?, memberObstacle?, Member.element?, List.filterMap_cons] using ih
    | element e =>
      simp only [membersObstacle?, memberObstacle?, Member.element?, List.filterMap_cons,
        List.findSome?_cons, ih]
      cases obstacle? layout e <;> rfl

theorem itemsObstacle?_eq (layout : Layout) (items : List Element) :
    itemsObstacle? layout items = items.findSome? (obstacle? layout) := by
  induction items with
  | nil => rfl
  | cons e rest ih =>
    simp only [itemsObstacle?, List.findSome?_cons, ih]
    cases obstacle? layout e <;> rfl

theorem entriesObstacle?_eq (layout : Layout) (entries : List Named) :
    entriesObstacle? layout entries =
      (entries.map (·.element)).findSome? (obstacle? layout) := by
  induction entries with
  | nil => rfl
  | cons n rest ih =>
    obtain ⟨name, element⟩ := n
    simp only [entriesObstacle?, entryObstacle?, List.map_cons, List.findSome?_cons, ih]
    cases obstacle? layout element <;> rfl

/-- Children come first, and then what keeps a filled collection itself from being written. -/
theorem obstacle?_eq (layout : Layout) (h : e.isForeign = false) :
    obstacle? layout e =
      (e.children.findSome? (obstacle? layout.inner)).or
        (layout.obstacleFor? !e.isFilled) := by
  cases e with
  | scalar | float => rfl
  | set members =>
    rw [obstacle?, membersObstacle?_eq]
    cases members <;> rfl
  | tuple items =>
    rw [obstacle?, itemsObstacle?_eq]
    cases items <;> rfl
  | array entries =>
    rw [obstacle?, entriesObstacle?_eq]
    cases entries <;> rfl
  | custom => simp [Element.isForeign] at h

/-- On one line only elements of foreign kinds cannot be written. -/
theorem obstacle?_compact_eq (e : Element) :
    obstacle? .compact e =
      e.firstForeign?.map fun d => .unsupportedElement (.element d.kind) := by
  induction e using Element.childInduction with
  | step e ih =>
    cases hforeign : e.isForeign with
    | true =>
      obtain ⟨kind, label, rfl⟩ := Element.exists_custom hforeign
      rw [Element.firstForeign?_of_foreign hforeign]
      rfl
    | false =>
      have hcounts : Layout.compact.obstacleFor? (!e.isFilled) = none := by
        cases e.isFilled <;> rfl
      rw [obstacle?_eq _ hforeign, hcounts, Option.or_none, Element.firstForeign?_of_known hforeign,
        List.map_findSome?]
      exact findSome?_congr ih

theorem obstacle?_compact (h : e.Everywhere (·.isForeign = false)) :
    obstacle? .compact e = none := by
  rw [obstacle?_compact_eq, Element.firstForeign?_eq_none_iff.2 h]
  rfl

theorem fits_iff (width level : Int) (e : Element) :
    Fits width level e ↔
      (e.isFilled = true →
        isCount (width * level) = true ∧ isCount (width * (level + 1)) = true) ∧
      ∀ d ∈ e.children, Fits width (level + 1) d := by
  have hshift (k : Nat) : level + ((k + 1 : Nat) : Int) = level + 1 + k := by omega
  constructor
  · intro h
    refine ⟨fun hfilled => ?_, fun d hd k c hc hfilled => ?_⟩
    · simpa using h 0 e (.here e) hfilled
    · have hcounts := h (k + 1) c (.inside hd hc) hfilled
      rwa [hshift] at hcounts
  · rintro ⟨hhere, hinside⟩ k d hd hfilled
    cases hd with
    | here => simpa using hhere hfilled
    | @inside k _ c _ hc hd =>
      rw [hshift]
      exact hinside c hc k d hd hfilled

/-- The only reason against lines is a count of spaces that is out of range. -/
theorem obstacle?_pretty (width level : Int) (h : e.Everywhere (·.isForeign = false)) :
    (obstacle? (.pretty width level) e = none ↔ Fits width level e) ∧
      ∀ m, obstacle? (.pretty width level) e = some m → m = .countTooLarge := by
  induction h generalizing level with
  | @intro e here _ ih =>
    rw [obstacle?_eq _ here, fits_iff, Option.or_eq_none_iff, List.findSome?_eq_none_iff]
    have hcount : (Layout.pretty width level).obstacleFor? (!e.isFilled) = none ↔
        (e.isFilled = true →
          isCount (width * level) = true ∧ isCount (width * (level + 1)) = true) := by
      cases e.isFilled <;> simp [Layout.obstacleFor?, Layout.obstacle?, and_comm]
    refine ⟨⟨fun ⟨hin, hout⟩ => ?_, fun ⟨hout, hin⟩ => ?_⟩, fun m hm => ?_⟩
    · exact ⟨hcount.1 hout, fun d hd => (ih d hd (level + 1)).1.1 (hin d hd)⟩
    · exact ⟨fun d hd => (ih d hd (level + 1)).1.2 (hin d hd), hcount.2 hout⟩
    · rcases Option.or_eq_some_iff.1 hm with hm | ⟨-, hm⟩
      · obtain ⟨d, hd, hm⟩ := List.exists_of_findSome?_eq_some hm
        exact (ih d hd (level + 1)).2 m hm
      · simp only [Layout.obstacleFor?, Layout.obstacle?] at hm
        split at hm
        · simp at hm
        · split at hm <;> simp_all

end Obstacles

section Spaces

theorem withoutSpace_append (s t : List Char) :
    withoutSpace (s ++ t) = withoutSpace s ++ withoutSpace t :=
  List.filter_append s t

theorem withoutSpace_spaces (n : Int) : withoutSpace (Layout.spaces n) = [] := by
  rw [withoutSpace, List.filter_eq_nil_iff]
  intro c hc
  rw [List.eq_of_mem_replicate hc]
  decide

theorem withoutSpace_cons_newline (text : List Char) :
    withoutSpace ('\n' :: text) = withoutSpace text :=
  rfl

theorem withoutSpace_intercalate (separator : List Char) (parts : List (List Char)) :
    withoutSpace (separator.intercalate parts) =
      (withoutSpace separator).intercalate (parts.map withoutSpace) := by
  induction parts with
  | nil => rfl
  | cons part rest ih =>
    cases rest with
    | nil => simp
    | cons next rest =>
      rw [List.intercalate_cons_cons, withoutSpace_append, withoutSpace_append, ih]
      simp only [List.map_cons, List.intercalate_cons_cons]

/-- Every layout keeps the brackets, the commas and the children. -/
theorem withoutSpace_wrap (layout : Layout) (opening closing : List Char)
    (parts : List (List Char)) :
    withoutSpace (layout.wrap opening closing parts) =
      withoutSpace opening ++ [','].intercalate (parts.map withoutSpace)
        ++ withoutSpace closing := by
  cases parts with
  | nil => simp [Layout.wrap, withoutSpace_append]
  | cons part rest =>
    cases layout with
    | compact | broken =>
      simp only [Layout.wrap, withoutSpace_append, withoutSpace_intercalate]
      rfl
    | pretty width level =>
      have hparts : ((part :: rest).map (Layout.spaces (width * (level + 1)) ++ ·)).map
          withoutSpace = (part :: rest).map withoutSpace := by
        rw [List.map_map]
        refine List.map_congr_left fun text _ => ?_
        simp only [Function.comp_apply, withoutSpace_append, withoutSpace_spaces,
          List.nil_append]
      simp only [Layout.wrap, withoutSpace_append, withoutSpace_cons_newline,
        withoutSpace_spaces, List.append_nil, withoutSpace_intercalate, hparts]
      rfl

theorem withoutSpace_write (first second : Layout) (e : Element) :
    withoutSpace (write first e) = withoutSpace (write second e) := by
  induction e using Element.childInduction generalizing first second with
  | step e ih =>
    rw [write_eq_wrap first, write_eq_wrap second, withoutSpace_wrap, withoutSpace_wrap,
      List.map_map, List.map_map]
    congr 3
    refine List.map_congr_left fun p hp => ?_
    simp only [Function.comp_apply, Piece.text, withoutSpace_append]
    congr 1
    cases hd : p.element with
    | none => rfl
    | some d => exact ih d (mem_children_of_mem_pieces hp hd) first.inner second.inner

end Spaces

section Lines

theorem joined_nil : joined [] = [] := by
  rw [joined]

theorem joined_newline (rest : List Char) :
    joined ('\n' :: rest) = joined (rest.dropWhile (· = ' ')) := by
  rw [joined, if_pos rfl]

theorem joined_line {text : List Char} (h : '\n' ∉ text) (rest : List Char) :
    joined (text ++ rest) = text ++ joined rest := by
  induction text with
  | nil => rfl
  | cons c text ih =>
    have hc : c ≠ '\n' := fun heq => h (by simp [heq])
    rw [List.cons_append, joined, if_neg hc, ih fun hmem => h (List.mem_cons_of_mem c hmem),
      List.cons_append]

/-- The spaces of an indentation go with the line break in front of them. -/
theorem joined_break (n : Int) {rest : List Char} (h : rest.head? ≠ some ' ') :
    joined ('\n' :: (Layout.spaces n ++ rest)) = joined rest := by
  have hspaces : ∀ c ∈ Layout.spaces n, decide (c = ' ') = true := by
    intro c hc
    rw [List.eq_of_mem_replicate hc]
    rfl
  rw [joined_newline, List.dropWhile_append_of_pos hspaces]
  cases rest with
  | nil => rfl
  | cons c rest =>
    have hc : c ≠ ' ' := by simpa using h
    rw [List.dropWhile_cons_of_neg (by simpa using hc)]

theorem not_mem_escapeChar (c : Char) : '\n' ∉ escapeChar c := by
  unfold escapeChar
  split
  · next h => rcases h with rfl | rfl <;> decide
  · split
    · decide
    · next h => simpa using Ne.symm h

theorem not_mem_textLiteral (s : String) : '\n' ∉ textLiteral s := by
  intro h
  rcases List.mem_append.1 h with h | h
  · rcases List.mem_cons.1 h with h | h
    · exact absurd h (by decide)
    · obtain ⟨c, -, hc⟩ := List.mem_flatMap.1 h
      exact not_mem_escapeChar c hc
  · exact absurd h (by decide)

theorem staysOnLine_of_forall {text : List Char} (h : ∀ c ∈ text, c ≠ '\n' ∧ c ≠ ' ') :
    StaysOnLine text := by
  refine ⟨fun hmem => (h _ hmem).1 rfl, fun hhead => ?_⟩
  exact (h ' ' (List.mem_of_mem_head? (by simp [hhead]))).2 rfl

theorem staysOnLine_intLiteral (i : Int) : StaysOnLine (intLiteral i) := by
  refine staysOnLine_of_forall fun c hc => ?_
  rcases Digits.mem_ofInt hc with rfl | hdigit
  · decide
  · exact ⟨fun heq => by simp [heq] at hdigit, fun heq => by simp [heq] at hdigit⟩

theorem staysOnLine_floatLiteral (x : Binary64.Finite) : StaysOnLine (floatLiteral x) := by
  refine staysOnLine_of_forall fun c hc => ?_
  rcases Binary64.mem_spell_fixed hc with rfl | rfl | hdigit
  · decide
  · decide
  · exact ⟨fun heq => by simp [heq] at hdigit, fun heq => by simp [heq] at hdigit⟩

theorem staysOnLine_opening (e : Element) : StaysOnLine (opening e) := by
  cases e with
  | scalar s =>
    cases s with
    | text s => exact ⟨not_mem_textLiteral s, by simp [opening, scalarLiteral, textLiteral]⟩
    | int i => exact staysOnLine_intLiteral i
    | flag b => exact staysOnLine_intLiteral (flagInt b)
  | float x => exact staysOnLine_floatLiteral x
  | set | tuple | array | custom => exact staysOnLine_of_forall (by simp [opening])

theorem not_mem_closing (e : Element) : '\n' ∉ closing e := by
  cases e <;> simp [closing]

theorem KeepsLines.lead {e : Element} (h : KeepsLines e) {p : Piece} (hp : p ∈ pieces e) :
    StaysOnLine p.lead := by
  cases e with
  | scalar | float | custom => simp [pieces] at hp
  | set members =>
    obtain ⟨m, hm, rfl⟩ := List.mem_map.1 hp
    cases m with
    | scalar s =>
      cases s with
      | text s => exact h.2 s (List.mem_filterMap.2 ⟨_, hm, rfl⟩)
      | int i => exact staysOnLine_intLiteral i
      | flag b => exact staysOnLine_intLiteral (flagInt b)
    | float x => exact staysOnLine_floatLiteral x
    | element e => exact staysOnLine_of_forall (by simp [Piece.ofMember])
  | tuple items =>
    obtain ⟨d, -, rfl⟩ := List.mem_map.1 hp
    exact staysOnLine_of_forall (by simp)
  | array entries =>
    obtain ⟨n, hn, rfl⟩ := List.mem_map.1 hp
    obtain ⟨hline, hhead⟩ := h.1 n.name (List.mem_map_of_mem hn)
    refine ⟨by simpa [Piece.ofEntry] using hline, ?_⟩
    cases hchars : n.name.chars with
    | nil => simp [Piece.ofEntry, hchars]
    | cons c rest => simpa [Piece.ofEntry, hchars] using hhead

theorem head_append_ne {s t : List Char} (hs : s.head? ≠ some ' ')
    (ht : t.head? ≠ some ' ') : (s ++ t).head? ≠ some ' ' := by
  cases s with
  | nil => exact ht
  | cons c s => exact hs

theorem head_write_ne (layout : Layout) (e : Element) :
    (write layout e).head? ≠ some ' ' := by
  rw [write_eq_wrap]
  have hopening := (staysOnLine_opening e).2
  cases hchars : opening e with
  | nil => cases e <;> simp_all [opening, closing, pieces, Layout.wrap]
  | cons c rest =>
    rw [hchars] at hopening
    unfold Layout.wrap
    split <;> exact hopening

section Parts

variable {α : Type} {long short : α → List Char}

/-- Children of which each is joined to its text on one line, with their breaks and commas. -/
theorem joined_children (indent : Int) {ps : List α} (hne : ps ≠ [])
    (hhead : ∀ p ∈ ps, (long p).head? ≠ some ' ')
    (hjoined : ∀ p ∈ ps, ∀ rest, joined (long p ++ rest) = short p ++ joined rest)
    (rest : List Char) :
    joined ('\n' :: ([',', '\n'].intercalate (ps.map fun p => Layout.spaces indent ++ long p)
        ++ '\n' :: rest)) =
      [','].intercalate (ps.map short) ++ joined ('\n' :: rest) := by
  induction ps with
  | nil => exact absurd rfl hne
  | cons p ps ih =>
    have hfirst (after : List Char) (hafter : after.head? ≠ some ' ') :
        joined ('\n' :: (Layout.spaces indent ++ long p ++ after)) = short p ++ joined after := by
      rw [List.append_assoc, joined_break indent (head_append_ne (hhead p (by simp)) hafter)]
      exact hjoined p (by simp) after
    cases ps with
    | nil =>
      simp only [List.map_cons, List.map_nil, List.intercalate_singleton]
      exact hfirst _ (by simp)
    | cons q ps =>
      have hrest := ih (by simp) (fun r hr => hhead r (List.mem_cons_of_mem p hr))
        fun r hr => hjoined r (List.mem_cons_of_mem p hr)
      rw [List.map_cons, List.map_cons, List.intercalate_cons_cons, List.append_assoc,
        List.append_assoc, hfirst _ (by simp), List.map_cons, List.map_cons,
        List.intercalate_cons_cons, List.append_assoc, List.append_assoc]
      change _ ++ joined ([','] ++ '\n' :: _) = _
      rw [joined_line (by simp)]
      exact congrArg (fun text => short p ++ ([','] ++ text)) hrest

theorem joined_wrap (width level : Int) {opening closing : List Char}
    (hopening : '\n' ∉ opening) (hclosing : '\n' ∉ closing) (hhead : closing.head? ≠ some ' ')
    {ps : List α} (hparts : ∀ p ∈ ps, (long p).head? ≠ some ' ')
    (hjoined : ∀ p ∈ ps, ∀ rest, joined (long p ++ rest) = short p ++ joined rest)
    (hfilled : ps ≠ [] → closing ≠ []) (rest : List Char) :
    joined ((Layout.pretty width level).wrap opening closing (ps.map long) ++ rest) =
      Layout.compact.wrap opening closing (ps.map short) ++ joined rest := by
  by_cases hps : ps = []
  · subst hps
    simp only [List.map_nil, Layout.wrap]
    rw [joined_line (by simp [hopening, hclosing])]
  · obtain ⟨p, qs, rfl⟩ := List.exists_cons_of_ne_nil hps
    have hlast : joined ('\n' :: (Layout.spaces (width * level) ++ (closing ++ rest))) =
        closing ++ joined rest := by
      rw [joined_break _, joined_line hclosing]
      cases closing with
      | nil => exact absurd rfl (hfilled hps)
      | cons c closing => exact hhead
    have hchildren := joined_children (width * (level + 1)) hps hparts hjoined
      (Layout.spaces (width * level) ++ (closing ++ rest))
    rw [hlast] at hchildren
    have hmap : ((p :: qs).map long).map (Layout.spaces (width * (level + 1)) ++ ·) =
        (p :: qs).map fun q => Layout.spaces (width * (level + 1)) ++ long q := by
      rw [List.map_map]
      rfl
    simp only [Layout.wrap, List.map_cons] at hchildren hmap ⊢
    rw [hmap]
    simp only [List.append_assoc, List.cons_append]
    rw [joined_line hopening, hchildren]

end Parts

theorem joined_write (width level : Int) {e : Element} (h : e.Everywhere KeepsLines)
    (rest : List Char) :
    joined (write (.pretty width level) e ++ rest) = write .compact e ++ joined rest := by
  induction h generalizing level rest with
  | @intro e here _ ih =>
    rw [write_eq_wrap, write_eq_wrap]
    refine joined_wrap width level (staysOnLine_opening e).1 (not_mem_closing e) ?_ ?_ ?_ ?_ rest
    · cases e <;> simp [closing]
    · intro p hp
      refine head_append_ne (here.lead hp).2 ?_
      cases p.element with
      | none => simp
      | some d => exact head_write_ne _ d
    · intro p hp after
      rw [Piece.text, Piece.text, List.append_assoc, joined_line (here.lead hp).1,
        List.append_assoc]
      congr 1
      cases hd : p.element with
      | none => rfl
      | some d => exact ih d (mem_children_of_mem_pieces hp hd) (level + 1) after
    · cases e <;> simp [pieces, closing]

end Lines

section Agreement

variable {e : Element}

theorem rendered_compact (width level : Int) (h : e.Everywhere (·.isForeign = false)) :
    rendered false width level e = .ok (write .compact e) := by
  change render .compact e = _
  rw [render, obstacle?_compact h]

theorem rendered_pretty (width level : Int) :
    rendered true width level e = render (.pretty width level) e :=
  rfl

/-- On one line an element has one text, for all widths and levels. Over lines it has one just
when its counts of spaces are in range, and the two are the same without spaces, and also with
each line break taken out together with the spaces after it where every text stays on its
line. -/
theorem layouts_agree (h : e.Everywhere (·.isForeign = false)) :
    ∃ line, (∀ width level, rendered false width level e = .ok line) ∧
      ∀ width level,
        ((∃ text, rendered true width level e = .ok text) ↔ Fits width level e) ∧
        (¬ Fits width level e → rendered true width level e = .error .countTooLarge) ∧
        ∀ text, rendered true width level e = .ok text →
          withoutSpace text = withoutSpace line ∧
            (e.Everywhere KeepsLines → joined text = line) := by
  refine ⟨write .compact e, fun width level => rendered_compact width level h,
    fun width level => ?_⟩
  obtain ⟨hfits, hfault⟩ := obstacle?_pretty width level h
  rw [rendered_pretty, render, ← hfits]
  cases hobstacle : obstacle? (.pretty width level) e with
  | some m => simp [hfault m hobstacle]
  | none =>
    refine ⟨by simp, by simp, fun text htext => ?_⟩
    obtain rfl : write (.pretty width level) e = text := by simpa using htext
    refine ⟨withoutSpace_write _ _ e, fun hlines => ?_⟩
    simpa [joined_nil] using joined_write width level hlines []

/-- A text with a line break and a space in it, beside a set with a bare text. -/
def brokenNote : Element :=
  .tuple [.scalar (.text "a\n b"), .set [.scalar (.text "x")]]

theorem layouts_agree_brokenNote :
    brokenNote.Everywhere (·.isForeign = false) ∧ brokenNote.Everywhere KeepsLines ∧
      ∃ line text, (∀ width level, rendered false width level brokenNote = .ok line) ∧
        rendered true 2 1 brokenNote = .ok text ∧ withoutSpace text = withoutSpace line ∧
          joined text = line := by
  have hknown : brokenNote.Everywhere (·.isForeign = false) := by
    refine .intro rfl fun d hd => ?_
    rcases List.mem_cons.1 hd with rfl | hd
    · exact .leaf rfl rfl
    · obtain rfl := List.mem_singleton.1 hd
      exact .leaf rfl rfl
  have hlines : brokenNote.Everywhere KeepsLines := by
    refine .intro ⟨by simp [brokenNote, Element.keys, Element.keys?],
      by simp [brokenNote, Element.words]⟩ fun d hd => ?_
    rcases List.mem_cons.1 hd with rfl | hd
    · exact .leaf ⟨by simp [Element.keys, Element.keys?], by simp [Element.words]⟩ rfl
    · obtain rfl := List.mem_singleton.1 hd
      refine .leaf ⟨by simp [Element.keys, Element.keys?], fun s hs => ?_⟩ rfl
      obtain rfl : s = "x" := by simpa [Element.words, Member.word?] using hs
      exact staysOnLine_of_forall (by simp)
  obtain ⟨line, hline, hagree⟩ := layouts_agree hknown
  obtain ⟨-, -, hsame⟩ := hagree 2 1
  have htext : rendered true 2 1 brokenNote = .ok (write (.pretty 2 1) brokenNote) := rfl
  obtain ⟨hspace, hjoined⟩ := hsame _ htext
  exact ⟨hknown, hlines, line, _, hline, htext, hspace, hjoined hlines⟩

/-- A level of more spaces than can be counted keeps even a small tuple from being written. -/
theorem not_always_rendered :
    ¬ ∀ e : Element, e.Everywhere (·.isForeign = false) → ∀ width level width' level' : Int,
      ∃ text line, rendered true width level e = .ok text ∧
        rendered false width' level' e = .ok line ∧
          withoutSpace text = withoutSpace line := by
  intro h
  have hknown : (Element.tuple [.scalar (.int 1)]).Everywhere (·.isForeign = false) := by
    refine .intro rfl fun d hd => ?_
    obtain rfl := List.mem_singleton.1 hd
    exact .leaf rfl rfl
  obtain ⟨text, -, htext, -⟩ := h _ hknown (-9223372036854775809) 0 4 0
  have hfault : rendered true (-9223372036854775809) 0 (.tuple [.scalar (.int 1)]) =
      .error .countTooLarge := rfl
  rw [hfault] at htext
  cases htext

end Agreement

end ModelData.Dat
