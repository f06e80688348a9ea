import Mathlib.Algebra.BigOperators.Group.List.Defs
import ModelData.Proofs.Dat.Spacing

/-!
The lines of an element in the layout over lines. How many levels in a line stands and what is on
it are settled by the element alone: a width and a level come in only as the spaces that are put
in front of the lines behind the first. A filled collection has its brackets on lines of its own
level, and its children begin on lines one level further in.
-/

namespace ModelData.Dat

/-- A line: the number of levels that it stands inside the element, and what is on it. -/
structure Line where
  depth : Nat
  content : List Char
deriving DecidableEq

/-- What stands behind a child in front of the given rest of the children. -/
def comma {α : Type} : List α → List Char
  | [] => []
  | _ :: _ => [',']

/-- Lines between two brackets, which come together if there are no lines. -/
def bracketed (depth : Nat) (first last : List Char) : List Line → List Line
  | [] => [⟨depth, first ++ last⟩]
  | line :: inner => ⟨depth, first⟩ :: line :: inner ++ [⟨depth, last⟩]

mutual

/-- The lines of an element so many levels in, with a text in front of what is on the first line
and one behind what is on the last. -/
def lines (depth : Nat) (lead trail : List Char) : Element → List Line
  | .scalar s => [⟨depth, lead ++ scalarLiteral s ++ trail⟩]
  | .float x => [⟨depth, lead ++ floatLiteral x ++ trail⟩]
  | .set members =>
    bracketed depth (lead ++ ['\x7b']) ('\x7d' :: trail) (memberLines (depth + 1) members)
  | .tuple items => bracketed depth (lead ++ ['<']) ('>' :: trail) (itemLines (depth + 1) items)
  | .array entries =>
    bracketed depth (lead ++ ['#', '[']) (']' :: '#' :: trail) (entryLines (depth + 1) entries)
  | .custom _ _ => [⟨depth, lead ++ trail⟩]

def memberLines (depth : Nat) : List Member → List Line
  | [] => []
  | .scalar s :: rest => ⟨depth, memberLiteral s ++ comma rest⟩ :: memberLines depth rest
  | .float x :: rest => ⟨depth, floatLiteral x ++ comma rest⟩ :: memberLines depth rest
  | .element e :: rest => lines depth [] (comma rest) e ++ memberLines depth rest

def itemLines (depth : Nat) : List Element → List Line
  | [] => []
  | e :: rest => lines depth [] (comma rest) e ++ itemLines depth rest

def entryLines (depth : Nat) : List (Binding Value Element) → List Line
  | [] => []
  | ⟨name, e⟩ :: rest => lines depth (name.chars ++ [':', ' ']) (comma rest) e
      ++ entryLines depth rest

end

/-- A line with the break in front of it and its indentation. -/
def brokenLine (width level : Nat) (line : Line) : List Char :=
  '\n' :: (List.replicate (width * (level + line.depth)) ' ' ++ line.content)

/-- The text of some lines. -/
def laid (width level : Nat) : List Line → List Char
  | [] => []
  | first :: rest => first.content ++ rest.flatMap (brokenLine width level)

/-- The text with more spaces behind each of its line breaks. -/
def deepened (spaces : Nat) (text : List Char) : List Char :=
  text.flatMap fun c => if c = '\n' then '\n' :: List.replicate spaces ' ' else [c]

section Blocks

/-- The lines of a child. -/
def Piece.lines (depth : Nat) (trail : List Char) (p : Piece) : List Line :=
  match p.element with
  | none => [⟨depth, p.lead ++ trail⟩]
  | some e => Dat.lines depth p.lead trail e

/-- The lines of the children, child by child. -/
def blocks (depth : Nat) : List Piece → List (List Line)
  | [] => []
  | p :: rest => p.lines depth (comma rest) :: blocks depth rest

theorem blocks_cons (depth : Nat) (p : Piece) (rest : List Piece) :
    blocks depth (p :: rest) = p.lines depth (comma rest) :: blocks depth rest :=
  rfl

theorem comma_map {α β : Type} (f : α → β) (xs : List α) : comma (xs.map f) = comma xs := by
  cases xs <;> rfl

theorem memberLines_eq (depth : Nat) (members : List Member) :
    memberLines depth members = (blocks depth (members.map Piece.ofMember)).flatten := by
  induction members with
  | nil => rfl
  | cons m rest ih =>
    rw [List.map_cons, blocks_cons, List.flatten_cons, ← ih, comma_map]
    cases m <;> rfl

theorem itemLines_eq (depth : Nat) (items : List Element) :
    itemLines depth items = (blocks depth (items.map fun e => ⟨[], some e⟩)).flatten := by
  induction items with
  | nil => rfl
  | cons e rest ih =>
    rw [List.map_cons, blocks_cons, List.flatten_cons, ← ih, comma_map]
    rfl

theorem entryLines_eq (depth : Nat) (entries : List Named) :
    entryLines depth entries = (blocks depth (entries.map Piece.ofEntry)).flatten := by
  induction entries with
  | nil => rfl
  | cons n rest ih =>
    obtain ⟨name, e⟩ := n
    rw [List.map_cons, blocks_cons, List.flatten_cons, ← ih, comma_map]
    rfl

/-- All kinds of elements have their lines by one rule over their pieces. -/
theorem lines_eq (depth : Nat) (lead trail : List Char) (e : Element) :
    lines depth lead trail e = bracketed depth (lead ++ opening e) (closing e ++ trail)
      (blocks (depth + 1) (pieces e)).flatten := by
  cases e with
  | scalar | float | custom => simp [lines, pieces, blocks, bracketed, opening, closing]
  | set members =>
    rw [lines, memberLines_eq]
    rfl
  | tuple items =>
    rw [lines, itemLines_eq]
    rfl
  | array entries =>
    rw [lines, entryLines_eq]
    rfl

variable {depth : Nat} {lead trail : List Char} {e : Element} {p : Piece} {ps : List Piece}

theorem bracketed_of_ne_nil (first last : List Char) {inner : List Line} (h : inner ≠ []) :
    bracketed depth first last inner = ⟨depth, first⟩ :: inner ++ [⟨depth, last⟩] := by
  cases inner with
  | nil => exact absurd rfl h
  | cons line inner => rfl

theorem exists_lines_cons (depth : Nat) (lead trail : List Char) (e : Element) :
    ∃ content rest, lines depth lead trail e = ⟨depth, lead ++ content⟩ :: rest := by
  rw [lines_eq]
  cases (blocks (depth + 1) (pieces e)).flatten with
  | nil => exact ⟨opening e ++ (closing e ++ trail), [], by simp [bracketed]⟩
  | cons line inner => exact ⟨opening e, _, rfl⟩

/-- A child begins on a line of its own depth, with what stands in front of it. -/
theorem exists_pieceLines_cons (depth : Nat) (trail : List Char) (p : Piece) :
    ∃ content rest, p.lines depth trail = ⟨depth, p.lead ++ content⟩ :: rest := by
  unfold Piece.lines
  split
  · exact ⟨trail, [], rfl⟩
  · exact exists_lines_cons depth p.lead trail _

theorem flatten_blocks_ne_nil (h : ps ≠ []) : (blocks depth ps).flatten ≠ [] := by
  obtain ⟨p, rest, rfl⟩ := List.exists_cons_of_ne_nil h
  obtain ⟨content, inner, hlines⟩ := exists_pieceLines_cons depth (comma rest) p
  simp [blocks_cons, hlines]

theorem lines_of_filled (lead trail : List Char) (h : pieces e ≠ []) :
    lines depth lead trail e = ⟨depth, lead ++ opening e⟩
      :: (blocks (depth + 1) (pieces e)).flatten ++ [⟨depth, closing e ++ trail⟩] := by
  rw [lines_eq, bracketed_of_ne_nil _ _ (flatten_blocks_ne_nil h)]

theorem lines_of_hollow (lead trail : List Char) (h : pieces e = []) :
    lines depth lead trail e = [⟨depth, lead ++ opening e ++ (closing e ++ trail)⟩] := by
  rw [lines_eq, h]
  rfl

end Blocks

section Texts

variable {width level depth : Nat} {ps : List Piece}

/-- The layout so many levels in. -/
def layoutAt (width level depth : Nat) : Layout :=
  .pretty width (level + depth : Nat)

theorem inner_layoutAt : (layoutAt width level depth).inner = layoutAt width level (depth + 1) :=
  rfl

theorem wrap_layoutAt (opening closing : List Char) {parts : List (List Char)}
    (h : parts ≠ []) :
    (layoutAt width level depth).wrap opening closing parts =
      opening ++ '\n' :: [',', '\n'].intercalate
          (parts.map (List.replicate (width * (level + (depth + 1))) ' ' ++ ·))
        ++ '\n' :: List.replicate (width * (level + depth)) ' ' ++ closing := by
  obtain ⟨part, rest, rfl⟩ := List.exists_cons_of_ne_nil h
  rfl

/-- Lines behind a break: the break, the indentation of the first of them, and their text. -/
theorem flatMap_brokenLine (content : List Char) (rest : List Line) :
    (⟨depth, content⟩ :: rest).flatMap (brokenLine width level) =
      '\n' :: (List.replicate (width * (level + depth)) ' '
        ++ laid width level (⟨depth, content⟩ :: rest)) := by
  simp [brokenLine, laid]

theorem flatMap_pieceLines {p : Piece} {trail : List Char}
    (h : laid width level (p.lines depth trail) = p.text (layoutAt width level depth) ++ trail) :
    (p.lines depth trail).flatMap (brokenLine width level) =
      '\n' :: (List.replicate (width * (level + depth)) ' '
        ++ p.text (layoutAt width level depth) ++ trail) := by
  obtain ⟨content, rest, hlines⟩ := exists_pieceLines_cons depth trail p
  rw [hlines] at h ⊢
  rw [flatMap_brokenLine, h, List.append_assoc]

/-- The children with their breaks, if each of them is the text of its lines. -/
theorem flatMap_blocks (hne : ps ≠ [])
    (h : ∀ p ∈ ps, ∀ trail,
      laid width level (p.lines depth trail) = p.text (layoutAt width level depth) ++ trail) :
    (blocks depth ps).flatten.flatMap (brokenLine width level) =
      '\n' :: [',', '\n'].intercalate ((ps.map (Piece.text (layoutAt width level depth))).map
        (List.replicate (width * (level + depth)) ' ' ++ ·)) := by
  induction ps with
  | nil => exact absurd rfl hne
  | cons p rest ih =>
    rw [blocks_cons, List.flatten_cons, List.flatMap_append, flatMap_pieceLines (h p (by simp) _)]
    cases rest with
    | nil => simp [blocks, comma]
    | cons q rest =>
      rw [ih (by simp) fun r hr => h r (List.mem_cons_of_mem p hr)]
      simp [comma, List.intercalate_cons_cons]

/-- The lines of an element have the text that is written for it over lines. -/
theorem laid_lines (width level depth : Nat) (lead trail : List Char) (e : Element) :
    laid width level (lines depth lead trail e) =
      lead ++ write (layoutAt width level depth) e ++ trail := by
  induction e using Element.childInduction generalizing depth lead trail with
  | step e ih =>
    -- a child is the text of its own lines, with the comma behind it on the last of them
    have hpieces : ∀ p ∈ pieces e, ∀ trail, laid width level (p.lines (depth + 1) trail) =
        p.text (layoutAt width level (depth + 1)) ++ trail := by
      intro p hp trail
      unfold Piece.lines Piece.text
      cases hd : p.element with
      | none => simp [laid]
      | some d => exact ih d (mem_children_of_mem_pieces hp hd) (depth + 1) p.lead trail
    rw [write_eq_wrap, inner_layoutAt]
    by_cases hne : pieces e = []
    · rw [lines_of_hollow lead trail hne, hne]
      simp [laid, Layout.wrap]
    · rw [lines_of_filled lead trail hne, wrap_layoutAt _ _ (by simpa using hne), List.cons_append,
        laid, List.flatMap_append, flatMap_blocks hne hpieces]
      simp [brokenLine]

end Texts

section Contents

variable {depth : Nat} {lead trail : List Char} {e : Element} {ps : List Piece}

theorem exists_of_mem_blocks {block : List Line} (h : block ∈ blocks depth ps) :
    ∃ p ∈ ps, ∃ rest : List Piece, block = p.lines depth (comma rest) := by
  induction ps with
  | nil => exact absurd h List.not_mem_nil
  | cons p rest ih =>
    rcases List.mem_cons.1 h with rfl | h
    · exact ⟨p, List.mem_cons_self, rest, rfl⟩
    · obtain ⟨q, hq, more, hblock⟩ := ih h
      exact ⟨q, List.mem_cons_of_mem p hq, more, hblock⟩

theorem exists_mem_blocks (depth : Nat) {p : Piece} (h : p ∈ ps) :
    ∃ rest : List Piece, p.lines depth (comma rest) ∈ blocks depth ps := by
  induction ps with
  | nil => simp at h
  | cons q rest ih =>
    rcases List.mem_cons.1 h with rfl | h
    · exact ⟨rest, List.mem_cons_self⟩
    · obtain ⟨more, hmore⟩ := ih h
      exact ⟨more, List.mem_cons_of_mem _ hmore⟩

/-- What holds of the lines of literals and brackets and is handed on from the lines of the
children holds of all lines. -/
theorem forall_lines {q : Line → Prop}
    (hhollow : pieces e = [] → q ⟨depth, lead ++ opening e ++ (closing e ++ trail)⟩)
    (hopening : q ⟨depth, lead ++ opening e⟩) (hclosing : q ⟨depth, closing e ++ trail⟩)
    (hpieces : ∀ p ∈ pieces e, ∀ rest : List Piece, ∀ line ∈ p.lines (depth + 1) (comma rest),
      q line) :
    ∀ line ∈ lines depth lead trail e, q line := by
  intro line hline
  by_cases hne : pieces e = []
  · rw [lines_of_hollow lead trail hne, List.mem_singleton] at hline
    exact hline ▸ hhollow hne
  · rw [lines_of_filled lead trail hne, List.mem_append, List.mem_cons, List.mem_flatten,
      List.mem_singleton] at hline
    rcases hline with (rfl | ⟨block, hblock, hline⟩) | rfl
    · exact hopening
    · obtain ⟨p, hp, rest, rfl⟩ := exists_of_mem_blocks hblock
      exact hpieces p hp rest line hline
    · exact hclosing

theorem StaysOnLine.append {s t : List Char} (hs : StaysOnLine s) (ht : StaysOnLine t) :
    StaysOnLine (s ++ t) :=
  ⟨by simp [hs.1, ht.1], head_append_ne hs.2 ht.2⟩

theorem staysOnLine_nil : StaysOnLine [] :=
  staysOnLine_of_forall (by simp)

theorem staysOnLine_closing (e : Element) : StaysOnLine (closing e) := by
  cases e <;> exact staysOnLine_of_forall (by simp [closing])

theorem staysOnLine_comma {α : Type} (rest : List α) : StaysOnLine (comma rest) := by
  cases rest <;> exact staysOnLine_of_forall (by simp [comma])

/-- No line is broken by what is on it, and none begins with a space. -/
theorem staysOnLine_lines (h : e.Everywhere KeepsLines) (hlead : StaysOnLine lead)
    (htrail : StaysOnLine trail) :
    ∀ line ∈ lines depth lead trail e, StaysOnLine line.content := by
  induction h generalizing depth lead trail with
  | @intro e here _ ih =>
    have hopening := hlead.append (staysOnLine_opening e)
    have hclosing := (staysOnLine_closing e).append htrail
    refine forall_lines (fun _ => hopening.append hclosing) hopening hclosing
      fun p hp rest line hline => ?_
    unfold Piece.lines at hline
    split at hline
    · obtain rfl := List.mem_singleton.1 hline
      exact (here.lead hp).append (staysOnLine_comma rest)
    · next d hd =>
      exact ih d (mem_children_of_mem_pieces hp hd) (here.lead hp) (staysOnLine_comma rest) line
        hline

theorem le_depth_pieceLines {p : Piece}
    (h : ∀ d, p.element = some d → ∀ lead trail, ∀ line ∈ lines depth lead trail d,
      depth ≤ line.depth) :
    ∀ line ∈ p.lines depth trail, depth ≤ line.depth := by
  intro line hline
  unfold Piece.lines at hline
  split at hline
  · exact Nat.le_of_eq (congrArg Line.depth (List.mem_singleton.1 hline)).symm
  · next d hd => exact h d hd p.lead trail line hline

/-- No line of an element stands further out than the element. -/
theorem le_depth_lines (depth : Nat) (lead trail : List Char) (e : Element) :
    ∀ line ∈ lines depth lead trail e, depth ≤ line.depth := by
  induction e using Element.childInduction generalizing depth lead trail with
  | step e ih =>
    refine forall_lines (fun _ => Nat.le_refl depth) (Nat.le_refl depth) (Nat.le_refl depth)
      fun p hp rest line hline => Nat.le_of_succ_le ?_
    refine le_depth_pieceLines (fun d hd lead trail => ?_) line hline
    exact ih d (mem_children_of_mem_pieces hp hd) (depth + 1) lead trail

/-- The lines of what lies inside an element are among its lines, one behind the other. -/
theorem exists_lines_infix {k : Nat} {d : Element} (h : Element.AtDepth k d e) (depth : Nat)
    (lead trail : List Char) :
    ∃ lead' trail', lines (depth + k) lead' trail' d <:+: lines depth lead trail e := by
  induction h generalizing depth lead trail with
  | here e => exact ⟨lead, trail, List.infix_refl _⟩
  | @inside k c d e hd _ ih =>
    rw [children_eq_pieces] at hd
    obtain ⟨p, hp, hpd⟩ := List.mem_filterMap.1 hd
    obtain ⟨rest, hblock⟩ := exists_mem_blocks (depth + 1) hp
    obtain ⟨lead', trail', hinner⟩ := ih (depth + 1) p.lead (comma rest)
    have hpiece : p.lines (depth + 1) (comma rest) = lines (depth + 1) p.lead (comma rest) d := by
      simp only [Piece.lines, hpd]
    have hblocks := List.infix_of_mem_flatten hblock
    rw [hpiece] at hblocks
    refine ⟨lead', trail', ?_⟩
    rw [Nat.add_right_comm depth 1 k] at hinner
    rw [lines_of_filled lead trail (List.ne_nil_of_mem hp)]
    exact (hinner.trans hblocks).trans ⟨[⟨depth, lead ++ opening e⟩], _, rfl⟩

end Contents

section Counts

variable {depth : Nat} {e : Element}

/-- For each filled collection in an element the number of its children and one more. -/
def breakCount (e : Element) : Nat :=
  ((e.nodes.filter Element.isFilled).map fun d => d.count?.getD 0 + 1).sum

theorem length_pieces (e : Element) : (pieces e).length = e.count?.getD 0 := by
  cases e <;> simp [pieces, Element.count?]

theorem isFilled_iff_pieces : e.isFilled = true ↔ pieces e ≠ [] := by
  cases e <;> simp [Element.isFilled, pieces, Element.count?]

theorem breakCount_eq (e : Element) :
    breakCount e = (if pieces e = [] then 0 else (pieces e).length + 1)
      + (((pieces e).filterMap Piece.element).map breakCount).sum := by
  have hinside : (((e.children.flatMap Element.nodes).filter Element.isFilled).map
      fun d => d.count?.getD 0 + 1).sum = (e.children.map breakCount).sum := by
    rw [List.filter_flatMap, List.map_flatMap, List.flatMap_def, List.sum_flatten, List.map_map]
    rfl
  rw [← children_eq_pieces, ← hinside, breakCount, Element.nodes_eq, List.filter_cons]
  by_cases hne : pieces e = []
  · rw [if_neg (fun h => isFilled_iff_pieces.1 h hne), if_pos hne, Nat.zero_add]
  · rw [if_pos (isFilled_iff_pieces.2 hne), if_neg hne, List.map_cons, List.sum_cons,
      length_pieces]

theorem length_blocks {ps : List Piece}
    (h : ∀ p ∈ ps, ∀ d, p.element = some d → ∀ lead trail,
      (lines depth lead trail d).length = breakCount d + 1) :
    (blocks depth ps).flatten.length =
      ps.length + ((ps.filterMap Piece.element).map breakCount).sum := by
  induction ps with
  | nil => rfl
  | cons p rest ih =>
    have hrest := ih fun q hq => h q (List.mem_cons_of_mem p hq)
    rw [blocks_cons, List.flatten_cons, List.length_append, hrest, List.length_cons, Piece.lines]
    cases hd : p.element with
    | none =>
      rw [List.filterMap_cons_none hd, List.length_singleton]
      omega
    | some d =>
      rw [List.filterMap_cons_some hd, List.map_cons, List.sum_cons,
        h p List.mem_cons_self d hd]
      omega

/-- There is one line, and one more for each break. -/
theorem length_lines (depth : Nat) (lead trail : List Char) (e : Element) :
    (lines depth lead trail e).length = breakCount e + 1 := by
  induction e using Element.childInduction generalizing depth lead trail with
  | step e ih =>
    rw [breakCount_eq]
    by_cases hne : pieces e = []
    · rw [lines_of_hollow lead trail hne, hne]
      rfl
    · have hblocks : (blocks (depth + 1) (pieces e)).flatten.length = _ := length_blocks
        fun p hp d hd => ih d (mem_children_of_mem_pieces hp hd) (depth + 1)
      rw [lines_of_filled lead trail hne, if_neg hne, List.length_append, List.length_cons, hblocks,
        List.length_singleton]
      omega

end Counts

section Breaks

variable {width level : Nat} {ls : List Line}

theorem count_brokenLine {line : Line} (h : '\n' ∉ line.content) :
    (brokenLine width level line).count '\n' = 1 := by
  simp [brokenLine, List.count_eq_zero_of_not_mem h, List.count_replicate]

theorem count_brokenLines (h : ∀ line ∈ ls, '\n' ∉ line.content) :
    (ls.flatMap (brokenLine width level)).count '\n' = ls.length := by
  induction ls with
  | nil => rfl
  | cons line rest ih =>
    rw [List.flatMap_cons, List.count_append, count_brokenLine (h line List.mem_cons_self),
      ih fun other hother => h other (List.mem_cons_of_mem line hother), List.length_cons,
      Nat.add_comm]

theorem count_laid (width level : Nat) (hne : ls ≠ []) (h : ∀ line ∈ ls, '\n' ∉ line.content) :
    (laid width level ls).count '\n' + 1 = ls.length := by
  obtain ⟨first, rest, rfl⟩ := List.exists_cons_of_ne_nil hne
  rw [laid, List.count_append, List.count_eq_zero_of_not_mem (h first List.mem_cons_self),
    count_brokenLines fun line hline => h line (List.mem_cons_of_mem first hline), Nat.zero_add,
    List.length_cons]

theorem deepened_append (spaces : Nat) (s t : List Char) :
    deepened spaces (s ++ t) = deepened spaces s ++ deepened spaces t :=
  List.flatMap_append

theorem deepened_line (spaces : Nat) {text : List Char} (h : '\n' ∉ text) :
    deepened spaces text = text := by
  induction text with
  | nil => rfl
  | cons c text ih =>
    have hc : c ≠ '\n' := fun heq => h (by simp [heq])
    rw [deepened, List.flatMap_cons, if_neg hc, ← deepened,
      ih fun hmem => h (List.mem_cons_of_mem c hmem), List.singleton_append]

theorem deepened_brokenLine (deeper : Nat) {line : Line} (h : '\n' ∉ line.content) :
    deepened (width * deeper) (brokenLine width level line) =
      brokenLine width (level + deeper) line := by
  have hspaces : '\n' ∉ List.replicate (width * (level + line.depth)) ' ' := by
    simp [List.mem_replicate]
  have hsum : width * (level + deeper + line.depth) =
      width * deeper + width * (level + line.depth) := by ring
  have hbreak : deepened (width * deeper) ['\n'] =
      '\n' :: List.replicate (width * deeper) ' ' := by simp [deepened]
  rw [brokenLine, ← List.singleton_append, deepened_append, deepened_append, hbreak,
    deepened_line _ hspaces, deepened_line _ h, brokenLine, hsum,
    ← List.replicate_append_replicate, List.append_assoc, List.cons_append]

/-- Lines further in are the same lines with more spaces behind each break. -/
theorem deepened_laid (deeper : Nat) (h : ∀ line ∈ ls, '\n' ∉ line.content) :
    deepened (width * deeper) (laid width level ls) = laid width (level + deeper) ls := by
  cases ls with
  | nil => rfl
  | cons first rest =>
    rw [laid, laid, deepened_append, deepened_line _ (h first List.mem_cons_self)]
    congr 1
    rw [deepened, List.flatMap_assoc, List.flatMap_def, List.flatMap_def]
    congr 1
    exact List.map_congr_left fun line hline =>
      deepened_brokenLine deeper (h line (List.mem_cons_of_mem first hline))

end Breaks

section Frames

variable {depth : Nat} {e : Element}

/-- The lines of a child begin so many levels in with what stands in front of the child, and none
of them stands further out. -/
def BeginsAt (depth : Nat) (p : Piece) (part : List Line) : Prop :=
  ∃ content rest, part = ⟨depth, p.lead ++ content⟩ :: rest ∧ ∀ line ∈ rest, depth ≤ line.depth

/-- Lines that begin with the opening bracket of an element and end with its closing bracket, both
so many levels in, and between them have the lines of the children, one level further in. -/
def Framed (depth : Nat) (e : Element) (block : List Line) : Prop :=
  ∃ lead trail parts, List.Forall₂ (BeginsAt (depth + 1)) (pieces e) parts ∧
    block = ⟨depth, lead ++ opening e⟩ :: parts.flatten ++ [⟨depth, closing e ++ trail⟩]

theorem beginsAt_pieceLines (depth : Nat) (trail : List Char) (p : Piece) :
    BeginsAt depth p (p.lines depth trail) := by
  obtain ⟨content, rest, hlines⟩ := exists_pieceLines_cons depth trail p
  have hdepths : ∀ line ∈ p.lines depth trail, depth ≤ line.depth :=
    le_depth_pieceLines fun d _ lead trail => le_depth_lines depth lead trail d
  exact ⟨content, rest, hlines, fun line hline =>
    hdepths line (hlines ▸ List.mem_cons_of_mem _ hline)⟩

theorem beginsAt_blocks (depth : Nat) (ps : List Piece) :
    List.Forall₂ (BeginsAt depth) ps (blocks depth ps) := by
  induction ps with
  | nil => exact .nil
  | cons p rest ih => exact .cons (beginsAt_pieceLines depth (comma rest) p) ih

theorem framed_lines (lead trail : List Char) (h : e.isFilled = true) :
    Framed depth e (lines depth lead trail e) :=
  ⟨lead, trail, blocks (depth + 1) (pieces e), beginsAt_blocks _ _,
    lines_of_filled lead trail (isFilled_iff_pieces.1 h)⟩

end Frames

/-- The counts of spaces that the filled collections in an element ask for are in range. -/
def Indentable (width level : Nat) (e : Element) : Prop :=
  ∀ (k : Nat) (d : Element), Element.AtDepth k d e → d.isFilled = true →
    width * (level + k + 1) < 2 ^ 63

section Rendering

variable {e : Element}

theorem isCount_natCast (n : Nat) : isCount n = true ↔ n < 2 ^ 63 := by
  have hlimit : countLimit = ((2 ^ 63 : Nat) : Int) := rfl
  rw [isCount, Bool.and_eq_true, decide_eq_true_eq, decide_eq_true_eq, hlimit]
  omega

/-- Of the counts of a filled collection the one for its children is the larger. -/
theorem fits_iff_indentable {width level : Nat} :
    Fits width level e ↔ Indentable width level e := by
  have hcounts (k : Nat) : (isCount (width * (level + k)) = true ∧
      isCount (width * (level + k + 1)) = true) ↔ width * (level + k + 1) < 2 ^ 63 := by
    have houter := isCount_natCast (width * (level + k))
    have hinner := isCount_natCast (width * (level + k + 1))
    push_cast at houter hinner
    rw [houter, hinner]
    have hle : width * (level + k) ≤ width * (level + k + 1) := Nat.mul_le_mul_left _ (by omega)
    omega
  exact forall_congr' fun k => forall_congr' fun d => imp_congr_right fun _ => imp_congr_right
    fun _ => hcounts k

theorem Indentable.of_le {width level level' : Nat} (h : Indentable width level' e)
    (hle : level ≤ level') : Indentable width level e := by
  intro k d hd hfilled
  exact Nat.lt_of_le_of_lt (Nat.mul_le_mul_left _ (by omega)) (h k d hd hfilled)

theorem rendered_eq_laid (hknown : e.Everywhere (·.isForeign = false)) {width level : Nat}
    (h : Indentable width level e) :
    rendered true width level e = .ok (laid width level (lines 0 [] [] e)) := by
  have hnone := (obstacle?_pretty width level hknown).1.2 (fits_iff_indentable.2 h)
  rw [rendered_pretty, render, hnone, laid_lines]
  simp [layoutAt]

theorem rendered_eq_error (hknown : e.Everywhere (·.isForeign = false)) {width level : Nat}
    (h : ¬ Indentable width level e) : rendered true width level e = .error .countTooLarge := by
  obtain ⟨hfits, hfault⟩ := obstacle?_pretty width level hknown
  rw [fits_iff_indentable] at hfits
  rw [rendered_pretty, render]
  cases hobstacle : obstacle? (.pretty width level) e with
  | none => exact absurd (hfits.1 hobstacle) h
  | some m => rw [hfault m hobstacle]

/-- What is written over lines is there only if it can be indented, and is the text of the lines
then. -/
theorem rendered_eq_ok (hknown : e.Everywhere (·.isForeign = false)) {width level : Nat}
    {text : List Char} (h : rendered true width level e = .ok text) :
    Indentable width level e ∧ text = laid width level (lines 0 [] [] e) := by
  by_cases hfits : Indentable width level e
  · rw [rendered_eq_laid hknown hfits] at h
    exact ⟨hfits, (Except.ok.inj h).symm⟩
  · rw [rendered_eq_error hknown hfits] at h
    cases h

/-- Over lines an element has the text of its own lines, which are the same for all widths and
levels, or the counts of spaces are out of range. No line is broken or begins with a space, each
filled collection has its brackets on its own level and its children one level further in, and
there are as many breaks as filled collections and children of these. A level further in, each
break is followed by so many more spaces. -/
theorem rendered_lines (hknown : e.Everywhere (·.isForeign = false))
    (hlines : e.Everywhere KeepsLines) :
    (∀ width level : Nat,
      (Indentable width level e →
        rendered true width level e = .ok (laid width level (lines 0 [] [] e))) ∧
      (¬ Indentable width level e → rendered true width level e = .error .countTooLarge)) ∧
    (∀ line ∈ lines 0 [] [] e, StaysOnLine line.content) ∧
    (∀ k d, Element.AtDepth k d e → d.isFilled = true →
      ∃ block, block <:+: lines 0 [] [] e ∧ Framed k d block) ∧
    (∀ (width level : Nat) text, rendered true width level e = .ok text →
      text.count '\n' = breakCount e) ∧
    ∀ (width level deeper : Nat) text, rendered true width (level + deeper : Nat) e = .ok text →
      ∃ outer, rendered true width level e = .ok outer ∧ text = deepened (width * deeper) outer := by
  have hstays : ∀ line ∈ lines 0 [] [] e, StaysOnLine line.content :=
    staysOnLine_lines hlines staysOnLine_nil staysOnLine_nil
  have hunbroken : ∀ line ∈ lines 0 [] [] e, '\n' ∉ line.content := fun line hline =>
    (hstays line hline).1
  refine ⟨fun width level => ⟨rendered_eq_laid hknown, rendered_eq_error hknown⟩, hstays,
    fun k d hd hfilled => ?_, fun width level text htext => ?_,
    fun width level deeper text htext => ?_⟩
  · obtain ⟨lead, trail, hinfix⟩ := exists_lines_infix hd 0 [] []
    rw [Nat.zero_add] at hinfix
    exact ⟨_, hinfix, framed_lines lead trail hfilled⟩
  · obtain ⟨-, rfl⟩ := rendered_eq_ok hknown htext
    obtain ⟨content, rest, hcons⟩ := exists_lines_cons 0 [] [] e
    have hcount := count_laid width level (by simp [hcons]) hunbroken
    rw [length_lines] at hcount
    exact Nat.succ.inj hcount
  · obtain ⟨hfits, rfl⟩ := rendered_eq_ok hknown htext
    have houter := hfits.of_le (Nat.le_add_right level deeper)
    exact ⟨_, rendered_eq_laid hknown houter, (deepened_laid deeper hunbroken).symm⟩

theorem keepsLines_of_wordless (hkeys : e.keys = []) (hwords : e.words = []) : KeepsLines e := by
  simp [KeepsLines, hkeys, hwords]

/-- An array in which a filled tuple and an empty set have names. -/
def rows : Element :=
  .array [⟨.text "k", .tuple [.scalar (.int 1), .scalar (.text "a b")]⟩, ⟨.text "none", .set []⟩]

theorem rendered_lines_rows :
    rows.Everywhere (·.isForeign = false) ∧ rows.Everywhere KeepsLines ∧
      rendered true 2 1 rows = .ok (laid 2 1 [⟨0, "#[".toList⟩, ⟨1, "k: <".toList⟩,
        ⟨2, "1,".toList⟩, ⟨2, "\"a b\"".toList⟩, ⟨1, ">,".toList⟩, ⟨1, "none: \x7b\x7d".toList⟩,
        ⟨0, "]#".toList⟩]) := by
  have hknown : rows.Everywhere (·.isForeign = false) := by
    refine .intro rfl fun d hd => ?_
    rcases List.mem_cons.1 hd with rfl | hd
    · refine .intro rfl fun c hc => ?_
      rcases List.mem_cons.1 hc with rfl | hc
      · exact .leaf rfl rfl
      · obtain rfl := List.mem_singleton.1 hc
        exact .leaf rfl rfl
    · obtain rfl := List.mem_singleton.1 hd
      exact .leaf rfl rfl
  have hlines : rows.Everywhere KeepsLines := by
    refine .intro ⟨?_, by simp [rows, Element.words]⟩ fun d hd => ?_
    · intro name hname
      rcases List.mem_cons.1 hname with rfl | hname
      · exact staysOnLine_of_forall (by simp [Value.chars])
      · obtain rfl := List.mem_singleton.1 hname
        exact staysOnLine_of_forall (by simp [Value.chars])
    rcases List.mem_cons.1 hd with rfl | hd
    · refine .intro (keepsLines_of_wordless rfl rfl) fun c hc => ?_
      rcases List.mem_cons.1 hc with rfl | hc
      · exact .leaf (keepsLines_of_wordless rfl rfl) rfl
      · obtain rfl := List.mem_singleton.1 hc
        exact .leaf (keepsLines_of_wordless rfl rfl) rfl
    · obtain rfl := List.mem_singleton.1 hd
      exact .leaf (keepsLines_of_wordless rfl rfl) rfl
  have hfits : Indentable 2 1 rows :=
    fits_iff_indentable.1 ((obstacle?_pretty (2 : Nat) (1 : Nat) hknown).1.1 rfl)
  obtain ⟨hlaid, -⟩ := rendered_lines hknown hlines
  exact ⟨hknown, hlines, (hlaid 2 1).1 hfits⟩

/-- A width of more spaces than can be counted keeps even a small tuple from having lines. -/
theorem not_always_laid :
    ¬ ∀ e : Element, e.Everywhere (·.isForeign = false) → e.Everywhere KeepsLines →
      ∃ ls, ∀ width level : Nat, rendered true width level e = .ok (laid width level ls) := by
  intro h
  have hknown : (Element.tuple [.scalar (.int 1)]).Everywhere (·.isForeign = false) := by
    refine .intro rfl fun d hd => ?_
    obtain rfl := List.mem_singleton.1 hd
    exact .leaf rfl rfl
  have hlines : (Element.tuple [.scalar (.int 1)]).Everywhere KeepsLines := by
    refine .intro (keepsLines_of_wordless rfl rfl) fun d hd => ?_
    obtain rfl := List.mem_singleton.1 hd
    exact .leaf (keepsLines_of_wordless rfl rfl) rfl
  obtain ⟨ls, hall⟩ := h _ hknown hlines
  have hfault : rendered true ((2 ^ 63 : Nat) : Int) ((0 : Nat) : Int)
      (.tuple [.scalar (.int 1)]) = .error .countTooLarge := rfl
  have htext := hall (2 ^ 63) 0
  rw [hfault] at htext
  cases htext

end Rendering

end ModelData.Dat
