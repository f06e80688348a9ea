import ModelData.Dat.File
import ModelData.Proofs.Report.Parts

/-!
Where the comment at the top of a data file ends. The title cannot hold the mark that ends a
comment and the report lists the lines that hold it, but nothing is asked of the time of writing:
the comment ends where it should just when the mark is not in the time as it is written.
-/

namespace ModelData.Dat

variable {d : Document} {now : Moment}

/-- The lines of the comment without the row of stars that closes it. -/
def commentLines (d : Document) (now : Moment) : List (List Char) :=
  ('/' :: stars)
    :: commentLine d.config.bannerTitle.toList
    :: d.headerLines.map (fun line => commentLine line.chars)
    ++ [commentLine ("Creation Date: ".toList ++ (timestamp d now).toList)]

/-- The header up to the mark that ends the comment. -/
def comment (d : Document) (now : Moment) : List Char :=
  (commentLines d now).flatMap (· ++ ['\n']) ++ ' ' :: List.replicate 53 '*'

theorem header_eq_comment (d : Document) (now : Moment) :
    header d now = comment d now ++ commentEnd ++ ['\n', '\n'] := by
  have hlines : header d now = ['\n'].intercalate
      (commentLines d now ++ [' ' :: stars ++ ['/']]) ++ ['\n', '\n'] := by
    simp only [header, commentLines, List.append_assoc, List.singleton_append]
  have hclosing : ' ' :: stars ++ ['/'] = ' ' :: List.replicate 53 '*' ++ commentEnd := by
    decide
  rw [hlines, intercalate_concat, hclosing, comment]
  simp only [List.append_assoc]

section Marks

variable {text : List Char}

theorem commentLine_closes_iff : commentEnd <:+: commentLine text ↔ commentEnd <:+: text := by
  have hspace : ' ' ∉ commentEnd := by decide
  have hstart : ¬ commentEnd <:+: [' ', '*'] := by decide
  change commentEnd <:+: [' ', '*'] ++ ' ' :: text ↔ _
  rw [infix_append_cons_iff hspace, or_iff_right hstart]

theorem dateLine_closes_iff :
    commentEnd <:+: commentLine ("Creation Date: ".toList ++ text) ↔ commentEnd <:+: text := by
  have hspace : ' ' ∉ commentEnd := by decide
  have hstart : ¬ commentEnd <:+: "Creation Date:".toList := by decide
  have hwords : "Creation Date: ".toList = "Creation Date:".toList ++ [' '] := by decide
  rw [commentLine_closes_iff, hwords, List.append_assoc, List.singleton_append,
    infix_append_cons_iff hspace, or_iff_right hstart]

theorem title_unclosed (c : Config) : ¬ commentEnd <:+: c.bannerTitle.toList := by
  rw [← closesComment_iff, c.title_open]
  exact Bool.false_ne_true

/-- If no line of the document holds the mark, the comment holds it only in the time. -/
theorem commentLines_close_iff
    (hlines : ∀ line ∈ d.headerLines, ¬ commentEnd <:+: line.chars) :
    (∃ line ∈ commentLines d now, commentEnd <:+: line) ↔
      commentEnd <:+: (timestamp d now).toList := by
  constructor
  · rintro ⟨line, hline, hcloses⟩
    rw [commentLines, List.mem_append, List.mem_singleton, List.mem_cons, List.mem_cons,
      List.mem_map] at hline
    rcases hline with (rfl | rfl | ⟨v, hv, rfl⟩) | rfl
    · exact absurd hcloses (by decide)
    · exact absurd (commentLine_closes_iff.1 hcloses) (title_unclosed d.config)
    · exact absurd (commentLine_closes_iff.1 hcloses) (hlines v hv)
    · exact dateLine_closes_iff.1 hcloses
  · intro htime
    exact ⟨_, List.mem_append_right _ List.mem_cons_self, dateLine_closes_iff.2 htime⟩

end Marks

/-- The mark first occurs where the comment ends just when it is not in the time. -/
theorem first_mark_iff (hlines : ∀ line ∈ d.headerLines, ¬ commentEnd <:+: line.chars)
    (rest : List Char) :
    (∀ p s, header d now ++ rest = p ++ commentEnd ++ s → (comment d now).length ≤ p.length) ↔
      ¬ commentEnd <:+: (timestamp d now).toList := by
  have hstars : ¬ commentEnd <:+: ' ' :: stars := by decide
  have hbefore : comment d now ++ ['*'] =
      (commentLines d now).flatMap (· ++ ['\n']) ++ ' ' :: stars := by
    rw [comment, List.append_assoc]
    rfl
  have hafter : header d now ++ rest =
      comment d now ++ (['*'] ++ ['/']) ++ (['\n', '\n'] ++ rest) := by
    rw [header_eq_comment, List.append_assoc]
    rfl
  rw [hafter]
  refine (first_occurrence_iff ['*'] _ _ '/').trans (not_congr ?_)
  change commentEnd <:+: _ ↔ _
  rw [hbefore, infix_lines_iff (by decide), or_iff_left hstars, commentLines_close_iff hlines]

/-- A document written after a report that lists no line: the file is the header and the body,
and the comment ends where the header has it end just when the mark is not in the time. -/
theorem comment_ends_once_iff {r : Report} {choice : Value} {rest : List Char}
    (hlines : ∀ line ∈ d.headerLines, ∃ s, line = .text s) (hreport : Report.ofDocument d = .ok r)
    (hsafe : r.unsafeLines = []) (hbody : body d choice = .ok rest) :
    header d now = comment d now ++ commentEnd ++ ['\n', '\n'] ∧
      file d choice now = .ok (header d now ++ rest) ∧
      ((∀ p s, header d now ++ rest = p ++ commentEnd ++ s → (comment d now).length ≤ p.length) ↔
        ¬ commentEnd <:+: (timestamp d now).toList) := by
  have hunclosed : ∀ line ∈ d.headerLines, ¬ commentEnd <:+: line.chars := by
    have hclosing := (Report.describes_of_ofDocument hreport).unsafeLines
    intro line hline
    obtain ⟨s, rfl⟩ := hlines line hline
    exact (Report.closingLines_eq_nil_iff hlines hclosing).1 hsafe s hline
  refine ⟨header_eq_comment d now, ?_, first_mark_iff hunclosed rest⟩
  rw [file, hbody]
  rfl

/-- A document whose pattern for the time holds the mark. -/
def stamped : Document where
  headerLines := [.text "plan"]
  config := { Config.standard with timestampFormat := "%Y */" }

def secondOfJanuary : Moment :=
  ⟨⟨2026, 1, 2⟩, 3, 4, 5, 0, some 0, none⟩

/-- No line is listed, and yet the comment ends before it should. -/
theorem comment_ends_once_iff_stamped :
    ∃ r, Report.ofDocument stamped = .ok r ∧ r.unsafeLines = [] ∧
      body stamped .null = .ok [] ∧
      ¬ ∀ p s, header stamped secondOfJanuary ++ [] = p ++ commentEnd ++ s →
        (comment stamped secondOfJanuary).length ≤ p.length := by
  have htextual : stamped.Textual :=
    { names := by simp [stamped], keys := by simp [stamped], lines := by simp [stamped] }
  have hopen : ∀ s, Value.text s ∈ stamped.headerLines → ¬ commentEnd <:+: s.toList := by
    intro s hs
    cases List.mem_singleton.1 hs
    decide
  obtain ⟨r, hr⟩ := Report.exists_report htextual
  have hclosing := (Report.describes_of_ofDocument hr).unsafeLines
  have hsafe := (Report.closingLines_eq_nil_iff htextual.lines hclosing).2 hopen
  have htime : commentEnd <:+: (timestamp stamped secondOfJanuary).toList := by decide
  have hbody : body stamped .null = .ok [] := rfl
  obtain ⟨-, -, hends⟩ := comment_ends_once_iff htextual.lines hr hsafe hbody
  exact ⟨r, hr, hsafe, hbody, fun hall => hends.1 hall htime⟩

end ModelData.Dat
