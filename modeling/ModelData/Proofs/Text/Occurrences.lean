import Mathlib.Data.List.Infix
import ModelData.Config
import ModelData.Proofs.Text.Lists

/-! Where a mark occurs in a text. A mark never lies across a character that is not in it, so the
lines of a text can be searched one by one. -/

namespace ModelData

variable {α : Type} {c : α} {mark xs ys : List α}

theorem occursIn_iff {part text : List Char} : occursIn part text = true ↔ part <:+: text := by
  induction text with
  | nil => simp [occursIn]
  | cons c rest ih =>
    rw [occursIn, Bool.or_eq_true, List.isPrefixOf_iff_prefix, ih, List.infix_cons_iff]

theorem closesComment_iff {s : String} :
    closesComment s = true ↔ commentEnd <:+: s.toList :=
  occursIn_iff

theorem prefix_append_cons_iff (h : c ∉ mark) : mark <+: xs ++ c :: ys ↔ mark <+: xs := by
  induction xs generalizing mark with
  | nil =>
    cases mark with
    | nil => simp
    | cons d mark =>
      have hne : d ≠ c := fun heq => h (by simp [heq])
      simp [hne]
  | cons x xs ih =>
    cases mark with
    | nil => simp
    | cons d mark =>
      rw [List.cons_append, List.cons_prefix_cons, List.cons_prefix_cons,
        ih fun hc => h (List.mem_cons_of_mem d hc)]

theorem infix_append_cons_iff (h : c ∉ mark) :
    mark <:+: xs ++ c :: ys ↔ mark <:+: xs ∨ mark <:+: ys := by
  induction xs with
  | nil =>
    have hfirst : mark <+: [] ++ c :: ys ↔ mark <+: [] := prefix_append_cons_iff h
    rw [List.nil_append] at hfirst ⊢
    rw [List.infix_cons_iff, hfirst, List.prefix_nil, List.infix_nil]
  | cons x xs ih =>
    have hfirst : mark <+: x :: xs ++ c :: ys ↔ mark <+: x :: xs := prefix_append_cons_iff h
    rw [List.cons_append] at hfirst ⊢
    rw [List.infix_cons_iff, List.infix_cons_iff, hfirst, ih, or_assoc]

/-- A mark occurs in a text of lines just when it occurs in one of them. -/
theorem infix_lines_iff (h : c ∉ mark) {lines : List (List α)} {last : List α} :
    mark <:+: lines.flatMap (· ++ [c]) ++ last ↔
      (∃ line ∈ lines, mark <:+: line) ∨ mark <:+: last := by
  induction lines with
  | nil => simp
  | cons line rest ih =>
    rw [List.flatMap_cons, List.append_assoc, List.append_assoc, List.singleton_append,
      infix_append_cons_iff h, ih, or_assoc.symm, List.exists_mem_cons_iff]

/-- A mark stands first where it does not occur in what lies before its last character. -/
theorem first_occurrence_iff (start before after : List α) (last : α) :
    (∀ p s, before ++ (start ++ [last]) ++ after = p ++ (start ++ [last]) ++ s →
      before.length ≤ p.length) ↔ ¬ start ++ [last] <:+: before ++ start := by
  constructor
  · rintro h ⟨p, s, hocc⟩
    have hlength := congrArg List.length hocc
    have htext : before ++ (start ++ [last]) ++ after =
        p ++ (start ++ [last]) ++ (s ++ ([last] ++ after)) := by
      rw [← List.append_assoc before, ← hocc]
      simp only [List.append_assoc]
    have hle := h p _ htext
    simp only [List.length_append, List.length_singleton] at hlength
    omega
  · intro h p s htext
    by_contra hlt
    apply h
    have hmarked : p ++ (start ++ [last]) <+: before ++ (start ++ [last]) ++ after :=
      ⟨s, htext.symm⟩
    have hbefore : before ++ start <+: before ++ (start ++ [last]) ++ after :=
      ⟨[last] ++ after, by simp⟩
    have hinside : p ++ (start ++ [last]) <+: before ++ start := by
      apply List.prefix_of_prefix_length_le hmarked hbefore
      simp only [List.length_append, List.length_singleton]
      omega
    exact (List.suffix_append p _).isInfix.trans hinside.isInfix

end ModelData
