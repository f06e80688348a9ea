import Mathlib.Tactic.Push
import ModelData.Proofs.Dat.Spacing
import ModelData.Proofs.Record.Elements

/-!
Elements of foreign kinds. An element is written and its record is made in the same order, and both
are stopped by the first element of a foreign kind. Only the layout over lines can be stopped by
something else: by a filled collection with counts of spaces that are out of range. It is stopped
there once all that the collection holds is written, so what decides is which of the two comes first
in the order in which elements are finished.
-/

namespace ModelData.Dat

section Lists

variable {α : Type} {p q : α → Bool} {xs : List α}

theorem find?_or_of_takeWhile (h : ∀ x ∈ xs.takeWhile (!p ·), q x = false) :
    xs.find? (fun x => p x || q x) = xs.find? p := by
  induction xs with
  | nil => rfl
  | cons x xs ih =>
    cases hp : p x with
    | true => simp [hp]
    | false =>
      have hq : ∀ y ∈ x :: xs.takeWhile (!p ·), q y = false := by simpa [hp] using h
      rw [List.find?_cons_of_neg (by simp [hp, hq x List.mem_cons_self]),
        List.find?_cons_of_neg (by simp [hp]), ih fun y hy => hq y (List.mem_cons_of_mem x hy)]

theorem exists_find?_or {x : α} (hx : x ∈ xs.takeWhile (!p ·)) (hq : q x = true) :
    ∃ y, xs.find? (fun x => p x || q x) = some y ∧ p y = false := by
  induction xs with
  | nil => cases hx
  | cons z xs ih =>
    cases hp : p z with
    | true => simp [hp] at hx
    | false =>
      cases hz : q z with
      | true => exact ⟨z, by simp [hz], hp⟩
      | false =>
        rw [List.find?_cons_of_neg (by simp [hp, hz])]
        refine ih ?_
        rcases List.mem_cons.1 (by simpa [hp] using hx) with rfl | hx
        · simp [hz] at hq
        · exact hx

end Lists

/-- The counts of spaces that an element asks for at a depth. -/
def isSpaced (width level : Int) (p : Nat × Element) : Bool :=
  !p.2.isFilled ||
    (isCount (width * (level + p.1)) && isCount (width * (level + p.1 + 1)))

/-- The counts of spaces are in range for all filled collections that are finished before the first
element of a foreign kind. -/
def FitsUpTo (width level : Int) (e : Element) : Prop :=
  ∀ p ∈ (e.finished 0).takeWhile (!·.2.isForeign), p.2.isFilled = true →
    isCount (width * (level + p.1)) = true ∧ isCount (width * (level + p.1 + 1)) = true

/-- Why an element stops the layout over lines, if it does. -/
def stopFault (e : Element) : Misfit :=
  if e.isForeign then .unsupportedElement (.element e.kind) else .countTooLarge

variable {width level : Int} {e : Element}

theorem isSpaced_iff {p : Nat × Element} : isSpaced width level p = true ↔
    (p.2.isFilled = true →
      isCount (width * (level + p.1)) = true ∧ isCount (width * (level + p.1 + 1)) = true) := by
  cases h : p.2.isFilled <;> simp [isSpaced, h]

theorem obstacleFor?_eq (width level : Int) (depth : Nat) (e : Element) :
    (Layout.pretty width (level + depth)).obstacleFor? (!e.isFilled) =
      if isSpaced width level (depth, e) then none else some .countTooLarge := by
  cases hfilled : e.isFilled with
  | false => simp [Layout.obstacleFor?, isSpaced, hfilled]
  | true => simp [Layout.obstacleFor?, Layout.obstacle?, isSpaced, hfilled, and_comm]

/-- The layout over lines is stopped by the first finished element of a foreign kind or with counts
of spaces out of range. -/
theorem obstacle?_finished (width level : Int) (depth : Nat) (e : Element) :
    obstacle? (.pretty width (level + depth)) e =
      ((e.finished depth).find? fun p => p.2.isForeign || !isSpaced width level p).map
        fun p => stopFault p.2 := by
  induction e using Element.childInduction generalizing depth with
  | step e ih =>
    rw [Element.finished_eq, List.find?_append, List.find?_flatMap, Option.map_or,
      List.map_findSome?]
    cases hforeign : e.isForeign with
    | true =>
      obtain ⟨kind, label, rfl⟩ := Element.exists_custom hforeign
      rfl
    | false =>
      rw [obstacle?_eq _ hforeign, obstacleFor?_eq]
      congr 1
      · have hinner : (Layout.pretty width (level + depth)).inner =
            .pretty width (level + (depth + 1 : Nat)) := by
          rw [Layout.inner, Nat.cast_add, Nat.cast_one, add_assoc]
        rw [hinner]
        exact findSome?_congr fun d hd => ih d hd (depth + 1)
      · cases hspaced : isSpaced width level (depth, e) <;>
          simp [hforeign, hspaced, stopFault]

theorem stopFault_of_foreign (h : e.isForeign = true) :
    stopFault e = .unsupportedElement (.element e.kind) :=
  if_pos h

/-- Where the counts of spaces do not stop it, the layout over lines is stopped as that on one
line. -/
theorem obstacle?_of_fits (h : FitsUpTo width level e) :
    obstacle? (.pretty width level) e = obstacle? .compact e := by
  have hspaced : ∀ p ∈ (e.finished 0).takeWhile (!·.2.isForeign),
      (!isSpaced width level p) = false := by
    intro p hp
    rw [isSpaced_iff.2 (h p hp), Bool.not_true]
  have hfinished := obstacle?_finished width level 0 e
  rw [Nat.cast_zero, add_zero, find?_or_of_takeWhile hspaced] at hfinished
  rw [hfinished, obstacle?_compact_eq, ← e.find?_finished 0, Option.map_map]
  cases hfind : (e.finished 0).find? (·.2.isForeign) with
  | none => rfl
  | some p =>
    have hforeign : p.2.isForeign = true := by simpa using List.find?_some hfind
    simp [stopFault_of_foreign hforeign]

theorem obstacle?_of_not_fits (h : ¬ FitsUpTo width level e) :
    obstacle? (.pretty width level) e = some .countTooLarge := by
  obtain ⟨p, hp, hspaced⟩ : ∃ p ∈ (e.finished 0).takeWhile (!·.2.isForeign),
      (!isSpaced width level p) = true := by
    by_contra hnone
    push Not at hnone
    refine h fun p hp => isSpaced_iff.1 ?_
    simpa using hnone p hp
  obtain ⟨q, hq, hforeign⟩ := exists_find?_or (q := (!isSpaced width level ·)) hp hspaced
  have hfinished := obstacle?_finished width level 0 e
  rw [Nat.cast_zero, add_zero, hq] at hfinished
  simpa [stopFault, hforeign] using hfinished

theorem render_eq_unlessFault (layout : Layout) (e : Element) :
    render layout e = unlessFault (obstacle? layout e) (write layout e) := by
  rw [render]
  cases obstacle? layout e <;> rfl

/-- An element has a record, and a text on one line, just when it holds no element of a foreign
kind; otherwise both are refused for the first such element. Over lines it is the same, unless a
filled collection that is finished before that element has counts of spaces that are out of range:
that is the fault then. -/
theorem written_as_stored (e : Element) :
    (e.firstForeign? = none ↔ e.Everywhere (·.isForeign = false)) ∧
    (e.firstForeign? = none →
      (∃ r, Record.ofElement e = .ok r) ∧
      (∀ width level, ∃ text, rendered false width level e = .ok text) ∧
      ∀ width level, FitsUpTo width level e → ∃ text, rendered true width level e = .ok text) ∧
    (∀ d, e.firstForeign? = some d → ∃ kind label, d = .custom kind label ∧
      Record.ofElement e = .error (.unsupportedElement (.element (.custom kind))) ∧
      (∀ width level, rendered false width level e =
        .error (.unsupportedElement (.element (.custom kind)))) ∧
      ∀ width level, FitsUpTo width level e → rendered true width level e =
        .error (.unsupportedElement (.element (.custom kind)))) ∧
    ∀ width level, ¬ FitsUpTo width level e →
      rendered true width level e = .error .countTooLarge := by
  have hline (width level : Int) :
      rendered false width level e = unlessFault (obstacle? .compact e) (write .compact e) :=
    render_eq_unlessFault .compact e
  have hlines (width level : Int) : rendered true width level e =
      unlessFault (obstacle? (.pretty width level) e) (write (.pretty width level) e) :=
    render_eq_unlessFault _ e
  refine ⟨Element.firstForeign?_eq_none_iff, fun hnone => ?_, fun d hd => ?_,
    fun width level hfits => ?_⟩
  · have hcompact : obstacle? .compact e = none := by rw [obstacle?_compact_eq, hnone]; rfl
    have hrecord : foreignFault? e = none := by rw [foreignFault?, hnone]; rfl
    refine ⟨⟨e.record, ?_⟩, fun width level => ⟨write .compact e, ?_⟩,
      fun width level hfits => ⟨write (.pretty width level) e, ?_⟩⟩
    · rw [ofElement_eq_unlessFault, hrecord]
      rfl
    · rw [hline, hcompact]
      rfl
    · rw [hlines, obstacle?_of_fits hfits, hcompact]
      rfl
  · obtain ⟨kind, label, rfl⟩ := Element.exists_custom (Element.isForeign_of_firstForeign? hd)
    have hcompact : obstacle? .compact e =
        some (.unsupportedElement (.element (.custom kind))) := by
      rw [obstacle?_compact_eq, hd]
      rfl
    refine ⟨kind, label, rfl, ?_, fun width level => ?_, fun width level hfits => ?_⟩
    · rw [ofElement_eq_unlessFault, foreignFault?, hd]
      rfl
    · rw [hline, hcompact]
      rfl
    · rw [hlines, obstacle?_of_fits hfits, hcompact]
      rfl
  · rw [hlines, obstacle?_of_not_fits hfits]
    rfl

/-- Two elements of foreign kinds. -/
def strangers : Element :=
  .tuple [.custom "shapes.Circle" 0, .custom "shapes.Disk" 1]

/-- A filled set in front of an element of a foreign kind. -/
def preceded : Element :=
  .tuple [.set [.scalar (.int 1)], .custom "shapes.Disk" 1]

theorem finished_pair (c d : Element) (hc : c.children = []) (hd : d.children = []) :
    (Element.tuple [c, d]).finished 0 = [(1, c), (1, d), (0, .tuple [c, d])] := by
  rw [Element.finished_eq, Element.children, List.flatMap_cons, List.flatMap_cons,
    Element.finished_leaf _ hc, Element.finished_leaf _ hd]
  rfl

/-- The same width stops the second at the set in front of its element of a foreign kind. -/
theorem written_as_stored_strangers :
    strangers.firstForeign? = some (.custom "shapes.Circle" 0) ∧
      rendered true (2 ^ 63) 0 strangers =
        .error (.unsupportedElement (.element (.custom "shapes.Circle"))) ∧
      Record.ofElement preceded = .error (.unsupportedElement (.element (.custom "shapes.Disk"))) ∧
      rendered false (2 ^ 63) 0 preceded =
        .error (.unsupportedElement (.element (.custom "shapes.Disk"))) ∧
      rendered true (2 ^ 63) 0 preceded = .error .countTooLarge := by
  have hstrangers := finished_pair (.custom "shapes.Circle" 0) (.custom "shapes.Disk" 1) rfl rfl
  have hpreceded := finished_pair (.set [.scalar (.int 1)]) (.custom "shapes.Disk" 1) rfl rfl
  have hfirst : strangers.firstForeign? = some (.custom "shapes.Circle" 0) := by
    rw [← Element.find?_finished 0, strangers, hstrangers]
    rfl
  have hsecond : preceded.firstForeign? = some (.custom "shapes.Disk" 1) := by
    rw [← Element.find?_finished 0, preceded, hpreceded]
    rfl
  have hfits : FitsUpTo (2 ^ 63) 0 strangers := by
    intro p hp
    rw [strangers, hstrangers] at hp
    cases hp
  have hspaces : ¬ FitsUpTo (2 ^ 63) 0 preceded := by
    intro h
    have hset := h (1, .set [.scalar (.int 1)]) (by
      rw [preceded, hpreceded]
      exact List.mem_cons_self) rfl
    exact absurd hset.1 (by decide)
  obtain ⟨-, -, hforeign, -⟩ := written_as_stored strangers
  obtain ⟨kind, label, heq, -, -, hlines⟩ := hforeign _ hfirst
  cases heq
  obtain ⟨-, -, hforeign', hstops⟩ := written_as_stored preceded
  obtain ⟨kind, label, heq, hrecord, hline, -⟩ := hforeign' _ hsecond
  cases heq
  exact ⟨hfirst, hlines _ _ hfits, hrecord, hline _ _, hstops _ _ hspaces⟩

/-- A width out of range keeps a small set from being written over lines, though it has a record. -/
theorem not_always_written_as_stored :
    ¬ ∀ (e : Element) (lines : Bool) (width level : Int),
      (∃ text, rendered lines width level e = .ok text) ↔ ∃ r, Record.ofElement e = .ok r := by
  intro h
  obtain ⟨text, htext⟩ :=
    (h (.set [.scalar (.int 1)]) true (-9223372036854775809) 0).2 ⟨_, rfl⟩
  have hfault : rendered true (-9223372036854775809) 0 (.set [.scalar (.int 1)]) =
      .error .countTooLarge := rfl
  rw [hfault] at htext
  cases htext

end ModelData.Dat
