import ModelData.Storage
import ModelData.Proofs.Record.Texts
import ModelData.Proofs.Yaml.Values

/-!
Documents stored as YAML. A document of sound elements, with texts for names and for the lines
of its header, is stored, and all of it is read back but for one slip: far in, a text in double
quotes with a blank behind an escape is folded twice in one place. Just the documents
without such a text come back as they were. Settings that are stored on their own always do.
-/

namespace ModelData

namespace Yaml

/-- A blank with something before and behind it follows a character that is escaped. -/
def HasFoldedBlank (first : Bool) (cs : List Char) : Prop :=
  ∃ before c after, cs = before ++ c :: ' ' :: after ∧ (escape? c).isSome = true ∧
    (first = true → before ≠ []) ∧ after ≠ []

/-- A text that is not read back from where its lines start at an indentation. -/
def Spoilt (indent : Nat) (s : String) : Prop :=
  lineWidth ≤ indent ∧ styleFor false s.toList = .double ∧ HasFoldedBlank true s.toList

variable {indent : Nat} {first : Bool} {cs : List Char}

theorem hasFoldedBlank_cons {c : Char} {rest : List Char} :
    HasFoldedBlank first (c :: rest) ↔
      (first = false ∧ (escape? c).isSome = true ∧ isInnerBlank rest = true) ∨
        HasFoldedBlank false rest := by
  constructor
  · rintro ⟨before, d, after, heq, hescape, hbefore, hafter⟩
    cases before with
    | nil =>
      obtain ⟨rfl, rfl⟩ := List.cons.inj heq
      refine .inl ⟨by simpa using hbefore, hescape, ?_⟩
      obtain ⟨e, tail, rfl⟩ := List.exists_cons_of_ne_nil hafter
      rfl
    | cons e before =>
      exact .inr ⟨before, d, after, (List.cons.inj heq).2, hescape, by simp, hafter⟩
  · rintro (⟨rfl, hescape, hblank⟩ | ⟨before, d, after, rfl, hescape, -, hafter⟩)
    · obtain ⟨e, after, rfl⟩ : ∃ e after, rest = ' ' :: e :: after := by
        unfold isInnerBlank at hblank
        split at hblank
        · exact ⟨_, _, rfl⟩
        · cases hblank
      exact ⟨[], c, e :: after, rfl, hescape, by simp, by simp⟩
    · exact ⟨c :: before, d, after, rfl, hescape, by simp, hafter⟩

theorem length_le_spoil (first : Bool) (cs : List Char) :
    cs.length ≤ (spoil indent first cs).length := by
  induction cs generalizing first with
  | nil => exact Nat.zero_le _
  | cons c rest ih =>
    have hle := ih false
    rw [spoil]
    split <;> simp only [List.length_cons] <;> omega

theorem spoil_eq_self_iff :
    spoil indent first cs = cs ↔ ¬ (lineWidth ≤ indent ∧ HasFoldedBlank first cs) := by
  induction cs generalizing first with
  | nil =>
    have hnone : ¬ HasFoldedBlank first [] := by
      rintro ⟨before, c, after, heq, -⟩
      simp at heq
    simp [spoil, hnone]
  | cons c rest ih =>
    rw [hasFoldedBlank_cons, spoil]
    split
    · next hspoilt =>
      simp only [Bool.and_eq_true, decide_eq_true_eq, Bool.not_eq_true'] at hspoilt
      obtain ⟨⟨⟨hwidth, hfirst⟩, hescape⟩, hblank⟩ := hspoilt
      refine iff_of_false (fun heq => ?_)
        fun hnone => hnone ⟨hwidth, .inl ⟨hfirst, hescape, hblank⟩⟩
      have hlength := congrArg List.length heq
      have hle := @length_le_spoil indent false rest
      simp only [List.length_cons] at hlength
      omega
    · next hkept =>
      simp only [Bool.and_eq_true, decide_eq_true_eq, Bool.not_eq_true'] at hkept
      rw [List.cons.injEq, ih]
      simp only [true_and]
      refine not_congr (and_congr_right fun hwidth => ?_)
      refine (or_iff_right fun hhere => hkept ?_).symm
      exact ⟨⟨⟨hwidth, hhere.1⟩, hhere.2.1⟩, hhere.2.2⟩

theorem misread_eq_self_iff {s : String} :
    misread indent s.toList = s.toList ↔ ¬ Spoilt indent s := by
  unfold misread Spoilt
  cases hstyle : styleFor false s.toList with
  | double => rw [spoil_eq_self_iff]; simp
  | plain | single => simp

theorem mild_misread : Mild misread := by
  refine ⟨fun indent s hs => ?_, fun indent hindent text => ?_⟩
  · simp only [isKey, Bool.and_eq_true] at hs
    have hstyle : styleFor false s.toList = .plain := by rw [styleFor, if_pos hs.1.2]
    rw [misread, hstyle]
  · have hnone (first : Bool) : spoil indent first text = text :=
      spoil_eq_self_iff.2 fun hspoilt => Nat.not_le.2 hindent hspoilt.1
    unfold misread
    split
    · exact hnone true
    · rfl

end Yaml

theorem toYaml_eq {d : Document} (h : d.Sound) : ∃ text, d.toYaml = .ok text ∧
    Yaml.read text.toList = .ok (d.record.reread Yaml.misread true 0) := by
  obtain ⟨text, htext, hread⟩ := Yaml.exists_write (Document.storable_record h)
  refine ⟨String.ofList text, ?_, ?_⟩
  · rw [Document.toYaml, Document.ofDocument_eq h, Except.mapError, ok_bind, Document.record, htext]
    rfl
  · rw [String.toList_ofList]
    exact hread

/-- A document is stored, what is read is the document with its texts as they are read, and
that is the document itself just when no text in it is spoilt. -/
theorem ofYaml_toYaml {d : Document} (h : d.Sound) : ∃ text, d.toYaml = .ok text ∧
    Document.ofYaml text = .ok (d.reread Yaml.misread) ∧
    (Document.ofYaml text = .ok d ↔ ∀ t ∈ d.texts, ¬ Yaml.Spoilt t.1 t.2) := by
  obtain ⟨text, htext, hread⟩ := toYaml_eq h
  have hstored : Document.ofYaml text = .ok (d.reread Yaml.misread) := by
    rw [Document.ofYaml, hread]
    exact Document.toDocument_reread Yaml.mild_misread h
  refine ⟨text, htext, hstored, ?_⟩
  have hsame := @Document.reread_eq_self_iff Yaml.misread d h
  rw [hstored, Except.ok.injEq, hsame]
  exact forall₂_congr fun t _ => Yaml.misread_eq_self_iff

/-- Settings on their own come back as they were, whatever their numbers and texts are: they
stand too near the margin for any text to be misread. -/
theorem Config.toYaml_lossless (c : Config) : ∃ text, c.toYaml = .ok text ∧
    Config.ofYaml text = .ok c := by
  obtain ⟨entries, hentries, hstorable⟩ :
      ∃ entries, c.toValue = .table entries ∧ Storable (.table entries) :=
    ⟨c.toEntries, rfl, Document.storable_config c⟩
  obtain ⟨text, htext, hread⟩ := @Yaml.exists_write false entries hstorable
  have hsettings : Config.ofValue (c.toValue.reread Yaml.misread false 0) = .ok c :=
    Document.config_reread Yaml.mild_misread (by decide) c
  refine ⟨String.ofList text, ?_, ?_⟩
  · rw [Config.toYaml, hentries, htext]
    rfl
  · rw [Config.ofYaml, String.toList_ofList, hread, ← hentries]
    exact congrArg (Except.mapError StoreFault.config) hsettings

/-- An element within so many arrays of one entry each. -/
def nested : Nat → Element → Element
  | 0, e => e
  | levels + 1, e => .array [⟨.text "a", nested levels e⟩]

/-- A text within nineteen arrays, where its indentation is that of eighty-two columns. -/
def deepText (s : String) : Document where
  elements := [⟨.text "a", nested 19 (.scalar (.text s))⟩]

theorem sound_nested (levels : Nat) {e : Element} (h : e.Everywhere Sound) :
    (nested levels e).Everywhere Sound := by
  induction levels with
  | zero => exact h
  | succ levels ih => exact sound_array (by simp) (by simpa using ih)

theorem reread_nested (levels indent : Nat) (e : Element) :
    (nested levels e).reread Yaml.misread indent =
      nested levels (e.reread Yaml.misread (indent + 4 * levels)) := by
  induction levels generalizing indent with
  | zero => rfl
  | succ levels ih =>
    have hkey : Yaml.misread (indent + 2 + 2) "a".toList = "a".toList :=
      Yaml.mild_misread.keys _ "a" (by decide)
    have hindent : indent + 2 + 2 + 4 * levels = indent + 4 * (levels + 1) := by omega
    rw [nested, Element.reread, Binding.rereads, Binding.rereads, Binding.reread, hkey, ih,
      String.ofList_toList, hindent]
    rfl

theorem nested_injective (levels : Nat) : Function.Injective (nested levels) := by
  intro e d heq
  induction levels with
  | zero => exact heq
  | succ levels ih => exact ih (by simpa [nested] using heq)

theorem ofYaml_toYaml_deepText :
    (deepText "x\t y").Sound ∧ ∃ text, (deepText "x\t y").toYaml = .ok text ∧
      Document.ofYaml text = .ok (deepText "x\t\\  y") ∧
      Document.ofYaml text ≠ .ok (deepText "x\t y") := by
  have hsound : (deepText "x\t y").Sound :=
    ⟨by simpa [deepText] using sound_nested 19 (sound_scalar _), by simp [deepText],
      by simp [deepText], ⟨true, rfl⟩⟩
  obtain ⟨text, htext, hread, -⟩ := ofYaml_toYaml hsound
  have hspoilt : Yaml.misread 82 "x\t y".toList = "x\t\\  y".toList := by decide
  have hkey : Yaml.misread 4 "a".toList = "a".toList := by decide
  have hdeep : (deepText "x\t y").reread Yaml.misread = deepText "x\t\\  y" := by
    simp only [deepText, Document.reread, Binding.rereads, Binding.reread, reread_nested,
      Element.reread, Scalar.reread, Nat.reduceAdd, Nat.reduceMul, hspoilt, hkey,
      String.ofList_toList]
  rw [hdeep] at hread
  refine ⟨hsound, text, htext, hread, fun heq => ?_⟩
  rw [hread] at heq
  have hdocument : deepText "x\t\\  y" = deepText "x\t y" := Except.ok.inj heq
  have hnested := nested_injective 19
    (by simpa [deepText] using congrArg Document.elements hdocument)
  simp at hnested

end ModelData
