import Mathlib.Data.List.Basic
import ModelData.Proofs.Dat.Reading

/-!
The grammar of identifiers, said without reference to how a name is checked. A value passes the
check just when it is a text in the grammar or such a text with a line break behind it, so of two
names that pass and differ only in white space one is the other with a line break.
-/

namespace ModelData.Identifier

open Dat (withoutSpace withoutSpace_append not_isDigit_of_isStart)

/-- Not empty, of ASCII letters, digits and underscores, and with no digit in front. -/
structure InGrammar (text : List Char) : Prop where
  ne_nil : text ≠ []
  parts : ∀ c ∈ text,
    ('a' ≤ c ∧ c ≤ 'z') ∨ ('A' ≤ c ∧ c ≤ 'Z') ∨ ('0' ≤ c ∧ c ≤ '9') ∨ c = '_'
  head : ∀ c ∈ text.head?, ¬ ('0' ≤ c ∧ c ≤ '9')

section Characters

variable {c : Char}

theorem isDigit_iff : c.isDigit = true ↔ '0' ≤ c ∧ c ≤ '9' := by
  simp only [Char.isDigit, Bool.and_eq_true, decide_eq_true_eq]
  rfl

theorem isAlpha_iff : c.isAlpha = true ↔ ('a' ≤ c ∧ c ≤ 'z') ∨ ('A' ≤ c ∧ c ≤ 'Z') := by
  delta Char.isAlpha Char.isUpper Char.isLower
  simp only [Bool.or_eq_true, Bool.and_eq_true, decide_eq_true_eq]
  exact or_comm

theorem isPart_iff : isPart c = true ↔
    ('a' ≤ c ∧ c ≤ 'z') ∨ ('A' ≤ c ∧ c ≤ 'Z') ∨ ('0' ≤ c ∧ c ≤ '9') ∨ c = '_' := by
  rw [isPart, Char.isAlphanum, Bool.or_eq_true, Bool.or_eq_true, isAlpha_iff, isDigit_iff,
    decide_eq_true_eq]
  simp only [or_assoc]

theorem isStart_iff : isStart c = true ↔ isPart c = true ∧ c.isDigit = false := by
  constructor
  · exact fun h => ⟨isPart_of_isStart h, not_isDigit_of_isStart h⟩
  · rintro ⟨hpart, hdigit⟩
    simpa [isStart, isPart, Char.isAlphanum, hdigit] using hpart

theorem not_isSpace_of_isPart (h : isPart c = true) : Yaml.isSpace c = false := by
  have hbounds : (48 ≤ c.toNat ∧ c.toNat ≤ 57) ∨ (65 ≤ c.toNat ∧ c.toNat ≤ 122) := by
    rw [isPart_iff] at h
    simp only [Char.le_def, UInt32.le_iff_toNat_le] at h
    change (97 ≤ c.toNat ∧ c.toNat ≤ 122) ∨ (65 ≤ c.toNat ∧ c.toNat ≤ 90) ∨
      (48 ≤ c.toNat ∧ c.toNat ≤ 57) ∨ c = '_' at h
    rcases h with h | h | h | rfl
    · omega
    · omega
    · omega
    · decide
  simp only [Yaml.isSpace, Bool.or_eq_false_iff, Bool.and_eq_false_iff, decide_eq_false_iff_not]
  omega

end Characters

section Names

variable {text word : List Char}

theorem isName_iff_inGrammar : isName text = true ↔ InGrammar text := by
  cases text with
  | nil => exact ⟨fun h => by simp [isName] at h, fun h => absurd rfl h.ne_nil⟩
  | cons c rest =>
    constructor
    · intro h
      obtain ⟨hne, hparts⟩ := isPart_of_isName h
      refine ⟨hne, fun d hd => isPart_iff.1 (hparts d hd), fun d hd hdigit => ?_⟩
      obtain ⟨first, tail, heq, hstart⟩ := head_of_isName h
      obtain rfl : first = d := by simpa [heq] using hd
      rw [← isDigit_iff, not_isDigit_of_isStart hstart] at hdigit
      cases hdigit
    · intro h
      have hstart : isStart c = true := by
        refine isStart_iff.2 ⟨isPart_iff.2 (h.parts c List.mem_cons_self), ?_⟩
        rw [← Bool.not_eq_true, isDigit_iff]
        exact h.head c rfl
      rw [isName, hstart, Bool.true_and, List.all_eq_true]
      exact fun d hd => isPart_iff.2 (h.parts d (List.mem_cons_of_mem c hd))

theorem withoutFinalBreak_concat (word : List Char) :
    withoutFinalBreak (word ++ ['\n']) = word := by
  simp [withoutFinalBreak]

/-- A text has a line break at its end that is taken off, or is left as it is. -/
theorem withoutFinalBreak_cases (text : List Char) :
    text = withoutFinalBreak text ∨ text = withoutFinalBreak text ++ ['\n'] := by
  unfold withoutFinalBreak
  split
  · next hlast => exact .inr (List.dropLast_append_getLast? '\n' hlast).symm
  · exact .inl rfl

theorem isValid_text_iff {s : String} :
    isValid (.text s) = true ↔ InGrammar (withoutFinalBreak s.toList) := by
  rw [isValid, accepts, isName_iff_inGrammar]

/-- A text in the grammar has no line break to be taken off. -/
theorem InGrammar.withoutFinalBreak_eq (h : InGrammar text) : withoutFinalBreak text = text := by
  unfold withoutFinalBreak
  split
  · next hlast =>
    have hpart := isPart_iff.2 (h.parts '\n' (List.mem_of_getLast? hlast))
    exact absurd hpart (by decide)
  · rfl

theorem InGrammar.withoutSpace_eq (h : InGrammar text) : withoutSpace text = text := by
  refine List.filter_eq_self.2 fun c hc => ?_
  rw [not_isSpace_of_isPart (isPart_iff.2 (h.parts c hc)), Bool.not_false]

/-- Without white space a name that passes is a text in the grammar. -/
theorem withoutSpace_of_isValid {s : String} (h : isValid (.text s) = true) :
    withoutSpace s.toList = withoutFinalBreak s.toList := by
  have hgrammar := isValid_text_iff.1 h
  rcases withoutFinalBreak_cases s.toList with hsame | hbreak
  · rw [← hsame] at hgrammar ⊢
    exact hgrammar.withoutSpace_eq
  · rw [hbreak, withoutSpace_append, hgrammar.withoutSpace_eq, withoutFinalBreak_concat]
    exact List.append_nil _

/-- What is left of two texts is the same just when they differ in a line break at the end of one
of them, or not at all. -/
theorem withoutFinalBreak_eq_iff {s t : List Char} (hs : InGrammar (withoutFinalBreak s))
    (ht : InGrammar (withoutFinalBreak t)) :
    withoutFinalBreak s = withoutFinalBreak t ↔ s = t ∨ s = t ++ ['\n'] ∨ t = s ++ ['\n'] := by
  constructor
  · intro h
    rcases withoutFinalBreak_cases s with hfirst | hfirst <;>
      rcases withoutFinalBreak_cases t with hsecond | hsecond
    · exact .inl (hfirst.trans (h.trans hsecond.symm))
    · rw [← h, ← hfirst] at hsecond
      exact .inr (.inr hsecond)
    · rw [h, ← hsecond] at hfirst
      exact .inr (.inl hfirst)
    · exact .inl (by rw [hfirst, hsecond, h])
  · rintro (rfl | rfl | rfl)
    · rfl
    · rw [withoutFinalBreak_concat] at hs ⊢
      exact hs.withoutFinalBreak_eq.symm
    · rw [withoutFinalBreak_concat] at ht ⊢
      exact ht.withoutFinalBreak_eq

end Names

/-- The check takes a text in the grammar and, since a line break may stand behind the end that it
looks for, the same text with a line break. Another name that it takes and that is the same
without white space is the same but for this line break. -/
theorem isValid_iff_inGrammar (v : Value) :
    (isValid v = true ↔ ∃ s, v = .text s ∧
      (InGrammar s.toList ∨ ∃ word, InGrammar word ∧ s.toList = word ++ ['\n'])) ∧
    ∀ s t, v = .text s → isValid v = true → isValid (.text t) = true →
      (withoutSpace s.toList = withoutSpace t.toList ↔
        s.toList = t.toList ∨ s.toList = t.toList ++ ['\n'] ∨ t.toList = s.toList ++ ['\n']) := by
  refine ⟨⟨fun h => ?_, ?_⟩, ?_⟩
  · cases v with
    | text s =>
      have hgrammar := isValid_text_iff.1 h
      rcases withoutFinalBreak_cases s.toList with hsame | hbreak
      · exact ⟨s, rfl, .inl (hsame ▸ hgrammar)⟩
      · exact ⟨s, rfl, .inr ⟨_, hgrammar, hbreak⟩⟩
    | _ => cases h
  · rintro ⟨s, rfl, hgrammar | ⟨word, hgrammar, hs⟩⟩
    · rw [isValid_text_iff, hgrammar.withoutFinalBreak_eq]
      exact hgrammar
    · rw [isValid_text_iff, hs, withoutFinalBreak_concat]
      exact hgrammar
  · rintro s t rfl hs ht
    rw [withoutSpace_of_isValid hs, withoutSpace_of_isValid ht]
    exact withoutFinalBreak_eq_iff (isValid_text_iff.1 hs) (isValid_text_iff.1 ht)

/-- A name and the same name with a line break both pass, though only one is in the grammar. -/
theorem isValid_iff_inGrammar_broken :
    isValid (.text "di_0") = true ∧ isValid (.text "di_0\n") = true ∧
      ¬ InGrammar "di_0\n".toList ∧
      withoutSpace "di_0\n".toList = withoutSpace "di_0".toList := by
  have hname : InGrammar "di_0".toList := isName_iff_inGrammar.1 (by decide)
  obtain ⟨hplain, -⟩ := isValid_iff_inGrammar (.text "di_0")
  obtain ⟨hbroken, hspace⟩ := isValid_iff_inGrammar (.text "di_0\n")
  have hvalid := hplain.2 ⟨_, rfl, .inl hname⟩
  have hvalidBroken := hbroken.2 ⟨_, rfl, .inr ⟨_, hname, rfl⟩⟩
  refine ⟨hvalid, hvalidBroken, fun h => ?_, ?_⟩
  · exact absurd (isName_iff_inGrammar.2 h) (by decide)
  · exact (hspace _ _ rfl hvalidBroken hvalid).2 (.inr (.inl rfl))

end ModelData.Identifier
