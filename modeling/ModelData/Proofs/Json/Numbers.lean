import ModelData.Json.Writer
import ModelData.Json.Reader
import ModelData.Proofs.Number.Spelling

/-! Numbers in JSON text. An integer and a finite float are read back from what is written for
them, whatever follows, as long as it cannot go on with the number. -/

namespace ModelData.Json

open Binary64

/-- What follows a number does not go on with it. -/
def EndsNumber (rest : List Char) : Prop :=
  ∀ c ∈ rest.head?, c.isDigit = false ∧ c ≠ '.' ∧ c ≠ 'e' ∧ c ≠ 'E'

variable {rest : List Char}

theorem EndsNumber.notDigit (h : EndsNumber rest) : ∀ c ∈ rest.head?, c.isDigit = false :=
  fun c hc => (h c hc).1

theorem readWhole?_digits {digits : List Char} (hne : digits ≠ [])
    (hdigits : ∀ c ∈ digits, c.isDigit = true)
    (hleading : digits = ['0'] ∨ digits.head? ≠ some '0')
    (hrest : ∀ c ∈ rest.head?, c.isDigit = false) :
    readWhole? (digits ++ rest) = some (digits, rest) := by
  rcases hleading with rfl | hleading
  · rfl
  · have hspan := span_append hdigits hrest
    cases digits with
    | nil => exact absurd rfl hne
    | cons c ds =>
      have hc : c ≠ '0' := by simpa using hleading
      rw [List.cons_append] at hspan ⊢
      unfold readWhole?
      split
      · next heq => exact absurd (List.cons.inj heq).1 hc
      · rw [hspan]

theorem readFraction?_fraction (l : Literal) (hdigit : ∀ c ∈ rest.head?, c.isDigit = false)
    (hpoint : ∀ c ∈ rest.head?, c ≠ '.') :
    readFraction? (l.fraction ++ rest) = some (l.fraction, rest) := by
  unfold Literal.fraction
  by_cases hdigits : l.digits = []
  · simp only [hdigits, List.isEmpty_nil, if_true, List.nil_append]
    cases rest with
    | nil => rfl
    | cons c rest =>
      have hc := hpoint c rfl
      simp [readFraction?, hc]
  · have hspan := span_append l.isDigit_digits hdigit
    obtain ⟨c, ds, hds⟩ := List.exists_cons_of_ne_nil hdigits
    simp only [List.isEmpty_iff, hdigits, if_false, List.cons_append, readFraction?]
    rw [hspan, hds]

theorem readPower?_power (l : Literal) (hrest : EndsNumber rest) :
    readPower? (l.powerText ++ rest) = some (l.powerText, rest) := by
  unfold Literal.powerText
  cases hpower : l.power with
  | none =>
    cases rest with
    | nil => rfl
    | cons c rest =>
      obtain ⟨-, -, hlower, hupper⟩ := hrest c rfl
      simp [readPower?, hlower, hupper]
  | some p =>
    obtain ⟨negative, ds⟩ := p
    have hspan := span_append (l.isDigit_power _ hpower) hrest.notDigit
    obtain ⟨c, cs, hds⟩ := List.exists_cons_of_ne_nil (l.power_ne_nil _ hpower)
    dsimp only at hds hspan
    have hsign : readSign (Literal.signChar negative :: (ds ++ rest)) =
        ([Literal.signChar negative], ds ++ rest) := by
      cases negative <;> rfl
    simp only [List.cons_append, readPower?, hsign, hspan]
    rw [hds]
    rfl

theorem readNumber?_int (negative : Bool) (n : Nat) (hrest : EndsNumber rest) :
    readNumber? negative (Digits.ofNat n ++ rest) =
      some (.int (if negative then -(n : Int) else n), rest) := by
  have hleading : Digits.ofNat n = ['0'] ∨ (Digits.ofNat n).head? ≠ some '0' := by
    by_cases hn : n = 0
    · exact .inl (hn ▸ Digits.ofNat_zero)
    · exact .inr (Digits.head_ofNat hn)
  have hwhole := readWhole?_digits (Digits.ofNat_ne_nil n)
    (fun _ hc => Digits.isDigit_of_mem_ofNat hc) hleading hrest.notDigit
  have hfraction : readFraction? rest = some ([], rest) := by
    cases rest with
    | nil => rfl
    | cons c rest => simp [readFraction?, (hrest c rfl).2.1]
  have hpower : readPower? rest = some ([], rest) := by
    cases rest with
    | nil => rfl
    | cons c rest => simp [readPower?, (hrest c rfl).2.2.1, (hrest c rfl).2.2.2]
  simp [readNumber?, hwhole, hfraction, hpower, Digits.toNat_ofNat]

theorem readNumber?_literal (negative : Bool) (l : Literal) (hrest : EndsNumber rest) :
    readNumber? negative (l.text ++ rest) =
      some (.float (ofDecimal negative l.decimal), rest) := by
  have hpowerHead : ∀ c ∈ (l.powerText ++ rest).head?, c.isDigit = false ∧ c ≠ '.' := by
    intro c hc
    have hhead := l.powerText_head
    cases hpower : l.powerText with
    | nil =>
      rw [hpower] at hc
      exact ⟨(hrest c hc).1, (hrest c hc).2.1⟩
    | cons d ds =>
      rw [hpower] at hc hhead
      obtain rfl : d = c := by simpa using hc
      rw [hhead d rfl]
      decide
  have hfractionHead : ∀ c ∈ (l.fraction ++ (l.powerText ++ rest)).head?, c.isDigit = false := by
    intro c hc
    unfold Literal.fraction at hc
    split at hc
    · exact (hpowerHead c hc).1
    · obtain rfl : '.' = c := by simpa using hc
      rfl
  have hwhole := readWhole?_digits l.whole_ne_nil l.isDigit_whole l.leading hfractionHead
  have hfraction := readFraction?_fraction l (fun c hc => (hpowerHead c hc).1)
    fun c hc => (hpowerHead c hc).2
  have hmarked : (l.fraction.isEmpty && l.powerText.isEmpty) = false := by
    rcases l.marked with hdigits | hpower
    · simp [Literal.fraction, hdigits]
    · obtain ⟨p, hp⟩ := Option.isSome_iff_exists.1 hpower
      simp [Literal.powerText, hp]
  have htext : l.text ++ rest = l.whole ++ (l.fraction ++ (l.powerText ++ rest)) := by
    simp [Literal.text]
  have hdecimal : readDecimal? (l.whole ++ l.fraction ++ l.powerText) = some l.decimal :=
    l.readDecimal?_text
  rw [htext]
  simp only [readNumber?, hwhole, hfraction, readPower?_power l hrest, Option.bind_eq_bind,
    Option.bind_some, hmarked, hdecimal]
  rfl

/-- A digit in front sends a text to the reader of numbers. -/
theorem readAtom?_digit {c : Char} {cs : List Char} (h : c.isDigit = true) :
    readAtom? (c :: cs) = readNumber? false (c :: cs) := by
  have hne (d : Char) (hd : d.isDigit = false) : c ≠ d := fun heq => by simp [heq, hd] at h
  have hn := hne 'n' rfl
  have ht := hne 't' rfl
  have hf := hne 'f' rfl
  have hnan := hne 'N' rfl
  have hinf := hne 'I' rfl
  have hminus := hne '-' rfl
  unfold readAtom?
  split <;> simp_all

theorem readAtom?_minus {c : Char} {cs : List Char} (h : c.isDigit = true) :
    readAtom? ('-' :: c :: cs) = readNumber? true (c :: cs) := by
  have hinf : c ≠ 'I' := fun heq => by simp [heq] at h
  unfold readAtom?
  split <;> simp_all

theorem readAtom?_signed (negative : Bool) {text : List Char} (hne : text ≠ [])
    (hhead : ∀ c ∈ text.head?, c.isDigit = true) :
    readAtom? (signed negative text) = readNumber? negative text := by
  cases text with
  | nil => exact absurd rfl hne
  | cons c cs =>
    have hc := hhead c rfl
    cases negative with
    | false => exact readAtom?_digit hc
    | true => exact readAtom?_minus hc

theorem readAtom?_int (i : Int) (hrest : EndsNumber rest) :
    readAtom? (Digits.ofInt i ++ rest) = some (.int i, rest) := by
  obtain ⟨hne, hhead⟩ := head_digits (Digits.ofNat_ne_nil i.natAbs)
    (fun _ hc => Digits.isDigit_of_mem_ofNat hc) rest
  rw [ofInt_eq_signed, signed_append, readAtom?_signed _ hne hhead, readNumber?_int _ _ hrest,
    signed_natAbs]

theorem readAtom?_float (style : Style) (x : Finite) (hrest : EndsNumber rest) :
    readAtom? (x.spell style ++ rest) = some (.float (.finite x), rest) := by
  obtain ⟨l, htext, hsame, -⟩ := exists_literal style x.rank
  obtain ⟨hne, hhead⟩ := head_digits l.whole_ne_nil l.isDigit_whole
    (l.fraction ++ l.powerText ++ rest)
  have hshape : l.text ++ rest = l.whole ++ (l.fraction ++ l.powerText ++ rest) := by
    simp [Literal.text]
  rw [← hshape] at hne hhead
  rw [Finite.spell, ← htext, signed_append, readAtom?_signed _ hne hhead,
    readNumber?_literal _ l hrest, ofDecimal_of_same_shortest x hsame]

end ModelData.Json
