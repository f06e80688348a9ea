import ModelData.Dat.Literal
import ModelData.Proofs.Number.Nearest

/-! Floats in data files. The literal of a float is its shortest decimal with the point moved
to where it belongs, so it has no exponent, spells the same rational number as the notation
with exponents, and is read back as the float it was written for. -/

namespace ModelData

namespace Binary64

/-- Digits on both sides of a point, with no zero in front that could be left out and none
behind. -/
structure Pointed (whole fraction : List Char) : Prop where
  whole_ne_nil : whole ≠ []
  isDigit_whole : ∀ c ∈ whole, c.isDigit = true
  leading : whole = ['0'] ∨ whole.head? ≠ some '0'
  fraction_ne_nil : fraction ≠ []
  isDigit_fraction : ∀ c ∈ fraction, c.isDigit = true
  trimmed : fraction = ['0'] ∨ fraction.getLast? ≠ some '0'

/-- Reads a decimal with a sign in front or without. -/
def readSigned? : List Char → Option (Bool × Decimal)
  | '-' :: cs => (readDecimal? cs).map (true, ·)
  | '+' :: cs => (readDecimal? cs).map (false, ·)
  | cs => (readDecimal? cs).map (false, ·)

/-- The rational number that a text spells. -/
def valueOf? (cs : List Char) : Option ℚ :=
  (readSigned? cs).map fun read => signedRat read.1 read.2.toRat

/-- Writes all digits of a decimal and the point where its exponent puts it. -/
def expanded (negative : Bool) (d : Decimal) : List Char :=
  signed negative (positionalText (Digits.ofNat d.coefficient)
    ((Digits.ofNat d.coefficient).length + d.exponent))

/-- The same decimal without exponent. -/
def movePoint? (cs : List Char) : Option (List Char) :=
  (readSigned? cs).map fun read => expanded read.1 read.2

theorem read?_eq (cs : List Char) :
    read? cs = (readSigned? cs).map fun read => ofDecimal read.1 read.2 := by
  unfold read? readSigned?
  split <;> simp only [Option.map_map] <;> rfl

namespace Literal

variable (l : Literal)

theorem readSigned?_signed (negative : Bool) :
    readSigned? (signed negative l.text) = some (negative, l.decimal) := by
  obtain ⟨hne, hhead⟩ := head_digits l.whole_ne_nil l.isDigit_whole (l.fraction ++ l.powerText)
  rw [← List.append_assoc] at hne hhead
  change l.text ≠ [] at hne
  change ∀ c ∈ l.text.head?, _ at hhead
  cases negative with
  | true => simp only [signed, if_pos, readSigned?, l.readDecimal?_text, Option.map_some]
  | false =>
    have hread := l.readDecimal?_text
    obtain ⟨c, cs, htext⟩ := List.exists_cons_of_ne_nil hne
    rw [htext] at hhead hread
    have hdigit := hhead c rfl
    have hminus : c ≠ '-' := fun heq => by simp [heq] at hdigit
    have hplus : c ≠ '+' := fun heq => by simp [heq] at hdigit
    simp [signed, htext, readSigned?, hminus, hplus, hread]

theorem decimal_positional (h : l.power = none) :
    l.decimal = ⟨Digits.toNat (l.whole ++ l.digits), -l.digits.length⟩ := by
  simp only [decimal, powerValue, h, Int.zero_sub]

theorem text_positional (h : l.power = none) (hdigits : l.digits ≠ []) :
    l.text = l.whole ++ '.' :: l.digits := by
  simp [text, fraction, powerText, h, hdigits]

theorem isDigit_of_mem_all {c : Char} (h : c ∈ l.whole ++ l.digits) : c.isDigit = true :=
  (List.mem_append.1 h).elim (l.isDigit_whole c) (l.isDigit_digits c)

/-- Behind a zero in front of the point the number has no more digits than stand there. -/
theorem positionalText_zero (hwhole : l.whole = ['0']) (hdigits : l.digits ≠ []) :
    positionalText (Digits.ofNat (Digits.toNat (l.whole ++ l.digits)))
      ((Digits.ofNat (Digits.toNat (l.whole ++ l.digits))).length + -l.digits.length) =
        l.whole ++ '.' :: l.digits := by
  have hvalue : Digits.toNat (l.whole ++ l.digits) = Digits.toNat l.digits := by
    rw [hwhole, List.singleton_append, Digits.toNat_cons, Nat.sub_self, Nat.zero_mul,
      Nat.zero_add]
  have hlength := Digits.length_toNat_le hdigits l.isDigit_digits
  have hfilled := Digits.padded_toNat hdigits l.isDigit_digits
  rw [Digits.padded_eq] at hfilled
  have hzeros : (-(((Digits.ofNat (Digits.toNat l.digits)).length : Int) +
      -l.digits.length)).toNat =
        l.digits.length - (Digits.ofNat (Digits.toNat l.digits)).length := by omega
  rw [hvalue, positionalText, if_pos (by omega), hzeros, hfilled, hwhole, List.singleton_append]

/-- With another digit in front all digits of the number are there. -/
theorem ofNat_toNat (hhead : l.whole.head? ≠ some '0') :
    Digits.ofNat (Digits.toNat (l.whole ++ l.digits)) = l.whole ++ l.digits := by
  have hne : l.whole ++ l.digits ≠ [] := by simp [l.whole_ne_nil]
  have hfilled := Digits.padded_toNat hne fun _ => l.isDigit_of_mem_all
  rw [Digits.padded_eq] at hfilled
  cases hzeros : (l.whole ++ l.digits).length -
      (Digits.ofNat (Digits.toNat (l.whole ++ l.digits))).length with
  | zero =>
    rw [hzeros] at hfilled
    exact hfilled
  | succ zeros =>
    rw [hzeros, List.replicate_succ, List.cons_append] at hfilled
    obtain ⟨c, cs, hwhole⟩ := List.exists_cons_of_ne_nil l.whole_ne_nil
    rw [hwhole, List.cons_append] at hfilled
    rw [hwhole, ← (List.cons.inj hfilled).1] at hhead
    exact absurd rfl hhead

theorem positionalText_whole (hhead : l.whole.head? ≠ some '0') (hdigits : l.digits ≠ []) :
    positionalText (Digits.ofNat (Digits.toNat (l.whole ++ l.digits)))
      ((Digits.ofNat (Digits.toNat (l.whole ++ l.digits))).length + -l.digits.length) =
        l.whole ++ '.' :: l.digits := by
  have hwhole := List.length_pos_iff.2 l.whole_ne_nil
  have hfraction := List.length_pos_iff.2 hdigits
  rw [l.ofNat_toNat hhead, List.length_append]
  have hplaces : ((l.whole.length + l.digits.length : Nat) : Int) + -l.digits.length =
      l.whole.length := by omega
  rw [hplaces, positionalText, if_neg (by omega), if_neg (by simp; omega), Int.toNat_natCast,
    List.take_left, List.drop_left]

/-- A literal that already has its point where it belongs keeps it there. -/
theorem expanded_decimal (h : l.power = none) (hdigits : l.digits ≠ []) (negative : Bool) :
    expanded negative l.decimal = signed negative l.text := by
  rw [expanded, l.decimal_positional h, l.text_positional h hdigits]
  rcases l.leading with hzero | hhead
  · rw [l.positionalText_zero hzero hdigits]
  · rw [l.positionalText_whole hhead hdigits]

theorem pointed (hdigits : l.digits ≠ []) (htrimmed : l.Trimmed) : Pointed l.whole l.digits where
  whole_ne_nil := l.whole_ne_nil
  isDigit_whole := l.isDigit_whole
  leading := l.leading
  fraction_ne_nil := hdigits
  isDigit_fraction := l.isDigit_digits
  trimmed := htrimmed

end Literal

section Styles

variable {style : Style} {x : Finite}

theorem spell_positional (h : style.positional (digitsOf x.rank).2 = true) :
    x.spell style = expanded x.negative (shortest x.rank) := by
  rw [Finite.spell, magnitudeText]
  dsimp only [digitsOf] at h ⊢
  rw [if_pos h, expanded]

theorem spell_scientific (h : ¬ style.positional (digitsOf x.rank).2 = true) :
    x.spell style = signed x.negative (scientificText style.loneFraction
      (Digits.ofNat (shortest x.rank).coefficient)
      ((Digits.ofNat (shortest x.rank).coefficient).length + (shortest x.rank).exponent)) := by
  rw [Finite.spell, magnitudeText]
  dsimp only [digitsOf] at h ⊢
  rw [if_neg h]

end Styles

end Binary64

namespace Dat

open Binary64

theorem floatLiteral_eq (x : Finite) :
    floatLiteral x = expanded x.negative (shortest x.rank) :=
  spell_positional rfl

/-- The literal of a float has its point among the digits of the shortest decimal. -/
theorem exists_literal_fixed (x : Finite) :
    ∃ l : Literal, floatLiteral x = signed x.negative l.text ∧
      (shortest x.rank).Same l.decimal ∧ l.power = none ∧ l.digits ≠ [] ∧ l.Trimmed := by
  obtain ⟨l, htext, hrest⟩ := exists_positional (shortest x.rank) shortest_exponent shortest_reduced
  exact ⟨l, by rw [htext, floatLiteral_eq, expanded], hrest⟩

/-- The notation that has exponents spells the same decimal, and moving its point gives the
literal. -/
theorem exists_literal_source (x : Finite) :
    ∃ l : Literal, x.spell .source = signed x.negative l.text ∧
      (shortest x.rank).Same l.decimal ∧ expanded x.negative l.decimal = floatLiteral x := by
  by_cases hpositional : Style.source.positional (digitsOf x.rank).2 = true
  · obtain ⟨l, htext, hsame, hpower, hdigits, -⟩ := exists_literal_fixed x
    exact ⟨l, by rw [spell_positional hpositional, ← floatLiteral_eq, htext], hsame,
      by rw [l.expanded_decimal hpower hdigits, htext]⟩
  · obtain ⟨l, htext, hsame, -, hdecimal⟩ :=
      exists_scientific (shortest x.rank) Style.source.loneFraction
    exact ⟨l, by rw [spell_scientific hpositional, htext], hsame,
      by rw [hdecimal rfl, floatLiteral_eq]⟩

theorem valueOf?_literal {l : Literal} {d : Decimal} (h : d.Same l.decimal) (negative : Bool) :
    valueOf? (signed negative l.text) = some (signedRat negative d.toRat) := by
  rw [valueOf?, l.readSigned?_signed, Option.map_some, Decimal.same_iff_toRat_eq.1 h]

theorem read?_floatLiteral (x : Finite) : read? (floatLiteral x) = some (.finite x) := by
  obtain ⟨l, htext, hsame, -⟩ := exists_literal_fixed x
  rw [htext, read?_eq, l.readSigned?_signed, Option.map_some, ofDecimal_of_same_shortest x hsame]

/-- The literal of a finite float has digits on both sides of its point and no others than it
needs; it is the usual notation with the point moved, spells the very number that this notation
spells, which is rounded to the float, is read back as the float with its sign, and belongs to
no other. -/
theorem floatLiteral_exact (x : Finite) :
    (∃ whole fraction, Pointed whole fraction ∧
      floatLiteral x = signed x.negative (whole ++ '.' :: fraction)) ∧
    movePoint? (x.spell .source) = some (floatLiteral x) ∧
    (∃ q, valueOf? (floatLiteral x) = some q ∧ valueOf? (x.spell .source) = some q ∧
      x.IsNearest q) ∧
    read? (floatLiteral x) = some (.finite x) ∧
    ∀ y, floatLiteral y = floatLiteral x ↔ y = x := by
  obtain ⟨l, htext, hsame, hpower, hdigits, htrimmed⟩ := exists_literal_fixed x
  obtain ⟨m, hsource, hsame', hmoved⟩ := exists_literal_source x
  refine ⟨⟨l.whole, l.digits, l.pointed hdigits htrimmed, ?_⟩, ?_, ?_, read?_floatLiteral x,
    fun y => ?_⟩
  · rw [htext, l.text_positional hpower hdigits]
  · rw [hsource, movePoint?, m.readSigned?_signed, Option.map_some, hmoved]
  · refine ⟨_, ?_, ?_, x.isNearest_shortest⟩
    · rw [htext, valueOf?_literal hsame]
    · rw [hsource, valueOf?_literal hsame']
  · refine ⟨fun h => ?_, fun h => by rw [h]⟩
    have hsome : some (Binary64.finite y) = some (.finite x) := by
      rw [← read?_floatLiteral y, h, read?_floatLiteral x]
    exact Binary64.finite.inj (Option.some.inj hsome)

end Dat

end ModelData
