import ModelData.Json.Quoted
import ModelData.Proofs.Number.Digits

/-! Texts in JSON. Whatever characters a text holds, it is read back from its quoted form, and
reading stops behind the closing quote. -/

namespace ModelData.Json

theorem digitValue?_digitChar :
    ∀ m < 16, Digits.digitValue? (id (Nat.digitChar m)) = some m := by
  decide

/-- Four hexadecimal digits are read as the code that they spell. -/
theorem read?_hex_four {code : Nat} (h : code < 0x10000) :
    ∃ a b c d, Digits.hex 4 code = [a, b, c, d] ∧ Digits.read? 16 [a, b, c, d] = some code := by
  have hread := Digits.read?_hex digitValue?_digitChar (by decide : (4 : Nat) ≠ 0) h
  rw [List.map_id] at hread
  obtain ⟨a, b, c, d, hdigits⟩ : ∃ a b c d, Digits.hex 4 code = [a, b, c, d] := ⟨_, _, _, _, rfl⟩
  exact ⟨a, b, c, d, hdigits, hdigits ▸ hread⟩

theorem toNat_bounds (c : Char) : c.toNat < 0xd800 ∨ (0xdfff < c.toNat ∧ c.toNat < 0x110000) :=
  c.valid

theorem readUnit?_code {c : Char} (h : c.toNat < 0x10000) (rest : List Char) :
    readUnit? (Digits.hex 4 c.toNat ++ rest) = some (c, rest) := by
  obtain ⟨a, b, d, e, hhex, hread⟩ := read?_hex_four h
  have hbounds := toNat_bounds c
  have hhigh : isHigh c.toNat = false := by
    simp only [isHigh, Bool.and_eq_false_iff, decide_eq_false_iff_not]
    omega
  have hlow : isLow c.toNat = false := by
    simp only [isLow, Bool.and_eq_false_iff, decide_eq_false_iff_not]
    omega
  rw [hhex]
  simp only [List.cons_append, List.nil_append, readUnit?, hread, hhigh, hlow, Char.ofNat_toNat]
  rfl

theorem readUnit?_pair {c : Char} (h : ¬ c.toNat < 0x10000) (rest : List Char) :
    readUnit? (Digits.hex 4 (highHalf c.toNat) ++
      ('\\' :: 'u' :: (Digits.hex 4 (lowHalf c.toNat) ++ rest))) = some (c, rest) := by
  have hbounds := toNat_bounds c
  have hhighBounds : 0xd800 ≤ highHalf c.toNat ∧ highHalf c.toNat < 0xdc00 := by
    simp only [highHalf]
    omega
  have hlowBounds : 0xdc00 ≤ lowHalf c.toNat ∧ lowHalf c.toNat < 0xe000 := by
    simp only [lowHalf]
    omega
  obtain ⟨a, b, d, e, hhex, hread⟩ := read?_hex_four (by omega : highHalf c.toNat < 0x10000)
  obtain ⟨a', b', d', e', hhex', hread'⟩ := read?_hex_four (by omega : lowHalf c.toNat < 0x10000)
  have hhigh : isHigh (highHalf c.toNat) = true := by
    simp only [isHigh, Bool.and_eq_true, decide_eq_true_eq]
    exact hhighBounds
  have hlow : isLow (lowHalf c.toNat) = true := by
    simp only [isLow, Bool.and_eq_true, decide_eq_true_eq]
    exact hlowBounds
  have hjoin : joinHalves (highHalf c.toNat) (lowHalf c.toNat) = c := by
    have hcode : 0x10000 + (highHalf c.toNat - 0xd800) * 0x400 + (lowHalf c.toNat - 0xdc00) =
        c.toNat := by
      simp only [highHalf, lowHalf]
      omega
    rw [joinHalves, hcode, Char.ofNat_toNat]
  rw [hhex, hhex']
  simp only [List.cons_append, List.nil_append, readUnit?, hread, hhigh, hread', hlow, hjoin,
    if_true]

theorem readText_plain {c : Char} (hquote : c ≠ '"') (hslash : c ≠ '\\') (hcontrol : 0x20 ≤ c.toNat)
    (steps : Nat) (rest : List Char) :
    readText (steps + 1) (c :: rest) =
      (readText steps rest).bind fun p => some (c :: p.1, p.2) := by
  have hlt : ¬ c.toNat < 0x20 := by omega
  rw [readText]
  · rw [if_neg hlt]
    rfl
  · exact hquote
  · exact fun _ heq => absurd heq hslash
  · exact fun _ _ heq => absurd heq hslash

theorem readText_short {e c : Char} (he : shortEscape? e = some c) (hu : e ≠ 'u') (steps : Nat)
    (rest : List Char) :
    readText (steps + 1) ('\\' :: e :: rest) =
      (readText steps rest).bind fun p => some (c :: p.1, p.2) := by
  rw [readText]
  · rw [he]
    rfl
  · exact hu

theorem readText_unit {c : Char} {units rest : List Char}
    (h : readUnit? units = some (c, rest)) (steps : Nat) :
    readText (steps + 1) ('\\' :: 'u' :: units) =
      (readText steps rest).bind fun p => some (c :: p.1, p.2) := by
  have hstep : readText (steps + 1) ('\\' :: 'u' :: units) =
      (readUnit? units).bind fun u => (readText steps u.2).bind fun p => some (u.1 :: p.1, p.2) :=
    rfl
  rw [hstep, h]
  rfl

/-- Each character is read back from what is written for it. -/
theorem readText_escapeChar (c : Char) (steps : Nat) (rest : List Char) :
    readText (steps + 1) (escapeChar c ++ rest) =
      (readText steps rest).bind fun p => some (c :: p.1, p.2) := by
  have hshort (e d : Char) (he : shortEscape? e = some d) (hu : e ≠ 'u') (heq : c = d) :
      readText (steps + 1) (['\\', e] ++ rest) =
        (readText steps rest).bind fun p => some (c :: p.1, p.2) := by
    subst heq
    exact readText_short he hu steps rest
  unfold escapeChar
  split
  · next h =>
    rcases h with rfl | rfl
    · exact readText_short rfl (by decide) steps rest
    · exact readText_short rfl (by decide) steps rest
  next hmarks =>
  split
  · exact hshort 'n' _ rfl (by decide) ‹_›
  split
  · exact hshort 'r' _ rfl (by decide) ‹_›
  split
  · exact hshort 't' _ rfl (by decide) ‹_›
  split
  · exact hshort 'f' _ rfl (by decide) ‹_›
  split
  · exact hshort 'b' _ rfl (by decide) ‹_›
  split
  · next hprintable =>
    obtain ⟨hquote, hslash⟩ := not_or.1 hmarks
    exact readText_plain hquote hslash hprintable.1 steps rest
  split
  · next hcode => exact readText_unit (readUnit?_code hcode rest) steps
  · next hcode =>
    rw [List.append_assoc]
    exact readText_unit (readUnit?_pair hcode rest) steps

/-- A text is read from behind its opening quote, with a step for each character of it. -/
theorem readText_quote (s : List Char) {steps : Nat} (hsteps : s.length < steps)
    (rest : List Char) :
    readText steps (s.flatMap escapeChar ++ '"' :: rest) = some (s, rest) := by
  induction s generalizing steps with
  | nil =>
    obtain ⟨steps, rfl⟩ : ∃ n, steps = n + 1 := Nat.exists_eq_add_one_of_ne_zero (by omega)
    rfl
  | cons c s ih =>
    obtain ⟨steps, rfl⟩ : ∃ n, steps = n + 1 := Nat.exists_eq_add_one_of_ne_zero (by omega)
    have hrest : s.length < steps := by
      simp only [List.length_cons] at hsteps
      omega
    rw [List.flatMap_cons, List.append_assoc, readText_escapeChar, ih hrest]
    rfl

theorem length_le_flatMap_escapeChar (s : List Char) :
    s.length ≤ (s.flatMap escapeChar).length := by
  induction s with
  | nil => simp
  | cons c s ih =>
    have hpos : 0 < (escapeChar c).length := by
      unfold escapeChar escapeUnit
      repeat' split
      all_goals simp
    rw [List.flatMap_cons, List.length_append, List.length_cons]
    omega

end ModelData.Json
