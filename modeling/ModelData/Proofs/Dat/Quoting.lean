import ModelData.Proofs.Dat.Spacing

/-!
Texts between quotes. The escapes of a text can be put in by three rounds of replacing one
character each, with backslashes first, because the later rounds put in backslashes of their own.
A scanner that knows the three escapes and no other finds the end of a literal without looking at
what follows, and a literal without line breaks that it reads as a text is the literal of the text.
-/

namespace ModelData.Dat

section Rounds

/-- Puts other characters in the place of each occurrence of a character. -/
def replaceEach (c : Char) (new text : List Char) : List Char :=
  text.flatMap fun d => if d = c then new else [d]

def escapeInRounds (text : List Char) : List Char :=
  replaceEach '\n' ['\\', 'n']
    (replaceEach '"' ['\\', '"'] (replaceEach '\\' ['\\', '\\'] text))

theorem replaceEach_append (c : Char) (new xs ys : List Char) :
    replaceEach c new (xs ++ ys) = replaceEach c new xs ++ replaceEach c new ys :=
  List.flatMap_append

theorem escapeInRounds_append (xs ys : List Char) :
    escapeInRounds (xs ++ ys) = escapeInRounds xs ++ escapeInRounds ys := by
  simp only [escapeInRounds, replaceEach_append]

/-- What the first round puts in for a backslash, the later rounds leave alone. -/
theorem escapeInRounds_singleton (c : Char) : escapeInRounds [c] = escapeChar c := by
  by_cases hslash : c = '\\'
  · subst hslash
    rfl
  by_cases hquote : c = '"'
  · subst hquote
    rfl
  by_cases hbreak : c = '\n'
  · subst hbreak
    rfl
  simp [escapeInRounds, replaceEach, escapeChar, hslash, hquote, hbreak]

/-- The rounds come to the same as escaping each character once. -/
theorem escapeInRounds_eq (text : List Char) :
    escapeInRounds text = text.flatMap escapeChar := by
  induction text with
  | nil => rfl
  | cons c text ih =>
    rw [List.flatMap_cons, ← ih, ← escapeInRounds_singleton, ← escapeInRounds_append]
    rfl

end Rounds

section Scanning

/-- The character that a letter behind a backslash stands for. -/
def unescape? : Char → Option Char
  | '\\' => some '\\'
  | '"' => some '"'
  | 'n' => some '\n'
  | _ => none

/-- Scans a literal from behind its opening quote to the first quote without a backslash. -/
def scanRest? : List Char → Option (List Char × List Char)
  | [] => none
  | '"' :: rest => some ([], rest)
  | '\\' :: e :: rest => do
    let c ← unescape? e
    let (s, left) ← scanRest? rest
    return (c :: s, left)
  | c :: rest => do
    let (s, left) ← scanRest? rest
    return (c :: s, left)

def scanLiteral? : List Char → Option (List Char × List Char)
  | '"' :: rest => scanRest? rest
  | _ => none

variable {s left text literal : List Char}

theorem scanRest?_escape {e c : Char} (h : unescape? e = some c) (rest : List Char) :
    scanRest? ('\\' :: e :: rest) = (scanRest? rest).map fun p => (c :: p.1, p.2) := by
  rw [scanRest?, h]
  cases scanRest? rest <;> rfl

theorem scanRest?_plain {c : Char} (hquote : c ≠ '"') (hslash : c ≠ '\\') (rest : List Char) :
    scanRest? (c :: rest) = (scanRest? rest).map fun p => (c :: p.1, p.2) := by
  rw [scanRest?]
  · cases scanRest? rest <;> rfl
  · exact hquote
  · exact fun _ _ heq => absurd heq hslash

/-- Each character is taken from what is written for it. -/
theorem scanRest?_escapeChar (c : Char) (rest : List Char) :
    scanRest? (escapeChar c ++ rest) = (scanRest? rest).map fun p => (c :: p.1, p.2) := by
  unfold escapeChar
  split
  · next h =>
    rcases h with rfl | rfl
    · exact scanRest?_escape rfl rest
    · exact scanRest?_escape rfl rest
  next hmarks =>
  obtain ⟨hslash, hquote⟩ := not_or.1 hmarks
  split
  · next hbreak =>
    subst hbreak
    exact scanRest?_escape rfl rest
  · exact scanRest?_plain hquote hslash rest

theorem scanRest?_escaped (s left : List Char) :
    scanRest? (s.flatMap escapeChar ++ '"' :: left) = some (s, left) := by
  induction s with
  | nil => rfl
  | cons c s ih =>
    rw [List.flatMap_cons, List.append_assoc, scanRest?_escapeChar, ih]
    rfl

theorem scanLiteral?_textLiteral (s : String) (left : List Char) :
    scanLiteral? (textLiteral s ++ left) = some (s.toList, left) := by
  rw [textLiteral, List.cons_append, List.cons_append, List.append_assoc, List.singleton_append,
    scanLiteral?, scanRest?_escaped]

theorem unescape?_eq_some {e c : Char} (h : unescape? e = some c) :
    escapeChar c = ['\\', e] := by
  unfold unescape? at h
  split at h <;> cases h <;> rfl

/-- What is taken from behind an opening quote is the escaped text, unless there is a line break
in it. -/
theorem eq_escaped_of_scanRest? (h : scanRest? text = some (s, left)) :
    ∃ taken, text = taken ++ left ∧
      ('\n' ∉ taken → taken = s.flatMap escapeChar ++ ['"']) := by
  fun_induction scanRest? text generalizing s left with
  | case1 => cases h
  | case2 rest =>
    cases h
    exact ⟨['"'], rfl, fun _ => rfl⟩
  | case3 e rest ih =>
    obtain ⟨c, hc, h⟩ := Option.bind_eq_some_iff.1 h
    obtain ⟨⟨more, left'⟩, hmore, h⟩ := Option.bind_eq_some_iff.1 h
    cases h
    obtain ⟨taken, rfl, htaken⟩ := ih hmore
    refine ⟨'\\' :: e :: taken, rfl, fun hbreak => ?_⟩
    rw [List.flatMap_cons, unescape?_eq_some hc, htaken fun hmem => hbreak (by simp [hmem])]
    rfl
  | case4 c rest hquote hslash ih =>
    obtain ⟨⟨more, left'⟩, hmore, h⟩ := Option.bind_eq_some_iff.1 h
    cases h
    obtain ⟨taken, rfl, htaken⟩ := ih hmore
    refine ⟨c :: taken, rfl, fun hbreak => ?_⟩
    -- a backslash at the very end would leave nothing to find the closing quote in
    have hplain : c ≠ '\\' := by
      rintro rfl
      cases hrest : taken ++ left with
      | nil =>
        rw [hrest] at hmore
        cases hmore
      | cons e tail => exact hslash e tail rfl hrest
    have hc : escapeChar c = [c] := by
      have hline : c ≠ '\n' := fun heq => hbreak (by simp [heq])
      rw [escapeChar, if_neg (not_or.2 ⟨hplain, hquote⟩), if_neg hline]
    rw [List.flatMap_cons, hc, htaken fun hmem => hbreak (List.mem_cons_of_mem c hmem)]
    rfl

theorem eq_textLiteral_of_scanLiteral? {s : String}
    (h : scanLiteral? (literal ++ left) = some (s.toList, left)) (hbreak : '\n' ∉ literal) :
    literal = textLiteral s := by
  unfold scanLiteral? at h
  split at h
  · next rest hrest =>
    obtain ⟨taken, rfl, htaken⟩ := eq_escaped_of_scanRest? h
    rw [← List.cons_append] at hrest
    obtain rfl := List.append_cancel_right hrest
    rw [htaken fun hmem => hbreak (List.mem_cons_of_mem _ hmem)]
    rfl
  · cases h

end Scanning

/-- A text is written as one literal on one line, escaped in rounds. Scanning takes just the
literal, gives the text back and leaves what follows; no other literal on one line is taken for
the text. -/
theorem textLiteral_delimited (s : String) :
    (∀ layout, render layout (.scalar (.text s)) = .ok (textLiteral s)) ∧
      textLiteral s = '"' :: escapeInRounds s.toList ++ ['"'] ∧
      (∀ left, scanLiteral? (textLiteral s ++ left) = some (s.toList, left)) ∧
      '\n' ∉ textLiteral s ∧
      ∀ literal left, (scanLiteral? (literal ++ left) = some (s.toList, left) ∧ '\n' ∉ literal) ↔
        literal = textLiteral s := by
  have hscan := scanLiteral?_textLiteral s
  have hbreak := not_mem_textLiteral s
  refine ⟨fun layout => rfl, ?_, hscan, hbreak, fun literal left => ⟨?_, ?_⟩⟩
  · rw [escapeInRounds_eq]
    rfl
  · rintro ⟨hliteral, hline⟩
    exact eq_textLiteral_of_scanLiteral? hliteral hline
  · rintro rfl
    exact ⟨hscan left, hbreak⟩

/-- A backslash before a quote, and one at the end. -/
example : scanLiteral? (textLiteral "a\\\"\\" ++ ['"']) = some (['a', '\\', '"', '\\'], ['"']) := by
  decide

end ModelData.Dat
