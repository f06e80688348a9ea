import ModelData.Identifier.Basic
import ModelData.Identifier.Counter
import ModelData.Proofs.Number.Digits

/-!
Names and counter identifiers. A name goes on as a name with whatever parts are put behind it, so
a counter behind a name, or behind nothing, is a name again. Two counters behind one stem are
spelled the same only if they count the same.
-/

namespace ModelData.Identifier

section Words

variable {word more : List Char}

theorem isPart_of_isStart {c : Char} (h : isStart c = true) : isPart c = true := by
  simp only [isStart, isPart, Char.isAlphanum, Bool.or_eq_true] at h ⊢
  exact h.imp_left .inl

theorem isPart_of_isDigit {c : Char} (h : c.isDigit = true) : isPart c = true := by
  simp [isPart, Char.isAlphanum, h]

theorem isPart_of_isName (h : isName word = true) :
    word ≠ [] ∧ ∀ c ∈ word, isPart c = true := by
  cases word with
  | nil => simp [isName] at h
  | cons c word =>
    simp only [isName, Bool.and_eq_true, List.all_eq_true] at h
    refine ⟨by simp, fun d hd => ?_⟩
    rcases List.mem_cons.1 hd with rfl | hd
    · exact isPart_of_isStart h.1
    · exact h.2 d hd

/-- The first character of a word begins no number and no bracket. -/
theorem head_of_isName (h : isName word = true) :
    ∃ c tail, word = c :: tail ∧ isStart c = true := by
  cases word with
  | nil => simp [isName] at h
  | cons c word =>
    simp only [isName, Bool.and_eq_true] at h
    exact ⟨c, word, rfl, h.1⟩

theorem isName_append (h : isName word = true) (hmore : ∀ c ∈ more, isPart c = true) :
    isName (word ++ more) = true := by
  cases word with
  | nil => simp [isName] at h
  | cons c word =>
    simp only [isName, Bool.and_eq_true] at h
    simp only [List.cons_append, isName, List.all_append, Bool.and_eq_true]
    exact ⟨h.1, h.2, List.all_eq_true.2 hmore⟩

/-- No line break has to be taken off a name. -/
theorem isValid_of_isName {s : String} (h : isName s.toList = true) :
    isValid (.text s) = true := by
  have hbreak : s.toList.getLast? ≠ some '\n' := by
    intro hlast
    have hpart := (isPart_of_isName h).2 '\n' (List.mem_of_getLast? hlast)
    simp [isPart] at hpart
  rw [isValid, accepts, withoutFinalBreak, if_neg hbreak]
  exact h

end Words

section Counters

variable {stem : String} {width : Nat}

/-- A counter in a width behind a stem. -/
def numbered (stem : String) (width index : Nat) : String :=
  String.ofList (stem.toList ++ '_' :: Digits.padded width index)

/-- Any width below the limit is taken. -/
theorem counterOf_eq (stem : String) (i : Int) (width : Nat) :
    counterOf (.text stem) (.int i) (.int width) =
      if CounterForm.countLimit ≤ width then .error .counterTooWide
      else .ok (counter stem i { width }) := by
  have hspelling : (Value.int width).chars = Digits.ofNat width := rfl
  rw [counterOf, integerCounter, hspelling, CounterForm.read_ofNat, Value.asText_text]
  split <;> rfl

theorem toList_counter (stem : String) (i : Int) (width : Nat) :
    (counter stem i { width }).toList = stem.toList ++ '_' :: Digits.padded width i := by
  rw [counter, String.toList_ofList, CounterForm.write_width]

theorem counterOf_int (hwidth : width < CounterForm.countLimit) (index : Nat) :
    counterOf (.text stem) (.int index) (.int width) = .ok (numbered stem width index) := by
  rw [counterOf_eq, if_neg (Nat.not_le.2 hwidth), numbered, ← toList_counter, String.ofList_toList]

theorem numbered_injective (stem : String) (width : Nat) :
    Function.Injective (numbered stem width) := by
  intro i j h
  have htexts := String.ofList_injective h
  have hdigits := (List.cons.inj (List.append_cancel_left htexts)).2
  exact Digits.padded_injective width hdigits

theorem isName_numbered (hstem : stem = "" ∨ isName stem.toList = true) (index : Nat) :
    isName (numbered stem width index).toList = true := by
  have hparts : ∀ c ∈ '_' :: Digits.padded width index, isPart c = true := by
    intro c hc
    rcases List.mem_cons.1 hc with rfl | hc
    · decide
    · exact isPart_of_isDigit (Digits.isDigit_of_mem_padded hc)
  rw [numbered, String.toList_ofList]
  rcases hstem with rfl | hname
  · -- behind nothing the underscore itself begins the name
    simp only [String.toList_empty, List.nil_append, isName, Bool.and_eq_true, List.all_eq_true]
    exact ⟨by decide, fun c hc => hparts c (List.mem_cons_of_mem _ hc)⟩
  · exact isName_append hname hparts

end Counters

end ModelData.Identifier
