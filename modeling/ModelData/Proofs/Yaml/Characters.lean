import ModelData.Yaml.Reader
import ModelData.Proofs.Yaml.EscapedTexts

/-! Characters of a written text. Whatever a text holds, what is written for it is printable
ASCII and line feeds, and of these every text may consist. -/

namespace ModelData.Yaml

variable {cs : List Char} {c : Char} {indent : Nat} {folds : Bool}

theorem isOrdinary_newLine : ∀ c ∈ newLine indent, isOrdinary c = true := by
  intro c hc
  rcases List.mem_cons.1 hc with rfl | hc
  · rfl
  · rw [List.eq_of_mem_replicate hc]
    rfl

theorem isOrdinary_foldPlain (hcs : ∀ c ∈ cs, isOrdinary c = true) (afterSpace : Bool)
    (column : Nat) : ∀ c ∈ foldPlain folds indent afterSpace column cs, isOrdinary c = true := by
  induction cs generalizing afterSpace column with
  | nil => exact fun c hc => absurd hc List.not_mem_nil
  | cons d cs ih =>
    have hrest := ih fun c hc => hcs c (List.mem_cons_of_mem d hc)
    rw [foldPlain_cons]
    split
    · exact List.forall_mem_append.2 ⟨isOrdinary_newLine, hrest _ _⟩
    · exact List.forall_mem_cons.2 ⟨hcs d List.mem_cons_self, hrest _ _⟩

theorem isOrdinary_foldSingle (hcs : ∀ c ∈ cs, isOrdinary c = true) (before : Before)
    (column : Nat) : ∀ c ∈ foldSingle folds indent before column cs, isOrdinary c = true := by
  induction cs generalizing before column with
  | nil => exact fun c hc => absurd hc List.not_mem_nil
  | cons d cs ih =>
    have hd := hcs d List.mem_cons_self
    have hrest := ih fun c hc => hcs c (List.mem_cons_of_mem d hc)
    have hspaces : ∀ c ∈ spaces indent, isOrdinary c = true := fun c hc => by
      rw [List.eq_of_mem_replicate hc]
      rfl
    rw [foldSingle_cons]
    split
    · refine List.forall_mem_append.2 ⟨List.forall_mem_append.2 ⟨?_, ?_⟩, hrest _ _⟩
      · split <;> exact forall_mem_of_all (by decide)
      · split
        · simp
        · exact hspaces
    split
    · exact List.forall_mem_cons.2 ⟨rfl, List.forall_mem_cons.2 ⟨rfl, hrest _ _⟩⟩
    split
    · split
      · exact List.forall_mem_append.2 ⟨isOrdinary_newLine, hrest _ _⟩
      · exact List.forall_mem_cons.2 ⟨hd, hrest _ _⟩
    · exact List.forall_mem_cons.2 ⟨hd, hrest _ _⟩

theorem isOrdinary_hex (places n : Nat) : ∀ c ∈ upperHex places n, isOrdinary c = true := by
  have hdigit : ∀ m < 16, isOrdinary (Nat.digitChar m).toUpper = true := by decide
  induction places generalizing n with
  | zero => simp [upperHex, Digits.hex]
  | succ places ih =>
    rw [upperHex, Digits.hex_succ, List.map_append]
    refine List.forall_mem_append.2 ⟨ih (n / 16), ?_⟩
    exact List.forall_mem_cons.2 ⟨hdigit (n % 16) (Nat.mod_lt n (by decide)), by simp⟩

theorem isOrdinary_escape {marks : List Char} (h : escape? c = some marks) :
    ∀ d ∈ marks, isOrdinary d = true := by
  obtain ⟨letter, hletter, -, rfl⟩ | ⟨e, places, he, -, -, -, -, rfl⟩ := escape_cases h
  · simpa using ⟨rfl, hletter⟩
  · exact List.forall_mem_cons.2 ⟨rfl, List.forall_mem_cons.2 ⟨he, isOrdinary_hex places _⟩⟩

theorem isOrdinary_doubleBreak (rest : List Char) :
    ∀ c ∈ (doubleBreak indent rest).1, isOrdinary c = true := by
  unfold doubleBreak
  split
  · exact List.forall_mem_append.2 ⟨List.forall_mem_cons.2 ⟨rfl, isOrdinary_newLine⟩,
      forall_mem_of_all (by decide)⟩
  · exact List.forall_mem_cons.2 ⟨rfl, isOrdinary_newLine⟩

theorem isOrdinary_foldDouble (cs : List Char) (first afterEscape : Bool) (column : Nat) :
    ∀ c ∈ foldDouble folds indent first afterEscape column cs, isOrdinary c = true := by
  induction cs generalizing first afterEscape column with
  | nil => exact fun c hc => absurd hc List.not_mem_nil
  | cons d cs ih =>
    cases hescape : escape? d with
    | some marks =>
      have hmarks := isOrdinary_escape hescape
      rw [foldDouble_escape hescape]
      split
      · exact List.forall_mem_append.2 ⟨List.forall_mem_append.2
          ⟨hmarks, isOrdinary_doubleBreak cs⟩, ih _ _ _⟩
      · exact List.forall_mem_append.2 ⟨hmarks, ih _ _ _⟩
    | none =>
      have hd := (printed_of_escape hescape).1.1
      rw [foldDouble_printed hescape]
      split
      · exact List.forall_mem_append.2 ⟨isOrdinary_doubleBreak (d :: cs),
          List.forall_mem_cons.2 ⟨hd, ih _ _ _⟩⟩
      · exact List.forall_mem_cons.2 ⟨hd, ih _ _ _⟩

theorem isReadable_of_ordinary (h : isOrdinary c = true) : isReadable c = true := by
  simp only [isOrdinary, Bool.or_eq_true, decide_eq_true_eq, Bool.and_eq_true] at h
  rcases h with rfl | ⟨hlow, hhigh⟩
  · rfl
  · have hlow : 0x20 ≤ c.toNat := hlow
    have hhigh : c.toNat ≤ 0x7e := hhigh
    simp [isReadable, hlow, hhigh]

theorem uniformBreaks_of_ordinary (h : ∀ c ∈ cs, isOrdinary c = true) : uniformBreaks cs = cs := by
  induction cs with
  | nil => rfl
  | cons c cs ih =>
    have hmarks : c ∉ ['\r', '\u0085'] := not_mem_of_all (h c List.mem_cons_self) (by decide)
    simp only [List.mem_cons, List.not_mem_nil, or_false, not_or] at hmarks
    rw [uniformBreaks, ih fun d hd => h d (List.mem_cons_of_mem c hd)]
    · exact fun _ heq => absurd heq hmarks.1
    · exact hmarks.1
    · exact hmarks.2

theorem withoutOrderMark_of_ordinary (h : ∀ c ∈ cs, isOrdinary c = true) :
    withoutOrderMark cs = cs := by
  unfold withoutOrderMark
  split
  · exact absurd (h _ List.mem_cons_self) (by decide)
  · rfl

end ModelData.Yaml
