import Mathlib.Algebra.Group.Nat.Defs
import ModelData.Number.Digits
import ModelData.Proofs.Text.Lists

/-! Decimal spellings of whole numbers: how long they are, what they start with, and that
readers of digits take them whole. -/

namespace ModelData

namespace Digits

theorem lt_pow_length (n : Nat) : n < 10 ^ (ofNat n).length :=
  (Nat.length_toDigits_le_iff (by decide) Nat.length_toDigits_pos).1 (Nat.le_refl _)

theorem pow_length_le {n : Nat} (h : n ≠ 0) : 10 ^ ((ofNat n).length - 1) ≤ n := by
  refine Nat.le_of_not_lt fun hlt => ?_
  rcases Nat.eq_zero_or_pos ((ofNat n).length - 1) with hzero | hpos
  · rw [hzero] at hlt
    omega
  · have hle := (Nat.length_toDigits_le_iff (b := 10) (by decide) hpos).2 hlt
    change (ofNat n).length ≤ _ at hle
    omega

theorem ofNat_of_lt {n : Nat} (h : n < 10) : ofNat n = [Nat.digitChar n] :=
  Nat.toDigits_of_lt_base h

/-- The last digit stands behind the digits of the rest. -/
theorem ofNat_of_ge {n : Nat} (h : 10 ≤ n) :
    ofNat n = ofNat (n / 10) ++ [Nat.digitChar (n % 10)] :=
  Nat.toDigits_of_base_le (by decide) h

theorem getLast?_ofNat (n : Nat) : (ofNat n).getLast? = some (Nat.digitChar (n % 10)) := by
  rcases Nat.lt_or_ge n 10 with hlt | hge
  · rw [ofNat_of_lt hlt, Nat.mod_eq_of_lt hlt]
    rfl
  · rw [ofNat_of_ge hge, List.getLast?_concat]

theorem digitChar_ne_zero : ∀ n < 10, n ≠ 0 → Nat.digitChar n ≠ '0' := by decide

/-- Only zero is spelled with a leading zero. -/
theorem head_ofNat {n : Nat} (h : n ≠ 0) : (ofNat n).head? ≠ some '0' := by
  induction n using Nat.strongRecOn with
  | ind n ih =>
    rcases Nat.lt_or_ge n 10 with hlt | hge
    · rw [ofNat_of_lt hlt]
      simpa using digitChar_ne_zero n hlt h
    · have hhead := ih (n / 10) (by omega) (by omega)
      rw [ofNat_of_ge hge, List.head?_append]
      cases hdigits : ofNat (n / 10) with
      | nil => exact absurd hdigits (ofNat_ne_nil _)
      | cons d ds =>
        rw [hdigits] at hhead
        exact hhead

theorem ofNat_zero : ofNat 0 = ['0'] := rfl

theorem toNat_append (xs ys : List Char) :
    toNat (xs ++ ys) = toNat xs * 10 ^ ys.length + toNat ys := by
  rw [toNat, Nat.ofDigitChars_append, Nat.ofDigitChars_eq_ofDigitChars_zero, Nat.mul_comm]
  rfl

theorem toNat_replicate_zero (n : Nat) : toNat (List.replicate n '0') = 0 := by
  rw [toNat, Nat.ofDigitChars_replicate_zero, Nat.mul_zero]

theorem digitValue?_of_isDigit {c : Char} (h : c.isDigit = true) :
    digitValue? c = some (c.toNat - '0'.toNat) ∧ c.toNat - '0'.toNat < 10 := by
  have hbounds : '0' ≤ c ∧ c ≤ '9' := by
    rw [Char.isDigit, Bool.and_eq_true, decide_eq_true_eq, decide_eq_true_eq] at h
    exact h
  refine ⟨by rw [digitValue?, if_pos hbounds], ?_⟩
  have hle : c.toNat ≤ '9'.toNat := hbounds.2
  have hnine : '9'.toNat = '0'.toNat + 9 := rfl
  omega

theorem foldlM_digits {ds : List Char} (h : ∀ c ∈ ds, c.isDigit = true) (n : Nat) :
    (ds.foldlM (fun n d =>
      match digitValue? d with
      | some v => if v < 10 then some (n * 10 + v) else none
      | none => none) n : Option Nat) = some (Nat.ofDigitChars 10 ds n) := by
  induction ds generalizing n with
  | nil => rfl
  | cons c ds ih =>
    obtain ⟨hvalue, hlt⟩ := digitValue?_of_isDigit (h c (by simp))
    rw [List.foldlM_cons, hvalue, Nat.ofDigitChars_cons]
    simp only [if_pos hlt, Option.bind_eq_bind, Option.bind_some, Nat.mul_comm n 10]
    exact ih (fun d hd => h d (by simp [hd])) _

theorem read?_ten {ds : List Char} (hne : ds ≠ []) (h : ∀ c ∈ ds, c.isDigit = true) :
    read? 10 ds = some (toNat ds) := by
  cases ds with
  | nil => exact absurd rfl hne
  | cons c ds => exact foldlM_digits h 0

section Padded

variable {width n : Nat}

theorem padded_eq (width n : Nat) :
    padded width n = List.replicate (width - (ofNat n).length) '0' ++ ofNat n :=
  rfl

theorem isDigit_of_mem_padded {c : Char} (h : c ∈ padded width n) : c.isDigit = true := by
  rw [padded_eq] at h
  rcases List.mem_append.1 h with h | h
  · rw [List.eq_of_mem_replicate h]
    rfl
  · exact isDigit_of_mem_ofNat h

theorem toNat_padded (width n : Nat) : toNat (padded width n) = n := by
  rw [padded_eq, toNat_append, toNat_replicate_zero, toNat_ofNat, Nat.zero_mul, Nat.zero_add]

theorem padded_injective (width : Nat) : Function.Injective fun n : Nat => padded width n := by
  intro m n h
  rw [← toNat_padded width m, ← toNat_padded width n]
  exact congrArg toNat h

theorem padded_ne_nil (width n : Nat) : padded width n ≠ [] := by
  rw [padded_eq]
  simp [ofNat_ne_nil]

theorem length_padded (h : (ofNat n).length ≤ width) : (padded width n).length = width := by
  rw [padded_eq, List.length_append, List.length_replicate, Nat.sub_add_cancel h]

end Padded

section Values

variable {c : Char} {ds : List Char}

theorem toNat_cons (c : Char) (ds : List Char) :
    toNat (c :: ds) = (c.toNat - '0'.toNat) * 10 ^ ds.length + toNat ds := by
  rw [← List.singleton_append, toNat_append]
  simp [toNat, Nat.ofDigitChars]

theorem toNat_lt_pow (h : ∀ c ∈ ds, c.isDigit = true) : toNat ds < 10 ^ ds.length := by
  induction ds with
  | nil => decide
  | cons c ds ih =>
    obtain ⟨-, hlt⟩ := digitValue?_of_isDigit (h c (by simp))
    have ih := ih fun d hd => h d (by simp [hd])
    calc toNat (c :: ds)
        = (c.toNat - '0'.toNat) * 10 ^ ds.length + toNat ds := toNat_cons c ds
      _ < (c.toNat - '0'.toNat) * 10 ^ ds.length + 10 ^ ds.length := Nat.add_lt_add_left ih _
      _ = (c.toNat - '0'.toNat + 1) * 10 ^ ds.length := (Nat.succ_mul _ _).symm
      _ ≤ 10 * 10 ^ ds.length := Nat.mul_le_mul_right _ hlt
      _ = 10 ^ (c :: ds).length := (Nat.pow_succ').symm

theorem zero_le_of_isDigit (h : c.isDigit = true) : '0'.toNat ≤ c.toNat := by
  rw [Char.isDigit, Bool.and_eq_true, decide_eq_true_eq] at h
  exact h.1

/-- Among spellings of one length none have the same value. -/
theorem toNat_inj {xs ys : List Char} (hlength : xs.length = ys.length)
    (hxs : ∀ c ∈ xs, c.isDigit = true) (hys : ∀ c ∈ ys, c.isDigit = true)
    (h : toNat xs = toNat ys) : xs = ys := by
  induction xs generalizing ys with
  | nil => exact (List.length_eq_zero_iff.1 hlength.symm).symm
  | cons x xs ih =>
    obtain ⟨y, ys, rfl⟩ := List.exists_cons_of_length_eq_add_one hlength.symm
    have htail : ∀ c ∈ xs, c.isDigit = true := fun c hc => hxs c (by simp [hc])
    have htail' : ∀ c ∈ ys, c.isDigit = true := fun c hc => hys c (by simp [hc])
    have hlength : xs.length = ys.length := by simpa using hlength
    have hlt := toNat_lt_pow htail
    have hlt' := toNat_lt_pow htail'
    have hpos : 0 < 10 ^ ys.length := Nat.pow_pos (by decide)
    rw [toNat_cons, toNat_cons, hlength] at h
    rw [hlength] at hlt
    have hhead := congrArg (· / 10 ^ ys.length) h
    have hrest := congrArg (· % 10 ^ ys.length) h
    simp only [Nat.mul_comm _ (10 ^ ys.length), Nat.mul_add_div hpos, Nat.div_eq_of_lt hlt,
      Nat.div_eq_of_lt hlt', Nat.add_zero] at hhead
    simp only [Nat.mul_comm _ (10 ^ ys.length), Nat.mul_add_mod, Nat.mod_eq_of_lt hlt,
      Nat.mod_eq_of_lt hlt'] at hrest
    have hx := zero_le_of_isDigit (hxs x (by simp))
    have hy := zero_le_of_isDigit (hys y (by simp))
    have hchar : x.toNat = y.toNat := by omega
    rw [Char.toNat_inj.1 hchar, ih hlength htail htail' hrest]

/-- Among spellings of one length the order by characters is the order by value. -/
theorem lt_of_toNat_lt {xs ys : List Char} (hlength : xs.length = ys.length)
    (hxs : ∀ c ∈ xs, c.isDigit = true) (hys : ∀ c ∈ ys, c.isDigit = true)
    (h : toNat xs < toNat ys) : xs < ys := by
  induction xs generalizing ys with
  | nil =>
    obtain rfl := List.length_eq_zero_iff.1 hlength.symm
    exact absurd h (Nat.lt_irrefl _)
  | cons x xs ih =>
    obtain ⟨y, ys, rfl⟩ := List.exists_cons_of_length_eq_add_one hlength.symm
    have htail : ∀ c ∈ xs, c.isDigit = true := fun c hc => hxs c (by simp [hc])
    have htail' : ∀ c ∈ ys, c.isDigit = true := fun c hc => hys c (by simp [hc])
    have hlength : xs.length = ys.length := by simpa using hlength
    rw [toNat_cons, toNat_cons, hlength] at h
    rw [List.cons_lt_cons_iff]
    rcases Nat.lt_trichotomy x.toNat y.toNat with hless | heq | hmore
    · exact .inl hless
    · rw [heq, Nat.add_lt_add_iff_left] at h
      exact .inr ⟨Char.toNat_inj.1 heq, ih hlength htail htail' h⟩
    · -- a larger first digit outweighs all that is behind the smaller one
      have hy := zero_le_of_isDigit (hys y (by simp))
      have hlt := toNat_lt_pow htail'
      have hdigit : y.toNat - '0'.toNat + 1 ≤ x.toNat - '0'.toNat := by omega
      have hplace := Nat.mul_le_mul_right (10 ^ ys.length) hdigit
      rw [Nat.succ_mul] at hplace
      omega

theorem length_toNat_le (hne : ds ≠ []) (h : ∀ c ∈ ds, c.isDigit = true) :
    (ofNat (toNat ds)).length ≤ ds.length :=
  (Nat.length_toDigits_le_iff (by decide) (List.length_pos_iff.2 hne)).2 (toNat_lt_pow h)

/-- Digits are filled up to their own length, whatever zeros they start with. -/
theorem padded_toNat (hne : ds ≠ []) (h : ∀ c ∈ ds, c.isDigit = true) :
    padded ds.length (toNat ds) = ds :=
  toNat_inj (length_padded (length_toNat_le hne h)) (fun _ hc => isDigit_of_mem_padded hc) h
    (toNat_padded _ _)

/-- Counters that fit a width are in the order of their spellings. -/
theorem padded_lt {width i j : Nat} (hij : i < j) (hj : j < 10 ^ width) :
    padded width i < padded width j := by
  have hwidth : 0 < width := by
    refine Nat.pos_of_ne_zero ?_
    rintro rfl
    omega
  have hlength {n : Nat} (hn : n < 10 ^ width) : (padded width n).length = width :=
    length_padded ((Nat.length_toDigits_le_iff (by decide) hwidth).2 hn)
  refine lt_of_toNat_lt ?_ (fun _ hc => isDigit_of_mem_padded hc)
    (fun _ hc => isDigit_of_mem_padded hc) ?_
  · rw [hlength hj, hlength (Nat.lt_trans hij hj)]
  · rwa [toNat_padded, toNat_padded]

end Values

theorem mem_ofInt {i : Int} {c : Char} (h : c ∈ ofInt i) : c = '-' ∨ c.isDigit = true := by
  cases i with
  | ofNat n => exact .inr (isDigit_of_mem_ofNat h)
  | negSucc n =>
    rcases List.mem_cons.1 h with h | h
    · exact .inl h
    · exact .inr (isDigit_of_mem_ofNat h)

theorem mem_padded {width : Nat} {i : Int} {c : Char} (h : c ∈ padded width i) :
    c = '-' ∨ c.isDigit = true := by
  cases i with
  | ofNat n => exact .inr (isDigit_of_mem_padded h)
  | negSucc n =>
    rcases List.mem_cons.1 h with h | h
    · exact .inl h
    · exact .inr (isDigit_of_mem_padded h)

theorem read?_of_ne_nil (base : Nat) {cs : List Char} (h : cs ≠ []) :
    read? base cs = cs.foldlM (fun n d =>
      match digitValue? d with
      | some v => if v < base then some (n * base + v) else none
      | none => none) 0 := by
  cases cs with
  | nil => exact absurd rfl h
  | cons c cs => rfl

theorem isSome_of_foldlM {α β : Type} {f : β → α → Option β} {xs : List α} {start last : β}
    (h : xs.foldlM f start = some last) {x : α} (hx : x ∈ xs) : ∃ y, (f y x).isSome := by
  induction xs generalizing start with
  | nil => simp at hx
  | cons y xs ih =>
    rw [List.foldlM_cons] at h
    obtain ⟨next, hnext, hrest⟩ := Option.bind_eq_some_iff.1 h
    rcases List.mem_cons.1 hx with rfl | hx
    · exact ⟨start, Option.isSome_of_eq_some hnext⟩
    · exact ih hrest hx

/-- What is read as a number holds nothing but digits. -/
theorem isSome_digitValue_of_read {base n : Nat} {cs : List Char} (h : read? base cs = some n)
    {c : Char} (hc : c ∈ cs) : (digitValue? c).isSome := by
  rw [read?_of_ne_nil base (List.ne_nil_of_mem hc)] at h
  obtain ⟨start, hsome⟩ := isSome_of_foldlM h hc
  cases hvalue : digitValue? c with
  | none => simp [hvalue] at hsome
  | some v => rfl

/-- A spelling of some digits stands for a number of at most that many digits. -/
theorem read?_lt {base n : Nat} {cs : List Char} (h : read? base cs = some n) :
    n < base ^ cs.length := by
  have hfold (cs : List Char) (start : Nat) :
      cs.foldlM (fun n d =>
        match digitValue? d with
        | some v => if v < base then some (n * base + v) else none
        | none => none) start = some n → n < (start + 1) * base ^ cs.length := by
    induction cs generalizing start with
    | nil =>
      rintro ⟨⟩
      simp
    | cons d cs ih =>
      rw [List.foldlM_cons]
      intro hd
      obtain ⟨next, hnext, hrest⟩ := Option.bind_eq_some_iff.1 hd
      split at hnext
      · next v _ =>
        split_ifs at hnext with hv
        obtain rfl := Option.some.inj hnext
        calc n < (start * base + v + 1) * base ^ cs.length := ih _ hrest
          _ ≤ (start + 1) * base * base ^ cs.length :=
            Nat.mul_le_mul_right _ (by rw [Nat.add_mul]; omega)
          _ = (start + 1) * base ^ (d :: cs).length := by
            rw [List.length_cons, Nat.pow_succ', Nat.mul_assoc]
      · cases hnext
  have hne : cs ≠ [] := by
    rintro rfl
    cases h
  rw [read?_of_ne_nil base hne] at h
  simpa using hfold cs 0 h

section Hex

variable {spell : Char → Char}

theorem hex_succ (places n : Nat) : hex (places + 1) n = hex places (n / 16) ++ [hexDigit n] :=
  rfl

theorem foldlM_hex (hspell : ∀ m < 16, digitValue? (spell (Nat.digitChar m)) = some m)
    (places n start : Nat) :
    (((hex places n).map spell).foldlM (fun n d =>
      match digitValue? d with
      | some v => if v < 16 then some (n * 16 + v) else none
      | none => none) start : Option Nat) = some (start * 16 ^ places + n % 16 ^ places) := by
  induction places generalizing n start with
  | zero => simp [hex, Nat.mod_one]
  | succ places ih =>
    have hdigit : digitValue? (spell (hexDigit n)) = some (n % 16) :=
      hspell (n % 16) (Nat.mod_lt n (by decide))
    have hlt : n % 16 < 16 := Nat.mod_lt n (by decide)
    rw [hex_succ, List.map_append, List.foldlM_append, ih]
    simp only [Option.bind_eq_bind, Option.bind_some, List.map_cons, List.map_nil,
      List.foldlM_cons, List.foldlM_nil, hdigit, if_pos hlt]
    have hsplit : n % 16 ^ (places + 1) = n % 16 + 16 * (n / 16 % 16 ^ places) := by
      rw [Nat.pow_succ', Nat.mod_mul]
    rw [hsplit, Nat.pow_succ]
    congr 1
    rw [Nat.add_mul, Nat.mul_assoc]
    omega

/-- A number is read back from its hexadecimal digits, in any spelling of the digits. -/
theorem read?_hex (hspell : ∀ m < 16, digitValue? (spell (Nat.digitChar m)) = some m)
    {places n : Nat} (hplaces : places ≠ 0) (hn : n < 16 ^ places) :
    read? 16 ((hex places n).map spell) = some n := by
  have hne : (hex places n).map spell ≠ [] := by
    cases places with
    | zero => exact absurd rfl hplaces
    | succ places => simp [hex_succ]
  rw [read?_of_ne_nil 16 hne, foldlM_hex hspell, Nat.mod_eq_of_lt hn, Nat.zero_mul, Nat.zero_add]

theorem length_hex (places n : Nat) : (hex places n).length = places := by
  induction places generalizing n with
  | zero => rfl
  | succ places ih => rw [hex_succ, List.length_append, ih, List.length_singleton]

end Hex

end Digits

end ModelData
