import Mathlib.Data.String.Basic
import ModelData.Proofs.Record.Documents
import ModelData.Proofs.Text.Occurrences
import ModelData.Storage

/-!
The settings that a value gives. Each key admits values of one kind: a number from zero on, or a
text, and the title no text that ends a comment. A table that holds nothing but what its keys admit
gives settings, in which the usual ones stand for those that it leaves out. Anything else is
refused, and by the first thing that is wrong: keys that are unknown, then values of the wrong kind
in the order of the keys, and at last the title.
-/

namespace ModelData.Config

/-- The keys of settings that count something. -/
def countKeys : List String :=
  ["indent_width", "indent_level", "id_padding"]

/-- The keys of settings that are texts. -/
def textKeys : List String :=
  ["banner_title", "timestamp_format", "temp_prefix", "temp_suffix"]

/-- A value is of the kind that a key asks for. -/
inductive Fits : String → Value → Prop where
  | count {key : String} (h : key ∈ countKeys) (n : Nat) : Fits key (.int n)
  | text {key : String} (h : key ∈ textKeys) (s : String) : Fits key (.text s)

/-- What is wrong with a value that is not of the kind that a key asks for. -/
inductive Unfit : String → Value → ConfigFault → Prop where
  | notInteger {key : String} {v : Value} (h : key ∈ countKeys) (kind : v.kind ≠ .int) :
      Unfit key v (.notInteger key v.quoted)
  | negative {key : String} {i : Int} (h : key ∈ countKeys) (sign : i < 0) :
      Unfit key (.int i) (.negative key i)
  | notText {key : String} {v : Value} (h : key ∈ textKeys) (kind : v.kind ≠ .text) :
      Unfit key v (.notText key v.quoted)

/-- What may stand under a key. -/
structure Admits (key : String) (v : Value) : Prop where
  fits : Fits key v
  unclosed : key = "banner_title" → ∀ s, v = .text s → ¬ commentEnd <:+: s.toList

/-- Entries of which each has a known key and what may stand there. -/
structure Proper (entries : List (Value × Value)) : Prop where
  known : ∀ e ∈ entries, ∃ key ∈ keys, e.1 = .text key
  admitted : ∀ key ∈ keys, ∀ v, Table.field? key entries = some v → Admits key v

/-- Values that give settings. -/
inductive Gives : Value → Prop where
  | null : Gives .null
  | table {entries : List (Value × Value)} (h : Proper entries) : Gives (.table entries)

/-- The keys of a table that are no settings. -/
def unknownKeys (entries : List (Value × Value)) : List Value :=
  (entries.map (·.1)).filter fun key => !isKnown key

/-- Why a value gives no settings. -/
inductive Refused : Value → ConfigFault → Prop where
  | notTable {v : Value} (null : v ≠ .null) (table : v.kind ≠ .table) :
      Refused v (.notTable v.kind)
  | unknownKeys {entries : List (Value × Value)} {names : List String} (some : names ≠ [])
      (ordered : names.Pairwise (· ≤ ·))
      (listed : names.Perm ((unknownKeys entries).map Value.asText)) :
      Refused (.table entries) (.unknownKeys names)
  /-- The first value that is not of the right kind. -/
  | unfit {entries : List (Value × Value)} {before after : List String} {key : String} {v : Value}
      {f : ConfigFault} (known : ∀ e ∈ entries, ∃ key ∈ keys, e.1 = .text key)
      (order : keys = before ++ key :: after)
      (fits : ∀ k ∈ before, ∀ w, Table.field? k entries = some w → Fits k w)
      (here : Table.field? key entries = some v) (wrong : Unfit key v f) :
      Refused (.table entries) f
  /-- All values are of the right kind, but the title ends the comment. -/
  | title {entries : List (Value × Value)} {s : String}
      (known : ∀ e ∈ entries, ∃ key ∈ keys, e.1 = .text key)
      (fits : ∀ key ∈ keys, ∀ v, Table.field? key entries = some v → Fits key v)
      (here : Table.field? "banner_title" entries = some (.text s))
      (closes : commentEnd <:+: s.toList) : Refused (.table entries) .titleCloses

theorem mem_keys_iff {key : String} : key ∈ keys ↔ key ∈ countKeys ∨ key ∈ textKeys :=
  List.mem_append (s := countKeys) (t := textKeys)

theorem mem_keys_of_split {before after : List String} {key : String}
    (h : keys = before ++ key :: after) : before ⊆ keys ∧ key ∈ keys :=
  h ▸ ⟨List.subset_append_left _ _, List.mem_append_right _ List.mem_cons_self⟩

theorem not_mem_both {key : String} (h : key ∈ countKeys) : key ∉ textKeys := by
  revert key
  decide

section Kinds

variable {key : String} {v : Value} {f : ConfigFault}

theorem Fits.mem (h : Fits key v) : key ∈ keys := by
  cases h with
  | count h n => exact mem_keys_iff.2 (.inl h)
  | text h s => exact mem_keys_iff.2 (.inr h)

theorem Unfit.mem (h : Unfit key v f) : key ∈ keys := by
  cases h with
  | notInteger h _ => exact mem_keys_iff.2 (.inl h)
  | negative h _ => exact mem_keys_iff.2 (.inl h)
  | notText h _ => exact mem_keys_iff.2 (.inr h)

theorem Unfit.not_fits (h : Unfit key v f) : ¬ Fits key v := by
  cases h with
  | notInteger h kind =>
    rintro (⟨-, n⟩ | ⟨htext, -⟩)
    · exact kind rfl
    · exact not_mem_both h htext
  | @negative i h sign =>
    intro hfits
    cases hfits with
    | count _ n => omega
  | notText h kind =>
    rintro (⟨hcount, -⟩ | ⟨-, s⟩)
    · exact not_mem_both hcount h
    · exact kind rfl

/-- A fault of a value names the key. -/
theorem Unfit.message (h : Unfit key v f) : ∃ more, f.message = key ++ more := by
  cases h with
  | notInteger => exact ⟨_, String.append_assoc⟩
  | negative => exact ⟨_, String.append_assoc⟩
  | notText => exact ⟨_, String.append_assoc⟩

theorem Fits.count_value (h : Fits key v) (hkey : key ∈ countKeys) : ∃ n : Nat, v = .int n := by
  cases h with
  | count _ n => exact ⟨n, rfl⟩
  | text htext s => exact absurd htext (not_mem_both hkey)

theorem Fits.text_value (h : Fits key v) (hkey : key ∈ textKeys) : ∃ s, v = .text s := by
  cases h with
  | count hcount n => exact absurd hkey (not_mem_both hcount)
  | text _ s => exact ⟨s, rfl⟩

/-- A value that is what its key asks for, or what is wrong with it. -/
def check (key : String) (v : Value) : Except ConfigFault Value :=
  if key ∈ countKeys then
    match v with
    | .int i => if i < 0 then .error (.negative key i) else .ok v
    | v => .error (.notInteger key v.quoted)
  else
    match v with
    | .text _ => .ok v
    | v => .error (.notText key v.quoted)

theorem check_count (h : key ∈ countKeys) :
    (Fits key v ∧ check key v = .ok v) ∨ ∃ f, Unfit key v f ∧ check key v = .error f := by
  unfold check
  rw [if_pos h]
  cases v with
  | int i =>
    by_cases sign : i < 0
    · exact .inr ⟨_, .negative h sign, if_pos sign⟩
    · obtain ⟨n, rfl⟩ := Int.eq_ofNat_of_zero_le (Int.not_lt.1 sign)
      exact .inl ⟨.count h n, if_neg sign⟩
  | _ => exact .inr ⟨_, .notInteger h nofun, rfl⟩

theorem check_text (h : key ∈ textKeys) :
    (Fits key v ∧ check key v = .ok v) ∨ ∃ f, Unfit key v f ∧ check key v = .error f := by
  unfold check
  rw [if_neg fun hcount => not_mem_both hcount h]
  cases v with
  | text s => exact .inl ⟨.text h s, rfl⟩
  | _ => exact .inr ⟨_, .notText h nofun, rfl⟩

/-- A value is of the right kind, or something is wrong with it. -/
theorem check_cases (h : key ∈ keys) :
    (Fits key v ∧ check key v = .ok v) ∨ ∃ f, Unfit key v f ∧ check key v = .error f :=
  (mem_keys_iff.1 h).elim check_count check_text

theorem Unfit.unique {f' : ConfigFault} (h : Unfit key v f) (h' : Unfit key v f') : f = f' := by
  cases h with
  | notInteger h kind =>
    cases h' with
    | notInteger => rfl
    | negative => exact absurd rfl kind
    | notText htext => exact absurd htext (not_mem_both h)
  | negative h sign =>
    cases h' with
    | notInteger _ kind => exact absurd rfl kind
    | negative => rfl
    | notText htext => exact absurd htext (not_mem_both h)
  | notText h kind =>
    cases h' with
    | notInteger hcount => exact absurd h (not_mem_both hcount)
    | negative hcount => exact absurd h (not_mem_both hcount)
    | notText => rfl

theorem check_eq_ok_iff (h : key ∈ keys) {w : Value} :
    check key v = .ok w ↔ w = v ∧ Fits key v := by
  rcases check_cases (v := v) h with ⟨hfits, hcheck⟩ | ⟨f, hunfit, hcheck⟩
  · simp [hcheck, hfits, eq_comm]
  · simp [hcheck, hunfit.not_fits]

theorem check_eq_error_iff (h : key ∈ keys) : check key v = .error f ↔ Unfit key v f := by
  rcases check_cases (v := v) h with ⟨hfits, hcheck⟩ | ⟨g, hunfit, hcheck⟩
  · simp only [hcheck, reduceCtorEq, false_iff]
    exact fun hunfit => hunfit.not_fits hfits
  · rw [hcheck, Except.error.injEq]
    constructor
    · rintro rfl
      exact hunfit
    · exact fun hunfit' => hunfit.unique hunfit'

end Kinds

/-! What settings hold under each key. -/

def value (c : Config) (key : String) : Value :=
  (Table.field? key c.toEntries).getD .null

theorem field?_toEntries {key : String} (h : key ∈ keys) (c : Config) :
    Table.field? key c.toEntries = some (c.value key) := by
  revert key
  simp only [keys, List.forall_mem_cons]
  exact ⟨rfl, rfl, rfl, rfl, rfl, rfl, rfl, nofun⟩

theorem fits_value {key : String} (h : key ∈ keys) (c : Config) : Fits key (c.value key) := by
  revert key
  simp only [keys, List.forall_mem_cons]
  refine ⟨.count ?_ _, .count ?_ _, .count ?_ _, .text ?_ _, .text ?_ _, .text ?_ _, .text ?_ _,
    nofun⟩ <;> decide

/-- What settings hold may stand where they hold it. -/
theorem admits_value {key : String} (h : key ∈ keys) (c : Config) : Admits key (c.value key) where
  fits := fits_value h c
  unclosed := by
    rintro rfl s hs hcloses
    have htitle : c.bannerTitle = s := Value.text.inj hs
    have hopen := c.title_open
    rw [htitle, closesComment_iff.2 hcloses] at hopen
    cases hopen

/-! Settings put together from what stands under the keys. -/

section Known

variable {entries : List (Value × Value)} {key : String}

/-- What stands under a key, or else what usually does. -/
def chosen (entries : List (Value × Value)) (key : String) : Value :=
  (Table.field? key entries).getD (standard.value key)

/-- What stands under a key, if it is what the key asks for. -/
def setting (entries : List (Value × Value)) (key : String) : Except ConfigFault Value :=
  check key (chosen entries key)

def assemble : List Value → Except ConfigFault Config
  | [.int (.ofNat indentWidth), .int (.ofNat indentLevel), .int (.ofNat idPadding),
      .text bannerTitle, .text timestampFormat, .text tempPrefix, .text tempSuffix] =>
    if h : closesComment bannerTitle = false then
      .ok { indentWidth, indentLevel, idPadding, bannerTitle, timestampFormat, tempPrefix,
            tempSuffix, title_open := h }
    else .error .titleCloses
  | _ => .error .titleCloses

theorem setting_count (key : String) {n : Nat} (h : key ∈ countKeys)
    (husual : standard.value key = .int n) :
    setting entries key = (count entries key n).map fun n => .int n := by
  unfold setting chosen count check
  rw [if_pos h, husual]
  cases Table.field? key entries with
  | none => rfl
  | some v =>
    cases v with
    | int i =>
      by_cases sign : i < 0
      · simp [sign, Except.map]
      · have hi : (i.toNat : Int) = i := Int.toNat_of_nonneg (Int.not_lt.1 sign)
        simp [sign, Except.map, hi]
    | _ => rfl

theorem setting_text (key : String) {s : String} (h : key ∈ textKeys)
    (husual : standard.value key = .text s) :
    setting entries key = (words entries key s).map .text := by
  unfold setting chosen words check
  rw [if_neg fun hcount => not_mem_both hcount h, husual]
  cases Table.field? key entries with
  | none => rfl
  | some v => cases v <;> rfl

theorem map_bind {α β γ ε : Type} (x : Except ε α) (g : α → β) (k : β → Except ε γ) :
    (x.map g >>= k) = x >>= fun a => k (g a) := by
  cases x <;> rfl

/-- The keys are looked at one after another. -/
theorem ofKnown_eq (entries : List (Value × Value)) :
    ofKnown entries = keys.mapM (setting entries) >>= assemble := by
  rw [keys]
  simp only [List.mapM_cons, List.mapM_nil, bind_assoc, pure_bind]
  rw [setting_count "indent_width" (n := standard.indentWidth) (by decide) rfl,
    setting_count "indent_level" (n := standard.indentLevel) (by decide) rfl,
    setting_count "id_padding" (n := standard.idPadding) (by decide) rfl,
    setting_text "banner_title" (s := standard.bannerTitle) (by decide) rfl,
    setting_text "timestamp_format" (s := standard.timestampFormat) (by decide) rfl,
    setting_text "temp_prefix" (s := standard.tempPrefix) (by decide) rfl,
    setting_text "temp_suffix" (s := standard.tempSuffix) (by decide) rfl]
  simp only [map_bind]
  rfl

/-- A key that is left out stands for what fits. -/
theorem fits_chosen_iff (h : key ∈ keys) :
    Fits key (chosen entries key) ↔ ∀ v, Table.field? key entries = some v → Fits key v := by
  rw [chosen]
  cases Table.field? key entries with
  | none => exact ⟨fun _ => nofun, fun _ => fits_value h standard⟩
  | some v =>
    constructor
    · rintro hfits w ⟨⟩
      exact hfits
    · exact fun hall => hall v rfl

theorem unfit_chosen_iff (h : key ∈ keys) {f : ConfigFault} :
    Unfit key (chosen entries key) f ↔
      ∃ v, Table.field? key entries = some v ∧ Unfit key v f := by
  rw [chosen]
  cases Table.field? key entries with
  | none =>
    constructor
    · exact fun hunfit => absurd (fits_value h standard) hunfit.not_fits
    · rintro ⟨v, ⟨⟩, -⟩
  | some v =>
    constructor
    · exact fun hunfit => ⟨v, rfl, hunfit⟩
    · rintro ⟨w, ⟨⟩, hunfit⟩
      exact hunfit

theorem exists_setting_iff (h : key ∈ keys) :
    (∃ v, setting entries key = .ok v) ↔
      ∀ v, Table.field? key entries = some v → Fits key v := by
  rw [← fits_chosen_iff h]
  constructor
  · rintro ⟨v, hv⟩
    exact ((check_eq_ok_iff h).1 hv).2
  · exact fun hfits => ⟨_, (check_eq_ok_iff h).2 ⟨rfl, hfits⟩⟩

theorem mapM_setting_eq_ok_iff {vs : List Value} :
    keys.mapM (setting entries) = .ok vs ↔
      vs = keys.map (chosen entries) ∧
        ∀ key ∈ keys, ∀ v, Table.field? key entries = some v → Fits key v := by
  constructor
  · intro hvs
    refine ⟨eq_map_of_mapM hvs fun key hkey v hv => ((check_eq_ok_iff hkey).1 hv).1, ?_⟩
    intro key hkey
    obtain ⟨v, -, hv⟩ := exists_of_forall₂ (forall₂_of_mapM hvs) hkey
    exact (exists_setting_iff hkey).1 ⟨v, hv⟩
  · rintro ⟨rfl, hfits⟩
    refine mapM_eq_map fun key hkey => ?_
    exact (check_eq_ok_iff hkey).2 ⟨rfl, (fits_chosen_iff hkey).2 (hfits key hkey)⟩

theorem assemble_eq_ok_iff {vs : List Value} {c : Config} :
    assemble vs = .ok c ↔ vs = keys.map c.value := by
  constructor
  · intro h
    unfold assemble at h
    split at h
    · split at h
      · cases h
        rfl
      · cases h
    · cases h
  · rintro rfl
    exact dif_pos c.title_open

/-- Values of the right kind give no settings only if the title ends the comment. -/
theorem assemble_eq_error_iff {k : String → Value} (h : ∀ key ∈ keys, Fits key (k key))
    {f : ConfigFault} :
    assemble (keys.map k) = .error f ↔
      f = .titleCloses ∧ ∃ s, k "banner_title" = .text s ∧ commentEnd <:+: s.toList := by
  have hcount {key : String} (hkey : key ∈ countKeys) :=
    (h key (mem_keys_iff.2 (.inl hkey))).count_value hkey
  have htext {key : String} (hkey : key ∈ textKeys) :=
    (h key (mem_keys_iff.2 (.inr hkey))).text_value hkey
  obtain ⟨width, hwidth⟩ := @hcount "indent_width" (by decide)
  obtain ⟨level, hlevel⟩ := @hcount "indent_level" (by decide)
  obtain ⟨padding, hpadding⟩ := @hcount "id_padding" (by decide)
  obtain ⟨title, htitle⟩ := @htext "banner_title" (by decide)
  obtain ⟨format, hformat⟩ := @htext "timestamp_format" (by decide)
  obtain ⟨before, hbefore⟩ := @htext "temp_prefix" (by decide)
  obtain ⟨after, hafter⟩ := @htext "temp_suffix" (by decide)
  have hassemble : assemble (keys.map k) = assemble [.int width, .int level, .int padding,
      .text title, .text format, .text before, .text after] := by
    rw [keys]
    simp only [List.map_cons, List.map_nil, hwidth, hlevel, hpadding, htitle, hformat, hbefore,
      hafter]
  rw [hassemble, htitle]
  simp only [Value.text.injEq, exists_eq_left', ← closesComment_iff]
  cases hcloses : closesComment title with
  | true => simp [assemble, hcloses, eq_comm]
  | false => simp [assemble, hcloses]

theorem ofKnown_eq_ok_iff {c : Config} :
    ofKnown entries = .ok c ↔
      (∀ key ∈ keys, chosen entries key = c.value key) ∧
        ∀ key ∈ keys, ∀ v, Table.field? key entries = some v → Fits key v := by
  have hkeys : keys.map (chosen entries) = keys.map c.value ↔
      ∀ key ∈ keys, chosen entries key = c.value key := List.map_inj_left
  rw [ofKnown_eq, ← hkeys]
  constructor
  · intro h
    obtain ⟨vs, hvs, hc⟩ := bind_eq_ok h
    obtain ⟨rfl, hfits⟩ := mapM_setting_eq_ok_iff.1 hvs
    exact ⟨assemble_eq_ok_iff.1 hc, hfits⟩
  · rintro ⟨hchosen, hfits⟩
    rw [mapM_setting_eq_ok_iff.2 ⟨rfl, hfits⟩, ok_bind]
    exact assemble_eq_ok_iff.2 hchosen

/-- A title that ends the comment is none of the usual settings. -/
theorem title_chosen_iff {s : String} (closes : commentEnd <:+: s.toList) :
    chosen entries "banner_title" = .text s ↔
      Table.field? "banner_title" entries = some (.text s) := by
  rw [chosen]
  cases Table.field? "banner_title" entries with
  | none =>
    have hopen := (admits_value (by decide : "banner_title" ∈ keys) standard).unclosed rfl s
    constructor
    · exact fun hs => absurd closes (hopen hs)
    · exact nofun
  | some v => simp

/-- What is wrong with a table of known keys: one of the values, or else the title. -/
theorem ofKnown_eq_error_iff {f : ConfigFault} :
    ofKnown entries = .error f ↔
      (∃ before key after v, keys = before ++ key :: after ∧
        (∀ k ∈ before, ∀ w, Table.field? k entries = some w → Fits k w) ∧
        Table.field? key entries = some v ∧ Unfit key v f) ∨
      ((∀ key ∈ keys, ∀ v, Table.field? key entries = some v → Fits key v) ∧
        f = .titleCloses ∧
        ∃ s, Table.field? "banner_title" entries = some (.text s) ∧
          commentEnd <:+: s.toList) := by
  rw [ofKnown_eq, bind_eq_error_iff, mapM_eq_error_iff]
  apply or_congr
  · constructor
    · rintro ⟨before, key, after, horder, hbefore, herror⟩
      obtain ⟨hsub, hkey⟩ := mem_keys_of_split horder
      obtain ⟨v, hv, hunfit⟩ := (unfit_chosen_iff hkey).1 ((check_eq_error_iff hkey).1 herror)
      exact ⟨before, key, after, v, horder,
        fun k hk => (exists_setting_iff (hsub hk)).1 (hbefore k hk), hv, hunfit⟩
    · rintro ⟨before, key, after, v, horder, hbefore, hv, hunfit⟩
      obtain ⟨hsub, hkey⟩ := mem_keys_of_split horder
      exact ⟨before, key, after, horder,
        fun k hk => (exists_setting_iff (hsub hk)).2 (hbefore k hk),
        (check_eq_error_iff hkey).2 ((unfit_chosen_iff hkey).2 ⟨v, hv, hunfit⟩)⟩
  · simp only [mapM_setting_eq_ok_iff, and_assoc, exists_eq_left]
    refine and_congr_right fun hfits => ?_
    rw [assemble_eq_error_iff fun key hkey => (fits_chosen_iff hkey).2 (hfits key hkey)]
    refine and_congr_right fun _ => ?_
    exact exists_congr fun s => and_congr_left title_chosen_iff

end Known

/-! Values as settings. -/

theorem isKnown_iff {v : Value} : isKnown v = true ↔ ∃ key ∈ keys, v = .text key := by
  cases v <;> simp [isKnown]

theorem unknownKeys_eq_nil_iff {entries : List (Value × Value)} :
    unknownKeys entries = [] ↔ ∀ e ∈ entries, ∃ key ∈ keys, e.1 = .text key := by
  simp [unknownKeys, List.filter_eq_nil_iff, isKnown_iff]

theorem ofValue_known {entries : List (Value × Value)}
    (h : ∀ e ∈ entries, ∃ key ∈ keys, e.1 = .text key) :
    ofValue (.table entries) = ofKnown entries :=
  if_pos (List.isEmpty_iff.2 (unknownKeys_eq_nil_iff.2 h))

theorem ofValue_unknown {entries : List (Value × Value)} (h : unknownKeys entries ≠ []) :
    ofValue (.table entries) = .error (.unknownKeys
      (((unknownKeys entries).map Value.asText).mergeSort fun a b => a ≤ b)) :=
  if_neg fun hempty => h (List.isEmpty_iff.1 hempty)

/-- The call by name takes what the value gives: no known key is refused as a name. -/
theorem ofNamed_known {entries : List (Value × Value)}
    (h : ∀ e ∈ entries, ∃ key ∈ keys, e.1 = .text key) :
    ofNamed (.table entries) = (ofValue (.table entries)).mapError .config := by
  have htexts : (entries.all fun e => e.1.kind = .text) = true := by
    rw [List.all_eq_true]
    intro e he
    obtain ⟨key, -, hkey⟩ := h e he
    rw [hkey]
    rfl
  have hfind : (entries.find? fun e => !isKnown e.1) = none := by
    rw [List.find?_eq_none]
    intro e he
    simp [isKnown_iff.2 (h e he)]
  rw [ofValue_known h, ofNamed, strangeKey?, if_pos htexts, hfind]
  rfl

theorem pairwise_sortedNames (names : List String) :
    (names.mergeSort fun a b => a ≤ b).Pairwise (· ≤ ·) := by
  have hsorted := @List.pairwise_mergeSort String (fun a b => a ≤ b)
    (by simpa using fun a b c => le_trans) (by simpa using le_total) names
  simpa using hsorted

theorem sortedNames_unique {names names' : List String} (hordered : names'.Pairwise (· ≤ ·))
    (hperm : names'.Perm names) : names.mergeSort (fun a b => a ≤ b) = names' :=
  ((List.mergeSort_perm names _).trans hperm.symm).eq_of_pairwise
    (fun _ _ _ _ => le_antisymm) (pairwise_sortedNames names) hordered

/-- What a value holds under a key. -/
def given : Value → String → Option Value
  | .table entries, key => Table.field? key entries
  | _, _ => none

section Values

variable {v : Value} {c : Config} {f : ConfigFault}

theorem exists_ofKnown_iff {entries : List (Value × Value)} :
    (∃ c, ofKnown entries = .ok c) ↔
      ∀ key ∈ keys, ∀ v, Table.field? key entries = some v → Admits key v := by
  constructor
  · rintro ⟨c, hc⟩ key hkey v hv
    have hchosen := (ofKnown_eq_ok_iff.1 hc).1 key hkey
    rw [chosen, hv, Option.getD_some] at hchosen
    exact hchosen ▸ admits_value hkey c
  · intro hadmits
    cases hc : ofKnown entries with
    | ok c => exact ⟨c, rfl⟩
    | error f =>
      rcases ofKnown_eq_error_iff.1 hc with ⟨before, key, after, v, -, -, hv, hunfit⟩ |
        ⟨-, -, s, hs, hcloses⟩
      · exact absurd (hadmits key hunfit.mem v hv).fits hunfit.not_fits
      · exact absurd hcloses ((hadmits "banner_title" (by decide) _ hs).unclosed rfl s rfl)

theorem gives_table_iff {entries : List (Value × Value)} :
    Gives (.table entries) ↔ (∀ e ∈ entries, ∃ key ∈ keys, e.1 = .text key) ∧
      ∃ c, ofKnown entries = .ok c := by
  rw [exists_ofKnown_iff]
  constructor
  · rintro (_ | ⟨hknown, hadmits⟩)
    exact ⟨hknown, hadmits⟩
  · rintro ⟨hknown, hadmits⟩
    exact .table ⟨hknown, hadmits⟩

theorem exists_ofValue_iff : (∃ c, ofValue v = .ok c) ↔ Gives v := by
  cases v with
  | null => exact ⟨fun _ => .null, fun _ => ⟨standard, rfl⟩⟩
  | table entries =>
    rw [gives_table_iff]
    by_cases h : unknownKeys entries = []
    · have hknown := unknownKeys_eq_nil_iff.1 h
      rw [ofValue_known hknown]
      exact ⟨fun hc => ⟨hknown, hc⟩, And.right⟩
    · rw [ofValue_unknown h]
      constructor
      · rintro ⟨c, ⟨⟩⟩
      · exact fun hgives => absurd (unknownKeys_eq_nil_iff.2 hgives.1) h
  | _ =>
    constructor
    · rintro ⟨c, ⟨⟩⟩
    · rintro ⟨⟩

/-- Under a key that is left out stands what usually does. -/
theorem field?_of_ofValue (h : ofValue v = .ok c) {key : String} (hkey : key ∈ keys) :
    Table.field? key c.toEntries = (given v key).or (Table.field? key standard.toEntries) := by
  rw [field?_toEntries hkey c, field?_toEntries hkey standard]
  cases v with
  | null =>
    cases h
    rfl
  | table entries =>
    by_cases hunknown : unknownKeys entries = []
    · rw [ofValue_known (unknownKeys_eq_nil_iff.1 hunknown)] at h
      rw [← (ofKnown_eq_ok_iff.1 h).1 key hkey, given, chosen]
      cases Table.field? key entries <;> rfl
    · rw [ofValue_unknown hunknown] at h
      cases h
  | _ => cases h

theorem ofValue_eq_error_iff : ofValue v = .error f ↔ Refused v f := by
  cases v with
  | null =>
    constructor
    · rintro ⟨⟩
    · rintro ⟨hnull, -⟩
      exact absurd rfl hnull
  | table entries =>
    by_cases h : unknownKeys entries = []
    · have hknown := unknownKeys_eq_nil_iff.1 h
      rw [ofValue_known hknown, ofKnown_eq_error_iff]
      constructor
      · rintro (⟨before, key, after, v, horder, hbefore, hv, hunfit⟩ | ⟨hfits, rfl, s, hs, hcloses⟩)
        · exact .unfit hknown horder hbefore hv hunfit
        · exact .title hknown hfits hs hcloses
      · rintro (⟨-, htable⟩ | ⟨hsome, -, hlisted⟩ | ⟨-, horder, hbefore, hv, hunfit⟩ |
          ⟨-, hfits, hs, hcloses⟩)
        · exact absurd rfl htable
        · have hnames := hlisted.trans (.of_eq (congrArg (List.map Value.asText) h))
          exact absurd hnames.eq_nil hsome
        · exact .inl ⟨_, _, _, _, horder, hbefore, hv, hunfit⟩
        · exact .inr ⟨hfits, rfl, _, hs, hcloses⟩
    · rw [ofValue_unknown h, Except.error.injEq]
      constructor
      · rintro rfl
        refine .unknownKeys ?_ ?_ (List.mergeSort_perm _ _)
        · intro hnil
          have hnames := (List.mergeSort_perm _ _).symm.trans (.of_eq hnil)
          exact h (List.map_eq_nil_iff.1 hnames.eq_nil)
        · exact pairwise_sortedNames _
      · rintro (⟨-, htable⟩ | ⟨-, hordered, hlisted⟩ | ⟨hknown, -⟩ | ⟨hknown, -⟩)
        · exact absurd rfl htable
        · rw [sortedNames_unique hordered hlisted]
        · exact absurd (unknownKeys_eq_nil_iff.2 hknown) h
        · exact absurd (unknownKeys_eq_nil_iff.2 hknown) h
  | _ =>
    constructor
    · rintro ⟨⟩
      exact .notTable nofun nofun
    · rintro ⟨⟩
      rfl

theorem ofValue_toValue (c : Config) : ofValue c.toValue = .ok c := by
  have hknown : ∀ e ∈ c.toEntries, ∃ key ∈ keys, e.1 = .text key := by
    intro e he
    have hkey := List.mem_map_of_mem (f := (·.1)) he
    rw [Document.keys_toEntries] at hkey
    obtain ⟨key, hkey, hname⟩ := List.mem_map.1 hkey
    exact ⟨key, hkey, hname.symm⟩
  rw [toValue, ofValue_known hknown, Document.ofKnown_toEntries]

end Values

/-- A value gives settings exactly if it may, and they hold what it gives and else what is usual.
Any other value is refused for what is wrong with it. Settings come back from their own table. -/
theorem settings_of_value :
    (∀ v, ((∃ c, ofValue v = .ok c) ↔ Gives v) ∧
      (∀ c, ofValue v = .ok c → ∀ key ∈ keys,
        Table.field? key c.toEntries = (given v key).or (Table.field? key standard.toEntries)) ∧
      ∀ f, ofValue v = .error f ↔ Refused v f) ∧
    ∀ c, ofValue (toValue c) = .ok c :=
  ⟨fun _ => ⟨exists_ofValue_iff, fun _ h _ => field?_of_ofValue h, fun _ => ofValue_eq_error_iff⟩,
    ofValue_toValue⟩

theorem settings_of_value_narrow :
    Table.field? "indent_width" ({ indentWidth := 2 } : Config).toEntries = some (.int 2) ∧
      Table.field? "indent_level" ({ indentWidth := 2 } : Config).toEntries = some (.int 1) := by
  have h : ofValue (.table [(.text "indent_width", .int 2)]) = .ok { indentWidth := 2 } := rfl
  have hfields := (settings_of_value.1 _).2.1 _ h
  exact ⟨hfields "indent_width" (by decide), hfields "indent_level" (by decide)⟩

end ModelData.Config
