import ModelData.Proofs.Json.Data
import ModelData.Proofs.Json.Numbers
import ModelData.Proofs.Json.Texts
import ModelData.Proofs.Value.Traverse

/-!
Data as JSON text. Everything that can be read is written, in one way for all orders of the
entries of its tables, and what is written is read as the value with its entries in order: within
a larger text as soon as what follows does not go on with a number, and with two steps for each
character.
-/

namespace ModelData.Json

/-- A format that leaves texts alone. -/
def same (_ : Nat) (text : List Char) : List Char :=
  text

/-- A text that starts a value. -/
def StartsValue (text : List Char) : Prop :=
  ∃ c tail, text = c :: tail ∧ isBlank c = false ∧ c ≠ ']' ∧ c ≠ '\x7d'

/-- The text is read as the value, whatever follows. -/
structure Reads (text : List Char) (v : Value) : Prop where
  starts : StartsValue text
  reads : ∀ rest steps, EndsNumber rest → 2 * text.length ≤ steps →
    readValue steps (text ++ rest) = some (v, rest)

variable {rest : List Char}

theorem skip_cons {c : Char} (h : isBlank c = false) (rest : List Char) :
    skip (c :: rest) = c :: rest := by
  rw [skip, List.dropWhile_cons_of_neg (by simp [h])]

theorem skip_space (rest : List Char) : skip (' ' :: rest) = skip rest := by
  rw [skip, List.dropWhile_cons_of_pos (by decide)]
  rfl

theorem StartsValue.skip {text : List Char} (h : StartsValue text) (rest : List Char) :
    skip (text ++ rest) = text ++ rest := by
  obtain ⟨c, tail, rfl, hblank, -, -⟩ := h
  exact skip_cons hblank _

theorem EndsNumber.cons {c : Char} (h : c ∈ [',', ']', '\x7d', '\n']) (rest : List Char) :
    EndsNumber (c :: rest) := by
  have hmarks : ∀ c ∈ [',', ']', '\x7d', '\n'],
      c.isDigit = false ∧ c ≠ '.' ∧ c ≠ 'e' ∧ c ≠ 'E' := forall_mem_of_all (by decide)
  intro d hd
  obtain rfl : c = d := by simpa using hd
  exact hmarks c h

section Atoms

/-- A text that starts neither a text, a list nor a table is read as an atom. -/
theorem readValue_atom {c : Char} {tail : List Char} (h : c ∉ ['"', '[', '\x7b']) (steps : Nat) :
    readValue (steps + 1) (c :: tail) = readAtom? (c :: tail) := by
  simp only [List.mem_cons, List.not_mem_nil, or_false, not_or] at h
  rw [readValue]
  · exact fun _ heq => h.1 (List.cons.inj heq).1
  · exact fun _ heq => h.2.1 (List.cons.inj heq).1
  · exact fun _ heq => h.2.2 (List.cons.inj heq).1

theorem reads_atom {text : List Char} {v : Value}
    (hstart : ∃ c tail, text = c :: tail ∧ c ∉ ['"', '[', '\x7b', ']', '\x7d'] ∧
      isBlank c = false)
    (hatom : ∀ rest, EndsNumber rest → readAtom? (text ++ rest) = some (v, rest)) :
    Reads text v := by
  obtain ⟨c, tail, rfl, hc, hblank⟩ := hstart
  simp only [List.mem_cons, List.not_mem_nil, or_false, not_or] at hc
  refine ⟨⟨c, tail, rfl, hblank, hc.2.2.2.1, hc.2.2.2.2⟩, fun rest steps hrest hsteps => ?_⟩
  obtain ⟨steps, rfl⟩ : ∃ n, steps = n + 1 := by
    refine Nat.exists_eq_add_one_of_ne_zero fun hzero => ?_
    simp [hzero] at hsteps
  rw [List.cons_append, readValue_atom (by simp [hc])]
  exact hatom rest hrest

theorem reads_flag (b : Bool) : Reads (flagText b) (.flag b) := by
  cases b with
  | true => exact reads_atom ⟨'t', _, rfl, by decide, rfl⟩ fun _ _ => rfl
  | false => exact reads_atom ⟨'f', _, rfl, by decide, rfl⟩ fun _ _ => rfl

theorem reads_null : Reads "null".toList .null :=
  reads_atom ⟨'n', _, rfl, by decide, rfl⟩ fun _ _ => rfl

theorem reads_nan : Reads "NaN".toList (.float (.nan nanOccurrence)) :=
  reads_atom ⟨'N', _, rfl, by decide, rfl⟩ fun _ _ => rfl

theorem reads_infinite (negative : Bool) :
    Reads (Binary64.signed negative "Infinity".toList) (.float (.infinite negative)) := by
  cases negative with
  | true => exact reads_atom ⟨'-', _, rfl, by decide, rfl⟩ fun _ _ => rfl
  | false => exact reads_atom ⟨'I', _, rfl, by decide, rfl⟩ fun _ _ => rfl

theorem start_of_digits {c : Char} (h : c = '-' ∨ c.isDigit = true) :
    c ∉ ['"', '[', '\x7b', ']', '\x7d'] ∧ isBlank c = false := by
  rcases h with rfl | h
  · decide
  · have hne (d : Char) (hd : d.isDigit = false) : c ≠ d := fun heq => by simp [heq, hd] at h
    have hspace := hne ' ' rfl
    have htab := hne '\t' rfl
    have hline := hne '\n' rfl
    have hreturn := hne '\r' rfl
    refine ⟨?_, by simp [isBlank, hspace, htab, hline, hreturn]⟩
    exact not_mem_of_all h (by decide)

theorem reads_int (i : Int) : Reads (Digits.ofInt i) (.int i) := by
  obtain ⟨c, tail, htext, hc⟩ := Binary64.head_ofInt i
  exact reads_atom ⟨c, tail, htext, start_of_digits hc⟩ fun _ hrest => readAtom?_int i hrest

theorem reads_float (x : Binary64.Finite) :
    Reads (x.spell floatStyle) (.float (.finite x)) := by
  obtain ⟨c, tail, htext, hc⟩ := Binary64.head_spell floatStyle x
  exact reads_atom ⟨c, tail, htext, start_of_digits hc⟩ fun _ hrest =>
    readAtom?_float floatStyle x hrest

theorem quote_append (s rest : List Char) :
    quote s ++ rest = '"' :: (s.flatMap escapeChar ++ '"' :: rest) := by
  simp [quote]

theorem length_quote (s : List Char) : s.length + 2 ≤ (quote s).length := by
  have hle := length_le_flatMap_escapeChar s
  simp only [quote, List.length_cons, List.length_append, List.length_nil]
  omega

theorem reads_text (s : String) : Reads (quote s.toList) (.text s) := by
  refine ⟨⟨'"', _, rfl, rfl, by decide, by decide⟩, fun rest steps _ hsteps => ?_⟩
  have hlength := length_quote s.toList
  obtain ⟨steps, rfl⟩ : ∃ n, steps = n + 1 := Nat.exists_eq_add_one_of_ne_zero (by omega)
  rw [quote_append, readValue, readText_quote s.toList (by omega)]
  simp only [Option.bind_eq_bind, Option.bind_some, String.ofList_toList]
  rfl

end Atoms

section Collections

theorem commas_cons_cons (part next : List Char) (parts : List (List Char)) :
    commas (part :: next :: parts) = part ++ (',' :: ' ' :: commas (next :: parts)) := by
  simp [commas, List.intercalate_cons_cons]

theorem commas_singleton (part : List Char) : commas [part] = part := by
  simp [commas]

theorem startsValue_commas {text : List Char} (h : StartsValue text) (texts : List (List Char)) :
    StartsValue (commas (text :: texts)) := by
  obtain ⟨c, tail, rfl, hc⟩ := h
  cases texts with
  | nil => exact ⟨c, tail, by rw [commas_singleton], hc⟩
  | cons next texts => exact ⟨c, _, by rw [commas_cons_cons, List.cons_append], hc⟩

/-- The reader of items takes the item, and goes on behind a comma. -/
theorem Reads.step {text : List Char} {v : Value} (h : Reads text v) {steps : Nat}
    (hsteps : 2 * text.length ≤ steps) {rest : List Char} (hrest : EndsNumber rest) :
    readItems (steps + 1) (text ++ rest) =
      match skip rest with
      | ']' :: rest => some ([v], rest)
      | ',' :: rest => (readItems steps (skip rest)).bind fun p => some (v :: p.1, p.2)
      | _ => none := by
  have hread := h.reads rest steps hrest hsteps
  simp only [readItems, hread, Option.bind_eq_bind, Option.bind_some]
  rfl

/-- Items with commas between them are read one after another. -/
theorem readItems_commas {texts : List (List Char)} {vs : List Value}
    (h : List.Forall₂ Reads texts vs) (hne : texts ≠ []) {steps : Nat}
    (hsteps : 2 * (commas texts).length + 1 ≤ steps) (rest : List Char) :
    readItems steps (commas texts ++ ']' :: rest) = some (vs, rest) := by
  induction h generalizing steps with
  | nil => exact absurd rfl hne
  | @cons text v texts vs hfirst hmore ih =>
    obtain ⟨steps, rfl⟩ : ∃ n, steps = n + 1 := Nat.exists_eq_add_one_of_ne_zero (by omega)
    cases hmore with
    | nil =>
      rw [commas_singleton] at hsteps ⊢
      rw [hfirst.step (by omega) (.cons (by simp) _), skip_cons (by decide)]
      rfl
    | @cons next w texts vs hnext hmore =>
      rw [commas_cons_cons] at hsteps ⊢
      simp only [List.length_append, List.length_cons] at hsteps
      have hrest := ih (by simp) (by omega : 2 * (commas (next :: texts)).length + 1 ≤ steps)
      have hstart : skip (' ' :: (commas (next :: texts) ++ ']' :: rest)) =
          commas (next :: texts) ++ ']' :: rest := by
        rw [skip_space]
        exact (startsValue_commas hnext.starts texts).skip _
      rw [List.append_assoc, List.cons_append, List.cons_append,
        hfirst.step (by omega) (.cons (by simp) _), skip_cons (by decide)]
      simp only [hstart, hrest, Option.bind_some]

theorem reads_list {texts : List (List Char)} {vs : List Value} (h : List.Forall₂ Reads texts vs) :
    Reads ('[' :: commas texts ++ [']']) (.list vs) := by
  refine ⟨⟨'[', _, rfl, rfl, by decide, by decide⟩, fun rest steps _ hsteps => ?_⟩
  simp only [List.length_append, List.length_cons, List.length_nil] at hsteps
  obtain ⟨steps, rfl⟩ : ∃ n, steps = n + 1 := Nat.exists_eq_add_one_of_ne_zero (by omega)
  rw [List.cons_append, List.cons_append, List.append_assoc, List.singleton_append, readValue]
  cases h with
  | nil => rfl
  | @cons text v texts vs hfirst hmore =>
    have hitems := @readItems_commas _ _ (.cons hfirst hmore) (by simp) steps (by omega) rest
    have hstart := startsValue_commas hfirst.starts texts
    rw [hstart.skip]
    obtain ⟨c, tail, htext, -, hc, -⟩ := hstart
    rw [htext, List.cons_append] at hitems ⊢
    split
    · next heq => exact absurd (List.cons.inj heq).1 hc
    · rw [hitems]
      rfl

/-- The text of an entry is its key in quotes with the text of its value behind a colon. -/
def ReadsEntry (text : List Char) (e : Value × Value) : Prop :=
  ∃ s u, e.1 = .text s ∧ text = quote s.toList ++ (':' :: ' ' :: u) ∧ Reads u e.2

theorem ReadsEntry.starts {text : List Char} {e : Value × Value} (h : ReadsEntry text e) :
    StartsValue text := by
  obtain ⟨s, u, -, rfl, -⟩ := h
  exact ⟨'"', _, rfl, rfl, by decide, by decide⟩

/-- The reader of entries takes the entry, and goes on behind a comma. -/
theorem ReadsEntry.step {text : List Char} {e : Value × Value} (h : ReadsEntry text e)
    {steps : Nat} (hsteps : 2 * text.length ≤ steps + 1) {rest : List Char}
    (hrest : EndsNumber rest) :
    readEntries (steps + 1) (text ++ rest) =
      match skip rest with
      | '\x7d' :: rest => some ([e], rest)
      | ',' :: rest => (readEntries steps (skip rest)).bind fun p => some (e :: p.1, p.2)
      | _ => none := by
  obtain ⟨s, u, hkey, rfl, hvalue⟩ := h
  obtain ⟨key, v⟩ := e
  obtain rfl : key = .text s := hkey
  have hlength := length_quote s.toList
  simp only [List.length_append, List.length_cons] at hsteps
  have htext := readText_quote s.toList (by omega : s.toList.length < steps + 1)
    (':' :: ' ' :: (u ++ rest))
  have hcolon := skip_cons (by decide : isBlank ':' = false) (' ' :: (u ++ rest))
  have hbehind : skip (' ' :: (u ++ rest)) = u ++ rest := by
    rw [skip_space, hvalue.starts.skip]
  have hread := hvalue.reads rest steps hrest (by omega)
  rw [List.append_assoc, quote_append, List.cons_append, List.cons_append]
  simp only [readEntries, htext, Option.bind_eq_bind, Option.bind_some, hcolon, hbehind, hread,
    String.ofList_toList]
  rfl

theorem readEntries_commas {texts : List (List Char)} {entries : List (Value × Value)}
    (h : List.Forall₂ ReadsEntry texts entries) (hne : texts ≠ []) {steps : Nat}
    (hsteps : 2 * (commas texts).length + 1 ≤ steps) (rest : List Char) :
    readEntries steps (commas texts ++ '\x7d' :: rest) = some (entries, rest) := by
  induction h generalizing steps with
  | nil => exact absurd rfl hne
  | @cons text e texts entries hfirst hmore ih =>
    obtain ⟨steps, rfl⟩ : ∃ n, steps = n + 1 := Nat.exists_eq_add_one_of_ne_zero (by omega)
    cases hmore with
    | nil =>
      rw [commas_singleton] at hsteps ⊢
      rw [hfirst.step (by omega) (.cons (by simp) _), skip_cons (by decide)]
      rfl
    | @cons next w texts entries hnext hmore =>
      rw [commas_cons_cons] at hsteps ⊢
      simp only [List.length_append, List.length_cons] at hsteps
      have hrest := ih (by simp) (by omega : 2 * (commas (next :: texts)).length + 1 ≤ steps)
      have hstart : skip (' ' :: (commas (next :: texts) ++ '\x7d' :: rest)) =
          commas (next :: texts) ++ '\x7d' :: rest := by
        rw [skip_space]
        exact (startsValue_commas hnext.starts texts).skip _
      rw [List.append_assoc, List.cons_append, List.cons_append,
        hfirst.step (by omega) (.cons (by simp) _), skip_cons (by decide)]
      simp only [hstart, hrest, Option.bind_some]

theorem reads_table {texts : List (List Char)} {entries : List (Value × Value)}
    (h : List.Forall₂ ReadsEntry texts entries) (hworded : Worded entries) :
    Reads ('\x7b' :: commas texts ++ ['\x7d']) (.table entries) := by
  refine ⟨⟨'\x7b', _, rfl, rfl, by decide, by decide⟩, fun rest steps _ hsteps => ?_⟩
  simp only [List.length_append, List.length_cons, List.length_nil] at hsteps
  obtain ⟨steps, rfl⟩ : ∃ n, steps = n + 1 := Nat.exists_eq_add_one_of_ne_zero (by omega)
  rw [List.cons_append, List.cons_append, List.append_assoc, List.singleton_append, readValue]
  cases h with
  | nil => rfl
  | @cons text e texts entries hfirst hmore =>
    have hentries := @readEntries_commas _ _ (.cons hfirst hmore) (by simp) steps (by omega) rest
    have hstart := startsValue_commas hfirst.starts texts
    rw [hstart.skip]
    obtain ⟨c, tail, htext, -, -, hc⟩ := hstart
    rw [htext, List.cons_append] at hentries ⊢
    split
    · next heq => exact absurd (List.cons.inj heq).1 hc
    · rw [hentries]
      simp only [Option.bind_eq_bind, Option.bind_some, Table.ofList_eq_self hworded]
      rfl

end Collections

section Printing

mutual

/-- The text of data, with the entries of tables as they stand. -/
def print : Value → List Char
  | .null => "null".toList
  | .flag b => flagText b
  | .int i => Digits.ofInt i
  | .float x => x.spell floatStyle
  | .text s => quote s.toList
  | .list items => '[' :: commas (prints items) ++ [']']
  | .table entries => '\x7b' :: commas (printEntries entries) ++ ['\x7d']
  | _ => []

def prints : List Value → List (List Char)
  | [] => []
  | v :: rest => print v :: prints rest

def printEntries : List (Value × Value) → List (List Char)
  | [] => []
  | (k, v) :: rest => (quote k.asText.toList ++ ':' :: ' ' :: print v) :: printEntries rest

end

theorem prints_eq_map (items : List Value) : prints items = items.map print := by
  induction items with
  | nil => rfl
  | cons v rest ih => rw [prints, ih, List.map_cons]

theorem printEntries_eq_map (entries : List (Value × Value)) :
    printEntries entries =
      entries.map fun e => quote e.1.asText.toList ++ ':' :: ' ' :: print e.2 := by
  induction entries with
  | nil => rfl
  | cons e rest ih =>
    obtain ⟨k, v⟩ := e
    rw [printEntries, ih, List.map_cons]

/-- The text of data is read as that data. -/
theorem reads_print {v : Value} (h : Data v) : Reads (print v) v := by
  induction h with
  | null => exact reads_null
  | flag b => exact reads_flag b
  | int i => exact reads_int i
  | text s => exact reads_text s
  | finite x => exact reads_float x
  | infinite negative => exact reads_infinite negative
  | nan => exact reads_nan
  | list _ ih =>
    rw [print, prints_eq_map]
    exact reads_list (List.forall₂_map_left_iff.2 (List.forall₂_same.2 ih))
  | table worded _ ih =>
    rw [print, printEntries_eq_map]
    refine reads_table (List.forall₂_map_left_iff.2 (List.forall₂_same.2 fun e he => ?_)) worded
    obtain ⟨s, hs⟩ := worded.texts e he
    exact ⟨s, print e.2, hs, by rw [hs, Value.asText_text], ih e he⟩

/-- Data is written as the text of the data with its tables in order. -/
theorem writeWithin_eq {v : Value} (h : Data v) {levels : Nat} (hlevels : v.depth ≤ levels) :
    writeWithin levels v = .ok (print v.settled) := by
  induction h generalizing levels with
  | @list items inside ih =>
    have hpositive : 0 < (Value.list items).depth := Nat.succ_pos _
    obtain ⟨levels, rfl⟩ : ∃ n, levels = n + 1 := Nat.exists_eq_add_one_of_ne_zero (by omega)
    have hitems : items.mapM (writeWithin levels) =
        .ok (items.map fun v => print v.settled) := by
      refine mapM_eq_map fun v hv => ih v hv ?_
      have hdepth := depth_of_mem_list hv
      omega
    rw [writeWithin, hitems, Value.settled_list, print, prints_eq_map, List.map_map]
    rfl
  | @table entries worded inside ih =>
    have hpositive : 0 < (Value.table entries).depth := Nat.succ_pos _
    obtain ⟨levels, rfl⟩ : ∃ n, levels = n + 1 := Nat.exists_eq_add_one_of_ne_zero (by omega)
    have hentries : (Table.ordered true entries).mapM (fun e => do
        let key ← keyText e.1
        return quote key ++ ':' :: ' ' :: (← writeWithin levels e.2)) =
          .ok ((Table.ordered true entries).map fun e =>
            quote e.1.asText.toList ++ ':' :: ' ' :: print e.2.settled) := by
      refine mapM_eq_map fun e he => ?_
      have hmem := Table.mem_ordered.1 he
      have hdepth := depth_of_mem_table hmem
      obtain ⟨s, hs⟩ := worded.texts e hmem
      rw [hs, ih e hmem (by omega), Value.asText_text]
      rfl
    rw [writeWithin, Table.sortBy_eq worded, ok_bind, hentries, Value.settled_table, print,
      printEntries_eq_map, List.map_map]
    rfl
  | _ => rw [writeWithin]; rfl

end Printing

section Storing

theorem data_of_storable {v : Value} (h : Storable v) : Data v := by
  induction h with
  | flag b => exact .flag b
  | int i => exact .int i
  | float x => exact .finite x
  | text s => exact .text s
  | list _ ih => exact .list ih
  | table _ keyed _ ih => exact .table keyed.worded ih

/-- Where no text is changed, it does not matter how far in a value stands. -/
theorem reread_same {v : Value} (h : Storable v) (indent : Nat) :
    v.reread same true indent = v.settled := by
  induction h generalizing indent with
  | text s => rw [Value.reread, same, String.ofList_toList]; rfl
  | @list items _ ih =>
    rw [Value.reread, Value.rereads_eq_map, Value.settled_list]
    exact congrArg _ (List.map_congr_left fun v hv => ih v hv _)
  | @table entries _ _ _ ih =>
    rw [reread_table, Value.settled_table]
    refine congrArg _ (List.map_congr_left fun e he => congrArg (Prod.mk e.1) ?_)
    exact ih e (Table.mem_ordered.1 he) _
  | _ => rfl

/-- A storable value is written, and read as itself with its entries in order. -/
theorem exists_write {v : Value} (h : Storable v) {levels : Nat} (hlevels : v.depth ≤ levels) :
    ∃ text, writeWithin levels v = .ok text ∧
      ∀ indent, Reads text (v.reread same true indent) := by
  have hdata := data_of_storable h
  refine ⟨print v.settled, writeWithin_eq hdata hlevels, fun indent => ?_⟩
  rw [reread_same h]
  exact reads_print hdata.settled

end Storing

theorem read?_of_reads {text : List Char} {v : Value} (h : Reads text v) :
    read? text = some v := by
  have hread := h.reads [] (2 * text.length + 2) (by simp [EndsNumber]) (by omega)
  have hskip := h.starts.skip []
  rw [List.append_nil] at hread hskip
  rw [read?, hskip, hread]
  rfl

end ModelData.Json
