import ModelData.Proofs.Dat.Reader
import ModelData.Proofs.Dat.Spacing
import ModelData.Proofs.Identifier.Names

/-!
An element in which names and bare texts are identifiers is read from its text on one line, up
to its normal form.
-/

namespace ModelData

namespace Dat

open Identifier (isName isStart isPart isPart_of_isName head_of_isName)

/-- A text that is an identifier. -/
def IsWord (name : Value) : Prop :=
  ∃ s : String, name = .text s ∧ isName s.toList = true

/-- The node is of a known kind, and its names and bare texts are identifiers. -/
structure Legible (e : Element) : Prop where
  known : e.isForeign = false
  names : ∀ name ∈ e.keys, IsWord name
  words : ∀ s ∈ e.words, isName s.toList = true

section Words

theorem span_word {word rest : List Char} (h : isName word = true)
    (hrest : ∀ c ∈ rest.head?, isPart c = false) :
    (word ++ rest).span isPart = (word, rest) :=
  span_append (isPart_of_isName h).2 hrest

theorem not_isDigit_of_isStart {c : Char} (h : isStart c = true) : c.isDigit = false := by
  have hcases : c.isAlpha = true ∨ c = '_' := by simpa [isStart] using h
  rcases hcases with halpha | rfl
  · cases hdigit : c.isDigit with
    | false => rfl
    | true =>
      delta Char.isAlpha Char.isUpper Char.isLower at halpha
      simp only [Char.isDigit, Bool.or_eq_true, Bool.and_eq_true, decide_eq_true_eq,
        UInt32.le_iff_toNat_le] at halpha hdigit
      have hnine : '9'.val.toNat = 57 := rfl
      have hupper : 'A'.val.toNat = 65 := rfl
      have hlower : 'a'.val.toNat = 97 := rfl
      omega
  · decide

theorem staysOnLine_of_isName {word : List Char} (h : isName word = true) : StaysOnLine word := by
  refine staysOnLine_of_forall fun c hc => ?_
  have hpart := (isPart_of_isName h).2 c hc
  exact ⟨fun heq => by simp [heq, isPart] at hpart, fun heq => by simp [heq, isPart] at hpart⟩

theorem Legible.keepsLines {e : Element} (h : Legible e) : KeepsLines e := by
  refine ⟨fun name hname => ?_, fun s hs => staysOnLine_of_isName (h.words s hs)⟩
  obtain ⟨s, rfl, hs⟩ := h.names name hname
  exact staysOnLine_of_isName hs

/-- A word is read as a bare text. -/
theorem read_word {word : List Char} (h : isName word = true) (steps : Nat) {rest : List Char}
    (hrest : Ends rest) :
    read (steps + 1) (word ++ rest) = some (.scalar (.text (String.ofList word)), rest) := by
  obtain ⟨c, tail, rfl, hc⟩ := head_of_isName h
  have hspan := span_word h hrest.word
  have hne (d : Char) (hd : isStart d = false) : c ≠ d := fun heq => by simp [heq, hd] at hc
  have hquote := hne '"' (by decide)
  have hbrace := hne '\x7b' (by decide)
  have hangle := hne '<' (by decide)
  have hsharp := hne '#' (by decide)
  have hminus := hne '-' (by decide)
  have hdigit := not_isDigit_of_isStart hc
  rw [List.cons_append] at hspan ⊢
  rw [read] <;> simp_all [readWord]

end Words

section Numbers

theorem readNumber_int (i : Int) {rest : List Char} (hrest : Ends rest) :
    readNumber (intLiteral i ++ rest) = some (.element (.scalar (.int i)), rest) := by
  simp only [readNumber, intLiteral, Json.readAtom?_int i hrest.number]

theorem readNumber_float (x : Binary64.Finite) {rest : List Char} (hrest : Ends rest) :
    readNumber (floatLiteral x ++ rest) = some (.element (.float x), rest) := by
  simp only [readNumber, floatLiteral, Json.readAtom?_float .fixed x hrest.number]

theorem read_numeral {c : Char} (h : c = '-' ∨ c.isDigit = true) (steps : Nat)
    (text : List Char) : read (steps + 1) (c :: text) = readNumber (c :: text) := by
  have hne (d : Char) (hd : d.isDigit = false ∧ d ≠ '-') : c ≠ d := by
    rintro rfl
    rcases h with rfl | h
    · exact hd.2 rfl
    · simp [hd.1] at h
  have hquote := hne '"' (by decide)
  have hbrace := hne '\x7b' (by decide)
  have hangle := hne '<' (by decide)
  have hsharp := hne '#' (by decide)
  rw [read] <;> simp_all [or_comm]

theorem read_int (i : Int) (steps : Nat) {rest : List Char} (hrest : Ends rest) :
    read (steps + 1) (intLiteral i ++ rest) = some (.element (.scalar (.int i)), rest) := by
  obtain ⟨c, tail, htext, hc⟩ := Binary64.head_ofInt i
  have hnumber := readNumber_int i hrest
  rw [intLiteral, htext, List.cons_append] at hnumber ⊢
  rw [read_numeral hc, hnumber]

theorem read_float (x : Binary64.Finite) (steps : Nat) {rest : List Char} (hrest : Ends rest) :
    read (steps + 1) (floatLiteral x ++ rest) = some (.element (.float x), rest) := by
  obtain ⟨c, tail, htext, hc⟩ := Binary64.head_spell .fixed x
  have hnumber := readNumber_float x hrest
  rw [floatLiteral, htext, List.cons_append] at hnumber ⊢
  rw [read_numeral hc, hnumber]

end Numbers

section Elements

theorem length_le_intercalate {part : List Char} {parts : List (List Char)}
    (h : part ∈ parts) : part.length ≤ ([','].intercalate parts).length := by
  induction parts with
  | nil => simp at h
  | cons first rest ih =>
    cases rest with
    | nil =>
      obtain rfl := List.mem_singleton.1 h
      simp
    | cons next rest =>
      rw [List.intercalate_cons_cons, List.length_append, List.length_append]
      rcases List.mem_cons.1 h with rfl | h
      · omega
      · have hle := ih h
        omega

theorem length_lt_intercalate (parts : List (List Char)) :
    parts.length ≤ ([','].intercalate parts).length + 1 := by
  induction parts with
  | nil => simp
  | cons first rest ih =>
    cases rest with
    | nil => simp
    | cons next rest =>
      simp only [List.intercalate_cons_cons, List.length_append, List.length_cons,
        List.length_nil] at ih ⊢
      omega

theorem wrap_compact (opening closing : List Char) (parts : List (List Char)) :
    Layout.compact.wrap opening closing parts =
      opening ++ ([','].intercalate parts ++ closing) := by
  cases parts <;> simp [Layout.wrap]

theorem write_set (members : List Member) :
    write .compact (.set members) =
      '\x7b' :: ([','].intercalate (members.map (writeMember .compact)) ++ ['\x7d']) := by
  rw [write, writeMembers_eq_map, wrap_compact]
  rfl

theorem write_tuple (items : List Element) :
    write .compact (.tuple items) =
      '<' :: ([','].intercalate (items.map (write .compact)) ++ ['>']) := by
  rw [write, writeItems_eq_map, wrap_compact]
  rfl

theorem write_array (entries : List Named) :
    write .compact (.array entries) =
      '#' :: '[' :: ([','].intercalate (entries.map (writeEntry .compact)) ++ [']', '#']) := by
  rw [write, writeEntries_eq_map, wrap_compact]
  rfl

/-- No element begins like a closing bracket. -/
theorem head_write {e : Element} (h : e.isForeign = false) :
    ∃ c tail, write .compact e = c :: tail ∧ c ∉ ['\x7d', '>', ']'] := by
  have hnumeral {c : Char} (hc : c = '-' ∨ c.isDigit = true) : c ∉ ['\x7d', '>', ']'] := by
    rcases hc with rfl | hc
    · decide
    · exact not_mem_of_all hc (by decide)
  cases e with
  | scalar s =>
    cases s with
    | text s => exact ⟨'"', _, rfl, by decide⟩
    | int i =>
      obtain ⟨c, tail, htext, hc⟩ := Binary64.head_ofInt i
      exact ⟨c, tail, htext, hnumeral hc⟩
    | flag b =>
      obtain ⟨c, tail, htext, hc⟩ := Binary64.head_ofInt (flagInt b)
      exact ⟨c, tail, htext, hnumeral hc⟩
  | float x =>
    obtain ⟨c, tail, htext, hc⟩ := Binary64.head_spell .fixed x
    exact ⟨c, tail, htext, hnumeral hc⟩
  | set members => exact ⟨'\x7b', _, write_set members, by decide⟩
  | tuple items => exact ⟨'<', _, write_tuple items, by decide⟩
  | array entries => exact ⟨'#', _, write_array entries, by decide⟩
  | custom => simp [Element.isForeign] at h

theorem head_word {word : List Char} (h : isName word = true) (rest : List Char) :
    ∃ c tail, word ++ rest = c :: tail ∧ c ∉ ['\x7d', '>', ']'] := by
  obtain ⟨c, tail, rfl, hc⟩ := head_of_isName h
  exact ⟨c, tail ++ rest, rfl, not_mem_of_all hc (by decide)⟩

theorem writeEntry_word (layout : Layout) (s : String) (e : Element) :
    writeEntry layout ⟨.text s, e⟩ = s.toList ++ ([':', ' '] ++ write layout e) := by
  rfl

variable {members : List Member} {entries : List Named}

theorem head_member (here : Legible (.set members))
    (inside : ∀ d ∈ (Element.set members).children, d.isForeign = false) {m : Member}
    (hm : m ∈ members) :
    ∃ c tail, writeMember .compact m = c :: tail ∧ c ≠ '\x7d' := by
  have hhead : ∃ c tail, writeMember .compact m = c :: tail ∧ c ∉ ['\x7d', '>', ']'] := by
    cases m with
    | scalar s =>
      cases s with
      | text s =>
        have hword := head_word (here.words s (Element.mem_words_of_member hm)) []
        rw [List.append_nil] at hword
        exact hword
      | int i => exact head_write (e := .scalar (.int i)) rfl
      | flag b => exact head_write (e := .scalar (.flag b)) rfl
    | float x => exact head_write (e := .float x) rfl
    | element e => exact head_write (inside e (Element.mem_children_of_member hm))
  obtain ⟨c, tail, htext, hc⟩ := hhead
  exact ⟨c, tail, htext, fun heq => hc (by simp [heq])⟩

theorem read_member (here : Legible (.set members)) {steps : Nat}
    (inside : ∀ d ∈ (Element.set members).children, ∀ rest, Ends rest →
      read (steps + 1) (write .compact d ++ rest) = some (.element d.norm, rest))
    {m : Member} (hm : m ∈ members) {rest : List Char} (hrest : Ends rest) :
    read (steps + 1) (writeMember .compact m ++ rest) = some (m.norm, rest) := by
  cases m with
  | scalar s =>
    cases s with
    | text s =>
      have hword := read_word (here.words s (Element.mem_words_of_member hm)) steps hrest
      rwa [String.ofList_toList] at hword
    | int i => exact read_int i steps hrest
    | flag b => exact read_int (flagInt b) steps hrest
  | float x => exact read_float x steps hrest
  | element e => exact inside e (Element.mem_children_of_member hm) rest hrest

theorem head_entry (here : Legible (.array entries)) {n : Named} (hn : n ∈ entries) :
    ∃ c tail, writeEntry .compact n = c :: tail ∧ c ≠ ']' := by
  obtain ⟨s, hs, hname⟩ := here.names n.name (List.mem_map_of_mem hn)
  obtain ⟨name, e⟩ := n
  obtain rfl : name = .text s := hs
  obtain ⟨c, tail, htext, hc⟩ := head_word hname ([':', ' '] ++ write .compact e)
  exact ⟨c, tail, htext, fun heq => hc (by simp [heq])⟩

/-- A word with a mark behind it that is no part of it is read together with what follows. -/
theorem readNamed_word {read : List Char → Option (Element × List Char)} {s : String}
    (hname : isName s.toList = true) {mark text : List Char} {e : Element} {rest : List Char}
    (hmark : ∃ c tail, mark = c :: tail ∧ isPart c = false)
    (hread : read text = some (e, rest)) :
    readNamed read mark (s.toList ++ (mark ++ text)) = some (⟨.text s, e⟩, rest) := by
  obtain ⟨c, tail, rfl, hc⟩ := hmark
  have hspan := @span_word _ (c :: tail ++ text) hname (by simpa using hc)
  simp only [readNamed, hspan, after?_append, hread, Option.bind_eq_bind, Option.bind_some,
    String.ofList_toList]
  rfl

theorem read_entry (here : Legible (.array entries)) {steps : Nat}
    (inside : ∀ d ∈ (Element.array entries).children, ∀ rest, Ends rest →
      read steps (write .compact d ++ rest) = some (.element d.norm, rest))
    {n : Named} (hn : n ∈ entries) {rest : List Char} (hrest : Ends rest) :
    readNamed (fun text => elementOf? (read steps text)) [':', ' ']
        (writeEntry .compact n ++ rest) =
      some (n.norm, rest) := by
  obtain ⟨s, hs, hname⟩ := here.names n.name (List.mem_map_of_mem hn)
  have helement := inside n.element (Element.mem_children_of_entry hn) rest hrest
  obtain ⟨name, e⟩ := n
  obtain rfl : name = .text s := hs
  rw [writeEntry_word, List.append_assoc, List.append_assoc]
  refine readNamed_word hname ⟨':', [' '], rfl, by decide⟩ ?_
  rw [helement]
  rfl

theorem length_write (e : Element) :
    (write .compact e).length = (opening e).length
      + ([','].intercalate ((pieces e).map (Piece.text .compact))).length
      + (closing e).length := by
  rw [write_eq_wrap, wrap_compact, List.length_append, List.length_append, Nat.add_assoc]
  rfl

/-- A child takes fewer characters than its collection. -/
theorem length_write_child {d e : Element} (h : d ∈ e.children) :
    (write .compact d).length < (write .compact e).length := by
  rw [children_eq_pieces] at h
  obtain ⟨p, hp, hd⟩ := List.mem_filterMap.1 h
  have hpart := length_le_intercalate (List.mem_map_of_mem (f := Piece.text .compact) hp)
  have htext : (p.text .compact).length = p.lead.length + (write .compact d).length := by
    rw [Piece.text, List.length_append, hd]
    rfl
  have hclosing : 0 < (closing e).length := by
    cases e <;> simp_all [pieces, closing]
  have htotal := length_write e
  omega

theorem length_pieces_lt {e : Element} (h : pieces e ≠ []) :
    (pieces e).length < (write .compact e).length := by
  have hle := length_lt_intercalate ((pieces e).map (Piece.text .compact))
  have hbrackets : 0 < (opening e).length ∧ 0 < (closing e).length := by
    cases e <;> simp_all [pieces, opening, closing]
  have htotal := length_write e
  rw [List.length_map] at hle
  omega

theorem read_set {steps : Nat} (here : Legible (.set members))
    (inside : ∀ d ∈ (Element.set members).children, d.isForeign = false)
    (hread : ∀ d ∈ (Element.set members).children, ∀ rest, Ends rest →
      read (steps + 1) (write .compact d ++ rest) = some (.element d.norm, rest))
    (hsteps : (pieces (.set members)).length ≤ steps + 1) (rest : List Char) :
    read (steps + 2) (write .compact (.set members) ++ rest) =
      some (.element (Element.set members).norm, rest) := by
  have hparts : readCollection (read (steps + 1)) ['\x7d'] (steps + 1)
      ([','].intercalate (members.map (writeMember .compact)) ++ (['\x7d'] ++ rest)) =
        some (members.map Member.norm, rest) := by
    rw [pieces, List.length_map] at hsteps
    exact readCollection_wrap (by decide) (by simp [Ends])
      (fun m hm => head_member here inside hm)
      (fun m hm rest hrest => read_member here hread hm hrest) hsteps rest
  rw [write_set, List.cons_append, List.append_assoc, read_braced, hparts, Option.map_some,
    Element.norm_set]

theorem read_tuple {items : List Element} {steps : Nat}
    (inside : ∀ d ∈ items, d.isForeign = false)
    (hread : ∀ d ∈ items, ∀ rest, Ends rest →
      read steps (write .compact d ++ rest) = some (.element d.norm, rest))
    (hsteps : (pieces (.tuple items)).length ≤ steps) (rest : List Char) :
    read (steps + 1) (write .compact (.tuple items) ++ rest) =
      some (.element (Element.tuple items).norm, rest) := by
  have hparts : readCollection (fun text => elementOf? (read steps text)) ['>'] steps
      ([','].intercalate (items.map (write .compact)) ++ (['>'] ++ rest)) =
        some (items.map Element.norm, rest) := by
    rw [pieces, List.length_map] at hsteps
    refine readCollection_wrap (by decide) (by simp [Ends]) (fun d hd => ?_)
      (fun d hd rest hrest => ?_) hsteps rest
    · obtain ⟨c, tail, htext, hc⟩ := head_write (inside d hd)
      exact ⟨c, tail, htext, fun heq => hc (by simp [heq])⟩
    · rw [hread d hd rest hrest]
      rfl
  rw [write_tuple, List.cons_append, List.append_assoc, read_angled, hparts, Option.map_some,
    Element.norm_tuple]

theorem read_array {steps : Nat} (here : Legible (.array entries))
    (hread : ∀ d ∈ (Element.array entries).children, ∀ rest, Ends rest →
      read steps (write .compact d ++ rest) = some (.element d.norm, rest))
    (hsteps : (pieces (.array entries)).length ≤ steps) (rest : List Char) :
    read (steps + 1) (write .compact (.array entries) ++ rest) =
      some (.element (Element.array entries).norm, rest) := by
  have hparts : readCollection
      (readNamed (fun text => elementOf? (read steps text)) [':', ' ']) [']', '#'] steps
      ([','].intercalate (entries.map (writeEntry .compact)) ++ ([']', '#'] ++ rest)) =
        some (entries.map Binding.norm, rest) := by
    rw [pieces, List.length_map] at hsteps
    exact readCollection_wrap (by decide) (by simp [Ends]) (fun n hn => head_entry here hn)
      (fun n hn rest hrest => read_entry here hread hn hrest) hsteps rest
  rw [write_array, List.cons_append, List.cons_append, List.append_assoc, read_hashed, hparts,
    Option.map_some, Element.norm_array]

/-- A legible element on one line is read up to its normal form, with as many steps as it has
characters. -/
theorem read_write {e : Element} (h : e.Everywhere Legible) {steps : Nat}
    (hsteps : (write .compact e).length < steps) {rest : List Char} (hrest : Ends rest) :
    read steps (write .compact e ++ rest) = some (.element e.norm, rest) := by
  induction h generalizing steps rest with
  | @intro e here inside ih =>
    obtain ⟨steps, rfl⟩ : ∃ n, steps = n + 1 := Nat.exists_eq_add_one_of_ne_zero (by omega)
    have known : ∀ d ∈ e.children, d.isForeign = false := fun d hd => (inside d hd).here.known
    have hchild : ∀ d ∈ e.children, ∀ rest, Ends rest →
        read steps (write .compact d ++ rest) = some (.element d.norm, rest) := by
      intro d hd rest hrest
      have hlength := length_write_child hd
      exact ih d hd (by omega) hrest
    have hcount : (pieces e).length ≤ steps := by
      by_cases hpieces : pieces e = []
      · simp [hpieces]
      · have hlength := length_pieces_lt hpieces
        omega
    cases e with
    | scalar s =>
      cases s with
      | text s =>
        change read (steps + 1) ('"' :: (s.toList.flatMap escapeChar ++ ['"']) ++ rest) = _
        rw [List.cons_append, List.append_assoc, List.singleton_append, read_quoted,
          scanText_escape, Option.map_some]
        rw [String.ofList_toList]
        rfl
      | int i => exact read_int i steps hrest
      | flag b => exact read_int (flagInt b) steps hrest
    | float x => exact read_float x steps hrest
    | set members =>
      obtain ⟨steps, rfl⟩ : ∃ n, steps = n + 1 := by
        refine Nat.exists_eq_add_one_of_ne_zero fun hzero => ?_
        simp [hzero, write_set] at hsteps
      exact read_set here known hchild hcount rest
    | tuple items => exact read_tuple known hchild hcount rest
    | array entries => exact read_array here hchild hcount rest
    | custom => exact absurd here.known (by simp [Element.isForeign])

end Elements

end Dat

end ModelData
