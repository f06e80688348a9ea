import ModelData.Dat.File
import ModelData.Identifier.Basic
import ModelData.Proofs.Json.Numbers

/-!
A reader for what a data file says about its elements. It takes out line breaks with their
indentation, and then knows each part by its first character. It cannot tell a truth value from
an integer, nor a number of a set from the same number as an element: an element is read up to
these two, in its normal form.
-/

namespace ModelData

def Scalar.norm : Scalar → Scalar
  | .flag b => .int (Dat.flagInt b)
  | s => s

mutual

/-- The element with integers for truth values, and with the numbers of sets as elements. -/
def Element.norm : Element → Element
  | .scalar s => .scalar s.norm
  | .float x => .float x
  | .set members => .set (Member.norms members)
  | .tuple items => .tuple (Element.norms items)
  | .array entries => .array (Binding.norms entries)
  | .custom kind label => .custom kind label

def Element.norms : List Element → List Element
  | [] => []
  | e :: rest => Element.norm e :: Element.norms rest

def Member.norm : Member → Member
  | .scalar (.text s) => .scalar (.text s)
  | .scalar s => .element (.scalar s.norm)
  | .float x => .element (.float x)
  | .element e => .element (Element.norm e)

def Member.norms : List Member → List Member
  | [] => []
  | m :: rest => Member.norm m :: Member.norms rest

def Binding.norm : Binding Value Element → Binding Value Element
  | ⟨name, element⟩ => ⟨name, Element.norm element⟩

def Binding.norms : List (Binding Value Element) → List (Binding Value Element)
  | [] => []
  | n :: rest => Binding.norm n :: Binding.norms rest

end

theorem Element.norms_eq_map (items : List Element) :
    Element.norms items = items.map Element.norm := by
  induction items with
  | nil => rfl
  | cons e rest ih => rw [Element.norms, ih, List.map_cons]

theorem Member.norms_eq_map (members : List Member) :
    Member.norms members = members.map Member.norm := by
  induction members with
  | nil => rfl
  | cons m rest ih => rw [Member.norms, ih, List.map_cons]

theorem Binding.norms_eq_map (entries : List Named) :
    Binding.norms entries = entries.map Binding.norm := by
  induction entries with
  | nil => rfl
  | cons n rest ih => rw [Binding.norms, ih, List.map_cons]

/-! The normal form of a collection, part by part. -/

theorem Element.norm_set (members : List Member) :
    (Element.set members).norm = .set (members.map Member.norm) :=
  congrArg Element.set (Member.norms_eq_map members)

theorem Element.norm_tuple (items : List Element) :
    (Element.tuple items).norm = .tuple (items.map Element.norm) :=
  congrArg Element.tuple (Element.norms_eq_map items)

theorem Element.norm_array (entries : List Named) :
    (Element.array entries).norm = .array (entries.map Binding.norm) :=
  congrArg Element.array (Binding.norms_eq_map entries)

namespace Dat

open Identifier (isName isStart isPart)

section Reader

variable {α : Type}

/-- What follows a bracket, if the text starts with it. -/
def after? (bracket text : List Char) : Option (List Char) :=
  if bracket.isPrefixOf text then some (text.drop bracket.length) else none

/-- Reads the parts of a collection up to its closing bracket; there is at least one. -/
def readParts (read : List Char → Option (α × List Char)) (closing : List Char) :
    Nat → List Char → Option (List α × List Char)
  | 0, _ => none
  | steps + 1, text => do
    let (part, rest) ← read text
    match rest with
    | ',' :: rest => do
      let (parts, rest) ← readParts read closing steps rest
      return (part :: parts, rest)
    | rest => (after? closing rest).map fun rest => ([part], rest)

def readCollection (read : List Char → Option (α × List Char)) (closing : List Char)
    (steps : Nat) (text : List Char) : Option (List α × List Char) :=
  match after? closing text with
  | some rest => some ([], rest)
  | none => readParts read closing steps text

/-- A part that is no bare text. -/
def elementOf? : Option (Member × List Char) → Option (Element × List Char)
  | some (.element e, rest) => some (e, rest)
  | _ => none

/-- Reads a name with what is behind a mark after it. -/
def readNamed (read : List Char → Option (Element × List Char)) (mark text : List Char) :
    Option (Named × List Char) := do
  let (name, rest) := text.span isPart
  let rest ← after? mark rest
  let (e, rest) ← read rest
  return (⟨.text (String.ofList name), e⟩, rest)

def readNumber (text : List Char) : Option (Member × List Char) :=
  match Json.readAtom? text with
  | some (.int i, rest) => some (.element (.scalar (.int i)), rest)
  | some (.float (.finite x), rest) => some (.element (.float x), rest)
  | _ => none

def readWord (text : List Char) : Option (Member × List Char) :=
  match text.span isPart with
  | ([], _) => none
  | (word, rest) => some (.scalar (.text (String.ofList word)), rest)

/-- Reads an element or a bare text that is written on one line. Brackets nest at most as deep
as there are steps. -/
def read : Nat → List Char → Option (Member × List Char)
  | 0, _ => none
  | _ + 1, '"' :: text =>
    (scanText text).map fun (s, rest) => (.element (.scalar (.text (String.ofList s))), rest)
  | steps + 1, '\x7b' :: text =>
    (readCollection (read steps) ['\x7d'] steps text).map fun (members, rest) =>
      (.element (.set members), rest)
  | steps + 1, '<' :: text =>
    (readCollection (fun text => elementOf? (read steps text)) ['>'] steps text).map
      fun (items, rest) => (.element (.tuple items), rest)
  | steps + 1, '#' :: '[' :: text =>
    (readCollection (readNamed (fun text => elementOf? (read steps text)) [':', ' '])
      [']', '#'] steps text).map fun (entries, rest) => (.element (.array entries), rest)
  | _ + 1, c :: text =>
    if c.isDigit || c = '-' then readNumber (c :: text) else readWord (c :: text)
  | _ + 1, [] => none

/-! What an element starts with tells its kind. -/

theorem read_quoted (steps : Nat) (text : List Char) :
    read (steps + 1) ('"' :: text) =
      (scanText text).map fun p => (.element (.scalar (.text (String.ofList p.1))), p.2) :=
  rfl

theorem read_braced (steps : Nat) (text : List Char) :
    read (steps + 1) ('\x7b' :: text) =
      (readCollection (read steps) ['\x7d'] steps text).map fun p => (.element (.set p.1), p.2) :=
  rfl

theorem read_angled (steps : Nat) (text : List Char) :
    read (steps + 1) ('<' :: text) =
      (readCollection (fun text => elementOf? (read steps text)) ['>'] steps text).map
        fun p => (.element (.tuple p.1), p.2) :=
  rfl

theorem read_hashed (steps : Nat) (text : List Char) :
    read (steps + 1) ('#' :: '[' :: text) =
      (readCollection (readNamed (fun text => elementOf? (read steps text)) [':', ' '])
        [']', '#'] steps text).map fun p => (.element (.array p.1), p.2) :=
  rfl

/-- Reads statements one after another, each with its semicolon. -/
def readStatements : Nat → List Char → Option (List Named)
  | 0, _ => none
  | _ + 1, [] => some []
  | steps + 1, text => do
    let (n, rest) ←
      readNamed (fun text => elementOf? (read (text.length + 1) text)) [' ', '=', ' '] text
    let rest ← after? [';'] rest
    let more ← readStatements steps rest
    return n :: more

end Reader

/-- What may stand behind an element. -/
def Ends (rest : List Char) : Prop :=
  ∀ c ∈ rest.head?, c ∈ [',', ';', '\x7d', '>', ']']

theorem Ends.number {rest : List Char} (h : Ends rest) : Json.EndsNumber rest := by
  have hmarks : ∀ c ∈ [',', ';', '\x7d', '>', ']'],
      c.isDigit = false ∧ c ≠ '.' ∧ c ≠ 'e' ∧ c ≠ 'E' := forall_mem_of_all (by decide)
  exact fun c hc => hmarks c (h c hc)

theorem Ends.word {rest : List Char} (h : Ends rest) : ∀ c ∈ rest.head?, isPart c = false := by
  have hmarks : ∀ c ∈ [',', ';', '\x7d', '>', ']'], isPart c = false :=
    forall_mem_of_all (by decide)
  exact fun c hc => hmarks c (h c hc)

section Parts

variable {α β : Type} {read : List Char → Option (α × List Char)} {closing : List Char}
  {text : β → List Char} {view : β → α}

theorem after?_append (bracket rest : List Char) :
    after? bracket (bracket ++ rest) = some rest := by
  simp [after?]

theorem after?_cons_of_ne {b c : Char} (h : b ≠ c) (bracket rest : List Char) :
    after? (b :: bracket) (c :: rest) = none := by
  simp [after?, h]

/-- Parts with commas between them are read one by one, if each is read from what is written
for it. -/
theorem readParts_intercalate {c : Char} (hcomma : c ≠ ',') (hclosing : Ends (c :: closing))
    {xs : List β} (hne : xs ≠ [])
    (hread : ∀ x ∈ xs, ∀ rest, Ends rest → read (text x ++ rest) = some (view x, rest))
    {steps : Nat} (hsteps : xs.length ≤ steps) (rest : List Char) :
    readParts read (c :: closing) steps
        ([','].intercalate (xs.map text) ++ (c :: closing ++ rest)) =
      some (xs.map view, rest) := by
  induction xs generalizing steps with
  | nil => exact absurd rfl hne
  | cons x xs ih =>
    obtain ⟨steps, rfl⟩ : ∃ n, steps = n + 1 :=
      Nat.exists_eq_add_one_of_ne_zero (by simp only [List.length_cons] at hsteps; omega)
    cases xs with
    | nil =>
      have hpart := hread x (by simp) (c :: closing ++ rest) (by simpa [Ends] using hclosing)
      simp only [List.map_cons, List.map_nil, List.intercalate_singleton, readParts, hpart,
        Option.bind_eq_bind, Option.bind_some]
      split
      · next heq => exact absurd (List.cons.inj heq).1 hcomma
      · rw [after?_append]
        rfl
    | cons y ys =>
      have hpart := hread x (by simp)
        (',' :: ([','].intercalate ((y :: ys).map text) ++ (c :: closing ++ rest)))
        (by simp [Ends])
      have hlength : (y :: ys).length ≤ steps := by
        simp only [List.length_cons] at hsteps ⊢
        omega
      have hmore := ih (by simp) (fun z hz => hread z (List.mem_cons_of_mem x hz)) hlength
      have hshape : [','].intercalate ((x :: y :: ys).map text) ++ (c :: closing ++ rest) =
          text x ++ ',' ::
            ([','].intercalate ((y :: ys).map text) ++ (c :: closing ++ rest)) := by
        simp only [List.map_cons, List.intercalate_cons_cons, List.append_assoc,
          List.cons_append, List.nil_append]
      rw [hshape]
      simp only [readParts, hpart, Option.bind_eq_bind, Option.bind_some, hmore]
      rfl

/-- A collection is read if no part of it begins like its closing bracket. -/
theorem readCollection_wrap {c : Char} (hcomma : c ≠ ',') (hclosing : Ends (c :: closing))
    {xs : List β} (hhead : ∀ x ∈ xs, ∃ d tail, text x = d :: tail ∧ d ≠ c)
    (hread : ∀ x ∈ xs, ∀ rest, Ends rest → read (text x ++ rest) = some (view x, rest))
    {steps : Nat} (hsteps : xs.length ≤ steps) (rest : List Char) :
    readCollection read (c :: closing) steps
        ([','].intercalate (xs.map text) ++ (c :: closing ++ rest)) =
      some (xs.map view, rest) := by
  cases xs with
  | nil =>
    have hafter := after?_append (c :: closing) rest
    simp only [List.map_nil, List.intercalate_nil, List.nil_append, readCollection, hafter]
  | cons x xs =>
    obtain ⟨d, tail, htext, hd⟩ := hhead x (by simp)
    have hparts := readParts_intercalate hcomma hclosing (List.cons_ne_nil x xs) hread hsteps rest
    have hshape : ∃ more, [','].intercalate ((x :: xs).map text) ++ (c :: closing ++ rest) =
        d :: more := by
      cases xs <;> simp [htext, List.intercalate_cons_cons]
    obtain ⟨more, hmore⟩ := hshape
    rw [hmore] at hparts ⊢
    rw [readCollection, after?_cons_of_ne (Ne.symm hd)]
    exact hparts

end Parts

end Dat

end ModelData
