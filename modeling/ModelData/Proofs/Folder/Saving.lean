import ModelData.Folder.Saving
import ModelData.Proofs.Value.Traverse

/-!
Saving is all or nothing. Work on a folder is followed through the folders that it leaves on its
way: the text of a document is made first, then a file is opened, and only a file that is open
changes anything. So either one file holds the whole text and nothing else has changed, or nothing
has changed at all.
-/

namespace ModelData.Folder

section Entries

variable {f : Folder} {place other : Place} {entry : FolderEntry}

theorem find?_put_self (f : Folder) (place : Place) (entry : FolderEntry) :
    (f.put place entry).find? place = some entry := by
  obtain ⟨entries⟩ := f
  simp only [put, find?]
  induction entries with
  | nil => simp [replace]
  | cons e rest ih =>
    obtain ⟨p, old⟩ := e
    by_cases hp : p = place
    · simp [replace, hp]
    · simp [replace, hp, ih]

theorem find?_put_of_ne (h : other ≠ place) (f : Folder) (entry : FolderEntry) :
    (f.put place entry).find? other = f.find? other := by
  obtain ⟨entries⟩ := f
  simp only [put, find?]
  induction entries with
  | nil => simp [replace, Ne.symm h]
  | cons e rest ih =>
    obtain ⟨p, old⟩ := e
    by_cases hp : p = place
    · simp [replace, hp, Ne.symm h]
    · by_cases ho : p = other
      · simp [replace, ho, h]
      · simpa [replace, hp, ho] using ih

theorem entry?_put_self (h : place ≠ []) (f : Folder) (entry : FolderEntry) :
    entry? (f.put place entry) place = some entry := by
  cases place with
  | nil => exact absurd rfl h
  | cons part rest => exact find?_put_self f _ entry

theorem entry?_put_of_ne (h : other ≠ place) (f : Folder) (entry : FolderEntry) :
    entry? (f.put place entry) other = f.entry? other := by
  cases other with
  | nil => rfl
  | cons part rest => exact find?_put_of_ne h f entry

end Entries

/-- A folder holds a file at a place, and is like another folder everywhere else. -/
structure DiffersAt (f left : Folder) (place : Place) (content : ByteArray) : Prop where
  holds : left.entry? place = some (.file content)
  others : ∀ other, other ≠ place → left.entry? other = f.entry? other

/-- What stood at the place before does not matter. -/
theorem differsAt_put_put {place : Place} (h : place ≠ []) (f : Folder) (entry : FolderEntry)
    (content : ByteArray) :
    DiffersAt f ((f.put place entry).put place (.file content)) place content where
  holds := entry?_put_self h _ _
  others other hother := by rw [entry?_put_of_ne hother, entry?_put_of_ne hother]

/-! Paths in a folder. -/

section Paths

variable {f left : Folder} {base place : Place} {path : String}

/-- A way down is not lost where all folders stay. -/
theorem enter_of_folders (h : ∀ p, f.entry? p = some .folder → left.entry? p = some .folder)
    {here : Place} {parts : List String} (henter : enter f here parts = .ok place) :
    enter left here parts = .ok place := by
  induction parts generalizing here with
  | nil => exact henter
  | cons part rest ih =>
    unfold enter at henter ⊢
    split_ifs at henter ⊢ with hpass hback hroot hlong
    · exact ih henter
    · exact ih henter
    · cases hentry : f.entry? (here ++ [part]) with
      | none => simp [hentry] at henter
      | some entry =>
        cases entry with
        | file content => simp [hentry] at henter
        | folder =>
          rw [hentry] at henter
          rw [h _ hentry]
          exact ih henter

theorem approach_of_folders (h : ∀ p, f.entry? p = some .folder → left.entry? p = some .folder)
    {ends : Place × Target} (happroach : approach f base path = .ok ends) :
    approach left base path = .ok ends := by
  unfold approach at happroach ⊢
  split_ifs at happroach ⊢ with hempty hlong hroot hdots
  · exact happroach
  · obtain ⟨parent, hparent, hends⟩ := bind_eq_ok happroach
    simp only [enter_of_folders h hparent]
    exact hends

/-- Where a file may be opened for writing. -/
theorem placeForWriting_eq_ok_iff :
    placeForWriting f base path = .ok place ↔ ∃ parent t, approach f base path = .ok (parent, t) ∧
      t.slash = false ∧ isDots t.name = false ∧ t.name.utf8ByteSize ≤ nameLimit ∧
      place = parent ++ [t.name] ∧ f.entry? place ≠ some .folder := by
  constructor
  · intro h
    obtain ⟨⟨parent, t⟩, happroach, h⟩ := bind_eq_ok h
    simp only at h
    split_ifs at h with hend hlong
    obtain ⟨hslash, hdots⟩ := Bool.or_eq_false_iff.1 (Bool.not_eq_true _ ▸ hend)
    split at h
    · cases h
    · next hentry =>
      obtain rfl := Except.ok.inj h
      exact ⟨parent, t, happroach, hslash, hdots, Nat.not_lt.1 hlong, rfl, hentry⟩
  · rintro ⟨parent, t, happroach, hslash, hdots, hshort, rfl, hentry⟩
    rw [placeForWriting, happroach, ok_bind]
    simp only [hslash, hdots, Bool.or_self, Bool.false_eq_true, if_false,
      if_neg (Nat.not_lt.2 hshort)]
    rfl

/-- A place for a new file is free. -/
theorem free_of_placeForNew {home : String} (h : placeForNew f home path = .ok place) :
    f.entry? place = none ∧ place ≠ [] := by
  obtain ⟨parts, -, h⟩ := bind_eq_ok h
  obtain ⟨base, -, h⟩ := bind_eq_ok h
  obtain ⟨⟨parent, t⟩, -, h⟩ := bind_eq_ok h
  simp only at h
  split_ifs at h
  split at h
  · cases h
  · next hentry =>
    obtain rfl := Except.ok.inj h
    exact ⟨hentry, List.concat_ne_nil _ _⟩

/-- Folders that differ in one file have the same further folders. -/
theorem DiffersAt.folders {content : ByteArray} (h : DiffersAt f left place content)
    (hentry : f.entry? place ≠ some .folder) :
    ∀ p, f.entry? p = some .folder → left.entry? p = some .folder := by
  intro p hp
  rwa [h.others p fun heq => hentry (heq ▸ hp)]

/-- What is written under a path is read under it. -/
theorem DiffersAt.read {content : ByteArray} (h : DiffersAt f left place content)
    (hopen : placeForWriting f [] path = .ok place) : left.read path = .ok content := by
  obtain ⟨parent, t, happroach, hslash, hdots, hshort, rfl, hentry⟩ :=
    placeForWriting_eq_ok_iff.1 hopen
  rw [Folder.read, approach_of_folders (h.folders hentry) happroach, ok_bind]
  simp only [hdots, Bool.false_eq_true, if_false, if_neg (Nat.not_lt.2 hshort), h.holds, hslash]
  rfl

end Paths

/-! Work, step by step. -/

section Steps

variable {α β : Type} {f left : Folder} {path base : String} {place : Place}

theorem outcome_bind (w : Work α) (k : α → Work β) (f : Folder) :
    (w >>= k).outcome f = match w.outcome f with
      | (.ok a, left) => (k a).outcome left
      | (.error fault, left) => (.error fault, left) := by
  simp only [Work.outcome, ExceptT.run_bind, StateT.run_bind]
  rcases w.run.run f with ⟨fault | a, left⟩ <;> rfl

theorem outcome_get (f : Folder) : Work.outcome get f = (.ok f, f) :=
  rfl

theorem outcome_rendered (d : Document) (choice : Value) (now : Moment) (f : Folder) :
    (rendered d choice now).outcome f = ((Dat.file d choice now).mapError .misfit, f) := by
  rw [rendered]
  cases Dat.file d choice now <;> rfl

/-- What opening a file for writing comes to. -/
inductive Opening (f : Folder) (path : String) : Except SaveFault Place → Prop where
  | zero (zero : hasZero path = true) : Opening f path (.error (.misfit .zeroInPath))
  | refused {fault : FolderFault} (zero : hasZero path = false)
      (closed : placeForWriting f [] path = .error fault) :
      Opening f path (.error (.notWritten path fault))
  | opened {place : Place} (zero : hasZero path = false)
      (opens : placeForWriting f [] path = .ok place) : Opening f path (.ok place)

/-- What trying names for a new file in turn comes to. -/
inductive Trying (f : Folder) (base : String) : List String → Except SaveFault Place → Prop where
  | noName : Trying f base [] (.error .noName)
  | zero {path : String} {others : List String} (zero : hasZero (base ++ path) = true) :
      Trying f base (path :: others) (.error (.misfit .zeroInPath))
  /-- The name is taken, so the next is tried. -/
  | taken {path : String} {others : List String} {result : Except SaveFault Place}
      (zero : hasZero (base ++ path) = false) (closed : placeForNew f base path = .error .exists)
      (rest : Trying f base others result) : Trying f base (path :: others) result
  | refused {path : String} {others : List String} {fault : FolderFault}
      (zero : hasZero (base ++ path) = false) (closed : placeForNew f base path = .error fault)
      (other : fault ≠ .exists) : Trying f base (path :: others) (.error (.notCreated path fault))
  | opened {path : String} {others : List String} {place : Place}
      (zero : hasZero (base ++ path) = false) (opens : placeForNew f base path = .ok place) :
      Trying f base (path :: others) (.ok place)

/-- A folder after a file was opened in it: only if it was, there is an empty one. -/
def afterOpening (f : Folder) : Except SaveFault Place → Folder
  | .ok place => f.put place (.file .empty)
  | .error _ => f

theorem outcome_openEmpty (f : Folder) (path : String) :
    ∃ result, Opening f path result ∧
      (openEmpty path).outcome f = (result, afterOpening f result) := by
  rw [openEmpty]
  cases zero : hasZero path with
  | true => exact ⟨_, .zero zero, rfl⟩
  | false =>
    simp only [Bool.false_eq_true, if_false, outcome_bind, outcome_get]
    cases hplace : placeForWriting f [] path with
    | error fault => exact ⟨_, .refused zero hplace, rfl⟩
    | ok place => exact ⟨_, .opened zero hplace, rfl⟩

theorem outcome_openNew (f : Folder) (base : String) (names : List String) :
    ∃ result, Trying f base names result ∧
      (openNew base names).outcome f = (result, afterOpening f result) := by
  induction names with
  | nil => exact ⟨_, .noName, rfl⟩
  | cons path others ih =>
    rw [openNew]
    cases zero : hasZero (base ++ path) with
    | true => exact ⟨_, .zero zero, rfl⟩
    | false =>
      simp only [Bool.false_eq_true, if_false, outcome_bind, outcome_get]
      cases hplace : placeForNew f base path with
      | error fault =>
        cases fault with
        | «exists» =>
          obtain ⟨result, hrest, houtcome⟩ := ih
          exact ⟨result, .taken zero hplace hrest, houtcome⟩
        | _ => exact ⟨_, .refused zero hplace nofun, rfl⟩
      | ok place => exact ⟨_, .opened zero hplace, rfl⟩

/-- A file is opened only where none of the names before was free. -/
theorem Trying.free {names : List String} {place : Place} (h : Trying f base names (.ok place)) :
    f.entry? place = none ∧ place ≠ [] := by
  generalize hresult : (.ok place : Except SaveFault Place) = result at h
  induction h with
  | taken _ _ _ ih => exact ih hresult
  | opened _ opens =>
    cases hresult
    exact free_of_placeForNew opens
  | _ => cases hresult

end Steps

/-! Whole runs. -/

/-- The bytes of a text. -/
def bytes (text : List Char) : ByteArray :=
  (String.ofList text).toUTF8

/-- What saving a text under a path comes to, and the folder that it leaves. -/
inductive Saved (f : Folder) (path : String) :
    Except Misfit (List Char) → Except SaveFault Unit × Folder → Prop where
  | unrendered (m : Misfit) : Saved f path (.error m) (.error (.misfit m), f)
  | failed {text : List Char} {fault : SaveFault} (opening : Opening f path (.error fault)) :
      Saved f path (.ok text) (.error fault, f)
  | saved {text : List Char} {place : Place} {left : Folder}
      (opening : Opening f path (.ok place)) (differs : DiffersAt f left place (bytes text))
      (back : left.read path = .ok (bytes text)) : Saved f path (.ok text) (.ok (), left)

/-- What saving a text in a new file comes to, and the folder that it leaves. -/
inductive SavedNew (f : Folder) (base : String) (names : List String) :
    Except Misfit (List Char) → Except SaveFault Place × Folder → Prop where
  | unrendered (m : Misfit) : SavedNew f base names (.error m) (.error (.misfit m), f)
  | failed {text : List Char} {fault : SaveFault} (trying : Trying f base names (.error fault)) :
      SavedNew f base names (.ok text) (.error fault, f)
  | saved {text : List Char} {place : Place} {left : Folder}
      (trying : Trying f base names (.ok place)) (free : f.entry? place = none)
      (differs : DiffersAt f left place (bytes text)) :
      SavedNew f base names (.ok text) (.ok place, left)

section Runs

variable (f : Folder) (d : Document) (choice : Value) (now : Moment)

theorem saved_saving (path : String) :
    Saved f path (Dat.file d choice now) ((saving d path choice now).outcome f) := by
  simp only [saving, outcome_bind, outcome_rendered]
  cases Dat.file d choice now with
  | error m => exact .unrendered m
  | ok text =>
    obtain ⟨result, hopening, houtcome⟩ := outcome_openEmpty f path
    simp only [Except.mapError, houtcome]
    cases result with
    | error fault => exact .failed hopening
    | ok place =>
      cases hopening with
      | opened zero opens =>
        obtain ⟨parent, t, -, -, -, -, hplace, -⟩ := placeForWriting_eq_ok_iff.1 opens
        have hne : place ≠ [] := hplace ▸ List.concat_ne_nil _ _
        have hdiffers := differsAt_put_put hne f (.file .empty) (bytes text)
        exact .saved (.opened zero opens) hdiffers (hdiffers.read opens)

theorem savedNew_savingTemporary (marks : List String) (base : String) (stem : Option String) :
    SavedNew f base (temporaryNames d stem marks) (Dat.file d choice now)
      ((savingTemporary marks base d stem choice now).outcome f) := by
  simp only [savingTemporary, outcome_bind, outcome_rendered]
  cases Dat.file d choice now with
  | error m => exact .unrendered m
  | ok text =>
    obtain ⟨result, htrying, houtcome⟩ := outcome_openNew f base (temporaryNames d stem marks)
    simp only [Except.mapError, houtcome]
    cases result with
    | error fault => exact .failed htrying
    | ok place =>
      obtain ⟨hfree, hne⟩ := htrying.free
      exact .saved htrying hfree (differsAt_put_put hne f (.file .empty) (bytes text))

/-- Either a file holds the whole text of the document and nothing else has changed, or nothing
has changed; a temporary file is new. -/
theorem saving_all_or_nothing :
    (∀ path, Saved f path (Dat.file d choice now) ((saving d path choice now).outcome f)) ∧
    ∀ marks base stem, SavedNew f base (temporaryNames d stem marks) (Dat.file d choice now)
      ((savingTemporary marks base d stem choice now).outcome f) :=
  ⟨saved_saving f d choice now, savedNew_savingTemporary f d choice now⟩

/-- A name with a null character is refused as such. -/
example : (saving {} "a\x00b" .null now).outcome f = (.error (.misfit .zeroInPath), f) :=
  rfl

end Runs

end ModelData.Folder
