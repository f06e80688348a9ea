import ModelData.Value.Form

/-!
Tables: lists of keys with what they stand for, in the order in which the keys first came.
Writing a key that is present already keeps the key and its place and replaces what it
stands for.
-/

namespace ModelData.Table

def get? {α : Type} (key : Value) : List (Value × α) → Option α
  | [] => none
  | (k, x) :: rest => if k.form = key.form then some x else get? key rest

def put {α : Type} (key : Value) (x : α) : List (Value × α) → List (Value × α)
  | [] => [(key, x)]
  | (k, y) :: rest => if k.form = key.form then (k, x) :: rest else (k, y) :: put key x rest

def ofList {α : Type} (entries : List (Value × α)) : List (Value × α) :=
  entries.foldl (fun table entry => put entry.1 entry.2 table) []

/-- What a text key stands for. -/
def field? {α : Type} (name : String) (entries : List (Value × α)) : Option α :=
  get? (.text name) entries

theorem get?_put_self {α : Type} (key : Value) (x : α) (t : List (Value × α)) :
    get? key (put key x t) = some x := by
  induction t with
  | nil => simp [put, get?]
  | cons e rest ih =>
    obtain ⟨k, y⟩ := e
    by_cases h : k.form = key.form <;> simp [put, get?, h, ih]

theorem get?_put_of_ne {α : Type} {key other : Value} (h : other.form ≠ key.form) (x : α)
    (t : List (Value × α)) : get? other (put key x t) = get? other t := by
  induction t with
  | nil => simp [put, get?, Ne.symm h]
  | cons e rest ih =>
    obtain ⟨k, y⟩ := e
    by_cases hk : k.form = key.form
    · have hother : k.form ≠ other.form := fun heq => h (heq ▸ hk)
      simp only [put, if_pos hk, get?, if_neg hother]
    · simp only [put, if_neg hk, get?, ih]

theorem mem_of_get? {α : Type} {key : Value} {x : α} {t : List (Value × α)}
    (h : get? key t = some x) : ∃ k, (k, x) ∈ t := by
  induction t with
  | nil => simp [get?] at h
  | cons e rest ih =>
    obtain ⟨k, y⟩ := e
    by_cases hk : k.form = key.form
    · simp only [get?, hk, if_true, Option.some.injEq] at h
      exact ⟨k, by simp [h]⟩
    · simp only [get?, hk, if_false] at h
      obtain ⟨k', hk'⟩ := ih h
      exact ⟨k', by simp [hk']⟩

end ModelData.Table
