import Mathlib.Logic.Relation
import ModelData.Proofs.Element.Sets
import ModelData.Proofs.Record.Faults

/-!
Records whose items are a single text. Such a record is read just as one with the list of the
characters of the text, so it comes to a set of characters; a tuple and an array have no use for
characters and are refused, but not if there are none. Building refuses a single text in all three.
-/

namespace ModelData.Record

/-- The characters of a text, each of them as a text. -/
def letters (s : String) : List String :=
  s.toList.map String.singleton

namespace Collection

def empty : Collection → Element
  | .set => .set []
  | .tuple => .tuple []
  | .array => .array []

/-- What is wrong with a text as a child. -/
def textFault? : Collection → Option RecordFault
  | .set => none
  | .tuple => some (.notRecord .text)
  | .array => some (.invalid "array" (.fieldOfList .text))

/-- The elements that are built of a value as a whole. -/
def build : Collection → Value → Except Misfit Element
  | .set => Element.makeSet
  | .tuple => Element.makeTuple
  | .array => Element.makeArray

end Collection

variable {g : Collection} {v : Value} {entries : List (Value × Value)} {s : String}
  {f : RecordFault}

theorem childWith_text (g : Collection) (w : String) :
    g.childWith toElement (.text w) = g.textFault?.elim (.ok (.text w)) .error := by
  cases g <;> rfl

theorem itemsOf_text (h : Table.field? "items" entries = some (.text s)) (type : String) :
    itemsOf type entries = .ok ((letters s).map .text) := by
  rw [itemsOf, h, letters, List.map_map]
  rfl

/-- Whether the items are a text or the list of its characters makes no difference. -/
theorem toElement_text_items (htype : Table.field? "type" entries = some (.text g.type))
    (hitems : Table.field? "items" entries = some (.text s)) :
    toElement (.table entries) = toElement
      (.table (Table.put (.text "items") (.list ((letters s).map .text)) entries)) := by
  have htype' : Table.field? "type"
      (Table.put (.text "items") (.list ((letters s).map .text)) entries) =
        some (.text g.type) := by
    rw [Table.field?, Table.get?_put_of_ne (by simp [Value.form])]
    exact htype
  rw [toElement_collection htype, toElement_collection htype', itemsOf_text hitems, itemsOf,
    Table.field?, Table.get?_put_self]
  rfl

/-- A text that is no child is the fault of a record, if there is a first character. -/
theorem toElement_text_fault (htype : Table.field? "type" entries = some (.text g.type))
    (hitems : Table.field? "items" entries = some (.text s)) (hs : s ≠ "")
    (hfault : g.textFault? = some f) : toElement (.table entries) = .error f := by
  have hletters : letters s ≠ [] := by
    rwa [letters, Ne, List.map_eq_nil_iff, String.toList_eq_nil_iff]
  obtain ⟨first, rest, hcons⟩ := List.exists_cons_of_ne_nil hletters
  rw [toElement_collection htype, itemsOf_text hitems, hcons, ok_bind, List.map_cons,
    List.mapM_cons, childWith_text, hfault]
  rfl

theorem toElement_text_set (htype : Table.field? "type" entries = some (.text "set"))
    (hitems : Table.field? "items" entries = some (.text s)) :
    toElement (.table entries) =
      .ok (.set (distinct Member.form ((letters s).map fun w => .scalar (.text w)))) := by
  have hchild : ∀ x ∈ (letters s).map Value.text,
      Collection.set.childWith toElement x = .ok (id x) := by
    rw [List.forall_mem_map]
    exact fun w _ => childWith_text .set w
  have hread := mapM_eq_map hchild
  have hmade := makeSet_toValue (compatible_texts (letters s))
  rw [List.map_id] at hread
  rw [List.map_map] at hmade
  have htype' : Table.field? "type" entries = some (.text Collection.set.type) := htype
  rw [toElement_collection htype', itemsOf_text hitems, ok_bind, hread, ok_bind]
  exact mapError_eq_ok_iff.2 hmade

theorem toElement_no_text (htype : Table.field? "type" entries = some (.text g.type))
    (hitems : Table.field? "items" entries = some (.text "")) :
    toElement (.table entries) = .ok g.empty := by
  rw [toElement_collection htype, itemsOf_text hitems]
  cases g <;> rfl

/-- Building refuses a single text, but a record that is met with a text as its items is read as
with the list of its characters: a set of the distinct characters, and without characters an empty
element of its type. Only a tuple or an array with a character fails, and with it all that was read
up to it. -/
theorem text_read_as_characters (met : Relation.ReflTransGen ReadUpTo v (.table entries))
    (htype : Table.field? "type" entries = some (.text g.type))
    (hitems : Table.field? "items" entries = some (.text s)) :
    g.build (.text s) = .error (.textAsItems g.empty.kind) ∧
    toElement (.table entries) = toElement
      (.table (Table.put (.text "items") (.list ((letters s).map .text)) entries)) ∧
    (g = .set → toElement (.table entries) =
      .ok (.set (distinct Member.form ((letters s).map fun w => .scalar (.text w))))) ∧
    (s = "" → toElement (.table entries) = .ok g.empty) ∧
    ∀ f, g.textFault? = some f → s ≠ "" →
      toElement (.table entries) = .error f ∧ toElement v = .error f := by
  refine ⟨by cases g <;> rfl, toElement_text_items htype hitems, ?_, ?_, fun f hfault hs => ?_⟩
  · rintro rfl
    exact toElement_text_set htype hitems
  · rintro rfl
    exact toElement_no_text htype hitems
  · have herror := toElement_text_fault htype hitems hs hfault
    refine ⟨herror, ?_⟩
    induction met using Relation.ReflTransGen.head_induction_on with
    | refl => exact herror
    | head upTo _ ih => exact upTo.error ih

/-- A set and an array with a text for their items. -/
def spelled : Value :=
  typed "tuple" "items"
    (.list [typed "set" "items" (.text "aba"), typed "array" "items" (.text "x")])

theorem text_read_as_characters_spelled :
    Relation.ReflTransGen ReadUpTo spelled (typed "array" "items" (.text "x")) ∧
      Element.makeSet (.text "aba") = .error (.textAsItems .set) ∧
      toElement (typed "set" "items" (.text "aba")) =
        .ok (.set [.scalar (.text "a"), .scalar (.text "b")]) ∧
      toElement (typed "tuple" "items" (.text "")) = .ok (.tuple []) ∧
      toElement spelled = .error (.invalid "array" (.fieldOfList .text)) := by
  have htype (g : Collection) (items : Value) :
      Table.field? "type" [(.text "type", .text g.type), (.text "items", items)] =
        some (.text g.type) := rfl
  have hitems (g : Collection) (items : Value) :
      Table.field? "items" [(.text "type", .text g.type), (.text "items", items)] =
        some items := rfl
  have hset : toElement (typed "set" "items" (.text "aba")) =
      .ok (.set [.scalar (.text "a"), .scalar (.text "b")]) :=
    toElement_text_set (htype .set _) (hitems .set _)
  have met : Relation.ReflTransGen ReadUpTo spelled (typed "array" "items" (.text "x")) := by
    refine .single (.intro (g := .tuple) ⟨rfl, [_], [], rfl, ?_⟩ (.tuple _))
    rw [List.forall_mem_singleton]
    exact ⟨.element _, by rw [Collection.childWith, hset]; rfl⟩
  obtain ⟨hbuild, -, -, -, -⟩ :=
    text_read_as_characters .refl (htype .set _) (hitems .set (.text "aba"))
  obtain ⟨-, -, -, hempty, -⟩ :=
    text_read_as_characters .refl (htype .tuple _) (hitems .tuple (.text ""))
  obtain ⟨-, -, -, -, hfault⟩ :=
    text_read_as_characters met (htype .array _) (hitems .array (.text "x"))
  exact ⟨met, hbuild, hset, hempty rfl, (hfault _ rfl (by decide)).2⟩

end ModelData.Record
