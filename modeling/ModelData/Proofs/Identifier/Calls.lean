import Mathlib.Data.Nat.Find
import Mathlib.Tactic.Push
import ModelData.Proofs.Identifier.Numbering

/-!
The calls of a generator. It is handed the objects one after another with their places, each
occurrence once, until an object stops the assignment: either the generator refuses the object, or
it gives an identifier to an object that cannot be a key. If none does, equal objects share one
entry, with the first of them as its key and the identifier of the last of them.
-/

namespace ModelData.Identifier

variable {generator : Value → Nat → Except Misfit Value} {objects : List Value} {items o : Value}
  {k : Nat} {m : Misfit}

/-- An object is given an identifier for its place, and it can be a key. -/
def Passes (generator : Value → Nat → Except Misfit Value) (o : Value) (k : Nat) : Prop :=
  (∃ id, generator o k = .ok id) ∧ o.unhashable? = none

/-- Why an object does not pass. Whether it can be a key is asked after the generator. -/
inductive Stops (generator : Value → Nat → Except Misfit Value) (o : Value) (k : Nat) :
    Misfit → Prop where
  | refused {m : Misfit} (h : generator o k = .error m) : Stops generator o k m
  | unhashable {id : Value} {kind : Kind} (h : generator o k = .ok id)
      (hkey : o.unhashable? = some kind) : Stops generator o k (.unhashable kind)

/-- The first object that does not pass stands at a place. -/
structure FirstStop (generator : Value → Nat → Except Misfit Value) (objects : List Value)
    (k : Nat) (m : Misfit) : Prop where
  before : ∀ j < k, ∀ o, objects[j]? = some o → Passes generator o j
  here : ∃ o, objects[k]? = some o ∧ Stops generator o k m

/-- One entry for each distinct object: its key is the first of the objects equal to it, and it
holds what the generator gave the last of them. -/
structure Shared (generator : Value → Nat → Except Misfit Value) (objects : List Value)
    (ids : List (Value × Value)) : Prop where
  keys : ids.map (·.1) = distinct Value.form objects
  first : ∀ o ∈ objects, ∃ e ∈ ids, objects.find? (·.equals o) = some e.1
  given : ∀ e ∈ ids, ∃ index last, LastOf objects e.1 index last ∧
    generator last index = .ok e.2

/-- What a generator answers where it does not refuse. -/
def answer (generator : Value → Nat → Except Misfit Value) (o : Value) (k : Nat) : Value :=
  (generator o k).toOption.getD .null

section Places

theorem Passes.generator_eq (h : Passes generator o k) :
    generator o k = .ok (answer generator o k) := by
  obtain ⟨⟨id, hid⟩, -⟩ := h
  rw [answer, hid]
  rfl

theorem passes_or_stops (generator : Value → Nat → Except Misfit Value) (o : Value) (k : Nat) :
    Passes generator o k ∨ ∃ m, Stops generator o k m := by
  cases hanswer : generator o k with
  | error m => exact .inr ⟨m, .refused hanswer⟩
  | ok id =>
    cases hkey : o.unhashable? with
    | none => exact .inl ⟨⟨id, hanswer⟩, hkey⟩
    | some kind => exact .inr ⟨_, .unhashable hanswer hkey⟩

/-- All objects pass, or there is a first one that does not. -/
theorem all_pass_or_firstStop (generator : Value → Nat → Except Misfit Value)
    (objects : List Value) : (∀ k o, objects[k]? = some o → Passes generator o k) ∨
      ∃ k m, FirstStop generator objects k m := by
  by_cases h : ∀ k o, objects[k]? = some o → Passes generator o k
  · exact .inl h
  · push Not at h
    classical
    obtain ⟨o, hhere, hnot⟩ := Nat.find_spec h
    obtain ⟨m, hstops⟩ := (passes_or_stops generator o _).resolve_left hnot
    refine .inr ⟨Nat.find h, m, fun j hj o hbefore => ?_, o, hhere, hstops⟩
    by_contra hfails
    exact Nat.find_min h hj ⟨o, hbefore, hfails⟩

/-- The call for the object that stops an assignment is made, and no call after it. -/
theorem Stops.assignFrom_eq (h : Stops generator o k m) (ids : List (Value × Value))
    (rest : List Value) : assignFrom generator k ids (o :: rest) = ⟨[(o, k)], .error m⟩ := by
  cases h with
  | refused h => simp only [assignFrom, h]
  | unhashable h hkey => simp only [assignFrom, h, requireHashable, hkey]

end Places

section Runs

/-- What is kept of a list that collapses is what comes first in it. -/
theorem shared_of_collapsed {ids : List (Value × Value)}
    (hpass : ∀ k o, objects[k]? = some o → Passes generator o k)
    (h : Collapsed (answer generator) objects ids) : Shared generator objects ids where
  keys := h.keys
  first o ho := by
    obtain ⟨y, hy, hfirst⟩ : ∃ y ∈ distinct Value.form objects,
        objects.find? (fun z => z.form = o.form) = some y :=
      find?_of_mem_distinctFrom ho List.not_mem_nil
    rw [← h.keys] at hy
    obtain ⟨e, he, rfl⟩ := List.mem_map.1 hy
    exact ⟨e, he, hfirst⟩
  given e he := by
    obtain ⟨index, last, hlast, hwritten⟩ := h.written e he
    refine ⟨index, last, hlast, ?_⟩
    rw [hwritten]
    exact (hpass index last hlast.here).generator_eq

/-- The objects in front of a place are numbered, and the run goes on with those behind. -/
theorem exists_assign_take (h : ∀ j < k, ∀ o, objects[j]? = some o → Passes generator o j)
    (hk : k ≤ objects.length) (hitems : items.items = .ok objects) :
    ∃ ids, assign generator items =
      (assignFrom generator k ids (objects.drop k)).behind (objects.take k).zipIdx := by
  have hlength : (objects.take k).length = k := List.length_take_of_le hk
  have hplaces : ∀ j o, (objects.take k)[j]? = some o →
      generator o (([] : List Value).length + j) =
          .ok (answer generator o (([] : List Value).length + j)) ∧ o.unhashable? = none := by
    intro j o hj
    have hlt : j < k := hlength ▸ (List.getElem?_eq_some_iff.1 hj).1
    rw [List.getElem?_take_of_lt hlt] at hj
    rw [List.length_nil, Nat.zero_add]
    exact ⟨(h j hlt o hj).generator_eq, (h j hlt o hj).2⟩
  obtain ⟨ids, -, hrun⟩ := exists_assignFrom_append collapsed_nil hplaces
  have hassign := hrun (objects.drop k)
  rw [List.take_append_drop, List.nil_append, hlength] at hassign
  rw [assign, hitems]
  exact ⟨ids, hassign⟩

theorem FirstStop.assign_eq (h : FirstStop generator objects k m)
    (hitems : items.items = .ok objects) :
    assign generator items = ⟨(objects.take (k + 1)).zipIdx, .error m⟩ := by
  obtain ⟨o, hhere, hstops⟩ := h.here
  obtain ⟨hk, rfl⟩ := List.getElem?_eq_some_iff.1 hhere
  obtain ⟨ids, hassign⟩ := exists_assign_take h.before (Nat.le_of_lt hk) hitems
  rw [List.drop_eq_getElem_cons hk, hstops.assignFrom_eq] at hassign
  rw [hassign, Assignment.behind, List.take_succ_eq_append_getElem hk, List.zipIdx_append,
    List.length_take_of_le (Nat.le_of_lt hk), Nat.zero_add]
  rfl

/-- If every object passes, each occurrence is handed to the generator in turn with its place, and
equal objects share one entry. Otherwise the assignment fails as the first object that does not
pass, after the calls for all objects up to this one. -/
theorem assign_shares_or_stops (hitems : items.items = .ok objects) :
    ((∀ k o, objects[k]? = some o → Passes generator o k) →
      ∃ ids, assign generator items = ⟨objects.zipIdx, .ok ids⟩ ∧
        Shared generator objects ids) ∧
    (∀ k m, FirstStop generator objects k m →
      assign generator items = ⟨(objects.take (k + 1)).zipIdx, .error m⟩) ∧
    ((∀ k o, objects[k]? = some o → Passes generator o k) ∨
      ∃ k m, FirstStop generator objects k m) := by
  refine ⟨fun hpass => ?_, fun k m h => h.assign_eq hitems, all_pass_or_firstStop _ _⟩
  have hplaces : ∀ k o, objects[k]? = some o →
      generator o k = .ok (answer generator o k) ∧ o.unhashable? = none :=
    fun k o hk => ⟨(hpass k o hk).generator_eq, (hpass k o hk).2⟩
  obtain ⟨ids, hassign, hcollapsed⟩ := exists_assign_of_places hitems hplaces
  exact ⟨ids, hassign, shared_of_collapsed hpass hcollapsed⟩

/-- Numbers three objects and refuses the fourth. -/
def upToThree (_ : Value) (k : Nat) : Except Misfit Value :=
  if k < 3 then .ok (.int k) else .error (.refused "no number left")

theorem passes_upToThree (hk : k < 3) (hkey : o.unhashable? = none) : Passes upToThree o k :=
  ⟨⟨.int k, if_pos hk⟩, hkey⟩

/-- A truth value and the number that it equals share one entry. A list is handed to the generator
before it turns out to be no key, but one that the generator refuses stops the run as refused. -/
theorem assign_shares_or_stops_threes :
    (∃ ids, assign upToThree (.tuple [.flag true, .text "x", .int 1]) =
        ⟨[(.flag true, 0), (.text "x", 1), (.int 1, 2)], .ok ids⟩ ∧
      Shared upToThree [.flag true, .text "x", .int 1] ids) ∧
    assign upToThree (.list [.null, .list [], .text "x"]) =
      ⟨[(.null, 0), (.list [], 1)], .error (.unhashable .list)⟩ ∧
    assign upToThree (.list [.null, .null, .null, .list [], .null]) =
      ⟨[(.null, 0), (.null, 1), (.null, 2), (.list [], 3)], .error (.refused "no number left")⟩ := by
  have hpass : ∀ k o, [Value.flag true, .text "x", .int 1][k]? = some o →
      Passes upToThree o k := by
    intro k o hk
    have hkeys : ∀ o ∈ [Value.flag true, .text "x", .int 1], o.unhashable? = none := by
      simp [Value.unhashable?]
    exact passes_upToThree (List.getElem?_eq_some_iff.1 hk).1 (hkeys o (List.mem_of_getElem? hk))
  have hlist : FirstStop upToThree [.null, .list [], .text "x"] 1 (.unhashable .list) := by
    refine ⟨fun j hj o ho => ?_, .list [], rfl, .unhashable rfl rfl⟩
    obtain rfl := Nat.lt_one_iff.1 hj
    cases ho
    exact passes_upToThree (by decide) rfl
  have hrefused : FirstStop upToThree [.null, .null, .null, .list [], .null] 3
      (.refused "no number left") := by
    refine ⟨fun j hj o ho => ?_, .list [], rfl, .refused rfl⟩
    have hnull : o = .null := by
      match j, hj with
      | 0, _ | 1, _ | 2, _ => exact (Option.some.inj ho).symm
    exact passes_upToThree hj (by rw [hnull]; rfl)
  have hitems (objects : List Value) : (Value.list objects).items = .ok objects := rfl
  have htuple : (Value.tuple [.flag true, .text "x", .int 1]).items =
      .ok [.flag true, .text "x", .int 1] := rfl
  obtain ⟨hshares, -, -⟩ := assign_shares_or_stops htuple
  obtain ⟨-, hstops, -⟩ := assign_shares_or_stops (hitems [.null, .list [], .text "x"])
  obtain ⟨-, hstops', -⟩ := assign_shares_or_stops (hitems [.null, .null, .null, .list [], .null])
  exact ⟨hshares hpass, hstops 1 _ hlist, hstops' 3 _ hrefused⟩

end Runs

end ModelData.Identifier
