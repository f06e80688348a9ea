import ModelData.Proofs.Config.Settings
import ModelData.Proofs.Yaml.Valueless

/-!
Settings from text. A text that is not malformed holds a value, which gives settings or is refused;
both that and a malformed text are faults of the settings. Only two things in a text are not: a code
beyond the last character, and a scalar without a value.
-/

namespace ModelData.Config

/-- What reading settings from a text comes to. -/
inductive Told (text : List Char) : Except StoreFault Config → Prop where
  | settings {v : Value} {c : Config} (reads : Yaml.read text = .ok v) (gives : Gives v)
      (fields : ∀ key ∈ keys,
        Table.field? key c.toEntries = (given v key).or (Table.field? key standard.toEntries))
      (admits : ∀ key ∈ keys, ∀ w, Table.field? key c.toEntries = some w → Admits key w) :
      Told text (.ok c)
  | refused {v : Value} {f : ConfigFault} (reads : Yaml.read text = .ok v) (why : Refused v f) :
      Told text (.error (.config f))
  | unreadable {f : Yaml.Fault} (fails : Yaml.read text = .error f)
      (ordinary : ∀ m, f ≠ .misfit m) : Told text (.error (.config .unreadable))
  | largeCode {m : Misfit} (fails : Yaml.tree text = .error (.misfit m))
      (code : Yaml.LargeCode text m) : Told text (.error (.misfit m))
  /-- A scalar has no value, and that is the fault that counts. -/
  | valueless {node : Yaml.Node} {m : Misfit} (reads : Yaml.tree text = .ok node)
      (counts : (node.plan false).Counts (.misfit m)) (lacks : node.Lacks m) :
      Told text (.error (.misfit m))

theorem told_of_value {text : List Char} {v : Value} (reads : Yaml.read text = .ok v) :
    Told text ((ofValue v).mapError .config) := by
  cases h : ofValue v with
  | error f => exact .refused reads (ofValue_eq_error_iff.1 h)
  | ok c =>
    refine .settings reads (exists_ofValue_iff.1 ⟨c, h⟩) (fun _ => field?_of_ofValue h) ?_
    intro key hkey w hw
    obtain rfl := Option.some.inj ((field?_toEntries hkey c).symm.trans hw)
    exact admits_value hkey c

theorem told_of_misfit {text : List Char} {m : Misfit}
    (fails : Yaml.read text = .error (.misfit m)) : Told text (.error (.misfit m)) := by
  rw [Yaml.read_eq] at fails
  rcases bind_eq_error_iff.1 fails with htree | ⟨node, htree, hcarry⟩
  · exact .largeCode htree (Yaml.largeCode_of_tree htree)
  · have hcounts := Yaml.Plan.carryOut_eq_error_iff.1 hcarry
    obtain ⟨level, hmem⟩ := hcounts.mem
    exact .valueless htree hcounts (Yaml.Node.lacks_of_plan false 0 node hmem)

theorem told_ofYaml (s : String) : Told s.toList (ofYaml s) := by
  rw [ofYaml]
  cases hread : Yaml.read s.toList with
  | ok v => exact told_of_value hread
  | error f =>
    cases f with
    | misfit m => exact told_of_misfit hread
    | malformed => exact .unreadable hread nofun
    | unwritable k => exact .unreadable hread nofun

end ModelData.Config
