import ModelData.Misfit

/-! Why a value cannot be written as YAML, or a text cannot be read as YAML. -/

namespace ModelData.Yaml

inductive Fault where
  | unwritable (k : Kind)
  | malformed
  | misfit (m : Misfit)
deriving DecidableEq

end ModelData.Yaml
