import ModelData.Example
import ModelData.Folder.Saving

/-!
The demonstration program: it prints the example document in both layouts with its report,
and saves a copy in a temporary file. The time is that of the temporary file.
-/

namespace ModelData

/-- The day with a number, counted from the first day of 1970, within some years from one on. -/
def dayFrom (days : Nat) : Nat → Nat → Date
  | 0, year => ⟨year, 1, 1⟩
  | years + 1, year =>
    if Date.daysInYear year ≤ days then dayFrom (days - Date.daysInYear year) years (year + 1)
    else
      let (month, before) := (List.range 11).foldl (fun (month, before) i =>
        let next := before + Date.daysInMonth year (i + 1)
        if next ≤ days then (i + 2, next) else (month, before)) (1, 0)
      ⟨year, month, days - before + 1⟩

/-- The moment so many seconds after the start of 1970, in universal time. -/
def momentOf (seconds : Nat) : Moment :=
  let inDay := seconds % 86400
  ⟨dayFrom (seconds / 86400) 8030 1970, inDay / 3600, inDay / 60 % 60, inDay % 60, 0, some 0, none⟩

end ModelData

open ModelData in
def main : IO UInt32 := do
  let (handle, path) ← IO.FS.createTempFile
  let stamp ← path.metadata
  let now := momentOf stamp.modified.sec.toNat
  let saved := do
    let d ← Document.ofProducts Product.standard (.flag true)
    Dat.file d .null now
  match saved, demonstration now path.toString with
  | .ok text, .ok printed =>
    handle.putStr (String.ofList text)
    IO.print printed
    return 0
  | .error m, _ | _, .error m =>
    IO.eprintln m.message
    return 1
