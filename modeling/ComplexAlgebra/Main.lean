import ComplexAlgebra.CommandLine

/-! The program: fetches the input file, if one is asked for, and writes the report. -/
open ComplexAlgebra

/-- The text of a file, if it exists and is valid UTF-8. -/
def readText (name : String) : IO (Option String) := do
  try
    return String.fromUTF8? (← IO.FS.readBinFile name)
  catch _ => return none

def main (args : List String) : IO UInt32 := do
  let text ← match CommandLine.inputFile? args with
    | some name => readText name
    | none => pure none
  let report := CommandLine.run (fun _ => text) args
  IO.print report.output
  IO.eprint report.errors
  return report.code.toUInt32
