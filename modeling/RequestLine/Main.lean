import RequestLine.CommandLine

/-!
# The program
-/

/-- Prints what the command line asks for. -/
def main (args : List String) : IO UInt32 := do
  let output := RequestLine.CommandLine.run args
  IO.print output.stdout
  IO.eprint output.stderr
  return output.code.toUInt32
