import ObjectQuery.Query.Printing

/-!
# The command line

Reads a query from standard input and writes its canonical text to standard output.
-/

set_option autoImplicit false

open ObjectQuery

def main : IO UInt32 := do
  let text ← (← IO.getStdin).readToEnd
  match Query.pretty text with
  | .ok canonical =>
    (← IO.getStdout).putStr canonical
    return 0
  | .error e =>
    (← IO.getStderr).putStrLn e.message
    return 1
