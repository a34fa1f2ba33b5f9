import QueryPlan.Command

/-!
# The program

Reads the arguments, runs the command and writes what it gives.
-/

/-- Exit code 2 for arguments that spell no command, otherwise that of the command. -/
def main (args : List String) : IO UInt32 := do
  match QueryPlan.Invocation.ofArgs? args with
  | none =>
    IO.eprintln "usage: [-s SAMPLE] [-d DEPTH] COMMAND"
    IO.eprintln "commands: list, show, vars, stats, scopes, retarget --from TABLE --to TABLE"
    return 2
  | some invocation =>
    let result := invocation.run
    IO.print result.stdout
    IO.eprint result.stderr
    return result.exitCode.toUInt32
