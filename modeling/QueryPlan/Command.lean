import QueryPlan.Command.Options
import QueryPlan.Outline
import QueryPlan.Retarget
import QueryPlan.Samples
import QueryPlan.Variables

/-!
# The command line

`Invocation.ofArgs?` reads the arguments and `Invocation.run` gives what is written and whether it
failed. Options for the sample and the depth limit come before the command.
-/

namespace QueryPlan

/-- What to do with a sample plan. -/
inductive Command where
  /-- List the samples. -/
  | list
  /-- Print the plan. -/
  | print
  /-- Print the variables that expressions refer to. -/
  | vars
  /-- Print the numbers of nodes and the depth. -/
  | stats
  /-- Print the outline. -/
  | scopes
  /-- Print the plan before and after its scans of one table were retargeted to another. -/
  | retarget (source target : String)
deriving DecidableEq

/-- The command of a name with its arguments; two dashes may end them. -/
def Command.ofArgs? (name : String) (args : List String) : Option Command :=
  let plain (c : Command) : Option Command := if args = [] ∨ args = ["--"] then some c else none
  match name with
  | "list" => plain list
  | "show" => plain print
  | "vars" => plain vars
  | "stats" => plain stats
  | "scopes" => plain scopes
  | "retarget" => do
    let source : CommandOption := { long := "from" }
    let target : CommandOption := { long := "to" }
    let (values, rest) ← CommandOption.read [source, target] [] args
    if rest = [] ∨ rest = ["--"] then
      return retarget (← values.lookup source) (← values.lookup target)
    else none
  | _ => none

/-- A command with the sample and the limit it works on. -/
structure Invocation where
  sample : String := "filter-project"
  config : Config := {}
  command : Command

/-- What a command leaves behind. -/
structure CommandResult where
  /-- The lines written. -/
  lines : List String
  /-- Why it failed, if it did. -/
  failure : Option String := none

namespace CommandResult

/-- The text written to the output. -/
def stdout (r : CommandResult) : String := String.join (r.lines.map (· ++ "\n"))

/-- The text written as an error. -/
def stderr (r : CommandResult) : String :=
  match r.failure with
  | some message => "Error: " ++ message ++ "\n"
  | none => ""

/-- The exit code. -/
def exitCode (r : CommandResult) : Nat := if r.failure.isSome then 1 else 0

/-- The lines, or the message of the error. -/
def ofExcept : Except RunError (List String) → CommandResult
  | .ok lines => { lines }
  | .error e => { lines := [], failure := some e.message }

end CommandResult

namespace Invocation

/-- The invocation that arguments spell; nothing, if they spell none. -/
def ofArgs? (args : List String) : Option Invocation := do
  let sample : CommandOption := { long := "sample", short := 's' }
  let maxDepth : CommandOption := { long := "max-depth", short := 'd' }
  let (values, rest) ← CommandOption.read [sample, maxDepth] [] args
  match rest with
  | [] => none
  | name :: rest =>
    let command ← Command.ofArgs? name rest
    let config : Config ←
      match values.lookup maxDepth with
      | some text => (word64? text).map fun limit => ⟨some limit⟩
      | none => some {}
    return { sample := (values.lookup sample).getD "filter-project", config, command }

/-- A name filled up to sixteen characters, and its description. -/
def listing (s : Sample) : String :=
  s.name ++ String.ofList (List.replicate (16 - s.name.length) ' ') ++ " " ++ s.description

/-- The counters of a plan; too deep a plan has a message of its own here. -/
def stats (config : Config) (plan : Op) : CommandResult :=
  let (result, s) := (Visitors.walk config ({} : Visitors Unit) (.op plan)).exec () {}
  match result with
  | .ok () =>
    { lines :=
        ["operators:   " ++ toString s.own.ops,
         "expressions: " ++ toString s.own.exprs,
         "max depth:   " ++ toString s.own.maxDepth] }
  | .error (.tooDeep limit) =>
    { lines := []
      failure := some ("Plan is nested deeper than " ++ toString limit ++ " levels") }
  | .error e => { lines := [], failure := some e.message }

/-- Every sample on a line of its own. -/
def listAll : CommandResult := { lines := Sample.all.map listing }

/-- Run a command on a plan. -/
def runOn (config : Config) (plan : Op) : Command → CommandResult
  | .list => listAll
  | .print => { lines := [plan.text] }
  | .vars => .ofExcept ((plan.vars config).map fun vars => [" ".intercalate (vars.map Var.text)])
  | .stats => stats config plan
  | .scopes =>
    match plan.outline config with
    | (.ok (), outline) => { lines := outline.lines }
    | (.error e, outline) => { lines := outline.lines, failure := some e.message }
  | .retarget source target =>
    .ofExcept ((plan.retarget config source target).map fun retargeted =>
      ["before: " ++ plan.text, "after:  " ++ retargeted.text])

/-- Run an invocation. Listing the samples is possible whatever sample is named. -/
def run (i : Invocation) : CommandResult :=
  match Sample.find? i.sample with
  | some sample => runOn i.config sample.plan i.command
  | none =>
    if i.command = .list then listAll
    else
      { lines := []
        failure := some ("Unknown sample '" ++ i.sample ++ "', try `algwalk list`") }

end Invocation

end QueryPlan
