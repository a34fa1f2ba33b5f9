/-!
# Command-line options

Options that take a value, in the usual spellings: `--name value`, `--name=value`, `-n value`,
`-nvalue` and `-n=value`. Reading stops at the first argument that is none of the expected options;
an option that is given twice or lacks its value is an error.
-/

namespace QueryPlan

/-- An option of a command line that takes a value. -/
structure CommandOption where
  long : String
  short : Option Char := none
deriving DecidableEq

namespace CommandOption

/-- How an argument spells an option. -/
inductive Spelling where
  /-- The value is the next argument. -/
  | separate
  /-- The value is part of the argument. -/
  | attached (value : String)

/-- The spelling of the option in an argument, if the argument begins with the option. A value may
be attached to the short name with or without a sign of equality. -/
def spelling? (o : CommandOption) (arg : String) : Option Spelling :=
  let long := "--".toList ++ o.long.toList
  if arg.toList = long then some .separate
  else if (long ++ ['=']).isPrefixOf arg.toList then
    some (.attached (String.ofList (arg.toList.drop (long.length + 1))))
  else
    match arg.toList with
    | '-' :: c :: rest =>
      if o.short = some c then
        match rest with
        | [] => some .separate
        | '=' :: value => some (.attached (String.ofList value))
        | value => some (.attached (String.ofList value))
      else none
    | _ => none

/-- An argument that can stand as a value by itself: it does not look like an option. -/
def isValue (arg : String) : Bool :=
  match arg.toList with
  | '-' :: _ :: _ => false
  | _ => true

/-- The options at the head of the arguments with their values, and the arguments after them. -/
def read (expected : List CommandOption) (found : List (CommandOption × String)) :
    List String → Option (List (CommandOption × String) × List String)
  | [] => some (found, [])
  | arg :: rest =>
    match expected.findSome? fun o => (o.spelling? arg).map fun s => (o, s) with
    | none => some (found, arg :: rest)
    | some (o, s) =>
      if (found.lookup o).isSome then none
      else
        match s, rest with
        | .attached value, rest => read expected (found ++ [(o, value)]) rest
        | .separate, value :: rest =>
          if isValue value then read expected (found ++ [(o, value)]) rest else none
        | .separate, [] => none

end CommandOption

/-- The number of 64 bits that a text spells in decimal digits, perhaps after a plus sign. -/
def word64? (text : String) : Option Nat :=
  let digits :=
    match text.toList with
    | '+' :: digits => digits
    | digits => digits
  if digits ≠ [] ∧ digits.all Char.isDigit then
    let value := digits.foldl (fun n c => 10 * n + (c.toNat - '0'.toNat)) 0
    if value < UInt64.size then some value else none
  else none

end QueryPlan
