import QueryPlan.Error
import QueryPlan.Log

/-!
# Sessions

A run calls callbacks of its caller, which have a state of their own, keeps a state for itself and
writes log records. All three survive an error: a caller sees what was done before a run stopped.
-/

namespace QueryPlan

/-- What callbacks run in: the caller's state, which an error leaves as it is. -/
abbrev CallerM (σ : Type) := ExceptT RunError (StateM σ)

/-- What is kept during a run. -/
structure Session (σ τ : Type) where
  /-- The state of the callbacks. -/
  caller : σ
  /-- The state of the run. -/
  own : τ
  /-- The records so far. -/
  log : Array LogRecord := #[]

/-- A run with callbacks over `σ` and a state `τ` of its own. -/
abbrev RunM (σ τ : Type) := ExceptT RunError (StateM (Session σ τ))

/-- How deep a run may go; without a limit it goes through every tree. -/
structure Config where
  maxDepth : Option Nat := some 512

/-- No limit. -/
def Config.unbounded : Config := ⟨none⟩

/-- What a caller has done around composite operators. -/
structure Hooks (σ : Type) where
  /-- On entering, before anything below the operator. -/
  before : Option (Op → CallerM σ Unit) := none
  /-- On leaving, after everything else. -/
  after : Option (Op → CallerM σ Unit) := none

namespace RunM

variable {σ τ υ α β : Type}

/-- Run a callback on the caller's state. -/
def call (c : CallerM σ α) : RunM σ τ α :=
  ExceptT.mk fun s =>
    let (result, caller) := c.run s.caller
    (result, { s with caller })

/-- Run a callback if the caller supplied it. -/
def notify (c : Option (α → CallerM σ Unit)) (a : α) : RunM σ τ Unit :=
  match c with
  | some c => call (c a)
  | none => pure ()

/-- Write a record. -/
def emit (r : LogRecord) : RunM σ τ Unit := modify fun s => { s with log := s.log.push r }

/-- Change the state of the run. -/
def modifyOwn (f : τ → τ) : RunM σ τ Unit := modify fun s => { s with own := f s.own }

/-- A run with a state of its own inside another one. -/
def within (own : υ) (x : RunM σ υ α) : RunM σ τ α :=
  ExceptT.mk fun s =>
    let (result, t) := x.run { s with own }
    (result, { t with own := s.own })

/-- Refuse a node that stands deeper than the limit. -/
def checkDepth (config : Config) (depth : Nat) : RunM σ τ Unit :=
  match config.maxDepth with
  | some limit =>
    if limit < depth then do
      emit (.tooDeep limit)
      throw (.tooDeep limit)
    else pure ()
  | none => pure ()

/-- Refuse a defective node. -/
def checkNode (n : Node) : RunM σ τ Unit :=
  match n.defect? with
  | some d => do
    emit (.defective d)
    throw d.error
  | none => pure ()

/-- Reach a node: note it, refuse it if it is defective, and open its scope. -/
def reach (activity : Activity) (hooks : Hooks σ) (n : Node) (depth : Nat) : RunM σ τ Unit := do
  emit (.entered activity n depth)
  checkNode n
  match n with
  | .op o => if o.isComposite then notify hooks.before o else pure ()
  | .expr _ => pure ()

/-- Close the scope of an operator. -/
def close (hooks : Hooks σ) (o : Op) : RunM σ τ Unit :=
  if o.isComposite then notify hooks.after o else pure ()

/-- The result of a run and what it leaves behind, from the caller's state and its own. -/
def exec (x : RunM σ τ α) (caller : σ) (own : τ) : Except RunError α × Session σ τ :=
  x.run { caller, own }

end RunM

end QueryPlan
