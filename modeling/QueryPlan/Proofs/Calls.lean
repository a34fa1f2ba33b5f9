import QueryPlan.Proofs.SideBySide

/-!
# Calls of a run

Callbacks are functions of a state of the caller, so which of them a run calls shows only in that
state. `Visitors.recorded` and `Replacers.recorded` are the same callbacks over a state that holds a
record of the calls besides, with what each call was handed and what it answered.

Recording changes nothing else: whoever forgets the record sees the run without it
(`Visitors.walkTree_recorded`, `Replacers.replace_recorded`). This is a case of `RunM.Seen`, and
only the callbacks have to be looked at.
-/

namespace QueryPlan

variable {σ ρ τ α : Type}

/-- What a callback is called for: the scope of an operator is opened, a node is handed to the
callback of its sort, or the scope is closed. -/
inductive Event where
  | before (op : Op)
  | op (op : Op)
  | expr (expr : Expr)
  | after (op : Op)

/-- A call of a callback. -/
structure Call where
  /-- What it was called for; the node is the one in the tree. -/
  event : Event
  /-- The rebuilt node that it was handed besides. -/
  rebuilt : Option Node
  /-- The node that it wants in the place of the old one, or the error it returned. -/
  answer : Except RunError (Option Node)

/-- The callback did not fail. -/
def Call.Succeeded (c : Call) : Prop := ∀ e, c.answer ≠ .error e

/-- A caller's state with the calls so far. -/
structure Recorded (σ : Type) where
  caller : σ
  calls : List Call := []

/-- A callback that leaves a record of its call. -/
def CallerM.recorded (event : Event) (rebuilt : Option Node) (node : α → Option Node)
    (c : CallerM σ α) : CallerM (Recorded σ) α :=
  ExceptT.mk fun s =>
    let (result, caller) := c.run s.caller
    (result, { caller, calls := s.calls ++ [⟨event, rebuilt, result.map node⟩] })

/-- A recorded callback does what it did, and notes its event, what it got and its answer. -/
lemma CallerM.run_recorded (event : Event) (rebuilt : Option Node) (node : α → Option Node)
    (c : CallerM σ α) (s : Recorded σ) :
    (recorded event rebuilt node c).run s =
      ((c.run s.caller).1,
        ⟨(c.run s.caller).2, s.calls ++ [⟨event, rebuilt, (c.run s.caller).1.map node⟩]⟩) :=
  rfl

/-- Hooks that leave a record of their calls. -/
def Hooks.recorded (h : Hooks σ) : Hooks (Recorded σ) where
  before := h.before.map fun c o => CallerM.recorded (.before o) none (fun _ => none) (c o)
  after := h.after.map fun c o => CallerM.recorded (.after o) none (fun _ => none) (c o)

/-- Visitors that leave a record of their calls. -/
def Visitors.recorded (v : Visitors σ) : Visitors (Recorded σ) where
  toHooks := v.toHooks.recorded
  onOp := v.onOp.map fun c o => CallerM.recorded (.op o) none (fun _ => none) (c o)
  onExpr := v.onExpr.map fun c e => CallerM.recorded (.expr e) none (fun _ => none) (c e)

/-- Replacing callbacks that leave a record of their calls. -/
def Replacers.recorded (r : Replacers σ) : Replacers (Recorded σ) where
  toHooks := r.toHooks.recorded
  onOp := r.onOp.map fun c old rebuilt =>
    CallerM.recorded (.op old) (some (.op rebuilt)) (fun o => some (.op o)) (c old rebuilt)
  onExpr := r.onExpr.map fun c old rebuilt =>
    CallerM.recorded (.expr old) (some (.expr rebuilt)) (fun e => some (.expr e)) (c old rebuilt)

/-- A session without the record. -/
def Session.forget (s : Session (Recorded σ) τ) : Session σ τ :=
  { s with caller := s.caller.caller }

namespace RunM

/-- `x` is `y` with a record: forgetting it gives the runs of `y`. -/
def Records (x : RunM (Recorded σ) τ α) (y : RunM σ τ α) : Prop :=
  ∀ s, y.run s.forget = ((x.run s).1, (x.run s).2.forget)

/-- A run without its record is that run seen without the calls. -/
lemma congruence_records :
    RunRelation.Congruence (fun _ _ => Records : RunRelation (Recorded σ) σ) :=
  congruence_seen Recorded.caller

namespace Records

/-- The call of a recorded callback is that of the callback, seen without the record. -/
lemma call (event : Event) (rebuilt : Option Node) (node : α → Option Node) (c : CallerM σ α) :
    Records (call (CallerM.recorded event rebuilt node c) : RunM (Recorded σ) τ α) (call c) :=
  fun _ => rfl

/-- A recorded visitor is notified as the visitor is, or missing like it. -/
lemma notify (event : α → Event) (c : Option (α → CallerM σ Unit)) (a : α) :
    Records
      (notify (c.map fun c a => CallerM.recorded (event a) none (fun _ => none) (c a)) a :
        RunM (Recorded σ) τ Unit)
      (notify c a) := by
  cases c with
  | none => exact congruence_records.pure ()
  | some c => exact call _ _ _ _

/-- A recorded replacer answers as the replacer does, or is missing like it. -/
lemma answer (event : α → Event) (node : α → Node) (c : Option (α → α → CallerM σ α))
    (old rebuilt : α) :
    Records
      (Replacers.answer
        (c.map fun c old rebuilt =>
          CallerM.recorded (event old) (some (node rebuilt)) (fun a => some (node a))
            (c old rebuilt))
        old rebuilt : RunM (Recorded σ) τ α)
      (Replacers.answer c old rebuilt) := by
  cases c with
  | none => exact congruence_records.pure rebuilt
  | some c => exact call _ _ _ _

end Records

end RunM

/-- Each recorded hook is seen without the record as the hook. -/
lemma Hooks.related_records (h : Hooks σ) :
    h.recorded.Related (fun _ _ => RunM.Records) h where
  before o := .notify .before h.before o
  after o := .notify .after h.after o

/-- Each recorded visitor is seen without the record as the visitor. -/
lemma Visitors.related_records (v : Visitors σ) :
    v.recorded.Related (fun _ _ => RunM.Records) v where
  hooks := v.toHooks.related_records
  onOp o := .notify .op v.onOp o
  onExpr e := .notify .expr v.onExpr e

/-- Each recorded replacer is seen without the record as the replacer. -/
lemma Replacers.related_records (r : Replacers σ) :
    r.recorded.Related (fun _ _ => RunM.Records) r where
  hooks := r.toHooks.related_records
  onOp old rebuilt := .answer .op .op r.onOp old rebuilt
  onExpr old rebuilt := .answer .expr .expr r.onExpr old rebuilt

/-- What a loop with records reaches, it reaches without them. -/
lemma reaches_forget {f : Step → RunM (Recorded σ) τ Unit} {g : Step → RunM σ τ Unit}
    (h : ∀ s, RunM.Records (f s) (g s)) {L M : Loop (Recorded σ) τ} (hreach : Reaches f L M) :
    Reaches g ⟨L.waiting, L.session.forget⟩ ⟨M.waiting, M.session.forget⟩ := by
  induction hreach with
  | refl => exact .refl
  | tail _ hstep ih =>
    obtain ⟨hrun⟩ := hstep
    refine ih.tail (.step ?_)
    rw [h, hrun]

/-- Recording the calls of a walk changes nothing else. -/
theorem Visitors.walkTree_recorded (config : Config) (v : Visitors σ) (n : Node) :
    RunM.Records (v.recorded.walkTree config n) (v.walkTree config n) :=
  have hR := RunM.congruence_records
  Visitors.walkTree_related hR (hR.checkDepth config) v.related_records n

/-- Without the record, a recorded walk of a root is the walk itself. -/
theorem Visitors.walk_recorded (config : Config) (v : Visitors σ) (root : Root) :
    RunM.Records (v.recorded.walk config root) (v.walk config root) :=
  have hR := RunM.congruence_records
  Visitors.walk_related hR (hR.checkDepth config) v.related_records root

namespace Replacers

/-- Without the record, a recorded step of a transformation is the step itself. -/
lemma perform_recorded (config : Config) (r : Replacers σ) (s : Step) :
    RunM.Records (r.recorded.perform config s) (r.perform config s) :=
  have hR := RunM.congruence_records
  perform_related hR (hR.checkDepth config) r.related_records s

/-- Recording the calls of a run that replaces nodes changes nothing else. -/
theorem replace_recorded (config : Config) (r : Replacers σ) (root : Root) :
    RunM.Records (r.recorded.replace config root : RunM (Recorded σ) τ Root)
      (r.replace config root) :=
  have hR := RunM.congruence_records
  replace_related hR (hR.checkDepth config) r.related_records root

/-- Replace the nodes of a tree of either sort. -/
def tree (config : Config) (r : Replacers σ) : Node → RunM σ τ Node
  | .op o => return .op (← r.op config o)
  | .expr e => return .expr (← r.expr config e)

/-- What relates the callbacks relates the runs on a tree of either sort. -/
lemma tree_related {R : RunRelation σ ρ} (hR : R.Congruence) {config config' : Config}
    (hconfig : config.Related R config') {r : Replacers σ} {r' : Replacers ρ}
    (hr : r.Related R r') (n : Node) :
    R (r.tree config n : RunM σ τ Node) (r'.tree config' n) := by
  cases n with
  | op o => exact hR.bind (op_related hR hconfig hr o) fun _ => hR.pure _
  | expr e => exact hR.bind (expr_related hR hconfig hr e) fun _ => hR.pure _

/-- Without the record, the recorded transformation of a tree is the transformation itself. -/
lemma tree_recorded (config : Config) (r : Replacers σ) (n : Node) :
    RunM.Records (r.recorded.tree config n : RunM (Recorded σ) τ Node) (r.tree config n) :=
  have hR := RunM.congruence_records
  tree_related hR (hR.checkDepth config) r.related_records n

end Replacers

end QueryPlan
