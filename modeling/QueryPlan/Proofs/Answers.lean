import QueryPlan.Proofs.Calls

/-!
# Callbacks that never fail

`CallerM.NeverFails` is about a callback by itself: it answers in every state of its caller.
`Visitors.walkTree_answered` and `Replacers.tree_answered` say what follows for a run all of whose
callbacks never fail: every call in the record of the run succeeded.

What holds of one run by itself is taken for a relation that asks nothing of the other run.
-/

namespace QueryPlan

variable {σ τ α β : Type}

/-- The callback answers in every state. -/
def CallerM.NeverFails (c : CallerM σ α) : Prop := ∀ s, ∃ a t, c.run s = (.ok a, t)

/-- No hook ever fails. -/
structure Hooks.NeverFail (h : Hooks σ) : Prop where
  before : ∀ c ∈ h.before, ∀ o, (c o).NeverFails
  after : ∀ c ∈ h.after, ∀ o, (c o).NeverFails

/-- No callback of a walk ever fails. -/
structure Visitors.NeverFail (v : Visitors σ) : Prop where
  hooks : v.toHooks.NeverFail
  onOp : ∀ c ∈ v.onOp, ∀ o, (c o).NeverFails
  onExpr : ∀ c ∈ v.onExpr, ∀ e, (c e).NeverFails

/-- No callback of a run that replaces nodes ever fails. -/
structure Replacers.NeverFail (r : Replacers σ) : Prop where
  hooks : r.toHooks.NeverFail
  onOp : ∀ c ∈ r.onOp, ∀ old rebuilt, (c old rebuilt).NeverFails
  onExpr : ∀ c ∈ r.onExpr, ∀ old rebuilt, (c old rebuilt).NeverFails

namespace RunM

/-- Every call that a run records succeeded. -/
def Answered (x : RunM (Recorded σ) τ α) : Prop :=
  ∀ s, ∃ calls, (x.run s).2.caller.calls = s.caller.calls ++ calls ∧ ∀ call ∈ calls, call.Succeeded

namespace Answered

variable {x : RunM (Recorded σ) τ α}

/-- A computation that leaves the caller alone makes no call, so none that fails. -/
lemma of_no_call (h : ∀ s, (x.run s).2.caller = s.caller) : x.Answered := by
  intro s
  refine ⟨[], ?_, List.forall_mem_nil _⟩
  rw [h, List.append_nil]

/-- A value that is only returned takes no call. -/
lemma pure (a : α) : (pure a : RunM (Recorded σ) τ α).Answered :=
  of_no_call fun _ => rfl

/-- The call of a callback that never fails succeeds. -/
lemma call {c : CallerM σ α} (h : c.NeverFails) (event : Event) (rebuilt : Option Node)
    (node : α → Option Node) :
    (call (CallerM.recorded event rebuilt node c) : RunM (Recorded σ) τ α).Answered := by
  intro s
  refine ⟨_, rfl, fun call hcall e he => ?_⟩
  rw [List.mem_singleton.1 hcall] at he
  obtain ⟨a, t, hrun⟩ := h s.caller.caller
  change (c.run s.caller.caller).1.map node = .error e at he
  rw [hrun] at he
  cases he

/-- Two computations one after the other are answered if each is. -/
lemma bind {f : α → RunM (Recorded σ) τ β} (h : x.Answered) (hf : ∀ a, (f a).Answered) :
    (x >>= f).Answered := by
  intro s
  obtain ⟨calls, hcalls, hanswered⟩ := h s
  rcases hx : x.run s with ⟨e | a, t⟩
  · rw [hx] at hcalls
    exact ⟨calls, by rw [bind_of_error hx, hcalls], hanswered⟩
  · rw [hx] at hcalls
    obtain ⟨more, hmore, hanswered'⟩ := hf a t
    refine ⟨calls ++ more, ?_, List.forall_mem_append.2 ⟨hanswered, hanswered'⟩⟩
    rw [bind_of_ok hx, hmore, hcalls, List.append_assoc]

/-- A visitor that never fails answers, and a missing one is not asked. -/
lemma notify {c : Option (α → CallerM σ Unit)} (h : ∀ f ∈ c, ∀ a, (f a).NeverFails)
    (event : α → Event) (a : α) :
    (notify (c.map fun f a => CallerM.recorded (event a) none (fun _ => none) (f a)) a :
      RunM (Recorded σ) τ Unit).Answered := by
  cases c with
  | none => exact pure ()
  | some f => exact call (h f rfl a) _ _ _

/-- A replacer that never fails answers, and a missing one is not asked. -/
lemma answer {c : Option (α → α → CallerM σ α)}
    (h : ∀ f ∈ c, ∀ old rebuilt, (f old rebuilt).NeverFails) (event : α → Event)
    (node : α → Node) (old rebuilt : α) :
    (Replacers.answer
      (c.map fun c old rebuilt =>
        CallerM.recorded (event old) (some (node rebuilt)) (fun a => some (node a))
          (c old rebuilt))
      old rebuilt : RunM (Recorded σ) τ α).Answered := by
  cases c with
  | none => exact pure rebuilt
  | some f => exact call (h f rfl old rebuilt) _ _ _

end Answered

/-- Being answered goes along with the steps that the loops are made of. -/
lemma congruence_answered : RunRelation.Congruence
    (fun _ _ x _ => x.Answered : RunRelation (Recorded σ) (Recorded σ)) where
  pure := .pure
  throw _ := .of_no_call fun _ => rfl
  emit _ := .of_no_call fun _ => rfl
  modifyOwn _ := .of_no_call fun _ => rfl
  gather c := by
    refine .of_no_call fun s => ?_
    rcases hc : c.run s.own with e | ⟨a, own⟩
    · rw [Replacers.gather_of_error hc]
    · rw [Replacers.gather_of_ok hc]
  bind := .bind
  within own _ _ h s := h { s with own }

end RunM

/-- Hooks that never fail answer every call. -/
lemma Hooks.NeverFail.related {h : Hooks σ} (hh : h.NeverFail) :
    h.recorded.Related (fun _ _ x _ => x.Answered) h.recorded where
  before o := .notify hh.before .before o
  after o := .notify hh.after .after o

/-- Visitors that never fail answer every call. -/
lemma Visitors.NeverFail.related {v : Visitors σ} (hv : v.NeverFail) :
    v.recorded.Related (fun _ _ x _ => x.Answered) v.recorded where
  hooks := hv.hooks.related
  onOp o := .notify hv.onOp .op o
  onExpr e := .notify hv.onExpr .expr e

/-- Replacers that never fail answer every call. -/
lemma Replacers.NeverFail.related {r : Replacers σ} (hr : r.NeverFail) :
    r.recorded.Related (fun _ _ x _ => x.Answered) r.recorded where
  hooks := hr.hooks.related
  onOp old rebuilt := .answer hr.onOp .op .op old rebuilt
  onExpr old rebuilt := .answer hr.onExpr .expr .expr old rebuilt

/-- In a walk whose callbacks never fail every call succeeds. -/
theorem Visitors.walkTree_answered {v : Visitors σ} (hv : v.NeverFail) (config : Config)
    (n : Node) : (v.recorded.walkTree config n).Answered :=
  have hR := RunM.congruence_answered
  walkTree_related hR (hR.checkDepth config) hv.related n

/-- In a run on a tree whose callbacks never fail every call succeeds. -/
theorem Replacers.tree_answered {r : Replacers σ} (hr : r.NeverFail) (config : Config)
    (n : Node) : (r.recorded.tree config n : RunM (Recorded σ) τ Node).Answered :=
  have hR := RunM.congruence_answered
  tree_related hR (hR.checkDepth config) hr.related n

end QueryPlan
