import Mathlib.Data.List.Forall2
import QueryPlan.Session

/-!
# Runs and their parts

How a run of `x >>= f` splits into a run of `x` and one of `f`: `RunM.bind_of_ok` and
`RunM.bind_of_error` put runs together, `RunM.ok_of_bind` takes them apart. Every later proof about
a single run goes through these three.

`RunM.within` gives a part of a run a state of its own. What touches only the caller's state and the
log passes through it unchanged (`RunM.Passes`). `RunM.Ensures` says what every result of a run
satisfies.
-/

namespace QueryPlan.RunM

variable {σ τ υ α β γ : Type}

/-- Computations are equal if they run alike from every session. -/
lemma ext {x y : RunM σ τ α} (h : ∀ s, x.run s = y.run s) : x = y :=
  funext h

/-- A run goes on from where its first part succeeded. -/
lemma bind_of_ok {x : RunM σ τ α} {f : α → RunM σ τ β} {s t a} (h : x.run s = (.ok a, t)) :
    (x >>= f).run s = (f a).run t := by
  change ExceptT.bindCont f (x.run s).1 (x.run s).2 = _
  rw [h]
  rfl

/-- A run ends where its first part fails. -/
lemma bind_of_error {x : RunM σ τ α} {f : α → RunM σ τ β} {s t e} (h : x.run s = (.error e, t)) :
    (x >>= f).run s = (.error e, t) := by
  change ExceptT.bindCont f (x.run s).1 (x.run s).2 = _
  rw [h]
  rfl

/-- A run goes on in the same way from two first parts that end in the same way. -/
lemma run_bind_congr {x : RunM σ τ α} {y : RunM σ τ α} {f : α → RunM σ τ β} {s t}
    (h : x.run s = y.run t) : (x >>= f).run s = (y >>= f).run t := by
  rcases hy : y.run t with ⟨a | a, u⟩
  · rw [hy] at h
    rw [bind_of_error h, bind_of_error hy]
  · rw [hy] at h
    rw [bind_of_ok h, bind_of_ok hy]

/-- What is made of the result of a run leaves everything else as it is. -/
lemma run_bind_pure (x : RunM σ τ α) (g : α → β) (s : Session σ τ) :
    (x >>= fun a => (pure (g a) : RunM σ τ β)).run s = ((x.run s).1.map g, (x.run s).2) := by
  rcases hx : x.run s with ⟨e | a, t⟩
  · rw [bind_of_error hx]
    rfl
  · rw [bind_of_ok hx]
    rfl

/-- Both parts of a run that succeeds succeed. -/
lemma ok_of_bind {x : RunM σ τ α} {f : α → RunM σ τ β} {s u b}
    (h : (x >>= f).run s = (.ok b, u)) :
    ∃ a t, x.run s = (.ok a, t) ∧ (f a).run t = (.ok b, u) := by
  rcases hx : x.run s with ⟨a | a, t⟩
  · rw [bind_of_error hx] at h
    cases h
  · rw [bind_of_ok hx] at h
    exact ⟨a, t, rfl, h⟩

/-! ### Nodes at which nothing happens -/

/-- A node without a defect passes its check. -/
lemma checkNode_of_none {n : Node} (h : n.defect? = none) :
    (checkNode n : RunM σ τ Unit) = Pure.pure () := by
  unfold checkNode
  rw [h]

/-- Without hooks a node that is not defective is only noted. -/
lemma reach_empty {n : Node} (h : n.defect? = none) (activity : Activity) (depth : Nat) :
    (reach activity {} n depth : RunM σ τ Unit) = emit (.entered activity n depth) := by
  unfold reach
  rw [checkNode_of_none h, pure_bind]
  cases n with
  | op o =>
    dsimp only [notify]
    rw [ite_self]
    exact bind_pure _
  | expr e => exact bind_pure _

/-- Without hooks nothing is done when a scope is closed. -/
lemma close_empty (o : Op) : (close {} o : RunM σ τ Unit) = Pure.pure () :=
  ite_self _

/-! ### States of their own -/

/-- A part that touches only the caller's state and the log: inside a part with a state of its own
it is `x`, outside `y`. -/
def Passes (x : RunM σ υ α) (y : RunM σ τ α) : Prop :=
  ∀ (β : Type) (own : υ) (f : α → RunM σ υ β),
    within own (x >>= f) = y >>= fun a => within own (f a)

/-- A part with a state of its own leaves the state around it as it is. -/
lemma run_within (own : υ) (x : RunM σ υ α) (s : Session σ τ) :
    (within own x).run s =
      ((x.run { s with own }).1, { (x.run { s with own }).2 with own := s.own }) :=
  rfl

/-- A call changes the state of the caller, and nothing else of the session. -/
lemma run_call (c : CallerM σ α) (s : Session σ τ) :
    (call c : RunM σ τ α).run s =
      ((c.run s.caller).1, { s with caller := (c.run s.caller).2 }) :=
  rfl

namespace Passes

variable {x : RunM σ υ α} {y : RunM σ τ α}

/-- What runs alike whatever the own state is, and leaves it alone, passes. -/
lemma of_run
    (h : ∀ s own, x.run { s with own } = ((y.run s).1, { (y.run s).2 with own }))
    (hy : ∀ s, (y.run s).2.own = s.own) : Passes x y := by
  intro β own f
  apply RunM.ext
  intro s
  rcases e : y.run s with ⟨a | a, t⟩
  · have hx := h s own
    rw [e] at hx
    rw [bind_of_error e, run_within, bind_of_error hx, ← hy s, e]
  · have hx := h s own
    rw [e] at hx
    rw [bind_of_ok e, run_within, run_within, bind_of_ok hx, ← hy s, e]

/-- A value that is only returned passes. -/
lemma pure (a : α) : Passes (pure a : RunM σ υ α) (pure a : RunM σ τ α) :=
  of_run (fun _ _ => rfl) fun _ => rfl

/-- An error that is thrown passes. -/
lemma throw (e : RunError) : Passes (throw e : RunM σ υ α) (throw e : RunM σ τ α) :=
  of_run (fun _ _ => rfl) fun _ => rfl

/-- The call of a callback passes. -/
lemma call (c : CallerM σ α) : Passes (call c : RunM σ υ α) (call c : RunM σ τ α) :=
  of_run (fun _ _ => rfl) fun _ => rfl

/-- A log record passes. -/
lemma emit (r : LogRecord) : Passes (emit r : RunM σ υ Unit) (emit r : RunM σ τ Unit) :=
  of_run (fun _ _ => rfl) fun _ => rfl

/-- Two parts after each other pass if each does. -/
lemma bind {f : α → RunM σ υ β} {g : α → RunM σ τ β} (h : Passes x y)
    (hf : ∀ a, Passes (f a) (g a)) : Passes (x >>= f) (y >>= g) := by
  intro γ own k
  rw [bind_assoc, bind_assoc, h]
  exact congrArg _ (funext fun a => hf a γ own k)

/-- A notification passes. -/
lemma notify (c : Option (α → CallerM σ Unit)) (a : α) :
    Passes (notify c a : RunM σ υ Unit) (notify c a : RunM σ τ Unit) := by
  cases c with
  | none => exact pure ()
  | some c => exact call (c a)

/-- The check of the depth passes. -/
lemma checkDepth (config : Config) (depth : Nat) :
    Passes (checkDepth config depth : RunM σ υ Unit) (checkDepth config depth : RunM σ τ Unit) := by
  unfold RunM.checkDepth
  split
  · split
    · exact (emit _).bind fun _ => throw _
    · exact pure ()
  · exact pure ()

/-- The check of a node passes. -/
lemma checkNode (n : Node) :
    Passes (checkNode n : RunM σ υ Unit) (checkNode n : RunM σ τ Unit) := by
  unfold RunM.checkNode
  split
  · exact (emit _).bind fun _ => throw _
  · exact pure ()

/-- The entering of a node passes. -/
lemma reach (activity : Activity) (hooks : Hooks σ) (n : Node) (depth : Nat) :
    Passes (reach activity hooks n depth : RunM σ υ Unit)
      (reach activity hooks n depth : RunM σ τ Unit) := by
  refine (emit _).bind fun _ => (checkNode n).bind fun _ => ?_
  split
  · split
    · exact notify _ _
    · exact pure ()
  · exact pure ()

/-- The closing of a scope passes. -/
lemma close (hooks : Hooks σ) (o : Op) :
    Passes (close hooks o : RunM σ υ Unit) (close hooks o : RunM σ τ Unit) := by
  unfold RunM.close
  split
  · exact notify _ _
  · exact pure ()

end Passes

/-- From outside a part that passes looks the same, whatever its own state is. -/
lemma Passes.within_eq {x : RunM σ υ α} {y : RunM σ τ α} (h : Passes x y) (own : υ) :
    within own x = y := by
  have hrun := h α own Pure.pure
  rw [bind_pure] at hrun
  rw [hrun]
  exact bind_pure y

/-- What passes leaves the own state alone. -/
lemma Passes.own_eq {x y : RunM σ τ α} (h : Passes x y) (s : Session σ τ) :
    (y.run s).2.own = s.own := by
  rw [← h.within_eq s.own]
  rfl

/-! ### Results -/

/-- Every result of a run satisfies `P`. -/
def Ensures (x : RunM σ τ α) (P : α → Prop) : Prop :=
  ∀ ⦃s a t⦄, x.run s = (.ok a, t) → P a

/-- What follows a run may rely on what the run ensures. -/
lemma Ensures.bind_congr {x : RunM σ τ α} {P} {f g : α → RunM σ τ β} (h : x.Ensures P)
    (hfg : ∀ a, P a → f a = g a) : x >>= f = x >>= g := by
  apply RunM.ext
  intro s
  rcases e : x.run s with ⟨a | a, t⟩
  · rw [bind_of_error e, bind_of_error e]
  · rw [bind_of_ok e, bind_of_ok e, hfg a (h e)]

/-- A value that is only returned satisfies what holds of it. -/
lemma Ensures.pure {P : α → Prop} {a} (h : P a) : (pure a : RunM σ τ α).Ensures P := by
  intro s b t e
  cases e
  exact h

/-- A run satisfies what its second part does after any result of the first. -/
lemma Ensures.bind {x : RunM σ τ α} {f : α → RunM σ τ β} {P Q} (h : x.Ensures P)
    (hf : ∀ a, P a → (f a).Ensures Q) : (x >>= f).Ensures Q := by
  intro s b u e
  obtain ⟨a, t, hx, hfa⟩ := ok_of_bind e
  exact hf a (h hx) hfa

/-- Every result satisfies what holds of everything. -/
lemma Ensures.trivial (x : RunM σ τ α) : x.Ensures fun _ => True :=
  fun _ _ _ _ => ⟨⟩

/-- The results of a loop satisfy, one by one, what the runs of the members do. -/
lemma Ensures.mapM {f : α → RunM σ τ β} {R : α → β → Prop} {as : List α}
    (h : ∀ a ∈ as, (f a).Ensures (R a)) : (as.mapM f).Ensures (List.Forall₂ R as) := by
  induction as with
  | nil => exact Ensures.pure .nil
  | cons a as ih =>
    rw [List.mapM_cons]
    refine Ensures.bind (h a (.head _)) fun b hb => ?_
    refine Ensures.bind (ih fun a' ha => h a' (.tail _ ha)) fun bs hbs => ?_
    exact Ensures.pure (List.Forall₂.cons hb hbs)

end QueryPlan.RunM
