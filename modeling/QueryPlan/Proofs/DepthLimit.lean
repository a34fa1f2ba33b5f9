import Mathlib.Data.List.MinMax
import QueryPlan.Proofs.FirstBad
import QueryPlan.Proofs.ReplaceErrors
import QueryPlan.Proofs.SideBySide
import QueryPlan.Proofs.Unchanged

/-!
# The depth limit

A limit on the depth is tested at each node that is entered, in the middle of runs whose callbacks
go on from each other. `limit_only_cuts` compares a run under a limit to the run under a looser one,
or under none. Either the limit cuts the run short, at a node that is too deep, and then it has made
the first calls of the other run; or there is no difference at all.

Callbacks may return the error of a limit themselves. What tells it from one of the run is that
no call failed (`RunM.EndsTooDeep`). `RunM.OnlyCut` is the comparison of the two runs as a
relation that goes through everything that runs are put together with. `Node.height` is the limit
from which on a tree is never too deep.
-/

namespace QueryPlan

variable {σ ρ τ υ α β : Type} {limit : Nat}

namespace RunM

/-- The run stops by itself at a node that stands deeper than the limit: no callback failed. -/
structure EndsTooDeep (limit : Nat) (x : RunM (Recorded σ) τ α) (s : Session (Recorded σ) τ) :
    Prop where
  result : (x.run s).1 = .error (.tooDeep limit)
  succeeded : ∃ calls, (x.run s).2.caller.calls = s.caller.calls ++ calls ∧
    ∀ call ∈ calls, call.Succeeded

/-- The run of `x` stops at a node that is too deep, and its calls are the first ones of `y`. -/
structure CutShort (limit : Nat) (x y : RunM (Recorded σ) τ α) (s : Session (Recorded σ) τ) : Prop
    extends EndsTooDeep limit x s where
  initial : (x.run s).2.caller.calls <+: (y.run s).2.caller.calls

/-- Each run of `x` is cut short or is the run of `y`, in its result and in all that it leaves
behind. -/
structure OnlyCut (limit : Nat) (x y : RunM (Recorded σ) τ α) : Prop where
  left : x.StopsWith fun _ => True
  right : y.StopsWith fun _ => True
  run : ∀ s, x.CutShort limit y s ∨ x.run s = y.run s

/-! ### Calls -/

namespace StopsWith

variable {P : RunError → Prop} {x : RunM (Recorded σ) τ α} {s t : Session (Recorded σ) τ}

/-- A computation with a course stops only where the course does, or for a callback. -/
lemma of_follows {c : Course} (h : ∀ s, x.Follows s c) : x.StopsWith fun _ => True :=
  fun s => ⟨c, h s, fun _ _ => trivial⟩

/-- Taking results from the stacks stops only by itself, for no callback is called. -/
lemma gather (c : Gather α) :
    (Replacers.gather c : RunM (Recorded σ) Rebuilt α).StopsWith fun _ => True := by
  intro s
  obtain ⟨stop, h, -⟩ := Replacers.gather_follows c s
  exact ⟨_, h, fun _ _ => trivial⟩

/-- A run in a state of its own stops with the errors that it stops with inside. -/
lemma within (own : υ) {x : RunM (Recorded σ) υ α} (h : x.StopsWith P) :
    (within own x : RunM (Recorded σ) τ α).StopsWith P := by
  intro s
  obtain ⟨c, hc, hstop⟩ := h { s with own }
  exact ⟨c, .within hc, hstop⟩

/-- Calls only come to those before. -/
lemma calls_le (h : x.StopsWith P) (s : Session (Recorded σ) τ) :
    s.caller.calls <+: (x.run s).2.caller.calls := by
  obtain ⟨c, ⟨calls, hcalls, -⟩, -⟩ := h s
  rw [hcalls]
  exact List.prefix_append _ _

/-- In a run that succeeds every call did. -/
lemma calls_succeeded (h : x.StopsWith P) {a : α} (hrun : x.run s = (.ok a, t)) :
    ∃ calls, t.caller.calls = s.caller.calls ++ calls ∧ ∀ call ∈ calls, call.Succeeded := by
  obtain ⟨c, ⟨calls, hcalls, hallows⟩, -⟩ := h s
  rw [hrun] at hcalls hallows
  cases hallows with
  | ok _ _ hsucceeded => exact ⟨calls, hcalls, hsucceeded⟩

end StopsWith

/-- What is called in the first part of a run is called in the run. -/
lemma calls_prefix_bind {P : RunError → Prop} {f : α → RunM (Recorded σ) τ β}
    (hf : ∀ a, (f a).StopsWith P) (x : RunM (Recorded σ) τ α) (s : Session (Recorded σ) τ) :
    (x.run s).2.caller.calls <+: ((x >>= f).run s).2.caller.calls := by
  rcases hx : x.run s with ⟨e | a, t⟩
  · rw [bind_of_error hx]
  · rw [bind_of_ok hx]
    exact (hf a).calls_le t

/-! ### Cutting goes through everything -/

variable {x y : RunM (Recorded σ) τ α} {s t : Session (Recorded σ) τ}

/-- Nothing comes after the node that is too deep. -/
lemma EndsTooDeep.bind (h : x.EndsTooDeep limit s) (f : α → RunM (Recorded σ) τ β) :
    (x >>= f).EndsTooDeep limit s := by
  have hx : (x >>= f).run s = (.error (.tooDeep limit), (x.run s).2) :=
    bind_of_error (Prod.ext h.result rfl)
  refine ⟨?_, ?_⟩
  · rw [hx]
  · rw [hx]
    exact h.succeeded

/-- The node that is too deep may come after a first part of the run. -/
lemma EndsTooDeep.after {a : α} {f : α → RunM (Recorded σ) τ β} (hx : x.run s = (.ok a, t))
    (hstops : x.StopsWith fun _ => True) (h : (f a).EndsTooDeep limit t) :
    (x >>= f).EndsTooDeep limit s := by
  obtain ⟨calls, hcalls, hsucceeded⟩ := hstops.calls_succeeded hx
  obtain ⟨more, hmore, hsucceeded'⟩ := h.succeeded
  refine ⟨?_, calls ++ more, ?_, List.forall_mem_append.2 ⟨hsucceeded, hsucceeded'⟩⟩
  · rw [bind_of_ok hx]
    exact h.result
  · rw [bind_of_ok hx, hmore, hcalls, List.append_assoc]

/-- What would come after the cut comes after the calls. -/
lemma CutShort.bind (h : x.CutShort limit y s) {f g : α → RunM (Recorded σ) τ β}
    (hg : ∀ a, (g a).StopsWith fun _ => True) : (x >>= f).CutShort limit (y >>= g) s := by
  refine ⟨h.toEndsTooDeep.bind f, ?_⟩
  rw [bind_of_error (Prod.ext h.result rfl : x.run s = (.error (.tooDeep limit), (x.run s).2))]
  exact h.initial.trans (calls_prefix_bind hg y s)

/-- A run is cut short after a first part that is not. -/
lemma CutShort.after {a : α} {f g : α → RunM (Recorded σ) τ β}
    (hx : x.run s = (.ok a, t)) (hy : y.run s = (.ok a, t)) (hstops : x.StopsWith fun _ => True)
    (h : (f a).CutShort limit (g a) t) : (x >>= f).CutShort limit (y >>= g) s := by
  refine ⟨.after hx hstops h.toEndsTooDeep, ?_⟩
  rw [bind_of_ok hx, bind_of_ok hy]
  exact h.initial

namespace OnlyCut

/-- Compared with itself a run is not cut short. -/
lemma refl (h : x.StopsWith fun _ => True) : OnlyCut limit x x :=
  ⟨h, h, fun _ => .inr rfl⟩

/-- If the first parts of two runs differ only in a cut, and the second ones, so do the runs. -/
lemma bind {f g : α → RunM (Recorded σ) τ β} (h : OnlyCut limit x y)
    (hf : ∀ a, OnlyCut limit (f a) (g a)) : OnlyCut limit (x >>= f) (y >>= g) where
  left := h.left.bind fun a => (hf a).left
  right := h.right.bind fun a => (hf a).right
  run s := by
    rcases h.run s with hcut | heq
    · exact .inl (hcut.bind fun a => (hf a).right)
    · rcases hy : y.run s with ⟨e | a, t⟩
      · rw [hy] at heq
        rw [bind_of_error heq, bind_of_error hy]
        exact .inr rfl
      · rw [hy] at heq
        rcases (hf a).run t with hcut | heq'
        · exact .inl (hcut.after heq hy h.left)
        · rw [bind_of_ok heq, bind_of_ok hy]
          exact .inr heq'

/-- Runs in states of their own differ only in a cut if they do inside. -/
lemma within (own : υ) {x y : RunM (Recorded σ) υ α} (h : OnlyCut limit x y) :
    OnlyCut limit (within own x : RunM (Recorded σ) τ α) (within own y) where
  left := h.left.within own
  right := h.right.within own
  run s := by
    rcases h.run { s with own } with hcut | heq
    · exact .inl ⟨⟨hcut.result, hcut.succeeded⟩, hcut.initial⟩
    · rw [run_within, run_within, heq]
      exact .inr rfl

end OnlyCut

/-- Differing only in a cut goes along with the steps that the loops are made of. -/
lemma congruence_onlyCut (limit : Nat) :
    RunRelation.Congruence (fun _ _ => OnlyCut limit : RunRelation (Recorded σ) (Recorded σ)) where
  pure a := .refl (.pure a)
  throw _ := .refl (.of_follows fun _ => .of_error rfl rfl)
  emit r := .refl (.of_follows fun _ => .emit r)
  modifyOwn f := .refl (.of_follows fun _ => .modifyOwn f)
  gather c := .refl (.gather c)
  bind := OnlyCut.bind
  within := OnlyCut.within

end RunM

/-! ### Two limits -/

/-- A node that the stricter limit refuses may pass the other one, and no other node makes a
difference. -/
lemma Config.related_onlyCut {config : Config}
    (h : ∀ limit', config.maxDepth = some limit' → limit ≤ limit') :
    Config.Related (fun _ _ => RunM.OnlyCut limit : RunRelation (Recorded σ) (Recorded σ))
      ⟨some limit⟩ config := by
  intro τ depth
  have hstops (config : Config) :
      (RunM.checkDepth config depth : RunM (Recorded σ) τ Unit).StopsWith fun _ => True :=
    .of_follows fun _ => .checkDepth config depth
  refine ⟨hstops _, hstops _, fun s => ?_⟩
  by_cases hdepth : limit < depth
  · left
    have hrun : (RunM.checkDepth ⟨some limit⟩ depth : RunM (Recorded σ) τ Unit).run s =
        (.error (.tooDeep limit), { s with log := s.log.push (.tooDeep limit) }) :=
      RunM.checkDepth_of_lt rfl hdepth s
    refine ⟨⟨?_, [], ?_, List.forall_mem_nil _⟩, ?_⟩
    · rw [hrun]
    · rw [hrun, List.append_nil]
    · rw [hrun]
      exact (hstops config).calls_le s
  · right
    have hle := Nat.le_of_not_lt hdepth
    rw [RunM.checkDepth_of_none, RunM.checkDepth_of_none]
    · exact refusal_eq_none_iff.2 fun limit' hlimit' => hle.trans (h limit' hlimit')
    · exact refusal_eq_none_iff.2 fun limit' hlimit' => by cases hlimit'; exact hle

/-- A notification never stops a run by itself. -/
lemma RunM.StopsWith.notify (event : α → Event) (f : Option (α → CallerM σ Unit)) (a : α) :
    (notify (f.map fun f a => CallerM.recorded (event a) none (fun _ => none) (f a)) a :
      RunM (Recorded σ) τ Unit).StopsWith fun _ => True :=
  .of_follows (c := .firing ([event a].filter fun _ => f.isSome)) fun _ => .notify event f a rfl

/-- Hooks are called alike whether a limit cuts the run or not. -/
lemma Hooks.related_onlyCut (h : Hooks σ) :
    h.recorded.Related (fun _ _ => RunM.OnlyCut limit) h.recorded where
  before o := .refl (.notify .before h.before o)
  after o := .refl (.notify .after h.after o)

/-- Visitors are called alike whether a limit cuts the run or not. -/
lemma Visitors.related_onlyCut (v : Visitors σ) :
    v.recorded.Related (fun _ _ => RunM.OnlyCut limit) v.recorded where
  hooks := v.toHooks.related_onlyCut
  onOp o := .refl (.notify .op v.onOp o)
  onExpr e := .refl (.notify .expr v.onExpr e)

/-- An answer of a replacer never stops a run by itself. -/
lemma Replacers.stopsWith_answer (event : α → Event) (node : α → Node)
    (c : Option (α → α → CallerM σ α)) (old rebuilt : α) :
    (answer
      (c.map fun c old rebuilt =>
        CallerM.recorded (event old) (some (node rebuilt)) (fun a => some (node a))
          (c old rebuilt))
      old rebuilt : RunM (Recorded σ) τ α).StopsWith fun _ => True :=
  .of_follows (c := .firing ([event old].filter fun _ => c.isSome)) fun _ =>
    answer_follows event node c old rebuilt rfl

/-- Replacers are called alike whether a limit cuts the run or not. -/
lemma Replacers.related_onlyCut (r : Replacers σ) :
    r.recorded.Related (fun _ _ => RunM.OnlyCut limit) r.recorded where
  hooks := r.toHooks.related_onlyCut
  onOp old rebuilt := .refl (stopsWith_answer .op .op r.onOp old rebuilt)
  onExpr old rebuilt := .refl (stopsWith_answer .expr .expr r.onExpr old rebuilt)

/-! ### Trees that are not too high -/

/-- The greatest number of two lists is the greater one of their greatest numbers. -/
lemma foldr_max_append (ms ns : List Nat) :
    (ms ++ ns).foldr max 0 = max (ms.foldr max 0) (ns.foldr max 0) := by
  induction ms with
  | nil => exact (Nat.zero_max _).symm
  | cons m ms ih => rw [List.cons_append, List.foldr_cons, ih, List.foldr_cons, Nat.max_assoc]

/-- The greatest number of a list is bounded as all its numbers are. -/
lemma foldr_max_le_iff {ns : List Nat} {k : Nat} : ns.foldr max 0 ≤ k ↔ ∀ i ∈ ns, i ≤ k := by
  induction ns with
  | nil => simp
  | cons i ns ih => rw [List.foldr_cons, Nat.max_le, ih, List.forall_mem_cons]

namespace Node

/-- The number of nodes on the longest way down a tree. -/
def height (n : Node) : Nat :=
  1 + (n.parts.attach.map fun ⟨p, _⟩ => p.height).foldr max 0
termination_by sizeOf n
decreasing_by exact sizeOf_lt_of_mem_parts ‹_›

/-- A node is one higher than the highest of its parts. -/
lemma height_eq (n : Node) : n.height = 1 + (n.parts.map height).foldr max 0 := by
  rw [height, List.attach_map_val]

/-- A part is lower than the node. -/
lemma height_part {n p : Node} (h : p ∈ n.parts) : p.height + 1 ≤ n.height := by
  have hmax : p.height ≤ (n.parts.map height).foldr max 0 :=
    List.le_max_of_le' 0 (List.mem_map_of_mem h) (Nat.le_refl _)
  rw [n.height_eq, Nat.add_comm]
  exact Nat.add_le_add_left hmax 1

/-- No tree has height zero. -/
lemma height_pos (n : Node) : 0 < n.height := by
  rw [n.height_eq]
  exact Nat.add_pos_left Nat.one_pos _

/-- No node is entered deeper than a tree is high. -/
lemma depth_le_of_mem_steps {n m : Node} {depth k : Nat} (h : .enter m k ∈ n.steps depth) :
    k < depth + n.height := by
  induction n using inductionOnParts generalizing depth with
  | step n ih =>
    rw [n.steps_eq, List.mem_append, List.mem_cons, List.mem_flatMap, List.mem_singleton] at h
    rcases h with (h | ⟨p, hp, h⟩) | h
    · cases h
      exact Nat.lt_add_of_pos_right (height_pos _)
    · have hpart := height_part hp
      have hdepth := ih p hp h
      omega
    · cases h

/-- A tree is as high as its nodes stand deep. -/
lemma height_le_iff {n : Node} {k : Nat} :
    n.height ≤ k ↔ ∀ π m, n.at? π = some m → π.length + 1 ≤ k := by
  induction n using inductionOnParts generalizing k with
  | step n ih =>
    constructor
    · intro h π m hm
      cases π with
      | nil => exact Nat.le_trans n.height_pos h
      | cons l π =>
        obtain ⟨p, hp, hm⟩ := at?_cons_eq_some.1 hm
        have hmem := mem_parts_of_mem_branches (mem_branches.2 hp)
        have hpart := height_part hmem
        have hdepth := (ih p hmem (k := k - 1)).1 (by omega) π m hm
        rw [List.length_cons]
        omega
    · intro h
      have hpos : 1 ≤ k := h [] n n.at?_nil
      have hparts : (n.parts.map height).foldr max 0 ≤ k - 1 := by
        refine foldr_max_le_iff.2 (List.forall_mem_map.2 fun p hp => ?_)
        obtain ⟨l, hl⟩ := exists_partAt? hp
        refine (ih p hp).2 fun π m hm => ?_
        have hdepth := h (l :: π) m (at?_cons_eq_some.2 ⟨p, hl, hm⟩)
        rw [List.length_cons] at hdepth
        omega
      rw [n.height_eq]
      omega

/-- The height is the depth of the deepest node. -/
lemma height_eq_preorder (n : Node) :
    n.height = (n.preorder.map fun x => x.1.length + 1).foldr max 0 := by
  have hle (k : Nat) :
      (n.preorder.map fun x => x.1.length + 1).foldr max 0 ≤ k ↔ n.height ≤ k := by
    rw [foldr_max_le_iff, List.forall_mem_map, height_le_iff]
    constructor
    · intro h π m hm
      exact h (π, m) (mem_preorder.2 hm)
    · rintro h ⟨π, m⟩ hm
      exact h π m (mem_preorder.1 hm)
  exact Nat.le_antisymm ((hle _).1 (Nat.le_refl _)) ((hle _).2 (Nat.le_refl _))

end Node

/-- Loops over a list are equal if they do the same with each of its members. -/
lemma RunM.forM_congr {f g : α → RunM σ τ Unit} {as : List α} (h : ∀ a ∈ as, f a = g a) :
    forM as f = forM as g := by
  induction as with
  | nil => rfl
  | cons a as ih =>
    obtain ⟨ha, has⟩ := List.forall_mem_cons.1 h
    rw [List.forM_cons, List.forM_cons, ha, ih has]

/-- Loops with results are equal if they do the same with each member. -/
lemma RunM.mapM_congr {f g : α → RunM σ τ β} {as : List α} (h : ∀ a ∈ as, f a = g a) :
    as.mapM f = as.mapM g := by
  induction as with
  | nil => rfl
  | cons a as ih =>
    obtain ⟨ha, has⟩ := List.forall_mem_cons.1 h
    rw [List.mapM_cons, List.mapM_cons, ha, ih has]

/-- A limit that is not below the height lets pass every step of the tree. -/
lemma RunM.checkDepth_of_height {n m : Node} {k : Nat} (h : n.height ≤ limit)
    (hm : .enter m k ∈ n.steps 1) :
    (checkDepth ⟨some limit⟩ k : RunM σ τ Unit) = checkDepth .unbounded k := by
  have hk : k ≤ limit := by
    have hlt := Node.depth_le_of_mem_steps hm
    omega
  rw [checkDepth_of_none, checkDepth_of_none]
  · rfl
  · exact Config.refusal_eq_none_iff.2 fun limit' hlimit' => by cases hlimit'; exact hk

namespace Visitors

/-- A limit that is not below the height changes nothing in a walk. -/
lemma walkTree_of_height (v : Visitors σ) {n : Node} (h : n.height ≤ limit) :
    v.walkTree ⟨some limit⟩ n = v.walkTree .unbounded n := by
  rw [walkTree, walkTree, drain_enter, drain_enter]
  refine RunM.forM_congr fun s hs => ?_
  cases s with
  | enter m k => rw [perform, perform, RunM.checkDepth_of_height h hs]
  | leave m => cases m <;> rfl

/-- A limit that no tree reaches might as well be missing. -/
lemma walk_of_height (v : Visitors σ) {root : Root} (h : ∀ n ∈ root.trees, n.height ≤ limit) :
    v.walk ⟨some limit⟩ root = v.walk .unbounded root :=
  RunM.forM_congr fun n hn => v.walkTree_of_height (h n hn)

end Visitors

namespace Replacers

/-- A limit that is not below the height changes nothing in the loop of a transformation. -/
lemma drain_of_height (r : Replacers σ) {n : Node} (h : n.height ≤ limit) :
    drain (r.perform ⟨some limit⟩) [.enter n 1] = drain (r.perform .unbounded) [.enter n 1] := by
  rw [drain_enter, drain_enter]
  refine RunM.forM_congr fun s hs => ?_
  cases s with
  | enter m k => rw [perform, perform, RunM.checkDepth_of_height h hs]
  | leave m => cases m <;> rfl

/-- A limit that is not below any height changes nothing in a transformation. -/
lemma replace_of_height (r : Replacers σ) {root : Root} (hroot : root.Distinct)
    (h : ∀ n ∈ root.trees, n.height ≤ limit) :
    (r.replace ⟨some limit⟩ root : RunM σ τ Root) = r.replace .unbounded root := by
  have htrees : (root.trees.mapM (r.tree ⟨some limit⟩) : RunM σ τ (List Node)) =
      root.trees.mapM (r.tree .unbounded) := by
    refine RunM.mapM_congr fun n hn => ?_
    rw [tree_eq_within, tree_eq_within, r.drain_of_height (h n hn)]
  rw [replace_eq_trees _ r hroot, replace_eq_trees _ r hroot, htrees]

end Replacers

/-! ### Runs without a limit -/

/-- The error of a defect is never that of a limit. -/
lemma Defect.error_ne_tooDeep (d : Defect) (limit : Nat) : d.error ≠ .tooDeep limit := by
  cases d <;> exact fun h => nomatch h

namespace RunM.StopsWith

variable {P : RunError → Prop}

/-- A loop stops with errors with which the runs of its members stop. -/
lemma forM {f : α → RunM (Recorded σ) τ Unit} {as : List α} (h : ∀ a ∈ as, (f a).StopsWith P) :
    (forM as f : RunM (Recorded σ) τ Unit).StopsWith P := by
  induction as with
  | nil => exact pure ()
  | cons a as ih =>
    rw [List.forM_cons]
    exact (h a (.head _)).bind fun _ => ih fun a' ha => h a' (.tail _ ha)

/-- If a run never stops by itself with the error of a limit, that error comes from a callback. -/
lemma not_endsTooDeep {x : RunM (Recorded σ) τ α} (h : x.StopsWith fun e => e ≠ .tooDeep limit)
    (s : Session (Recorded σ) τ) : ¬ x.EndsTooDeep limit s := by
  rintro ⟨hresult, calls, hcalls, hsucceeded⟩
  rcases h.error_cases hresult with ⟨first, last, hcalls', hlast⟩ | h
  · cases List.append_cancel_left (hcalls.symm.trans hcalls')
    exact hsucceeded last List.mem_concat_self _ hlast
  · exact h rfl

end RunM.StopsWith

/-- Steps that have courses of one kind have courses of any wider kind. -/
lemma Courses.imp {R R' : Step → Course → Prop} (hR : ∀ s c, R s c → R' s c) {steps : List Step}
    {c : Course} (h : Courses R steps c) : Courses R' steps c := by
  induction h with
  | nil => exact .nil
  | cons hc _ ih => exact .cons (hR _ _ hc) ih

/-- Without a limit no step is refused for its depth. -/
lemma Step.refusal_unbounded {s : Step} {e : RunError} (h : s.refusal .unbounded = some e) :
    e ≠ .tooDeep limit := by
  cases s with
  | enter n depth =>
    have hn : n.refusal = some e := (Option.none_or (o := n.refusal)).symm.trans h
    obtain ⟨d, -, rfl⟩ := Node.refusal_eq_some_iff.1 hn
    exact d.error_ne_tooDeep limit
  | leave n => cases h

/-- Without a limit a walk never stops by itself for the depth. -/
lemma Visitors.walk_stopsWith (v : Visitors σ) (root : Root) :
    (v.recorded.walk .unbounded root).StopsWith fun e => e ≠ .tooDeep limit := by
  refine RunM.StopsWith.forM fun n _ s => ?_
  obtain ⟨c, hc, hwalk⟩ := v.walkTree_follows .unbounded n s
  have hstops : Courses (fun _ c => ∀ e, c.stop = some e → e ≠ .tooDeep limit) (n.steps 1) c := by
    refine hc.imp ?_
    rintro step _ rfl e he
    rw [Step.stop_course] at he
    exact Step.refusal_unbounded he
  exact ⟨c, hwalk, fun e he => Replacers.stop_of_courses (P := (· ≠ .tooDeep limit)) hstops he⟩

/-- Without a limit a transformation never stops by itself for the depth. -/
lemma Replacers.replace_stopsWith_unbounded (r : Replacers σ) {root : Root} (h : root.Distinct) :
    (r.recorded.replace .unbounded root : RunM (Recorded σ) τ Root).StopsWith fun e =>
      e ≠ .tooDeep limit := by
  refine (replace_stopsWith .unbounded r h).mono fun e he => ?_
  obtain ⟨n, -, he⟩ := he
  cases he with
  | tooDeep hlimit => cases hlimit
  | defect _ _ | rebuilt _ _ _ _ => exact Defect.error_ne_tooDeep _ limit

/-- What a limit on the depth does to a run, compared to a looser limit or to none, whatever root it
is over and whatever the callbacks do.

Either it cuts the run short, at a node that is too deep, after the first of the calls of the
other run; or both runs are the same, in their calls, the state of the caller, the result, the
counters and the log. It cuts no run over trees of at most that height, and without a limit no
run is cut. -/
theorem limit_only_cuts {config : Config}
    (h : ∀ limit', config.maxDepth = some limit' → limit ≤ limit') (root : Root) (v : Visitors σ)
    (r : Replacers ρ) (s : Session (Recorded σ) Counters) (t : Session (Recorded ρ) τ) :
    ((v.recorded.walk ⟨some limit⟩ root).CutShort limit (v.recorded.walk config root) s ∨
      (v.recorded.walk ⟨some limit⟩ root).run s = (v.recorded.walk config root).run s) ∧
    ((r.recorded.replace ⟨some limit⟩ root).CutShort limit (r.recorded.replace config root) t ∨
      (r.recorded.replace ⟨some limit⟩ root).run t = (r.recorded.replace config root).run t) ∧
    ((∀ n ∈ root.trees, n.height ≤ limit) →
      ¬ (v.recorded.walk ⟨some limit⟩ root).EndsTooDeep limit s ∧
      (root.Distinct → ¬ (r.recorded.replace ⟨some limit⟩ root).EndsTooDeep limit t)) ∧
    ∀ limit', ¬ (v.recorded.walk .unbounded root).EndsTooDeep limit' s ∧
      (root.Distinct → ¬ (r.recorded.replace .unbounded root).EndsTooDeep limit' t) := by
  have hR {σ : Type} := RunM.congruence_onlyCut (σ := σ) limit
  have hwalk := Visitors.walk_related hR (Config.related_onlyCut h) v.related_onlyCut root
  have hreplace := Replacers.replace_related (τ := τ) hR (Config.related_onlyCut h)
    r.related_onlyCut root
  refine ⟨hwalk.run s, hreplace.run t, fun hheight => ⟨?_, fun hroot => ?_⟩,
    fun limit' => ⟨?_, fun hroot => ?_⟩⟩
  · rw [v.recorded.walk_of_height hheight]
    exact (v.walk_stopsWith root).not_endsTooDeep s
  · rw [r.recorded.replace_of_height hroot hheight]
    exact (r.replace_stopsWith_unbounded hroot).not_endsTooDeep t
  · exact (v.walk_stopsWith root).not_endsTooDeep s
  · exact (r.replace_stopsWith_unbounded hroot).not_endsTooDeep t

/-- A filter whose condition holds operators: the empty one below stands at depth four. -/
def Op.nested : Op :=
  filter [.existence false (distinct empty)] empty

/-- The binding lists of `nested` bind no variable twice. -/
lemma Op.distinct_nested : (Node.op nested).Distinct := by
  have hleaf : (Node.op empty).Distinct :=
    .of_leaves (List.forall_mem_nil _) (List.forall_mem_nil _)
  refine .of_parts (List.forall_mem_nil _) fun p hp => ?_
  rcases hp with _ | ⟨_, _ | ⟨_, ⟨⟩⟩⟩
  · refine .of_parts (List.forall_mem_nil _) fun p hp => ?_
    rcases hp with _ | ⟨_, ⟨⟩⟩
    exact .of_parts (List.forall_mem_nil _) fun p hp => List.mem_singleton.1 hp ▸ hleaf
  · exact hleaf

/-- There are four levels in `nested`. -/
lemma Op.height_nested : (Node.op nested).height = 4 := by
  have hempty : (Node.op empty).height = 1 := Node.height_eq _
  have hdistinct : (Node.op (distinct empty)).height = 1 + max (Node.op empty).height 0 :=
    Node.height_eq _
  have hexists : (Node.expr (.existence false (distinct empty))).height =
      1 + max (Node.op (distinct empty)).height 0 := Node.height_eq _
  have hfilter : (Node.op nested).height =
      1 + max (Node.expr (.existence false (distinct empty))).height
        (max (Node.op empty).height 0) := Node.height_eq _
  rw [hfilter, hexists, hdistinct, hempty]
  rfl

/-- A limit of three cuts a walk of that filter, a limit of four does not. -/
theorem three_cuts_nested :
    let root := Root.op .nested
    let s : Session (Recorded Nat) Counters := ⟨⟨0, []⟩, {}, #[]⟩
    let t : Session (Recorded Nat) Unit := ⟨⟨0, []⟩, (), #[]⟩
    (∀ limit', Config.maxDepth {} = some limit' → 3 ≤ limit') ∧
      (Visitors.counting.recorded.walk ⟨some 3⟩ root).CutShort 3
        (Visitors.counting.recorded.walk {} root) s ∧
      (∀ n ∈ root.trees, n.height ≤ 4) ∧ root.Distinct ∧
      ¬ (Visitors.counting.recorded.walk ⟨some 4⟩ root).EndsTooDeep 4 s ∧
      ¬ (Replacers.counting.recorded.replace ⟨some 4⟩ root).EndsTooDeep 4 t := by
  intro root s t
  have hthree : ∀ limit', Config.maxDepth {} = some limit' → 3 ≤ limit' := by
    rintro _ ⟨⟩
    decide
  have hfour : ∀ limit', Config.maxDepth {} = some limit' → 4 ≤ limit' := by
    rintro _ ⟨⟩
    decide
  have hheight : ∀ n ∈ root.trees, n.height ≤ 4 := by
    intro n hn
    rw [List.mem_singleton.1 hn, Op.height_nested]
  have hroot : root.Distinct := Root.distinct_op Op.distinct_nested
  obtain ⟨hcut, -⟩ := limit_only_cuts hthree root Visitors.counting Replacers.counting s t
  obtain ⟨-, -, hlow, -⟩ := limit_only_cuts hfour root Visitors.counting Replacers.counting s t
  obtain ⟨hwalk, hreplace⟩ := hlow hheight
  refine ⟨hthree, ?_, hheight, hroot, hwalk, hreplace hroot⟩
  refine hcut.resolve_right fun heq => ?_
  have hresult := congrArg Prod.fst heq
  rw [Visitors.walk_op, Visitors.walk_op, Visitors.walkTree, Visitors.walkTree, drain_enter,
    drain_enter, ← Visitors.visit_eq_forM, ← Visitors.visit_eq_forM] at hresult
  cases hresult

end QueryPlan
