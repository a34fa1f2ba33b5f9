import QueryPlan.Proofs.WellFormed

/-!
# Rewriting leaves

A `LeafMap` says what becomes of the leaves of a plan: of its scans and empty operators, of its
literals and variables. Everything else stays. `LeafMap.run` replaces the nodes of a tree so, and
`LeafMap.apply` is the tree that comes out.

A tree keeps its shape (`LeafMap.parts_apply`), and so its height, its binding variables and what
its groups and functions hold. So a walk goes through the new tree if it goes through the old one
(`LeafMap.fits_apply`). That is why two runs one after the other are one run (`LeafMap.fusion`): the
second one cannot fail any more, and on trees the maps compose.
-/

namespace QueryPlan

variable {σ : Type} {config : Config} {n : Node}

/-! ### Leaves -/

namespace Node

/-- A scan, an empty operator, a literal or a variable. -/
def isLeaf : Node → Bool
  | op o => !o.isComposite
  | expr e => e.isLeaf

/-- A node with other parts is a leaf exactly if it was one. -/
lemma isLeaf_over (n : Node) (results : List Node) : (n.over results).isLeaf = n.isLeaf := by
  cases n with
  | op o => cases o <;> rfl
  | expr e => rcases e with v | v | ⟨f, args⟩ | ⟨f, distinct, _ | arg⟩ | ⟨negated, op⟩ <;> rfl

/-- The leaves are scans, empty operators, literals and variables. -/
lemma isLeaf_cases (h : n.isLeaf = true) :
    (∃ table asName, n = .op (.scan table asName)) ∨ n = .op .empty ∨
      (∃ value, n = .expr (.const value)) ∨ ∃ var, n = .expr (.var var) := by
  cases n with
  | op o =>
    cases o with
    | scan table asName => exact .inl ⟨table, asName, rfl⟩
    | empty => exact .inr (.inl rfl)
    | _ => cases h
  | expr e =>
    cases e with
    | const value => exact .inr (.inr (.inl ⟨value, rfl⟩))
    | var var => exact .inr (.inr (.inr ⟨var, rfl⟩))
    | _ => cases h

/-- A leaf has no parts that could be replaced. -/
lemma over_of_leaf (h : n.isLeaf = true) (results : List Node) : n.over results = n := by
  obtain ⟨_, _, rfl⟩ | rfl | ⟨_, rfl⟩ | ⟨_, rfl⟩ := isLeaf_cases h <;> rfl

/-- Nothing stands below a leaf. -/
lemma parts_of_leaf (h : n.isLeaf = true) : n.parts = [] := by
  obtain ⟨_, _, rfl⟩ | rfl | ⟨_, rfl⟩ | ⟨_, rfl⟩ := isLeaf_cases h <;> rfl

/-- A leaf holds no binding list. -/
lemma bindingLists_of_leaf (h : n.isLeaf = true) : n.bindingLists = [] := by
  obtain ⟨_, _, rfl⟩ | rfl | ⟨_, rfl⟩ | ⟨_, rfl⟩ := isLeaf_cases h <;> rfl

/-- A leaf has no defect. -/
lemma defect?_of_leaf (h : n.isLeaf = true) : n.defect? = none := by
  obtain ⟨_, _, rfl⟩ | rfl | ⟨_, rfl⟩ | ⟨_, rfl⟩ := isLeaf_cases h <;> rfl

/-- In a leaf no variable is bound, and so none twice. -/
lemma distinct_of_leaf (h : n.isLeaf = true) : n.Distinct := by
  apply Distinct.of_leaves
  · rw [bindingLists_of_leaf h]
    exact List.forall_mem_nil _
  · rw [parts_of_leaf h]
    exact List.forall_mem_nil _

/-- Every leaf is well formed. -/
lemma wellFormed_of_leaf (h : n.isLeaf = true) : n.WellFormed := by
  apply wellFormed_iff_parts.2
  rw [parts_of_leaf h]
  exact ⟨defect?_of_leaf h, List.forall_mem_nil _⟩

end Node

/-- What becomes of leaves: a scan or an empty operator becomes one of these, a literal or a
variable becomes one of those, and no other node changes. -/
structure LeafMap where
  onOp : Op → Op
  onExpr : Expr → Expr
  op_leaf : ∀ o, o.isComposite = false → (onOp o).isComposite = false
  op_composite : ∀ o, o.isComposite = true → onOp o = o
  expr_leaf : ∀ e, e.isLeaf = true → (onExpr e).isLeaf = true
  expr_compound : ∀ e, e.isLeaf = false → onExpr e = e

namespace LeafMap

/-- Every scan of one table becomes a scan of another one. -/
def retarget (source target : String) : LeafMap where
  onOp := Op.retargetScan source target
  onExpr e := e
  op_leaf o h := by cases o <;> first | rfl | cases h
  op_composite o h := by cases o <;> first | rfl | cases h
  expr_leaf _ h := h
  expr_compound _ _ := rfl

/-- Every variable that an expression refers to becomes another one. -/
def rename (h : Var → Var) : LeafMap where
  onOp o := o
  onExpr
    | .var v => .var (h v)
    | e => e
  op_leaf _ h := h
  op_composite _ _ := rfl
  expr_leaf e he := by cases e <;> first | rfl | cases he
  expr_compound e he := by cases e <;> first | rfl | cases he

/-- What becomes of the leaves, first by `f` and then by `g`. -/
def andThen (f g : LeafMap) : LeafMap where
  onOp o := g.onOp (f.onOp o)
  onExpr e := g.onExpr (f.onExpr e)
  op_leaf o h := g.op_leaf _ (f.op_leaf o h)
  op_composite o h := by rw [f.op_composite o h, g.op_composite o h]
  expr_leaf e h := g.expr_leaf _ (f.expr_leaf e h)
  expr_compound e h := by rw [f.expr_compound e h, g.expr_compound e h]

/-! ### Trees -/

/-- What becomes of a node by itself. -/
def node (f : LeafMap) : Node → Node
  | .op o => .op (f.onOp o)
  | .expr e => .expr (f.onExpr e)

/-- What becomes of a tree. -/
def apply (f : LeafMap) (n : Node) : Node :=
  f.node (n.over (n.parts.attach.map fun ⟨p, _⟩ => f.apply p))
termination_by sizeOf n
decreasing_by exact Node.sizeOf_lt_of_mem_parts ‹_›

variable (f g : LeafMap)

/-- What becomes of a tree is what becomes of its root over what becomes of its parts. -/
lemma apply_eq (n : Node) : f.apply n = f.node (n.over (n.parts.map f.apply)) := by
  rw [apply, List.attach_map_val]

/-- A leaf becomes a leaf. -/
lemma isLeaf_node (h : n.isLeaf = true) : (f.node n).isLeaf = true := by
  cases n with
  | op o =>
    have hleaf : o.isComposite = false := by simpa [Node.isLeaf] using h
    show (!(f.onOp o).isComposite) = true
    rw [f.op_leaf o hleaf]
    rfl
  | expr e => exact f.expr_leaf e h

/-- By itself a node that is no leaf stays as it is. -/
lemma node_of_not_leaf (h : n.isLeaf = false) : f.node n = n := by
  cases n with
  | op o =>
    have hcomposite : o.isComposite = true := by simpa [Node.isLeaf] using h
    exact congrArg Node.op (f.op_composite o hcomposite)
  | expr e => exact congrArg Node.expr (f.expr_compound e h)

/-- Operators become operators, and expressions become expressions. -/
lemma sort_apply (n : Node) : (f.apply n).sort = n.sort := by
  rw [apply_eq]
  cases n <;> rfl

/-- There is a result for each part. -/
lemma results_apply (n : Node) : Results n.parts (n.parts.map f.apply) :=
  List.forall₂_map_right_iff.2 (List.forall₂_same.2 fun p _ => f.sort_apply p)

/-- A leaf becomes another leaf, and every other node stays and holds what its parts become. -/
lemma apply_cases (n : Node) :
    (n.isLeaf = true ∧ f.apply n = f.node n ∧ (f.node n).isLeaf = true) ∨
      (n.isLeaf = false ∧ f.apply n = n.over (n.parts.map f.apply)) := by
  rcases h : n.isLeaf with _ | _
  · refine .inr ⟨rfl, ?_⟩
    rw [apply_eq, node_of_not_leaf]
    exact (n.isLeaf_over _).trans h
  · refine .inl ⟨rfl, ?_, f.isLeaf_node h⟩
    rw [apply_eq, n.over_of_leaf h]

/-- The parts of the new tree are what becomes of the parts of the old one. -/
theorem parts_apply (n : Node) : (f.apply n).parts = n.parts.map f.apply := by
  rcases f.apply_cases n with ⟨hleaf, hn, hnew⟩ | ⟨-, hn⟩
  · rw [hn, Node.parts_of_leaf hnew, Node.parts_of_leaf hleaf, List.map_nil]
  · rw [hn, Node.parts_over (f.results_apply n)]

/-- Leaves become leaves, and other trees become other trees. -/
lemma isLeaf_apply (n : Node) : (f.apply n).isLeaf = n.isLeaf := by
  rcases f.apply_cases n with ⟨hleaf, hn, hnew⟩ | ⟨-, hn⟩
  · rw [hn, hnew, hleaf]
  · rw [hn, n.isLeaf_over]

/-- An operator becomes an operator, and a composite one exactly if it was composite. -/
lemma apply_op (o : Op) :
    ∃ o', f.apply (.op o) = .op o' ∧ o'.isComposite = o.isComposite := by
  refine ⟨_, f.apply_eq (.op o), ?_⟩
  have hleaf := f.isLeaf_apply (.op o)
  rw [f.apply_eq] at hleaf
  exact Bool.not_inj hleaf

/-- An expression becomes an expression. -/
lemma apply_expr (e : Expr) : ∃ e', f.apply (.expr e) = .expr e' :=
  ⟨_, f.apply_eq (.expr e)⟩

/-- A tree keeps its height. -/
lemma height_apply (n : Node) : (f.apply n).height = n.height := by
  induction n using Node.inductionOnParts with
  | step n ih =>
    rw [Node.height_eq, parts_apply, List.map_map, n.height_eq]
    have hparts : n.parts.map (Node.height ∘ f.apply) = n.parts.map Node.height :=
      List.map_congr_left ih
    rw [hparts]

/-- A tree in which no variable is bound twice becomes one with this property. -/
lemma distinct_apply (h : n.Distinct) : (f.apply n).Distinct := by
  induction n using Node.inductionOnParts with
  | step n ih =>
    rcases f.apply_cases n with ⟨-, hn, hnew⟩ | ⟨-, hn⟩
    · rw [hn]
      exact Node.distinct_of_leaf hnew
    · rw [hn]
      apply h.over (f.results_apply n)
      exact List.forall_mem_map.2 fun p hp => ih p hp (h.part hp)

/-- On trees one map after the other is the two in one. -/
theorem apply_apply (n : Node) : g.apply (f.apply n) = (f.andThen g).apply n := by
  have hnode (n : Node) : g.node (f.node n) = (f.andThen g).node n := by cases n <;> rfl
  induction n using Node.inductionOnParts with
  | step n ih =>
    rw [g.apply_eq, (f.andThen g).apply_eq, parts_apply, List.map_map]
    have hparts : n.parts.map (g.apply ∘ f.apply) = n.parts.map (f.andThen g).apply :=
      List.map_congr_left ih
    rw [hparts, ← hnode]
    rcases f.apply_cases n with ⟨hleaf, hn, hnew⟩ | ⟨hleaf, hn⟩
    · rw [hn, Node.over_of_leaf hnew, n.over_of_leaf hleaf]
    · have hover := (n.isLeaf_over (n.parts.map (f.andThen g).apply)).trans hleaf
      rw [hn, Node.over_over (f.results_apply n) ((f.andThen g).results_apply n),
        f.node_of_not_leaf hover]

/-! ### Runs -/

/-- The callbacks that put other leaves in the place of the rebuilt ones. -/
def replacers : Replacers Unit where
  onOp := some fun _ rebuilt => pure (f.onOp rebuilt)
  onExpr := some fun _ rebuilt => pure (f.onExpr rebuilt)

/-- The tree with its leaves rewritten, or the error that stops the run. -/
def run (config : Config) (n : Node) : Except RunError Node :=
  ((f.replacers.tree config n).exec () ()).1

/-- The operator with its leaves rewritten, or the error that stops the run. -/
def runOp (config : Config) (o : Op) : Except RunError Op :=
  ((f.replacers.op config o).exec () ()).1

/-- The callbacks that rewrite leaves never fail. -/
lemma neverFail_replacers : f.replacers.NeverFail := by
  refine ⟨Hooks.neverFail_empty, ?_, ?_⟩
  · rintro c ⟨⟩ old rebuilt s
    exact ⟨f.onOp rebuilt, s, rfl⟩
  · rintro c ⟨⟩ old rebuilt s
    exact ⟨f.onExpr rebuilt, s, rfl⟩

/-- An aggregate is no leaf. -/
lemma returnsAggregates_replacers : f.replacers.ReturnsAggregates := by
  rintro c ⟨⟩ old rebuilt a s s' ⟨⟩ hrebuilt
  cases rebuilt with
  | aggregate => rwa [f.expr_compound _ rfl]
  | _ => cases hrebuilt

/-- A well-formed node becomes one. -/
lemma wellFormed_node (h : n.WellFormed) : (f.node n).WellFormed := by
  rcases hleaf : n.isLeaf with _ | _
  · rwa [f.node_of_not_leaf hleaf]
  · exact Node.wellFormed_of_leaf (f.isLeaf_node hleaf)

/-- The callbacks that rewrite leaves return well-formed trees for well-formed ones. -/
lemma keepsWellFormed_replacers : f.replacers.KeepsWellFormed := by
  constructor
  · rintro c ⟨⟩ old rebuilt s a t ⟨⟩ - hrebuilt
    exact f.wellFormed_node hrebuilt
  · rintro c ⟨⟩ old rebuilt s a t ⟨⟩ - hrebuilt
    exact f.wellFormed_node hrebuilt

/-- Whatever a run gives for a tree is what becomes of the tree. -/
lemma rewrite_ensures_apply (n : Node) (depth : Nat) :
    (f.replacers.rewrite config depth n : RunM Unit Unit Node).Ensures (f.apply n = ·) := by
  apply Replacers.rewrite_ensures_of_answer (k := f.node)
  · rintro old rebuilt s o t ⟨⟩
    rfl
  · rintro old rebuilt s e t ⟨⟩
    rfl
  · exact fun n => (f.apply_eq n).symm

variable {f g}

/-- Rewriting leaves ends as a walk of the tree does, and succeeds with what becomes of it. -/
lemma tree_endsLike_walkTree {v : Visitors σ} (hv : v.NeverFail) (hn : n.Distinct) :
    (f.replacers.tree config n : RunM Unit Unit Node).EndsLike (v.walkTree config n) (f.apply n) :=
  Replacers.tree_endsLike_of_ensures hv f.neverFail_replacers f.returnsAggregates_replacers hn
    (f.rewrite_ensures_apply n 1)

/-- A run fails as a walk of the tree does, or it gives what becomes of the tree. -/
theorem run_eq {v : Visitors σ} (hv : v.NeverFail) (hn : n.Distinct) (s : Session σ Counters) :
    f.run config n = ((v.walkTree config n).run s).1.map fun _ => f.apply n :=
  tree_endsLike_walkTree hv hn s ⟨(), (), #[]⟩

/-- Rewriting the leaves of an operator succeeds exactly if a walk of it does. -/
lemma runOp_eq {v : Visitors σ} (hv : v.NeverFail) {o o' : Op} (ho : (Node.op o).Distinct)
    (ho' : f.apply (.op o) = .op o') (s : Session σ Counters) :
    f.runOp config o = ((v.walkTree config (.op o)).run s).1.map fun _ => o' := by
  have htree : (f.replacers.tree config (.op o) : RunM Unit Unit Node).EndsLike
      (v.walkTree config (.op o)) (.op o') := ho' ▸ tree_endsLike_walkTree hv ho
  exact RunM.EndsLike.of_map (g := Node.op) (fun _ _ h => Node.op.inj h) htree s ⟨(), (), #[]⟩

/-- On a tree that fits a run succeeds with what becomes of the tree. -/
lemma run_of_fits (hn : n.Distinct) (h : n.Fits config) : f.run config n = .ok (f.apply n) := by
  have hv : ({} : Visitors Unit).NeverFail := Visitors.neverFail_empty
  obtain ⟨a, ha⟩ := (Visitors.walkTree_ok_iff_fits hv ⟨(), {}, #[]⟩).2 h
  rw [run_eq hv hn, ha]
  rfl

/-- On an operator that fits a run succeeds with what becomes of it. -/
lemma runOp_of_fits {o o' : Op} (ho : (Node.op o).Distinct) (ho' : f.apply (.op o) = .op o')
    (h : (Node.op o).Fits config) : f.runOp config o = .ok o' := by
  have hv : ({} : Visitors Unit).NeverFail := Visitors.neverFail_empty
  obtain ⟨a, ha⟩ := (Visitors.walkTree_ok_iff_fits hv ⟨(), {}, #[]⟩).2 h
  rw [runOp_eq hv ho ho', ha]
  rfl

/-- If a walk goes through a tree, a walk goes through what becomes of it. -/
theorem fits_apply (hn : n.Distinct) (h : n.Fits config) : (f.apply n).Fits config where
  wellFormed := by
    have hrun := run_of_fits (f := f) hn h
    have hmeets := Replacers.tree_meets (τ := Unit) f.keepsWellFormed_replacers config hn
    let s : Session (Recorded Unit) Unit := ⟨⟨(), []⟩, (), #[]⟩
    have hrecorded : ((f.replacers.recorded.tree config n).run s).1 = .ok (f.apply n) :=
      (congrArg Prod.fst (f.replacers.tree_recorded config n s)).symm.trans hrun
    exact ((hmeets s).2 _ hrecorded).1
  height_le limit hlimit := (f.height_apply n).symm ▸ h.height_le limit hlimit

/-- Rewriting the leaves of a tree and those of the result is rewriting them once by both: it gives
the same tree or fails with the same error. It fails if a walk of the tree does, with the error of
the walk, and otherwise gives the tree with both done to its leaves. -/
theorem fusion (config : Config) (f g : LeafMap) {n : Node} (hn : n.Distinct) :
    (f.run config n >>= g.run config) = (f.andThen g).run config n ∧
      (f.andThen g).run config n =
        ((({} : Visitors Unit).walkTree config n).exec () {}).1.map fun _ =>
          g.apply (f.apply n) := by
  have hv : ({} : Visitors Unit).NeverFail := Visitors.neverFail_empty
  let s : Session Unit Counters := ⟨(), {}, #[]⟩
  have hboth : (f.andThen g).run config n =
      ((({} : Visitors Unit).walkTree config n).run s).1.map fun _ => g.apply (f.apply n) := by
    rw [apply_apply]
    exact run_eq hv hn s
  refine ⟨?_, hboth⟩
  rcases hwalk : ((({} : Visitors Unit).walkTree config n).run s).1 with e | a
  · rw [hboth, run_eq hv hn s, hwalk]
    rfl
  · have hfits : n.Fits config := (Visitors.walkTree_ok_iff_fits hv s).1 ⟨a, hwalk⟩
    calc
      (f.run config n >>= g.run config) = g.run config (f.apply n) := by
        rw [run_of_fits hn hfits]
        rfl
      _ = .ok (g.apply (f.apply n)) := run_of_fits (f.distinct_apply hn) (fits_apply hn hfits)
      _ = (f.andThen g).run config n := by
        rw [hboth, hwalk]
        rfl

/-- Retargeting the scan of a count twice is retargeting it once. -/
theorem fusion_countedBy :
    let n := Node.op (.countedBy ⟨"k"⟩ "T")
    n.Distinct ∧
      ((retarget "T" "U").run {} n >>= (retarget "U" "V").run {}) =
        .ok (.op (.countedBy ⟨"k"⟩ "V")) := by
  intro n
  have hn : n.Distinct := Op.distinct_countedBy _ _
  have hrun : ((retarget "T" "U").andThen (retarget "U" "V")).run {} n =
      .ok (.op (.countedBy ⟨"k"⟩ "V")) := by
    simp only [n, run, RunM.exec, Replacers.tree, Replacers.op, drain, Step.follow, Node.schedule,
      Node.parts, Op.parts, Op.countedBy, Expr.parts, Bindings.values, List.map_cons, List.map_nil,
      List.cons_append, List.nil_append]
    rfl
  exact ⟨hn, (fusion {} _ _ hn).1.trans hrun⟩

end LeafMap

end QueryPlan
