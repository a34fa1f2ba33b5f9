import QueryPlan.Proofs.FramesAtPlaces

/-!
# Retargeted plans

What retargeting should give can be said without any recursion (`Retargeted`): a tree with nodes at
the same places and with the same frames, except that each scan of the one table scans the other
one. Since a tree is known by its frames, there is only one such tree (`Retargeted.unique`).

`Op.retarget_exact` says that retargeting a plan gives that tree, if a walk of the plan succeeds.
-/

namespace QueryPlan

variable {σ : Type} {config : Config} {source target : String} {m n : Node}

/-! ### Retargeting -/

/-- What becomes of a frame: a scan of `source` is one of `target`, under the same name. -/
def Frame.retarget (source target : String) : Frame → Frame
  | scan table asName => scan (if table = source then target else table) asName
  | f => f

/-- The second tree is the first one, with each scan of `source` at any place made one of
`target`. -/
def Retargeted (source target : String) (n m : Node) : Prop :=
  ∀ π, m.frameAt? π = (n.frameAt? π).map (Frame.retarget source target)

/-- No scan of a table stands in the tree. -/
def Node.WithoutScan (n : Node) (table : String) : Prop :=
  ∀ π asName, n.frameAt? π ≠ some (.scan table asName)

/-- A tree does not scan a table if neither its root nor any part does. -/
lemma Node.WithoutScan.of_parts {table : String} (h : ∀ asName, n.frame ≠ .scan table asName)
    (hparts : ∀ p ∈ n.parts, p.WithoutScan table) : n.WithoutScan table := by
  intro π asName hπ
  cases π with
  | nil => exact h asName (Option.some.inj hπ)
  | cons l π =>
    rw [frameAt?_cons] at hπ
    obtain ⟨p, hp, hbelow⟩ := Option.bind_eq_some_iff.1 hπ
    exact hparts p (mem_parts_of_mem_branches (mem_branches.2 hp)) π asName hbelow

/-- A frame that is retargeted twice is retargeted once. -/
lemma Frame.retarget_retarget (f : Frame) :
    (f.retarget source target).retarget source target = f.retarget source target := by
  cases f with
  | scan table asName =>
    show scan _ asName = scan _ asName
    by_cases h : table = source <;> simp [h]
  | _ => rfl

/-- Retargeting back restores a frame that did not scan the target before. -/
lemma Frame.retarget_back {f : Frame} (h : ∀ asName, f ≠ scan target asName) :
    (f.retarget source target).retarget target source = f := by
  cases f with
  | scan table asName =>
    have htarget : table ≠ target := fun heq => h asName (heq ▸ rfl)
    show scan _ asName = scan _ asName
    by_cases hsource : table = source <;> simp [hsource, htarget]
  | _ => rfl

/-- No retargeted frame scans the source. -/
lemma Frame.retarget_ne_source (hne : source ≠ target) (f : Frame) (asName : Option String) :
    f.retarget source target ≠ scan source asName := by
  cases f with
  | scan table other =>
    show scan _ other ≠ scan _ asName
    by_cases h : table = source <;> simp [h, hne.symm]
  | _ => exact fun h => nomatch h

namespace Retargeted

variable {k : Node}

/-- There is only one such tree. -/
lemma unique (h : Retargeted source target n m) (h' : Retargeted source target n k) : m = k :=
  Node.eq_of_frames fun π => (h π).trans (h' π).symm

/-- Retargeting again changes nothing. -/
lemma again (h : Retargeted source target n m) : Retargeted source target m m := by
  intro π
  rw [h π, Option.map_map]
  exact congrArg (Option.map · _) (funext fun f => f.retarget_retarget.symm)

/-- A table that the tree does not scan can be retargeted back. -/
lemma back (h : Retargeted source target n m) (hn : n.WithoutScan target) :
    Retargeted target source m n := by
  intro π
  rw [h π, Option.map_map]
  rcases hf : n.frameAt? π with _ | f
  · rfl
  · exact congrArg some (Frame.retarget_back fun asName heq => hn π asName (heq ▸ hf)).symm

/-- A retargeted tree does not scan the source. -/
lemma withoutScan (h : Retargeted source target n m) (hne : source ≠ target) :
    m.WithoutScan source := by
  intro π asName
  rw [h π]
  rcases n.frameAt? π with _ | f
  · exact fun hf => nomatch hf
  · exact fun hf => f.retarget_ne_source hne asName (Option.some.inj hf)

end Retargeted

/-- The root of a retargeted tree has its frame retargeted. -/
lemma LeafMap.frame_retarget (n : Node) :
    ((retarget source target).apply n).frame = n.frame.retarget source target := by
  rw [frame_apply]
  cases n with
  | op o => cases o <;> rfl
  | expr e => cases e <;> rfl

/-- Rewriting the leaves gives it. -/
lemma LeafMap.retargeted_apply (n : Node) :
    Retargeted source target n ((retarget source target).apply n) := by
  intro π
  rw [Node.frameAt?, at?_apply, Node.frameAt?, Option.map_map, Option.map_map]
  exact congrArg (Option.map · _) (funext fun m => frame_retarget m)

/-! ### Runs -/

/-- The callbacks that retarget scans never fail. -/
lemma neverFail_retargetScans : (retargetScans source target).NeverFail := by
  refine ⟨Hooks.neverFail_empty, ?_, fun _ h => nomatch h⟩
  rintro c ⟨⟩ old rebuilt s
  exact ⟨rebuilt.retargetScan source target, s, rfl⟩

/-- The callbacks that retarget scans return aggregates for aggregates. -/
lemma returnsAggregates_retargetScans : (retargetScans source target).ReturnsAggregates :=
  fun _ h => nomatch h

/-- Whatever retargeting gives for a tree is the tree with its leaves rewritten. -/
lemma rewrite_ensures_retarget (n : Node) (depth : Nat) :
    ((retargetScans source target).rewrite config depth n : RunM Unit Unit Node).Ensures
      ((LeafMap.retarget source target).apply n = ·) := by
  apply Replacers.rewrite_ensures_of_answer (k := (LeafMap.retarget source target).node)
  · rintro old rebuilt s o t ⟨⟩
    rfl
  · rintro old rebuilt s e t ⟨⟩
    rfl
  · exact fun n => ((LeafMap.retarget source target).apply_eq n).symm

namespace Op

variable {v : Visitors σ} {o o' : Op}

/-- Retargeting ends as a walk of the plan does, and succeeds with the retargeted plan. -/
lemma retarget_eq (config : Config) (hv : v.NeverFail) (ho : (Node.op o).Distinct)
    (h : Retargeted source target (.op o) (.op o')) (s : Session σ Counters) :
    o.retarget config source target = ((v.walk config (.op o)).run s).1.map fun _ => o' := by
  have hends : ((retargetScans source target).tree config (.op o) : RunM Unit Unit Node).EndsLike
      (v.walkTree config (.op o)) ((LeafMap.retarget source target).apply (.op o)) :=
    Replacers.tree_endsLike_of_ensures hv neverFail_retargetScans returnsAggregates_retargetScans ho
      (rewrite_ensures_retarget _ 1)
  rw [(LeafMap.retargeted_apply (.op o)).unique h] at hends
  rw [Visitors.walk_op]
  exact RunM.EndsLike.of_map (g := Node.op) (fun _ _ h => Node.op.inj h) hends s ⟨(), (), #[]⟩

/-- A walk goes through the retargeted plan if it goes through the plan. -/
lemma walk_retargeted (hv : v.NeverFail) (ho : (Node.op o).Distinct)
    (h : Retargeted source target (.op o) (.op o')) {s : Session σ Counters}
    (hwalk : ((v.walk config (.op o)).run s).1 = .ok ()) :
    ((v.walk config (.op o')).run s).1 = .ok () := by
  rw [Visitors.walk_op] at hwalk ⊢
  have hfits := LeafMap.fits_apply (f := .retarget source target) ho
    ((Visitors.walkTree_ok_iff_fits hv s).1 ⟨(), hwalk⟩)
  rw [(LeafMap.retargeted_apply (.op o)).unique h] at hfits
  exact ((Visitors.walkTree_ok_iff_fits hv s).2 hfits).choose_spec

/-- Retargeting twice fails where retargeting once does, and gives what comes of both. -/
lemma retarget_bind {source' target' : String} {o'' : Op} (ho : (Node.op o).Distinct)
    (h : Retargeted source target (.op o) (.op o'))
    (h' : Retargeted source' target' (.op o') (.op o'')) :
    (o.retarget config source target >>= (·.retarget config source' target')) =
      (o.retarget config source target).map fun _ => o'' := by
  have hv : ({} : Visitors Unit).NeverFail := Visitors.neverFail_empty
  let s : Session Unit Counters := ⟨(), {}, #[]⟩
  have ho' : (Node.op o').Distinct := by
    rw [h.unique (LeafMap.retargeted_apply (.op o))]
    exact (LeafMap.retarget source target).distinct_apply ho
  have hfirst := retarget_eq config hv ho h s
  have hsecond := retarget_eq config hv ho' h' s
  rcases hwalk : ((({} : Visitors Unit).walk config (.op o)).run s).1 with e | _
  · rw [hfirst, hwalk]
    rfl
  · rw [walk_retargeted hv ho h hwalk] at hsecond
    rw [hfirst, hwalk]
    exact hsecond

/-- Retargeting a plan gives the only tree with the scans of one table retargeted at every place and
everything else as it was, if a walk of the plan succeeds, and fails with the error of the walk
otherwise.

So the plan is rid of the table, unless the two tables are one. Retargeting once more changes
nothing, and retargeting back gives the old plan if it did not scan the other table. -/
theorem retarget_exact (config : Config) (source target : String) {plan : Op}
    (h : (Node.op plan).Distinct) (hv : v.NeverFail) (s : Session σ Counters) :
    ∃ plan', (∀ m, Retargeted source target (.op plan) m ↔ m = .op plan') ∧
      plan.retarget config source target =
        (((v.walk config (.op plan)).run s).1.map fun _ => plan') ∧
      (source ≠ target → (Node.op plan').WithoutScan source) ∧
      (plan.retarget config source target >>= (·.retarget config source target)) =
        plan.retarget config source target ∧
      ((Node.op plan).WithoutScan target →
        (plan.retarget config source target >>= (·.retarget config target source)) =
          (plan.retarget config source target).map fun _ => plan) := by
  -- rewriting the leaves gives one such tree, and there is no other
  obtain ⟨plan', hplan', -⟩ := (LeafMap.retarget source target).apply_op plan
  have hretargeted : Retargeted source target (.op plan) (.op plan') :=
    hplan' ▸ LeafMap.retargeted_apply (.op plan)
  have honce := retarget_eq config hv h hretargeted s
  refine ⟨plan', fun m => ⟨fun hm => hm.unique hretargeted, fun hm => hm ▸ hretargeted⟩, honce,
    hretargeted.withoutScan, ?_, fun htarget => ?_⟩
  · rw [retarget_bind h hretargeted hretargeted.again, honce]
    rcases ((v.walk config (.op plan)).run s).1 with e | _ <;> rfl
  · exact retarget_bind h hretargeted (hretargeted.back htarget)

/-- A scan inside an existence test is retargeted as well as the one that is filtered, and both can
be retargeted back. -/
theorem retarget_exact_existence :
    let plan := filter [.existence false (scan "T" none)] (scan "T" (some "t"))
    (Node.op plan).Distinct ∧ Visitors.counting.NeverFail ∧ (Node.op plan).WithoutScan "U" ∧
      plan.retarget {} "T" "U" =
        .ok (filter [.existence false (scan "U" none)] (scan "U" (some "t"))) ∧
      (plan.retarget {} "T" "U" >>= (·.retarget {} "U" "T")) = .ok plan := by
  intro plan
  have hscan (asName : Option String) : (Node.op (scan "T" asName)).WithoutScan "U" := by
    refine .of_parts (fun other hother => ?_) (List.forall_mem_nil _)
    exact absurd (Frame.scan.inj hother).1 (by decide)
  have hdistinct : (Node.op plan).Distinct := by
    refine .of_parts (List.forall_mem_nil _) fun p hp => ?_
    rcases hp with _ | ⟨_, _ | ⟨_, ⟨⟩⟩⟩
    · exact .of_leaves (List.forall_mem_nil _) fun p hp => List.mem_singleton.1 hp ▸ ⟨rfl, rfl⟩
    · exact .of_leaves (List.forall_mem_nil _) (List.forall_mem_nil _)
  have hwithout : (Node.op plan).WithoutScan "U" := by
    refine .of_parts (fun _ h => nomatch h) fun p hp => ?_
    rcases hp with _ | ⟨_, _ | ⟨_, ⟨⟩⟩⟩
    · exact .of_parts (fun _ h => nomatch h) fun p hp => List.mem_singleton.1 hp ▸ hscan none
    · exact hscan (some "t")
  have hrun : plan.retarget {} "T" "U" =
      .ok (filter [.existence false (scan "U" none)] (scan "U" (some "t"))) := by
    simp only [plan, retarget, RunM.exec, Replacers.op, drain, Step.follow, Node.schedule,
      Node.parts, parts, Expr.parts, List.map_cons, List.map_nil, List.cons_append, List.nil_append]
    rfl
  obtain ⟨plan', -, -, -, -, hback⟩ := retarget_exact {} "T" "U" hdistinct
    Visitors.neverFail_counting ⟨0, {}, #[]⟩
  refine ⟨hdistinct, Visitors.neverFail_counting, hwithout, hrun, ?_⟩
  rw [hback hwithout, hrun]
  rfl

end Op

end QueryPlan
