import QueryPlan.Proofs.ReplaceCourses
import QueryPlan.Retarget

/-!
# Errors of runs that replace nodes

A run that replaces nodes has error branches that no run takes: a node never misses a result, and a
binding list is never given a variable twice. `Replacers.Refuses` lists what is left for a run to
stop at by itself, and `Replacers.replace_sound` says that every other error is one that a callback
returned.
-/

namespace QueryPlan

variable {σ τ α β : Type}

/-- No binding list of a root binds a variable twice. -/
def Root.Distinct (root : Root) : Prop :=
  (∀ b, root = .bindings b → b.Distinct) ∧ ∀ n ∈ root.trees, n.Distinct

/-- A root that is an operator is as distinct as the operator. -/
lemma Root.distinct_op {o : Op} (h : (Node.op o).Distinct) : (Root.op o).Distinct := by
  refine ⟨(fun _ hb => nomatch hb), fun n hn => ?_⟩
  rw [List.mem_singleton.1 hn]
  exact h

/-- A root with results in the places of its trees. -/
def Root.over : Root → List Node → Root
  | op o, results => op ((results.filterMap Node.op?).headD o)
  | expr e, results => expr ((results.filterMap Node.expr?).headD e)
  | exprs _, results => exprs (results.filterMap Node.expr?)
  | bindings b, results => bindings ⟨b.vars.zip (results.filterMap Node.expr?)⟩

/-- A run stops by itself only with errors that satisfy `P`; any other error comes from a call. -/
def RunM.StopsWith (x : RunM (Recorded σ) τ α) (P : RunError → Prop) : Prop :=
  ∀ s, ∃ c, x.Follows s c ∧ ∀ e, c.stop = some e → P e

namespace RunM.StopsWith

variable {x : RunM (Recorded σ) τ α} {P : RunError → Prop}

/-- A value that is only returned never stops a run. -/
lemma pure (a : α) : (pure a : RunM (Recorded σ) τ α).StopsWith P :=
  fun _ => ⟨.done, .pure a, fun _ h => nomatch h⟩

/-- Two computations after each other stop as one of them does. -/
lemma bind {f : α → RunM (Recorded σ) τ β} (h : x.StopsWith P) (hf : ∀ a, (f a).StopsWith P) :
    (x >>= f).StopsWith P := by
  intro s
  obtain ⟨c, hx, hc⟩ := h s
  rcases hrun : x.run s with ⟨e | a, t⟩
  · refine ⟨c.andThen .done, hx.bind_of_error hrun _, ?_⟩
    rwa [Course.andThen_done]
  · obtain ⟨d, hfa, hd⟩ := hf a t
    refine ⟨c.andThen d, hx.bind fun _ _ h => ?_, fun e he => ?_⟩
    · cases hrun.symm.trans h
      exact hfa
    · rcases Course.stop_of_andThen he with he | he
      · exact hc e he
      · exact hd e he

/-- What stops with certain errors stops with errors of any wider kind. -/
lemma mono {Q : RunError → Prop} (h : x.StopsWith P) (hPQ : ∀ e, P e → Q e) : x.StopsWith Q := by
  intro s
  obtain ⟨c, hx, hc⟩ := h s
  exact ⟨c, hx, fun e he => hPQ e (hc e he)⟩

/-- A loop with results stops as the run of one of its members does. -/
lemma mapM {f : α → RunM (Recorded σ) τ β} {as : List α} (h : ∀ a ∈ as, (f a).StopsWith P) :
    (as.mapM f).StopsWith P := by
  induction as with
  | nil => exact pure []
  | cons a as ih =>
    rw [List.mapM_cons]
    refine (h a (.head _)).bind fun b => ?_
    exact (ih fun a' ha => h a' (.tail _ ha)).bind fun bs => pure (b :: bs)

/-- An error is one of those with which the run stops by itself, or the last call returned it. -/
lemma error_cases (h : x.StopsWith P) {s : Session (Recorded σ) τ} {e : RunError}
    (hrun : (x.run s).1 = .error e) :
    (∃ calls last, (x.run s).2.caller.calls = s.caller.calls ++ (calls ++ [last]) ∧
      last.answer = .error e) ∨ P e := by
  obtain ⟨c, ⟨calls, hcalls, hallows⟩, hc⟩ := h s
  rw [hrun] at hallows
  cases hallows with
  | stopped hstop => exact .inr (hc e hstop)
  | failed _ _ hlast => exact .inl ⟨_, _, hcalls, hlast⟩

end RunM.StopsWith

namespace Replacers

/-- The errors with which a run on a tree stops by itself: a node is too deep, a node of the tree is
defective, or a group of the tree is defective once it is rebuilt. -/
inductive Refuses (config : Config) (r : Replacers σ) (n : Node) : RunError → Prop where
  | tooDeep {limit : Nat} :
    config.maxDepth = some limit →
    Refuses config r n (.tooDeep limit)
  | defect {m : Node} {d : Defect} :
    m.Within n →
    m.defect? = some d →
    Refuses config r n d.error
  | rebuilt {keys aggregates input} {m : Node} {results : List Node} {d : Defect} :
    m.Within n →
    m = .op (.group keys aggregates input) →
    List.Forall₂ r.Result m.parts results →
    (m.over results).defect? = some d →
    Refuses config r n d.error

variable {config : Config} {r : Replacers σ} {root n : Node} {e : RunError}

/-- Only groups have defects, and what is rebuilt in the place of another operator is no group. -/
lemma refuses_of_over {o : Op} {results : List Node} (ho : (Node.op o).Within root)
    (hresults : List.Forall₂ r.Result (Node.op o).parts results)
    (h : ((Node.op o).over results).refusal = some e) : Refuses config r root e := by
  obtain ⟨d, hd, rfl⟩ := Option.map_eq_some_iff.1 h
  cases o with
  | group => exact .rebuilt ho rfl hresults hd
  | _ => cases hd

/-- A step that the loop reaches stops only with an error that is left. -/
lemma refuses_of_stacked {s : Step} {rest : List Step} {built : Rebuilt} (hroot : root.Distinct)
    (h : Stacked r root (s :: rest) built) (he : (r.course config built s).stop = some e) :
    Refuses config r root e := by
  cases h with
  | @enter n depth _ _ hn =>
    rcases Course.stop_of_andThen he with he | he
    · obtain ⟨limit, hlimit, he⟩ := Option.bind_eq_some_iff.1 he
      split at he
      · cases he
        exact .tooDeep hlimit
      · cases he
    rcases Course.stop_of_andThen he with he | he
    · obtain ⟨d, hd, rfl⟩ := Option.map_eq_some_iff.1 he
      exact .defect hn.within hd
    · cases he
  | @leave n _ below results hn _ hresults =>
    have hdistinct := hroot.within hn.within
    have hr := results_of_forall₂ hresults
    rcases Course.stop_of_andThen he with he | he
    · change refusal n _ = _ at he
      cases n with
      | op o =>
        rw [refusal_op hdistinct hr] at he
        exact refuses_of_over hn.within hresults he
      | expr e =>
        rw [refusal_expr hr] at he
        cases he
    · cases he

/-- Steps stop as one of them does. -/
lemma stop_of_courses {P : RunError → Prop} {steps : List Step} {c : Course}
    (h : Courses (fun _ c => ∀ e, c.stop = some e → P e) steps c) (he : c.stop = some e) : P e := by
  induction h with
  | nil => cases he
  | cons hc _ ih =>
    rcases Course.stop_of_andThen he with he | he
    · exact hc e he
    · exact ih he

/-- A run on a tree stops by itself only with the errors of the tree. -/
lemma tree_stopsWith (config : Config) (r : Replacers σ) (hn : n.Distinct) :
    (r.recorded.tree config n : RunM (Recorded σ) τ Node).StopsWith (Refuses config r n) := by
  intro s
  obtain ⟨d, stop, hd, hstop, hfollows⟩ := tree_follows (s := s)
    (R := fun _ c => ∀ e, c.stop = some e → Refuses config r n e)
    (fun _ => ⟨.done, fun _ h => nomatch h⟩)
    fun step rest t ht e he => refuses_of_stacked hn (stacked_of_reaches hn rfl ht) he
  rw [hstop hn] at hfollows
  exact ⟨_, hfollows, fun e he => stop_of_courses hd (by rwa [← Course.andThen_done d])⟩

/-- The variables of a binding list are bound to the results, and none of them twice. -/
lemma bindings_eq (config : Config) (r : Replacers σ) {b : Bindings Expr} (hb : b.Distinct) :
    (r.bindings config b : RunM σ τ (Bindings Expr)) =
      r.exprs config b.values >>= fun es => pure ⟨b.vars.zip es⟩ := by
  obtain ⟨entries⟩ := b
  rw [bindings]
  dsimp only
  change _ = (entries.map (·.2)).mapM (r.expr config) >>= fun es =>
    pure (⟨Bindings.empty.entries ++ (entries.map (·.1)).zip es⟩ : Bindings Expr)
  replace hb : ((Bindings.empty : Bindings Expr).vars ++ entries.map (·.1)).Nodup := hb
  -- the loop goes on from the bindings before the entries that are left
  generalize Bindings.empty = done at hb ⊢
  induction entries generalizing done with
  | nil =>
    rw [List.map_nil, List.map_nil, List.mapM_nil, pure_bind, List.zip_nil_left, List.append_nil]
    rfl
  | cons p entries ih =>
    rw [List.foldlM_cons, List.map_cons, List.mapM_cons]
    simp only [bind_assoc, pure_bind]
    refine bind_congr fun e => ?_
    obtain ⟨hadd, hrest⟩ := Bindings.add_of_nodup hb e
    simp only [hadd, pure_bind]
    rw [ih _ hrest, List.map_cons]
    simp only [List.zip_cons_cons, List.append_assoc, List.singleton_append]

/-- Expressions that are transformed as nodes are transformed as expressions. -/
lemma mapM_tree_exprs (config : Config) (r : Replacers σ) (es : List Expr)
    (f : List Expr → RunM σ τ β) :
    ((es.map Node.expr).mapM (r.tree config) >>= fun results =>
        f (results.filterMap Node.expr?)) = r.exprs config es >>= f := by
  induction es generalizing f with
  | nil => rfl
  | cons e es ih =>
    rw [exprs, List.map_cons, List.mapM_cons, List.mapM_cons]
    simp only [tree, bind_assoc, pure_bind]
    exact bind_congr fun a => ih fun as => f (a :: as)

/-- The trees of a root are gone through one after the other. -/
theorem replace_eq_trees (config : Config) (r : Replacers σ) {root : Root} (h : root.Distinct) :
    (r.replace config root : RunM σ τ Root) =
      root.trees.mapM (r.tree config) >>= fun results => pure (root.over results) := by
  cases root with
  | op o =>
    simp only [replace, Root.trees, List.mapM_cons, List.mapM_nil, tree, bind_assoc, pure_bind]
    rfl
  | expr e =>
    simp only [replace, Root.trees, List.mapM_cons, List.mapM_nil, tree, bind_assoc, pure_bind]
    rfl
  | exprs es => exact (mapM_tree_exprs config r es _).symm
  | bindings b =>
    rw [replace, bindings_eq config r (h.1 b rfl), bind_assoc]
    simp only [pure_bind]
    exact (mapM_tree_exprs config r b.values _).symm

/-- A run on a root stops by itself only with the errors of one of its trees. -/
lemma replace_stopsWith (config : Config) (r : Replacers σ) {root : Root} (h : root.Distinct) :
    (r.recorded.replace config root : RunM (Recorded σ) τ Root).StopsWith fun e =>
      ∃ n ∈ root.trees, Refuses config r n e := by
  rw [replace_eq_trees config r.recorded h]
  refine (RunM.StopsWith.mapM fun n hn => ?_).bind fun _ => .pure _
  exact (tree_stopsWith config r (h.2 n hn)).mono fun e he => ⟨n, hn, he⟩

/-- What can happen in a run that replaces the nodes of a root, whatever its callbacks do.

In every state of the loop the stacks are in order: a node that is left finds one result for each of
its parts on top and is rebuilt from them, and at the end the result is all there is. A binding list
is replaced without binding a variable twice. So a run fails only because its last call did, or with
an error of one of the trees. -/
theorem replace_sound (config : Config) (r : Replacers σ) (root : Root) (h : root.Distinct) :
    (∀ n ∈ root.trees, ∀ (s t : Session σ Rebuilt) (waiting : List Step), s.own = {} →
      Reaches (r.perform config) ⟨[.enter n 1], s⟩ ⟨waiting, t⟩ →
        Stacked r n waiting t.own ∧
        (∀ m rest, waiting = .leave m :: rest →
          ∃ results below, List.Forall₂ r.Result m.parts results ∧
            t.own = below.pushAll results ∧
            m.rebuild.run t.own = .ok (m.over results, below)) ∧
        (waiting = [] →
          ∃ a, r.Result n a ∧ a.sort = n.sort ∧ t.own = Rebuilt.push {} a)) ∧
    (∀ b, root = .bindings b →
      (r.bindings config b : RunM σ τ (Bindings Expr)) =
        r.exprs config b.values >>= fun es => pure ⟨b.vars.zip es⟩) ∧
    ∀ (s : Session (Recorded σ) τ) (e : RunError),
      ((r.replace config root).run s.forget).1 = .error e →
        (∃ calls last,
          ((r.recorded.replace config root).run s).2.caller.calls =
            s.caller.calls ++ (calls ++ [last]) ∧
          last.answer = .error e) ∨
        ∃ n ∈ root.trees, Refuses config r n e := by
  refine ⟨?_, ?_, ?_⟩
  · intro n hn s t waiting hs hreach
    have hdistinct := h.2 n hn
    have hstacked := stacked_of_reaches hdistinct hs hreach
    refine ⟨hstacked, ?_, hstacked.result⟩
    rintro m rest rfl
    exact hstacked.rebuild hdistinct rfl
  · intro b hb
    exact bindings_eq config r (h.1 b hb)
  · intro s e hrun
    rw [replace_recorded config r root s] at hrun
    exact (replace_stopsWith config r h).error_cases hrun

/-- Retargeting a count over a table fails only for the reasons that are left. -/
theorem retarget_countedBy_sound :
    (Root.op (.countedBy ⟨"k"⟩ "T")).Distinct ∧
      ∀ (s : Session (Recorded Unit) Unit) (e : RunError),
        (((retargetScans "T" "U").replace {} (.op (.countedBy ⟨"k"⟩ "T"))).run s.forget).1 =
            .error e →
          (∃ calls last,
            (((retargetScans "T" "U").recorded.replace {}
              (.op (.countedBy ⟨"k"⟩ "T"))).run s).2.caller.calls =
                s.caller.calls ++ (calls ++ [last]) ∧
            last.answer = .error e) ∨
          ∃ n ∈ (Root.op (.countedBy ⟨"k"⟩ "T")).trees, Refuses {} (retargetScans "T" "U") n e := by
  have h : (Root.op (.countedBy ⟨"k"⟩ "T")).Distinct := Root.distinct_op (Op.distinct_countedBy _ _)
  exact ⟨h, (replace_sound {} (retargetScans "T" "U") _ h).2.2⟩

end Replacers

end QueryPlan
