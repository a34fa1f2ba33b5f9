import QueryPlan.Proofs.FirstBad
import QueryPlan.Proofs.Unchanged

/-!
# How far a run comes

A run over a list goes from member to member and stops at the first one that fails. `RunM.begun`
lists the members that it comes to, the failing one included, and `RunM.along` collects what is
noted of them in the sessions in which they are run.

The turns of a tree that a run begins (`Visitors.turnsBegun`, `Replacers.turnsBegun`) say how far it
comes. Among them a node is entered and let pass, or refused for its depth and nothing comes after
(`Turn.passed`); so the nodes let pass are the first ones in preorder, and all of them if the run
succeeds.
-/

namespace QueryPlan

variable {σ τ α β γ δ : Type}

namespace RunM

/-- What is noted of the members of a list that are run one after the other: of those that succeed,
and of the first one that fails. -/
def along (f : α → RunM σ τ β) (note : α → Session σ τ → List γ) :
    List α → Session σ τ → List γ
  | [], _ => []
  | a :: as, s =>
    note a s ++
      match (f a).run s with
      | (.ok _, t) => along f note as t
      | (.error _, _) => []

/-- The members of a list that a run over it comes to. -/
def begun (f : α → RunM σ τ β) : List α → Session σ τ → List α := along f fun a _ => [a]

variable {f : α → RunM σ τ β} {note : α → Session σ τ → List γ} {a : α} {as : List α} {b : β}
  {s t : Session σ τ} {e : RunError}

/-- After a member that succeeds, what is noted goes on with the members behind it. -/
lemma along_of_ok (h : (f a).run s = (.ok b, t)) :
    along f note (a :: as) s = note a s ++ along f note as t := by
  rw [along, h]

/-- A member that fails is the last one of which anything is noted. -/
lemma along_of_error (h : (f a).run s = (.error e, t)) :
    along f note (a :: as) s = note a s := by
  rw [along, h]
  exact List.append_nil _

/-- After a member that succeeds the next ones are begun. -/
lemma begun_of_ok (h : (f a).run s = (.ok b, t)) : begun f (a :: as) s = a :: begun f as t :=
  along_of_ok h

/-- A member that fails is the last one to be begun. -/
lemma begun_of_error (h : (f a).run s = (.error e, t)) : begun f (a :: as) s = [a] :=
  along_of_error h

/-- What is noted may be taken apart while it is noted, or afterwards. -/
lemma flatMap_along (g : γ → List δ) (as : List α) (s : Session σ τ) :
    (along f note as s).flatMap g = along f (fun a s => (note a s).flatMap g) as s := by
  induction as generalizing s with
  | nil => rfl
  | cons a as ih =>
    rcases h : (f a).run s with ⟨e | b, t⟩
    · rw [along_of_error h, along_of_error h]
    · rw [along_of_ok h, along_of_ok h, List.flatMap_append, ih]

/-- What is taken from the members that are begun could be noted along the run. -/
lemma flatMap_begun (g : α → List γ) (as : List α) (s : Session σ τ) :
    (begun f as s).flatMap g = along f (fun a _ => g a) as s := by
  rw [begun, flatMap_along]
  simp only [List.flatMap_singleton]

/-- A run over the images of a list notes what one over the list notes of the images. -/
lemma along_map (g : δ → α) (ds : List δ) (s : Session σ τ) :
    along f note (ds.map g) s = along (fun d => f (g d)) (fun d => note (g d)) ds s := by
  induction ds generalizing s with
  | nil => rfl
  | cons d ds ih => simp only [List.map_cons, along, ih]

/-- Of the images of a list those are begun whose originals are. -/
lemma begun_map (g : δ → α) (ds : List δ) (s : Session σ τ) :
    begun f (ds.map g) s = (begun (fun d => f (g d)) ds s).map g := by
  rw [begun, along_map, ← List.flatMap_pure_eq_map, flatMap_begun]
  rfl

section

variable {whole : α → List γ}

/-- If first parts of some lists are noted, the first part of all of them together is. -/
lemma along_prefix (h : ∀ a ∈ as, ∀ s, note a s <+: whole a)
    (hok : ∀ a ∈ as, ∀ s b t, (f a).run s = (.ok b, t) → note a s = whole a) (s : Session σ τ) :
    along f note as s <+: as.flatMap whole := by
  induction as generalizing s with
  | nil => exact List.prefix_rfl
  | cons a as ih =>
    rw [List.flatMap_cons]
    rcases hrun : (f a).run s with ⟨e | b, t⟩
    · rw [along_of_error hrun]
      exact (h a (.head _) s).trans (List.prefix_append _ _)
    · rw [along_of_ok hrun, hok a (.head _) s b t hrun, List.prefix_append_right_inj]
      exact ih (fun a' ha => h a' (.tail _ ha)) (fun a' ha => hok a' (.tail _ ha)) t

/-- A run that succeeds notes everything. -/
lemma along_whole {bs : List β}
    (hok : ∀ a ∈ as, ∀ b ∈ bs, ∀ s t, (f a).run s = (.ok b, t) → note a s = whole a)
    (hrun : (as.mapM f).run s = (.ok bs, t)) : along f note as s = as.flatMap whole := by
  induction as generalizing s bs with
  | nil => rfl
  | cons a as ih =>
    rw [List.mapM_cons] at hrun
    obtain ⟨b, u, ha, hrest⟩ := ok_of_bind hrun
    obtain ⟨bs', v, has, hpure⟩ := ok_of_bind hrest
    cases hpure
    rw [along_of_ok ha, hok a (.head _) b (.head _) s u ha, List.flatMap_cons,
      ih (fun a' ha' b' hb' => hok a' (.tail _ ha') b' (.tail _ hb')) has]

/-- What comes after a run that succeeds is noted after it. -/
lemma along_append {as' : List α} {bs : List β} (hrun : (as.mapM f).run s = (.ok bs, t)) :
    along f note (as ++ as') s = along f note as s ++ along f note as' t := by
  induction as generalizing s bs with
  | nil =>
    cases hrun
    rfl
  | cons a as ih =>
    rw [List.mapM_cons] at hrun
    obtain ⟨b, u, ha, hrest⟩ := ok_of_bind hrun
    obtain ⟨bs', v, has, hpure⟩ := ok_of_bind hrest
    cases hpure
    rw [List.cons_append, along_of_ok ha, along_of_ok ha, ih has, List.append_assoc]

/-- A loop without results is one whose results are dropped. -/
lemma forM_eq_mapM (f : α → RunM σ τ Unit) (as : List α) :
    forM as f = as.mapM f >>= fun _ => pure () := by
  induction as with
  | nil => rfl
  | cons a as ih =>
    rw [List.forM_cons, List.mapM_cons, ih]
    simp only [bind_assoc, pure_bind]

/-- Where a loop without results succeeds, so does the one that keeps the results. -/
lemma mapM_of_forM {f : α → RunM σ τ Unit} (hrun : (forM as f).run s = (.ok (), t)) :
    ∃ us, (as.mapM f).run s = (.ok us, t) := by
  rw [forM_eq_mapM] at hrun
  obtain ⟨us, u, hmapM, hpure⟩ := ok_of_bind hrun
  cases hpure
  exact ⟨us, hmapM⟩

/-- A run that succeeds notes of each member what is noted of members that succeed. -/
lemma along_whole_of_forM {f : α → RunM σ τ Unit}
    (hok : ∀ a ∈ as, ∀ s t, (f a).run s = (.ok (), t) → note a s = whole a)
    (hrun : (forM as f).run s = (.ok (), t)) : along f note as s = as.flatMap whole := by
  obtain ⟨us, hmapM⟩ := mapM_of_forM hrun
  exact along_whole (fun a ha _ _ s t => hok a ha s t) hmapM

/-- A relation between two sessions and what is noted from the one to the other that goes on from
where it stands. -/
structure Accumulates (R : List γ → Session σ τ → Session σ τ → Prop) : Prop where
  nil : ∀ s, R [] s s
  append : ∀ {xs ys s t u}, R xs s t → R ys t u → R (xs ++ ys) s u

namespace Accumulates

variable {R : List γ → Session σ τ → Session σ τ → Prop}

/-- What each member of a list leads to, the run over the list leads to, however it ends. -/
lemma mapM (hR : Accumulates R) (h : ∀ a s, R (note a s) s ((f a).run s).2) (as : List α)
    (s : Session σ τ) : R (along f note as s) s ((as.mapM f).run s).2 := by
  induction as generalizing s with
  | nil => exact hR.nil s
  | cons a as ih =>
    have ha := h a s
    rw [List.mapM_cons]
    rcases hrun : (f a).run s with ⟨e | b, t⟩
    · rw [hrun] at ha
      rw [bind_of_error hrun, along_of_error hrun]
      exact ha
    · rw [hrun] at ha
      have hrest := hR.append ha (ih t)
      rw [bind_of_ok hrun, along_of_ok hrun]
      rcases hmapM : (as.mapM f).run t with ⟨e | bs, u⟩
      · rw [hmapM] at hrest
        rw [bind_of_error hmapM]
        exact hrest
      · rw [hmapM] at hrest
        rw [bind_of_ok hmapM]
        exact hrest

/-- What accumulates with each member accumulates along the whole loop. -/
lemma forM (hR : Accumulates R) {f : α → RunM σ τ Unit}
    (h : ∀ a s, R (note a s) s ((f a).run s).2) (as : List α) (s : Session σ τ) :
    R (along f note as s) s ((forM as f : RunM σ τ Unit).run s).2 := by
  have hmapM := hR.mapM h as s
  rw [forM_eq_mapM]
  rcases hrun : (as.mapM f).run s with ⟨e | us, t⟩
  · rw [hrun] at hmapM
    rw [bind_of_error hrun]
    exact hmapM
  · rw [hrun] at hmapM
    rw [bind_of_ok hrun]
    exact hmapM

end Accumulates

/-- A run over a list comes to its first members. -/
lemma begun_prefix (f : α → RunM σ τ β) (as : List α) (s : Session σ τ) : begun f as s <+: as := by
  have hprefix : along f (fun a _ => [a]) as s <+: as.flatMap fun a => [a] :=
    along_prefix (fun a _ _ => List.prefix_refl [a]) (fun _ _ _ _ _ _ => rfl) s
  rwa [List.flatMap_singleton'] at hprefix

/-- Behind members that all succeed a run begins those that it would begin by themselves. -/
lemma begun_append {f : α → RunM σ τ Unit} {as' : List α}
    (hrun : (forM as f).run s = (.ok (), t)) :
    begun f (as ++ as') s = as ++ begun f as' t := by
  obtain ⟨us, hmapM⟩ := mapM_of_forM hrun
  have hwhole : begun f as s = as.flatMap fun a => [a] :=
    along_whole (fun _ _ _ _ _ _ _ => rfl) hmapM
  rw [List.flatMap_singleton'] at hwhole
  rw [begun, along_append hmapM, ← begun, hwhole]

end

end RunM

/-! ### Turns -/

/-- The node that is entered, if it is not refused for its depth. -/
def Turn.passed (config : Config) : Place × Turn → List (Place × Node)
  | (π, enter m) => if config.refusal (π.length + 1) = none then [(π, m)] else []
  | (_, leave _) => []

namespace Node

variable {config : Config} {perform : Step → RunM σ τ Unit} {n : Node} {s t : Session σ τ}

/-- The turns of a tree that a run comes to. -/
def turnsBegun (perform : Step → RunM σ τ Unit) (n : Node) : Session σ τ → List (Place × Turn) :=
  RunM.begun (fun x => perform (Turn.step 1 x)) n.turns

/-- The loop performs the steps of the turns of the tree. -/
lemma drain_turns (perform : Step → RunM σ τ Unit) (n : Node) :
    drain perform [.enter n 1] = forM n.turns fun x => perform (Turn.step 1 x) := by
  rw [drain_enter, n.steps_eq_turns, List.forM_map]

/-- The steps that the loop begins are those of the turns that it begins. -/
lemma begun_steps (perform : Step → RunM σ τ Unit) (n : Node) (s : Session σ τ) :
    RunM.begun perform (n.steps 1) s = (n.turnsBegun perform s).map (Turn.step 1) := by
  rw [n.steps_eq_turns, RunM.begun_map]
  rfl

/-- A turn that succeeds lets pass the node that it enters. -/
lemma passed_of_ok
    (h : ∀ m depth s t, (perform (.enter m depth)).run s = (.ok (), t) →
      config.refusal depth = none)
    {x : Place × Turn} (hrun : (perform (Turn.step 1 x)).run s = (.ok (), t)) :
    Turn.passed config x = x.2.entered.map (x.1, ·) := by
  obtain ⟨π, m | m⟩ := x
  · have hpass := h m (1 + π.length) s t hrun
    rw [Nat.add_comm] at hpass
    exact if_pos hpass
  · rfl

/-- A turn lets pass the node that it enters, or none. -/
lemma passed_prefix (config : Config) (x : Place × Turn) :
    Turn.passed config x <+: x.2.entered.map (x.1, ·) := by
  obtain ⟨π, m | m⟩ := x
  · rw [Turn.passed]
    split
    · exact List.prefix_rfl
    · exact List.nil_prefix
  · exact List.prefix_rfl

/-- The nodes let pass are the first ones in preorder. -/
lemma passed_turnsBegun_prefix
    (h : ∀ m depth s t, (perform (.enter m depth)).run s = (.ok (), t) →
      config.refusal depth = none) (n : Node) (s : Session σ τ) :
    (n.turnsBegun perform s).flatMap (Turn.passed config) <+: n.preorder := by
  rw [turnsBegun, RunM.flatMap_begun, ← n.flatMap_entered_turns]
  exact RunM.along_prefix (fun x _ _ => passed_prefix config x)
    (fun x _ s _ t hrun => passed_of_ok h hrun) s

/-- A run that succeeds begins every turn. -/
lemma turnsBegun_of_ok (hrun : (drain perform [.enter n 1]).run s = (.ok (), t)) :
    n.turnsBegun perform s = n.turns := by
  rw [drain_turns] at hrun
  rw [turnsBegun, ← List.append_nil n.turns, RunM.begun_append hrun]
  rfl

/-- A run that succeeds lets all nodes pass, in preorder. -/
lemma passed_turnsBegun_of_ok
    (h : ∀ m depth s t, (perform (.enter m depth)).run s = (.ok (), t) →
      config.refusal depth = none)
    (hrun : (drain perform [.enter n 1]).run s = (.ok (), t)) :
    (n.turnsBegun perform s).flatMap (Turn.passed config) = n.preorder := by
  rw [drain_turns] at hrun
  rw [turnsBegun, RunM.flatMap_begun, ← n.flatMap_entered_turns]
  exact RunM.along_whole_of_forM (fun x _ s t hrun => passed_of_ok h hrun) hrun

end Node

/-! ### Roots -/

namespace Visitors

/-- The turns, over all trees of a root, that a walk comes to. -/
def turnsBegun (config : Config) (v : Visitors σ) (root : Root) :
    Session σ Counters → List (Place × Turn) :=
  RunM.along (v.walkTree config) (Node.turnsBegun (v.perform config)) root.trees

/-- What the turns lead to, a walk leads to. -/
lemma walk_accumulates {config : Config} {v : Visitors σ}
    {R : List (Place × Turn) → Session σ Counters → Session σ Counters → Prop}
    (hR : RunM.Accumulates R)
    (h : ∀ x s, R [x] s ((v.perform config (Turn.step 1 x)).run s).2) (root : Root)
    (s : Session σ Counters) : R (v.turnsBegun config root s) s ((v.walk config root).run s).2 := by
  apply hR.forM
  intro n s
  rw [walkTree, Node.drain_turns]
  exact hR.forM h n.turns s

/-- A walk that enters a node has let it pass. -/
lemma refusal_of_ok {config : Config} {v : Visitors σ} {m : Node} {depth : Nat}
    {s t : Session σ Counters} (h : (v.perform config (.enter m depth)).run s = (.ok (), t)) :
    config.refusal depth = none := by
  obtain ⟨_, u, hdepth, -⟩ := RunM.ok_of_bind h
  exact RunM.refusal_of_checkDepth hdepth

/-- A walk that succeeds begins every turn of every tree. -/
lemma turnsBegun_of_ok {config : Config} {v : Visitors σ} {root : Root} {s t : Session σ Counters}
    (h : (v.walk config root).run s = (.ok (), t)) :
    v.turnsBegun config root s = root.trees.flatMap Node.turns :=
  RunM.along_whole_of_forM (fun _ _ _ _ hrun => Node.turnsBegun_of_ok hrun) h

/-- The nodes let pass are the first ones of the trees in preorder. -/
lemma passed_turnsBegun_prefix (config : Config) (v : Visitors σ) (root : Root)
    (s : Session σ Counters) :
    (v.turnsBegun config root s).flatMap (Turn.passed config) <+:
      root.trees.flatMap Node.preorder := by
  rw [turnsBegun, RunM.flatMap_along]
  apply RunM.along_prefix
  · intro n _ s
    exact Node.passed_turnsBegun_prefix (fun _ _ _ _ => refusal_of_ok) n s
  · intro n _ s _ t hrun
    exact Node.passed_turnsBegun_of_ok (fun _ _ _ _ => refusal_of_ok) hrun

/-- A walk that succeeds lets all nodes of the root pass, in preorder. -/
lemma passed_turnsBegun_of_ok {config : Config} {v : Visitors σ} {root : Root}
    {s t : Session σ Counters} (h : (v.walk config root).run s = (.ok (), t)) :
    (v.turnsBegun config root s).flatMap (Turn.passed config) =
      root.trees.flatMap Node.preorder := by
  rw [turnsBegun, RunM.flatMap_along]
  exact RunM.along_whole_of_forM
    (fun _ _ _ _ hrun => Node.passed_turnsBegun_of_ok (fun _ _ _ _ => refusal_of_ok) hrun) h

end Visitors

namespace Replacers

/-- The turns, over all trees of a root, that a run comes to; it has no results when it starts on a
tree. -/
def turnsBegun (config : Config) (r : Replacers σ) (root : Root) :
    Session σ τ → List (Place × Turn) :=
  RunM.along (r.tree config)
    (fun n s => n.turnsBegun (r.perform config) { s with own := {} }) root.trees

variable {config : Config} {r : Replacers σ} {root : Root} {s t : Session σ τ}

/-- A transformation that enters a node has let it pass. -/
lemma refusal_of_ok {m : Node} {depth : Nat} {s t : Session σ Rebuilt}
    (h : (r.perform config (.enter m depth)).run s = (.ok (), t)) :
    config.refusal depth = none := by
  obtain ⟨_, u, hdepth, -⟩ := RunM.ok_of_bind h
  exact RunM.refusal_of_checkDepth hdepth

/-- The loop of a run that gives something succeeds. -/
lemma drain_of_tree_ok {n a : Node} (h : (r.tree config n).run s = (.ok a, t)) :
    ∃ u, (drain (r.perform config) [.enter n 1]).run { s with own := {} } = (.ok (), u) := by
  rw [tree_eq_within, RunM.run_within] at h
  have hresult := congrArg Prod.fst h
  have hrun : (drain (r.perform config) [.enter n 1] >>= fun _ => gather (.top n)).run
      { s with own := {} } = (.ok a, _) := Prod.ext hresult rfl
  obtain ⟨_, u, hdrain, -⟩ := RunM.ok_of_bind hrun
  exact ⟨u, hdrain⟩

/-- A tree that is transformed has had all its nodes let pass, in preorder. -/
lemma passed_of_tree_ok {n a : Node} (h : (r.tree config n).run s = (.ok a, t)) :
    (n.turnsBegun (r.perform config) { s with own := {} }).flatMap (Turn.passed config) =
      n.preorder := by
  obtain ⟨u, hdrain⟩ := drain_of_tree_ok h
  exact Node.passed_turnsBegun_of_ok (fun _ _ _ _ => refusal_of_ok) hdrain

/-- The nodes let pass are the first ones of the trees in preorder. -/
lemma passed_turnsBegun_prefix (config : Config) (r : Replacers σ) (root : Root)
    (s : Session σ τ) :
    (r.turnsBegun config root s).flatMap (Turn.passed config) <+:
      root.trees.flatMap Node.preorder := by
  rw [turnsBegun, RunM.flatMap_along]
  apply RunM.along_prefix
  · intro n _ s
    exact Node.passed_turnsBegun_prefix (fun _ _ _ _ => refusal_of_ok) n { s with own := {} }
  · intro n _ s _ t hrun
    exact passed_of_tree_ok hrun

/-- A run that succeeds lets every node pass. -/
lemma passed_turnsBegun_of_ok {root' : Root} (hroot : root.Distinct)
    (h : (r.replace config root).run s = (.ok root', t)) :
    (r.turnsBegun config root s).flatMap (Turn.passed config) =
      root.trees.flatMap Node.preorder := by
  rw [replace_eq_trees config r hroot] at h
  obtain ⟨results, u, hmapM, -⟩ := RunM.ok_of_bind h
  rw [turnsBegun, RunM.flatMap_along]
  exact RunM.along_whole (fun n _ a _ s t hrun => passed_of_tree_ok hrun) hmapM

end Replacers

end QueryPlan
