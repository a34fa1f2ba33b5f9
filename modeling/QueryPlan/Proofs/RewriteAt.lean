import QueryPlan.Proofs.ReplacedPart

/-!
# Rewriting at one place

`Replacers.atCall` answers one call with a node of its own and keeps every other node. Calls come in
postorder, so the number of a call stands for a place (`Node.ofSort`). `Replacers.tree_atCall` says
that such a run puts the node at that place and changes nothing else, unless the node is to stand
among the aggregates of a group and is none.

The proof goes down the path to the place. Beside the path the count of calls has gone past the
number or has not come to it, and nodes are kept (`Replacers.rewrite_untouched`); on the path each
node gets back its old parts but for one (`Node.over_setPart`).
-/

namespace QueryPlan

variable {σ τ α β : Type}

namespace Node

variable {n m p : Node} {l : Link} {π : Place}

/-! ### The nodes of one sort -/

/-- The nodes of one sort in a tree, in the order in which a run visits them. -/
def ofSort (n : Node) (sort : String) : List (Place × Node) :=
  n.postorder.filter fun x => x.2.sort = sort

/-- The number of nodes of one sort in a tree. -/
def count (n : Node) (sort : String) : Nat := (n.ofSort sort).length

variable {sort : String}

/-- The nodes of one sort are listed with their places. -/
lemma mem_ofSort : (π, m) ∈ n.ofSort sort ↔ n.at? π = some m ∧ m.sort = sort := by
  rw [ofSort, List.mem_filter, mem_postorder, decide_eq_true_eq]

/-- The nodes of one sort stand in the branches, in their order, and last comes the node itself. -/
lemma ofSort_eq (n : Node) (sort : String) :
    n.ofSort sort = n.branches.flatMap (fun b => beneath [b.1] (b.2.ofSort sort)) ++
      if n.sort = sort then [([], n)] else [] := by
  have hfilter (b : Link × Node) :
      (beneath [b.1] b.2.postorder).filter (fun x => decide (x.2.sort = sort)) =
        beneath [b.1] (b.2.ofSort sort) := by
    rw [beneath, List.filter_map]
    rfl
  rw [ofSort, postorder_eq, List.filter_append, List.filter_flatMap]
  simp only [hfilter, List.filter_singleton, Bool.cond_decide]

/-- The nodes of one sort below some branches. -/
lemma length_beneath (bs : List (Link × Node)) :
    (bs.flatMap fun b => beneath [b.1] (b.2.ofSort sort)).length =
      total ((bs.map Prod.snd).map (·.count sort)) := by
  induction bs with
  | nil => rfl
  | cons b bs ih =>
    rw [List.flatMap_cons, List.length_append, ih, beneath, List.length_map, List.map_cons,
      List.map_cons, total_cons]
    rfl

/-- A node counts with its sort, after the nodes of this sort in its parts. -/
lemma count_eq (n : Node) (sort : String) :
    n.count sort = total (n.parts.map (·.count sort)) + if n.sort = sort then 1 else 0 := by
  rw [count, ofSort_eq, List.length_append, length_beneath, map_snd_branches]
  split <;> rfl

/-- The nodes below are in the branches before, in the branch itself and in those after. -/
lemma total_count_parts {first rest : List (Link × Node)}
    (h : n.branches = first ++ (l, p) :: rest) :
    total (n.parts.map (·.count sort)) =
      total ((first.map Prod.snd).map (·.count sort)) + p.count sort +
        total ((rest.map Prod.snd).map (·.count sort)) := by
  rw [← n.map_snd_branches, h, List.map_append, List.map_cons, List.map_append, List.map_cons,
    total_append, total_cons, Nat.add_assoc]

/-- The number of a node that stands in a part. -/
lemma getElem?_ofSort_part {first rest : List (Link × Node)} {j : Nat}
    (h : n.branches = first ++ (l, p) :: rest) (hj : (p.ofSort sort)[j]? = some (π, m)) :
    (n.ofSort sort)[total ((first.map Prod.snd).map (·.count sort)) + j]? = some (l :: π, m) := by
  have hlt : j < (p.ofSort sort).length := (List.getElem?_eq_some_iff.1 hj).1
  have hbeneath : j < (beneath [l] (p.ofSort sort)).length :=
    Nat.lt_of_lt_of_eq hlt (List.length_map _).symm
  rw [ofSort_eq, h, List.flatMap_append, List.flatMap_cons, List.append_assoc, ← length_beneath,
    List.getElem?_append_right (Nat.le_add_right _ _), Nat.add_sub_cancel_left, List.append_assoc,
    List.getElem?_append_left hbeneath, beneath, List.getElem?_map, hj]
  rfl

/-- The root comes after all nodes of its sort below. -/
lemma getElem?_ofSort_nil (h : n.sort = sort) :
    (n.ofSort sort)[total (n.parts.map (·.count sort))]? = some ([], n) := by
  rw [ofSort_eq, if_pos h, ← map_snd_branches, ← length_beneath]
  exact List.getElem?_concat_length

/-- A node has one number only. -/
lemma ofSort_inj {i j : Nat} {x : Place × Node} (hi : (n.ofSort sort)[i]? = some x)
    (hj : (n.ofSort sort)[j]? = some x) : i = j := by
  have hnodup : (n.ofSort sort).Nodup := n.nodup_postorder.of_map.filter _
  exact (List.getElem?_inj (List.getElem?_eq_some_iff.1 hi).1 hnodup).1 (hi.trans hj.symm)

/-- A node of the sort has a number. -/
lemma exists_number (hm : n.at? π = some m) (hsort : m.sort = sort) :
    ∃ k : Nat, (n.ofSort sort)[k]? = some (π, m) :=
  List.mem_iff_getElem?.1 (mem_ofSort.2 ⟨hm, hsort⟩)

/-- The number of a node that stands in a part comes after those of the parts before. -/
lemma number_part {j : Nat} (hp : n.partAt? l = some p)
    (hj : (n.ofSort sort)[j]? = some (l :: π, m)) :
    ∃ first rest i, n.branches = first ++ (l, p) :: rest ∧ (p.ofSort sort)[i]? = some (π, m) ∧
      j = total ((first.map Prod.snd).map (·.count sort)) + i := by
  obtain ⟨first, rest, h, -⟩ := branches_split hp
  obtain ⟨hm, hsort⟩ := mem_ofSort.1 (List.mem_of_getElem? hj)
  rw [at?, hp, Option.bind_some] at hm
  obtain ⟨i, hi⟩ := exists_number hm hsort
  exact ⟨first, rest, i, h, hi, ofSort_inj hj (getElem?_ofSort_part h hi)⟩

end Node

/-! ### Runs from a state of the caller -/

namespace RunM

/-- From a state of the caller the run succeeds with a result and leaves another state. -/
def Gives (x : RunM σ τ α) (c : σ) (a : α) (d : σ) : Prop :=
  ∀ s, s.caller = c → ∃ t, x.run s = (.ok a, t) ∧ t.caller = d

/-- From a state of the caller the run fails with an error. -/
def FailsWith (x : RunM σ τ α) (c : σ) (e : RunError) : Prop :=
  ∀ s, s.caller = c → (x.run s).1 = .error e

variable {x : RunM σ τ α} {f : α → RunM σ τ β} {a : α} {b : β} {c d d' : σ} {e : RunError}

/-- A value that is only returned leaves the state of the caller. -/
lemma Gives.pure (a : α) (c : σ) : (pure a : RunM σ τ α).Gives c a c :=
  fun s hs => ⟨s, rfl, hs⟩

/-- A log record leaves the state of the caller. -/
lemma Gives.emit (r : LogRecord) (c : σ) : (emit r : RunM σ τ Unit).Gives c () c :=
  fun _ hs => ⟨_, rfl, hs⟩

/-- A run gives what its second part gives from where the first part ends. -/
lemma Gives.bind (h : x.Gives c a d) (hf : (f a).Gives d b d') : (x >>= f).Gives c b d' := by
  intro s hs
  obtain ⟨t, hx, ht⟩ := h s hs
  rw [bind_of_ok hx]
  exact hf t ht

/-- A run fails if its second part does from where the first part ends. -/
lemma Gives.bind_fails (h : x.Gives c a d) (hf : (f a).FailsWith d e) :
    (x >>= f).FailsWith c e := by
  intro s hs
  obtain ⟨t, hx, ht⟩ := h s hs
  rw [bind_of_ok hx]
  exact hf t ht

/-- A run fails if its first part does. -/
lemma FailsWith.bind (h : x.FailsWith c e) (f : α → RunM σ τ β) : (x >>= f).FailsWith c e := by
  intro s hs
  have hfst := h s hs
  rcases hx : x.run s with ⟨e' | a, t⟩
  · rw [hx] at hfst
    rw [bind_of_error hx]
    cases hfst
    rfl
  · rw [hx] at hfst
    cases hfst

/-- Two lists of members give their results one list after the other. -/
lemma Gives.mapM_append {f : α → RunM σ τ β} {as as' : List α} {bs bs' : List β}
    (h : (as.mapM f).Gives c bs d) (h' : (as'.mapM f).Gives d bs' d') :
    ((as ++ as').mapM f).Gives c (bs ++ bs') d' := by
  rw [List.mapM_append]
  exact h.bind (h'.bind (.pure _ _))

/-- A member gives its result in front of those of the others. -/
lemma Gives.mapM_cons {f : α → RunM σ τ β} {as : List α} {bs : List β} (h : (f a).Gives c b d)
    (hs : (as.mapM f).Gives d bs d') : ((a :: as).mapM f).Gives c (b :: bs) d' := by
  rw [List.mapM_cons]
  exact h.bind (hs.bind (.pure _ _))

/-- A loop fails at a member that fails after others have succeeded. -/
lemma Gives.mapM_fails {f : α → RunM σ τ β} {as as' : List α} {bs : List β}
    (h : (as.mapM f).Gives c bs d) (ha : (f a).FailsWith d e) :
    ((as ++ a :: as').mapM f).FailsWith c e := by
  rw [List.mapM_append, List.mapM_cons]
  exact h.bind_fails ((ha.bind _).bind _)

/-- Without hooks the entering of a node without a defect leaves the state of the caller. -/
lemma reach_empty_gives {n : Node} (h : n.defect? = none) (depth : Nat) (c : σ) :
    (reach .replacing {} n depth : RunM σ τ Unit).Gives c () c := by
  rw [reach_empty h]
  exact Gives.emit _ c

end RunM

/-! ### Answering one call -/

/-- The answer to a call while calls are counted: `a` to the call with the number `k`, and the
rebuilt node to every other call. -/
def CallerM.answerAt (k : Nat) (a rebuilt : α) : CallerM Nat α := do
  let count ← get
  set (count + 1)
  return if count = k then a else rebuilt

/-- The callback for the sort of a node that answers one call with this node and keeps the nodes
otherwise. -/
def Replacers.atCall (k : Nat) : Node → Replacers Nat
  | .op a => { onOp := some fun _ rebuilt => CallerM.answerAt k a rebuilt }
  | .expr a => { onExpr := some fun _ rebuilt => CallerM.answerAt k a rebuilt }

namespace Replacers

variable {k c : Nat} {n m p a : Node} {l : Link} {π : Place} {results : List Node} {e : RunError}

/-- There are no hooks besides the callback that answers one call. -/
lemma toHooks_atCall (k : Nat) (a : Node) : (atCall k a).toHooks = {} := by
  cases a <;> rfl

/-- A call is counted, and answered with the given node if its number has come. -/
lemma answerAt_gives (k : Nat) (a rebuilt : α) (c : Nat) :
    (RunM.call (CallerM.answerAt k a rebuilt) : RunM Nat τ α).Gives c
      (if c = k then a else rebuilt) (c + 1) := by
  rintro s rfl
  exact ⟨_, rfl, rfl⟩

/-- An operator that is rebuilt without a defect is answered for and closed. -/
lemma finish_op {r : Replacers σ} {o : Op}
    (h : ((Node.op o).over results).defect? = none) :
    (r.finish (.op o) results : RunM σ τ Node) = do
      let result ← answer r.onOp o
        (o.over (results.filterMap Node.op?) (results.filterMap Node.expr?))
      RunM.close r.toHooks o
      return .op result := by
  change (Node.op (o.over _ _)).defect? = none at h
  rw [finish, RunM.checkNode_of_none h]
  rfl

/-- Leaving a node of the other sort. -/
lemma finish_other (hsort : n.sort ≠ a.sort) (h : (n.over results).defect? = none) :
    ((atCall k a).finish n results : RunM Nat τ Node).Gives c (n.over results) c := by
  cases n with
  | op o =>
    cases a with
    | op a => exact absurd rfl hsort
    | expr a =>
      rw [finish_op h, toHooks_atCall]
      simp only [RunM.close_empty, pure_bind]
      exact .pure _ c
  | expr x =>
    cases a with
    | op a => exact .pure _ c
    | expr a => exact absurd rfl hsort

/-- Leaving a node of the sort whose calls are counted. -/
lemma finish_own (hsort : n.sort = a.sort) (h : (n.over results).defect? = none) :
    ((atCall k a).finish n results : RunM Nat τ Node).Gives c
      (if c = k then a else n.over results) (c + 1) := by
  cases n with
  | op o =>
    cases a with
    | op a =>
      rw [finish_op h, toHooks_atCall]
      simp only [RunM.close_empty, pure_bind]
      rw [Node.over, ← apply_ite Node.op]
      exact (answerAt_gives k a _ c).bind (.pure _ _)
    | expr a => exact absurd hsort Node.sort_op_ne_sort_expr
  | expr x =>
    cases a with
    | op a => exact absurd hsort.symm Node.sort_op_ne_sort_expr
    | expr a =>
      rw [finish, Node.over, ← apply_ite Node.expr]
      exact (answerAt_gives k a _ c).bind (.pure _ _)

/-- Leaving an operator that is defective once it is rebuilt. -/
lemma finish_refused {r : Replacers σ} {o : Op} {d : Defect}
    (h : ((Node.op o).over results).defect? = some d) (s : Session σ τ) :
    (r.finish (.op o) results).run s =
      (.error d.error, { s with log := s.log.push (.defective d) }) := by
  change (Node.op (o.over _ _)).defect? = some d at h
  rw [finish, RunM.checkNode]
  simp only [h]
  rfl

/-- Leaving a node at the call with the number. -/
lemma finish_answered {b : Node} (hover : n.over results = b) (h : b.defect? = none)
    (hsort : n.sort = a.sort) :
    ((atCall k a).finish n results : RunM Nat τ Node).Gives k a (k + 1) := by
  have hfinish := finish_own (τ := τ) (k := k) (c := k) hsort (hover ▸ h)
  rw [if_pos rfl] at hfinish
  exact hfinish

/-- Leaving a node at another call, or at none. -/
lemma finish_kept {b : Node} (hover : n.over results = b) (h : b.defect? = none)
    (hk : n.sort = a.sort → c ≠ k) :
    ((atCall k a).finish n results : RunM Nat τ Node).Gives c b
      (c + if n.sort = a.sort then 1 else 0) := by
  cases hover
  by_cases hsort : n.sort = a.sort
  · have hfinish := finish_own (τ := τ) (k := k) (c := c) hsort h
    rw [if_neg (hk hsort)] at hfinish
    rw [if_pos hsort]
    exact hfinish
  · rw [if_neg hsort]
    exact finish_other hsort h

/-! ### Runs beside and along the path -/

/-- How a run goes through a node without a defect. -/
lemma rewrite_gives {depth d d' : Nat} (hn : n.defect? = none)
    (hparts : (n.parts.mapM ((atCall k a).rewrite .unbounded (depth + 1)) :
      RunM Nat τ (List Node)).Gives c results d)
    (hfinish : ((atCall k a).finish n results : RunM Nat τ Node).Gives d m d') :
    ((atCall k a).rewrite .unbounded depth n : RunM Nat τ Node).Gives c m d' := by
  rw [rewrite_eq, toHooks_atCall]
  refine (RunM.Gives.pure () c).bind ?_
  exact (RunM.reach_empty_gives hn depth c).bind (hparts.bind hfinish)

/-- A node without a defect fails to be rewritten where its parts or its rebuilding fail. -/
lemma rewrite_fails {depth : Nat} (hn : n.defect? = none)
    (h : (n.parts.mapM ((atCall k a).rewrite .unbounded (depth + 1)) >>=
      (atCall k a).finish n : RunM Nat τ Node).FailsWith c e) :
    ((atCall k a).rewrite .unbounded depth n : RunM Nat τ Node).FailsWith c e := by
  rw [rewrite_eq, toHooks_atCall]
  refine (RunM.Gives.pure () c).bind_fails ?_
  exact (RunM.reach_empty_gives hn depth c).bind_fails h

/-- Parts that are kept one by one are kept. -/
lemma mapM_kept {f : Node → RunM Nat τ Node} {ps : List Node} {sort : String}
    (h : ∀ p ∈ ps, ∀ c, k < c ∨ c + p.count sort ≤ k → (f p).Gives c p (c + p.count sort))
    (hk : k < c ∨ c + total (ps.map (·.count sort)) ≤ k) :
    (ps.mapM f).Gives c ps (c + total (ps.map (·.count sort))) := by
  induction ps generalizing c with
  | nil => exact .pure [] c
  | cons p ps ih =>
    rw [List.map_cons, total_cons, ← Nat.add_assoc] at hk ⊢
    refine (h p (.head _) c (by omega)).mapM_cons ?_
    exact ih (fun q hq => h q (.tail _ hq)) (by omega)

/-- A tree stays as it is if the call with the number comes before or after. -/
lemma rewrite_untouched (hn : n.WellFormed) (depth : Nat)
    (hk : k < c ∨ c + n.count a.sort ≤ k) :
    ((atCall k a).rewrite .unbounded depth n : RunM Nat τ Node).Gives c n
      (c + n.count a.sort) := by
  induction n using Node.inductionOnParts generalizing c depth with
  | step n ih =>
    obtain ⟨hdefect, hwf⟩ := Node.wellFormed_iff_parts.1 hn
    rw [Node.count_eq, ← Nat.add_assoc] at hk ⊢
    have hparts := mapM_kept (τ := τ) (k := k) (c := c)
      (fun p hp c hk => ih p hp (hwf p hp) (depth + 1) hk) (by omega)
    refine rewrite_gives hdefect hparts (finish_kept n.over_parts hdefect fun hsort => ?_)
    rw [if_pos hsort] at hk
    omega

/-- Trees are kept if the number of the call has passed already or is not reached in them. -/
lemma mapM_untouched {ps : List Node} (hps : ∀ p ∈ ps, p.WellFormed) (depth : Nat)
    (hk : k < c ∨ c + total (ps.map (·.count a.sort)) ≤ k) :
    (ps.mapM ((atCall k a).rewrite .unbounded depth) : RunM Nat τ (List Node)).Gives c ps
      (c + total (ps.map (·.count a.sort))) :=
  mapM_kept (fun p hp _ hk => rewrite_untouched (hps p hp) depth hk) hk

/-- Among the parts of a node only the one with the call in it gets another result. -/
lemma parts_touched {first rest : List (Link × Node)} {q : Node} {i depth : Nat}
    (hn : n.WellFormed) (hsplit : n.branches = first ++ (l, p) :: rest)
    (hi : (p.ofSort a.sort)[i]? = some (π, m))
    (hk : k = c + total ((first.map Prod.snd).map (·.count a.sort)) + i)
    (hp : ((atCall k a).rewrite .unbounded depth p : RunM Nat τ Node).Gives
      (c + total ((first.map Prod.snd).map (·.count a.sort))) q
      (c + total ((first.map Prod.snd).map (·.count a.sort)) + p.count a.sort)) :
    (n.parts.mapM ((atCall k a).rewrite .unbounded depth) : RunM Nat τ (List Node)).Gives c
      (first.map Prod.snd ++ q :: rest.map Prod.snd)
      (c + total (n.parts.map (·.count a.sort))) := by
  obtain ⟨-, hwf⟩ := Node.wellFormed_iff_parts.1 hn
  have hlt : i < p.count a.sort := (List.getElem?_eq_some_iff.1 hi).1
  rw [← n.map_snd_branches, hsplit, List.map_append, List.map_cons] at hwf ⊢
  obtain ⟨hfirst, hrest⟩ := List.forall_mem_append.1 hwf
  rw [List.map_append, List.map_cons, total_append, total_cons, ← Nat.add_assoc, ← Nat.add_assoc]
  refine (mapM_untouched hfirst depth ?_).mapM_append (hp.mapM_cons ?_)
  · exact .inr (hk ▸ Nat.le_add_right _ _)
  · exact mapM_untouched (List.forall_mem_cons.1 hrest).2 depth (.inl (by omega))

/-- The run puts the node at the place of the call and keeps the tree otherwise. -/
lemma rewrite_touched {j : Nat} (hn : n.WellFormed)
    (hj : (n.ofSort a.sort)[j]? = some (π, m))
    (hagg : ∀ v, n.BindsAggregate v π → a.isAggregate = true) (hk : k = c + j) (depth : Nat) :
    ((atCall k a).rewrite .unbounded depth n : RunM Nat τ Node).Gives c (n.replaceAt a π)
      (c + n.count a.sort) := by
  induction π generalizing n c j depth with
  | nil =>
    obtain ⟨hm, hsort⟩ := Node.mem_ofSort.1 (List.mem_of_getElem? hj)
    cases hm
    cases Node.ofSort_inj hj (Node.getElem?_ofSort_nil hsort)
    obtain ⟨hdefect, hwf⟩ := Node.wellFormed_iff_parts.1 hn
    rw [Node.count_eq, if_pos hsort, ← Nat.add_assoc, ← hk]
    refine rewrite_gives hdefect (mapM_untouched hwf _ (.inr (Nat.le_of_eq hk.symm))) ?_
    rw [← hk]
    exact finish_answered m.over_parts hdefect hsort
  | cons l π ih =>
    obtain ⟨hm, hsort⟩ := Node.mem_ofSort.1 (List.mem_of_getElem? hj)
    obtain ⟨p, hp, hm⟩ := Node.at?_cons_eq_some.1 hm
    obtain ⟨first, rest, i, hsplit, hi, rfl⟩ := Node.number_part hp hj
    obtain ⟨hdefect, -⟩ := Node.wellFormed_iff_parts.1 hn
    rw [← Nat.add_assoc] at hk
    have hbelow := ih (hn.part hp) hi (fun v hv => hagg v (.part hp hv)) hk (depth + 1)
    have hparts := parts_touched hn hsplit hi hk hbelow
    have hover := Node.over_setPart hsplit (Node.sort_replaceAt hm hsort.symm)
    have hdefect' := Node.defect?_setPart_replaceAt hdefect hp hm hsort.symm hagg
    rw [Node.replaceAt_cons hp, Node.count_eq, ← Nat.add_assoc]
    refine rewrite_gives hdefect hparts (finish_kept hover hdefect' fun _ => ?_)
    -- the call was in the part, and the count has gone past it
    have hlt : i < p.count a.sort := (List.getElem?_eq_some_iff.1 hi).1
    rw [Node.total_count_parts hsplit]
    omega

/-- The run refuses a group that is to bind something else as an aggregate. -/
lemma rewrite_refused {j : Nat} {v : Var} {x : Expr} (hn : n.WellFormed)
    (hj : (n.ofSort (Node.expr x).sort)[j]? = some (π, m)) (hv : n.BindsAggregate v π)
    (hx : x.isAggregate = false) (hk : k = c + j) (depth : Nat) :
    ((atCall k (.expr x)).rewrite .unbounded depth n : RunM Nat τ Node).FailsWith c
      (Defect.notAggregate v x).error := by
  obtain ⟨hm, hsort⟩ := Node.mem_ofSort.1 (List.mem_of_getElem? hj)
  induction hv generalizing c j depth with
  | @here keys aggregates input i e hentry =>
    obtain ⟨hdefect, -⟩ := Node.wellFormed_iff_parts.1 hn
    obtain ⟨p, hp, hm⟩ := Node.at?_cons_eq_some.1 hm
    obtain ⟨first, rest, i', hsplit, hi, rfl⟩ := Node.number_part hp hj
    rw [← Nat.add_assoc] at hk
    have hbelow := rewrite_touched (τ := τ) (hn.part hp) hi (fun v hv => nomatch hv) hk (depth + 1)
    -- the part itself is replaced; it is the group over it that is refused
    refine rewrite_fails hdefect ((parts_touched hn hsplit hi hk hbelow).bind_fails ?_)
    refine fun s _ => congrArg Prod.fst (finish_refused ?_ s)
    cases hm
    rw [Node.replaceAt, Node.over_setPart hsplit hsort.symm]
    exact Node.defect?_setPart_of_not_aggregate hdefect (.here hentry) hx
  | @part n p l π hp hv ih =>
    obtain ⟨hdefect, hwf⟩ := Node.wellFormed_iff_parts.1 hn
    obtain ⟨first, rest, i, hsplit, hi, rfl⟩ := Node.number_part hp hj
    obtain ⟨hm, -⟩ := Node.mem_ofSort.1 (List.mem_of_getElem? hi)
    rw [← Nat.add_assoc] at hk
    have hbelow := ih (hn.part hp) hi hk (depth + 1) hm
    refine rewrite_fails hdefect (RunM.FailsWith.bind ?_ _)
    rw [← n.map_snd_branches, hsplit, List.map_append, List.map_cons] at hwf ⊢
    refine RunM.Gives.mapM_fails (mapM_untouched (List.forall_mem_append.1 hwf).1 _ ?_) hbelow
    exact .inr (hk ▸ Nat.le_add_right _ _)

/-! ### Rewriting a tree -/

/-- Each place where a node of the sort stands has a number, and to answer the call with this number
by `a` is to put `a` at the place; nothing else changes. Only a group that is to bind something else
as an aggregate is refused. -/
theorem tree_atCall (hn : n.Distinct) {u : Session σ Counters}
    (hwalk : ∃ x, ((({} : Visitors σ).walkTree .unbounded n).run u).1 = .ok x)
    (hm : n.at? π = some m) (ha : a.sort = m.sort) :
    (∃ k : Nat, (n.ofSort a.sort)[k]? = some (π, m)) ∧
    ∀ k, (n.ofSort a.sort)[k]? = some (π, m) → ∀ s : Session Nat τ, s.caller = 0 →
      ((∀ v e, n.BindsAggregate v π → a = .expr e → e.isAggregate = true) →
        (((atCall k a).tree .unbounded n).run s).1 = .ok (n.replaceAt a π)) ∧
      ∀ v e, n.BindsAggregate v π → a = .expr e → e.isAggregate = false →
        (((atCall k a).tree .unbounded n).run s).1 =
          .error (.malformed "group"
            ("binding " ++ v.text ++ " is not an aggregate: " ++ e.text)) := by
  have hwf := (Visitors.walkTree_ok_iff Visitors.neverFail_empty u).1 hwalk
  refine ⟨Node.exists_number hm ha.symm, fun k hk s hs => ?_⟩
  rw [tree_eq .unbounded (atCall k a) hn]
  constructor
  · intro h
    have hagg (v : Var) (hv : n.BindsAggregate v π) : a.isAggregate = true := by
      obtain ⟨x, rfl⟩ := hv.exists_expr hm
      cases a with
      | op o => exact absurd ha Node.sort_op_ne_sort_expr
      | expr e => exact h v e hv rfl
    obtain ⟨t, hrun, -⟩ := rewrite_touched (τ := τ) hwf hk hagg (Nat.zero_add k).symm 1 s hs
    rw [hrun]
  · rintro v e hv rfl he
    exact rewrite_refused hwf hk hv he (Nat.zero_add k).symm 1 s hs

/-- In a count over a table another table can stand, but nothing else in the place of the count. -/
theorem tree_atCall_countedBy :
    let n := Node.op (.countedBy ⟨"k"⟩ "T")
    let scan := Node.op (.scan "U" none)
    let var := Node.expr (.var ⟨"k"⟩)
    n.Distinct ∧
      (∃ k, ∀ s : Session Nat Unit, s.caller = 0 →
        (((atCall k scan).tree .unbounded n).run s).1 = .ok (.op (.countedBy ⟨"k"⟩ "U"))) ∧
      ∃ k, ∀ s : Session Nat Unit, s.caller = 0 →
        (((atCall k var).tree .unbounded n).run s).1 =
          .error (.malformed "group" "binding ?count is not an aggregate: ?k") := by
  intro n scan var
  have hn : n.Distinct := Op.distinct_countedBy _ _
  let u : Session Unit Counters := ⟨(), {}, #[]⟩
  have hwalk := (Visitors.walkTree_ok_iff Visitors.neverFail_empty u).2
    (Node.wellFormed_countedBy ⟨"k"⟩ "T")
  refine ⟨hn, ?_, ?_⟩
  · obtain ⟨⟨k, hk⟩, h⟩ :=
      tree_atCall (τ := Unit) (π := [⟨.children, 0⟩]) (a := scan) hn hwalk rfl rfl
    exact ⟨k, fun s hs => (h k hk s hs).1 fun _ _ _ hscan => nomatch hscan⟩
  · obtain ⟨⟨k, hk⟩, h⟩ :=
      tree_atCall (τ := Unit) (π := [⟨.exprs, 1⟩]) (a := var) hn hwalk rfl rfl
    have hbinds : n.BindsAggregate ⟨"count"⟩ [⟨.exprs, 1⟩] :=
      @Node.BindsAggregate.here _ ⟨[(⟨"k"⟩, .var ⟨"k"⟩)]⟩ _ _ 0 _ rfl
    have htext : (Expr.var ⟨"k"⟩).text = "?k" := (Node.text_eq _).trans rfl
    refine ⟨k, fun s hs => ?_⟩
    have herror := (h k hk s hs).2 ⟨"count"⟩ _ hbinds rfl rfl
    rw [htext] at herror
    exact herror

end Replacers

end QueryPlan
