import Mathlib.Data.List.Flatten
import QueryPlan.Proofs.PlacedEvents
import QueryPlan.Proofs.RecursiveWalk
import QueryPlan.Proofs.SameSchedule

/-!
# What a walk visits

The schedule of a tree is a recursion along `Node.parts`; the accessors of nodes know nothing of it.
`VisitOrder` says what a complete traversal is in terms of the accessors alone: each place that they
lead to is visited once, what is below a node before it, and what one accessor lists in the order of
its list. Since places are counted and not nodes, equal subtrees at two places are two visits.

`Node.postorder` is such a traversal, and a walk that succeeds has called the visitors along it
(`Visitors.walkTree_visits`).
-/

namespace QueryPlan

variable {σ α : Type}

/-- A traversal of the places of a tree. -/
structure VisitOrder (n : Node) (visits : List (Place × Node)) : Prop where
  /-- No place is visited twice. -/
  nodup : (visits.map Prod.fst).Nodup
  /-- The places that the accessors lead to are visited, each with the node that stands there. -/
  mem_iff : ∀ π m, (π, m) ∈ visits ↔ n.at? π = some m
  /-- What stands below a node is visited before it. -/
  below : ∀ π ρ, ρ ≠ [] → (n.at? (π ++ ρ)).isSome = true →
    [π ++ ρ, π].Sublist (visits.map Prod.fst)
  /-- What one accessor lists is visited in the order of the list. -/
  siblings : ∀ π a i j, i < j → (n.at? (π ++ [⟨a, j⟩])).isSome = true →
    [π ++ [⟨a, i⟩], π ++ [⟨a, j⟩]].Sublist (visits.map Prod.fst)

/-- The node that is visited, of an event that is a visit. -/
def Event.visited? : Event → Option Node
  | op o => some (.op o)
  | expr e => some (.expr e)
  | before _ | after _ => none

/-- There is a visitor for the sort of a node. -/
def Visitors.visits (v : Visitors σ) : Node → Bool
  | .op _ => v.onOp.isSome
  | .expr _ => v.onExpr.isSome

/-! ### The postorder of a tree -/

/-- Two members of a list are found in it in their order. -/
lemma pair_sublist {as : List α} {i j : Nat} {a b : α} (hij : i < j) (ha : as[i]? = some a)
    (hb : as[j]? = some b) : [a, b].Sublist as := by
  induction as generalizing i j with
  | nil => cases ha
  | cons c as ih =>
    cases j with
    | zero => exact absurd hij (Nat.not_lt_zero i)
    | succ j =>
      cases i with
      | zero =>
        cases ha
        have hmem : b ∈ as := List.mem_of_getElem? (i := j) hb
        exact (List.singleton_sublist.2 hmem).cons_cons a
      | succ i => exact (ih (Nat.lt_of_succ_lt_succ hij) ha hb).cons c

/-- Items that are moved stay a part of the others. -/
lemma beneath_sublist {xs ys : List (Place × α)} (h : xs.Sublist ys) (π : Place) :
    (beneath π xs).Sublist (beneath π ys) :=
  h.map _

namespace Node

variable {n m p q : Node} {π : Place}

/-- The branches to what an accessor lists are in the order of the list. -/
lemma branches_sublist {a : Accessor} {i j : Nat} (hij : i < j) (hp : n.partAt? ⟨a, i⟩ = some p)
    (hq : n.partAt? ⟨a, j⟩ = some q) : [(⟨a, i⟩, p), (⟨a, j⟩, q)].Sublist n.branches := by
  let link (x : Node × Nat) : Link × Node := (⟨a, x.2⟩, x.1)
  have hlink {k : Nat} {k' : Node} (h : n.partAt? ⟨a, k⟩ = some k') :
      ((n.access a).zipIdx.map link)[k]? = some (⟨a, k⟩, k') := by
    rw [partAt?] at h
    rw [List.getElem?_map, List.getElem?_zipIdx, h, Nat.zero_add]
    rfl
  have ha : [a].Sublist n.accessors :=
    List.singleton_sublist.2 (mem_accessors (List.mem_of_getElem? hp))
  have hbranches := ha.flatMap fun a => (n.access a).zipIdx.map fun x => (Link.mk a x.2, x.1)
  rw [List.flatMap_singleton] at hbranches
  exact (pair_sublist hij (hlink hp) (hlink hq)).trans hbranches

/-- The subtree at a place is visited in one piece. -/
lemma postorder_sublist (h : n.at? π = some m) :
    (beneath π m.postorder).Sublist n.postorder := by
  obtain ⟨before, after, hcut⟩ := exists_cut (fun _ => []) (fun m => [m]) h
  have hpostorder : n.postorder = before ++ beneath π m.postorder ++ after := hcut.eq
  rw [hpostorder]
  exact (List.sublist_append_right before _).trans (List.sublist_append_left _ after)

/-- Of two parts that one accessor lists the first one is visited first. -/
lemma parts_sublist_postorder {a : Accessor} {i j : Nat} (hij : i < j)
    (hp : n.partAt? ⟨a, i⟩ = some p) (hq : n.partAt? ⟨a, j⟩ = some q) :
    [([⟨a, i⟩], p), ([⟨a, j⟩], q)].Sublist n.postorder := by
  have hlast (l : Link) (k : Node) : [([l], k)].Sublist (beneath [l] k.postorder) := by
    rw [List.singleton_sublist, mem_beneath]
    exact ⟨[], mem_postorder.2 k.at?_nil, rfl⟩
  have hbranches := (branches_sublist hij hp hq).flatMap fun b => beneath [b.1] b.2.postorder
  rw [List.flatMap_cons, List.flatMap_singleton] at hbranches
  rw [postorder_eq n]
  have hpair := (hlast ⟨a, i⟩ p).append (hlast ⟨a, j⟩ q)
  exact (hpair.trans hbranches).trans (List.sublist_append_left _ _)

/-- The postorder of a tree is a complete traversal. -/
lemma visitOrder_postorder (n : Node) : VisitOrder n n.postorder where
  nodup := n.nodup_postorder
  mem_iff _ _ := mem_postorder
  below := by
    intro π ρ hρ h
    obtain ⟨k, hk⟩ := Option.isSome_iff_exists.1 h
    rw [at?_append, Option.bind_eq_some_iff] at hk
    obtain ⟨m, hm, hk⟩ := hk
    have hmem : (ρ, k) ∈ m.branches.flatMap (fun b => beneath [b.1] b.2.postorder) := by
      have hmem := mem_postorder.2 hk
      rw [postorder_eq, List.mem_append, List.mem_singleton, Prod.mk.injEq] at hmem
      exact hmem.resolve_right fun heq => hρ heq.1
    -- the node comes last in its own subtree
    have hpair : [(ρ, k), ([], m)].Sublist m.postorder := by
      rw [postorder_eq]
      exact (List.singleton_sublist.2 hmem).append (List.Sublist.refl [([], m)])
    have hsub := ((beneath_sublist hpair π).trans (postorder_sublist hm)).map Prod.fst
    simpa only [beneath, List.map_cons, List.map_nil, List.append_nil] using hsub
  siblings := by
    intro π a i j hij h
    obtain ⟨q, hq⟩ := Option.isSome_iff_exists.1 h
    rw [at?_append, Option.bind_eq_some_iff] at hq
    obtain ⟨m, hm, hq⟩ := hq
    obtain ⟨q, hq, -⟩ := at?_cons_eq_some.1 hq
    obtain ⟨hlt, -⟩ := List.getElem?_eq_some_iff.1 hq
    have hp : m.partAt? ⟨a, i⟩ = some (m.access a)[i] := List.getElem?_eq_getElem (hij.trans hlt)
    have hpair := parts_sublist_postorder hij hp hq
    exact ((beneath_sublist hpair π).trans (postorder_sublist hm)).map Prod.fst

/-- No event before the parts of a node is a visit. -/
lemma filterMap_visited?_opening (n : Node) : n.opening.filterMap Event.visited? = [] := by
  cases n with
  | op o => by_cases ho : o.isComposite = true <;> simp [opening, ho, Event.visited?]
  | expr e => rfl

/-- Of the events after the parts of a node one is a visit, that of the node. -/
lemma filterMap_visited?_closing (n : Node) : n.closing.filterMap Event.visited? = [n] := by
  cases n with
  | op o => by_cases ho : o.isComposite = true <;> simp [closing, ho, Event.visited?]
  | expr e => rfl

/-- Among the events of a tree the visits are its postorder. -/
lemma filterMap_visited?_events (n : Node) :
    n.events.filterMap Event.visited? = n.postorder.map Prod.snd := by
  induction n using inductionOnParts with
  | step n ih =>
    rw [n.events_eq, postorder, map_snd_tour, List.filterMap_append, List.filterMap_append,
      filterMap_visited?_opening, filterMap_visited?_closing, List.filterMap_flatMap]
    congr 2
    exact List.flatMap_congr ih

end Node

/-! ### Visits of walks -/

/-- Of the visits those are heard for whose sort there is a visitor. -/
lemma Visitors.filterMap_visited?_filter (v : Visitors σ) (events : List Event) :
    (events.filter v.hears).filterMap Event.visited? =
      (events.filterMap Event.visited?).filter v.visits := by
  rw [List.filterMap_filter, List.filter_filterMap]
  refine List.filterMap_congr fun e _ => ?_
  cases e with
  | before o | after o => exact ite_self none
  | op o | expr e => rfl

/-- A walk that succeeds has called the visitors for the places of the tree, one call for each, in
the order of a traversal. -/
theorem Visitors.walkTree_visits (config : Config) (n : Node) (v : Visitors σ)
    (s : Session (Recorded σ) Counters)
    (h : ((v.walkTree config n).run s.forget).1 = .ok ()) :
    ∃ calls visits,
      ((v.recorded.walkTree config n).run s).2.caller.calls = s.caller.calls ++ calls ∧
      VisitOrder n visits ∧
      calls.filterMap (·.event.visited?) = (visits.map Prod.snd).filter v.visits := by
  obtain ⟨c, hc, hwalk⟩ := v.walkTree_follows config n s
  have hcOf := hc.of_events fun step c (h : c = _) => h ▸ step.course_of config v.hears
  rw [n.flatMap_events_steps] at hcOf
  obtain ⟨calls, hcalls, hscheduled⟩ := hwalk.scheduled (v.walkTree_recorded config n) hcOf
  refine ⟨calls, n.postorder, hcalls, n.visitOrder_postorder, ?_⟩
  calc
    calls.filterMap (·.event.visited?) = (calls.map (·.event)).filterMap Event.visited? := by
      rw [List.filterMap_map]
      rfl
    _ = (n.events.filter v.hears).filterMap Event.visited? := by rw [hscheduled.whole () h]
    _ = (n.postorder.map Prod.snd).filter v.visits := by
      rw [v.filterMap_visited?_filter, n.filterMap_visited?_events]

/-- Two scans of one table below a union are two visits. -/
theorem Visitors.counting_visits_both_scans :
    let n := Node.op (.union (.scan "T" none) (.scan "T" none))
    ((counting.walkTree {} n).run ⟨0, {}, #[]⟩).1 = .ok () ∧
      ∃ calls visits,
        ((counting.recorded.walkTree {} n).run ⟨⟨0, []⟩, {}, #[]⟩).2.caller.calls = calls ∧
        VisitOrder n visits ∧ calls.filterMap (·.event.visited?) = visits.map Prod.snd := by
  intro n
  have hok : ((counting.walkTree {} n).run ⟨0, {}, #[]⟩).1 = .ok () := by
    rw [walkTree, drain_enter, ← visit_eq_forM]
    rfl
  obtain ⟨calls, visits, hcalls, horder, hvisits⟩ :=
    walkTree_visits {} n counting ⟨⟨0, []⟩, {}, #[]⟩ hok
  refine ⟨hok, calls, visits, hcalls, horder, ?_⟩
  rw [hvisits, List.filter_eq_self]
  rintro (_ | _) _ <;> rfl

end QueryPlan
