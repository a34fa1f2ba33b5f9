import QueryPlan.Proofs.PlacedEvents
import QueryPlan.Proofs.SameSchedule

/-!
# Open scopes

The hooks of a run open and close scopes. `openScopes` tells from the events so far which scopes are
open; it knows nothing of the tree. `Nested` says that at every event these are the composite
operators on the way from the root to the node of the event, so a caller who keeps a stack in the
hooks always knows where in the plan a run is, also when the run fails later.

For whole trees this is `Node.replays_placed`, by induction on the tree from any scopes that are
open already. What a run fires is the beginning of what the tree has, without the events that nobody
hears of, and those open and close nothing.
-/

namespace QueryPlan

variable {σ ρ τ α : Type}

/-! ### Scopes of a tree and scopes of a run -/

/-- The operator, of a node that opens a scope. -/
def Node.scope? : Node → Option Op
  | op o => if o.isComposite then some o else none
  | expr _ => none

/-- The scopes of the nodes at some places. -/
def Node.scopes (n : Node) (places : List Place) : List (Place × Op) :=
  places.filterMap fun π => ((n.at? π).bind scope?).map (π, ·)

/-- The composite operators above a place, the outermost first. -/
def Node.scopesAbove (n : Node) (π : Place) : List (Place × Op) := n.scopes π.inits.dropLast

/-- The composite operators on the way to a place, the one at the place included. -/
def Node.scopesTo (n : Node) (π : Place) : List (Place × Op) := n.scopes π.inits

/-- What an event makes of the scopes that are open. -/
def Event.replay (scopes : List (Place × Op)) : Place × Event → List (Place × Op)
  | (π, before o) => scopes ++ [(π, o)]
  | (_, after _) => scopes.dropLast
  | _ => scopes

/-- The scopes that were opened by some events and are not closed yet, the outermost first. -/
def openScopes (events : List (Place × Event)) : List (Place × Op) :=
  events.foldl Event.replay []

/-- At every event the open scopes are the composite operators on the way to its node. -/
structure Nested (n : Node) (fired : List (Place × Event)) : Prop where
  /-- The node of an event stands at its place. -/
  placed : ∀ x ∈ fired, n.at? x.1 = some x.2.node
  /-- Only composite operators have scopes. -/
  composite : ∀ π o, (π, .before o) ∈ fired ∨ (π, .after o) ∈ fired → o.isComposite = true
  /-- A scope is opened inside those of the operators above. -/
  opens : ∀ first π o rest, fired = first ++ (π, .before o) :: rest →
    openScopes first = n.scopesAbove π
  /-- A leaf operator or an expression is visited in the scopes of the operators above. -/
  leaf : ∀ first π e rest, fired = first ++ (π, e) :: rest → e.node.isComposite = false →
    openScopes first = n.scopesAbove π
  /-- A composite operator is visited in its own scope. -/
  inside : ∀ first π o rest, fired = first ++ (π, .op o) :: rest → o.isComposite = true →
    openScopes first = n.scopesAbove π ++ [(π, o)]
  /-- The scope that is closed was opened last, by the same operator at the same place. -/
  closes : ∀ first π o rest, fired = first ++ (π, .after o) :: rest →
    openScopes first = n.scopesAbove π ++ [(π, o)]

/-! ### Scopes on the way to a place -/

/-- The places on the way to a part are those to the node and the place of the part. -/
lemma inits_concat (π : Place) (l : Link) : (π ++ [l]).inits = π.inits ++ [π ++ [l]] := by
  rw [List.inits_append]
  rfl

namespace Node

variable {n m : Node} {π : Place}

/-- Above a part are the scopes on the way to its node. -/
lemma scopesAbove_concat (n : Node) (π : Place) (l : Link) :
    n.scopesAbove (π ++ [l]) = n.scopesTo π := by
  rw [scopesAbove, inits_concat, List.dropLast_concat, scopesTo]

/-- The scopes on the way to a node are those above it and its own. -/
lemma scopesTo_eq (h : n.at? π = some m) :
    n.scopesTo π = n.scopesAbove π ++ (m.scope?.map (π, ·)).toList := by
  have hsingle : n.scopes [π] = (m.scope?.map (π, ·)).toList := by
    rw [scopes, List.filterMap_cons, List.filterMap_nil, h, Option.bind_some]
    rcases m.scope? with _ | o <;> rfl
  have hinits : π.inits = π.inits.dropLast ++ [π] := by
    rcases List.eq_nil_or_concat π with rfl | ⟨ρ, l, rfl⟩
    · rfl
    · rw [List.concat_eq_append, inits_concat, List.dropLast_concat]
  rw [scopesTo, scopesAbove, ← hsingle]
  conv_lhs => rw [hinits]
  exact List.filterMap_append

/-- A composite operator is the last scope on the way to itself. -/
lemma scopesTo_of_composite {o : Op} (h : n.at? π = some (.op o)) (ho : o.isComposite = true) :
    n.scopesTo π = n.scopesAbove π ++ [(π, o)] := by
  rw [scopesTo_eq h, scope?, if_pos ho]
  rfl

/-- A node that opens no scope has those above it on its way. -/
lemma scopesTo_of_leaf (h : n.at? π = some m) (hm : m.isComposite = false) :
    n.scopesTo π = n.scopesAbove π := by
  have hscope : m.scope? = none := by
    cases m with
    | op o => exact if_neg (ne_true_of_eq_false hm)
    | expr e => rfl
  rw [scopesTo_eq h, hscope]
  exact List.append_nil _

/-- The scopes that are open at an event of a tree. -/
def scopesAt (n : Node) : Place × Event → List (Place × Op)
  | (π, .before _) => n.scopesAbove π
  | (π, _) => n.scopesTo π

end Node

/-! ### Replaying events -/

/-- The scopes that are open before each of some events. -/
def scopesAlong : List (Place × Op) → List (Place × Event) → List (List (Place × Op))
  | _, [] => []
  | scopes, x :: events => scopes :: scopesAlong (Event.replay scopes x) events

/-- Some events, replayed with some scopes open, come where the scopes `f` are open, and leave the
scopes `last`. -/
structure Replays (f : Place × Event → List (Place × Op)) (scopes : List (Place × Op))
    (events : List (Place × Event)) (last : List (Place × Op)) : Prop where
  along : scopesAlong scopes events = events.map f
  last : events.foldl Event.replay scopes = last

variable {f : Place × Event → List (Place × Op)} {scopes inner last : List (Place × Op)}
  {first rest events : List (Place × Event)} {x : Place × Event}

/-- Along two lists of events the second one starts with what the first one leaves open. -/
lemma scopesAlong_append (scopes : List (Place × Op)) (first rest : List (Place × Event)) :
    scopesAlong scopes (first ++ rest) =
      scopesAlong scopes first ++ scopesAlong (first.foldl Event.replay scopes) rest := by
  induction first generalizing scopes with
  | nil => rfl
  | cons x first ih => exact congrArg (scopes :: ·) (ih _)

/-- Before each event there is one state of the scopes. -/
lemma length_scopesAlong (scopes : List (Place × Op)) (events : List (Place × Event)) :
    (scopesAlong scopes events).length = events.length := by
  induction events generalizing scopes with
  | nil => rfl
  | cons x events ih => exact congrArg (· + 1) (ih _)

namespace Replays

/-- Without events the scopes stay as they are. -/
lemma nil : Replays f scopes [] scopes :=
  ⟨rfl, rfl⟩

/-- An event comes where the right scopes are open, and the others come after what it leaves. -/
lemma cons (hx : scopes = f x) (h : Replays f (Event.replay scopes x) events last) :
    Replays f scopes (x :: events) last :=
  ⟨congrArg₂ List.cons hx h.along, h.last⟩

/-- Two lists of events are replayed one after the other. -/
lemma append (h : Replays f scopes first inner) (h' : Replays f inner rest last) :
    Replays f scopes (first ++ rest) last := by
  constructor
  · rw [scopesAlong_append, h.last, h.along, h'.along, List.map_append]
  · rw [List.foldl_append, h.last, h'.last]

/-- What is opened in each of some parts is closed there. -/
lemma flatMap {g : α → List (Place × Event)} {as : List α}
    (h : ∀ a ∈ as, Replays f scopes (g a) scopes) : Replays f scopes (as.flatMap g) scopes := by
  induction as with
  | nil => exact nil
  | cons a as ih =>
    rw [List.flatMap_cons]
    exact (h a (.head _)).append (ih fun b hb => h b (.tail _ hb))

/-- At each event of a replay the right scopes are open. -/
lemma split (h : Replays f scopes (first ++ x :: rest) last) :
    first.foldl Event.replay scopes = f x := by
  have halong := h.along
  rw [scopesAlong_append, List.map_append] at halong
  -- the events before `x` have as many scopes on each side, so those at `x` stand opposite
  have hlength : (scopesAlong scopes first).length = (first.map f).length := by
    rw [length_scopesAlong, List.length_map]
  exact (List.cons.inj (List.append_inj halong hlength).2).1

end Replays

namespace Node

variable {root n : Node}

/-- The opening of a node comes inside the scopes above it and leaves its own open as well. -/
lemma replays_opening {κ : Place} (h : root.at? κ = some n) :
    Replays root.scopesAt (root.scopesAbove κ) (n.opening.map (κ, ·)) (root.scopesTo κ) := by
  cases n with
  | op o =>
    by_cases ho : o.isComposite = true
    · rw [opening, if_pos ho, scopesTo_of_composite h ho]
      exact .cons rfl .nil
    · rw [opening, if_neg ho, scopesTo_of_leaf h (eq_false_of_ne_true ho)]
      exact .nil
  | expr e =>
    rw [scopesTo_of_leaf h rfl]
    exact .nil

/-- The closing of a node comes inside its own scope and leaves those above it. -/
lemma replays_closing {κ : Place} (h : root.at? κ = some n) :
    Replays root.scopesAt (root.scopesTo κ) (n.closing.map (κ, ·)) (root.scopesAbove κ) := by
  cases n with
  | op o =>
    by_cases ho : o.isComposite = true
    · rw [closing, if_pos ho]
      refine .cons rfl (.cons rfl ⟨rfl, ?_⟩)
      change (root.scopesTo κ).dropLast = _
      rw [scopesTo_of_composite h ho, List.dropLast_concat]
    · rw [closing, if_neg ho]
      refine .cons rfl ⟨rfl, ?_⟩
      exact scopesTo_of_leaf h (eq_false_of_ne_true ho)
  | expr e => exact .cons rfl ⟨rfl, scopesTo_of_leaf h rfl⟩

/-- The events of the subtree at a place come where the scopes on the way to their nodes are open,
and leave those above the place. -/
theorem replays_placed {κ : Place} (h : root.at? κ = some n) :
    Replays root.scopesAt (root.scopesAbove κ) (beneath κ n.placed) (root.scopesAbove κ) := by
  induction n using inductionOnParts generalizing κ with
  | step n ih =>
    -- each part leaves open what it finds, the scope of `n` and those above
    have hparts : Replays root.scopesAt (root.scopesTo κ)
        (n.branches.flatMap fun b => beneath (κ ++ [b.1]) b.2.placed) (root.scopesTo κ) := by
      refine Replays.flatMap fun b hb => ?_
      have hpart : root.at? (κ ++ [b.1]) = some b.2 := by
        rw [at?_append, h]
        exact at?_cons_eq_some.2 ⟨b.2, mem_branches.1 hb, rfl⟩
      rw [← scopesAbove_concat root κ b.1]
      exact ih b.2 (mem_parts_of_mem_branches hb) hpart
    rw [placed, beneath_tour_eq]
    exact ((replays_opening h).append hparts).append (replays_closing h)

/-- The events of a tree are nested, and leave no scope open. -/
lemma replays_events (n : Node) : Replays n.scopesAt [] n.placed [] := by
  have h : Replays n.scopesAt (n.scopesAbove []) (beneath [] n.placed) (n.scopesAbove []) :=
    replays_placed n.at?_nil
  rwa [beneath_nil] at h

end Node

/-! ### Scopes of runs -/

variable {n : Node} {hears : Event → Bool} {fired : List (Place × Event)}

/-- Hooks are supplied for every scope. -/
def Hooks.Both (h : Hooks σ) : Prop := h.before.isSome = true ∧ h.after.isSome = true

/-- The events of a scope are heard. -/
structure HearsScopes (hears : Event → Bool) : Prop where
  before : ∀ o, hears (.before o) = true
  after : ∀ o, hears (.after o) = true

/-- If both hooks are supplied, the events of scopes are heard. -/
lemma Hooks.Both.hearsScopes {h : Hooks σ} (hh : h.Both) (ops exprs : Bool) :
    HearsScopes (h.hears ops exprs) :=
  ⟨fun _ => hh.1, fun _ => hh.2⟩

/-- Events that nobody hears of open and close no scope. -/
lemma HearsScopes.foldl_filter (h : HearsScopes hears) (events : List (Place × Event))
    (scopes : List (Place × Op)) :
    (events.filter (hears ·.2)).foldl Event.replay scopes = events.foldl Event.replay scopes := by
  induction events generalizing scopes with
  | nil => rfl
  | cons x events ih =>
    rw [List.foldl_cons, ← ih]
    by_cases hx : hears x.2 = true
    · rw [List.filter_cons, if_pos hx, List.foldl_cons]
    · rw [List.filter_cons, if_neg hx]
      obtain ⟨π, o | o | e | o⟩ := x
      · exact absurd (h.before o) hx
      · rfl
      · rfl
      · exact absurd (h.after o) hx

/-- At each event that a run fires the scopes are open that are open there in the tree. -/
lemma HearsScopes.openScopes_eq (h : HearsScopes hears) {first rest : List (Place × Event)}
    {x : Place × Event} (hfired : first ++ x :: rest <+: n.placed.filter (hears ·.2)) :
    openScopes first = n.scopesAt x := by
  obtain ⟨more, hmore⟩ := hfired
  rw [List.append_assoc] at hmore
  obtain ⟨before, after, hsplit, rfl, hafter⟩ := List.filter_eq_append_iff.1 hmore.symm
  obtain ⟨unheard, later, rfl, hunheard, -, -⟩ := List.filter_eq_cons_iff.1 hafter
  -- between the events before `x` that are heard and `x` come only events that are not
  have hreplays := n.replays_events
  rw [hsplit, ← List.append_assoc] at hreplays
  have hfilter : (before ++ unheard).filter (hears ·.2) = before.filter (hears ·.2) := by
    rw [List.filter_append, List.filter_eq_nil_iff.2 hunheard, List.append_nil]
  rw [← hreplays.split, openScopes, ← hfilter, h.foldl_filter]

/-- The events that a run fires first are nested if those of scopes are heard. -/
lemma HearsScopes.nested (h : HearsScopes hears) (hfired : fired <+: n.placed.filter (hears ·.2)) :
    Nested n fired := by
  have hmem : ∀ x ∈ fired, x ∈ n.placed :=
    fun x hx => List.mem_of_mem_filter (hfired.subset hx)
  have hplaced : ∀ x ∈ fired, n.at? x.1 = some x.2.node :=
    fun x hx => Node.at?_of_mem_placed (hmem x hx)
  have hcomposite : ∀ π o, (π, .before o) ∈ fired ∨ (π, .after o) ∈ fired →
      o.isComposite = true :=
    fun π o ho => Node.isComposite_of_mem_placed (ho.imp (hmem _) (hmem _))
  constructor
  · exact hplaced
  · exact hcomposite
  · rintro first π o rest rfl
    exact h.openScopes_eq hfired
  · rintro first π e rest rfl he
    have hat := hplaced _ List.mem_append_cons_self
    rw [h.openScopes_eq hfired]
    cases e with
    | before o => rfl
    | _ => exact Node.scopesTo_of_leaf hat he
  · rintro first π o rest rfl ho
    rw [h.openScopes_eq hfired]
    exact Node.scopesTo_of_composite (hplaced _ List.mem_append_cons_self) ho
  · rintro first π o rest rfl
    rw [h.openScopes_eq hfired]
    have ho := hcomposite π o (.inr List.mem_append_cons_self)
    exact Node.scopesTo_of_composite (hplaced _ List.mem_append_cons_self) ho

/-- The calls of a run are for the first events of its tree at their places, and the scopes are
nested there. -/
def CallsNested (n : Node) (hears : Event → Bool) (result : Except RunError α)
    (calls : List Call) : Prop :=
  ∃ fired, calls.map (·.event) = fired.map Prod.snd ∧
    fired <+: n.placed.filter (hears ·.2) ∧ Nested n fired ∧
    ∀ a, result = .ok a → openScopes fired = []

/-- The calls of a run are nested if the events of scopes are heard. -/
lemma Scheduled.nested {result : Except RunError α} {calls : List Call}
    (h : Scheduled (n.events.filter hears) result calls) (hhears : HearsScopes hears) :
    CallsNested n hears result calls := by
  have hplaced : n.events.filter hears = (n.placed.filter (hears ·.2)).map Prod.snd := by
    rw [← n.map_snd_placed, List.filter_map]
    rfl
  rw [hplaced] at h
  have hprefix := List.take_prefix calls.length (n.placed.filter (hears ·.2))
  refine ⟨_, ?_, hprefix, hhears.nested hprefix, fun a ha => ?_⟩
  · rw [List.map_take, List.prefix_iff_eq_take.1 h.initial, List.length_map]
  · have hlength := congrArg List.length (h.whole a ha)
    rw [List.length_map, List.length_map] at hlength
    rw [hlength, List.take_length, openScopes, hhears.foldl_filter]
    exact n.replays_events.last

/-- The scopes that hooks open and close describe, at every event of a walk and of a run that
replaces nodes, the way from the root to the node of the event, and a run that succeeds leaves no
scope open. -/
theorem scopes_describe_path (config : Config) (n : Node) (v : Visitors σ) (r : Replacers ρ)
    (hv : v.toHooks.Both) (hr : r.toHooks.Both) (s : Session (Recorded σ) Counters)
    (t : Session (Recorded ρ) τ) :
    ∃ walked replaced : List Call,
      ((v.recorded.walkTree config n).run s).2.caller.calls = s.caller.calls ++ walked ∧
      ((r.recorded.tree config n).run t).2.caller.calls = t.caller.calls ++ replaced ∧
      CallsNested n v.hears ((v.walkTree config n).run s.forget).1 walked ∧
      CallsNested n r.hears ((r.tree config n).run t.forget).1 replaced := by
  obtain ⟨c, hc, hwalk⟩ := v.walkTree_follows config n s
  obtain ⟨d, hd, htree⟩ := r.tree_follows_of config n t
  have hcOf := hc.of_events fun step c (h : c = _) => h ▸ step.course_of config v.hears
  rw [n.flatMap_events_steps] at hcOf hd
  obtain ⟨walked, hwalked, hwalkScheduled⟩ := hwalk.scheduled (v.walkTree_recorded config n) hcOf
  obtain ⟨replaced, hreplaced, htreeScheduled⟩ := htree.scheduled (r.tree_recorded config n) hd
  exact ⟨walked, replaced, hwalked, hreplaced, hwalkScheduled.nested (hv.hearsScopes _ _),
    htreeScheduled.nested (hr.hearsScopes _ _)⟩

/-- Scopes of a filter and of an operator in an existence test of it. -/
theorem counting_scopes_describe_path :
    let n := Node.op (.filter [.existence false (.distinct .empty)] .empty)
    Visitors.counting.toHooks.Both ∧ Replacers.counting.toHooks.Both ∧
      ∃ walked replaced : List Call,
        ((Visitors.counting.recorded.walkTree {} n).run ⟨⟨0, []⟩, {}, #[]⟩).2.caller.calls =
          walked ∧
        ((Replacers.counting.recorded.tree {} n).run ⟨⟨0, []⟩, (), #[]⟩).2.caller.calls =
          replaced ∧
        CallsNested n Visitors.counting.hears
          ((Visitors.counting.walkTree {} n).run ⟨0, {}, #[]⟩).1 walked ∧
        CallsNested n Replacers.counting.hears
          ((Replacers.counting.tree {} n).run (⟨0, (), #[]⟩ : Session Nat Unit)).1 replaced := by
  intro n
  have hv : Visitors.counting.toHooks.Both := ⟨rfl, rfl⟩
  have hr : Replacers.counting.toHooks.Both := ⟨rfl, rfl⟩
  exact ⟨hv, hr, scopes_describe_path {} n Visitors.counting Replacers.counting hv hr
    ⟨⟨0, []⟩, {}, #[]⟩ ⟨⟨0, []⟩, (), #[]⟩⟩

end QueryPlan
