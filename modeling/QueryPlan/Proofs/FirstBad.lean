import QueryPlan.Proofs.Answers
import QueryPlan.Proofs.PlacedEvents
import QueryPlan.Proofs.SameSchedule

/-!
# Where and why a run stops

`Node.Bad` says which nodes no run goes past, and with which error it stops there. Nodes are checked
when they are entered, each before its parts, while most events come after the parts; so a run can
stop at a node with events of many others behind it. `StopsAtFirstBad` says how the two orders fit
together: the bad node that comes first in `Node.preorder` decides, and the events before the first
one of its subtree have been fired (`Node.eventsBefore`).

A run is taken apart into turns, a node being entered or left at its place (`Node.turns`). The nodes
entered are the preorder, the events of the turns are the schedule, and both are cut where the first
turn is refused.
-/

namespace QueryPlan

variable {σ ρ τ α : Type} {config : Config}

/-- No run goes past a node at a depth, for the error given: it is too deep, whatever else is wrong
with it, or it is a function that does not accept so many arguments, or a group with a binding that
is no aggregate, the first of which is named. -/
inductive Node.Bad (config : Config) (depth : Nat) : Node → RunError → Prop where
  | tooDeep {n limit} :
    config.maxDepth = some limit →
    limit < depth →
    Bad config depth n (.tooDeep limit)
  | wrongArity {f args} :
    (∀ limit, config.maxDepth = some limit → depth ≤ limit) →
    f.arity.accepts args.length = false →
    Bad config depth (.expr (.function f args))
      (.malformed "function"
        (f.symbol ++ " expects " ++ f.arity.text ++ " arguments, got " ++ toString args.length))
  | notAggregate {keys aggregates input first v e rest} :
    (∀ limit, config.maxDepth = some limit → depth ≤ limit) →
    aggregates.entries = first ++ (v, e) :: rest →
    (∀ p ∈ first, p.2.isAggregate = true) →
    e.isAggregate = false →
    Bad config depth (.op (.group keys aggregates input))
      (.malformed "group" ("binding " ++ v.text ++ " is not an aggregate: " ++ e.text))

/-- The events of a tree before the first one of the subtree at a place. -/
def Node.eventsBefore (n : Node) (π : Place) : List (Place × Event) :=
  n.placed.takeWhile fun x => !π.isPrefixOf x.1

/-- How a run ends in which no callback fails. -/
structure StopsAtFirstBad (config : Config) (n : Node) (hears : Event → Bool)
    (result : Except RunError α) (calls : List Call) : Prop where
  /-- It succeeds exactly when no node of the tree is bad. -/
  ok_iff : (∃ a, result = .ok a) ↔
    ∀ π m e, n.at? π = some m → ¬ m.Bad config (π.length + 1) e
  /-- Then all events have been fired. -/
  whole : (∃ a, result = .ok a) → calls.map (·.event) = n.events.filter hears
  /-- Otherwise its error is that of the first bad node in preorder, and the events before those of
  the subtree of that node have been fired: the openings of the nodes entered before it, and the
  closings of those that do not stand above it. -/
  stopped : ∀ e, result = .error e →
    ∃ first π m rest, n.preorder = first ++ (π, m) :: rest ∧
      m.Bad config (π.length + 1) e ∧
      (∀ x ∈ first, ∀ e', ¬ x.2.Bad config (x.1.length + 1) e') ∧
      calls.map (·.event) = ((n.eventsBefore π).map Prod.snd).filter hears ∧
      ∀ ρ event, (ρ, event) ∈ n.eventsBefore π ↔
        ∃ k, (ρ, k) ∈ first ∧ (event ∈ k.opening ∨ event ∈ k.closing ∧ ¬ ρ <+: π)

/-! ### Bad nodes are those that the checks refuse -/

/-- A depth is refused exactly if there is a limit below it. -/
lemma Config.refusal_eq_some_iff {depth : Nat} {e : RunError} :
    config.refusal depth = some e ↔
      ∃ limit, config.maxDepth = some limit ∧ limit < depth ∧ e = .tooDeep limit := by
  rw [Config.refusal, Option.bind_eq_some_iff]
  refine exists_congr fun limit => and_congr_right fun _ => ?_
  by_cases h : limit < depth
  · rw [if_pos h, Option.some.injEq, eq_comm]
    exact (and_iff_right h).symm
  · rw [if_neg h]
    exact ⟨(fun h => nomatch h), fun h' => absurd h'.1 h⟩

/-- A depth is accepted exactly if no limit is below it. -/
lemma Config.refusal_eq_none_iff {depth : Nat} :
    config.refusal depth = none ↔ ∀ limit, config.maxDepth = some limit → depth ≤ limit := by
  rw [Option.eq_none_iff_forall_ne_some]
  constructor
  · intro h limit hlimit
    exact Nat.le_of_not_lt fun hlt => h _ (refusal_eq_some_iff.2 ⟨limit, hlimit, hlt, rfl⟩)
  · intro h e he
    obtain ⟨limit, hlimit, hlt, -⟩ := refusal_eq_some_iff.1 he
    exact Nat.not_lt_of_le (h limit hlimit) hlt

/-- A node that is not too deep passes. -/
lemma RunM.checkDepth_of_none {depth : Nat} (h : config.refusal depth = none) :
    (checkDepth config depth : RunM σ τ Unit) = pure () := by
  unfold checkDepth
  split
  · have hle := Config.refusal_eq_none_iff.1 h _ ‹_›
    rw [if_neg (Nat.not_lt_of_le hle)]
  · rfl

/-- A node that is too deep is refused, and that is logged. -/
lemma RunM.checkDepth_of_lt {depth limit : Nat} (hlimit : config.maxDepth = some limit)
    (h : limit < depth) (s : Session σ τ) :
    (checkDepth config depth : RunM σ τ Unit).run s =
      (.error (.tooDeep limit), { s with log := s.log.push (.tooDeep limit) }) := by
  rw [checkDepth, hlimit]
  dsimp only
  rw [if_pos h]
  rfl

/-- A check of the depth that succeeds has not refused it. -/
lemma RunM.refusal_of_checkDepth {depth : Nat} {s t : Session σ τ}
    (h : (checkDepth config depth : RunM σ τ Unit).run s = (.ok (), t)) :
    config.refusal depth = none := by
  apply Config.refusal_eq_none_iff.2
  intro limit hlimit
  by_contra hdepth
  rw [checkDepth_of_lt hlimit (Nat.lt_of_not_le hdepth)] at h
  cases h

/-- A node is refused for a defect, with the error of this defect. -/
lemma Node.refusal_eq_some_iff {n : Node} {e : RunError} :
    n.refusal = some e ↔ ∃ d, n.defect? = some d ∧ d.error = e :=
  Option.map_eq_some_iff

/-- The defect of a group is its first binding that is no aggregate. -/
lemma Node.defect?_group_eq_some_iff {keys aggregates : Bindings Expr} {input : Op} {d : Defect} :
    (op (.group keys aggregates input)).defect? = some d ↔
      ∃ first v x rest, aggregates.entries = first ++ (v, x) :: rest ∧
        (∀ p ∈ first, p.2.isAggregate = true) ∧ x.isAggregate = false ∧ d = .notAggregate v x := by
  change Option.map _ (aggregates.entries.find? _) = _ ↔ _
  rw [Option.map_eq_some_iff]
  constructor
  · rintro ⟨⟨v, x⟩, hfind, rfl⟩
    obtain ⟨hx, first, rest, hentries, hfirst⟩ := List.find?_eq_some_iff_append.1 hfind
    refine ⟨first, v, x, rest, hentries, fun p hp => ?_, Bool.not_eq_true' _ ▸ hx, rfl⟩
    simpa using hfirst p hp
  · rintro ⟨first, v, x, rest, hentries, hfirst, hx, rfl⟩
    refine ⟨(v, x), ?_, rfl⟩
    refine List.find?_eq_some_iff_append.2 ⟨by rw [hx]; rfl, first, rest, hentries, fun p hp => ?_⟩
    rw [hfirst p hp]
    rfl

/-- The checks refuse the bad nodes, the check of the depth first. -/
lemma Node.bad_iff {n : Node} {depth : Nat} {e : RunError} :
    n.Bad config depth e ↔ (config.refusal depth).or n.refusal = some e := by
  rw [Option.or_eq_some_iff]
  constructor
  · intro h
    cases h with
    | tooDeep hlimit hlt => exact .inl (Config.refusal_eq_some_iff.2 ⟨_, hlimit, hlt, rfl⟩)
    | @wrongArity f args hdepth harity =>
      refine .inr ⟨Config.refusal_eq_none_iff.2 hdepth, ?_⟩
      refine refusal_eq_some_iff.2 ⟨.wrongArity f args.length, ?_, rfl⟩
      change ite _ _ _ = _
      rw [harity]
      rfl
    | @notAggregate keys aggregates input first v x rest hdepth hentries hfirst hx =>
      refine .inr ⟨Config.refusal_eq_none_iff.2 hdepth, ?_⟩
      refine refusal_eq_some_iff.2 ⟨.notAggregate v x, ?_, rfl⟩
      exact defect?_group_eq_some_iff.2 ⟨first, v, x, rest, hentries, hfirst, hx, rfl⟩
  · rintro (h | ⟨hdepth, h⟩)
    · obtain ⟨limit, hlimit, hlt, rfl⟩ := Config.refusal_eq_some_iff.1 h
      exact .tooDeep hlimit hlt
    · have hdepth := Config.refusal_eq_none_iff.1 hdepth
      obtain ⟨d, hd, rfl⟩ := refusal_eq_some_iff.1 h
      rcases n with o | x
      · cases o with
        | group keys aggregates input =>
          obtain ⟨first, v, x, rest, hentries, hfirst, hx, rfl⟩ := defect?_group_eq_some_iff.1 hd
          exact .notAggregate hdepth hentries hfirst hx
        | _ => cases hd
      · cases x with
        | function f args =>
          change ite _ _ _ = _ at hd
          split at hd
          · cases hd
          · cases hd
            exact .wrongArity hdepth (eq_false_of_ne_true ‹_›)
        | _ => cases hd

/-! ### Turns -/

/-- A node is entered or left. -/
inductive Turn where
  | enter (node : Node)
  | leave (node : Node)

namespace Turn

/-- The step that is taken at a place of a tree whose top node stands at a depth. -/
def step (depth : Nat) : Place × Turn → Step
  | (π, enter m) => .enter m (depth + π.length)
  | (_, leave m) => .leave m

/-- The events of a turn. -/
def events : Turn → List Event
  | enter m => m.opening
  | leave m => m.closing

/-- The node that is entered. -/
def entered : Turn → List Node
  | enter m => [m]
  | leave _ => []

end Turn

namespace Node

/-- The turns of a tree. -/
def turns (n : Node) : List (Place × Turn) := n.tour (fun m => [.enter m]) fun m => [.leave m]

/-- Below a place the steps are as many levels deeper as the place has links. -/
lemma map_step_beneath (depth : Nat) (π : Place) (turns : List (Place × Turn)) :
    (beneath π turns).map (Turn.step depth) = turns.map (Turn.step (depth + π.length)) := by
  rw [beneath, List.map_map]
  refine List.map_congr_left fun x _ => ?_
  obtain ⟨ρ, _ | _⟩ := x
  · show Step.enter _ (depth + (π ++ ρ).length) = Step.enter _ (depth + π.length + ρ.length)
    rw [List.length_append, Nat.add_assoc]
  · rfl

/-- The steps of a tree are its turns, at the depths of their places. -/
lemma steps_eq_turns (n : Node) (depth : Nat) : n.steps depth = n.turns.map (Turn.step depth) := by
  induction n using inductionOnParts generalizing depth with
  | step n ih =>
    rw [n.steps_eq, turns, tour_eq, List.map_append, List.map_append, List.map_flatMap,
      ← n.map_snd_branches, List.flatMap_map]
    congr 2
    refine List.flatMap_congr fun b hb => ?_
    rw [ih _ (mem_parts_of_mem_branches hb)]
    exact (map_step_beneath depth [b.1] _).symm

/-- The events of the turns of a tree are its events, each at its place. -/
lemma flatMap_events_turns (n : Node) :
    n.turns.flatMap (fun x => x.2.events.map (x.1, ·)) = n.placed := by
  rw [turns, flatMap_tour]
  simp only [List.flatMap_singleton, Turn.events]
  rfl

/-- The nodes that the turns of a tree enter are its nodes in preorder. -/
lemma flatMap_entered_turns (n : Node) :
    n.turns.flatMap (fun x => x.2.entered.map (x.1, ·)) = n.preorder := by
  rw [turns, flatMap_tour]
  simp only [List.flatMap_singleton, Turn.entered]
  rfl

/-- No turn of a tree comes twice. -/
lemma nodup_turns (n : Node) : n.turns.Nodup := by
  refine nodup_tour (fun m => ?_) n
  rw [List.singleton_append, List.nodup_cons, List.mem_singleton]
  exact ⟨(fun h => nomatch h), List.nodup_singleton _⟩

end Node

/-! ### Courses of walks -/

variable {hears : Event → Bool} {steps first rest : List Step} {s : Step} {c : Course}

/-- Steps of which none is refused fire all their events. -/
lemma Courses.whole (h : Courses (fun s c => c = s.course config hears) steps c)
    (hsteps : ∀ s ∈ steps, s.refusal config = none) :
    c = ⟨(steps.flatMap Step.events).filter hears, none⟩ := by
  induction h with
  | nil => rfl
  | @cons s steps c d hc _ ih =>
    obtain ⟨hs, hsteps⟩ := List.forall_mem_cons.1 hsteps
    rw [hc, ih hsteps, Step.course_eq, hs, List.flatMap_cons, List.filter_append]
    rfl

/-- Steps fire the events in front of the first one that is refused, and stop with its error. -/
lemma Courses.stopped {e : RunError}
    (h : Courses (fun s c => c = s.course config hears) (first ++ s :: rest) c)
    (hfirst : ∀ s ∈ first, s.refusal config = none) (hs : s.refusal config = some e) :
    c = ⟨(first.flatMap Step.events).filter hears, some e⟩ := by
  induction first generalizing c with
  | nil =>
    cases h with
    | cons hc _ =>
      rw [hc, Step.course_eq, hs]
      rfl
  | cons s' first ih =>
    cases h with
    | cons hc hrest =>
      obtain ⟨hs', hfirst⟩ := List.forall_mem_cons.1 hfirst
      rw [hc, ih hrest hfirst, Step.course_eq, hs', List.flatMap_cons, List.filter_append]
      rfl

/-! ### The first turn that is refused -/

namespace Node

variable {n m : Node} {π : Place} {first rest : List (Place × Turn)}

/-- The turns that are refused are those that enter a bad node. -/
lemma refusal_step {x : Place × Turn} {e : RunError} :
    (Turn.step 1 x).refusal config = some e ↔
      ∃ m, x.2 = .enter m ∧ m.Bad config (x.1.length + 1) e := by
  obtain ⟨π, m | m⟩ := x
  · have hstep : Turn.step 1 (π, .enter m) = .enter m (π.length + 1) :=
      congrArg _ (Nat.add_comm 1 π.length)
    rw [hstep, Step.refusal, ← bad_iff]
    constructor
    · intro h
      exact ⟨m, rfl, h⟩
    · rintro ⟨_, heq, h⟩
      cases heq
      exact h
  · exact ⟨(fun h => nomatch h), fun ⟨_, heq, _⟩ => nomatch heq⟩

/-- A turn fires its events at every depth. -/
lemma events_step (depth : Nat) (x : Place × Turn) : (Turn.step depth x).events = x.2.events := by
  obtain ⟨π, _ | _⟩ := x <;> rfl

/-- The only node that a turn can enter is its own. -/
lemma mem_entered {x : Place × Turn} : m ∈ x.2.entered ↔ x.2 = .enter m := by
  obtain ⟨π, k | k⟩ := x
  · rw [Turn.entered, List.mem_singleton, Turn.enter.injEq, eq_comm]
  · exact ⟨(fun h => nomatch h), fun h => nomatch h⟩

/-- The turns of a tree cut at a place. -/
abbrev CutTurns (n : Node) (π : Place) (m : Node) (first after : List (Place × Turn)) : Prop :=
  Cut (fun m => [.enter m]) (fun m => [.leave m]) n π m first after

/-- A node stands where it is entered and left. -/
lemma at?_of_mem_turns (h : (π, .enter m) ∈ n.turns ∨ (π, .leave m) ∈ n.turns) :
    n.at? π = some m := by
  rcases h with h | h
  · obtain ⟨k, hk, h | h⟩ := mem_tour.1 h
    · cases List.mem_singleton.1 h
      exact hk
    · cases List.mem_singleton.1 h
  · obtain ⟨k, hk, h | h⟩ := mem_tour.1 h
    · cases List.mem_singleton.1 h
    · cases List.mem_singleton.1 h
      exact hk

/-- The turns of a tree are cut at each node that they enter. -/
lemma exists_cutTurns (h : n.turns = first ++ (π, .enter m) :: rest) :
    n.at? π = some m ∧ ∃ after, n.CutTurns π m first after := by
  have hm : n.at? π = some m := at?_of_mem_turns (.inl (h ▸ List.mem_append_cons_self))
  obtain ⟨before, after, hcut⟩ := exists_cut (fun m => [Turn.enter m]) (fun m => [.leave m]) hm
  obtain ⟨inner, hturns⟩ : ∃ inner, n.turns = before ++ (π, .enter m) :: inner := by
    have heq := hcut.eq
    rw [beneath_tour_eq, List.map_singleton, List.append_assoc, List.append_assoc,
      List.append_assoc, List.singleton_append] at heq
    exact ⟨_, heq⟩
  -- no turn comes twice, so both splits are at the same one
  have hnodup := n.nodup_turns
  rw [h, List.nodup_middle, List.nodup_cons, List.mem_append, not_or] at hnodup
  obtain ⟨⟨hfirst, hrest⟩, -⟩ := hnodup
  obtain ⟨rfl, -⟩ :=
    (List.append_cons_inj_of_notMem hfirst hrest).1 (h.symm.trans hturns)
  exact ⟨hm, after, hcut⟩

namespace CutTurns

variable {after : List (Place × Turn)}

/-- No turn in front of a cut comes again behind it. -/
lemma not_mem_after (h : n.CutTurns π m first after) {x : Place × Turn} (hx : x ∈ first) :
    x ∉ after := by
  have hnodup := n.nodup_turns
  rw [turns, h.eq, List.append_assoc, List.nodup_append'] at hnodup
  exact fun hafter => hnodup.2.2 hx (List.mem_append_right _ hafter)

/-- The nodes that have been left are those that were entered and do not stand above. -/
lemma leave_mem_iff (h : n.CutTurns π m first after) {ρ : Place} {k : Node} :
    (ρ, .leave k) ∈ first ↔ (ρ, .enter k) ∈ first ∧ ¬ ρ <+: π := by
  have hat {turn : Turn} (hturn : (ρ, turn) ∈ first)
      (hk : turn ∈ [Turn.enter k] ∨ turn ∈ [Turn.leave k]) : n.at? ρ = some k := by
    have hmem : (ρ, turn) ∈ n.turns := by
      rw [turns, h.eq, List.append_assoc]
      exact List.mem_append_left _ hturn
    simp only [List.mem_singleton] at hk
    rcases hk with rfl | rfl
    · exact at?_of_mem_turns (.inl hmem)
    · exact at?_of_mem_turns (.inr hmem)
  -- a node that does not stand above has both of its turns on one side of the subtree
  have hbeside {turn : Turn} (hturn : (ρ, turn) ∈ first)
      (hk : turn ∈ [Turn.enter k] ∨ turn ∈ [Turn.leave k]) (hρ : ¬ ρ <+: π) :
      (ρ, .enter k) ∈ first ∧ (ρ, .leave k) ∈ first := by
    rcases h.beside ρ k hρ (h.not_before _ hturn) (hat hturn hk) with h' | h'
    · exact ⟨h' _ (.inl (.head _)), h' _ (.inr (.head _))⟩
    · exact absurd (h' _ hk) (h.not_mem_after hturn)
  constructor
  · intro hleave
    have hρ : ¬ ρ <+: π := by
      intro hprefix
      have hne : ρ ≠ π := fun heq => h.not_before _ hleave (heq ▸ List.prefix_rfl)
      have hafter := (h.above ρ k hprefix hne (hat hleave (.inr (.head _)))).2 _ (.head _)
      exact h.not_mem_after hleave hafter
    exact ⟨(hbeside hleave (.inr (.head _)) hρ).1, hρ⟩
  · rintro ⟨henter, hρ⟩
    exact (hbeside henter (.inl (.head _)) hρ).2

/-- The events in front of a node are those of the turns in front of it. -/
lemma eventsBefore_eq (h : n.CutTurns π m first after) :
    n.eventsBefore π = first.flatMap fun x => x.2.events.map (x.1, ·) := by
  have hplaced : n.placed = (first.flatMap fun x => x.2.events.map (x.1, ·)) ++
      (beneath π m.placed ++ after.flatMap fun x => x.2.events.map (x.1, ·)) := by
    rw [← flatMap_events_turns, turns, h.eq, List.flatMap_append, List.flatMap_append,
      flatMap_beneath, List.append_assoc, ← flatMap_events_turns]
    rfl
  have hbefore : ∀ x ∈ first.flatMap (fun x => x.2.events.map (x.1, ·)),
      (!π.isPrefixOf x.1) = true := by
    intro x hx
    obtain ⟨y, hy, hx⟩ := List.mem_flatMap.1 hx
    obtain ⟨_, -, rfl⟩ := List.mem_map.1 hx
    rw [Bool.not_eq_true', ← Bool.not_eq_true, List.isPrefixOf_iff_prefix]
    exact h.not_before y hy
  -- every node has an event of its own, so the subtree begins with one
  obtain ⟨x, items, hitems⟩ : ∃ x items, m.placed = x :: items := by
    refine List.exists_cons_of_ne_nil fun hnil => ?_
    have hclosing : ∃ e, e ∈ m.closing := by
      cases m with
      | op o => exact ⟨_, .head _⟩
      | expr e => exact ⟨_, .head _⟩
    obtain ⟨e, he⟩ := hclosing
    have hmem := mem_placed.2 ⟨m, m.at?_nil, .inr he⟩
    rw [hnil] at hmem
    cases hmem
  rw [eventsBefore, hplaced, List.takeWhile_append_of_pos hbefore, hitems, beneath, List.map_cons,
    List.cons_append, List.takeWhile_cons_of_neg, List.append_nil]
  rw [Bool.not_eq_true', Bool.not_eq_false]
  exact List.isPrefixOf_iff_prefix.2 (List.prefix_append π x.1)

/-- Before a subtree come the openings of the nodes entered before it and the closings of those that
do not stand above it. -/
lemma mem_eventsBefore (h : n.CutTurns π m first after) {ρ : Place} {e : Event} :
    (ρ, e) ∈ n.eventsBefore π ↔
      ∃ k, (ρ, k) ∈ first.flatMap (fun x => x.2.entered.map (x.1, ·)) ∧
        (e ∈ k.opening ∨ e ∈ k.closing ∧ ¬ ρ <+: π) := by
  have hentered (k : Node) : (ρ, k) ∈ first.flatMap (fun x => x.2.entered.map (x.1, ·)) ↔
      (ρ, .enter k) ∈ first := by
    simp only [List.mem_flatMap, List.mem_map, Prod.mk.injEq, mem_entered]
    constructor
    · rintro ⟨⟨_, _⟩, hx, _, rfl, rfl, rfl⟩
      exact hx
    · intro hk
      exact ⟨_, hk, k, rfl, rfl, rfl⟩
  simp only [hentered]
  rw [h.eventsBefore_eq, List.mem_flatMap]
  constructor
  · rintro ⟨⟨_, k | k⟩, hturn, he⟩
    · obtain ⟨_, he, heq⟩ := List.mem_map.1 he
      cases heq
      exact ⟨k, hturn, .inl he⟩
    · obtain ⟨_, he, heq⟩ := List.mem_map.1 he
      cases heq
      obtain ⟨henter, hρ⟩ := h.leave_mem_iff.1 hturn
      exact ⟨k, henter, .inr ⟨he, hρ⟩⟩
  · rintro ⟨k, henter, he | ⟨he, hρ⟩⟩
    · exact ⟨_, henter, List.mem_map_of_mem he⟩
    · exact ⟨_, h.leave_mem_iff.2 ⟨henter, hρ⟩, List.mem_map_of_mem he⟩

end CutTurns

/-! ### Runs that go by the course of a walk to the end -/

variable {result : Except RunError α} {calls : List Call} {c : Course} {hears : Event → Bool}

/-- The steps of turns fire the events of the turns. -/
lemma flatMap_events_step (turns : List (Place × Turn)) :
    (turns.map (Turn.step 1)).flatMap Step.events =
      (turns.flatMap fun x => x.2.events.map (x.1, ·)).map Prod.snd := by
  simp only [List.flatMap_map, events_step, List.map_flatMap, List.map_map, Function.comp_def,
    List.map_id']

/-- A run of turns of which none is refused is whole. -/
lemma stopsAtFirstBad_of_forall
    (hc : Courses (fun s c => c = s.course config hears) (n.turns.map (Turn.step 1)) c)
    (hturns : ∀ x ∈ n.turns, (Turn.step 1 x).refusal config = none)
    (hevents : calls.map (·.event) = c.events)
    (hresult : result.map (fun _ => ()) = c.outcome) :
    StopsAtFirstBad config n hears result calls := by
  rw [hc.whole (List.forall_mem_map.2 hturns)] at hevents hresult
  have hbad : ∀ π m e, n.at? π = some m → ¬ m.Bad config (π.length + 1) e := by
    intro π m e hm hbad
    have hmem : (π, Turn.enter m) ∈ n.turns := mem_tour.2 ⟨m, hm, .inl (.head _)⟩
    have hrefusal := hturns _ hmem
    rw [refusal_step.2 ⟨m, rfl, hbad⟩] at hrefusal
    cases hrefusal
  cases result with
  | error e => cases hresult
  | ok a =>
    refine ⟨⟨fun _ => hbad, fun _ => ⟨a, rfl⟩⟩, fun _ => ?_, fun e he => nomatch he⟩
    rw [hevents, flatMap_events_step, flatMap_events_turns, map_snd_placed]

/-- If a turn is the first that is refused, its node is the first bad one. -/
lemma stopsAtFirstBad_of_first {e : RunError}
    (hc : Courses (fun s c => c = s.course config hears) (n.turns.map (Turn.step 1)) c)
    (hturns : n.turns = first ++ (π, .enter m) :: rest)
    (hfirst : ∀ x ∈ first, (Turn.step 1 x).refusal config = none)
    (hbad : m.Bad config (π.length + 1) e)
    (hevents : calls.map (·.event) = c.events)
    (hresult : result.map (fun _ => ()) = c.outcome) :
    StopsAtFirstBad config n hears result calls := by
  obtain ⟨hm, after, hcut⟩ := exists_cutTurns hturns
  rw [hturns, List.map_append, List.map_cons] at hc
  have hstopped := hc.stopped (List.forall_mem_map.2 hfirst) (refusal_step.2 ⟨m, rfl, hbad⟩)
  rw [hstopped] at hevents hresult
  cases result with
  | ok a => cases hresult
  | error e' =>
    cases hresult
    refine ⟨⟨fun ⟨a, ha⟩ => (nomatch ha), fun hnone => absurd hbad (hnone π m e hm)⟩,
      fun ⟨a, ha⟩ => (nomatch ha), ?_⟩
    rintro _ ⟨⟩
    refine ⟨first.flatMap fun x => x.2.entered.map (x.1, ·), π, m,
      rest.flatMap fun x => x.2.entered.map (x.1, ·), ?_, hbad, ?_, ?_,
      fun ρ event => hcut.mem_eventsBefore⟩
    · rw [← flatMap_entered_turns, hturns, List.flatMap_append, List.flatMap_cons]
      rfl
    · intro x hx e' hbad'
      obtain ⟨y, hy, hx⟩ := List.mem_flatMap.1 hx
      obtain ⟨k, hk, rfl⟩ := List.mem_map.1 hx
      have hnone := hfirst y hy
      rw [refusal_step.2 ⟨k, mem_entered.1 hk, hbad'⟩] at hnone
      cases hnone
    · rw [hevents, flatMap_events_step, hcut.eventsBefore_eq]

/-- A run along the courses of its steps stops at the first bad node. -/
lemma stopsAtFirstBad (hc : Courses (fun s c => c = s.course config hears) (n.steps 1) c)
    (hevents : calls.map (·.event) = c.events)
    (hresult : result.map (fun _ => ()) = c.outcome) :
    StopsAtFirstBad config n hears result calls := by
  rw [n.steps_eq_turns] at hc
  rcases hfind : n.turns.find? (fun x => ((Turn.step 1 x).refusal config).isSome) with _ | ⟨π, turn⟩
  · refine stopsAtFirstBad_of_forall hc (fun x hx => ?_) hevents hresult
    exact Option.not_isSome_iff_eq_none.1 (List.find?_eq_none.1 hfind x hx)
  · obtain ⟨hrefused, first, rest, hturns, hfirst⟩ := List.find?_eq_some_iff_append.1 hfind
    obtain ⟨e, he⟩ := Option.isSome_iff_exists.1 hrefused
    obtain ⟨m, rfl, hbad⟩ := refusal_step.1 he
    refine stopsAtFirstBad_of_first hc hturns (fun x hx => ?_) hbad hevents hresult
    exact Option.not_isSome_iff_eq_none.1 (by simpa using hfirst x hx)

end Node

/-- Where and why runs stop whose callbacks never fail: at the first bad node, before any of its
events and any event below it. For a run that replaces nodes the groups have to keep binding
aggregates. -/
theorem run_stops_at_first_bad (config : Config) (n : Node) (v : Visitors σ) (r : Replacers ρ)
    (hv : v.NeverFail) (hr : r.NeverFail) (s : Session (Recorded σ) Counters)
    (t : Session (Recorded ρ) τ) :
    (∃ calls,
      ((v.recorded.walkTree config n).run s).2.caller.calls = s.caller.calls ++ calls ∧
      StopsAtFirstBad config n v.hears ((v.walkTree config n).run s.forget).1 calls) ∧
    (n.Distinct → r.KeepsAggregates config n t.forget →
      ∃ calls,
        ((r.recorded.tree config n).run t).2.caller.calls = t.caller.calls ++ calls ∧
        StopsAtFirstBad config n r.hears ((r.tree config n).run t.forget).1 calls) := by
  constructor
  · obtain ⟨calls, hcalls, hanswered⟩ := Visitors.walkTree_answered hv config n s
    obtain ⟨c, hc, hfollows⟩ := v.walkTree_follows config n s
    obtain ⟨hevents, hresult⟩ :=
      hfollows.of_succeeded (v.walkTree_recorded config n) hcalls hanswered
    exact ⟨calls, hcalls, Node.stopsAtFirstBad hc hevents hresult⟩
  · intro hn hkeeps
    obtain ⟨calls, hcalls, hanswered⟩ := Replacers.tree_answered (τ := τ) hr config n t
    obtain ⟨c, hc, hfollows⟩ := Replacers.tree_follows_walk hn hkeeps
    obtain ⟨hevents, hresult⟩ :=
      hfollows.of_succeeded (r.tree_recorded config n) hcalls hanswered
    exact ⟨calls, hcalls, Node.stopsAtFirstBad hc hevents hresult⟩

/-- The counting visitors never fail. -/
lemma Visitors.neverFail_counting : counting.NeverFail := by
  refine ⟨⟨?_, ?_⟩, ?_, ?_⟩ <;> rintro c ⟨⟩ o s <;> exact ⟨(), s + 1, rfl⟩

/-- The counting replacers never fail. -/
lemma Replacers.neverFail_counting : counting.NeverFail := by
  refine ⟨⟨?_, ?_⟩, ?_, ?_⟩
  · rintro c ⟨⟩ o s
    exact ⟨(), s + 1, rfl⟩
  · rintro c ⟨⟩ o s
    exact ⟨(), s + 1, rfl⟩
  · rintro c ⟨⟩ old rebuilt s
    exact ⟨rebuilt, s + 1, rfl⟩
  · rintro c ⟨⟩ old rebuilt s
    exact ⟨rebuilt, s + 1, rfl⟩

/-- A group of a left join that binds a variable to no aggregate, before a condition of the join
that has too few arguments. -/
def Op.twiceBad : Op :=
  leftJoin (group ⟨[]⟩ ⟨[(⟨"n"⟩, .var ⟨"x"⟩)]⟩ empty) empty [.function .not []]

/-- The binding lists of `twiceBad` bind no variable twice. -/
lemma Op.distinct_twiceBad : (Node.op twiceBad).Distinct := by
  refine Node.Distinct.of_parts (List.forall_mem_nil _) fun p hp => ?_
  rcases hp with _ | ⟨_, _ | ⟨_, _ | ⟨_, ⟨⟩⟩⟩⟩
  · apply Node.Distinct.of_leaves
    · intro b hb
      rcases hb with _ | ⟨_, _ | ⟨_, ⟨⟩⟩⟩
      · exact List.nodup_nil
      · exact List.nodup_singleton _
    · intro p hp
      rcases hp with _ | ⟨_, _ | ⟨_, ⟨⟩⟩⟩
      · exact ⟨rfl, rfl⟩
      · exact ⟨rfl, rfl⟩
  · exact Node.Distinct.of_leaves (List.forall_mem_nil _) (List.forall_mem_nil _)
  · exact Node.Distinct.of_leaves (List.forall_mem_nil _) (List.forall_mem_nil _)

/-- The group stops both runs. -/
theorem counting_stops_at_group :
    let n := Node.op .twiceBad
    Visitors.counting.NeverFail ∧ Replacers.counting.NeverFail ∧ n.Distinct ∧
      Replacers.counting.KeepsAggregates {} n (⟨0, (), #[]⟩ : Session Nat Unit) ∧
      (¬ ∃ a, ((Visitors.counting.walkTree {} n).run ⟨0, {}, #[]⟩).1 = .ok a) ∧
      ¬ ∃ a, ((Replacers.counting.tree {} n).run (⟨0, (), #[]⟩ : Session Nat Unit)).1 = .ok a := by
  intro n
  have hn : n.Distinct := Op.distinct_twiceBad
  have hkeeps : Replacers.counting.KeepsAggregates {} n (⟨0, (), #[]⟩ : Session Nat Unit) :=
    Replacers.keepsAggregates_of_onExpr Replacers.returnsAggregates_counting hn _
  obtain ⟨⟨_, -, hwalk⟩, hreplace⟩ :=
    run_stops_at_first_bad {} n Visitors.counting Replacers.counting Visitors.neverFail_counting
      Replacers.neverFail_counting ⟨⟨0, []⟩, {}, #[]⟩ (⟨⟨0, []⟩, (), #[]⟩ : Session _ Unit)
  obtain ⟨_, -, htree⟩ := hreplace hn hkeeps
  have hentries : [((⟨"n"⟩ : Var), Expr.var ⟨"x"⟩)] = [] ++ (⟨"n"⟩, .var ⟨"x"⟩) :: [] := rfl
  have hbad : Node.Bad {} 2 (.op (.group ⟨[]⟩ ⟨[(⟨"n"⟩, .var ⟨"x"⟩)]⟩ .empty)) _ :=
    .notAggregate (fun limit h => by cases h; decide) hentries (List.forall_mem_nil _) rfl
  refine ⟨Visitors.neverFail_counting, Replacers.neverFail_counting, hn, hkeeps,
    fun h => ?_, fun h => ?_⟩
  · exact hwalk.ok_iff.1 h [⟨.children, 0⟩] _ _ rfl hbad
  · exact htree.ok_iff.1 h [⟨.children, 0⟩] _ _ rfl hbad

end QueryPlan
