import QueryPlan.Proofs.FirstBad
import QueryPlan.Proofs.Handed

/-!
# Where a run stands when it leaves a node

A state that the loop reaches splits the turns of the tree into those that were taken and those that
are waiting (`turns_of_reaches`). Where a node is to be left, everything below it is behind and the
nodes around it are only opened (`Node.BeforeClosing`). The calls so far are those for the events of
these turns, and on top of the stacks lie the nodes that stand, by these calls, in the places of the
parts of the node (`Replacers.leave_reached`).
-/

namespace QueryPlan

variable {σ τ : Type}

/-! ### States of the loop -/

section

variable {perform : Step → RunM σ τ Unit} {L M : Loop σ τ} {n : Node} {s : Session σ τ}

/-- A run of the loop passes through the states that it reaches. -/
lemma drain_of_reaches (h : Reaches perform L M) :
    (drain perform L.waiting).run L.session = (drain perform M.waiting).run M.session := by
  induction h with
  | refl => rfl
  | tail _ hstep ih =>
    obtain ⟨hrun⟩ := hstep
    rw [ih, drain]
    exact RunM.bind_of_ok hrun

/-- The turns of a tree are those taken on the way to a state and those that its waiting steps lead
to. -/
lemma turns_of_reaches (h : Reaches perform ⟨[.enter n 1], s⟩ M) :
    ∃ first rest, n.turns = first ++ rest ∧ rest.map (Turn.step 1) = upcoming M.waiting ∧
      (forM first fun x => perform (Turn.step 1 x)).run s = (.ok (), M.session) := by
  induction h with
  | refl =>
    refine ⟨[], n.turns, rfl, ?_, rfl⟩
    rw [← n.steps_eq_turns, upcoming, List.flatMap_singleton, Step.steps]
  | tail _ hstep ih =>
    obtain ⟨hrun⟩ := hstep
    obtain ⟨first, rest, hturns, hrest, hfirst⟩ := ih
    rw [upcoming_cons] at hrest
    obtain ⟨x, rest, rfl, rfl, hrest⟩ := List.map_eq_cons_iff.1 hrest
    refine ⟨first ++ [x], rest, by rw [hturns, List.append_assoc, List.singleton_append], hrest, ?_⟩
    rw [List.forM_append, RunM.bind_of_ok hfirst, List.forM_cons, RunM.bind_of_ok hrun]
    rfl

end

/-! ### Turns before a node is left -/

namespace Node

variable {n m : Node} {π : Place} {first rest : List (Place × Turn)}

/-- The events `fired` are those of a tree before a node is closed: the node and those above it are
opened and not closed, and everything below it is done with. -/
structure BeforeClosing (n : Node) (π : Place) (m : Node) (fired : List (Place × Event)) :
    Prop where
  here : n.at? π = some m
  initial : ∃ later, n.placed = fired ++ (π, m.event) :: later
  opened : ∀ event ∈ m.opening, (π, event) ∈ fired
  below : ∀ ρ event, π <+: ρ → ρ ≠ π → (ρ, event) ∈ n.placed → (ρ, event) ∈ fired
  above : ∀ ρ event, ρ <+: π → (ρ, event) ∈ fired → ∃ o, event = .before o

/-- The first event of the leaving of a node is the visit of the node. -/
lemma closing_eq (m : Node) : ∃ closed, m.closing = m.event :: closed := by
  cases m <;> exact ⟨_, rfl⟩

/-- Before a node is left come the turns before its subtree, then it is entered, and the turns of
the parts follow. -/
lemma exists_cutTurns_leave (h : n.turns = first ++ (π, .leave m) :: rest) :
    n.at? π = some m ∧ ∃ before after, n.CutTurns π m before after ∧
      first = before ++ (π, .enter m) ::
        m.branches.flatMap fun b => beneath (π ++ [b.1]) b.2.turns := by
  have hm : n.at? π = some m := at?_of_mem_turns (.inr (h ▸ List.mem_append_cons_self))
  obtain ⟨before, after, hcut⟩ := exists_cut (fun m => [Turn.enter m]) (fun m => [.leave m]) hm
  refine ⟨hm, before, after, hcut, ?_⟩
  have hturns : n.turns = (before ++ (π, .enter m) ::
      m.branches.flatMap fun b => beneath (π ++ [b.1]) b.2.turns) ++ (π, .leave m) :: after := by
    rw [turns, hcut.eq, beneath_tour_eq]
    simp only [List.map_singleton, List.append_assoc, List.cons_append]
    rfl
  -- no turn comes twice, so both splits are at the same one
  have hnodup := n.nodup_turns
  rw [h, List.nodup_middle, List.nodup_cons, List.mem_append, not_or] at hnodup
  obtain ⟨⟨hfirst, hrest⟩, -⟩ := hnodup
  exact ((List.append_cons_inj_of_notMem hfirst hrest).1 (h.symm.trans hturns)).1

/-- The only event of the entering of a node is that of a `before` hook. -/
lemma exists_before_of_mem_opening {k : Node} {event : Event} (h : event ∈ k.opening) :
    ∃ o, event = .before o := by
  cases k with
  | op o => exact ⟨o, (mem_opening_op.1 h).2⟩
  | expr e => cases h

/-- A turn at a place below a node is one of the turns of its parts. -/
lemma mem_turns_below {k : Node} {turn : Turn} {ρ : Place} (hm : n.at? π = some m)
    (hk : n.at? ρ = some k) (hturn : turn = .enter k ∨ turn = .leave k) (hρ : π <+: ρ)
    (hne : ρ ≠ π) : (ρ, turn) ∈ m.branches.flatMap fun b => beneath (π ++ [b.1]) b.2.turns := by
  obtain ⟨ρ, rfl⟩ := hρ
  rw [at?_append, hm, Option.bind_some] at hk
  cases ρ with
  | nil => exact absurd (List.append_nil π) hne
  | cons l ρ =>
    obtain ⟨p, hp, hk⟩ := at?_cons_eq_some.1 hk
    have hmem : (ρ, turn) ∈ p.turns := by
      refine mem_tour.2 ⟨k, hk, ?_⟩
      simpa using hturn
    refine List.mem_flatMap.2 ⟨(l, p), mem_branches.2 hp, mem_beneath.2 ⟨ρ, hmem, ?_⟩⟩
    rw [List.append_assoc, List.singleton_append]

/-- The steps of the turns below a node are those of its parts, one level deeper. -/
lemma map_step_turns_below (m : Node) (π : Place) :
    (m.branches.flatMap fun b => beneath (π ++ [b.1]) b.2.turns).map (Turn.step 1) =
      m.parts.flatMap (·.steps (1 + (π.length + 1))) := by
  rw [List.map_flatMap, ← m.map_snd_branches, List.flatMap_map]
  refine List.flatMap_congr fun b _ => ?_
  rw [map_step_beneath, steps_eq_turns, List.length_append, List.length_singleton]

/-- A node above, or at, the one to be left has not been left yet. -/
lemma exists_enter_of_above {ρ : Place} {turn : Turn} (h : n.turns = first ++ (π, .leave m) :: rest)
    (hturn : (ρ, turn) ∈ first) (hρ : ρ <+: π) : ∃ k, turn = .enter k := by
  obtain ⟨-, before, after, hcut, rfl⟩ := exists_cutTurns_leave h
  rcases List.mem_append.1 hturn with hturn | hturn
  · cases turn with
    | enter k => exact ⟨k, rfl⟩
    | leave k => exact absurd hρ (hcut.leave_mem_iff.1 hturn).2
  · rcases List.mem_cons.1 hturn with heq | hturn
    · cases heq
      exact ⟨m, rfl⟩
    · obtain ⟨b, -, hb⟩ := List.mem_flatMap.1 hturn
      obtain ⟨ρ', -, rfl⟩ := mem_beneath.1 hb
      have hle := hρ.length_le
      rw [List.length_append, List.length_append, List.length_singleton] at hle
      omega

/-- The events of the turns before a node is left. -/
lemma beforeClosing (h : n.turns = first ++ (π, .leave m) :: rest) :
    n.BeforeClosing π m (first.flatMap fun x => x.2.events.map (x.1, ·)) := by
  obtain ⟨hm, before, after, -, hfirst⟩ := exists_cutTurns_leave h
  have hfired {ρ : Place} {turn : Turn} {event : Event} (hturn : (ρ, turn) ∈ first)
      (hevent : event ∈ turn.events) :
      (ρ, event) ∈ first.flatMap fun x => x.2.events.map (x.1, ·) :=
    List.mem_flatMap.2 ⟨_, hturn, List.mem_map_of_mem hevent⟩
  constructor
  case here => exact hm
  case initial =>
    obtain ⟨closed, hclosed⟩ := m.closing_eq
    rw [← flatMap_events_turns, h, List.flatMap_append, List.flatMap_cons, Turn.events, hclosed]
    exact ⟨_, rfl⟩
  case opened =>
    intro event hevent
    have hentered : (π, Turn.enter m) ∈ first := hfirst ▸ List.mem_append_right _ (.head _)
    exact hfired hentered hevent
  case below =>
    intro ρ event hρ hne hplaced
    obtain ⟨k, hk, hevent⟩ := mem_placed.1 hplaced
    have hmem (turn : Turn) (hturn : turn = .enter k ∨ turn = .leave k) : (ρ, turn) ∈ first := by
      rw [hfirst]
      exact List.mem_append_right _ (.tail _ (mem_turns_below hm hk hturn hρ hne))
    rcases hevent with hevent | hevent
    · exact hfired (hmem _ (.inl rfl)) hevent
    · exact hfired (hmem _ (.inr rfl)) hevent
  case above =>
    intro ρ event hρ hmem
    obtain ⟨⟨_, turn⟩, hturn, hevent⟩ := List.mem_flatMap.1 hmem
    obtain ⟨_, hevent, heq⟩ := List.mem_map.1 hevent
    cases heq
    obtain ⟨k, rfl⟩ := exists_enter_of_above h hturn hρ
    exact exists_before_of_mem_opening hevent

end Node

/-! ### Calls on the way -/

namespace Replacers

variable {config : Config} {r : Replacers σ} {n m : Node} {π : Place}

/-- Turns that succeed make a call for each of their events that is heard. -/
lemma turns_traces {turns : List (Place × Turn)} {s t : Session (Recorded σ) Rebuilt}
    (h : (forM turns fun x => r.recorded.perform config (Turn.step 1 x)).run s = (.ok (), t)) :
    ∃ trace : Trace, t.caller.calls = s.caller.calls ++ trace.map Prod.snd ∧
      trace.events =
        (turns.flatMap fun x => x.2.events.map (x.1, ·)).filter fun x => r.hears x.2 := by
  induction turns generalizing s with
  | nil =>
    cases h
    exact ⟨[], (List.append_nil _).symm, rfl⟩
  | cons x turns ih =>
    rw [List.forM_cons] at h
    obtain ⟨_, u, hx, hturns⟩ := RunM.ok_of_bind h
    obtain ⟨trace, hcalls, hevents⟩ := ih hturns
    obtain ⟨calls, hfirst, hallows⟩ := r.perform_follows config (Turn.step 1 x) s
    rw [hx] at hfirst hallows
    cases hallows with
    | ok hstop hcourse _ =>
      have hown : calls.map (·.event) = x.2.events.filter r.hears := by
        rw [hcourse, (r.course_of config s.own _).whole hstop, Node.events_step]
      refine ⟨calls.map (x.1, ·) ++ trace, ?_, ?_⟩
      · rw [hcalls, hfirst, List.map_append, List.map_map, List.append_assoc]
        simp [Function.comp_def]
      · rw [Trace.events_append, hevents, List.flatMap_cons, List.filter_append, List.filter_map]
        congr 1
        rw [Trace.events, List.map_map]
        show calls.map (fun c => (x.1, c.event)) = (x.2.events.filter r.hears).map (x.1, ·)
        rw [← hown, List.map_map]
        rfl

/-- Steps that succeed on any stacks are the recursion, and the stacks get the results. -/
lemma forM_steps_ok {ps : List Node} (hps : ∀ p ∈ ps, p.Distinct) {depth : Nat}
    {s t : Session σ Rebuilt}
    (h : (forM (ps.flatMap (·.steps depth)) (r.perform config)).run s = (.ok (), t)) :
    ∃ results, (ps.mapM (r.rewrite config depth)).run s = (.ok results, { t with own := s.own }) ∧
      t.own = s.own.pushAll results := by
  -- what follows reads the stacks
  let k : RunM σ Rebuilt Rebuilt := ExceptT.mk fun s => (.ok s.own, s)
  have hwithin := within_parts (τ := Rebuilt) config r depth
    (fun p hp built k => within_steps config r depth (hps p hp) built k) s.own k
  have hrun := congrArg (fun x : RunM σ Rebuilt Rebuilt => x.run s) hwithin
  simp only [RunM.run_within] at hrun
  have hleft : (forM (ps.flatMap (·.steps depth)) (r.perform config) >>= fun _ => k).run s =
      (.ok t.own, t) := RunM.bind_of_ok h
  rw [hleft] at hrun
  obtain ⟨results, u, hmapM, hk⟩ := RunM.ok_of_bind hrun.symm
  have hu : u = { t with own := s.own } := congrArg Prod.snd hk
  rw [← hu]
  exact ⟨results, hmapM, (Except.ok.inj (congrArg Prod.fst hk)).symm⟩

/-- What is heard of the parts of a node is what is heard in their turns. -/
lemma heard_turns_below (r : Replacers σ) (m : Node) (π : Place) :
    m.branches.flatMap (fun b => r.heard (π ++ [b.1]) b.2) =
      ((m.branches.flatMap fun b => beneath (π ++ [b.1]) b.2.turns).flatMap
        fun x => x.2.events.map (x.1, ·)).filter fun x => r.hears x.2 := by
  rw [List.flatMap_assoc, List.filter_flatMap]
  refine List.flatMap_congr fun b _ => ?_
  rw [Node.flatMap_beneath, Node.flatMap_events_turns, heard]

/-- A run on the tree `n` has come to leave the node `m` at a place: its trace goes along the events
before the closing of that node, and `results` stand in the places of the parts. -/
structure Leaves (r : Replacers σ) (n : Node) (π : Place) (m : Node) (trace : Trace)
    (results : List Node) : Prop where
  fired : ∃ fired, n.BeforeClosing π m fired ∧
    trace.events = fired.filter fun x => r.hears x.2
  sound : m.defect? = none
  replaced : ∃ before below, trace = before ++ below ∧ r.Replacements below π m results ∧
    below.Each (r.Handed n) []

/-- Where a run stands when a node is left. -/
theorem leave_reached (hn : n.Distinct) {s t : Session (Recorded σ) Rebuilt} {waiting : List Step}
    (h : Reaches (r.recorded.perform config) ⟨[.enter n 1], s⟩ ⟨.leave m :: waiting, t⟩) :
    ∃ (π : Place) (trace : Trace) (results : List Node) (below : Rebuilt),
      r.Leaves n π m trace results ∧ t.caller.calls = s.caller.calls ++ trace.map Prod.snd ∧
      t.own = below.pushAll results := by
  obtain ⟨first, rest, hturns, hrest, hfirst⟩ := turns_of_reaches h
  obtain ⟨⟨π, turn⟩, rest, rfl, hturn, -⟩ := List.map_eq_cons_iff.1 hrest
  cases turn with
  | enter k => cases hturn
  | leave k =>
    cases hturn
    have hfired := Node.beforeClosing hturns
    obtain ⟨hm, before, after, -, rfl⟩ := Node.exists_cutTurns_leave hturns
    have hparts (p : Node) (hp : p ∈ m.parts) : p.Distinct :=
      (hn.within (Node.within_iff_at?.2 ⟨π, hm⟩)).part hp
    -- first come the turns up to the entering of the node, then those of its parts
    rw [List.append_cons, List.flatMap_append] at hfired
    rw [List.append_cons, List.forM_append] at hfirst
    obtain ⟨_, u, hopened, hbelow⟩ := RunM.ok_of_bind hfirst
    obtain ⟨opened, hcalls, hevents⟩ := turns_traces hopened
    rw [← List.forM_map, Node.map_step_turns_below] at hbelow
    obtain ⟨results, hmapM, hown⟩ := forM_steps_ok hparts hbelow
    obtain ⟨below, hcalls', -, heach, hok⟩ := parts_traces (r := r) (π := π)
      (fun l p hp earlier => rewrite_traces config (Node.at?_concat hm hp) _ earlier) [] u
    rw [hmapM] at hcalls' hok
    obtain ⟨hevents', hreplaced⟩ := hok results rfl
    refine ⟨π, opened ++ below, results, u.own, ⟨⟨_, hfired, ?_⟩, ?_, ?_⟩, ?_, hown⟩
    · rw [Trace.events_append, hevents, hevents', List.filter_append, heard_turns_below]
    · rw [List.forM_append, List.forM_cons] at hopened
      obtain ⟨_, v, -, hopened⟩ := RunM.ok_of_bind hopened
      obtain ⟨_, w, henter, -⟩ := RunM.ok_of_bind hopened
      exact (enter_ok henter).1
    · exact ⟨opened, below, rfl, hreplaced, heach⟩
    · have hcalls' : t.caller.calls = u.caller.calls ++ below.map Prod.snd := hcalls'
      rw [hcalls', hcalls, List.map_append, List.append_assoc]

end Replacers

end QueryPlan
