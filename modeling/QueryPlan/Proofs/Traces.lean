import QueryPlan.Proofs.PlacedEvents

/-!
# Traces

Equal nodes can stand at several places of a tree, and a record of calls does not tell for which of
them a call was made. A trace is a record of calls with the places of the nodes.

`RunM.Traces` says of a run which placed events its trace goes along, what holds of each call in
view of the calls before it, and what holds of the result in view of all of them. Runs that are made
of parts have the traces of their parts one after the other (`RunM.Traces.bind`,
`RunM.Traces.mapM`); each part starts from the calls of those before it.
-/

namespace QueryPlan

variable {σ τ α β : Type}

/-- Calls with the places of the nodes for which they were made. -/
abbrev Trace := List (Place × Call)

namespace Trace

/-- The events of the calls of a trace. -/
def events (trace : Trace) : List (Place × Event) := trace.map fun x => (x.1, x.2.event)

/-- Each call of a trace satisfies `P` in view of the calls before it, earlier ones included. -/
def Each (trace : Trace) (P : Trace → Place → Call → Prop) (earlier : Trace) : Prop :=
  ∀ before π call after, trace = before ++ (π, call) :: after → P (earlier ++ before) π call

variable {P : Trace → Place → Call → Prop} {earlier first last : Trace}

/-- The events of two traces come one after the other. -/
lemma events_append (first last : Trace) : events (first ++ last) = first.events ++ last.events :=
  List.map_append

/-- In a trace without calls each of them satisfies everything. -/
lemma Each.nil : Each [] P earlier := by
  intro before π call after h
  cases (List.append_eq_nil_iff.1 h.symm).2

/-- A single call has only the earlier ones before it. -/
lemma Each.singleton {π : Place} {call : Call} (h : P earlier π call) :
    Each [(π, call)] P earlier := by
  intro before ρ other after heq
  cases before with
  | nil =>
    cases heq
    rwa [List.append_nil]
  | cons x before =>
    have hnil := (List.cons.inj heq).2
    cases (List.append_eq_nil_iff.1 hnil.symm).2

/-- The calls of the first part are earlier calls for the second one. -/
lemma Each.append (h : first.Each P earlier) (h' : last.Each P (earlier ++ first)) :
    Each (first ++ last) P earlier := by
  intro before π call after heq
  rcases List.append_eq_append_iff.1 heq with ⟨rest, rfl, hlast⟩ | ⟨rest, rfl, hrest⟩
  · rw [← List.append_assoc]
    exact h' rest π call after hlast
  · cases rest with
    | nil =>
      rw [List.append_nil] at h'
      have hcall := h' [] π call after hrest.symm
      rwa [List.append_nil] at hcall
    | cons x rest =>
      cases hrest
      exact h before π call rest rfl

end Trace

namespace RunM

/-- What a run does with `earlier` calls before it: its trace goes along the placed events, to their
end if it succeeds; each call satisfies `P`, and the result satisfies `Q` in view of all calls. -/
def Traces (x : RunM (Recorded σ) τ α) (P : Trace → Place → Call → Prop) (earlier : Trace)
    (events : List (Place × Event)) (Q : Trace → α → Prop) : Prop :=
  ∀ s, ∃ trace : Trace,
    (x.run s).2.caller.calls = s.caller.calls ++ trace.map Prod.snd ∧
    trace.events <+: events ∧ trace.Each P earlier ∧
    ∀ a, (x.run s).1 = .ok a → trace.events = events ∧ Q (earlier ++ trace) a

namespace Traces

variable {P : Trace → Place → Call → Prop} {earlier : Trace} {events more : List (Place × Event)}
  {Q : Trace → α → Prop} {R : Trace → β → Prop} {x : RunM (Recorded σ) τ α}
  {f : α → RunM (Recorded σ) τ β}

/-- A computation that leaves the caller alone has an empty trace. -/
lemma of_no_call (h : ∀ s, (x.run s).2.caller = s.caller)
    (hresult : ∀ s a, (x.run s).1 = .ok a → Q earlier a) : x.Traces P earlier [] Q := by
  intro s
  refine ⟨[], ?_, List.prefix_rfl, .nil, fun a ha => ⟨rfl, ?_⟩⟩
  · rw [h, List.map_nil, List.append_nil]
  · rw [List.append_nil]
    exact hresult s a ha

/-- A value that is only returned has an empty trace. -/
lemma pure {a : α} (h : Q earlier a) : (pure a : RunM (Recorded σ) τ α).Traces P earlier [] Q :=
  of_no_call (fun _ => rfl) fun _ _ ha => Except.ok.inj ha ▸ h

/-- What holds of the result of a trace may be weakened. -/
lemma mono {R : Trace → α → Prop} (h : x.Traces P earlier events Q)
    (hQR : ∀ calls a, Q calls a → R calls a) : x.Traces P earlier events R := by
  intro s
  obtain ⟨trace, hcalls, hevents, heach, hok⟩ := h s
  refine ⟨trace, hcalls, hevents, heach, fun a ha => ?_⟩
  exact ⟨(hok a ha).1, hQR _ a (hok a ha).2⟩

/-- What a run ensures holds of the result of its trace as well. -/
lemma and_ensures {S : α → Prop} (h : x.Traces P earlier events Q) (hS : x.Ensures S) :
    x.Traces P earlier events fun calls a => Q calls a ∧ S a := by
  intro s
  obtain ⟨trace, hcalls, hevents, heach, hok⟩ := h s
  refine ⟨trace, hcalls, hevents, heach, fun a ha => ?_⟩
  exact ⟨(hok a ha).1, (hok a ha).2, hS (Prod.ext ha rfl)⟩

/-- One part after the other: the second one starts from the calls of the first one. -/
lemma bind (h : x.Traces P earlier events Q)
    (hf : ∀ a trace, Q (earlier ++ trace) a → (f a).Traces P (earlier ++ trace) more R) :
    (x >>= f).Traces P earlier (events ++ more) R := by
  intro s
  obtain ⟨trace, hcalls, hevents, heach, hok⟩ := h s
  rcases hx : x.run s with ⟨e | a, t⟩
  · rw [hx] at hcalls
    rw [bind_of_error hx]
    exact ⟨trace, hcalls, hevents.trans (List.prefix_append _ _), heach, fun _ ha => nomatch ha⟩
  · rw [hx] at hcalls hok
    obtain ⟨hwhole, hQ⟩ := hok a rfl
    obtain ⟨trace', hcalls', hevents', heach', hok'⟩ := hf a trace hQ t
    rw [bind_of_ok hx]
    refine ⟨trace ++ trace', ?_, ?_, heach.append heach', fun b hb => ?_⟩
    · rw [hcalls', hcalls, List.map_append, List.append_assoc]
    · rw [Trace.events_append, hwhole]
      exact (List.prefix_append_right_inj events).2 hevents'
    · rw [Trace.events_append, hwhole, (hok' b hb).1, ← List.append_assoc]
      exact ⟨rfl, (hok' b hb).2⟩

/-- After a part without calls. -/
lemma bind_silent (h : x.Traces P earlier [] Q)
    (hf : ∀ a, Q earlier a → (f a).Traces P earlier more R) :
    (x >>= f).Traces P earlier more R := by
  intro s
  obtain ⟨trace, hcalls, hevents, -, hok⟩ := h s
  cases List.map_eq_nil_iff.1 (List.prefix_nil.1 hevents)
  rw [List.map_nil, List.append_nil] at hcalls
  rw [List.append_nil] at hok
  rcases hx : x.run s with ⟨e | a, t⟩
  · rw [bind_of_error hx]
    rw [hx] at hcalls
    refine ⟨[], ?_, List.nil_prefix, .nil, fun _ ha => nomatch ha⟩
    rw [hcalls, List.map_nil, List.append_nil]
  · rw [hx] at hcalls hok
    rw [bind_of_ok hx, ← hcalls]
    exact hf a (hok a rfl).2 t

/-- One run for each member of a list; what holds of a result goes on holding as calls are added. -/
lemma mapM {R : Trace → α → β → Prop} {placed : α → List (Place × Event)} {as : List α}
    (hmono : ∀ calls more a b, R calls a b → R (calls ++ more) a b)
    (h : ∀ a ∈ as, ∀ earlier, (f a).Traces P earlier (placed a) fun calls => R calls a) :
    (as.mapM f).Traces P earlier (as.flatMap placed) fun calls => List.Forall₂ (R calls) as := by
  induction as generalizing earlier with
  | nil => exact pure .nil
  | cons a as ih =>
    rw [List.mapM_cons, List.flatMap_cons]
    refine (h a (.head _) earlier).bind fun b trace hb => ?_
    rw [← List.append_nil (as.flatMap placed)]
    refine (ih fun a' ha => h a' (.tail _ ha)).bind fun bs more hbs => ?_
    exact pure (.cons (hmono _ _ _ _ hb) hbs)

/-- One run for each member of a list, each with a trace of its own. -/
lemma mapM_begun {P : α → Trace → Place → Call → Prop} {placed : α → List (Place × Event)}
    {Q : α → Trace → β → Prop} {as : List α}
    (h : ∀ a ∈ as, (f a).Traces (P a) [] (placed a) (Q a)) (s : Session (Recorded σ) τ) :
    ∃ begun : List (α × Trace),
      ((as.mapM f).run s).2.caller.calls =
        s.caller.calls ++ begun.flatMap (fun x => x.2.map Prod.snd) ∧
      begun.map Prod.fst <+: as ∧
      ∀ a trace, (a, trace) ∈ begun → trace.events <+: placed a ∧ trace.Each (P a) [] := by
  induction as generalizing s with
  | nil => exact ⟨[], (List.append_nil _).symm, List.prefix_rfl, fun _ _ h => nomatch h⟩
  | cons a as ih =>
    obtain ⟨trace, hcalls, hevents, heach, -⟩ := h a (.head _) s
    rw [List.mapM_cons]
    rcases hrun : (f a).run s with ⟨e | b, t⟩
    · rw [hrun] at hcalls
      rw [bind_of_error hrun]
      refine ⟨[(a, trace)], ?_, ⟨as, rfl⟩, fun a' trace' hmem => ?_⟩
      · rw [hcalls, List.flatMap_singleton]
      · cases List.mem_singleton.1 hmem
        exact ⟨hevents, heach⟩
    · rw [hrun] at hcalls
      rw [bind_of_ok hrun]
      obtain ⟨begun, hrest, hprefix, hbegun⟩ := ih (fun a' ha => h a' (.tail _ ha)) t
      refine ⟨(a, trace) :: begun, ?_, List.cons_prefix_cons.2 ⟨rfl, hprefix⟩,
        fun a' trace' hmem => ?_⟩
      · rw [run_bind_pure, hrest, hcalls, List.flatMap_cons, List.append_assoc]
      · rcases List.mem_cons.1 hmem with heq | hmem
        · cases heq
          exact ⟨hevents, heach⟩
        · exact hbegun a' trace' hmem

/-- A call is one event. -/
lemma call {c : CallerM σ α} {event : Event} {rebuilt : Option Node} {node : α → Option Node}
    {π : Place} (hcall : ∀ answer, P earlier π ⟨event, rebuilt, answer⟩)
    (hresult : ∀ a, Q (earlier ++ [(π, ⟨event, rebuilt, .ok (node a)⟩)]) a) :
    (call (CallerM.recorded event rebuilt node c) : RunM (Recorded σ) τ α).Traces P earlier
      [(π, event)] Q := by
  intro s
  refine ⟨[(π, _)], rfl, List.prefix_rfl, .singleton (hcall _), fun a ha => ⟨rfl, ?_⟩⟩
  have hanswer : (c s.caller.caller).1 = .ok a := ha
  rw [hanswer]
  exact hresult a

/-- The check of the depth makes no call. -/
lemma checkDepth (config : Config) (depth : Nat) :
    (checkDepth config depth : RunM (Recorded σ) τ Unit).Traces P earlier [] fun _ _ => True := by
  refine of_no_call (fun s => ?_) fun _ _ _ => trivial
  unfold RunM.checkDepth
  split
  · split <;> rfl
  · rfl

/-- Only a node without a defect passes the check. -/
lemma checkNode (n : Node) :
    (checkNode n : RunM (Recorded σ) τ Unit).Traces P earlier [] fun _ _ => n.defect? = none := by
  unfold RunM.checkNode
  rcases n.defect? with _ | d
  · exact pure rfl
  · exact of_no_call (fun _ => rfl) fun _ _ h => nomatch h

/-- A notification makes one call, if a callback hears of its event. -/
lemma notify (event : α → Event) (c : Option (α → CallerM σ Unit)) (a : α) {hears : Event → Bool}
    {π : Place} (h : hears (event a) = c.isSome)
    (hcall : ∀ answer, P earlier π ⟨event a, none, answer⟩) :
    (notify (c.map fun c a => CallerM.recorded (event a) none (fun _ => none) (c a)) a :
      RunM (Recorded σ) τ Unit).Traces P earlier (([event a].filter hears).map (π, ·))
        fun _ _ => True := by
  cases c with
  | none =>
    rw [List.filter_cons_of_neg (ne_true_of_eq_false h)]
    exact pure trivial
  | some c =>
    rw [List.filter_cons_of_pos h]
    exact call hcall fun _ => trivial

/-- A node that is reached has no defect. -/
lemma reach (activity : Activity) (h : Hooks σ) (ops exprs : Bool) (n : Node) (depth : Nat)
    {π : Place} (hcall : ∀ o answer, P earlier π ⟨.before o, none, answer⟩) :
    (reach activity h.recorded n depth : RunM (Recorded σ) τ Unit).Traces P earlier
      ((n.opening.filter (h.hears ops exprs)).map (π, ·)) fun _ _ => n.defect? = none := by
  have hemit (r : LogRecord) :
      (emit r : RunM (Recorded σ) τ Unit).Traces P earlier [] fun _ _ => True :=
    of_no_call (fun _ => rfl) fun _ _ _ => trivial
  refine (hemit _).bind_silent fun _ _ => (checkNode n).bind_silent fun _ hn => ?_
  cases n with
  | op o =>
    by_cases ho : o.isComposite = true
    · simp only [Node.opening, if_pos ho]
      exact (notify .before h.before o rfl (hcall o)).mono fun _ _ _ => hn
    · simp only [Node.opening, if_neg ho]
      exact pure hn
  | expr e => exact pure hn

/-- The closing of a composite operator makes one call, if there is an `after` hook. -/
lemma close (h : Hooks σ) (ops exprs : Bool) (o : Op) {π : Place}
    (hcall : ∀ o answer, P earlier π ⟨.after o, none, answer⟩) :
    (close h.recorded o : RunM (Recorded σ) τ Unit).Traces P earlier
      (((if o.isComposite then [Event.after o] else []).filter (h.hears ops exprs)).map (π, ·))
      fun _ _ => True := by
  unfold RunM.close
  by_cases ho : o.isComposite = true
  · simp only [if_pos ho]
    exact notify .after h.after o rfl (hcall o)
  · simp only [if_neg ho]
    exact pure trivial

end Traces

end RunM

end QueryPlan
