import QueryPlan.Proofs.PlacedEvents
import QueryPlan.Proofs.PrintedForms
import QueryPlan.Proofs.SameSchedule

/-!
# Where nodes stand in a text

The text of a node has the texts of its parts in it (`Piece.spans`), and so the text of a tree has
those of all its nodes: `Node.spanAt` says where, for the place of each node. The spans are nested
as the nodes are, and the spans of the parts of a node follow one another in visiting order
(`Node.LaidOut`). Thus of two nodes of which none is below the other, the one that a run comes to
first stands on the left (`Node.InReadingOrder`, `Node.pairwise_tour`), and a walk reads the text
from left to right (`Node.text_spans`).
-/

namespace QueryPlan

variable {σ α : Type}

/-! ### Spans -/

/-- A stretch of a text between two positions, which count characters. -/
structure Span where
  start : Nat
  stop : Nat
deriving DecidableEq, Inhabited

namespace Span

/-- The span so many characters further to the right. -/
def shift (offset : Nat) (i : Span) : Span := ⟨offset + i.start, offset + i.stop⟩

/-- A word stands in a text, just where the span is. -/
def Spells (i : Span) (text word : String) : Prop :=
  ∃ before after, text = before ++ word ++ after ∧
    i = ⟨before.length, before.length + word.length⟩

/-- The span lies in another one and touches neither end. -/
def StrictlyIn (i j : Span) : Prop := j.start < i.start ∧ i.stop < j.stop

/-- The span ends before another one begins. -/
def LeftOf (i j : Span) : Prop := i.stop ≤ j.start

variable {i j : Span} {text word inner : String}

/-- A span that is moved twice is moved by the sum. -/
lemma shift_shift (a b : Nat) (i : Span) : (i.shift b).shift a = i.shift (a + b) := by
  rw [shift, shift, shift, Nat.add_assoc, Nat.add_assoc]

/-- Spans that are moved together stay in their order. -/
lemma LeftOf.shift (h : i.LeftOf j) (offset : Nat) : (i.shift offset).LeftOf (j.shift offset) :=
  Nat.add_le_add_left h offset

/-- The whole text is spelled from its start to its length. -/
lemma Spells.whole (text : String) : Spells ⟨0, text.length⟩ text text := by
  refine ⟨"", "", by simp, ?_⟩
  rw [String.length_empty, Nat.zero_add]

/-- The span of a word is as long as the word. -/
lemma Spells.stop_eq (h : i.Spells text word) : i.stop = i.start + word.length := by
  obtain ⟨before, after, -, rfl⟩ := h
  rfl

/-- The span of a word ends in the text. -/
lemma Spells.stop_le (h : i.Spells text word) : i.stop ≤ text.length := by
  obtain ⟨before, after, rfl, rfl⟩ := h
  rw [String.length_append, String.length_append]
  exact Nat.le_add_right _ _

/-- A word in a word of a text stands in the text. -/
lemma Spells.within (h : j.Spells text inner) (h' : i.Spells inner word) :
    (i.shift j.start).Spells text word := by
  obtain ⟨before, after, rfl, rfl⟩ := h
  obtain ⟨before', after', rfl, rfl⟩ := h'
  refine ⟨before ++ before', after' ++ after, ?_, ?_⟩
  · simp only [String.append_assoc]
  · simp only [shift, String.length_append, Nat.add_assoc]

end Span

/-! ### The spans of the parts -/

namespace Piece

/-- The parts in a printed form, with the spans of their texts if it is written from an offset
on. -/
def spans (offset : Nat) : List Piece → List (Node × Span)
  | [] => []
  | text s :: ps => spans (offset + s.length) ps
  | part n :: ps =>
    (n, ⟨offset, offset + n.text.length⟩) :: spans (offset + n.text.length) ps

variable {ps : List Piece} {p : Node} {i : Span} {offset : Nat}

/-- The parts in the text are those among the pieces, in their order. -/
lemma map_fst_spans (offset : Nat) (ps : List Piece) :
    (spans offset ps).map Prod.fst = ps.filterMap part? := by
  induction ps generalizing offset with
  | nil => rfl
  | cons q ps ih =>
    cases q with
    | text s => exact ih _
    | part n => exact congrArg (n :: ·) (ih _)

/-- A part has its span after the text of what stands before it. -/
lemma exists_of_mem_spans (h : (p, i) ∈ spans offset ps) :
    ∃ before after, ps = before ++ part p :: after ∧
      i = ⟨offset + (render before).length, offset + (render before).length + p.text.length⟩ := by
  induction ps generalizing offset with
  | nil => cases h
  | cons q ps ih =>
    cases q with
    | text s =>
      obtain ⟨before, after, rfl, rfl⟩ := ih h
      refine ⟨text s :: before, after, rfl, ?_⟩
      rw [render_text, String.length_append, Nat.add_assoc offset]
    | part n =>
      rcases List.mem_cons.1 h with heq | h
      · cases heq
        exact ⟨[], ps, rfl, rfl⟩
      · obtain ⟨before, after, rfl, rfl⟩ := ih h
        refine ⟨part n :: before, after, rfl, ?_⟩
        rw [render_part, String.length_append, Nat.add_assoc offset]

/-- The spans of parts follow one another from left to right. -/
lemma pairwise_spans (offset : Nat) (ps : List Piece) :
    ((spans offset ps).map Prod.snd).Pairwise Span.LeftOf := by
  induction ps generalizing offset with
  | nil => exact .nil
  | cons q ps ih =>
    cases q with
    | text s => exact ih _
    | part n =>
      refine List.pairwise_cons.2 ⟨fun j hj => ?_, ih _⟩
      obtain ⟨⟨p, i⟩, hi, rfl⟩ := List.mem_map.1 hj
      obtain ⟨before, after, -, rfl⟩ := exists_of_mem_spans hi
      exact Nat.le_add_right _ _

/-- Fixed text takes up space. -/
lemma length_render_pos {s : String} (h : text s ∈ ps) (hs : s ≠ "") : 0 < (render ps).length := by
  obtain ⟨before, after, rfl⟩ := List.append_of_mem h
  have hlength : 0 < s.length :=
    Nat.pos_of_ne_zero fun hzero => hs (String.length_eq_zero_iff.1 hzero)
  rw [render_append, render_text, String.length_append, String.length_append]
  omega

end Piece

/-- Different keys look up the values beside them. -/
lemma map_lookup_zip {κ β : Type} [DecidableEq κ] {ks : List κ} {xs : List β} (d : β)
    (hks : ks.Nodup) (hlength : ks.length = xs.length) :
    ks.map (fun k => ((ks.zip xs).lookup k).getD d) = xs := by
  induction ks generalizing xs with
  | nil => exact (List.eq_nil_of_length_eq_zero hlength.symm).symm
  | cons k ks ih =>
    obtain ⟨x, xs, rfl⟩ := List.exists_cons_of_length_eq_add_one hlength.symm
    obtain ⟨hk, hks⟩ := List.nodup_cons.1 hks
    have hrest (k') (hk' : k' ∈ ks) : (((k, x) :: ks.zip xs).lookup k').getD d =
        ((ks.zip xs).lookup k').getD d := by
      have hne : (k' == k) = false := beq_false_of_ne fun heq => hk (heq ▸ hk')
      rw [List.lookup_cons, hne]
    rw [List.map_cons, List.zip_cons_cons, List.lookup_cons_self, List.map_congr_left hrest,
      ih hks (Nat.succ.inj hlength)]
    rfl

namespace Node

variable {n m p : Node} {l : Link} {π ρ : Place} {i : Span}

/-- A node that has parts is written between fixed texts. -/
lemma exists_edges (h : n.parts ≠ []) :
    (∃ s, n.pieces.head? = some (.text s) ∧ s ≠ "") ∧
      ∃ t, n.pieces.getLast? = some (.text t) ∧ t ≠ "" := by
  rcases n with o | e
  · cases o with
    | scan | empty => exact absurd rfl h
    | leftJoin left right conditions =>
      cases conditions <;> simp [pieces, Op.pieces, Piece.last, List.getLast?_cons]
    | _ => simp [pieces, Op.pieces, Piece.last, List.getLast?_cons]
  · rcases e with v | v | ⟨f, args⟩ | ⟨f, d, _ | arg⟩ | ⟨negated, o⟩
    case const | var | aggregate.none => exact absurd rfl h
    case existence => cases negated <;> simp [pieces, Expr.pieces]
    all_goals simp [pieces, Expr.pieces, List.getLast?_cons]

/-- The span of a part spells its text and touches neither end. -/
lemma spells_of_mem_spans (h : (p, i) ∈ Piece.spans 0 n.pieces) :
    i.Spells n.text p.text ∧ i.StrictlyIn ⟨0, n.text.length⟩ := by
  have hp : p ∈ n.parts := by
    rw [← n.filterMap_part?_pieces, ← Piece.map_fst_spans 0]
    exact List.mem_map_of_mem h
  obtain ⟨⟨s, hs, hs'⟩, t, ht, ht'⟩ := n.exists_edges (List.ne_nil_of_mem hp)
  obtain ⟨before, after, hpieces, rfl⟩ := Piece.exists_of_mem_spans h
  have htext : n.text = Piece.render before ++ p.text ++ Piece.render after := by
    rw [n.text_eq, hpieces, Piece.render_append, Piece.render_part, String.append_assoc]
  have hbefore : 0 < (Piece.render before).length := by
    rw [hpieces] at hs
    cases before with
    | nil => cases hs
    | cons q before =>
      cases hs
      exact Piece.length_render_pos (.head _) hs'
  have hafter : 0 < (Piece.render after).length := by
    rw [hpieces, List.getLast?_append_cons] at ht
    rcases List.mem_cons.1 (List.mem_of_getLast? ht) with heq | hmem
    · cases heq
    · exact Piece.length_render_pos hmem ht'
  rw [Nat.zero_add]
  refine ⟨⟨_, _, htext, rfl⟩, hbefore, ?_⟩
  rw [htext, String.length_append, String.length_append]
  exact Nat.lt_add_of_pos_right hafter

/-- The span of the part that a link leads to. -/
def spanOf (n : Node) (l : Link) : Span :=
  (((n.branches.map Prod.fst).zip ((Piece.spans 0 n.pieces).map Prod.snd)).lookup l).getD default

/-- The span of a node in the text of the tree. -/
def spanAt (n : Node) : Place → Span
  | [] => ⟨0, n.text.length⟩
  | l :: π =>
    match n.partAt? l with
    | some p => (p.spanAt π).shift (n.spanOf l).start
    | none => default

/-- The parts of a node have their spans in visiting order. -/
lemma map_spanOf_branches (n : Node) :
    n.branches.map (fun b => (b.2, n.spanOf b.1)) = Piece.spans 0 n.pieces := by
  have hparts : n.branches.map Prod.snd = (Piece.spans 0 n.pieces).map Prod.fst := by
    rw [n.map_snd_branches, Piece.map_fst_spans, n.filterMap_part?_pieces]
  have hlength : (n.branches.map Prod.fst).length =
      ((Piece.spans 0 n.pieces).map Prod.snd).length := by
    have hlength := congrArg List.length hparts
    simpa only [List.length_map] using hlength
  have hspans : (n.branches.map Prod.fst).map n.spanOf =
      (Piece.spans 0 n.pieces).map Prod.snd :=
    map_lookup_zip default n.nodup_links hlength
  rw [List.zip_of_prod hparts.symm hspans.symm, List.map_map, List.zip_map']
  rfl

/-- A part is spelled at its span, which lies strictly within the text of the node. -/
lemma spells_spanOf (h : n.partAt? l = some p) :
    (n.spanOf l).Spells n.text p.text ∧ (n.spanOf l).StrictlyIn ⟨0, n.text.length⟩ := by
  apply spells_of_mem_spans
  rw [← n.map_spanOf_branches]
  exact List.mem_map_of_mem (mem_branches.2 h)

/-- The spans of the branches follow one another in visiting order. -/
lemma pairwise_spanOf (n : Node) :
    n.branches.Pairwise fun b b' => (n.spanOf b.1).LeftOf (n.spanOf b'.1) := by
  have hpairwise := Piece.pairwise_spans 0 n.pieces
  rw [← n.map_spanOf_branches, List.map_map] at hpairwise
  exact List.pairwise_map.1 hpairwise

/-! ### The spans of all nodes -/

/-- The span of a node below a part is moved by the start of the part. -/
lemma spanAt_cons (h : n.partAt? l = some p) (π : Place) :
    n.spanAt (l :: π) = (p.spanAt π).shift (n.spanOf l).start := by
  rw [spanAt, h]

/-- The span of a node spells its text. -/
lemma spells_spanAt (h : n.at? π = some m) : (n.spanAt π).Spells n.text m.text := by
  induction π generalizing n with
  | nil =>
    cases h
    exact .whole _
  | cons l π ih =>
    obtain ⟨p, hp, hm⟩ := at?_cons_eq_some.1 h
    rw [spanAt_cons hp]
    exact (spells_spanOf hp).1.within (ih hm)

/-- The spans in a subtree are those of the subtree by itself, from its start on. -/
lemma spanAt_append (h : n.at? π = some m) (ρ : Place) :
    n.spanAt (π ++ ρ) = (m.spanAt ρ).shift (n.spanAt π).start := by
  induction π generalizing n with
  | nil =>
    cases h
    simp [spanAt, Span.shift]
  | cons l π ih =>
    obtain ⟨p, hp, hm⟩ := at?_cons_eq_some.1 h
    rw [List.cons_append, spanAt_cons hp, spanAt_cons hp, ih hm, Span.shift_shift]
    rfl

/-- The span of a part of a node is moved by the start of the node. -/
lemma spanAt_concat (hm : n.at? π = some m) (hp : m.partAt? l = some p) :
    n.spanAt (π ++ [l]) = (m.spanOf l).shift (n.spanAt π).start := by
  have hspan : m.spanAt [l] = m.spanOf l := by
    obtain ⟨_, _, -, heq⟩ := (spells_spanOf hp).1
    rw [spanAt_cons hp, heq]
    rfl
  rw [spanAt_append hm, hspan]

/-- Spans for the places of a tree that are nested as its nodes are and ordered as the parts of each
node are visited. -/
structure LaidOut (n : Node) (span : Place → Span) : Prop where
  /-- The tree has all of its text. -/
  top : span [] = ⟨0, n.text.length⟩
  /-- Each node has its own text. -/
  spells : ∀ π m, n.at? π = some m → (span π).Spells n.text m.text
  /-- A part stands in the node that it is a part of, and there is more on both sides. -/
  nested : ∀ π m l p, n.at? π = some m → m.partAt? l = some p →
    (span (π ++ [l])).StrictlyIn (span π)
  /-- The parts of a node follow one another from left to right. -/
  ordered : ∀ π m, n.at? π = some m →
    m.branches.Pairwise fun b b' => (span (π ++ [b.1])).LeftOf (span (π ++ [b'.1]))

/-- The spans of a tree are nested and ordered as its nodes are. -/
lemma laidOut (n : Node) : n.LaidOut n.spanAt where
  top := rfl
  spells _ _ h := spells_spanAt h
  nested π m l p hm hp := by
    obtain ⟨hstart, hstop⟩ := (spells_spanOf hp).2
    rw [spanAt_concat hm hp, Span.StrictlyIn, (spells_spanAt hm).stop_eq]
    exact ⟨Nat.lt_add_of_pos_right hstart, Nat.add_lt_add_left hstop _⟩
  ordered π m hm := by
    refine m.pairwise_spanOf.imp_of_mem fun {b b'} hb hb' h => ?_
    rw [spanAt_concat hm (mem_branches.1 hb), spanAt_concat hm (mem_branches.1 hb')]
    exact h.shift _

/-! ### Reading along -/

/-- One of two nodes is above the other, or the first stands on the left of the second. -/
def InReadingOrder (n : Node) (π ρ : Place) : Prop :=
  π <+: ρ ∨ ρ <+: π ∨ (n.spanAt π).LeftOf (n.spanAt ρ)

/-- Places of a part are in reading order in the node if they are in the part. -/
lemma InReadingOrder.beneath (h : p.InReadingOrder π ρ) (hp : n.partAt? l = some p) :
    n.InReadingOrder (l :: π) (l :: ρ) := by
  simp only [InReadingOrder, List.cons_prefix_cons, true_and, spanAt_cons hp]
  exact h.imp_right fun h => h.imp_right fun h => h.shift _

/-- What is in a part stands on the left of what is in a part that comes later. -/
lemma leftOf_of_parts {l' : Link} {p' : Node} (h : (n.spanOf l).LeftOf (n.spanOf l'))
    (hp : n.partAt? l = some p) (hp' : n.partAt? l' = some p') (hm : p.at? π = some m) (ρ : Place) :
    (n.spanAt (l :: π)).LeftOf (n.spanAt (l' :: ρ)) := by
  rw [spanAt_cons hp, spanAt_cons hp']
  calc
    (n.spanOf l).start + (p.spanAt π).stop ≤ (n.spanOf l).start + p.text.length :=
      Nat.add_le_add_left (spells_spanAt hm).stop_le _
    _ = (n.spanOf l).stop := (spells_spanOf hp).1.stop_eq.symm
    _ ≤ (n.spanOf l').start := h
    _ ≤ (n.spanOf l').start + (p'.spanAt ρ).start := Nat.le_add_right _ _

/-- Every tour of a tree goes through its text from left to right. -/
theorem pairwise_tour (pre post : Node → List α) (n : Node) :
    (n.tour pre post).Pairwise fun x y => n.InReadingOrder x.1 y.1 := by
  induction n using inductionOnParts with
  | step n ih =>
    have hitems {items : List α} {x : Place × α} (h : x ∈ items.map ([], ·)) (π : Place) :
        x.1 <+: π := by
      obtain ⟨_, -, rfl⟩ := List.mem_map.1 h
      exact List.nil_prefix
    have hitemsAll (items : List α) : (items.map (([] : Place), ·)).Pairwise
        fun x y => n.InReadingOrder x.1 y.1 :=
      List.pairwise_of_forall_mem_list fun _ hx y _ => .inl (hitems hx y.1)
    have hbelow : (n.branches.flatMap fun b => beneath [b.1] (b.2.tour pre post)).Pairwise
        fun x y => n.InReadingOrder x.1 y.1 := by
      refine List.pairwise_flatMap.2 ⟨fun b hb => ?_, ?_⟩
      · have hpart := ih b.2 (mem_parts_of_mem_branches hb)
        exact List.pairwise_map.2 (hpart.imp fun h => h.beneath (mem_branches.1 hb))
      · refine n.pairwise_spanOf.imp_of_mem fun {b b'} hb hb' h x hx y hy => .inr (.inr ?_)
        obtain ⟨π, hπ, hx⟩ := mem_beneath.1 hx
        obtain ⟨ρ, -, hy⟩ := mem_beneath.1 hy
        obtain ⟨m, hm, -⟩ := mem_tour.1 hπ
        rw [hx, hy]
        exact leftOf_of_parts h (mem_branches.1 hb) (mem_branches.1 hb') hm ρ
    rw [tour_eq, List.pairwise_append, List.pairwise_append]
    exact ⟨⟨hitemsAll _, hbelow, fun _ hx y _ => .inl (hitems hx y.1)⟩, hitemsAll _,
      fun x _ _ hy => .inr (.inl (hitems hy x.1))⟩

end Node

/-- The text of a tree has that of each of its nodes in a span, nested as the tree is and ordered as
its nodes are visited: the callbacks of a walk are called for nodes at places, and unless one of two
such nodes is above the other, the one that comes first stands on the left. -/
theorem Node.text_spans (config : Config) (n : Node) (v : Visitors σ)
    (s : Session (Recorded σ) Counters) :
    n.LaidOut n.spanAt ∧
      ∃ (calls : List Call) (visits : List (Place × Node)),
        ((v.recorded.walkTree config n).run s).2.caller.calls = s.caller.calls ++ calls ∧
        calls.map (·.event.node) = visits.map Prod.snd ∧
        (∀ x ∈ visits, n.at? x.1 = some x.2 ∧ (n.spanAt x.1).Spells n.text x.2.text) ∧
        visits.Pairwise fun x y => n.InReadingOrder x.1 y.1 := by
  refine ⟨n.laidOut, ?_⟩
  obtain ⟨calls, hcalls, hscheduled⟩ := v.walkTree_scheduled config n s
  have hsub : (calls.map (·.event)).Sublist (n.placed.map Prod.snd) := by
    rw [n.map_snd_placed]
    exact hscheduled.initial.sublist.trans List.filter_sublist
  obtain ⟨placed, hplaced, hevents⟩ := List.sublist_map_iff.1 hsub
  refine ⟨calls, placed.map fun x => (x.1, x.2.node), hcalls, ?_, ?_, ?_⟩
  · have hnodes := congrArg (List.map Event.node) hevents
    rw [List.map_map, List.map_map] at hnodes
    rw [List.map_map]
    exact hnodes
  · intro x hx
    obtain ⟨⟨π, e⟩, he, rfl⟩ := List.mem_map.1 hx
    have hat := at?_of_mem_placed (hplaced.subset he)
    exact ⟨hat, spells_spanAt hat⟩
  · exact List.pairwise_map.2 ((n.pairwise_tour opening closing).sublist hplaced)

/-- The conditions of a left join stand after both of its inputs. -/
theorem Node.text_spans_leftJoin :
    let n := Node.op (.leftJoin (.scan "T" none) .empty [.var ⟨"x"⟩])
    n.text = "(leftjoin (scan T) (empty) (?x))" ∧ n.spanAt [⟨.exprs, 0⟩] = ⟨28, 30⟩ ∧
      (n.spanAt [⟨.exprs, 0⟩]).Spells n.text "?x" ∧
      (n.spanAt [⟨.children, 1⟩]).LeftOf (n.spanAt [⟨.exprs, 0⟩]) := by
  intro n
  have hcondition : (Node.expr (.var ⟨"x"⟩)).text = "?x" := by decide +kernel
  obtain ⟨hlaid, -⟩ := text_spans {} n Visitors.counting ⟨⟨0, []⟩, {}, #[]⟩
  obtain ⟨-, hrest⟩ := List.pairwise_cons.1 (hlaid.ordered [] n rfl)
  refine ⟨by decide +kernel, by decide +kernel, ?_, ?_⟩
  · exact hcondition ▸ hlaid.spells [⟨.exprs, 0⟩] _ rfl
  · exact (List.pairwise_cons.1 hrest).1 _ (.head _)

end QueryPlan
