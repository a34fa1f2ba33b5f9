import Mathlib.Data.List.Forall2
import Mathlib.Tactic.Tauto
import QueryPlan.Proofs.DoubleNumbers
import QueryPlan.Proofs.FramesAtPlaces
import QueryPlan.Root

/-!
# When plans are the same

`Node.same` goes through two trees side by side. What it decides can be said place by place: trees
are alike if the frames at each place are equal, except for the sign of a literal zero
(`Node.Alike`), and two trees are the same exactly when they are alike and neither holds a NaN
(`Node.same_iff`, `Root.same_iff`). So the NaNs are all that keeps `same` from being an equivalence
(`Root.same_partial_equivalence`).

The proofs give every zero of a tree one sign (`LeafMap.unsigned`). Trees are alike when this makes
them equal (`Node.alike_iff`), which is an equivalence and goes along with frames and parts.
-/

namespace QueryPlan

/-- Frames that are equal, except that a literal zero may have either sign. -/
inductive Frame.Alike : Frame → Frame → Prop where
  | refl (f : Frame) :
    Alike f f
  | zeros {x y : Double} :
    x.isZero = true →
    y.isZero = true →
    Alike (.const (.double x)) (.const (.double y))

/-- The frame of a literal that is a NaN. -/
def Frame.isNaN : Frame → Bool
  | const v => v.isNaN
  | _ => false

/-- Trees with frames that are alike at every place where one of them has a node. -/
def Node.Alike (m n : Node) : Prop := ∀ π, Option.Rel Frame.Alike (m.frameAt? π) (n.frameAt? π)

/-- No literal at any place is a NaN. -/
def Node.NaNFree (n : Node) : Prop := ∀ π f, n.frameAt? π = some f → f.isNaN = false

/-- What a root is apart from its trees. -/
inductive RootFrame where
  | op
  | expr
  | exprs
  | bindings (vars : List Var)

namespace Root

/-- The kind of a root, with the variables of a binding list. -/
def frame : Root → RootFrame
  | op _ => .op
  | expr _ => .expr
  | exprs _ => .exprs
  | bindings b => .bindings b.vars

/-- Roots of one kind, with the same variables in the same order and as many trees, alike one by
one. -/
structure Alike (a b : Root) : Prop where
  frame : a.frame = b.frame
  trees : List.Forall₂ Node.Alike a.trees b.trees

/-- No literal of any tree is a NaN. -/
def NaNFree (a : Root) : Prop := ∀ n ∈ a.trees, n.NaNFree

end Root

/-! ### One sign for zeros -/

namespace Double

variable {x y : Double}

/-- The double itself, or the positive zero for a zero of either sign. -/
def unsigned (x : Double) : Double := if x.isZero then ⟨0⟩ else x

/-- Without their signs two doubles are equal if they were, or if both are zeros. -/
lemma unsigned_eq_iff : x.unsigned = y.unsigned ↔ x = y ∨ x.isZero = true ∧ y.isZero = true := by
  have hzero : (⟨0⟩ : Double).isZero = true := by decide
  rw [unsigned, unsigned]
  constructor
  · intro h
    split at h <;> split at h <;> simp_all
  · rintro (rfl | ⟨hx, hy⟩)
    · rfl
    · rw [if_pos hx, if_pos hy]

/-- Doubles are the same if they are equal up to the sign of a zero, and neither is a NaN. -/
lemma same_iff_unsigned :
    x.same y = true ↔ x.unsigned = y.unsigned ∧ x.isNaN = false ∧ y.isNaN = false := by
  simp only [same, Bool.and_eq_true, Bool.or_eq_true, Bool.not_eq_true', beq_iff_eq,
    unsigned_eq_iff]
  exact and_comm

end Double

namespace Value

variable {v w : Value}

/-- The literal with one sign for zeros. -/
def unsigned : Value → Value
  | double x => double x.unsigned
  | v => v

/-- Literals are the same if they are equal up to the sign of a zero, and neither is a NaN. -/
lemma same_iff_unsigned :
    v.same w = true ↔ v.unsigned = w.unsigned ∧ v.isNaN = false ∧ w.isNaN = false := by
  cases v <;> cases w <;> simp [same, unsigned, isNaN, Double.same_iff_unsigned]

end Value

namespace Frame

variable {f g : Frame}

/-- The frame with one sign for zeros. -/
def unsigned : Frame → Frame
  | const v => const v.unsigned
  | f => f

/-- Frames are the same if they are equal up to the sign of a zero, and neither holds a NaN. -/
lemma same_iff_unsigned :
    f.same g = true ↔ f.unsigned = g.unsigned ∧ f.isNaN = false ∧ g.isNaN = false := by
  cases f <;> cases g <;> simp [same, unsigned, isNaN, Value.same_iff_unsigned]

/-- Frames are alike if giving zeros one sign makes them equal. -/
lemma alike_iff : f.Alike g ↔ f.unsigned = g.unsigned := by
  constructor
  · intro h
    cases h with
    | refl => rfl
    | zeros hx hy => exact congrArg (const ∘ .double) (Double.unsigned_eq_iff.2 (.inr ⟨hx, hy⟩))
  · intro h
    -- only the literals are left, and of these the doubles
    cases f <;> cases g <;> try (cases h <;> exact .refl _)
    case const.const v w =>
      have hvalue : v.unsigned = w.unsigned := const.inj h
      cases v <;> cases w <;> try (cases hvalue <;> exact .refl _)
      case double.double x y =>
        rcases Double.unsigned_eq_iff.1 (Value.double.inj hvalue) with rfl | ⟨hx, hy⟩
        · exact .refl _
        · exact .zeros hx hy

end Frame

/-- Every literal zero becomes the positive one. -/
def LeafMap.unsigned : LeafMap where
  onOp o := o
  onExpr
    | .const v => .const v.unsigned
    | e => e
  op_leaf _ h := h
  op_composite _ _ := rfl
  expr_leaf e he := by cases e <;> first | rfl | cases he
  expr_compound e he := by cases e <;> first | rfl | cases he

/-- In the tree with one sign for zeros the root has its frame with one sign for zeros. -/
lemma LeafMap.frame_unsigned (n : Node) : (unsigned.apply n).frame = n.frame.unsigned := by
  rw [frame_apply]
  cases n with
  | op o => cases o <;> rfl
  | expr e => cases e <;> rfl

/-- In the tree with one sign for zeros every frame is the old one with one sign for zeros. -/
lemma LeafMap.frameAt?_unsigned (n : Node) (π : Place) :
    (unsigned.apply n).frameAt? π = (n.frameAt? π).map Frame.unsigned := by
  rw [Node.frameAt?, Node.frameAt?, at?_apply, Option.map_map, Option.map_map]
  exact congrArg (Option.map · _) (funext frame_unsigned)

/-! ### Trees -/

/-- A test of two lists, member by member, for a relation and a property of each member. -/
lemma isEqv_iff {α : Type} {same : α → α → Bool} {R : α → α → Prop} {P : α → Prop}
    {as bs : List α} (h : ∀ a ∈ as, ∀ b, same a b = true ↔ R a b ∧ P a ∧ P b) :
    as.isEqv bs same = true ↔
      List.Forall₂ R as bs ∧ (∀ a ∈ as, P a) ∧ ∀ b ∈ bs, P b := by
  induction as generalizing bs with
  | nil => cases bs <;> simp [List.isEqv]
  | cons a as ih =>
    cases bs with
    | nil => simp [List.isEqv]
    | cons b bs =>
      have hrest := @ih bs fun a ha => h a (.tail _ ha)
      simp only [List.isEqv_cons_cons, Bool.and_eq_true, h a (.head _), hrest,
        List.forall₂_cons, List.forall_mem_cons]
      tauto

namespace Node

variable {m n : Node}

/-- Trees are alike if giving zeros one sign makes them equal. -/
lemma alike_iff : m.Alike n ↔ LeafMap.unsigned.apply m = LeafMap.unsigned.apply n := by
  have hrel (a b : Option Frame) :
      Option.Rel Frame.Alike a b ↔ a.map Frame.unsigned = b.map Frame.unsigned := by
    cases a <;> cases b <;> simp [Frame.alike_iff]
  constructor
  · intro h
    refine eq_of_frames fun π => ?_
    rw [LeafMap.frameAt?_unsigned, LeafMap.frameAt?_unsigned]
    exact (hrel _ _).1 (h π)
  · intro h π
    rw [hrel, ← LeafMap.frameAt?_unsigned, ← LeafMap.frameAt?_unsigned, h]

/-- Lists of trees are alike, one by one, if giving zeros one sign makes the lists equal. -/
lemma forall₂_alike_iff {ms ns : List Node} :
    List.Forall₂ Alike ms ns ↔ ms.map LeafMap.unsigned.apply = ns.map LeafMap.unsigned.apply := by
  have halike : Alike = fun p q => LeafMap.unsigned.apply p = LeafMap.unsigned.apply q :=
    funext₂ fun _ _ => propext alike_iff
  rw [halike, ← List.forall₂_eq_eq_eq, List.forall₂_map_left_iff, List.forall₂_map_right_iff]

/-- Trees are alike if their frames are and they have parts that are alike one by one. -/
lemma alike_iff_parts :
    m.Alike n ↔ m.frame.Alike n.frame ∧ List.Forall₂ Alike m.parts n.parts := by
  rw [alike_iff, Frame.alike_iff, ← LeafMap.frame_unsigned, ← LeafMap.frame_unsigned,
    forall₂_alike_iff, ← LeafMap.parts_apply, ← LeafMap.parts_apply]
  constructor
  · intro h
    exact ⟨congrArg frame h, congrArg parts h⟩
  · rintro ⟨hframe, hparts⟩
    exact eq_of_frame_of_parts hframe hparts

/-- A tree is free of NaNs if its frame and all its parts are. -/
lemma naNFree_iff_parts : n.NaNFree ↔ n.frame.isNaN = false ∧ ∀ p ∈ n.parts, p.NaNFree := by
  constructor
  · intro h
    refine ⟨h [] _ rfl, fun p hp π f hf => ?_⟩
    obtain ⟨l, hl⟩ := exists_partAt? hp
    apply h (l :: π) f
    rw [frameAt?_cons, hl]
    exact hf
  · rintro ⟨hframe, hparts⟩ π f hf
    cases π with
    | nil =>
      cases hf
      exact hframe
    | cons l π =>
      rw [frameAt?_cons] at hf
      obtain ⟨p, hp, hf⟩ := Option.bind_eq_some_iff.1 hf
      exact hparts p (mem_parts_of_mem_branches (mem_branches.2 hp)) π f hf

/-- Trees are the same exactly when they are alike and there is no NaN in either. -/
theorem same_iff : m.same n = true ↔ m.Alike n ∧ m.NaNFree ∧ n.NaNFree := by
  induction m using inductionOnParts generalizing n with
  | step m ih =>
    rw [same_eq, Bool.and_eq_true, Frame.same_iff_unsigned, ← Frame.alike_iff, sameAll,
      isEqv_iff fun p hp q => ih p hp, alike_iff_parts, naNFree_iff_parts, naNFree_iff_parts]
    tauto

end Node

/-! ### Roots -/

namespace Root

variable {a b c : Root}

/-- Roots are the same if they are of one kind and their trees are the same one by one. -/
lemma same_eq : a.same b = true ↔ a.frame = b.frame ∧ a.trees.isEqv b.trees Node.same = true := by
  have hlist (es fs : List Expr) :
      (es.map Node.expr).isEqv (fs.map Node.expr) Node.same = Expr.sameList es fs := by
    induction es generalizing fs with
    | nil => cases fs <;> rfl
    | cons e es ih =>
      cases fs with
      | nil => rfl
      | cons f fs => exact congrArg _ (ih fs)
  cases a <;> cases b <;>
    simp [same, frame, trees, List.isEqv, Op.same, Expr.same, Bindings.same, hlist]

/-- Roots are the same exactly when they are alike and there is no NaN in either. -/
lemma same_iff : a.same b = true ↔ a.Alike b ∧ a.NaNFree ∧ b.NaNFree := by
  rw [same_eq, isEqv_iff fun m _ n => Node.same_iff (m := m) (n := n)]
  constructor
  · rintro ⟨hframe, htrees, ha, hb⟩
    exact ⟨⟨hframe, htrees⟩, ha, hb⟩
  · rintro ⟨⟨hframe, htrees⟩, ha, hb⟩
    exact ⟨hframe, htrees, ha, hb⟩

/-- Roots that are literal doubles are the same as the doubles are. -/
lemma same_double (x y : Double) :
    (expr (.const (.double x))).same (expr (.const (.double y))) = x.same y := by
  rw [same, Expr.same, Node.same_eq]
  exact Bool.and_true _

namespace Alike

/-- Every root is like itself. -/
lemma refl (a : Root) : a.Alike a :=
  ⟨rfl, Node.forall₂_alike_iff.2 rfl⟩

/-- Likeness does not depend on the order of the two roots. -/
lemma symm (h : a.Alike b) : b.Alike a :=
  ⟨h.frame.symm, Node.forall₂_alike_iff.2 (Node.forall₂_alike_iff.1 h.trees).symm⟩

/-- Roots that are like one and the same root are alike. -/
lemma trans (h : a.Alike b) (h' : b.Alike c) : a.Alike c := by
  refine ⟨h.frame.trans h'.frame, Node.forall₂_alike_iff.2 ?_⟩
  exact (Node.forall₂_alike_iff.1 h.trees).trans (Node.forall₂_alike_iff.1 h'.trees)

end Alike

/-- Being the same is symmetric and transitive. A root is the same as itself exactly when no literal
in it is a NaN. Two roots are the same exactly when they are alike, up to the signs of zeros, and
there is no NaN in either; of literals that are doubles this means that they stand for one
number. -/
theorem same_partial_equivalence (a b c : Root) :
    (a.same b = true → b.same a = true) ∧
      (a.same b = true → b.same c = true → a.same c = true) ∧
      (a.same a = true ↔ a.NaNFree) ∧
      (a.same b = true ↔ a.Alike b ∧ a.NaNFree ∧ b.NaNFree) ∧
      ∀ x y : Double, (expr (.const (.double x))).same (expr (.const (.double y))) = true ↔
        ∃ v, x.number? = some v ∧ y.number? = some v := by
  refine ⟨fun h => ?_, fun h h' => ?_, ?_, same_iff, fun x y => ?_⟩
  · obtain ⟨halike, ha, hb⟩ := same_iff.1 h
    exact same_iff.2 ⟨halike.symm, hb, ha⟩
  · obtain ⟨halike, ha, -⟩ := same_iff.1 h
    obtain ⟨halike', -, hc⟩ := same_iff.1 h'
    exact same_iff.2 ⟨halike.trans halike', ha, hc⟩
  · rw [same_iff, and_self]
    exact and_iff_right (.refl a)
  · rw [← Double.same_iff_number, same_double]

/-- Two plans that differ in the sign of a zero in an existence test. -/
theorem same_partial_equivalence_zeros :
    let plan (x : Double) := op (.filter [.existence false
      (.extend ⟨[(⟨"x"⟩, .const (.double x))]⟩ .empty)] (.scan "T" none))
    (plan ⟨0⟩).same (plan ⟨0x8000000000000000⟩) = true ∧
      (plan ⟨0x8000000000000000⟩).same (plan ⟨0⟩) = true ∧
      (plan ⟨0⟩).same (plan ⟨0⟩) = true ∧ (plan ⟨0⟩).Alike (plan ⟨0x8000000000000000⟩) := by
  intro plan
  have h : (plan ⟨0⟩).same (plan ⟨0x8000000000000000⟩) = true := by decide +kernel
  obtain ⟨hsymm, htrans, -, hiff, -⟩ :=
    same_partial_equivalence (plan ⟨0⟩) (plan ⟨0x8000000000000000⟩) (plan ⟨0⟩)
  exact ⟨h, hsymm h, htrans h (hsymm h), (hiff.1 h).1⟩

end Root

end QueryPlan
