import Mathlib.Data.List.Nodup
import QueryPlan.Proofs.PrintedForms

/-!
# Histories of binding lists

A binding list is made from pairs and then used: something is added, or looked up. Whatever the
history, the list is the sequence of the successful insertions (`Bindings.history_entries`), and
everything that can be asked of it says the same (`Bindings.Enumerates`).

The bindings may be kept in any map that is linked in the order of insertions (`LinkedMap.Lawful`).
Such a map replaces an entry and moves it to the end when its key is inserted again, but the guard
in front of the insertion keeps that from happening: the entries are at every moment those of the
binding list (`LinkedMap.Lawful.history_eq`).
-/

namespace QueryPlan

/-- A use of a binding list. -/
inductive Access where
  | add (v : Var) (e : Expr)
  | get (v : Var)
  | contains (v : Var)

/-- The answer to a use. -/
inductive Reply where
  | added (result : Except DuplicateVariable Unit)
  | found (value : Option Expr)
  | bound (answer : Bool)

/-- The pairs whose additions succeeded, in order. -/
def insertions (uses : List Access) (replies : List Reply) : List (Var × Expr) :=
  (uses.zip replies).filterMap fun
    | (.add v e, .added (.ok ())) => some (v, e)
    | _ => none

/-! ### Binding lists -/

namespace Bindings

variable {b c : Bindings Expr} {v w : Var} {e : Expr}

/-- Use a binding list. A refused addition leaves it as it is. -/
def access : Access → StateM (Bindings Expr) Reply
  | .add v e => fun b =>
    match b.add v e with
    | .ok c => (.added (.ok ()), c)
    | .error d => (.added (.error d), b)
  | .get v => fun b => (.found (b.get? v), b)
  | .contains v => fun b => (.bound (b.contains v), b)

/-- The answers to uses of the list that pairs make, and the list after them. -/
def history (pairs : List (Var × Expr)) (uses : List Access) :
    Except DuplicateVariable (List Reply × Bindings Expr) :=
  (ofList? pairs).map (uses.mapM access).run

/-- The list with one more binding at the end. -/
def appended (b : Bindings Expr) (v : Var) (e : Expr) : Bindings Expr := ⟨b.entries ++ [(v, e)]⟩

/-- A second binding of a variable is refused and leaves the list as it is. -/
lemma access_add_of_contains (h : b.contains v = true) :
    access (.add v e) b = (.added (.error ⟨v⟩), b) := by
  have hadd : b.add v e = .error ⟨v⟩ := add_eq_error_iff.2 ⟨contains_iff.1 h, rfl⟩
  simp only [access, hadd]

/-- The binding of a new variable succeeds and is appended. -/
lemma access_add_of_not_contains (h : b.contains v = false) :
    access (.add v e) b = (.added (.ok ()), b.appended v e) := by
  have hv : v ∉ b.vars := fun hmem => Bool.false_ne_true (h.symm.trans (contains_iff.2 hmem))
  have hadd : b.add v e = .ok (b.appended v e) := add_eq_ok_iff.2 ⟨hv, rfl⟩
  simp only [access, hadd]

/-- A use appends the pair of a successful addition, and keeps the variables distinct. -/
lemma access_entries (a : Access) (h : b.Distinct) :
    (access a b).2.entries = b.entries ++ insertions [a] [(access a b).1] ∧
      (access a b).2.Distinct := by
  cases a with
  | get v | contains v => exact ⟨(List.append_nil _).symm, h⟩
  | add v e =>
    by_cases hv : b.contains v = true
    · rw [access_add_of_contains hv]
      exact ⟨(List.append_nil _).symm, h⟩
    · rw [access_add_of_not_contains (Bool.eq_false_iff.2 hv)]
      exact ⟨rfl, h.add (add_eq_ok_iff.2 ⟨fun hmem => hv (contains_iff.2 hmem), rfl⟩)⟩

/-- The first use is answered before the others, which find what it has left. -/
lemma run_cons {μ : Type} (f : Access → StateM μ Reply) (a : Access) (uses : List Access) (m : μ) :
    ((a :: uses).mapM f).run m =
      ((f a m).1 :: ((uses.mapM f).run (f a m).2).1, ((uses.mapM f).run (f a m).2).2) := by
  rw [List.mapM_cons]
  rfl

/-- The successful insertions of the first use come before those of the others. -/
lemma insertions_cons (a : Access) (uses : List Access) (r : Reply) (replies : List Reply) :
    insertions (a :: uses) (r :: replies) = insertions [a] [r] ++ insertions uses replies :=
  List.filterMap_append (l := [(a, r)])

/-- Uses append the pairs of their successful additions, and keep the variables distinct. -/
lemma run_entries (uses : List Access) (h : b.Distinct) :
    ((uses.mapM access).run b).2.entries =
        b.entries ++ insertions uses ((uses.mapM access).run b).1 ∧
      ((uses.mapM access).run b).2.Distinct := by
  induction uses generalizing b with
  | nil => exact ⟨(List.append_nil _).symm, h⟩
  | cons a uses ih =>
    obtain ⟨hentries, hdistinct⟩ := access_entries a h
    obtain ⟨hrest, hend⟩ := ih hdistinct
    rw [run_cons]
    refine ⟨?_, hend⟩
    rw [insertions_cons, ← List.append_assoc, ← hentries]
    exact hrest

/-- Pairs that can all be added are appended in order, and the variables stay distinct. -/
lemma foldlM_add_entries {pairs : List (Var × Expr)} (h : b.Distinct)
    (hadd : pairs.foldlM (fun b p => b.add p.1 p.2) b = .ok c) :
    c.entries = b.entries ++ pairs ∧ c.Distinct := by
  induction pairs generalizing b with
  | nil =>
    cases hadd
    exact ⟨(List.append_nil _).symm, h⟩
  | cons p pairs ih =>
    rw [List.foldlM_cons] at hadd
    rcases hp : b.add p.1 p.2 with d | b'
    · rw [hp] at hadd
      cases hadd
    · rw [hp] at hadd
      obtain ⟨hentries, hdistinct⟩ := ih (h.add hp) hadd
      obtain ⟨-, rfl⟩ := add_eq_ok_iff.1 hp
      exact ⟨by rw [hentries, List.append_assoc, List.singleton_append], hdistinct⟩

/-- After a history a list has the pairs it was made from and those of the successful additions. -/
lemma history_entries {pairs : List (Var × Expr)} {uses : List Access} {replies : List Reply}
    (h : history pairs uses = .ok (replies, b)) :
    b.entries = pairs ++ insertions uses replies ∧ b.Distinct := by
  rw [history] at h
  rcases hpairs : ofList? pairs with d | b₀
  · rw [hpairs] at h
    cases h
  · rw [hpairs] at h
    have hempty : (empty : Bindings Expr).Distinct := List.nodup_nil
    obtain ⟨hentries, hdistinct⟩ := foldlM_add_entries hempty hpairs
    obtain ⟨hrun, hend⟩ := run_entries uses hdistinct
    have hok : (uses.mapM access).run b₀ = (replies, b) := Except.ok.inj h
    rw [hok] at hrun hend
    exact ⟨hrun.trans (congrArg (· ++ _) hentries), hend⟩

/-! ### What can be asked -/

/-- A binding list is a sequence of pairs with different variables, whatever is asked of it. -/
structure Enumerates (b : Bindings Expr) (pairs : List (Var × Expr)) : Prop where
  distinct : (pairs.map Prod.fst).Nodup
  entries : b.entries = pairs
  size : b.size = pairs.length
  vars : b.vars = pairs.map Prod.fst
  values : b.values = pairs.map Prod.snd
  text : (Root.bindings b).text =
    "(" ++ " ".intercalate (pairs.map fun p => "(" ++ p.1.text ++ " " ++ p.2.text ++ ")") ++ ")"
  get? : ∀ v e, b.get? v = some e ↔ (v, e) ∈ pairs
  contains : ∀ v, b.contains v = (b.get? v).isSome

/-- A binding list prints as its pairs, each in brackets, one after the other. -/
lemma text_eq (b : Bindings Expr) :
    (Root.bindings b).text = "(" ++ " ".intercalate
      (b.entries.map fun p => "(" ++ p.1.text ++ " " ++ p.2.text ++ ")") ++ ")" := by
  rw [Root.text, Root.pieces, Piece.bindingList, Piece.render_bracketed, List.map_map]
  congr 3

/-- In pairs with different variables a variable has the value of the pair that it is in. -/
lemma lookup_eq_some_iff_mem {pairs : List (Var × Expr)} (h : (pairs.map Prod.fst).Nodup) :
    pairs.lookup v = some e ↔ (v, e) ∈ pairs := by
  induction pairs with
  | nil => simp
  | cons p pairs ih =>
    obtain ⟨w, f⟩ := p
    obtain ⟨hw, hpairs⟩ := List.nodup_cons.1 h
    by_cases hv : v = w
    · have hnot (e : Expr) : (w, e) ∉ pairs :=
        fun hmem => hw (List.mem_map.2 ⟨(w, e), hmem, rfl⟩)
      simp [hv, hnot, eq_comm]
    · simp [List.lookup_cons, beq_eq_false_iff_ne.2 hv, hv, ih hpairs]

/-- A variable has a value exactly if it is one of the variables. -/
lemma isSome_lookup (pairs : List (Var × Expr)) (v : Var) :
    (pairs.lookup v).isSome = (pairs.map Prod.fst).contains v := by
  induction pairs with
  | nil => rfl
  | cons p pairs ih =>
    obtain ⟨w, f⟩ := p
    by_cases hv : v = w
    · simp [hv]
    · simpa [List.lookup_cons, beq_eq_false_iff_ne.2 hv] using ih

/-- Pairs are compared as their variables are and their values are. -/
lemma isEqv_pairs (same : Expr → Expr → Bool) (pairs pairs' : List (Var × Expr)) :
    (pairs.isEqv pairs' fun p q => decide (p.1 = q.1) && same p.2 q.2) =
      (pairs.map Prod.fst == pairs'.map Prod.fst &&
        (pairs.map Prod.snd).isEqv (pairs'.map Prod.snd) same) := by
  induction pairs generalizing pairs' with
  | nil => cases pairs' <;> rfl
  | cons p pairs ih =>
    cases pairs' with
    | nil => rfl
    | cons q pairs' =>
      simp only [List.map_cons, List.isEqv_cons_cons, List.cons_beq_cons, ih]
      ac_rfl

/-- Binding lists are equal if they have the same size and their pairs are equal in order. -/
lemma same_eq_isEqv_entries (b c : Bindings Expr) :
    b.same c = (b.size == c.size &&
      b.entries.isEqv c.entries fun p q => decide (p.1 = q.1) && p.2.same q.2) := by
  by_cases hsize : b.size = c.size
  · rw [beq_iff_eq.2 hsize, Bool.true_and, isEqv_pairs]
    rfl
  · have hvars : b.vars ≠ c.vars := by
      intro hvars
      have hlength := congrArg List.length hvars
      rw [vars, vars, List.length_map, List.length_map] at hlength
      exact hsize hlength
    rw [same, beq_eq_false_iff_ne.2 hvars, beq_eq_false_iff_ne.2 hsize, Bool.false_and,
      Bool.false_and]

/-- A list with different variables is the sequence of its entries, whatever is asked of it. -/
lemma Distinct.enumerates (h : b.Distinct) : b.Enumerates b.entries where
  distinct := h
  entries := rfl
  size := rfl
  vars := rfl
  values := rfl
  text := b.text_eq
  get? _ _ := lookup_eq_some_iff_mem h
  contains v := (isSome_lookup b.entries v).symm

/-- An added variable is found with its value, and nothing else is answered differently. -/
lemma get?_appended (hv : b.contains v = false) : (b.appended v e).get? v = some e := by
  have hnone : b.entries.lookup v = none := by
    rw [contains, vars, ← isSome_lookup] at hv
    exact Option.isSome_eq_false_iff.1 hv |> Option.isNone_iff_eq_none.1
  simp [get?, appended, List.lookup_append, hnone]

/-- The value of another variable is not changed by a binding at the end. -/
lemma get?_appended_of_ne (hw : w ≠ v) : (b.appended v e).get? w = b.get? w := by
  simp [get?, appended, List.lookup_append, List.lookup_cons, beq_eq_false_iff_ne.2 hw]

/-- Another variable is no more and no less bound after a binding at the end. -/
lemma contains_appended_of_ne (hw : w ≠ v) : (b.appended v e).contains w = b.contains w := by
  simp [contains, appended, vars, hw]

end Bindings

/-! ### Linked maps -/

/-- The operations of a map whose entries are linked in the order of their insertions. Two maps are
compared by an equality of their values. -/
structure LinkedMap (μ κ ν : Type) where
  new : μ
  insert : μ → κ → ν → μ
  get? : μ → κ → Option ν
  containsKey : μ → κ → Bool
  len : μ → Nat
  keys : μ → List κ
  values : μ → List ν
  iter : μ → List (κ × ν)
  same : (ν → ν → Bool) → μ → μ → Bool

namespace LinkedMap

variable {μ : Type}

/-- What is documented of a linked map, in terms of its entries in their order. An entry whose key
is inserted again gives way to the new one, which stands at the end. Two maps are equal if they have
the same length and their entries are equal one after the other. -/
structure Lawful {κ ν : Type} [DecidableEq κ] (M : LinkedMap μ κ ν) : Prop where
  iter_new : M.iter M.new = []
  iter_insert : ∀ m k a, M.iter (M.insert m k a) = (M.iter m).filter (·.1 ≠ k) ++ [(k, a)]
  get?_eq : ∀ m k, M.get? m k = (M.iter m).lookup k
  containsKey_eq : ∀ m k, M.containsKey m k = (M.keys m).contains k
  len_eq : ∀ m, M.len m = (M.iter m).length
  keys_eq : ∀ m, M.keys m = (M.iter m).map Prod.fst
  values_eq : ∀ m, M.values m = (M.iter m).map Prod.snd
  same_eq : ∀ eq m n, M.same eq m n = (M.len m == M.len n &&
    (M.iter m).isEqv (M.iter n) fun p q => decide (p.1 = q.1) && eq p.2 q.2)

section

variable (M : LinkedMap μ Var Expr)

/-- One more binding, unless the variable is bound already. -/
def add (m : μ) (v : Var) (e : Expr) : Except DuplicateVariable μ :=
  if M.containsKey m v then .error ⟨v⟩ else .ok (M.insert m v e)

/-- Use a binding list that is kept in a linked map. -/
def access : Access → StateM μ Reply
  | .add v e => fun m =>
    match M.add m v e with
    | .ok m' => (.added (.ok ()), m')
    | .error d => (.added (.error d), m)
  | .get v => fun m => (.found (M.get? m v), m)
  | .contains v => fun m => (.bound (M.containsKey m v), m)

/-- The answers to uses of the list that pairs make, and the map after them. -/
def history (pairs : List (Var × Expr)) (uses : List Access) :
    Except DuplicateVariable (List Reply × μ) :=
  (pairs.foldlM (fun m p => M.add m p.1 p.2) M.new).map (uses.mapM M.access).run

/-- The binding list that a linked map keeps. -/
def bindings (m : μ) : Bindings Expr := ⟨M.iter m⟩

/-- A linked map answers everything as a binding list does. -/
structure Shows (m : μ) (b : Bindings Expr) : Prop where
  iter : M.iter m = b.entries
  len : M.len m = b.size
  keys : M.keys m = b.vars
  values : M.values m = b.values
  get? : ∀ v, M.get? m v = b.get? v
  containsKey : ∀ v, M.containsKey m v = b.contains v

end

namespace Lawful

variable {M : LinkedMap μ Var Expr} (hM : M.Lawful)

include hM

/-- A lawful map answers everything as the binding list does that it keeps. -/
lemma shows (m : μ) : M.Shows m (M.bindings m) where
  iter := rfl
  len := hM.len_eq m
  keys := hM.keys_eq m
  values := hM.values_eq m
  get? := hM.get?_eq m
  containsKey v := by
    rw [hM.containsKey_eq, hM.keys_eq]
    rfl

/-- Linked maps are equal as the binding lists are that they keep. -/
lemma same_bindings (m n : μ) :
    M.same Expr.same m n = (M.bindings m).same (M.bindings n) := by
  rw [hM.same_eq, hM.len_eq, hM.len_eq]
  exact ((M.bindings m).same_eq_isEqv_entries (M.bindings n)).symm

/-- Without doubles in them linked maps are equal exactly if they have the same entries. -/
lemma same_iff_iter_eq {m : μ} (h : ∀ e ∈ M.values m, (Node.expr e).NoDoubles) (n : μ) :
    M.same Expr.same m n = true ↔ M.iter m = M.iter n := by
  rw [hM.values_eq] at h
  rw [hM.same_bindings]
  exact Bindings.same_iff_entries_eq h

/-- Behind the guard an insertion only appends. -/
lemma bindings_insert {m : μ} {v : Var} (hv : (M.bindings m).contains v = false) (e : Expr) :
    M.bindings (M.insert m v e) = (M.bindings m).appended v e := by
  have hkeep : (M.iter m).filter (·.1 ≠ v) = M.iter m := by
    refine List.filter_eq_self.2 fun p hp => decide_eq_true ?_
    rintro rfl
    have hmem : p.1 ∈ (M.bindings m).vars := List.mem_map_of_mem hp
    exact Bool.false_ne_true (hv.symm.trans (Bindings.contains_iff.2 hmem))
  show Bindings.mk (M.iter (M.insert m v e)) = _
  rw [hM.iter_insert, hkeep]
  rfl

/-- A linked map refuses to bind a variable again, and stays as it is. -/
lemma access_add_of_contains {m : μ} {v : Var} (hv : (M.bindings m).contains v = true) (e : Expr) :
    M.access (.add v e) m = (.added (.error ⟨v⟩), m) := by
  have hadd : M.add m v e = .error ⟨v⟩ := if_pos (((hM.shows m).containsKey v).trans hv)
  simp only [access, hadd]

/-- A linked map accepts a new variable. -/
lemma access_add_of_not_contains {m : μ} {v : Var} (hv : (M.bindings m).contains v = false)
    (e : Expr) : M.access (.add v e) m = (.added (.ok ()), M.insert m v e) := by
  have hkey : ¬ M.containsKey m v = true :=
    ne_true_of_eq_false (((hM.shows m).containsKey v).trans hv)
  have hadd : M.add m v e = .ok (M.insert m v e) := if_neg hkey
  simp only [access, hadd]

/-- An addition to a linked map is one to the binding list that it keeps. -/
lemma add_eq (m : μ) (v : Var) (e : Expr) :
    (M.add m v e).map M.bindings = (M.bindings m).add v e := by
  rw [add, Bindings.add, (hM.shows m).containsKey]
  by_cases hv : (M.bindings m).contains v = true
  · rw [if_pos hv, if_pos hv]
    rfl
  · rw [if_neg hv, if_neg hv]
    exact congrArg Except.ok (hM.bindings_insert (Bool.eq_false_iff.2 hv) e)

/-- A use of a linked map is answered by the binding list that it keeps. -/
lemma access_eq (a : Access) (m : μ) :
    Bindings.access a (M.bindings m) = ((M.access a m).1, M.bindings (M.access a m).2) := by
  cases a with
  | add v e =>
    by_cases hv : (M.bindings m).contains v = true
    · rw [Bindings.access_add_of_contains hv, hM.access_add_of_contains hv]
    · have hv := Bool.eq_false_iff.2 hv
      rw [Bindings.access_add_of_not_contains hv, hM.access_add_of_not_contains hv,
        hM.bindings_insert hv]
  | get v => exact congrArg (fun x => (Reply.found x, M.bindings m)) ((hM.shows m).get? v).symm
  | contains v =>
    exact congrArg (fun x => (Reply.bound x, M.bindings m)) ((hM.shows m).containsKey v).symm

/-- Uses of a linked map are answered by the binding list that it keeps. -/
lemma run_eq (uses : List Access) (m : μ) :
    (uses.mapM Bindings.access).run (M.bindings m) =
      (((uses.mapM M.access).run m).1, M.bindings ((uses.mapM M.access).run m).2) := by
  induction uses generalizing m with
  | nil => rfl
  | cons a uses ih =>
    rw [Bindings.run_cons, Bindings.run_cons, hM.access_eq, ih]

/-- Additions to a linked map are additions to the binding list that it keeps. -/
lemma foldlM_add_eq (pairs : List (Var × Expr)) (m : μ) :
    (pairs.foldlM (fun m p => M.add m p.1 p.2) m).map M.bindings =
      pairs.foldlM (fun b p => b.add p.1 p.2) (M.bindings m) := by
  induction pairs generalizing m with
  | nil => rfl
  | cons p pairs ih =>
    rw [List.foldlM_cons, List.foldlM_cons, ← hM.add_eq]
    rcases M.add m p.1 p.2 with d | m'
    · rfl
    · exact ih m'

/-- A history of a linked map is that of the binding list it keeps. -/
theorem history_eq (pairs : List (Var × Expr)) (uses : List Access) :
    Bindings.history pairs uses =
      (M.history pairs uses).map fun x => (x.1, M.bindings x.2) := by
  have hnew : M.bindings M.new = .empty := congrArg Bindings.mk hM.iter_new
  rw [Bindings.history, Bindings.ofList?, ← hnew, ← hM.foldlM_add_eq, history]
  rcases hmade : pairs.foldlM (fun m p => M.add m p.1 p.2) M.new with d | m
  · rw [hmade]
    rfl
  · rw [hmade]
    exact congrArg Except.ok (hM.run_eq uses m)

/-- Whatever its history, a binding list in a linked map is the sequence of the successful
insertions, and everything that is asked of it agrees with that. An addition of a bound variable is
refused without an effect, any other one appends its pair and changes no other answer. Lists
without doubles are equal exactly if their pairs are, in linked maps as well. -/
theorem enumerates_of_history {pairs : List (Var × Expr)} {uses : List Access}
    {replies : List Reply} {m : μ} (h : M.history pairs uses = .ok (replies, m)) :
    ∃ b, Bindings.history pairs uses = .ok (replies, b) ∧ M.Shows m b ∧
      b.Enumerates (pairs ++ insertions uses replies) ∧
      (∀ v e, b.contains v = true →
        M.access (.add v e) m = (.added (.error ⟨v⟩), m) ∧
          Bindings.access (.add v e) b = (.added (.error ⟨v⟩), b)) ∧
      (∀ v e, b.contains v = false → ∃ m',
        M.access (.add v e) m = (.added (.ok ()), m') ∧
          Bindings.access (.add v e) b = (.added (.ok ()), b.appended v e) ∧
          M.Shows m' (b.appended v e) ∧ (b.appended v e).get? v = some e ∧
          ∀ w, w ≠ v → (b.appended v e).get? w = b.get? w ∧
            (b.appended v e).contains w = b.contains w) ∧
      (∀ c : Bindings Expr, (∀ e ∈ b.values, (Node.expr e).NoDoubles) →
        (∀ e ∈ c.values, (Node.expr e).NoDoubles) → (b.same c = true ↔ b.entries = c.entries)) ∧
      ∀ n : μ, M.same Expr.same m n = b.same (M.bindings n) ∧
        ((∀ e ∈ M.values m, (Node.expr e).NoDoubles) →
          (∀ e ∈ M.values n, (Node.expr e).NoDoubles) →
          (M.same Expr.same m n = true ↔ M.iter m = M.iter n)) := by
  have hhistory : Bindings.history pairs uses = .ok (replies, M.bindings m) := by
    rw [hM.history_eq, h]
    rfl
  obtain ⟨hentries, hdistinct⟩ := Bindings.history_entries hhistory
  refine ⟨M.bindings m, hhistory, hM.shows m, hentries ▸ hdistinct.enumerates,
    ?_, ?_, ?_, ?_⟩
  · intro v e hv
    exact ⟨hM.access_add_of_contains hv e, Bindings.access_add_of_contains hv⟩
  · intro v e hv
    have hshows := hM.shows (M.insert m v e)
    rw [hM.bindings_insert hv] at hshows
    exact ⟨M.insert m v e, hM.access_add_of_not_contains hv e,
      Bindings.access_add_of_not_contains hv, hshows, Bindings.get?_appended hv,
      fun w hw => ⟨Bindings.get?_appended_of_ne hw, Bindings.contains_appended_of_ne hw⟩⟩
  · intro c hb _
    exact Bindings.same_iff_entries_eq hb
  · intro n
    exact ⟨hM.same_bindings m n, fun hm _ => hM.same_iff_iter_eq hm n⟩

end Lawful

/-- A linked map that is the list of its entries. -/
def ofList : LinkedMap (List (Var × Expr)) Var Expr where
  new := []
  insert m v e := m.filter (·.1 ≠ v) ++ [(v, e)]
  get? m v := m.lookup v
  containsKey m v := (m.map Prod.fst).contains v
  len m := m.length
  keys m := m.map Prod.fst
  values m := m.map Prod.snd
  iter m := m
  same eq m n := m.length == n.length && m.isEqv n fun p q => decide (p.1 = q.1) && eq p.2 q.2

/-- The list of its entries is a lawful linked map. -/
lemma lawful_ofList : ofList.Lawful where
  iter_new := rfl
  iter_insert _ _ _ := rfl
  get?_eq _ _ := rfl
  containsKey_eq _ _ := rfl
  len_eq _ := rfl
  keys_eq _ := rfl
  values_eq _ := rfl
  same_eq _ _ _ := rfl

/-- In a list made from `x` and `y` a second binding of `x` is refused, and a first one of `z` is
not. -/
theorem enumerates_of_history_refused :
    ∃ b, Bindings.history [(⟨"x"⟩, .const .null), (⟨"y"⟩, .var ⟨"x"⟩)]
        [.add ⟨"x"⟩ (.const (.bool true)), .get ⟨"x"⟩, .add ⟨"z"⟩ (.var ⟨"y"⟩), .contains ⟨"z"⟩] =
          .ok ([.added (.error ⟨⟨"x"⟩⟩), .found (some (.const .null)), .added (.ok ()),
            .bound true], b) ∧
      b.Enumerates [(⟨"x"⟩, .const .null), (⟨"y"⟩, .var ⟨"x"⟩), (⟨"z"⟩, .var ⟨"y"⟩)] := by
  have h : ofList.history [(⟨"x"⟩, .const .null), (⟨"y"⟩, .var ⟨"x"⟩)]
      [.add ⟨"x"⟩ (.const (.bool true)), .get ⟨"x"⟩, .add ⟨"z"⟩ (.var ⟨"y"⟩), .contains ⟨"z"⟩] =
        .ok ([.added (.error ⟨⟨"x"⟩⟩), .found (some (.const .null)), .added (.ok ()), .bound true],
          [(⟨"x"⟩, .const .null), (⟨"y"⟩, .var ⟨"x"⟩), (⟨"z"⟩, .var ⟨"y"⟩)]) := rfl
  obtain ⟨b, hhistory, -, henumerates, -⟩ := lawful_ofList.enumerates_of_history h
  exact ⟨b, hhistory, henumerates⟩

end LinkedMap

end QueryPlan
