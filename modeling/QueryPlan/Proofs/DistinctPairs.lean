import QueryPlan.Proofs.BindingHistory
import QueryPlan.Proofs.RebuiltParts

/-!
# Pairs with different variables

A binding list is made from pairs by adding one after the other, and an addition is refused if the
variable is bound already. So the pairs are accepted exactly if their variables are different, and
otherwise the variable that is reported is the first one that occurred before (`FirstRepeat`).

Every binding list that is ever made has different variables (`LinkedMap.Built.distinct`), so it can
be made again from its own pairs, and its variables can be bound to new values.
-/

namespace QueryPlan

variable {v : Var} {vars : List Var} {pairs : List (Var × Expr)}

/-- The variable at the smallest index at which stands one that occurred before. -/
structure FirstRepeat (vars : List Var) (i : Nat) (v : Var) : Prop where
  here : vars[i]? = some v
  earlier : ∃ j < i, vars[j]? = some v
  least : ∀ k < i, ∀ j < k, vars[j]? ≠ vars[k]?

/-- In front of it all variables are different, and it is among them. -/
lemma exists_firstRepeat_iff :
    (∃ i, FirstRepeat vars i v) ↔
      ∃ first last, vars = first ++ v :: last ∧ first.Nodup ∧ v ∈ first := by
  constructor
  · rintro ⟨i, hhere, ⟨j, hj, hearlier⟩, hleast⟩
    obtain ⟨hi, rfl⟩ := List.getElem?_eq_some_iff.1 hhere
    refine ⟨vars.take i, vars.drop (i + 1), ?_, ?_, ?_⟩
    · rw [← List.drop_eq_getElem_cons hi, List.take_append_drop]
    · refine List.nodup_iff_getElem?_ne_getElem?.2 fun j k hjk hk => ?_
      have hki : k < i := Nat.lt_of_lt_of_le hk (List.length_take_le i vars)
      rw [List.getElem?_take_of_lt (hjk.trans hki), List.getElem?_take_of_lt hki]
      exact hleast k hki j hjk
    · refine List.mem_of_getElem? (i := j) ?_
      rw [List.getElem?_take_of_lt hj, hearlier]
  · rintro ⟨first, last, rfl, hnodup, hmem⟩
    obtain ⟨j, hj, hv⟩ := List.mem_iff_getElem.1 hmem
    refine ⟨first.length, ?_, ⟨j, hj, ?_⟩, fun k hk j hjk => ?_⟩
    · rw [List.getElem?_append_right (Nat.le_refl _), Nat.sub_self, List.getElem?_cons_zero]
    · rw [List.getElem?_append_left hj, List.getElem?_eq_some_iff]
      exact ⟨hj, hv⟩
    · rw [List.getElem?_append_left (hjk.trans hk), List.getElem?_append_left hk]
      exact List.nodup_iff_getElem?_ne_getElem?.1 hnodup j k hjk hk

/-! ### Making binding lists -/

namespace Bindings

variable {b c : Bindings Expr} {d : DuplicateVariable}

/-- The loop stops at the first pair whose variable is bound already, by the list that it started
from or by a pair before. -/
lemma foldlM_add_eq_error_iff (h : b.Distinct) :
    pairs.foldlM (fun b p => b.add p.1 p.2) b = .error d ↔
      ∃ first e last, pairs = first ++ (d.var, e) :: last ∧
        (b.vars ++ first.map Prod.fst).Nodup ∧ d.var ∈ b.vars ++ first.map Prod.fst := by
  -- from any list of bindings, for the loop goes on from what it has added
  induction pairs generalizing b with
  | nil =>
    refine iff_of_false (fun hadd => nomatch hadd) ?_
    rintro ⟨first, e, last, hnil, -⟩
    exact List.append_ne_nil_of_right_ne_nil _ (List.cons_ne_nil _ _) hnil.symm
  | cons p pairs ih =>
    rw [List.foldlM_cons]
    by_cases hp : p.1 ∈ b.vars
    · have hadd : b.add p.1 p.2 = .error ⟨p.1⟩ := add_eq_error_iff.2 ⟨hp, rfl⟩
      rw [hadd]
      constructor
      · rintro ⟨⟩
        refine ⟨[], p.2, pairs, rfl, ?_, ?_⟩
        · rwa [List.map_nil, List.append_nil]
        · rwa [List.map_nil, List.append_nil]
      · rintro ⟨first, e, last, hpairs, hnodup, -⟩
        cases first with
        | nil =>
          cases hpairs
          rfl
        | cons q first =>
          -- then the first pair would repeat a variable of `b`
          cases hpairs
          exact absurd (.head _) (List.disjoint_of_nodup_append hnodup hp)
    · have hadd : b.add p.1 p.2 = .ok (b.appended p.1 p.2) := add_eq_ok_iff.2 ⟨hp, rfl⟩
      have hvars : (b.appended p.1 p.2).vars = b.vars ++ [p.1] := List.map_append
      rw [hadd]
      refine (ih (h.add hadd)).trans ?_
      rw [hvars]
      constructor
      · rintro ⟨first, e, last, rfl, hnodup, hmem⟩
        refine ⟨p :: first, e, last, rfl, ?_, ?_⟩
        · rwa [List.append_assoc] at hnodup
        · rwa [List.append_assoc] at hmem
      · rintro ⟨first, e, last, hpairs, hnodup, hmem⟩
        cases first with
        | nil =>
          cases hpairs
          rw [List.map_nil, List.append_nil] at hmem
          exact absurd hmem hp
        | cons q first =>
          cases hpairs
          refine ⟨first, e, last, rfl, ?_, ?_⟩
          · rwa [List.append_assoc]
          · rwa [List.append_assoc]

/-- Pairs make a list exactly if their variables are different, and it has them as its entries. -/
lemma ofList?_eq_ok_iff :
    ofList? pairs = .ok b ↔ (pairs.map Prod.fst).Nodup ∧ b = ⟨pairs⟩ := by
  constructor
  · intro hadd
    obtain ⟨hentries, hdistinct⟩ := foldlM_add_entries (b := empty) List.nodup_nil hadd
    obtain ⟨entries⟩ := b
    cases hentries
    exact ⟨hdistinct, rfl⟩
  · rintro ⟨hnodup, rfl⟩
    exact ofList?_eq_ok hnodup

/-- What is reported is the first variable that occurred before. -/
lemma ofList?_eq_error_iff :
    ofList? pairs = .error d ↔ ∃ i, FirstRepeat (pairs.map Prod.fst) i d.var := by
  rw [ofList?, foldlM_add_eq_error_iff (b := empty) List.nodup_nil, exists_firstRepeat_iff]
  constructor
  · rintro ⟨first, e, last, rfl, hnodup, hmem⟩
    exact ⟨first.map Prod.fst, last.map Prod.fst, List.map_append, hnodup, hmem⟩
  · rintro ⟨vars, vars', hvars, hnodup, hmem⟩
    obtain ⟨first, last', rfl, rfl, hlast⟩ := List.map_eq_append_iff.1 hvars
    obtain ⟨p, last, rfl, hp, -⟩ := List.map_eq_cons_iff.1 hlast
    exact ⟨first, p.2, last, by rw [← hp], hnodup, hmem⟩

end Bindings

/-! ### Making linked maps -/

namespace LinkedMap

variable {μ : Type} (M : LinkedMap μ Var Expr)

/-- The linked map that keeps the bindings of a list of pairs. -/
def ofPairs (pairs : List (Var × Expr)) : Except DuplicateVariable μ :=
  pairs.foldlM (fun m p => M.add m p.1 p.2) M.new

/-- The variables of a linked map, in their order, bound to new values. -/
def rebind (m : μ) (values : List Expr) : Except DuplicateVariable μ :=
  M.ofPairs ((M.keys m).zip values)

/-- The linked maps that keep binding lists: they are made by guarded insertions alone. -/
inductive Built : μ → Prop where
  | new :
    Built M.new
  | add {m m' v e} :
    Built m →
    M.add m v e = .ok m' →
    Built m'

variable {M} {m m' : μ}

/-- Pairs that are added to a map that was built give one that was built. -/
lemma Built.foldlM (hm : M.Built m)
    (h : pairs.foldlM (fun m p => M.add m p.1 p.2) m = .ok m') : M.Built m' := by
  induction pairs generalizing m with
  | nil =>
    cases h
    exact hm
  | cons p pairs ih =>
    rw [List.foldlM_cons] at h
    rcases hp : M.add m p.1 p.2 with d | m₁
    · rw [hp] at h
      cases h
    · rw [hp] at h
      exact ih (hm.add hp) h

/-- No variable is bound twice in them. -/
lemma Built.distinct (hM : M.Lawful) (h : M.Built m) : (M.bindings m).Distinct := by
  induction h with
  | new =>
    show ((M.iter M.new).map Prod.fst).Nodup
    rw [hM.iter_new]
    exact List.nodup_nil
  | @add m m' v e _ hadd ih =>
    refine ih.add (v := v) (a := e) ?_
    rw [← hM.add_eq, hadd]
    rfl

namespace Lawful

variable (hM : M.Lawful)

include hM

/-- What pairs make in a linked map is the binding list that they make. -/
lemma ofPairs_eq (pairs : List (Var × Expr)) :
    (M.ofPairs pairs).map M.bindings = Bindings.ofList? pairs := by
  have hnew : M.bindings M.new = .empty := congrArg Bindings.mk hM.iter_new
  rw [ofPairs, hM.foldlM_add_eq, hnew, Bindings.ofList?]

/-- The map that pairs make keeps the binding list that they make. -/
lemma ofList?_of_ofPairs (h : M.ofPairs pairs = .ok m) :
    Bindings.ofList? pairs = .ok (M.bindings m) := by
  rw [← hM.ofPairs_eq, h]
  rfl

/-- A linked map reports the first variable that occurred before. -/
lemma ofPairs_eq_error_iff {d : DuplicateVariable} :
    M.ofPairs pairs = .error d ↔ ∃ i, FirstRepeat (pairs.map Prod.fst) i d.var := by
  rw [← Bindings.ofList?_eq_error_iff, ← hM.ofPairs_eq]
  rcases M.ofPairs pairs with d' | m
  · constructor
    · rintro ⟨⟩
      rfl
    · rintro ⟨⟩
      rfl
  · exact iff_of_false (fun h => nomatch h) fun h => nomatch h

/-- Pairs with different variables are kept as they are. -/
lemma ofPairs_of_nodup (h : (pairs.map Prod.fst).Nodup) :
    ∃ m, M.ofPairs pairs = .ok m ∧ M.bindings m = ⟨pairs⟩ := by
  rcases hmade : M.ofPairs pairs with d | m
  · have hlist := Bindings.ofList?_eq_ok h
    rw [← hM.ofPairs_eq, hmade] at hlist
    cases hlist
  · exact ⟨m, rfl, (Bindings.ofList?_eq_ok_iff.1 (hM.ofList?_of_ofPairs hmade)).2⟩

/-- The variables of a list that was made may be bound to other values. -/
lemma rebind_of_built (hm : M.Built m) {es : List Expr} (hes : es.length = M.len m) :
    ∃ m', M.rebind m es = .ok m' ∧ M.bindings m' = ⟨(M.keys m).zip es⟩ ∧
      (M.bindings m').vars = M.keys m ∧ (M.bindings m').values = es := by
  have hkeys : M.keys m = (M.bindings m).vars := (hM.shows m).keys
  have hsize : es.length = (M.bindings m).size := hes.trans (hM.shows m).len
  have hvars := Bindings.vars_zip hsize
  rw [← hkeys] at hvars
  have hnodup : (((M.keys m).zip es).map Prod.fst).Nodup := by
    show (Bindings.mk ((M.keys m).zip es)).vars.Nodup
    rw [hvars, hkeys]
    exact hm.distinct hM
  obtain ⟨m', hm', hbindings⟩ := hM.ofPairs_of_nodup hnodup
  refine ⟨m', hm', hbindings, ?_, ?_⟩
  · rw [hbindings, hvars]
  · rw [hbindings, hkeys, Bindings.values_zip hsize]

/-- Pairs are accepted by a linked map exactly if their variables are different; it then holds these
pairs in their order, and otherwise the first variable that occurred before is reported.

Every binding list that was ever made in such a map can be made again from its own pairs, and its
variables can be bound to any values of their number, and stay in their order. -/
theorem ofPairs_roundTrips :
    (∀ pairs : List (Var × Expr),
      (M.ofPairs pairs).map M.bindings = Bindings.ofList? pairs ∧
      ((∃ m, M.ofPairs pairs = .ok m) ↔ (pairs.map Prod.fst).Nodup) ∧
      (∀ m, M.ofPairs pairs = .ok m → M.Built m ∧ M.iter m = pairs) ∧
      ∀ d, M.ofPairs pairs = .error d ↔ ∃ i, FirstRepeat (pairs.map Prod.fst) i d.var) ∧
    ∀ m, M.Built m →
      (∃ m', M.ofPairs (M.iter m) = .ok m' ∧ M.Shows m' (M.bindings m)) ∧
      Bindings.ofList? (M.bindings m).entries = .ok (M.bindings m) ∧
      ∀ es : List Expr, es.length = M.len m → ∃ m', M.rebind m es = .ok m' ∧
        M.Shows m' ⟨(M.keys m).zip es⟩ ∧ M.keys m' = M.keys m ∧ M.values m' = es ∧
        (M.bindings m).rebind es = .ok (M.bindings m') := by
  refine ⟨fun pairs => ⟨hM.ofPairs_eq pairs, ⟨?_, ?_⟩, fun m hm => ⟨?_, ?_⟩, fun d => ?_⟩,
    fun m hm => ⟨?_, ?_, fun es hes => ?_⟩⟩
  · rintro ⟨m, hm⟩
    exact (Bindings.ofList?_eq_ok_iff.1 (hM.ofList?_of_ofPairs hm)).1
  · intro hnodup
    obtain ⟨m, hm, -⟩ := hM.ofPairs_of_nodup hnodup
    exact ⟨m, hm⟩
  · exact Built.new.foldlM hm
  · have hbindings := (Bindings.ofList?_eq_ok_iff.1 (hM.ofList?_of_ofPairs hm)).2
    exact congrArg Bindings.entries hbindings
  · exact hM.ofPairs_eq_error_iff
  · obtain ⟨m', hm', hbindings⟩ := hM.ofPairs_of_nodup (hm.distinct hM)
    have hsame : M.bindings m' = M.bindings m := hbindings
    exact ⟨m', hm', hsame ▸ hM.shows m'⟩
  · exact Bindings.ofList?_eq_ok (hm.distinct hM)
  · obtain ⟨m', hm', hbindings, hvars, hvalues⟩ := hM.rebind_of_built hm hes
    refine ⟨m', hm', hbindings ▸ hM.shows m', ?_, ?_, ?_⟩
    · rw [(hM.shows m').keys, hvars]
    · rw [(hM.shows m').values, hvalues]
    · rw [hbindings, (hM.shows m).keys]
      exact Bindings.rebind_eq_ok (hm.distinct hM) (hes.trans (hM.shows m).len)

end Lawful

/-- Of two variables that occur twice the one whose second occurrence comes first is reported. The
variables of a list without doubles may be bound to other values. -/
theorem ofPairs_roundTrips_ofList :
    ofList.Lawful ∧
      ofList.ofPairs [(⟨"x"⟩, .const .null), (⟨"y"⟩, .var ⟨"x"⟩), (⟨"y"⟩, .const .null),
        (⟨"x"⟩, .var ⟨"y"⟩)] = .error ⟨⟨"y"⟩⟩ ∧
      (∃ i, FirstRepeat [⟨"x"⟩, ⟨"y"⟩, ⟨"y"⟩, ⟨"x"⟩] i ⟨"y"⟩) ∧
      ∃ m, ofList.rebind [(⟨"x"⟩, .const .null), (⟨"y"⟩, .var ⟨"x"⟩)]
          [.var ⟨"z"⟩, .const .null] = .ok m ∧
        ofList.Shows m ⟨[(⟨"x"⟩, .var ⟨"z"⟩), (⟨"y"⟩, .const .null)]⟩ := by
  obtain ⟨hpairs, hbuilt⟩ := lawful_ofList.ofPairs_roundTrips
  obtain ⟨-, -, -, herror⟩ := hpairs [(⟨"x"⟩, .const .null), (⟨"y"⟩, .var ⟨"x"⟩),
    (⟨"y"⟩, .const .null), (⟨"x"⟩, .var ⟨"y"⟩)]
  obtain ⟨-, -, hmade, -⟩ := hpairs [(⟨"x"⟩, .const .null), (⟨"y"⟩, .var ⟨"x"⟩)]
  obtain ⟨-, -, hrebind⟩ := hbuilt _ (hmade _ rfl).1
  obtain ⟨m, hm, hshows, -⟩ := hrebind [.var ⟨"z"⟩, .const .null] rfl
  exact ⟨lawful_ofList, rfl, (herror ⟨⟨"y"⟩⟩).1 rfl, m, hm, hshows⟩

end LinkedMap

end QueryPlan
