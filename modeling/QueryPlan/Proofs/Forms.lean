import Mathlib.Data.List.Basic
import Mathlib.Tactic.Common

/-!
# Bracketed forms

A `Form` is a token or a list of forms, printed in brackets with single blanks between them. If
its tokens are words or quotations (`Token`), a form can be read back from the text that it begins,
whatever follows, as long as the text goes on with a blank or a closing bracket if at all
(`Form.Proper.append_inj`). So forms with one text are equal (`Form.Proper.eq_of_text`).
-/

namespace QueryPlan

/-- A printed form. -/
inductive Form where
  | atom (token : String)
  | list (items : List Form)

namespace Form

/-- The text of a form. -/
def text : Form → String
  | atom token => token
  | list items => "(" ++ " ".intercalate (items.attach.map fun ⟨f, _⟩ => f.text) ++ ")"
termination_by f => sizeOf f

/-- A list of forms prints in brackets, with a blank between any two items. -/
lemma text_list (items : List Form) :
    (list items).text = "(" ++ " ".intercalate (items.map text) ++ ")" := by
  rw [text, List.attach_map_val]

/-- A property holds of all forms if each list inherits it from its items. -/
theorem inductionOnItems {motive : Form → Prop} (f : Form) (atom : ∀ token, motive (.atom token))
    (list : ∀ items, (∀ f ∈ items, motive f) → motive (.list items)) : motive f :=
  match f with
  | .atom token => atom token
  | .list items => list items fun f _ => inductionOnItems f atom list
termination_by sizeOf f

/-- The texts of items after the first, each after a blank. -/
def following (items : List Form) : String := String.join (items.map fun f => " " ++ f.text)

/-- After no items there is no more text. -/
@[simp] lemma following_nil : following [] = "" := rfl

/-- Each item is printed after a blank. -/
@[simp] lemma following_cons (f : Form) (items : List Form) :
    following (f :: items) = " " ++ f.text ++ following items :=
  String.join_cons

/-- The empty list prints as its two brackets. -/
lemma text_list_nil : (list []).text = "()" := by
  rw [text_list]
  rfl

/-- The first item stands behind the opening bracket without a blank. -/
lemma text_list_cons (f : Form) (items : List Form) :
    (list (f :: items)).text = "(" ++ f.text ++ following items ++ ")" := by
  have hitems (f : Form) : " ".intercalate ((f :: items).map text) = f.text ++ following items := by
    induction items generalizing f with
    | nil => simp
    | cons g items ih =>
      rw [List.map_cons, List.map_cons, String.intercalate_cons_cons, ← List.map_cons, ih g,
        following_cons]
      simp only [String.append_assoc]
  rw [text_list, hitems]
  simp only [String.append_assoc]

/-! ### Characters -/

/-- The characters of items after the first, and of the closing bracket. -/
def trail (items : List Form) : List Char := (following items ++ ")").toList

/-- After the last item comes the closing bracket. -/
lemma trail_nil : trail [] = [')'] := rfl

/-- The characters of an item that is not the first come after a blank. -/
lemma trail_cons (f : Form) (items : List Form) :
    trail (f :: items) = ' ' :: (f.text.toList ++ trail items) := by
  simp [trail]

/-- The empty list is an opening bracket and a trail. -/
lemma toList_text_nil : (list []).text.toList = '(' :: trail [] := by
  rw [text_list_nil]
  rfl

/-- A list is an opening bracket, its first item and a trail. -/
lemma toList_text_cons (f : Form) (items : List Form) :
    (list (f :: items)).text.toList = '(' :: (f.text.toList ++ trail items) := by
  simp [text_list_cons, trail]

/-- What may follow a form: nothing, or more of the list that it is an item of. -/
inductive Ends : List Char → Prop where
  | nil :
    Ends []
  | blank {cs} :
    Ends (' ' :: cs)
  | closing {cs} :
    Ends (')' :: cs)

/-- What follows an item of a list may follow a form. -/
lemma ends_trail (items : List Form) (cs : List Char) : Ends (trail items ++ cs) := by
  cases items with
  | nil => exact .closing
  | cons f items =>
    rw [trail_cons]
    exact .blank

end Form

/-! ### Tokens -/

/-- A name that can stand in a form. -/
structure Word (s : String) : Prop where
  nonempty : s ≠ ""
  plain : ∀ c ∈ s.toList, c ≠ ' ' ∧ c ≠ '(' ∧ c ≠ ')' ∧ c ≠ '"'

/-- It is decided character by character whether a text is a word. -/
instance (s : String) : Decidable (Word s) :=
  have : Decidable (∀ c ∈ s.toList, c ≠ ' ' ∧ c ≠ '(' ∧ c ≠ ')' ∧ c ≠ '"') :=
    List.decidableBAll _ s.toList
  decidable_of_iff (s ≠ "" ∧ ∀ c ∈ s.toList, c ≠ ' ' ∧ c ≠ '(' ∧ c ≠ ')' ∧ c ≠ '"')
    ⟨fun ⟨hne, hplain⟩ => ⟨hne, hplain⟩, fun ⟨hne, hplain⟩ => ⟨hne, hplain⟩⟩

/-- A token is a word, or a quotation of characters without a quote. -/
inductive Token : String → Prop where
  | word {s} :
    Word s →
    Token s
  | quotation {s} :
    '"' ∉ s.toList →
    Token ("\"" ++ s ++ "\"")

/-- A word begins with a character that begins no list and no quotation. -/
lemma Word.exists_toList {s : String} (h : Word s) :
    ∃ c cs, s.toList = c :: cs ∧ c ≠ ' ' ∧ c ≠ '(' ∧ c ≠ ')' ∧ c ≠ '"' := by
  rcases hs : s.toList with _ | ⟨c, cs⟩
  · exact absurd (String.toList_eq_nil_iff.1 hs) h.nonempty
  · exact ⟨c, cs, rfl, h.plain c (hs ▸ .head _)⟩

/-- A quotation is its characters between two quotes. -/
lemma toList_quotation (s : String) :
    ("\"" ++ s ++ "\"").toList = '"' :: (s.toList ++ ['"']) := by
  rw [String.toList_append, String.toList_append]
  rfl

/-- A token begins neither a list nor what may follow a form. -/
lemma Token.exists_toList {s : String} (h : Token s) :
    ∃ c cs, s.toList = c :: cs ∧ c ≠ '(' ∧ c ≠ ')' := by
  cases h with
  | word h =>
    obtain ⟨c, cs, hs, -, hopen, hclose, -⟩ := h.exists_toList
    exact ⟨c, cs, hs, hopen, hclose⟩
  | quotation h => exact ⟨'"', _, toList_quotation _, by decide, by decide⟩

/-- Two stretches of characters that both end where a stopping one follows are equal. -/
lemma append_inj_of_stops {stop : Char → Prop} {xs ys rest rest' : List Char}
    (hxs : ∀ x ∈ xs, ¬ stop x) (hys : ∀ y ∈ ys, ¬ stop y)
    (hrest : ∀ x ∈ rest.head?, stop x) (hrest' : ∀ x ∈ rest'.head?, stop x)
    (h : xs ++ rest = ys ++ rest') : xs = ys ∧ rest = rest' := by
  induction xs generalizing ys with
  | nil =>
    cases ys with
    | nil => exact ⟨rfl, h⟩
    | cons y ys =>
      cases h
      exact absurd (hrest y rfl) (hys y (.head _))
  | cons x xs ih =>
    cases ys with
    | nil =>
      cases h
      exact absurd (hrest' x rfl) (hxs x (.head _))
    | cons y ys =>
      obtain ⟨hhead, htail⟩ := List.cons.inj h
      obtain ⟨heq, hends⟩ :=
        ih (fun x hx => hxs x (.tail _ hx)) (fun y hy => hys y (.tail _ hy)) htail
      exact ⟨congrArg₂ List.cons hhead heq, hends⟩

/-- A form is followed by a blank or a closing bracket, if by anything. -/
lemma Form.Ends.head {cs : List Char} (h : Ends cs) : ∀ c ∈ cs.head?, c = ' ' ∨ c = ')' := by
  cases h with
  | nil => exact fun _ hc => nomatch hc
  | blank =>
    rintro _ ⟨⟩
    exact .inl rfl
  | closing =>
    rintro _ ⟨⟩
    exact .inr rfl

/-- A token can be read back from the text that it begins. -/
lemma Token.append_inj {s t : String} (hs : Token s) (ht : Token t) {cs cs' : List Char}
    (hcs : Form.Ends cs) (hcs' : Form.Ends cs') (h : s.toList ++ cs = t.toList ++ cs') :
    s = t ∧ cs = cs' := by
  have hword {s t : String} {cs cs' : List Char} (hs : Word s) (ht : '"' ∉ t.toList) :
      s.toList ++ cs ≠ ("\"" ++ t ++ "\"").toList ++ cs' := by
    obtain ⟨c, ds, hds, -, -, -, hquote⟩ := hs.exists_toList
    rw [hds, toList_quotation]
    intro h
    exact hquote (List.cons.inj h).1
  cases hs with
  | word hs =>
    cases ht with
    | word ht =>
      have hplain {s : String} (hs : Word s) : ∀ c ∈ s.toList, ¬ (c = ' ' ∨ c = ')') :=
        fun c hc hstop => hstop.elim (hs.plain c hc).1 (hs.plain c hc).2.2.1
      obtain ⟨heq, hends⟩ := append_inj_of_stops (hplain hs) (hplain ht) hcs.head hcs'.head h
      exact ⟨String.ext heq, hends⟩
    | quotation ht => exact absurd h (hword hs ht)
  | quotation hs =>
    cases ht with
    | word ht => exact absurd h.symm (hword ht hs)
    | @quotation t ht =>
      rw [toList_quotation, toList_quotation, List.cons_append, List.cons_append,
        List.append_assoc, List.append_assoc] at h
      have hinner {s : String} (hs : '"' ∉ s.toList) : ∀ c ∈ s.toList, ¬ c = '"' :=
        fun c hc heq => hs (heq ▸ hc)
      have hquote (cs : List Char) : ∀ c ∈ (['"'] ++ cs).head?, c = '"' :=
        fun c hc => (Option.some.inj hc).symm
      obtain ⟨heq, hends⟩ := append_inj_of_stops (hinner hs) (hinner ht) (hquote cs) (hquote cs')
        (List.cons.inj h).2
      cases String.ext heq
      exact ⟨rfl, (List.cons.inj hends).2⟩

namespace Form

/-! ### Reading a form back -/

/-- Every token of a form is one. -/
inductive Proper : Form → Prop where
  | ofToken {token} :
    Token token →
    Proper (atom token)
  | ofItems {items} :
    (∀ f ∈ items, Proper f) →
    Proper (list items)

/-- A list begins with an opening bracket. -/
lemma toList_text_list (items : List Form) : ∃ cs, (list items).text.toList = '(' :: cs := by
  cases items with
  | nil => exact ⟨_, toList_text_nil⟩
  | cons f items => exact ⟨_, toList_text_cons f items⟩

/-- No form begins with a closing bracket. -/
lemma Proper.toList_text {f : Form} (h : f.Proper) : ∃ c cs, f.text.toList = c :: cs ∧ c ≠ ')' := by
  cases h with
  | ofToken h =>
    obtain ⟨c, cs, hs, -, hclose⟩ := h.exists_toList
    rw [text]
    exact ⟨c, cs, hs, hclose⟩
  | @ofItems items =>
    obtain ⟨cs, hcs⟩ := toList_text_list items
    exact ⟨'(', cs, hcs, by decide⟩

/-- A token begins no list. -/
lemma atom_ne_list {s : String} (h : Token s) (items : List Form) (cs cs' : List Char) :
    (atom s).text.toList ++ cs ≠ (list items).text.toList ++ cs' := by
  obtain ⟨c, ds, hs, hopen, -⟩ := h.exists_toList
  obtain ⟨es, hes⟩ := toList_text_list items
  rw [text, hs, hes]
  intro h
  exact hopen (List.cons.inj h).1

/-- A form can be read back from the text that it begins, whatever follows. -/
def ReadsBack (f : Form) : Prop :=
  ∀ ⦃g⦄, g.Proper → ∀ ⦃cs cs'⦄, Ends cs → Ends cs' →
    f.text.toList ++ cs = g.text.toList ++ cs' → f = g ∧ cs = cs'

/-- The trail of a list can be read back if its items can. -/
lemma trail_append_inj {items items' : List Form} {cs cs' : List Char}
    (hitems : ∀ f ∈ items, f.ReadsBack) (hitems' : ∀ f ∈ items', f.Proper)
    (h : trail items ++ cs = trail items' ++ cs') : items = items' ∧ cs = cs' := by
  induction items generalizing items' with
  | nil =>
    cases items' with
    | nil => exact ⟨rfl, (List.cons.inj h).2⟩
    | cons g items' =>
      rw [trail_nil, trail_cons] at h
      exact absurd (List.cons.inj h).1 (by decide)
  | cons f items ih =>
    cases items' with
    | nil =>
      rw [trail_nil, trail_cons] at h
      exact absurd (List.cons.inj h).1 (by decide)
    | cons g items' =>
      simp only [trail_cons, List.cons_append, List.append_assoc] at h
      obtain ⟨rfl, hrest⟩ := hitems f (.head _) (hitems' g (.head _)) (ends_trail items cs)
        (ends_trail items' cs') (List.cons.inj h).2
      obtain ⟨rfl, hends⟩ := ih (fun f hf => hitems f (.tail _ hf))
        (fun g hg => hitems' g (.tail _ hg)) hrest
      exact ⟨rfl, hends⟩

/-- A list can be read back if its items can. -/
lemma list_append_inj {items items' : List Form} {cs cs' : List Char}
    (hitems : ∀ f ∈ items, f.Proper ∧ f.ReadsBack) (hitems' : ∀ f ∈ items', f.Proper)
    (h : (list items).text.toList ++ cs = (list items').text.toList ++ cs') :
    items = items' ∧ cs = cs' := by
  -- an empty list closes where the first item of another one begins
  have hne {f : Form} (hf : f.Proper) {ds ds' : List Char} :
      '(' :: (')' :: ds) ≠ '(' :: (f.text.toList ++ ds') := by
    obtain ⟨c, es, hc, hclose⟩ := hf.toList_text
    rw [hc]
    intro h
    exact hclose (List.cons.inj (List.cons.inj h).2).1.symm
  cases items with
  | nil =>
    cases items' with
    | nil => exact ⟨rfl, List.append_cancel_left h⟩
    | cons g items' =>
      simp only [toList_text_nil, toList_text_cons, List.cons_append, List.append_assoc] at h
      exact absurd h (hne (hitems' g (.head _)))
  | cons f items =>
    cases items' with
    | nil =>
      simp only [toList_text_nil, toList_text_cons, List.cons_append, List.append_assoc] at h
      exact absurd h.symm (hne (hitems f (.head _)).1)
    | cons g items' =>
      simp only [toList_text_cons, List.cons_append, List.append_assoc] at h
      obtain ⟨rfl, hrest⟩ := (hitems f (.head _)).2 (hitems' g (.head _)) (ends_trail items cs)
        (ends_trail items' cs') (List.cons.inj h).2
      obtain ⟨rfl, hends⟩ := trail_append_inj (fun f hf => (hitems f (.tail _ hf)).2)
        (fun g hg => hitems' g (.tail _ hg)) hrest
      exact ⟨rfl, hends⟩

/-- A form of tokens can be read back. -/
theorem Proper.readsBack {f : Form} (hf : f.Proper) : f.ReadsBack := by
  induction f using inductionOnItems with
  | atom s =>
    intro g hg cs cs' hcs hcs' h
    cases hf with
    | ofToken hs =>
      cases hg with
      | ofToken ht =>
        rw [text, text] at h
        obtain ⟨rfl, hends⟩ := hs.append_inj ht hcs hcs' h
        exact ⟨rfl, hends⟩
      | ofItems => exact absurd h (atom_ne_list hs _ _ _)
  | list items ih =>
    intro g hg cs cs' hcs hcs' h
    cases hf with
    | ofItems hitems =>
      cases hg with
      | ofToken ht => exact absurd h.symm (atom_ne_list ht _ _ _)
      | ofItems hitems' =>
        obtain ⟨rfl, hends⟩ :=
          list_append_inj (fun f hf => ⟨hitems f hf, ih f hf (hitems f hf)⟩) hitems' h
        exact ⟨rfl, hends⟩

/-- Forms with one text are equal. -/
theorem Proper.eq_of_text {f g : Form} (hf : f.Proper) (hg : g.Proper) (h : f.text = g.text) :
    f = g :=
  (hf.readsBack hg .nil .nil (congrArg (·.toList ++ []) h)).1

end Form

end QueryPlan
