import QueryPlan.Tree.Basic

/-!
# Sample plans

The plans that the command line works on, each with a name and a description.
-/

namespace QueryPlan

/-- A plan with a name. -/
structure Sample where
  name : String
  description : String
  plan : Op

namespace Sample

/-- A reference to a variable. -/
def ref (name : String) : Expr := .var ⟨name⟩

/-- The sample plans, in the order in which they are listed. -/
def all : List Sample :=
  [{ name := "filter-project"
     description := "filter over a projection of a single scan"
     plan :=
      .filter [.function .greaterThan [ref "x", .const (.int 5)]]
        (.project [⟨"x"⟩] (.scan "T" none)) },
   { name := "exists"
     description := "filter whose condition tests a nested subquery"
     plan :=
      .filter
        [.function .and
          [.existence false (.filter [.function .equals [ref "o", ref "id"]] (.scan "S" none)),
           .function .lessThan [ref "age", .const (.int 30)]]]
        (.scan "T" none) },
   { name := "grouped-join"
     description := "grouped, extended and ordered join of two tables"
     plan :=
      .order [⟨.descending, ref "avg"⟩]
        (.extend ⟨[(⟨"avg"⟩, .function .divide [ref "total", ref "n"])]⟩
          (.group ⟨[(⟨"dept"⟩, ref "dept")]⟩
            ⟨[(⟨"n"⟩, .aggregate .count false none),
              (⟨"total"⟩, .aggregate .sum false (some (ref "salary")))]⟩
            (.join (.scan "employees" (some "e")) (.scan "departments" (some "d")) .auto))) },
   { name := "union"
     description := "union of filtered scans under a slice"
     plan :=
      .slice none (some 10)
        (.union
          (.filter [.function .greaterThan [ref "x", .const (.int 1)]] (.scan "A" none))
          (.leftJoin (.scan "B" none) (.scan "C" none) [.function .equals [ref "b", ref "c"]])) }]

/-- The sample of a name. -/
def find? (name : String) : Option Sample := all.find? (·.name == name)

end Sample

end QueryPlan
