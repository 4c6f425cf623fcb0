import CellSat.Clause.Text
import CellSat.Template.Substitution
/-!
# Inflation of templates

A template is a clause list about one neighbourhood. Its inflation holds every clause once for
every substitution, after a comment that shows the template clause, and a clause that pins the
false wire if that wire is used.

* `Template.instantiate?`: one clause under one substitution;
* `Template.inflate`: a template under a list of substitutions;
* `Template.inflateGrid64`: a template at every node of a grid.
-/

namespace CellSat.Template

/-- The end of the names of variables of which each node has its own. -/
def helperEnd : String := "$"

/-- The clause that pins the false wire. -/
def pin : Clause := .unit Literal.zero.negate

/-- One clause under one substitution, unless it is true because of the false wire. -/
def instantiate? (d : Disjunction) (turn : Turn) (s : Substitution) : Option Disjunction :=
  let image := d.map (s.apply turn)
  if image.contains Literal.zero && image.contains Literal.zero.negate then none
  else some image

/-- The instances of one clause. -/
def instances (d : Disjunction) (turn : Turn) (ss : List Substitution) : List Disjunction :=
  ss.filterMap (instantiate? d turn)

/-- Whether disjunctions mention the false wire. -/
def mentionsZero (ds : List Disjunction) : Bool :=
  ds.any fun d => d.any fun l => l.name == Literal.zeroName

/-- The comment that shows a template clause. -/
def heading (d : Disjunction) (consequent : Option String) : Clause :=
  .comment ("Template: " ++ Clause.renderDisjunction d consequent)

/-- The lines that one line of a template becomes, and whether they mention the false wire. -/
def inflateLine (ss : List Substitution) (consequent : Option String) (turn : Turn) :
    Clause → List Clause × Bool
  | .comment text => ([.comment text], false)
  | .disjunction d =>
    let ds := instances d turn ss
    (heading d consequent :: ds.map .disjunction, mentionsZero ds)

/-- A template under every substitution. -/
def inflate (template : List Clause) (ss : List Substitution) (consequent : Option String)
    (turn : Turn) : List Clause :=
  let lines := template.map (inflateLine ss consequent turn)
  lines.flatMap (·.1) ++ if lines.any (·.2) then [pin] else []

/-- The variables of a template of which each node has its own. -/
def helpers (template : List Clause) : List String :=
  (Clause.variableNames template).filter fun name => name.endsWith helperEnd

/-- A template at every node of a grid. The false wire is pinned also if it stands only in a
substitution. -/
def inflateGrid64 (lattice : Lattice) (grid : List Node) (template : List Clause)
    (consequent : Option String) (turn : Turn) : Checked (List Clause) := do
  let ss ← grid.mapM (lattice.substitution64 (helpers template))
  let clauses := inflate template ss consequent turn
  let hasZero := ss.any fun s => s.any fun e => e.2.name == Literal.zeroName
  return if hasZero && clauses.getLast? != some pin then clauses ++ [pin] else clauses

end CellSat.Template
