import CellSat.Clause.Algebra
import CellSat.Clause.Text
import CellSat.Cnf.Assignment
import CellSat.Command.Execute
import CellSat.Counter.Bound
import CellSat.Data.Json
import CellSat.Data.Yaml.Read
import CellSat.Data.Yaml.Write
import CellSat.Grid.Build
import CellSat.Host.Scratch
import CellSat.Main
import CellSat.Pattern.Render
import CellSat.Plane.Form
import CellSat.Proofs.Checked
import CellSat.Proofs.Cnf.Compile
import CellSat.Proofs.Cnf.Numbering
import CellSat.Proofs.Counter.Network
import CellSat.Proofs.Meaning
import CellSat.Proofs.Tag.Bits
import CellSat.Proofs.Tag.Expansion
import CellSat.Proofs.Tag.Capture
import CellSat.Proofs.Text
import CellSat.Solve.Backend
import CellSat.Solve.Model
import CellSat.Symmetry.Orbit
import CellSat.Tag.Relation
import CellSat.Template.Inflate
import CellSat.Text.Seconds
import CellSat.Proofs.Counter.Exact
import CellSat.Proofs.Counter.Saturation
import CellSat.Proofs.Plane.Fold
import CellSat.Proofs.Plane.Symmetry
import CellSat.Proofs.Grid.Search
import CellSat.Proofs.Grid.Reach
import CellSat.Proofs.Entries
import CellSat.Proofs.Symmetry.Orbit
import CellSat.Proofs.Symmetry.Group
import CellSat.Proofs.Symmetry.Order
import CellSat.Proofs.Symmetry.Totalistic
import CellSat.Proofs.Template.Inflate
import CellSat.Proofs.Template.Outside
import CellSat.Proofs.Life.Rule
import CellSat.Proofs.Life.Plane
import CellSat.Proofs.Grid.Room
import CellSat.Proofs.Plane.Fit
import CellSat.Proofs.Plane.Quotient
import CellSat.Proofs.Plane.Cover
import CellSat.Proofs.Grid.Precedence
import CellSat.Proofs.Grid.Extent
import CellSat.Proofs.Cnf.Exclusion
import CellSat.Proofs.Tag.Relation
import CellSat.Proofs.Solve.Enumeration
import CellSat.Proofs.Plane.Direction
import CellSat.Proofs.Template.Names
import CellSat.Proofs.Counter.Freshness
import CellSat.Proofs.Problem.Independence
import CellSat.Proofs.Cnf.Answer
import CellSat.Proofs.Pattern.Census
import CellSat.Proofs.Problem.Population
import CellSat.Proofs.Problem.Outcome
import CellSat.Proofs.Cnf.Contradiction
import CellSat.Proofs.Text.Lines
import CellSat.Proofs.Text.Trim
import CellSat.Proofs.Cnf.Exchange
import CellSat.Proofs.Cnf.Imitation
import CellSat.Proofs.Counter.Rigid
import CellSat.Proofs.Solve.Blocking
import CellSat.Proofs.Problem.Distinct
import CellSat.Proofs.Clause.Flatten
import CellSat.Proofs.Clause.RoundTrip
import CellSat.Proofs.Cnf.Content
import CellSat.Proofs.Template.Instances
import CellSat.Proofs.Template.Turn
import CellSat.Proofs.Counter.Circuit
import CellSat.Proofs.Counter.Clauses
import CellSat.Proofs.Problem.Transcript
import CellSat.Proofs.Life.Names
import CellSat.Proofs.Problem.Size
import CellSat.Proofs.Tag.Below
import CellSat.Proofs.Tag.Tuples
import CellSat.Proofs.Tag.Matchers
import CellSat.Proofs.Template.Reading
import CellSat.Proofs.Plane.Label
import CellSat.Proofs.Clause.Models
import CellSat.Proofs.Cnf.Faults
import CellSat.Proofs.Solve.Succession
import CellSat.Proofs.Grid.Path
import CellSat.Proofs.Pattern.Exclusion
import CellSat.Proofs.Pattern.Picture
import CellSat.Proofs.Clause.Readers
import CellSat.Proofs.Clause.Reduction
import CellSat.Proofs.Literal.Spelling
import CellSat.Proofs.Counter.Supply
