import CellSat.Text.Blank
/-!
# Paths

A path is a text of segments between slashes. Empty segments, and a dot that is not the first
segment, mean nothing; a slash in front makes it absolute.

* `Path`, `Path.join`;
* `Path.parent?`, `Path.fileName?`, `Path.stem`: its parts;
* `Path.withExtension`, `Path.withFileName`: the same path with another ending.
-/

namespace CellSat

/-- A path of the file system. -/
structure Path where
  text : String
  deriving DecidableEq, Repr, Inhabited

namespace Path

/-- Whether a path starts at the root. -/
def isAbsolute (p : Path) : Bool := p.text.startsWith "/"

/-- The segments between slashes. -/
def segments (p : Path) : List String := Text.splitAt '/' p.text

/-- Whether the segment at a place counts. -/
def counts (place : Nat) (segment : String) : Bool :=
  segment != "" && (segment != "." || place == 0)

/-- The segments up to the last one that counts. -/
def significant (p : Path) : List String :=
  let counted := (p.segments.zipIdx).reverse.dropWhile fun (s, i) => !counts i s
  counted.reverse.map (·.1)

/-- The path of segments. -/
def ofSegments (segments : List String) : Path := ⟨Text.join "/" segments⟩

/-- One path after the other. An absolute path replaces what comes before it. -/
def join (p q : Path) : Path :=
  if q.isAbsolute then q
  else if p.text == "" || p.text.endsWith "/" then ⟨p.text ++ q.text⟩
  else ⟨p.text ++ "/" ++ q.text⟩

/-- The directory that holds the last segment. -/
def parent? (p : Path) : Option Path :=
  match p.significant.reverse with
  | [] => none
  | _ :: before =>
    let rest := (ofSegments before.reverse).significant
    some (if rest = [] ∧ p.isAbsolute then ⟨"/"⟩ else ofSegments rest)

/-- The last segment, if it is a name. -/
def fileName? (p : Path) : Option String :=
  match p.significant.getLast? with
  | none => none
  | some name => if name = "." ∨ name = ".." then none else some name

/-- A file name without its extension. A dot in front does not start an extension. -/
def stem (name : String) : String :=
  match Text.splitFirst '.' name.toList.reverse with
  | none => name
  | some (_, before) => if before = [] then name else String.ofList before.reverse

/-- The path whose last segment has another extension. A path without a file name stays. So does
what is left of a name of two dots and an extension at the very end of the path once its extension
is gone: that is a directory and no file. -/
def withExtension (p : Path) (extension : String) : Path :=
  match p.fileName? with
  | none => p
  | some name =>
    let ending :=
      if stem name = "." ∧ p.segments.getLast? = some name then ".."
      else stem name ++ "." ++ extension
    ofSegments (p.significant.dropLast ++ [ending])

/-- The path with another last segment, or with one more if it has no file name. -/
def withFileName (p : Path) (name : String) : Path :=
  match p.fileName? with
  | none => p.join ⟨name⟩
  | some _ => (p.parent?.getD p).join ⟨name⟩

end Path

end CellSat
