import CellSat.Command.Parse
/-!
# Help on commands

The short form has one line for each option, with all texts in one column, or, where that leaves too
little room, the text of each option on the next line. The full form, which there is if values of an
option have a meaning of their own to tell, gives each option a paragraph.

* `CommandShape.help`: help on a command;
* `Command.helpText`: help on all commands.
-/

namespace CellSat

/-- So many spaces. -/
def Text.spaces (n : Nat) : String := String.ofList (List.replicate n ' ')

/-- A text with spaces up to a width. -/
def Text.padEnd (width : Nat) (text : String) : String :=
  text ++ spaces (width - text.length)

/-- The greatest length of texts. -/
def Text.widest (texts : List String) : Nat := (texts.map String.length).foldl Nat.max 0

namespace OptionShape

/-- Whether the values of an option have a meaning to tell. -/
def explainsChoices (o : OptionShape) : Bool := o.choices.any fun c => c.2 != ""

/-- The names of an option. -/
def title (o : OptionShape) : String :=
  let short := match o.short with
    | some c => "-" ++ c.toString ++ ", "
    | none => "    "
  let value := match o.kind with
    | .value placeholder _ => " <" ++ placeholder ++ ">"
    | .counter => "..."
    | _ => ""
  short ++ "--" ++ o.long ++ value

/-- What an option takes, in brackets. -/
def remarks (o : OptionShape) (full : Bool) : List String :=
  (o.default.map fun d => "[default: " ++ d ++ "]").toList ++
    if o.choices.isEmpty || full && o.explainsChoices then []
    else ["[possible values: " ++ Text.join ", " (o.choices.map Prod.fst) ++ "]"]

/-- The text of an option on one line. -/
def summary (o : OptionShape) : String :=
  Text.join " " ((if o.about = "" then [] else [o.about]) ++ o.remarks false)

/-- The indentation of paragraphs. -/
def indent : String := Text.spaces 10

/-- A value with its meaning. -/
def choiceLine (width : Nat) (c : String × String) : String :=
  "\n" ++ indent ++ "- " ++ if c.2 = "" then c.1 else Text.padEnd (width + 2) (c.1 ++ ":") ++ c.2

/-- The values of an option with their meanings. -/
def choiceList (o : OptionShape) : String :=
  let width := Text.widest (o.choices.map Prod.fst)
  "Possible values:" ++ String.join (o.choices.map (choiceLine width))

/-- The names of an option and a text on the next line. -/
def above (o : OptionShape) (text : String) : String :=
  "  " ++ o.title ++ "\n" ++ indent ++ text ++ "\n"

/-- The paragraph of an option. -/
def paragraph (o : OptionShape) : String :=
  let choices := if o.explainsChoices then o.choiceList else ""
  let gap := if o.about = "" || choices = "" then "" else "\n\n" ++ indent
  let remarks := Text.join ("\n" ++ indent) (o.remarks true)
  let parts := [o.about ++ gap ++ choices, remarks].filter (· != "")
  o.above (Text.join ("\n" ++ indent ++ "\n" ++ indent) parts)

/-- Whether the text of an option has too little room beside names of a width. Lines have a hundred
columns; names that take few of them leave room enough for any text. -/
def isCrowded (width : Nat) (o : OptionShape) : Bool :=
  let taken := width + 12
  let needed := o.about.length + (Text.join " " (o.remarks false)).length
  40 < taken && taken ≤ 100 && 100 < taken + needed

end OptionShape

namespace CommandShape

/-- Whether there is more to tell than the short form does. -/
def hasMore (c : CommandShape) : Bool := c.options.any OptionShape.explainsChoices

/-- The options, where help on a command says if there is more of it. -/
def shownOptions (c : CommandShape) (full : Bool) : List OptionShape :=
  c.options.map fun o =>
    match o.kind with
    | .help =>
      if !c.hasMore then o
      else if full then { o with about := o.about ++ " (see a summary with '-h')" }
      else { o with about := o.about ++ " (see more with '--help')" }
    | _ => o

/-- How a word of a command is shown. -/
def wordTitle (w : WordShape) : String :=
  if w.repeatable then "[" ++ w.name ++ "]..." else "<" ++ w.name ++ ">"

/-- The line that shows how to call a command. -/
def usage (c : CommandShape) : String :=
  let options := if c.options.isEmpty then "" else " [OPTIONS]"
  let required := (c.options.filter OptionShape.required).map fun o =>
    " " ++ String.ofList (o.title.toList.drop 4)
  let word := (c.word.map fun w => " " ++ wordTitle w).getD ""
  "Usage: gridsat " ++ c.name ++ options ++ String.join required ++ word ++ "\n"

/-- Lines with a title and a text each, the texts in one column. -/
def table (rows : List (String × String)) : String :=
  let width := Text.widest (rows.map Prod.fst)
  String.join (rows.map fun r => "  " ++ Text.padEnd (width + 2) r.1 ++ r.2 ++ "\n")

/-- The part of help that shows the word of a command. -/
def helpOnWord (c : CommandShape) (full : Bool) : String :=
  match c.word with
  | none => ""
  | some w =>
    let gap := if full then "\n" ++ OptionShape.indent else "  "
    "\nArguments:\n  " ++ wordTitle w ++ gap ++ w.about ++ "\n"

/-- The part of help that shows the options of a command. -/
def helpOnOptions (c : CommandShape) (full : Bool) : String :=
  let options := c.shownOptions full
  let width := Text.widest (options.map OptionShape.title)
  let listed :=
    if full then Text.join "\n" (options.map OptionShape.paragraph)
    else if options.any (OptionShape.isCrowded width) then
      String.join (options.map fun o => o.above o.summary)
    else table (options.map fun o => (o.title, o.summary))
  if options.isEmpty then "" else "\nOptions:\n" ++ listed

/-- Help on a command. -/
def help (c : CommandShape) (full : Bool) : String :=
  let full := full && c.hasMore
  c.about ++ "\n\n" ++ c.usage ++ c.helpOnWord full ++ c.helpOnOptions full

end CommandShape

/-- Help on all commands. -/
def Command.helpText : String :=
  "Compile grid neighbourhood rules to SAT and decode solutions\n\n" ++
    "Usage: gridsat [OPTIONS] <COMMAND>\n\n" ++
    "Commands:\n" ++ CommandShape.table (topics.map fun c => (c.name, c.about)) ++
    "\nOptions:\n" ++ CommandShape.table (leadingOptions.map fun o => (o.title, o.summary))

end CellSat
