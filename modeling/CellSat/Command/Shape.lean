import CellSat.Text.Blank
/-!
# The shape of a command line

A command line is a list of words. Words that start with a dash are options, by their long or short
names; the value of an option stands in the same word or in the next one. After a word of two
dashes no word is an option.

* `OptionShape`, `WordShape`, `CommandShape`: which options and words a command takes;
* `Stop`: why reading ends early;
* `Reading`, `Reading.readAll`: the values of the options and the other words.
-/

namespace CellSat

/-- What an option does. -/
inductive OptionKind where
  /-- It may be given once. -/
  | switch
  /-- It may be given again and again. -/
  | counter
  /-- It asks for help. -/
  | help
  /-- It asks for the version. -/
  | version
  /-- It takes a value. -/
  | value (placeholder : String) (accepts : String → Bool)

/-- An option of a command. -/
structure OptionShape where
  long : String
  short : Option Char := none
  kind : OptionKind
  about : String := ""
  /-- The value that counts if none is given. -/
  default : Option String := none
  /-- The values it takes, if there are few, with what they mean. -/
  choices : List (String × String) := []
  required : Bool := false

/-- A word of a command that is no option. -/
structure WordShape where
  name : String
  about : String := ""
  /-- Whether there may be none or many of them. -/
  repeatable : Bool := false

/-- A command with its options. -/
structure CommandShape where
  name : String
  about : String
  /-- The word that it takes, if it takes one. -/
  word : Option WordShape := none
  options : List OptionShape := []

/-- What is wrong with a command line. -/
inductive ArgumentFlaw where
  | unknown (word : String)
  | missingValue (option : String)
  | badValue (option value : String)
  | needlessValue (option : String)
  | repeated (option : String)
  | missing (name : String)
  | emptyWord
  deriving DecidableEq, Repr

/-- The wording of a flaw. -/
def ArgumentFlaw.message : ArgumentFlaw → String
  | unknown word => "error: unexpected argument '" ++ word ++ "' found\n"
  | missingValue option => "error: a value is required for '--" ++ option ++ "'\n"
  | badValue option value => "error: invalid value '" ++ value ++ "' for '--" ++ option ++ "'\n"
  | needlessValue option => "error: unexpected value for '--" ++ option ++ "' found\n"
  | repeated option => "error: the argument '--" ++ option ++ "' cannot be used multiple times\n"
  | missing name => "error: the required argument " ++ name ++ " was not provided\n"
  | emptyWord => "error: a value is required but none was supplied\n"

/-- Why reading a command line ends early. -/
inductive Stop where
  | invalid (flaw : ArgumentFlaw)
  /-- Help is asked for, in full or in short. -/
  | help (full : Bool)
  | version
  deriving DecidableEq, Repr

/-- What was read of a command line. -/
structure Reading where
  /-- The values of options by their long names. -/
  values : List (String × String) := []
  words : List String := []
  /-- Whether two dashes stood before the rest. -/
  trailing : Bool := false
  deriving DecidableEq, Repr

namespace Reading

/-- The value of an option. -/
def value? (r : Reading) (name : String) : Option String := r.values.lookup name

/-- Keep an option that takes no value. -/
def mark (r : Reading) (o : OptionShape) (full : Bool) : Except Stop Reading :=
  match o.kind with
  | .help => .error (.help full)
  | .version => .error .version
  | .counter => .ok r
  | _ =>
    if (r.value? o.long).isSome then .error (.invalid (.repeated o.long))
    else .ok { r with values := (o.long, "") :: r.values }

/-- Keep the value of an option. -/
def take (r : Reading) (o : OptionShape) (value : String) : Except Stop Reading :=
  match o.kind with
  | .value _ accepts =>
    if (r.value? o.long).isSome then .error (.invalid (.repeated o.long))
    else if accepts value then .ok { r with values := (o.long, value) :: r.values }
    else .error (.invalid (.badValue o.long value))
  | _ => .error (.invalid (.needlessValue o.long))

/-- Whether an option takes a value. -/
def takesValue (o : OptionShape) : Bool :=
  match o.kind with
  | .value .. => true
  | _ => false

/-- Read options by their short names in one word. An option whose value is still to come is left
over. -/
def readShort (options : List OptionShape) (word : String) (r : Reading) :
    List Char → Except Stop (Reading × Option OptionShape)
  | [] => .ok (r, none)
  | c :: rest =>
    match options.find? fun o => o.short = some c with
    | none => .error (.invalid (.unknown word))
    | some o =>
      if takesValue o then
        match rest with
        | [] => .ok (r, some o)
        | '=' :: value => do return (← r.take o (String.ofList value), none)
        | value => do return (← r.take o (String.ofList value), none)
      else do readShort options word (← r.mark o false) rest

/-- Read an option by its long name, which a value may follow in the same word. An option whose
value is still to come is left over. -/
def readLong (options : List OptionShape) (word : String) (r : Reading) (text : List Char) :
    Except Stop (Reading × Option OptionShape) :=
  let name := String.ofList (text.takeWhile (· != '='))
  match options.find? fun o => o.long == name with
  | none => .error (.invalid (.unknown word))
  | some o =>
    match text.dropWhile (· != '=') with
    | _ :: value => do return (← r.take o (String.ofList value), none)
    | [] => if takesValue o then .ok (r, some o) else do return (← r.mark o true, none)

/-- Whether a word starts with a dash and is not a dash alone. -/
def isOption (word : String) : Bool :=
  match word.toList with
  | '-' :: _ :: _ => true
  | _ => false

/-- Read the options of one word. -/
def readOption (options : List OptionShape) (r : Reading) (word : String) :
    Except Stop (Reading × Option OptionShape) :=
  match word.toList with
  | '-' :: '-' :: text => readLong options word r text
  | _ :: text => readShort options word r text
  | [] => .ok (r, none)

/-- Keep a word that is no option. It names something, so it is not empty. -/
def keep (r : Reading) (word : String) : Except Stop Reading :=
  if word = "" then .error (.invalid .emptyWord) else .ok { r with words := r.words ++ [word] }

/-- Read words up to the first one that is not an option and for which there is no room. -/
def readAll (options : List OptionShape) (room : Nat) (r : Reading) :
    List String → Except Stop (Reading × List String)
  | [] => .ok (r, [])
  | word :: rest =>
    if r.trailing || !isOption word then
      if r.words.length < room then
        match r.keep word with
        | .error stop => .error stop
        | .ok r => readAll options room r rest
      else .ok (r, word :: rest)
    else if word = "--" then readAll options room { r with trailing := true } rest
    else
      match readOption options r word with
      | .error stop => .error stop
      | .ok (r, none) => readAll options room r rest
      | .ok (r, some o) =>
        match rest with
        | [] => .error (.invalid (.missingValue o.long))
        | value :: rest =>
          if isOption value then .error (.invalid (.missingValue o.long))
          else
            match r.take o value with
            | .error stop => .error stop
            | .ok r => readAll options room r rest

end Reading

/-- Read the words of a command. All of them must be used, and nothing required may be missing. -/
def CommandShape.read (c : CommandShape) (words : List String) : Except Stop Reading := do
  let (r, rest) ← Reading.readAll c.options c.word.toList.length {} words
  match rest with
  | word :: _ => throw (.invalid (.unknown word))
  | [] =>
    match c.word with
    | some w => if r.words.isEmpty then throw (.invalid (.missing w.name))
    | none => pure ()
    match c.options.find? fun o => o.required && (r.value? o.long).isNone with
    | some o => throw (.invalid (.missing o.long))
    | none => return r

end CellSat
