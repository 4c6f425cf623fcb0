/-!
# Colored output

* `Terminal.supportsColor`: whether a terminal shows colors, by its environment;
* `Color`, `Terminal.colored`: text in a color.
-/

namespace CellSat

/-- The colors of messages. -/
inductive Color where
  | red
  | green
  | yellow
  | blue
  deriving DecidableEq, Repr

/-- The number of a color in terminal codes. -/
def Color.code : Color → Nat
  | red => 31
  | green => 32
  | yellow => 33
  | blue => 34

namespace Terminal

/-- Whether a terminal shows colors: unless they are switched off or it is said to be dumb. -/
def supportsColor (noColor term : Option String) : Bool := noColor.isNone && term != some "dumb"

/-- Text in a color, if colors are shown. -/
def colored (colors : Bool) (color : Color) (text : String) : String :=
  if colors then "\x1b[" ++ toString color.code ++ "m" ++ text ++ "\x1b[0m" else text

/-- Good news. -/
def success (colors : Bool) : String → String := colored colors .green

/-- Bad news. -/
def error (colors : Bool) : String → String := colored colors .red

/-- A warning. -/
def warning (colors : Bool) : String → String := colored colors .yellow

/-- A remark. -/
def info (colors : Bool) : String → String := colored colors .blue

end Terminal

end CellSat
