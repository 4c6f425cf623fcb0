import CellSat.Text.Blank
/-!
# Lines

A line ends at a line feed, and one carriage return before that line feed belongs to the ending.
What follows the last line feed is a line of its own unless it is empty.

* `lines`: the lines of a text;
* `Content`: what a file or a stream holds, of which each line may turn out to be unreadable;
* `Content.lines`, `Content.wholeText`: reading it line by line, or all at once.
-/

namespace CellSat

/-- What can go wrong with a file. -/
inductive FileError where
  | notFound
  | alreadyExists
  | notDirectory
  | isDirectory
  | nameTooLong
  /-- A path holds the character that ends names on the machine. -/
  | invalidName
  | invalidText
  deriving DecidableEq, Repr

/-- The wording of a file error. -/
def FileError.message : FileError → String
  | .notFound => "No such file or directory (os error 2)"
  | .alreadyExists => "File exists (os error 17)"
  | .notDirectory => "Not a directory (os error 20)"
  | .isDirectory => "Is a directory (os error 21)"
  | .nameTooLong => "File name too long (os error 36)"
  | .invalidName => "file name contained an unexpected NUL byte"
  | .invalidText => "stream did not contain valid UTF-8"

namespace Text

/-- A line without the carriage return of its ending. -/
def dropReturn : List Char → List Char
  | [] => []
  | ['\r'] => []
  | c :: s => c :: dropReturn s

/-- Close the pieces between line feeds into lines. -/
def closeLines : List (List Char) → List (List Char)
  | [] => []
  | [last] => if last = [] then [] else [last]
  | l :: ls => dropReturn l :: closeLines ls

/-- The lines of a text. -/
def linesOf (s : List Char) : List (List Char) := closeLines (pieces (· == '\n') s)

/-- The lines of a string. -/
def lines (s : String) : List String := (linesOf s.toList).map String.ofList

end Text

/-- What a file holds: text, bytes that are not text, or nothing readable because it is a
directory. -/
inductive Content where
  | text (s : String)
  | bytes (b : List UInt8)
  | directory
  deriving DecidableEq

namespace Content

/-- Split bytes after each line feed. -/
def splitBytes : List UInt8 → List (List UInt8)
  | [] => [[]]
  | b :: bs =>
    if b = 10 then [] :: splitBytes bs
    else match splitBytes bs with
      | [] => [[b]]
      | l :: ls => (b :: l) :: ls

/-- Drop the carriage return at the end of a line of bytes. -/
def dropReturnByte : List UInt8 → List UInt8
  | [] => []
  | [13] => []
  | b :: bs => b :: dropReturnByte bs

/-- Read one line of bytes as text. -/
def decodeLine (b : List UInt8) : Except FileError String :=
  match String.fromUTF8? ⟨b.toArray⟩ with
  | some s => .ok s
  | none => .error .invalidText

/-- Close the pieces of bytes between line feeds into lines. -/
def closeByteLines : List (List UInt8) → List (Except FileError String)
  | [] => []
  | [last] => if last = [] then [] else [decodeLine last]
  | l :: ls => decodeLine (dropReturnByte l) :: closeByteLines ls

/-- The content of a byte sequence: text whenever the bytes are valid. -/
def ofBytes (b : ByteArray) : Content :=
  match String.fromUTF8? b with
  | some s => .text s
  | none => .bytes b.toList

/-- The lines of a content, each of them readable or not. -/
def lines : Content → List (Except FileError String)
  | .text s => (Text.lines s).map .ok
  | .bytes b => closeByteLines (splitBytes b)
  | .directory => [.error .isDirectory]

/-- The whole content as one text. -/
def wholeText : Content → Except FileError String
  | .text s => .ok s
  | .bytes _ => .error .invalidText
  | .directory => .error .isDirectory

end Content

end CellSat
