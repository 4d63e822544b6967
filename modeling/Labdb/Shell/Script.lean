import Labdb.Sql.Lexer

/-! The reading loop of the shell, `labdb.cpp`: lines gather in a pending text, which is split
into statements again from its start after each line. -/

namespace Labdb.Shell

open Labdb.Query Labdb.Sql

def semicolon : UInt8 := 59

/-- No character but those that the shell takes for blank. -/
def isBlank (text : Text) : Bool := text.all isSpace

/-- The loop of `statements`: the statement so far and whether it is inside a string. -/
def split (cur : Text) (quoted : Bool) : Text → List Text × Text
  | [] => ([], cur)
  | char :: rest =>
    let quoted := if char = quote then !quoted else quoted
    if char = semicolon ∧ quoted = false then
      let (out, last) := split [] quoted rest
      (cur :: out, last)
    else split (cur ++ [char]) quoted rest

/-- A script split at the semicolons that end statements. -/
def statements (text : Text) : List Text :=
  let (out, cur) := split [] false text
  if isBlank cur then out else out ++ [cur]

/-- The last character that is not blank. -/
def lastVisible (text : Text) : Option UInt8 := (text.filter fun char => !isSpace char).getLast?

/-- What is run of some statements: each that is not blank, from its first visible character. -/
def toRun (parts : List Text) : List Text :=
  (parts.filter fun sql => !isBlank sql).map fun sql => sql.dropWhile isSpace

/-- One line more: the statements that are run, and what is pending after them. -/
def readLine (pending line : Text) : List Text × Text :=
  let pending := pending ++ line ++ [newline]
  let parts := statements pending
  let complete := lastVisible pending = some semicolon
  let n := if complete then parts.length else parts.length - if parts = [] then 0 else 1
  (toRun (parts.take n), if complete ∨ parts = [] then [] else parts.getLastD [])

/-- The rest of the loop: the statements that it runs. -/
def readLines : Text → List Text → List Text
  | pending, [] => toRun [pending]
  | pending, line :: lines =>
    if pending = [] ∧ line.head? = some dot then
      if line = bytes ".quit" then [] else readLines pending lines
    else
      let (ran, pending) := readLine pending line
      ran ++ readLines pending lines

/-- The statements that the shell runs of its input. -/
def shell (lines : List Text) : List Text := readLines [] lines

/-- The lines with their ends. -/
def input (lines : List Text) : Text := lines.flatMap fun line => line ++ [newline]

/-- What is pending after some lines. -/
def pendingAfter (pending : Text) (lines : List Text) : Text :=
  lines.foldl (fun pending line => (readLine pending line).2) pending

/-- No line begins with a dot where nothing is pending. -/
def NoCommand (pending : Text) (lines : List Text) : Prop :=
  ∀ before line after, lines = before ++ line :: after → pendingAfter pending before = [] →
    line.head? ≠ some dot

/-- The text is inside a string at its end. -/
def quotedAfter (quoted : Bool) (text : Text) : Bool :=
  text.foldl (fun quoted char => if char = quote then !quoted else quoted) quoted

/-- The last visible character is a semicolon of a string that goes on. -/
def EndsInString (text : Text) : Prop :=
  quotedAfter false text = true ∧ lastVisible text = some semicolon

instance (text : Text) : Decidable (EndsInString text) :=
  inferInstanceAs (Decidable (_ ∧ _))

end Labdb.Shell
