/-!
Splitting a text into words as a shell does. Blanks divide words unless they
are quoted. A shell also divides commands, by ends of lines, by semicolons
and by the marks that make a command hang on the one before it.
-/

namespace FlowGraph

/-- When a command of a script is run. -/
inductive Joint where
  | always
  | onSuccess
  | onFailure
deriving DecidableEq

/-- A piece of a script: a word, or the mark between two commands. -/
inductive Piece where
  | word (text : String)
  | joint (j : Joint)
deriving DecidableEq

/-- How the character to come is read. -/
inductive Quoting where
  | bare
  | single
  | double
deriving DecidableEq

namespace Piece

/-- The word read so far, which is no word before its first character or quote. -/
def ofPending : Option (List Char) → List Piece
  | none => []
  | some cs => [word (String.ofList cs.reverse)]

def grow (pending : Option (List Char)) (c : Char) : Option (List Char) :=
  some (c :: pending.getD [])

/-- The pieces of a text, or nothing if a quote is not closed. Only a script has
marks between commands, and comments. -/
def split (script : Bool) : Quoting → Option (List Char) → List Char → Option (List Piece)
  | .bare, p, [] => some (ofPending p)
  | _, _, [] => none
  | .single, p, '\'' :: cs => split script .bare p cs
  | .single, p, c :: cs => split script .single (grow p c) cs
  | .double, p, '"' :: cs => split script .bare p cs
  | .double, p, '\\' :: c :: cs => split script .double (grow p c) cs
  | .double, p, c :: cs => split script .double (grow p c) cs
  | .bare, p, '\\' :: c :: cs => split script .bare (grow p c) cs
  | .bare, p, '\'' :: cs => split script .single (some (p.getD [])) cs
  | .bare, p, '"' :: cs => split script .double (some (p.getD [])) cs
  | .bare, p, '&' :: '&' :: cs =>
    if script then (split script .bare none cs).map (ofPending p ++ joint .onSuccess :: ·)
    else split script .bare (grow (grow p '&') '&') cs
  | .bare, p, '|' :: '|' :: cs =>
    if script then (split script .bare none cs).map (ofPending p ++ joint .onFailure :: ·)
    else split script .bare (grow (grow p '|') '|') cs
  | .bare, p, c :: cs =>
    if c = ' ' ∨ c = '\t' then (split script .bare none cs).map (ofPending p ++ ·)
    else if c = '\n' ∨ script ∧ c = ';' then
      (split script .bare none cs).map (ofPending p ++ joint .always :: ·)
    else split script .bare (grow p c) cs

def words? (text : String) : Option (List String) :=
  (split false .bare none text.toList).map fun ps =>
    ps.filterMap fun
      | word s => some s
      | joint _ => none

/-- Pieces gathered into commands, each with what it hangs on. -/
def commands (ps : List Piece) : List (Joint × List String) :=
  ps.foldr
    (fun p cmds =>
      match p, cmds with
      | word s, (j, ws) :: rest => (j, s :: ws) :: rest
      | word s, [] => [(.always, [s])]
      | joint j, (_, ws) :: rest => (.always, []) :: (j, ws) :: rest
      | joint _, [] => [])
    [(.always, [])]

/-- The commands of a script, each with what it hangs on. -/
def script? (text : String) : Option (List (Joint × List String)) :=
  (split true .bare none text.toList).map fun ps =>
    (commands ps).filter (fun c => !c.2.isEmpty)

end Piece

end FlowGraph
