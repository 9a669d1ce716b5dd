import GraphQLCheck.Text.Blank

/-!
# Log levels

How much a run says about its own progress, and how a level is written.
-/

namespace GraphQLCheck

/-- How much is logged, from least to most. -/
inductive LogLevel where
  | error
  | warn
  | info
  | debug
  | trace
deriving DecidableEq, Repr, Inhabited, Ord

namespace LogLevel

/-- Whether messages of a level are shown when `chosen` is the level of the run. -/
def shows (chosen level : LogLevel) : Bool := (compare level chosen).isLE

/-- The written forms of the levels. -/
def names : List (String × LogLevel) :=
  [("error", error), ("warn", warn), ("info", info), ("debug", debug), ("verbose", debug),
    ("trace", trace)]

/-- Reads a level. Blanks around it and the case of its ASCII letters do not matter. -/
def ofText? (s : String) : Option LogLevel :=
  names.lookup (String.ofList ((trimBlanks s).toList.map Char.toLower))

/-- The level of a run: all that is known when the user asks for it, else what the environment
says, if it says something that can be read. -/
def choose (verbose : Bool) (environment : Option String) : LogLevel :=
  if verbose then debug else (environment.bind ofText?).getD info

end LogLevel

end GraphQLCheck
