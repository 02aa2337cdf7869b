import CypherSql.CommandLine

/-!
The program: it reads what a run needs, and writes what it gives.
-/

namespace CypherSql.CommandLine

/-- The contents of a file, if it can be read. -/
def contents? (path : String) : IO (Option String) := do
  match ← (IO.FS.readFile path).toBaseIO with
  | .ok contents => return some contents
  | .error _ => return none

/-- The contents of files under their names. -/
def readFiles (paths : List String) : IO (NameMap String) := do
  let files ← paths.mapM fun path => return (path, ← contents? path)
  return .ofList (files.filterMap fun (path, contents) => contents.map (path, ·))

/-- The variables of the environment that settings are read from. -/
def environment : IO (NameMap String) := do
  let values ← Settings.variableNames.mapM fun name => return (name, ← IO.getEnv name)
  return .ofList (values.filterMap fun (name, value) => value.map (name, ·))

end CypherSql.CommandLine

open CypherSql.CommandLine in
/-- Compiles the query that the arguments name. -/
def main (args : List String) : IO UInt32 := do
  let files ← readFiles (filesRead args)
  match run args (← environment) files.get? with
  | .ok output =>
      IO.print output
      return 0
  | .error failure =>
      IO.eprintln failure.message
      return failure.exitCode.toUInt32
