import CypherSql.Compile
import CypherSql.Settings.VariableFile
import CypherSql.Topology.Format

/-!
The command line: which options there are, and what a run with arguments, environment variables and
files gives.
-/

namespace CypherSql.CommandLine

/-- An option that takes a value. -/
inductive ValueOption where
  | topology
  | query
  | queryFile
  | settings
  | maxHops
  deriving DecidableEq, Repr

namespace ValueOption

/-- The name of an option. -/
def name : ValueOption → String
  | .topology => "gtop"
  | .query => "query"
  | .queryFile => "query-file"
  | .settings => "config"
  | .maxHops => "max-expansion-hops"

/-- All options that take a value. -/
def all : List ValueOption :=
  [.topology, .query, .queryFile, .settings, .maxHops]

/-- The option of a name. -/
def ofName? (name : String) : Option ValueOption :=
  all.find? fun option => option.name = name

end ValueOption

/-- The number of hops that a text denotes. Zero may have a minus sign. -/
def hops? (text : String) : Option Nat :=
  match text.toList with
  | '-' :: digits => (digitsValue? 10 digits).filter (· = 0)
  | _ => (readNumber Number.largestWord32 text).toOption

/-- The text is a value of an option. Only a query may be empty. -/
def ValueOption.accepts (option : ValueOption) (value : String) : Bool :=
  match option with
  | .query => true
  | .maxHops => (hops? value).isSome
  | _ => value ≠ ""

/-- The options given so far. -/
structure Given where
  values : List (ValueOption × String)
  sequential : Bool

namespace Given

/-- No option is given. -/
def nothing : Given := ⟨[], false⟩

/-- The value of an option. -/
def get? (given : Given) (option : ValueOption) : Option String :=
  given.values.lookup option

/-- Adds the value of an option, which may be given only once. -/
def set? (given : Given) (option : ValueOption) (value : String) : Option Given :=
  if option.accepts value && (given.get? option).isNone then
    some { given with values := given.values ++ [(option, value)] }
  else none

/-- Adds that variants are lowered one after the other, which may be said only once. -/
def setSequential? (given : Given) : Option Given :=
  if given.sequential then none else some { given with sequential := true }

end Given

/-- What a user asks for. -/
inductive Request where
  | help
  | version
  | compile (given : Given)

/-- The kind of an argument: the end of all options, a long option with the value that may be
attached to it, a cluster of letters, or a value.
-/
inductive Argument where
  | finish
  | long (name : List Char) (value : Option String)
  | short (letter : Char)
  | value (text : String)

/-- The kind of an argument. -/
def Argument.ofText (text : String) : Argument :=
  match text.toList with
  | ['-', '-'] => .finish
  | '-' :: '-' :: body =>
      let name := body.takeWhile (· ≠ '=')
      match body.dropWhile (· ≠ '=') with
      | _ :: attached => .long name (some (String.ofList attached))
      | [] => .long name none
  | '-' :: letter :: _ => .short letter
  | _ => .value text

/-- What arguments ask for, or `none` where they are wrong. A value that follows its option cannot
look like an option itself.
-/
def request? (given : Given) : List String → Option Request
  | [] => some (.compile given)
  | arg :: rest =>
      match Argument.ofText arg with
      | .finish => if rest.isEmpty then some (.compile given) else none
      | .value _ => none
      | .short letter =>
          if letter = 'h' then some .help else if letter = 'V' then some .version else none
      | .long name attached =>
          match ValueOption.ofName? (String.ofList name), attached with
          | some option, some value => (given.set? option value).bind (request? · rest)
          | some option, none =>
              match rest with
              | [] => none
              | next :: rest =>
                  match Argument.ofText next with
                  | .value value => (given.set? option value).bind (request? · rest)
                  | _ => none
          | none, some _ => none
          | none, none =>
              if name = "no-parallel".toList then given.setSequential?.bind (request? · rest)
              else if name = "help".toList then some .help
              else if name = "version".toList then some .version
              else none

/-- Where a query comes from. -/
inductive QuerySource where
  | text (query : String)
  | file (path : String)
  | missing

/-- The options of a compilation. -/
structure Options where
  topology : String
  query : QuerySource
  settings : Option String
  maxHops : Option Nat
  sequential : Bool

/-- The options that are given. A topology has to be, and a query cannot be given both ways. -/
def Given.options? (given : Given) : Option Options := do
  let topology ← given.get? .topology
  let query ←
    match given.get? .query, given.get? .queryFile with
    | some _, some _ => none
    | some query, none => some (.text query)
    | none, some path => some (.file path)
    | none, none => some .missing
  return { topology, query, settings := given.get? .settings,
           maxHops := (given.get? .maxHops).bind hops?, sequential := given.sequential }

/-- Why a run fails. -/
inductive Failure where
  | usage
  | settings (error : SettingsError)
  | topology (error : TopologyError)
  | noQuery
  | unreadableQuery (path : String)
  | compile (error : CompileError)

namespace Failure

/-- The exit code of a failure. -/
def exitCode : Failure → UInt8
  | .usage => 2
  | _ => 1

/-- The wording of a failure. -/
def message : Failure → String
  | .usage => "error: wrong arguments, try --help"
  | .settings error => "Error: " ++ error.message
  | .topology error => "Error: " ++ error.message
  | .noQuery => "Error: one of --query or --query-file is required"
  | .unreadableQuery path => "Error: reading query file " ++ path
  | .compile error => error.category.text ++ ": " ++ error.message

end Failure

/-- The file of variables that is read before anything else. -/
def variableFile : String := ".env"

/-- The settings of a run: those of the given file, or else of the variables, with the options put
in, in their ranges both before and after.
-/
def Options.effectiveSettings (options : Options) (environment : NameMap String)
    (file : String → Option String) : Except SettingsError Settings := do
  let settings ←
    match options.settings with
    | some path => Settings.ofFile (file path)
    | none => Settings.ofVariables environment.get?
  Settings.validated { settings with
    maxHops := options.maxHops.getD settings.maxHops
    parallel := settings.parallel && !options.sequential }

/-- The text of the query of a run. -/
def QuerySource.read (file : String → Option String) : QuerySource → Except Failure String
  | .text query => .ok query
  | .file path =>
      match file path with
      | some query => .ok query
      | none => .error (.unreadableQuery path)
  | .missing => .error .noQuery

/-- Compiles a query as options say. -/
def Options.compile (options : Options) (environment : NameMap String)
    (file : String → Option String) : Except Failure String := do
  let settings ← (options.effectiveSettings environment file).mapError .settings
  let topology ← (Topology.ofFile options.topology (file options.topology)).mapError .topology
  let query ← options.query.read file
  let sql ← (CypherSql.compile settings topology.catalog query).mapError .compile
  return sql ++ "\n"

/-- The version. -/
def versionText : String :=
  "gtopsql 0.3.0-dev\n"

/-- The explanation of the options. -/
def helpText : String :=
  String.intercalate "\n"
    ["gtopsql - lower a Cypher query to SQL over a graph topology",
      "",
      "Usage: gtopsql [OPTIONS] --gtop <GTOP>",
      "",
      "Options:",
      "      --gtop <GTOP>",
      "          Graph topology document (.json, .yaml or .yml)",
      "      --query <QUERY>",
      "          Cypher query text",
      "      --query-file <QUERY_FILE>",
      "          File holding the Cypher query",
      "      --config <CONFIG>",
      "          Translator settings; GTOPSQL_* environment variables are used otherwise",
      "      --max-expansion-hops <MAX_EXPANSION_HOPS>",
      "          Upper bound for unbounded variable-length relationships",
      "      --no-parallel",
      "          Lower expanded variants on a single thread",
      "  -h, --help",
      "          Print help",
      "  -V, --version",
      "          Print version",
      ""]

/-- The variables of a run: those of the environment, and of the file of variables. -/
def allVariables (environment : NameMap String) (file : String → Option String)
    : NameMap String :=
  match file variableFile with
  | some contents => VariableFile.extend environment contents
  | none => environment

/-- What a run writes, or why it fails. -/
def run (args : List String) (environment : NameMap String) (file : String → Option String)
    : Except Failure String :=
  match request? .nothing args with
  | none => .error .usage
  | some .help => .ok helpText
  | some .version => .ok versionText
  | some (.compile given) =>
      match given.options? with
      | none => .error .usage
      | some options => options.compile (allVariables environment file) file

/-- The files that a run with some arguments can read. -/
def filesRead (args : List String) : List String :=
  match request? .nothing args with
  | some (.compile given) =>
      variableFile ::
        [ValueOption.settings, .topology, .queryFile].filterMap given.get?
  | _ => []

end CypherSql.CommandLine
