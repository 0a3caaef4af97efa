import TaintTrail.Analysis
import TaintTrail.Config.Format
import TaintTrail.Program.Format

/-!
# The command line

Arguments are read from left to right, until one cannot be understood or asks for help. The program
then reads its files, analyses, and says which files to write and what to print. Reading and writing
files is left to the caller.
-/

namespace TaintTrail.CommandLine

/-- What an option is about. -/
inductive Setting where
  | program
  | config
  | lines
  | trace
  | json
  | verbose
  | help
  deriving DecidableEq, Repr

namespace Setting

/-- The name behind two dashes. -/
def name : Setting → String
  | .program => "module"
  | .config => "config"
  | .lines => "lines"
  | .trace => "lcov"
  | .json => "json"
  | .verbose => "verbose"
  | .help => "help"

/-- Whether a value belongs to the option. -/
def takesValue : Setting → Bool
  | .program | .config | .lines | .trace => true
  | .json | .verbose | .help => false

/-- The option with a name behind two dashes. -/
def ofName? (name : String) : Option Setting :=
  [Setting.program, .config, .lines, .trace, .json, .verbose, .help].find? (·.name = name)

/-- The option with a letter behind one dash. -/
def ofLetter? : Char → Option Setting
  | 'm' => some .program
  | 'c' => some .config
  | 'v' => some .verbose
  | 'h' => some .help
  | _ => none

end Setting

/-- Why the arguments end the program. -/
inductive Stop where
  /-- They ask for help. -/
  | help
  /-- An argument is not known. -/
  | unexpected (argument : String)
  /-- An option is given twice. -/
  | repeated (setting : Setting)
  /-- An option lacks its value. -/
  | missingValue (setting : Setting)
  /-- An option has a value that it does not take. -/
  | unexpectedValue (setting : Setting)
  /-- No program is given. -/
  | noProgram
  deriving DecidableEq, Repr

/-- The text for what the arguments lack. -/
def Stop.message : Stop → String
  | .help => ""
  | .unexpected argument => "error: unexpected argument '" ++ argument ++ "' found"
  | .repeated setting =>
    "error: the argument '--" ++ setting.name ++ "' cannot be used multiple times"
  | .missingValue setting => "error: a value is required for '--" ++ setting.name ++ "'"
  | .unexpectedValue setting => "error: unexpected value for '--" ++ setting.name ++ "'"
  | .noProgram => "error: the argument '--module <MODULE>' is required"

/-- The text that explains the options. -/
def help : String :=
  "Field-sensitive taint analysis over SSA IR\n\n"
    ++ "Usage: fieldtaint [OPTIONS] --module <MODULE>\n\n"
    ++ "Options:\n"
    ++ "  -m, --module <MODULE>  Module to analyse (JSON)\n"
    ++ "  -c, --config <CONFIG>  Analysis configuration (YAML, schema version 1)\n"
    ++ "      --lines <LINES>    Write the flat newline-delimited line list here\n"
    ++ "      --lcov <LCOV>      Write the LCOV-style trace here\n"
    ++ "      --json             Print the full report as JSON instead of the trace\n"
    ++ "  -v, --verbose          Debug logging (overridden by RUST_LOG)\n"
    ++ "  -h, --help             Print help\n"

/-- The options given so far, with their values. -/
abbrev Given := List (Setting × String)

/-- Adds an option, which may be given once. -/
def give (given : Given) (setting : Setting) (value : String) : Except Stop Given :=
  if setting = .help then .error .help
  else if given.any (·.1 = setting) then .error (.repeated setting)
  else if setting.takesValue && value = "" then .error (.missingValue setting)
  else .ok (given ++ [(setting, value)])

/-- Reads the letters behind one dash. If the last option lacks its value, it is returned. -/
def readLetters (argument : String) (given : Given) :
    List Char → Except Stop (Given × Option Setting)
  | [] => .ok (given, none)
  | c :: rest =>
    match Setting.ofLetter? c with
    | none => .error (.unexpected argument)
    | some setting =>
      if setting.takesValue then
        match rest with
        | [] => .ok (given, some setting)
        | '=' :: value => (give given setting (String.ofList value)).map fun given => (given, none)
        | value => (give given setting (String.ofList value)).map fun given => (given, none)
      else
        match give given setting "" with
        | .error stop => .error stop
        | .ok given => readLetters argument given rest

/-- Reads an option behind two dashes, whose value may follow an equals sign. -/
def readName (argument : String) (given : Given) (cs : List Char) :
    Except Stop (Given × Option Setting) :=
  let name := cs.takeWhile (· ≠ '=')
  match Setting.ofName? (String.ofList name), cs.dropWhile (· ≠ '=') with
  | none, _ => .error (.unexpected argument)
  | some setting, [] =>
    if setting.takesValue then .ok (given, some setting)
    else (give given setting "").map fun given => (given, none)
  | some setting, _ :: value =>
    if setting.takesValue then
      (give given setting (String.ofList value)).map fun given => (given, none)
    else .error (.unexpectedValue setting)

/-- Reads an argument. If it is an option that lacks its value, the option is returned. -/
def readArgument (given : Given) (argument : String) : Except Stop (Given × Option Setting) :=
  match argument.toList with
  | '-' :: '-' :: cs => readName argument given cs
  | ['-'] => .error (.unexpected argument)
  | '-' :: cs => readLetters argument given cs
  | _ => .error (.unexpected argument)

/-- Whether an argument can be the value of the option before it. -/
def isValue (argument : String) : Bool :=
  match argument.toList with
  | '-' :: _ :: _ => false
  | _ => true

/-- Reads the arguments. Two dashes alone end the options. -/
def readArguments (given : Given) : List String → Except Stop Given
  | [] => .ok given
  | ["--"] => .ok given
  | argument :: rest =>
    match readArgument given argument, rest with
    | .error stop, _ => .error stop
    | .ok (given, none), rest => readArguments given rest
    | .ok (_, some setting), [] => .error (.missingValue setting)
    | .ok (given, some setting), value :: rest =>
      if isValue value then
        match give given setting value with
        | .error stop => .error stop
        | .ok given => readArguments given rest
      else .error (.missingValue setting)

/-- What the arguments ask for. -/
structure Options where
  /-- The file with the program. -/
  program : String
  /-- The file with the configuration. -/
  config : Option String := none
  /-- The file to write the list of lines to. -/
  lines : Option String := none
  /-- The file to write the trace to. -/
  trace : Option String := none
  /-- Whether to print the report instead of the trace. -/
  json : Bool := false
  verbose : Bool := false
  deriving DecidableEq, Repr

/-- Reads the arguments. -/
def parse (arguments : List String) : Except Stop Options := do
  let given ← readArguments [] arguments
  match given.lookup .program with
  | none => .error .noProgram
  | some program =>
    .ok { program
          config := given.lookup .config
          lines := given.lookup .lines
          trace := given.lookup .trace
          json := (given.lookup .json).isSome
          verbose := (given.lookup .verbose).isSome }

/-- Why the program fails. -/
inductive Failure where
  | unreadable (path : String)
  | config (e : ConfigError)
  | malformedProgram (path : String)
  | analysis (e : AnalysisError)
  deriving DecidableEq, Repr

/-- The text of a failure. -/
def Failure.message : Failure → String
  | .unreadable path => "Error: cannot read '" ++ path ++ "'"
  | .config e => "Error: " ++ e.message
  | .malformedProgram path => "Error: '" ++ path ++ "' is not a module"
  | .analysis e => "Error: " ++ e.message

namespace Options

/-- The files to read. -/
def inputs (o : Options) : List String := o.config.toList ++ [o.program]

/-- The configuration to use. -/
def readConfig (o : Options) (files : String → Option String) : Except Failure Config :=
  match o.config with
  | none => .ok {}
  | some path =>
    match files path with
    | none => .error (.unreadable path)
    | some text => (Config.read text).mapError .config

/-- The program to analyse. -/
def readProgram (o : Options) (files : String → Option String) : Except Failure Program :=
  match files o.program with
  | none => .error (.unreadable o.program)
  | some text =>
    match Program.read? text with
    | none => .error (.malformedProgram o.program)
    | some m => .ok m

/-- Reads the files and analyses the program. -/
def analyze (o : Options) (files : String → Option String) : Except Failure Report := do
  let config ← o.readConfig files
  let m ← o.readProgram files
  (m.analyze config).mapError .analysis

/-- The files to write, with their contents. -/
def outputs (o : Options) (r : Report) : List (String × String) :=
  o.lines.toList.map (fun path => (path, r.coverage.lineList))
    ++ o.trace.toList.map (fun path => (path, r.coverage.trace))

/-- The text to print after an analysis that took some milliseconds. -/
def printed (o : Options) (r : Report) (milliseconds : Nat) : String :=
  if o.json then (r.toJson milliseconds).pretty ++ "\n"
  else if o.lines.isNone && o.trace.isNone then r.coverage.trace
  else ""

end Options

end TaintTrail.CommandLine
