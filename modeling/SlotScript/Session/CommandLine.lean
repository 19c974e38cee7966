/-! # The command line

The program runs a file or a prompt, chosen by a subcommand.  Two switches may
stand before or after it, each at most once in either place.  Arguments are
looked at from left to right, and the first that is wrong decides the answer.
Behind `--` nothing is a switch or a subcommand any more. -/

namespace SlotScript.CommandLine

/-- What to run. -/
inductive Mode where
  | file (path : String)
  | prompt
deriving DecidableEq, Repr

/-- The settings that hold for the whole run. -/
structure Settings where
  timing : Bool
  verbose : Bool
deriving DecidableEq, Repr

/-- What the arguments ask for. -/
structure Invocation where
  mode : Mode
  settings : Settings
deriving DecidableEq, Repr

/-- How much the program logs. -/
inductive LogLevel where
  | warn | info | debug
deriving DecidableEq, Repr

/-- Why the arguments start no run. -/
inductive Refusal where
  | helpRequested
  | versionRequested
  /-- Nothing at all was asked for, so help is shown. -/
  | nothingRequested
  | missingSubcommand
  | invalidSubcommand
  | unknownArgument
  | missingPath
  | emptyPath
  | repeatedSwitch
  | unexpectedValue
deriving DecidableEq, Repr

/-- The switches; none of them takes a value. -/
inductive Switch where
  | timing | verbose | help | version
deriving DecidableEq, Repr

/-- The form of an argument. -/
inductive Argument where
  /-- The mark `--`. -/
  | divider
  /-- A switch written out, with or without a value attached. -/
  | long (name : String) (hasValue : Bool)
  /-- Switches of one letter each. -/
  | short (letters : List Char)
  | word (text : String)
deriving DecidableEq, Repr

namespace Argument

/-- The form of an argument text. -/
def ofString (s : String) : Argument :=
  match s.toList with
  | ['-', '-'] => .divider
  | '-' :: '-' :: name =>
    .long (String.ofList (name.takeWhile (· != '='))) (name.contains '=')
  | '-' :: c :: letters => .short (c :: letters)
  | _ => .word s

end Argument

namespace Switch

/-- The switch with a name.  The version is shown only before a subcommand. -/
def ofName? (top : Bool) (name : String) : Option Switch :=
  match name with
  | "timing" => some .timing
  | "verbose" => some .verbose
  | "help" => some .help
  | "version" => if top then some .version else none
  | _ => none

/-- The switch with a letter. -/
def ofLetter? (top : Bool) (letter : Char) : Option Switch :=
  match letter with
  | 'v' => some .verbose
  | 'h' => some .help
  | 'V' => if top then some .version else none
  | _ => none

end Switch

namespace Settings

/-- The settings without any switch. -/
def plain : Settings := ⟨false, false⟩

/-- What either sets. -/
def or (a b : Settings) : Settings := ⟨a.timing || b.timing, a.verbose || b.verbose⟩

/-- Some switch was given. -/
def any (s : Settings) : Bool := s.timing || s.verbose

/-- The log level that the settings select. -/
def logLevel (s : Settings) : LogLevel :=
  if s.verbose then .debug else if s.timing then .info else .warn

/-- Applies a switch, once.  When a refusal is `pending`, it comes first. -/
def apply (pending : Option Refusal) (s : Settings) (switch : Switch) : Except Refusal Settings :=
  match pending with
  | some e => .error e
  | none =>
    match switch with
    | .timing => if s.timing then .error .repeatedSwitch else .ok { s with timing := true }
    | .verbose => if s.verbose then .error .repeatedSwitch else .ok { s with verbose := true }
    | .help => .error .helpRequested
    | .version => .error .versionRequested

/-- Applies a switch by name. -/
def applyLong (top : Bool) (pending : Option Refusal) (s : Settings) (name : String)
    (hasValue : Bool) : Except Refusal Settings :=
  match Switch.ofName? top name with
  | none => .error .unknownArgument
  | some switch => if hasValue then .error .unexpectedValue else s.apply pending switch

/-- Applies switches by their letters, in order. -/
def applyLetters (top : Bool) (pending : Option Refusal) (s : Settings) :
    List Char → Except Refusal Settings
  | [] => .ok s
  | c :: rest =>
    match Switch.ofLetter? top c with
    | none => .error .unknownArgument
    | some switch =>
      match s.apply pending switch with
      | .ok s => s.applyLetters top pending rest
      | .error e => .error e

end Settings

/-- The names of the subcommands. -/
def subcommands : List String := ["file", "repl", "help"]

/-- Reads what follows the prompt subcommand. -/
def readPrompt (s : Settings) : List String → Except Refusal Settings
  | [] => .ok s
  | arg :: rest =>
    match Argument.ofString arg with
    | .divider => if rest.isEmpty then .ok s else .error .unknownArgument
    | .word _ => .error .unknownArgument
    | .long name hasValue =>
      match s.applyLong false none name hasValue with
      | .ok s => readPrompt s rest
      | .error e => .error e
    | .short letters =>
      match s.applyLetters false none letters with
      | .ok s => readPrompt s rest
      | .error e => .error e

/-- A path that is there and not empty. -/
def checkPath : Option String → Except Refusal String
  | none => .error .missingPath
  | some path => if path.isEmpty then .error .emptyPath else .ok path

/-- The refusal of an empty path, which comes before the effect of any switch
behind it. -/
def pathRefusal (path : Option String) : Option Refusal :=
  if path = some "" then some .emptyPath else none

/-- Reads what follows the file subcommand; `path` is the path read so far. -/
def readFile (s : Settings) (path : Option String) : List String → Except Refusal (String × Settings)
  | [] => (checkPath path).map fun p => (p, s)
  | arg :: rest =>
    match Argument.ofString arg with
    | .divider =>
      match path, rest with
      | path, [] => (checkPath path).map fun p => (p, s)
      | none, [p] => (checkPath (some p)).map fun p => (p, s)
      | _, _ => .error .unknownArgument
    | .word p => if path.isSome then .error .unknownArgument else readFile s (some p) rest
    | .long name hasValue =>
      match s.applyLong false (pathRefusal path) name hasValue with
      | .ok s => readFile s path rest
      | .error e => .error e
    | .short letters =>
      match s.applyLetters false (pathRefusal path) letters with
      | .ok s => readFile s path rest
      | .error e => .error e

/-- Reads what follows the help subcommand: nothing, or one subcommand. -/
def readHelp : List String → Refusal
  | [] => .helpRequested
  | [name] => if subcommands.contains name then .helpRequested else .invalidSubcommand
  | _ => .invalidSubcommand

/-- Reads the arguments behind the switches `s`. -/
def read (s : Settings) : List String → Except Refusal Invocation
  | [] => .error (if s.any then .missingSubcommand else .nothingRequested)
  | arg :: rest =>
    match Argument.ofString arg with
    | .divider =>
      match rest with
      | [] => .error (if s.any then .missingSubcommand else .nothingRequested)
      | name :: _ =>
        .error (if subcommands.contains name then .unknownArgument else .invalidSubcommand)
    | .word "file" => (readFile .plain none rest).map fun (path, t) => ⟨.file path, s.or t⟩
    | .word "repl" => (readPrompt .plain rest).map fun t => ⟨.prompt, s.or t⟩
    | .word "help" => .error (readHelp rest)
    | .word _ => .error .invalidSubcommand
    | .long name hasValue =>
      match s.applyLong true none name hasValue with
      | .ok s => read s rest
      | .error e => .error e
    | .short letters =>
      match s.applyLetters true none letters with
      | .ok s => read s rest
      | .error e => .error e

/-- Reads the arguments of the program. -/
def parse (args : List String) : Except Refusal Invocation := read .plain args

/-- What is shown instead of a run. -/
def Refusal.text : Refusal → String
  | .versionRequested => "typlox 0.1.0"
  | .helpRequested | .nothingRequested =>
    "Usage: typlox [--timing] [-v|--verbose] <file PATH | repl>"
  | .missingSubcommand => "error: a subcommand is required: file or repl"
  | .invalidSubcommand => "error: unrecognized subcommand"
  | .unknownArgument => "error: unexpected argument"
  | .missingPath => "error: the path of the file is missing"
  | .emptyPath => "error: the path of the file is empty"
  | .repeatedSwitch => "error: a switch is given more than once"
  | .unexpectedValue => "error: a switch takes no value"

/-- The exit code that goes with a refusal: showing what was asked for is no
error. -/
def Refusal.exitCode : Refusal → UInt32
  | .helpRequested | .versionRequested => 0
  | _ => 2

end SlotScript.CommandLine
