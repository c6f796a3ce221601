import Rollcall.Config.Document

/-!
# The command line

There are two commands: `check-config` prints the settings of a configuration file, and `run` joins
the cluster with them. Options have a long name, and the file's one also a short one; a value stands
behind an equals sign or in the next argument. The options of `run` take the place of settings in
the file, which has to be usable without them.
-/

namespace Rollcall.CommandLine

/-- The forms of the log. -/
inductive LogStyle
  | text
  | json
  deriving DecidableEq, Repr

/-- The form of the log with a name. -/
def LogStyle.ofName? (s : String) : Option LogStyle :=
  if s = "text" then some .text else if s = "json" then some .json else none

/-- Settings that take the place of those in the file. -/
structure Replacements where
  instanceId : Option String := none
  endpoints : List String := []
  clusterId : Option String := none
  deriving DecidableEq, Repr

/-- The configuration with replacements in it. -/
def Replacements.into (o : Replacements) (c : Config) : Config :=
  { c with
    self := { c.self with id := o.instanceId.getD c.self.id }
    store := { c.store with
      endpoints := if o.endpoints.isEmpty then c.store.endpoints else o.endpoints }
    cluster := { c.cluster with id := o.clusterId <|> c.cluster.id } }

/-- What is to be done. -/
inductive Command
  | run (file : String) (replacements : Replacements) (format : LogStyle)
  | checkConfig (file : String)
  /-- Explain the program, or one of its commands. -/
  | help (topic : Option String)
  deriving DecidableEq, Repr

/-- The configuration file that a command needs. -/
def Command.file? : Command → Option String
  | .run file _ _ | .checkConfig file => some file
  | .help _ => none

/-- The options. -/
inductive Opt
  | config
  | instanceId
  | endpoint
  | clusterId
  | logFormat
  deriving DecidableEq, Repr

/-- The long names of the options of a command. -/
def optionsOf (command : String) : List (String × Opt) :=
  if command = "run" then
    [("config", .config), ("sling-id", .instanceId), ("endpoint", .endpoint),
      ("cluster-id", .clusterId), ("log-format", .logFormat)]
  else [("config", .config)]

/-- The options given so far. -/
structure Given where
  config : Option String := none
  replacements : Replacements := {}
  format : Option LogStyle := none

/-- The options with one more of them; none if it must not stand here, or not with this value. -/
def Given.set (g : Given) (o : Opt) (v : String) : Option Given :=
  match o with
  | .config => if g.config.isSome ∨ v = "" then none else some { g with config := some v }
  | .instanceId =>
    if g.replacements.instanceId.isSome then none
    else some { g with replacements := { g.replacements with instanceId := some v } }
  | .endpoint =>
    let endpoints := g.replacements.endpoints ++ [v]
    some { g with replacements := { g.replacements with endpoints } }
  | .clusterId =>
    if g.replacements.clusterId.isSome then none
    else some { g with replacements := { g.replacements with clusterId := some v } }
  | .logFormat =>
    if g.format.isSome then none
    else (LogStyle.ofName? v).map fun f => { g with format := some f }

/-- The name of an option and the value behind its equals sign. -/
def splitOption (cs : List Char) : String × Option String :=
  (String.ofList (cs.takeWhile (· ≠ '=')),
    match cs.dropWhile (· ≠ '=') with
    | '=' :: v => some (String.ofList v)
    | _ => none)

/-- Whether an argument is the value of the option before it. -/
def isValue (arg : String) : Bool := arg = "-" || arg.toList.head? ≠ some '-'

/-- What an argument is among the options of a command. -/
inductive Argument
  | help
  | option (o : Opt) (value : Option String)
  /-- Nothing but values of the command itself may follow. -/
  | separator
  | unknown

/-- An argument among the options of a command. -/
def classify (options : List (String × Opt)) (arg : String) : Argument :=
  match arg.toList with
  | ['-', '-'] => .separator
  | '-' :: '-' :: cs =>
    let (name, v) := splitOption cs
    if name = "help" ∧ v.isNone then .help
    else
      match options.lookup name with
      | some o => .option o v
      | none => .unknown
  | '-' :: 'h' :: _ => .help
  | ['-', 'c'] => .option .config none
  | '-' :: 'c' :: '=' :: v => .option .config (some (String.ofList v))
  | '-' :: 'c' :: v => .option .config (some (String.ofList v))
  | _ => .unknown

/-- The options of a command, or a question for help; none if an argument is out of place. -/
def readOptions (options : List (String × Opt)) : Given → List String → Option (Given ⊕ Unit)
  | g, [] => some (.inl g)
  | g, arg :: rest =>
    match classify options arg with
    | .help => some (.inr ())
    | .separator => if rest.isEmpty then some (.inl g) else none
    | .unknown => none
    | .option o (some v) => (g.set o v).bind fun g => readOptions options g rest
    | .option o none =>
      match rest with
      | [] => none
      | v :: rest =>
        if isValue v then (g.set o v).bind fun g => readOptions options g rest else none

/-- The names of the commands. -/
def commands : List String := ["run", "check-config", "help"]

/-- The command that arguments give; none if they are out of place. -/
def read : List String → Option Command
  | [] => none
  | "help" :: [] => some (.help none)
  | "help" :: [topic] => if commands.contains topic then some (.help (some topic)) else none
  | name :: args =>
    match classify [] name with
    | .help => some (.help none)
    | _ =>
      if name = "run" ∨ name = "check-config" then
        match readOptions (optionsOf name) {} args with
        | some (.inl g) =>
          g.config.map fun file =>
            if name = "run" then .run file g.replacements (g.format.getD .text)
            else .checkConfig file
        | some (.inr ()) => some (.help (some name))
        | none => none
      else none

/-- How the program ends, or what it goes on to do. -/
inductive Outcome
  /-- The arguments are out of place. -/
  | misused
  | explained (topic : Option String)
  /-- The file cannot be used. -/
  | notLoaded (file : String) (cause : Option Config.ReadError)
  /-- The settings cannot be used. -/
  | invalid (e : Config.Invalid)
  | unwritable
  | printed (text : String)
  /-- Join the cluster. -/
  | joins (c : Config) (format : LogStyle)
  deriving DecidableEq, Repr

/-- The exit code; joining has none of its own. -/
def Outcome.exitCode : Outcome → Nat
  | explained _ | printed _ | joins .. => 0
  | misused => 2
  | _ => 1

/-- The configuration in a file, whose text is missing if it cannot be read, with replacements. -/
def load (file : String) (text : Option String) (o : Replacements) : Except Outcome Config :=
  match text.map Config.read with
  | none => .error (.notLoaded file none)
  | some (.error e) => .error (.notLoaded file (some e))
  | some (.ok c) =>
    let c := o.into c
    match c.validate with
    | .ok () => .ok c
    | .error e => .error (.invalid e)

/-- The outcome of a command, by the texts of files. -/
def Command.outcome (files : String → Option String) : Command → Outcome
  | .help topic => .explained topic
  | .checkConfig file =>
    match load file (files file) {} with
    | .error o => o
    | .ok c => (c.write.map Outcome.printed).getD .unwritable
  | .run file replacements format =>
    match load file (files file) replacements with
    | .error o => o
    | .ok c => .joins c format

/-- The outcome of arguments, by the texts of files. -/
def outcome (files : String → Option String) (args : List String) : Outcome :=
  match read args with
  | some c => c.outcome files
  | none => .misused

end Rollcall.CommandLine
