import Rollcall.CommandLine

/-!
# What the command line prints

The texts of help, and what each outcome prints to the two streams.
-/

namespace Rollcall.CommandLine

/-- The text of help: about the program, or about one of its commands. -/
def helpText : Option String → List String
  | some "run" => [
    "Join the cluster and stay in it until Ctrl-C",
    "",
    "Usage: keelsond run [OPTIONS] --config <CONFIG>",
    "",
    "Options:",
    "  -c, --config <CONFIG>          Path to keelson.toml",
    "      --sling-id <SLING_ID>      Override `instance.sling_id`",
    "      --endpoint <ENDPOINTS>     Override `store.endpoints`; repeat for several members",
    "      --cluster-id <CLUSTER_ID>  Override `cluster.id`",
    "      --log-format <LOG_FORMAT>  [default: text] [possible values: text, json]",
    "  -h, --help                     Print help"]
  | some "check-config" => [
    "Parse a configuration file and print the effective settings",
    "",
    "Usage: keelsond check-config --config <CONFIG>",
    "",
    "Options:",
    "  -c, --config <CONFIG>  ",
    "  -h, --help             Print help"]
  | some _ => [
    "Print this message or the help of the given subcommand(s)",
    "",
    "Usage: keelsond help [COMMAND]...",
    "",
    "Arguments:",
    "  [COMMAND]...  Print help for the subcommand(s)"]
  | none => [
    "Keelson discovery daemon",
    "",
    "Usage: keelsond <COMMAND>",
    "",
    "Commands:",
    "  run           Join the cluster and stay in it until Ctrl-C",
    "  check-config  Parse a configuration file and print the effective settings",
    "  help          Print this message or the help of the given subcommand(s)",
    "",
    "Options:",
    "  -h, --help  Print help"]

/-- Lines, each with its end. -/
def unlines (lines : List String) : String := String.join (lines.map (· ++ "\n"))

namespace Outcome

/-- What an outcome prints to the standard output. -/
def stdout : Outcome → String
  | explained topic => unlines (helpText topic)
  | printed text => text
  | _ => ""

/-- The reason for which settings cannot be used, if that is the outcome. -/
def invalid? : Outcome → Option Config.Invalid
  | notLoaded _ (some (.invalid e)) => some e
  | invalid e => some e
  | _ => none

/-- Why a file cannot be used. -/
def loadCause : Option Config.ReadError → String
  | none => "the file cannot be read"
  | some .unreadable => "invalid configuration: not a document with the settings"
  | some (.invalid e) => e.message

/-- What an outcome prints to the standard error. -/
def stderr : Outcome → String
  | misused => unlines ["error: unexpected arguments", "", "For more information, try '--help'."]
  | notLoaded file cause =>
    unlines ["Error: loading " ++ file, "", "Caused by:", "    " ++ loadCause cause]
  | invalid e => unlines ["Error: " ++ e.message]
  | unwritable => unlines ["Error: a number is too great to be written"]
  | _ => ""

end Outcome

end Rollcall.CommandLine
