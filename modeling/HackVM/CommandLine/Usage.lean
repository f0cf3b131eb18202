/-
  What the program says about how it is used.
-/
import HackVM.CommandLine.Transcript

namespace HackVM.CommandLine

/-- The output of `--help`. -/
def helpText : String := textOfLines
  ["Hack VM translator",
    "",
    "Usage: vmt [-v] translate INPUT [-o OUTPUT] [--comments] [--no-fuse]",
    "           [--bootstrap auto|always|never] [--config FILE]",
    "       vmt [-v] run INPUT [--cycles N] [--dump START..END] [--set ADDRESS=VALUE]...",
    "",
    "  translate   Translate a .vm file, or every .vm file in a directory, into one .asm file",
    "  run         Assemble a .asm file and run it on the simulator",
    "",
    "  -v, --verbose   Log progress",
    "  -h, --help      Print help",
    "  -V, --version   Print version"]

/-- The text of the error. -/
def UsageError.message : UsageError → String
  | .invalidText message => "invalid value: " ++ message
  | .invalidValue => "a value is missing or invalid"
  | .missingInput => "the input is missing"
  | .unknownArgument => "unexpected argument"
  | .repeatedOption => "an option cannot be used multiple times"
  | .surplusValue => "unexpected value for a flag"
  | .unknownSubcommand => "unrecognized subcommand"
  | .missingSubcommand => "a subcommand is required"
  | .noArguments | .help | .version => ""

/-- The transcript of a command line that is not carried out. -/
def UsageError.transcript (error : UsageError) : Transcript :=
  match error with
  | .version => { out := textOfLines [versionText] }
  | .help => { out := helpText }
  | .noArguments => { code := 2, err := helpText }
  | _ => { code := 2, err := textOfLines ["error: " ++ error.message, ""] ++ helpText }

end HackVM.CommandLine
