/-
  Reading a command line.

  An option's value is attached (`--name=value`, `-nvalue`) or the next argument. An attached value
  is read at once, any other when the next option or input starts or the command line ends. An
  argument that nothing can take ends the reading, whatever is still unread before it.
-/
import HackVM.CommandLine.Value

namespace HackVM.CommandLine

open Project

/-! ## Options -/

/-- The options, and the input. -/
inductive Key where
  | verbose | help | version
  | output | comments | noFuse | bootstrap | config
  | cycles | dump | preset
  | input
deriving DecidableEq

namespace Key

/-- The name of the form `--name`. -/
def long? : Key → Option String
  | .verbose => some "verbose"
  | .help => some "help"
  | .version => some "version"
  | .output => some "output"
  | .comments => some "comments"
  | .noFuse => some "no-fuse"
  | .bootstrap => some "bootstrap"
  | .config => some "config"
  | .cycles => some "cycles"
  | .dump => some "dump"
  | .preset => some "set"
  | .input => none

/-- The letter of the form `-n`. -/
def short? : Key → Option Char
  | .verbose => some 'v'
  | .help => some 'h'
  | .version => some 'V'
  | .output => some 'o'
  | .comments | .noFuse | .bootstrap | .config | .cycles | .dump | .preset | .input => none

/-- The option has a value. -/
def takesValue : Key → Bool
  | .output | .bootstrap | .config | .cycles | .dump | .preset | .input => true
  | .verbose | .help | .version | .comments | .noFuse => false

/-- The option may be given more than once. -/
def repeats (key : Key) : Bool := key = .preset

end Key

/-- An option with its value read. -/
inductive Setting where
  | verbose
  | comments
  | noFuse
  | output (path : String)
  | bootstrap (policy : Policy)
  | config (path : String)
  | cycles (count : Nat)
  | dump (first last : Word)
  | preset (address : Word) (value : Int)
  | input (path : String)
deriving DecidableEq

namespace Setting

def key : Setting → Key
  | .verbose => .verbose
  | .comments => .comments
  | .noFuse => .noFuse
  | .output _ => .output
  | .bootstrap _ => .bootstrap
  | .config _ => .config
  | .cycles _ => .cycles
  | .dump _ _ => .dump
  | .preset _ _ => .preset
  | .input _ => .input

/-- The setting of an option without value; `help` and `version` end the reading. -/
def ofFlag : Key → Except UsageError Setting
  | .verbose => .ok .verbose
  | .comments => .ok .comments
  | .noFuse => .ok .noFuse
  | .help => .error .help
  | .version => .error .version
  | .output | .bootstrap | .config | .cycles | .dump | .preset | .input => .error .invalidValue

/-- The setting of an option with value `text`. -/
def ofValue (text : String) : Key → Except UsageError Setting
  | .output => (readPath text).map .output
  | .bootstrap => (readPolicy text).map .bootstrap
  | .config => (readPath text).map .config
  | .cycles => ((readCycles text).map .cycles).mapError .invalidText
  | .dump => ((readRange text).map fun (first, last) => .dump first last).mapError .invalidText
  | .preset =>
    ((readPreset text).map fun (address, value) => .preset address value).mapError .invalidText
  | .input => (readPath text).map .input
  | .verbose | .comments | .noFuse | .help | .version => .error .surplusValue

end Setting

/-! ## Reading arguments -/

/-- The settings so far, and an option whose value is not read yet. -/
structure Reading where
  settings : List Setting := []
  waiting : Option (Key × Option String) := none

namespace Reading

/-- Adds `setting`, unless `key` is there already and does not repeat. -/
def add (reading : Reading) (key : Key) (setting : Except UsageError Setting) :
    Except UsageError Reading :=
  if reading.settings.any (·.key = key) && !key.repeats then .error .repeatedOption
  else setting.map fun setting => { reading with settings := reading.settings ++ [setting] }

/-- Reads the value of the waiting option. -/
def settle (reading : Reading) : Except UsageError Reading :=
  match reading.waiting with
  | none => .ok reading
  | some (_, none) => .error .invalidValue
  | some (key, some text) => { reading with waiting := none }.add key (Setting.ofValue text key)

/-- An option without value. -/
def flag (reading : Reading) (key : Key) : Except UsageError Reading := do
  (← reading.settle).add key (Setting.ofFlag key)

/-- An option with attached value. -/
def attached (reading : Reading) (key : Key) (text : String) : Except UsageError Reading := do
  (← reading.settle).add key (Setting.ofValue text key)

/-- An option whose value is the next argument, or the input. -/
def wait (reading : Reading) (key : Key) (text : Option String) : Except UsageError Reading := do
  return { ← reading.settle with waiting := some (key, text) }

/-- The input has been given. -/
def hasInput (reading : Reading) : Bool :=
  reading.settings.any (·.key = .input) || reading.waiting.any (·.1 = .input)

/-- An argument of the form `--name` or `--name=value`. -/
def long (keys : List Key) (reading : Reading) (text : List Char) : Except UsageError Reading :=
  let (name, value) := match Text.splitAtFirst '=' text with
    | some (name, value) => (name, some (String.ofList value))
    | none => (text, none)
  match keys.find? (·.long? = some (String.ofList name)) with
  | none => .error .unknownArgument
  | some key =>
    match key.takesValue, value with
    | true, some value => reading.attached key value
    | true, none => reading.wait key none
    | false, some _ => .error .surplusValue
    | false, none => reading.flag key

/-- An argument of the form `-abc`: letters, the last of which may take a value. -/
def short (keys : List Key) (reading : Reading) : List Char → Except UsageError Reading
  | [] => .ok reading
  | c :: rest =>
    match keys.find? (·.short? = some c) with
    | none => .error .unknownArgument
    | some key =>
      if key.takesValue then
        match rest with
        | [] => reading.wait key none
        | '=' :: value => reading.attached key (String.ofList value)
        | value => reading.attached key (String.ofList value)
      else do short keys (← reading.flag key) rest

end Reading

/-- The form of an argument. -/
inductive Shape where
  | doubleDash
  | long (text : List Char)
  | short (letters : List Char)
  | plain

def Shape.of (arg : String) : Shape :=
  match arg.toList with
  | ['-', '-'] => .doubleDash
  | '-' :: '-' :: text => .long text
  | ['-'] => .plain
  | '-' :: letters => .short letters
  | _ => .plain

/-! ## Subcommands -/

inductive Subcommand where
  | translate | run
deriving DecidableEq

namespace Subcommand

def ofName? : String → Option Subcommand
  | "translate" => some .translate
  | "run" => some .run
  | _ => none

/-- The options of each subcommand. -/
def keys : Subcommand → List Key
  | .translate => [.verbose, .help, .output, .comments, .noFuse, .bootstrap, .config]
  | .run => [.verbose, .help, .cycles, .dump, .preset]

/-- An argument that is no option is the input, once. -/
def takeInput (reading : Reading) (arg : String) : Except UsageError Reading :=
  if reading.hasInput then .error .unknownArgument else reading.wait .input (some arg)

/-- The arguments behind a subcommand. After `--` no argument is an option. -/
def read (keys : List Key) (optionsEnded : Bool) (reading : Reading) :
    List String → Except UsageError Reading
  | [] => reading.settle
  | arg :: rest =>
    if optionsEnded then do read keys true (← takeInput reading arg) rest
    else match Shape.of arg with
      | .doubleDash => read keys true reading rest
      | .long text => do read keys false (← reading.long keys text) rest
      | .short letters => do read keys false (← reading.short keys letters) rest
      | .plain =>
        match reading.waiting with
        | some (key, none) => read keys false { reading with waiting := some (key, some arg) } rest
        | _ => do read keys false (← takeInput reading arg) rest

end Subcommand

/-! ## The whole command line -/

/-- The request of a command line. -/
inductive Action where
  | translate (input : String) (output config : Option String) (overrides : Settings.Overrides)
  | run (input : String) (trial : Trial)

structure Invocation where
  verbose : Bool
  action : Action

/-- The budget of a run without `--cycles`. -/
def defaultCycles : Nat := 1000000

/-- The cells shown without `--dump`. -/
def defaultDump : Word × Word := (0, 16)

/-- The action of a subcommand with its settings. -/
def Subcommand.action (settings : List Setting) (input : String) : Subcommand → Action
  | .translate =>
    let output := settings.findSome? fun
      | .output path => some path
      | _ => none
    let config := settings.findSome? fun
      | .config path => some path
      | _ => none
    let bootstrap := settings.findSome? fun
      | .bootstrap policy => some policy
      | _ => none
    .translate input output config
      ⟨settings.contains .comments, settings.contains .noFuse, bootstrap⟩
  | .run =>
    let cycles := settings.findSome? fun
      | .cycles count => some count
      | _ => none
    let dump := settings.findSome? fun
      | .dump first last => some (first, last)
      | _ => none
    let presets := settings.filterMap fun
      | .preset address value => some (address, value)
      | _ => none
    let (first, last) := dump.getD defaultDump
    .run input { budget := cycles.getD defaultCycles, presets, first, last }

/-- The rest of the command line behind the name of a subcommand. -/
def readSubcommand (verbose : Bool) (subcommand : Subcommand) (args : List String) :
    Except UsageError Invocation := do
  let reading ← Subcommand.read subcommand.keys false {} args
  let input := reading.settings.findSome? fun
    | .input path => some path
    | _ => none
  match input with
  | none => .error .missingInput
  | some input =>
    return ⟨verbose || reading.settings.contains .verbose,
      subcommand.action reading.settings input⟩

/-- The subject of `help`. -/
def helpOn : List String → UsageError
  | [] => .help
  | [name] =>
    if name = "help" || (Subcommand.ofName? name).isSome then .help else .unknownSubcommand
  | _ => .unknownSubcommand

/-- The options in front of a subcommand. -/
def globalKeys : List Key := [.verbose, .help, .version]

/-- The arguments up to a subcommand, then `readSubcommand`. -/
def readGlobal (optionsEnded : Bool) (reading : Reading) :
    List String → Except UsageError Invocation
  | [] => .error (if reading.settings.isEmpty then .noArguments else .missingSubcommand)
  | arg :: rest =>
    if optionsEnded then
      .error (if arg = "help" || (Subcommand.ofName? arg).isSome then .unknownArgument
        else .unknownSubcommand)
    else if arg = "help" then .error (helpOn rest)
    else match Subcommand.ofName? arg with
      | some subcommand => readSubcommand (reading.settings.contains .verbose) subcommand rest
      | none =>
        match Shape.of arg with
        | .doubleDash => readGlobal true reading rest
        | .long text => do readGlobal false (← reading.long globalKeys text) rest
        | .short letters => do readGlobal false (← reading.short globalKeys letters) rest
        | .plain => .error .unknownSubcommand

/-- The invocation of a command line without the program name. -/
def parse (args : List String) : Except UsageError Invocation := readGlobal false {} args

end HackVM.CommandLine
