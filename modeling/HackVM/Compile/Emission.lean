/-
  Compiling commands. `lower` gives the code of an opcode or a `Refusal`, each with the state at
  that point; `compileCommand`, `compilePair` and `compileStep` turn it into an `Emission`. A
  refused command gives no code and one diagnostic.
-/
import HackVM.Command.Step
import HackVM.Compile.Access
import HackVM.Compile.Arithmetic
import HackVM.Compile.Flow
import HackVM.Compile.State

namespace HackVM.Compile

open Assembly

/-- `comments`: the source text of each command is written before its code. `fuse`: a push and the
pop behind it are compiled to one `move`. -/
structure Options where
  comments : Bool := false
  fuse : Bool := true
deriving DecidableEq

/-- The module whose presence asks for a bootstrap, and the function that the bootstrap calls. -/
structure Entry where
  moduleName : String := "Sys"
  function : String := "Sys.init"
deriving DecidableEq

/-- Code, diagnostics and events of one operation of the compiler. -/
structure Emission where
  code : List Inst := []
  diagnostics : List Diagnostic := []
  events : List Event := []

namespace Emission

/-- Componentwise append. -/
def append (first second : Emission) : Emission :=
  ⟨first.code ++ second.code, first.diagnostics ++ second.diagnostics,
    first.events ++ second.events⟩

instance : Append Emission := ⟨append⟩

/-- Componentwise concatenation. -/
def concat (emissions : List Emission) : Emission :=
  ⟨emissions.flatMap code, emissions.flatMap diagnostics, emissions.flatMap events⟩

end Emission

/-- The code of an opcode, the state after it, and the events. -/
structure Lowered where
  code : List Inst
  state : State
  events : List Event := []

/-- The fault of an opcode, with the state and the events at the point where it is found. -/
structure Refusal where
  fault : Fault
  state : State
  events : List Event := []

/-- The code of an opcode. `resolve` and the label counters act on the state in the order of the
tests, and a refusal carries the state that they have left. -/
def lower (s : State) : Opcode → Except Refusal Lowered
  | .arithmetic word =>
    match Arith.ofWord word with
    | .error fault => .error { fault, state := s }
    | .ok arith =>
      match arith.shape with
      | .binary comp => .ok { code := binary comp, state := s }
      | .unary comp => .ok { code := unary comp, state := s }
      | .comparison jump =>
        .ok { code := comparison jump s.comparisons, state := s.compareLabels.2 }
  | .push segment index =>
    match s.resolve segment index with
    | (.error fault, state) => .error { fault, state }
    | (.ok source, state) =>
      .ok { code := push source.operand, state, events := source.events }
  | .pop segment index =>
    match s.resolve segment index with
    | (.error fault, state) => .error { fault, state }
    | (.ok target, state) =>
      match pop target with
      | .error fault => .error { fault, state, events := target.events }
      | .ok code => .ok { code, state, events := target.events }
  | .label name => .ok { code := label name, state := s }
  | .goto name => .ok { code := goto name, state := s }
  | .ifGoto name => .ok { code := ifGoto name, state := s }
  | .function name locals => .ok { code := function name locals, state := s }
  | .call callee args =>
    if args.toNat < argumentLimit then
      let (returnLabel, state) := s.returnLabel s.moduleName callee
      .ok { code := call callee args returnLabel, state,
            events := [.numberedCall callee args returnLabel] }
    else .error { fault := .tooManyArguments callee args.toNat argumentLimit, state := s }
  | .ret => .ok { code := ret, state := s }

/-- `texts` as comment lines, if the options ask for comments. -/
def comments (options : Options) (texts : List String) : List Inst :=
  if options.comments then texts.map .comment else []

/-- The diagnostic of a fault: a malformed line carries its own location, any other fault is put at
`command`. -/
def diagnose (fault : Fault) (command : Option Command) : Diagnostic :=
  match fault, command with
  | .malformed location message, _ => { severity := .error, location, message }
  | _, some command =>
    { severity := .error, location := command.location, message := fault.message,
      sourceText := some command.sourceText }
  | _, none => { severity := .error, location := .unknown, message := fault.message }

/-- One diagnostic, and no code. -/
def reject (fault : Fault) (command : Option Command) : Emission :=
  let diagnostic := diagnose fault command
  { diagnostics := [diagnostic], events := [.reported diagnostic] }

/-- `lower`, with the source text as a comment before the code; a refusal gives its diagnostic and
the state that it carries. -/
def compileCommand (options : Options) (s : State) (command : Command) : Emission × State :=
  let reached := Event.reachedCommand command.location command.opcode
  match lower s command.opcode with
  | .ok lowered =>
    ({ code := comments options [command.sourceText] ++ lowered.code,
       events := reached :: lowered.events }, lowered.state)
  | .error refusal =>
    ({ events := reached :: refusal.events } ++ reject refusal.fault (some command), refusal.state)

/-- One `move` for a push and the pop behind it. The error carries the events so far and the state
in which static cells may have been allocated. -/
def lowerMove (s : State) (first second : Opcode) : Except (List Event × State) Lowered :=
  match first, second with
  | .push sourceSegment sourceIndex, .pop targetSegment targetIndex =>
    match s.resolve sourceSegment sourceIndex with
    | (.error _, s) => .error ([], s)
    | (.ok source, s) =>
      match s.resolve targetSegment targetIndex with
      | (.error _, s) => .error (source.events, s)
      | (.ok target, s) =>
        let events := source.events ++ target.events
        match move source.operand target with
        | .ok code => .ok { code, state := s, events }
        | .error _ => .error (events, s)
  | _, _ => .error ([], s)

/-- `lowerMove`, and where it fails the two commands one by one, from the state that the attempt has
left. -/
def compilePair (options : Options) (s : State) (first second : Command) : Emission × State :=
  match lowerMove s first.opcode second.opcode with
  | .ok lowered =>
    ({ code := comments options [first.sourceText, second.sourceText] ++ lowered.code,
       events := lowered.events }, lowered.state)
  | .error (events, s) =>
    let (one, s) := compileCommand options s first
    let (two, s) := compileCommand options s second
    ({ events } ++ one ++ two, s)

/-- The emission of a step, and the state after it. -/
def compileStep (options : Options) (s : State) : Step → Emission × State
  | .single command => compileCommand options s command
  | .fused first second => compilePair options s first second
  | .fault reason => (reject reason none, s)

/-- The module of the bootstrap's return label and static cells. -/
def bootModule : String := "Boot"

/-- The bootstrap: enters `bootModule` and calls `entry.function`. A second one is not written. -/
def compileBootstrap (options : Options) (s : State) (entry : Entry) : Emission × State :=
  if s.bootstrapped then ({ events := [.repeatedBootstrap] }, s)
  else
    let (s, entered) := s.enter bootModule
    let (returnLabel, s) := s.returnLabel bootModule entry.function
    ({ code := comments options ["bootstrap: call " ++ entry.function] ++
         bootstrap entry.function returnLabel,
       events := entered ++ [.numberedCall entry.function 0 returnLabel] },
      { s with bootstrapped := true })

/-- The halt loop, if there is no bootstrap. -/
def compileEnd (options : Options) (s : State) : Emission :=
  if s.bootstrapped then {} else { code := comments options ["halt"] ++ halt }

end HackVM.Compile
