/-
  Events: the log of a run, each entry with a level.
-/
import HackVM.Command.Opcode
import HackVM.Diagnostic

namespace HackVM

/-- The importance of an event, the most important first. -/
inductive Level where
  | error | warn | info | debug
deriving DecidableEq

namespace Level

def text : Level → String
  | .error => "ERROR"
  | .warn => "WARN"
  | .info => "INFO"
  | .debug => "DEBUG"

def rank : Level → Nat
  | .error => 0
  | .warn => 1
  | .info => 2
  | .debug => 3

end Level

/-- A log entry of a run. -/
inductive Event where
  | enteredModule (name : String) (staticOffset : Nat)
  | reachedCommand (location : Location) (opcode : Opcode)
  | numberedCall (callee : String) (args : Word) (label : String)
  | staticInStackArea (address : Word)
  | reported (diagnostic : Diagnostic)
  | repeatedBootstrap
  | startedBootstrap (function : String)
  | startedModule (name : String)
  | finishedModule (name : String) (commands fused : Nat)
  | finishedProgram (modules instructions : Nat) (summary : String)
  | allocatedVariable (name : String) (address : Word)
  | assembled (instructions symbols : Nat)
  | foundSettings (path : String)
  | foundModules (count : Nat) (input : String)
  | startedProject (modules : Nat) (bootstrap : Bool)
  | wroteArtifact (path : String)

namespace Event

def level : Event → Level
  | .staticInStackArea _ | .reported _ | .repeatedBootstrap => .warn
  | .startedBootstrap _ | .startedModule _ | .finishedProgram _ _ _ => .info
  | .startedProject _ _ | .wroteArtifact _ => .info
  | .enteredModule _ _ | .reachedCommand _ _ | .numberedCall _ _ _ => .debug
  | .finishedModule _ _ _ | .allocatedVariable _ _ | .assembled _ _ => .debug
  | .foundSettings _ | .foundModules _ _ => .debug

/-- The text of an event. -/
def message : Event → String
  | .enteredModule name staticOffset =>
    s!"switched to module '{name}' (static offset {staticOffset})"
  | .reachedCommand location opcode => location.text ++ ": " ++ opcode.text
  | .numberedCall callee args label =>
    let count := args.toNat
    s!"call {callee} {count} returns to {label}"
  | .staticInStackArea address =>
    let cell := address.toNat
    s!"static cell {cell} runs into the stack area"
  | .reported diagnostic => diagnostic.text
  | .repeatedBootstrap => "bootstrap already emitted, ignoring second request"
  | .startedBootstrap function => s!"emitting bootstrap for {function}"
  | .startedModule name => s!"translating module '{name}'"
  | .finishedModule name commands fused =>
    s!"module '{name}': {commands} commands, {fused} fused pairs"
  | .finishedProgram modules instructions summary =>
    s!"translated {modules} modules into {instructions} instructions ({summary})"
  | .allocatedVariable name address =>
    let cell := address.toNat
    s!"allocating variable '{name}' at {cell}"
  | .assembled instructions symbols =>
    s!"assembled {instructions} instructions, {symbols} symbols"
  | .foundSettings path => s!"using config {path}"
  | .foundModules count input => s!"found {count} modules in {input}"
  | .startedProject modules bootstrap =>
    let suffix := if bootstrap then " with bootstrap" else ""
    s!"translating {modules} modules{suffix}"
  | .wroteArtifact path => s!"wrote {path}"

/-- The messages of the events at `level` or above, each with its level in front. -/
def log (level : Level) (events : List Event) : List String :=
  (events.filter fun event => event.level.rank ≤ level.rank).map fun event =>
    event.level.text ++ " " ++ event.message

end Event

end HackVM
