/-
  The command line program: files on disk, and the two standard outputs.
-/
import HackVM.CommandLine.Usage

namespace HackVM.Main

open CommandLine Project

/-- The `FileError` of an `IO.Error`, by its system error number, which comes with either sign. -/
def fileError (error : IO.Error) : FileError :=
  match error with
  | .noFileOrDirectory _ _ _ => .notFound
  | .inappropriateType _ code _ =>
    match min code (-code) with
    | 20 => .notADirectory
    | 21 => .isADirectory
    | _ => .other (toString error)
  | .invalidArgument _ code _ =>
    if min code (-code) = 36 then .nameTooLong else .other (toString error)
  | .resourceBusy _ _ => .busy
  | _ => .other (toString error)

/-- `operation`, with its `IO.Error` turned into a `FileError`. -/
def attemptFile {α : Type} (operation : IO α) : IO (Except FileError α) := do
  match ← operation.toBaseIO with
  | .ok value => return .ok value
  | .error error => return .error (fileError error)

/-- `operation`, or `fallback` if it fails. -/
def orElse {α : Type} (fallback : α) (operation : IO α) : IO α := do
  match ← operation.toBaseIO with
  | .ok value => return value
  | .error _ => return fallback

instance : FileSystem IO where
  isDirectory path := orElse false do (← IO.FS.realPath path).isDir
  isFile path := orElse false do
    return (← (← IO.FS.realPath path).metadata).type == .file
  names path := orElse [] do
    return (← (← IO.FS.realPath path).readDir).toList.map (·.fileName)
  directoryName path := orElse none do return (← IO.FS.realPath path).fileName
  read path := do
    match ← attemptFile (IO.FS.readBinFile path) with
    | .error error => return .error error
    | .ok bytes =>
      match String.fromUTF8? bytes with
      | some text => return .ok text
      | none => return .error .notUtf8
  write path text := attemptFile (IO.FS.writeBinFile path text.toUTF8)
  move source target := attemptFile (IO.FS.rename source target)

/-- Writes the transcript and the log to the two outputs; returns the exit code. -/
def finish (transcript : Transcript) (log : List String) : IO UInt32 := do
  IO.eprint (textOfLines log)
  IO.eprint transcript.err
  IO.print transcript.out
  return transcript.code

end HackVM.Main

def main (args : List String) : IO UInt32 := do
  match HackVM.CommandLine.parse args with
  | .error error => HackVM.Main.finish error.transcript []
  | .ok invocation =>
    let (transcript, events) ← (invocation.action.perform :
      IO (HackVM.CommandLine.Transcript × List HackVM.Event))
    HackVM.Main.finish transcript
      (if invocation.verbose then HackVM.Event.log .debug events else [])
