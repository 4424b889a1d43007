import Statewright.Command

open Statewright

namespace Statewright.Main

def put (stream : IO.FS.Stream) (text : Text) : IO Unit := do
  stream.putStr (String.ofList text)
  stream.flush

/-- The error of a store that the system's error stands for. -/
def openError : IO.Error → OpenError
  | .noFileOrDirectory .. => .missing
  | .noSuchThing .. => .missing
  | .permissionDenied .. => .denied
  | .inappropriateType _ 20 _ => .notDirectory
  | .inappropriateType .. => .isDirectory
  | _ => .malformed

/-- Writes outputs one after the other; a file that could not be written is removed. -/
def writeAll (stderr : IO.FS.Stream) :
    List Command.Output → IO UInt32
  | [] => return 0
  | ⟨_, .error _⟩ :: _ | ⟨none, _⟩ :: _ => return 1
  | ⟨some path, .ok text⟩ :: others => do
    if path = ['-'] then
      put (← IO.getStdout) text
      writeAll stderr others
    else
      let name := String.ofList path
      match ← (IO.FS.writeFile name (String.ofList text)).toBaseIO with
      | .ok () => writeAll stderr others
      | .error e =>
        let _ ← (IO.FS.removeFile name).toBaseIO
        put stderr ((openError e).message path ++ "\n")
        return 1

def finish (r : Command.Result) : IO UInt32 := do
  let stderr ← IO.getStderr
  put stderr r.stderr
  match r.outputs with
  | .ok outputs => writeAll stderr outputs
  | .error (.status code) | .error (.usage code) => return code.toUInt32
  | .error (.crash _) => return 1

def undecodable : IO UInt32 := do
  put (← IO.getStderr) "the input is not UTF-8\n"
  return 1

def run (words : List Text) : IO UInt32 := do
  match Command.parse words with
  | .error refusal =>
    let (out, err, code) := Command.refuse refusal
    put (← IO.getStdout) out
    put (← IO.getStderr) err
    return code.toUInt32
  | .ok (o, input) =>
    if input = ['-'] then
      match Text.ofBytes? (← (← IO.getStdin).readBinToEnd) with
      | none => undecodable
      | some source => finish (Command.compile o Command.standardInput source [])
    else
      match ← (IO.FS.readBinFile (String.ofList input)).toBaseIO with
      | .error e =>
        put (← IO.getStderr) (Command.opening o input ++ Command.unreadable (openError e) input)
        return 1
      | .ok bytes =>
        match Text.ofBytes? bytes with
        | none => undecodable
        | some host =>
          let (source, events) := Command.load input host
          finish (Command.compile o input source events)

end Statewright.Main

def main (args : List String) : IO UInt32 :=
  Statewright.Main.run (args.map String.toList)
