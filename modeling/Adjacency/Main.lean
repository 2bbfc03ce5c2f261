import Adjacency.CommandLine.Report

/-!
# The command line

Reads the environment and files, runs the request, prints its lines and sets the exit code.
-/

namespace Adjacency.CommandLine

/-- The contents of a file: none when there is no such file, and none inside when it cannot be
read. -/
def readContents (path : String) : IO (Option (Option String)) := do
  try
    return some (some (← IO.FS.readFile path))
  catch
    | .noFileOrDirectory .. => return none
    | _ => return some none

/-- The user's configuration directory. -/
def configDirectory : IO (Option String) := do
  match ← IO.getEnv "XDG_CONFIG_HOME" with
  | some dir => if dir.startsWith "/" then return some dir
  | none => pure ()
  return (← IO.getEnv "HOME").map (· ++ "/.config")

def fail (e : CommandError) : IO UInt32 := do
  IO.eprintln ("error: " ++ e.message)
  return e.code

/-- Prepares the task, runs it and prints the report. -/
def runTask (path : Option String) (task : Traverse) : IO UInt32 := do
  let asked ← path.mapM readContents
  let standard ← match EngineConfig.defaultPath none (← configDirectory) with
    | some path => readContents path
    | none => pure none
  let prepared := do
    Prepared.ofTask (← configFor (fun _ => asked.join.join) standard path) task
  match prepared with
  | .error e => fail e
  | .ok prepared => do
    let begun ← IO.monoNanosNow
    match ← IO.lazyPure fun _ => prepared.report with
    | .error e => fail e
    | .ok report => do
      let ended ← IO.monoNanosNow
      (report.lines (some (ended - begun))).forM IO.println
      return 0

end Adjacency.CommandLine

open Adjacency Adjacency.CommandLine in
def main (words : List String) : IO UInt32 := do
  match Request.ofWords (← IO.getEnv EngineConfig.pathVariable) words with
  | .error e => fail (.usage e)
  | .ok .version => do
    IO.println versionLine
    return 0
  | .ok (.traverse path task) => runTask path task
