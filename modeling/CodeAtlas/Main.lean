import CodeAtlas.CommandLine.Run

/-!
# The program

Reads the files that an invocation names, carries the invocation out and prints what
came of it.
-/

namespace CodeAtlas.Main

def readText? (path : String) : IO (Option String) := do
  try
    return some (← IO.FS.readFile path)
  catch _ =>
    return none

def readHome? : IO (Option String) := do
  match ← IO.getEnv "XDG_CONFIG_HOME", ← IO.getEnv "HOME" with
  | some directory, _ => readText? (directory ++ "/" ++ Settings.defaultPath)
  | none, some directory => readText? (directory ++ "/.config/" ++ Settings.defaultPath)
  | none, none => return none

def readAll (paths : List String) : IO (List (String × String)) := do
  let texts ← paths.mapM fun path => do
    return (← readText? path).map (path, ·)
  return texts.filterMap id

/-- Ask again and again whether the analyzer is there, and print what changes. -/
partial def watch (settings : Settings) (session : Session Unit) : IO Unit := do
  let (_, session) := Session.checkHealth Analyzer.unreachable session
  let (_, session) := Session.refresh Analyzer.unreachable session
  let (events, controller) := session.controller.drain
  for line in events.filterMap CommandLine.eventLine? do
    IO.println line
  IO.sleep (UInt32.ofNat settings.polling.healthInterval)
  watch settings { session with controller := controller }

def carryOut (i : CommandLine.Invocation) : IO UInt32 := do
  let texts ← readAll i.files
  let read (path : String) : Option String := texts.lookup path
  let home ← readHome?
  match CommandLine.run read home i with
  | .error failure =>
    IO.eprintln ("Error: " ++ failure.message)
    return 1
  | .ok output =>
    IO.eprint output.err
    IO.print output.out
    match i.command, CommandLine.settings read home i with
    | .watch, .ok settings => watch settings ⟨Controller.start settings.layout, ()⟩
    | _, _ => pure ()
    return 0

end CodeAtlas.Main

def main (arguments : List String) : IO UInt32 := do
  match CodeAtlas.CommandLine.Invocation.ofArguments? arguments with
  | some i => CodeAtlas.Main.carryOut i
  | none =>
    IO.eprintln "Usage: umbra [-c FILE] [--analyzer URL] layout|tree|highlight|open|watch ..."
    return 2
