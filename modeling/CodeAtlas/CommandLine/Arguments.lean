/-!
# Arguments

A command line is options, the name of a command, and the options and operands of
that command. The options that say where the settings and the analyzer are may stand
on either side of the name; what stands behind it wins. No option may be repeated on
one side.
-/

namespace CodeAtlas.CommandLine

inductive Command where
  | layout (input : Option String) (vertical global : Bool)
  | tree (input : Option String) (all : Bool)
  | highlight (input : Option String) (node : String)
  | openTarget (target : String)
  | watch
deriving Repr, BEq, DecidableEq

def Command.input? : Command → Option String
  | .layout input _ _ => input
  | .tree input _ => input
  | .highlight input _ => input
  | .openTarget _ => none
  | .watch => none

structure Invocation where
  config : Option String
  analyzer : Option String
  command : Command
deriving Repr, BEq, DecidableEq

/-- The files that an invocation reads, the default settings file apart. -/
def Invocation.files (i : Invocation) : List String :=
  i.config.toList ++ i.command.input?.toList

structure OptionSpec where
  long : String
  short : Option Char := none
  takesValue : Bool := true
  /-- The value may be the empty text. -/
  allowsEmpty : Bool := false

/-- What was found on one side of the name of a command. -/
structure Found where
  values : List (String × String) := []
  flags : List String := []
  operands : List String := []
deriving Repr, BEq, DecidableEq

namespace Found

def value? (f : Found) (name : String) : Option String :=
  f.values.lookup name

def has (f : Found) (name : String) : Bool :=
  f.flags.contains name

/-- Note a value. No option may be repeated. -/
def addValue? (f : Found) (spec : OptionSpec) (value : String) : Option Found :=
  if (f.value? spec.long).isSome || (value.isEmpty && !spec.allowsEmpty) then none
  else some { f with values := (spec.long, value) :: f.values }

/-- Note a flag. No flag may be repeated. -/
def addFlag? (f : Found) (spec : OptionSpec) : Option Found :=
  if f.has spec.long then none else some { f with flags := spec.long :: f.flags }

def addOperands (f : Found) (operands : List String) : Found :=
  { f with operands := f.operands ++ operands }

end Found

inductive Shape where
  /-- Two dashes: only operands follow. -/
  | escape
  /-- The name of an option and the text behind an equals sign. -/
  | long (name : String) (value : Option String)
  /-- The letter of an option and the text behind it. -/
  | short (letter : Char) (rest : List Char)
  /-- Anything else, a single dash included. -/
  | plain
deriving Repr, BEq, DecidableEq

/-- Cut a text at the first equals sign. -/
def cutAtEquals (text : List Char) : String × Option String :=
  let name := text.takeWhile (· != '=')
  match text.dropWhile (· != '=') with
  | [] => (String.ofList name, none)
  | _ :: value => (String.ofList name, some (String.ofList value))

def Shape.of (argument : String) : Shape :=
  match argument.toList with
  | ['-', '-'] => .escape
  | '-' :: '-' :: text =>
    let (name, value) := cutAtEquals text
    .long name value
  | '-' :: letter :: rest => .short letter rest
  | _ => .plain

/-- The value that stands right behind a letter; an equals sign before it is dropped. -/
def attached : List Char → Option String
  | [] => none
  | '=' :: value => some (String.ofList value)
  | value => some (String.ofList value)

/-- The option that an argument names, and the value that is attached to it. -/
def lookup? (specs : List OptionSpec) : Shape → Option (OptionSpec × Option String)
  | .long name value => (specs.find? fun spec => spec.long == name).map (·, value)
  | .short letter rest => (specs.find? fun spec => spec.short == some letter).map (·, attached rest)
  | _ => none

/-- What the arguments before a word that stops the scan hold, and the arguments from that word on. -/
def scan? (specs : List OptionSpec) (stopsAt : String → Bool) :
    Found → List String → Option (Found × List String)
  | found, [] => some (found, [])
  | found, argument :: rest =>
    match Shape.of argument with
    | .escape => some (found.addOperands rest, [])
    | .plain =>
      if stopsAt argument then some (found, argument :: rest)
      else scan? specs stopsAt (found.addOperands [argument]) rest
    | shape =>
      match lookup? specs shape with
      | none => none
      | some (spec, some value) =>
        if spec.takesValue then (found.addValue? spec value).bind (scan? specs stopsAt · rest)
        else none
      | some (spec, none) =>
        if spec.takesValue then
          match rest with
          | [] => none
          | value :: rest =>
            if Shape.of value == .plain then
              (found.addValue? spec value).bind (scan? specs stopsAt · rest)
            else none
        else (found.addFlag? spec).bind (scan? specs stopsAt · rest)

def sharedOptions : List OptionSpec :=
  [{ long := "config", short := some 'c' }, { long := "analyzer", allowsEmpty := true }]

def inputOption : OptionSpec :=
  { long := "input", short := some 'i' }

def flag (name : String) : OptionSpec :=
  { long := name, takesValue := false }

/-- The options of a command; `none` if there is no such command. -/
def optionsOf? : String → Option (List OptionSpec)
  | "layout" => some [inputOption, flag "vertical", flag "global"]
  | "tree" => some [inputOption, flag "all"]
  | "highlight" => some [inputOption]
  | "open" => some []
  | "watch" => some []
  | _ => none

def command? (name : String) (found : Found) : Option Command :=
  let input := found.value? "input"
  match name, found.operands with
  | "layout", [] => some (.layout input (found.has "vertical") (found.has "global"))
  | "tree", [] => some (.tree input (found.has "all"))
  | "highlight", [node] => some (.highlight input node)
  | "open", [target] => some (.openTarget target)
  | "watch", [] => some .watch
  | _, _ => none

/-- Read a command line; `none` if it is not one. -/
def Invocation.ofArguments? (arguments : List String) : Option Invocation := do
  let (before, rest) ← scan? sharedOptions (fun _ => true) {} arguments
  match rest with
  | [] => none
  | name :: rest =>
    let options ← optionsOf? name
    let (behind, _) ← scan? (sharedOptions ++ options) (fun _ => false) {} rest
    return {
      config := (behind.value? "config").or (before.value? "config")
      analyzer := (behind.value? "analyzer").or (before.value? "analyzer")
      command := ← command? name behind }

end CodeAtlas.CommandLine
