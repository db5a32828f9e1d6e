import CodeAtlas.Analyzer.Basic

/-!
# The code panel

Every request for a file takes a ticket, and only the newest ticket may write. So a
slow answer for a file that was left already cannot replace what is shown now.
-/

namespace CodeAtlas

inductive ContentKind where
  /-- The text of a file. -/
  | source
  /-- A note in place of a dependency. -/
  | library
  /-- A note in place of a file that could not be loaded. -/
  | failed
deriving Repr, BEq, DecidableEq

structure ContentView where
  path : String
  text : String
  kind : ContentKind
  focus : Option NodeId
deriving Repr, BEq, DecidableEq

namespace ContentView

def moduleNote (name : String) : String :=
  "\"\"\"\nEXTERNAL LIBRARY: " ++ name ++ "\nBinary content not available.\n\"\"\""

def errorNote (message : String) : String :=
  "# Error loading file\n" ++ message

/-- The note when nobody could be asked for the file. -/
def connectionNote : String :=
  "# Error\nCould not connect to file server."

def noteFor : AnalyzerError → String
  | .unavailable _ => connectionNote
  | .notFound message => errorNote message
  | .remote message => errorNote message
  | .decode message => errorNote message

def ofAnswer (path : String) (focus : Option NodeId) : Except AnalyzerError String → ContentView
  | .ok text => ⟨path, text, .source, focus⟩
  | .error error => ⟨path, noteFor error, .failed, focus⟩

def ofModule (name : String) : ContentView :=
  ⟨NodeId.ofDependency name, moduleNote name, .library, none⟩

end ContentView

structure ContentRequest where
  path : String
  focus : Option NodeId
deriving Repr, BEq, DecidableEq

structure Panel where
  /-- The newest ticket. -/
  latest : Nat := 0
  pending : Option ContentRequest := none
  current : Option ContentView := none
deriving Repr, BEq, DecidableEq

namespace Panel

def isLoading (p : Panel) : Bool :=
  p.pending.isSome

/-- The path that was asked for last, or else the one that is shown. -/
def selectedPath? (p : Panel) : Option String :=
  match p.pending with
  | some request => some request.path
  | none => p.current.map (·.path)

/-- Ask for a file. Every earlier request is outdated from now on. -/
def begin (p : Panel) (path : String) (focus : Option NodeId) : Nat × Panel :=
  (p.latest + 1, { p with latest := p.latest + 1, pending := some ⟨path, focus⟩ })

/-- Take the answer to a request. An outdated one is dropped, and the answer is `false`. -/
def complete (p : Panel) (ticket : Nat) (answer : Except AnalyzerError String) : Bool × Panel :=
  if ticket = p.latest then
    match p.pending with
    | some request =>
      (true, { p with
        pending := none
        current := some (ContentView.ofAnswer request.path request.focus answer) })
    | none => (false, p)
  else (false, p)

/-- Show a dependency at once. Every earlier request is outdated from now on. -/
def showModule (p : Panel) (name : String) : Panel :=
  ⟨p.latest + 1, none, some (ContentView.ofModule name)⟩

end Panel

end CodeAtlas
