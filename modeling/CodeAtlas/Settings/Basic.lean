import CodeAtlas.Disk
import CodeAtlas.Json.Printer
import CodeAtlas.Json.Reader
import CodeAtlas.Layout.Codec

/-!
# Settings

Where the analyzer is, how often it is asked, and the metrics of the drawing.
Everything has a default, so that a settings file may hold as little as it likes. A
file that cannot be read or holds no settings is an error only for `load`.
-/

namespace CodeAtlas

/-- Where the analyzer is, and how long to wait for it. -/
structure AnalyzerSettings where
  baseUrl : String := "http://127.0.0.1:8000"
  requestTimeoutMs : Nat := 10000
  healthTimeoutMs : Nat := 2000
deriving Repr, BEq, DecidableEq

namespace AnalyzerSettings

def toJson (s : AnalyzerSettings) : Json :=
  .object [
    ("base_url", .string s.baseUrl),
    ("request_timeout_ms", .ofNat s.requestTimeoutMs),
    ("health_timeout_ms", .ofNat s.healthTimeoutMs)]

def ofJson? : Json.Decoder AnalyzerSettings := fun j => do
  let r ← Json.Record.ofKeys? ["base_url", "request_timeout_ms", "health_timeout_ms"] j
  let d : AnalyzerSettings := {}
  return {
    baseUrl := ← r.withDefault "base_url" Json.string? d.baseUrl
    requestTimeoutMs := ← r.withDefault "request_timeout_ms" Json.nat? d.requestTimeoutMs
    healthTimeoutMs := ← r.withDefault "health_timeout_ms" Json.nat? d.healthTimeoutMs }

end AnalyzerSettings

/-- How often the analyzer is asked. -/
structure PollSettings where
  healthIntervalMs : Nat := 3000
  snapshotIntervalMs : Nat := 5000
deriving Repr, BEq, DecidableEq

namespace PollSettings

/-- Milliseconds between two questions for health: at least one. -/
def healthInterval (s : PollSettings) : Nat :=
  max s.healthIntervalMs 1

/-- Milliseconds between two fetches: at least one. -/
def snapshotInterval (s : PollSettings) : Nat :=
  max s.snapshotIntervalMs 1

def toJson (s : PollSettings) : Json :=
  .object [
    ("health_interval_ms", .ofNat s.healthIntervalMs),
    ("snapshot_interval_ms", .ofNat s.snapshotIntervalMs)]

def ofJson? : Json.Decoder PollSettings := fun j => do
  let r ← Json.Record.ofKeys? ["health_interval_ms", "snapshot_interval_ms"] j
  let d : PollSettings := {}
  return {
    healthIntervalMs := ← r.withDefault "health_interval_ms" Json.nat? d.healthIntervalMs
    snapshotIntervalMs := ← r.withDefault "snapshot_interval_ms" Json.nat? d.snapshotIntervalMs }

end PollSettings

structure Settings where
  analyzer : AnalyzerSettings := {}
  polling : PollSettings := {}
  layout : Metrics Float32 := Metrics.standard
deriving Repr, BEq

namespace Settings

def toJson (s : Settings) : Json :=
  .object [
    ("analyzer", s.analyzer.toJson),
    ("polling", s.polling.toJson),
    ("layout", s.layout.toJson)]

def ofJson? : Json.Decoder Settings := fun j => do
  let r ← Json.Record.ofKeys? ["analyzer", "polling", "layout"] j
  return {
    analyzer := ← r.withDefault "analyzer" AnalyzerSettings.ofJson? {}
    polling := ← r.withDefault "polling" PollSettings.ofJson? {}
    layout := ← r.withDefault "layout" Metrics.ofJson? Metrics.standard }

/-- The settings in a text. A key that is known must not be repeated. -/
def ofText? (text : String) : Option Settings :=
  (Json.parse? text).bind ofJson?

def text (s : Settings) : String :=
  s.toJson.pretty

/-- The settings in a file that may be missing or malformed: then they are the defaults. -/
def ofTextOrDefault (text : Option String) : Settings :=
  (text.bind ofText?).getD {}

/-- Where settings are kept, below the directory for configuration. -/
def defaultPath : String := "umbra/settings.json"

inductive LoadError where
  /-- There is no such file. -/
  | unreadable
  /-- The file holds no settings. -/
  | malformed
deriving Repr, BEq, DecidableEq

/-- The settings in a file whose text may be missing. -/
def load (text : Option String) : Except LoadError Settings :=
  match text with
  | none => .error .unreadable
  | some text =>
    match ofText? text with
    | some settings => .ok settings
    | none => .error .malformed

/-- Write settings to a file; `none` if the file cannot be written. -/
def saveTo? (disk : Disk) (path : String) (s : Settings) : Option Disk :=
  disk.write? path s.text

def isSavedAs (disk : Disk) (path : String) (s : Settings) : Bool :=
  match load (disk.read? path) with
  | .ok loaded => loaded == s
  | .error _ => false

end Settings

end CodeAtlas
