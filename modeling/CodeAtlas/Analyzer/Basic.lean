import CodeAtlas.Graph.Snapshot
import CodeAtlas.Json.Decoder

/-!
# What an analyzer says

An analyzer says whether it is there, and it answers requests for snapshots and for
the text of files, or says why it cannot.
-/

namespace CodeAtlas

/-- Which parts of the analyzer are there. -/
structure Health where
  /-- The analyzer itself. -/
  backendOnline : Bool
  /-- The assistant behind it. -/
  llmOnline : Bool
deriving Repr, BEq, DecidableEq

namespace Health

def offline : Health :=
  ⟨false, false⟩

def toJson (h : Health) : Json :=
  .object [("backend_online", .bool h.backendOnline), ("llm_online", .bool h.llmOnline)]

def ofJson? : Json.Decoder Health := fun j => do
  let r ← Json.Record.ofKeys? ["backend_online", "llm_online"] j
  return ⟨← r.required "backend_online" Json.bool?, ← r.required "llm_online" Json.bool?⟩

end Health

/-- Why a request was not answered. -/
inductive AnalyzerError where
  /-- The analyzer could not be reached. -/
  | unavailable (message : String)
  /-- The analyzer does not have what was asked for. -/
  | notFound (message : String)
  /-- The analyzer answered with an error. -/
  | remote (message : String)
  /-- The answer could not be read. -/
  | decode (message : String)
deriving Repr, BEq, DecidableEq

def AnalyzerError.message : AnalyzerError → String
  | .unavailable message => "Analyzer unavailable: " ++ message
  | .notFound message => "Not found: " ++ message
  | .remote message => message
  | .decode message => "Failed to decode analyzer response: " ++ message

/-- The address of an analyzer without slashes at its end. -/
def analyzerAddress (url : String) : String :=
  String.ofList (url.toList.reverse.dropWhile (· == '/')).reverse

end CodeAtlas
