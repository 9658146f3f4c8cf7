import ResourceDistribution.Python.Query
import ResourceDistribution.Tracker.BodyBound

/-!
# Routes

What `do_GET` and `do_POST` make of the target of a request. A query arrives as it was sent, whatever
characters stand in it and whichever form encoding wrote it (`doGet_queryTarget`).
-/

open Python

namespace Tracker

/-! ### Targets -/

/-- `parsed.path.rstrip("/") or "/"`. -/
def endpoint (target : Str) : Str :=
  let path := (Url.path target).rdropWhile (· = .scalar '/')
  if path = [] then Str.ofString "/" else path

/-- What `do_GET` asks of the registry, if the target is one of its endpoints. -/
def getRequest (target : Str) : Option Request :=
  let path := endpoint target
  let query := Url.parseQs (Url.query target)
  if path ∈ ["/", "/health", "/api/v1/health"].map Str.ofString then some .health
  else if path = Str.ofString "/api/v1/nodes" then some .nodes
  else if path = Str.ofString "/api/v1/files" then some .files
  else if path = Str.ofString "/api/v1/query" then
    some (.query (query (Str.ofString "file_hash")) (query (Str.ofString "file_name")))
  else if path = Str.ofString "/api/v1/snapshot" then some .snapshot
  else none

/-- `do_GET`. -/
def Server.doGet [RecursionLimit] [UnicodeData] (server : Server) (nodes : Nodes) (clock : Clock)
    (target : Str) : Option Response × Nodes :=
  match getRequest target with
  | some request => server.handle nodes clock request
  | none => (sendError 404 "endpoint not found", nodes)

/-- The paths of `do_POST` that read a body. -/
def postPath (target : Str) : Option PostPath :=
  let path := endpoint target
  if path = Str.ofString "/api/v1/update" then some .update
  else if path = Str.ofString "/api/v1/offline" then some .offline
  else none

/-- `do_POST`. -/
def Server.doPost [RecursionLimit] [UnicodeData] (server : Server) (nodes : Nodes) (clock : Clock)
    (target : Str) (contentLength : Option Str) (stream : List UInt8) (clientHost : Str) :
    Option Response × Nodes :=
  match postPath target with
  | some path => server.post path nodes clock contentLength stream clientHost
  | none => (sendError 404 "endpoint not found", nodes)

/-! ### Queries -/

/-- The target of a query with given parameters. -/
def queryTarget (enc : Url.FormEncoding) (parameters : List (String × String)) : Str :=
  Str.ofString "/api/v1/query" ++ .scalar '?' :: enc.text parameters

/-- The values that are given for a parameter. `parse_qs` drops the empty ones. -/
def valuesOf (name : String) (parameters : List (String × String)) : List Str :=
  (parameters.filter fun parameter => parameter.2 ≠ "" ∧ parameter.1 = name).map
    fun parameter => Str.ofString parameter.2

theorem getRequest_queryTarget (enc : Url.FormEncoding) (parameters : List (String × String)) :
  getRequest (queryTarget enc parameters)
    = some (.query (valuesOf "file_hash" parameters) (valuesOf "file_name" parameters))
  := by
  have hplain : .scalar '#' ∉ Str.ofString "/api/v1/query"
      ∧ .scalar '?' ∉ Str.ofString "/api/v1/query" := by
    decide
  have hhash := enc.hash_not_mem_text parameters
  have hpath : endpoint (queryTarget enc parameters) = Str.ofString "/api/v1/query" := by
    rw [endpoint, queryTarget, Url.path_append_query hplain hhash]
    decide
  have hquery : Url.query (queryTarget enc parameters) = enc.text parameters :=
    Url.query_append hplain hhash
  simp only [getRequest, hpath, hquery, enc.parseQs_text]
  rfl

/-- A query is answered by its parameters as they were sent. -/
theorem Server.doGet_queryTarget [RecursionLimit] [UnicodeData] (server : Server) (nodes : Nodes)
    (clock : Clock) (enc : Url.FormEncoding) (parameters : List (String × String)) :
  server.doGet nodes clock (queryTarget enc parameters)
    = server.handle nodes clock
        (.query (valuesOf "file_hash" parameters) (valuesOf "file_name" parameters))
  := by
  rw [Server.doGet, getRequest_queryTarget]

end Tracker
