import ResourceDistribution.Data.Fallible
import ResourceDistribution.Node.Text
import ResourceDistribution.Node.TrackerDto

/-!
# Finding the file to download

`resolve_download_target` asks the tracker for the target first as a hash and then, if no file has
it, as a name. How a request is sent and how the body of the answer is decoded are parameters.
-/

namespace Node

/-- Why a target is not resolved. -/
inductive TargetError where
  | emptyValue
  | unanswered (key : String)
  | rejected (key : String)
  | undecodable
  | noMatch (target : String)
  | ambiguous (count : Nat) (target : String)
  deriving DecidableEq

/-! ### Queries -/

/-- `TrackerClient::query(key, value)`. If an answer arrives, `send` gives its status and body. -/
def query (send : String → String → Option (Nat × String)) (decode : String → Option QueryResponse)
    (key value : String) : Except TargetError QueryResponse :=
  if trim value = "" then .error .emptyValue
  else
    match send key value with
    | none => .error (.unanswered key)
    | some (status, body) =>
        if 400 ≤ status ∧ status < 600 then .error (.rejected key)
        else
          match decode body with
          | none => .error .undecodable
          | some response => .ok response

/-- A query succeeds when its value is not blank, it is answered without an error status and the
answer is decoded. -/
theorem query_eq_ok_iff {send : String → String → Option (Nat × String)}
    {decode : String → Option QueryResponse} {key value : String} {response : QueryResponse} :
  query send decode key value = .ok response ↔
    trim value ≠ "" ∧ ∃ status body, send key value = some (status, body) ∧
      ¬ (400 ≤ status ∧ status < 600) ∧ decode body = some response
  := by
  rw [query]
  split
  · rename_i hblank
    simp [hblank]
  · rename_i hvalue
    cases hsend : send key value with
    | none => simp
    | some answer =>
        obtain ⟨status, body⟩ := answer
        by_cases hstatus : 400 ≤ status ∧ status < 600
        · simp only [if_pos hstatus]
          constructor
          · intro h
            cases h
          · rintro ⟨-, status', body', heq, hstatus', -⟩
            obtain ⟨rfl, -⟩ := Prod.mk.inj (Option.some.inj heq)
            cases hstatus' hstatus
        · simp only [if_neg hstatus]
          constructor
          · intro h
            refine ⟨hvalue, status, body, rfl, hstatus, ?_⟩
            cases hdecode : decode body with
            | none =>
                rw [hdecode] at h
                cases h
            | some decoded =>
                rw [hdecode] at h
                rw [Except.ok.inj h]
          · rintro ⟨-, status', body', heq, -, hdecode⟩
            obtain ⟨rfl, rfl⟩ := Prod.mk.inj (Option.some.inj heq)
            rw [hdecode]

/-! ### Targets -/

/-- `resolve_download_target(target)`, by the two queries of the tracker client. -/
def resolveDownloadTarget (queryByHash queryByName : String → Except TargetError QueryResponse)
    (target : String) : Except TargetError FileLocation := do
  let byHash ← queryByHash target
  match byHash.locations with
  | location :: _ => return location
  | [] =>
      let byName ← queryByName target
      match byName.locations with
      | [] => .error (.noMatch target)
      | [location] => return location
      | locations => .error (.ambiguous locations.length target)

/-- A target is resolved to the first location found by its hash, or, if there is none, to the only
one found by its name. -/
theorem resolveDownloadTarget_eq_ok_iff
    {queryByHash queryByName : String → Except TargetError QueryResponse} {target : String}
    {location : FileLocation} :
  resolveDownloadTarget queryByHash queryByName target = .ok location ↔
    ∃ byHash, queryByHash target = .ok byHash ∧
      (byHash.locations.head? = some location ∨
        byHash.locations = [] ∧
          ∃ byName, queryByName target = .ok byName ∧ byName.locations = [location])
  := by
  rw [resolveDownloadTarget, Fallible.bind_eq_ok]
  apply exists_congr
  rintro ⟨locations⟩
  apply and_congr_right
  intro _
  cases locations with
  | cons first rest => simp [pure, Except.pure]
  | nil =>
      simp only [List.head?_nil, reduceCtorEq, true_and, false_or, Fallible.bind_eq_ok]
      apply exists_congr
      rintro ⟨locations⟩
      apply and_congr_right
      intro _
      cases locations with
      | nil => simp
      | cons first rest =>
          cases rest with
          | nil => simp [pure, Except.pure]
          | cons second rest => simp

end Node
