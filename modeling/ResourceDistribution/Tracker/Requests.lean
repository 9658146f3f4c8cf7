import ResourceDistribution.Tracker.Isolation
import ResourceDistribution.Tracker.Leases
import ResourceDistribution.Tracker.Removal
import ResourceDistribution.Tracker.Routes

/-!
# The tracker as clients see it

Requests as they arrive: targets and bodies that anyone may send. Whatever arrives, whenever the
cleanup thread runs, and wherever a save or an answer raises, what a read shows when it is answered
is the lease map of the updates and removals that the requests mean (`answers_show_lease`).
-/

open Python

namespace Tracker

/-! ### Requests -/

/-- What happens to a server: a request arrives, with its target and, of a `POST`, the header
`Content-Length`, what the client sends after the headers and its address, or `_cleanup_loop` cleans
up. -/
inductive ServerEvent where
  | get (target : Str)
  | post (target : Str) (contentLength : Option Str) (stream : List UInt8) (clientHost : Str)
  | delete (target : Str)
  | cleanup

/-- The update or the removal that is meant, if one is. -/
def ServerEvent.call [RecursionLimit] [UnicodeData] : ServerEvent → Option Operation
  | .get _ => none
  | .post target contentLength stream clientHost =>
      match postPath target, readJsonBody contentLength stream with
      | some .update, .payload items => some (.updateNode (.dict items) (some clientHost))
      | some .offline, .payload items => some (.markNodeOffline (Json.get items "node_id"))
      | _, _ => none
  | .delete target => (deletedId target).map fun nodeId => .markNodeOffline (.str nodeId)
  | .cleanup => none

/-- The calls that are meant. -/
def callsMeant [RecursionLimit] [UnicodeData] (events : List (ServerEvent × Clock)) : History :=
  events.filterMap fun i => i.1.call.map fun op => (op, i.2 0)

theorem ServerEvent.call_ne_cleanupExpired [RecursionLimit] [UnicodeData] (event : ServerEvent) :
  event.call ≠ some .cleanupExpired
  := by
  cases event with
  | get target => simp [ServerEvent.call]
  | post target contentLength stream clientHost =>
      rw [ServerEvent.call]
      split
      all_goals simp
  | delete target => simp [ServerEvent.call]
  | cleanup => simp [ServerEvent.call]

section RecursionLimit

variable [RecursionLimit] [UnicodeData]

/-- The answer to a request, if one is sent, and the map that is left. -/
def Server.receive (server : Server) (nodes : Nodes) (clock : Clock) :
    ServerEvent → Option Response × Nodes
  | .get target => server.doGet nodes clock target
  | .post target contentLength stream clientHost =>
      server.doPost nodes clock target contentLength stream clientHost
  | .delete target => server.doDelete nodes clock target
  | .cleanup => (none, (server.cleanupExpired nodes (clock 0) (clock 1)).2)

/-- The map after all that has happened to a server whose registry was empty. -/
def Server.serve (server : Server) (events : List (ServerEvent × Clock)) : Nodes :=
  events.foldl (fun nodes i => (server.receive nodes i.2 i.1).2) Dict.empty

/-! ### What becomes of the map -/

omit [RecursionLimit] [UnicodeData] in
/-- A map that is cleaned up at some times. -/
def swept (times : List Time) (nodes : Nodes) : Nodes :=
  times.foldl (fun nodes t => (cleanupExpired nodes t).2) nodes

variable (server : Server) (nodes : Nodes) (clock : Clock)

/-- An update does to the map what the call does, whether the save raises or not. -/
theorem Server.handle_update_snd (items : List (Str × Json)) (clientHost : Str) :
  (server.handle nodes clock (.update (.dict items) clientHost)).2
    = (Operation.updateNode (.dict items) (some clientHost)).after server.nodeTtlSeconds nodes
        (clock 0)
  := by
  simp only [Server.handle, Server.updateNode, Operation.after, Operation.run]
  cases Tracker.updateNode server.nodeTtlSeconds nodes (.dict items) (some clientHost)
      (clock 0) with
  | error e => rfl
  | ok result => rfl

/-- So does a removal. -/
theorem Server.markNodeOffline_snd (nodeId : Json) :
  (server.markNodeOffline nodes nodeId (clock 0)).2
    = (Operation.markNodeOffline nodeId).after server.nodeTtlSeconds nodes (clock 0)
  := by
  simp only [Server.markNodeOffline, Operation.after, Operation.run]
  cases Tracker.markNodeOffline nodes nodeId with
  | error e => rfl
  | ok result => rfl

theorem Server.handle_offline_snd (items : List (Str × Json)) :
  (server.handle nodes clock (.offline (.dict items))).2
    = (Operation.markNodeOffline (Json.get items "node_id")).after server.nodeTtlSeconds nodes
        (clock 0)
  := server.markNodeOffline_snd nodes clock _

theorem Server.handle_delete_snd (nodeId : Str) :
  (server.handle nodes clock (.delete nodeId)).2
    = (Operation.markNodeOffline (.str nodeId)).after server.nodeTtlSeconds nodes (clock 0)
  := server.markNodeOffline_snd nodes clock _

omit [UnicodeData] in
/-- A snapshot cleans up once, twice or three times: a part that raises is the last one. -/
theorem Server.snapshot_snd :
  ∃ readings : List ℕ, (server.snapshot nodes clock).2 = swept (readings.map clock) nodes
  := by
  rw [Server.snapshot]
  cases hcleaned : server.cleanupExpired nodes (clock 0) (clock 1) with
  | mk cleaned after =>
      obtain rfl : (Tracker.cleanupExpired nodes (clock 0)).2 = after := congrArg Prod.snd hcleaned
      cases cleaned with
      | error e => exact ⟨[0], rfl⟩
      | ok _ =>
          set after := (Tracker.cleanupExpired nodes (clock 0)).2
          dsimp only
          cases hlisted : server.listNodes after (clock 3) (clock 4) with
          | mk listed after' =>
              obtain rfl : (Tracker.cleanupExpired after (clock 3)).2 = after' :=
                congrArg Prod.snd hlisted
              cases listed with
              | error e => exact ⟨[0, 3], rfl⟩
              | ok listed =>
                  set after' := (Tracker.cleanupExpired after (clock 3)).2
                  dsimp only
                  cases hfiles : server.listFiles after' (clock 5) (clock 6) with
                  | mk files after'' =>
                      obtain rfl : (Tracker.cleanupExpired after' (clock 5)).2 = after'' :=
                        congrArg Prod.snd hfiles
                      cases files with
                      | error e => exact ⟨[0, 3, 5], rfl⟩
                      | ok files => exact ⟨[0, 3, 5], rfl⟩

/-- A read cleans the map up, at most, though it may raise in the middle. -/
theorem Server.handle_read_snd {request : Request} (hread : request.IsRead) :
  ∃ readings : List ℕ, (server.handle nodes clock request).2 = swept (readings.map clock) nodes
  := by
  cases request with
  | nodes => exact ⟨[0], rfl⟩
  | files => exact ⟨[0], rfl⟩
  | query fileHash fileName =>
      simp only [Server.handle, Server.findFileLocations]
      cases Tracker.findFileLocations nodes (first fileHash) (first fileName) (clock 0) with
      | error e => exact ⟨[], rfl⟩
      | ok found => exact ⟨[0], rfl⟩
  | snapshot =>
      simp only [Server.handle]
      apply server.snapshot_snd
  | health => cases hread
  | update payload clientHost => cases hread
  | offline payload => cases hread
  | delete nodeId => cases hread

omit [RecursionLimit] [UnicodeData] in
/-- What `do_GET` asks for changes nothing but what cleanups change. -/
theorem isRead_of_getRequest {target : Str} {request : Request}
    (h : getRequest target = some request) :
  request = .health ∨ request.IsRead
  := by
  simp only [getRequest] at h
  repeat' split at h
  all_goals
    cases h
  · exact .inl rfl
  · exact .inr trivial
  · exact .inr trivial
  · exact .inr trivial
  · exact .inr trivial

/-- What happens does to the map what the call does that is meant, and else cleans it up. -/
theorem Server.receive_snd (event : ServerEvent) :
  ∃ readings : List ℕ, (server.receive nodes clock event).2 = swept (readings.map clock)
    ((event.call.map fun op => op.after server.nodeTtlSeconds nodes (clock 0)).getD nodes)
  := by
  cases event with
  | get target =>
      simp only [Server.receive, Server.doGet, ServerEvent.call, Option.map_none, Option.getD_none]
      cases hrequest : getRequest target with
      | none => exact ⟨[], rfl⟩
      | some request =>
          rcases isRead_of_getRequest hrequest with rfl | hread
          · exact ⟨[], rfl⟩
          · apply server.handle_read_snd nodes clock hread
  | post target contentLength stream clientHost =>
      use []
      simp only [Server.receive, Server.doPost, ServerEvent.call]
      cases postPath target with
      | none => rfl
      | some path =>
          cases hbody : readJsonBody contentLength stream with
          | payload items =>
              cases path with
              | update => simp only [Server.post, hbody, PostPath.request, handle_update_snd]; rfl
              | offline => simp only [Server.post, hbody, PostPath.request, handle_offline_snd]; rfl
          | refused error => cases path <;> simp only [Server.post, hbody] <;> rfl
          | raised => cases path <;> simp only [Server.post, hbody] <;> rfl
  | delete target =>
      use []
      simp only [Server.receive, Server.doDelete, ServerEvent.call]
      cases deletedId target with
      | none => rfl
      | some nodeId =>
          simp only [handle_delete_snd]
          rfl
  | cleanup => exact ⟨[0], rfl⟩

/-! ### Runs -/

/-- Calls that are meant are no cleanups. -/
theorem withoutCleanups_call (event : ServerEvent) (now : Time) :
  withoutCleanups (event.call.map fun op => (op, now)).toList
    = (event.call.map fun op => (op, now)).toList
  := by
  cases hcall : event.call with
  | none => rfl
  | some op =>
      cases op with
      | cleanupExpired => cases event.call_ne_cleanupExpired hcall
      | _ => rfl

omit [RecursionLimit] in
theorem runAll_cleanups (nodeTtlSeconds : ℤ) (history : History) (times : List Time) :
  runAll nodeTtlSeconds (history ++ times.map fun t => (.cleanupExpired, t))
    = swept times (runAll nodeTtlSeconds history)
  := by
  rw [runAll, List.foldl_append, List.foldl_map]
  rfl

/-- What is left is what the calls leave that are meant, with cleanups in between. -/
theorem Server.exists_serve_eq (events : List (ServerEvent × Clock)) :
  ∃ history, server.serve events = runAll server.nodeTtlSeconds history ∧
    withoutCleanups history = callsMeant events ∧
    ∀ j ∈ history, ∃ i ∈ events, ∃ n, j.2 = i.2 n
  := by
  induction events using List.reverseRecOn with
  | nil => exact ⟨[], rfl, rfl, by simp⟩
  | append_singleton events i ih =>
      obtain ⟨history, hserve, hcalls, htimes⟩ := ih
      obtain ⟨readings, hreceive⟩ := server.receive_snd (server.serve events) i.2 i.1
      set called := (i.1.call.map fun op => (op, i.2 0)).toList with hcalled
      have hafter : runAll server.nodeTtlSeconds (history ++ called)
          = (i.1.call.map fun op => op.after server.nodeTtlSeconds
              (runAll server.nodeTtlSeconds history) (i.2 0)).getD
            (runAll server.nodeTtlSeconds history) := by
        rw [runAll, List.foldl_append, hcalled]
        cases i.1.call with
        | none => rfl
        | some op => rfl
      use history ++ called ++ (readings.map i.2).map fun t => (.cleanupExpired, t)
      refine ⟨?_, ?_, ?_⟩
      · rw [runAll_cleanups, hafter, ← hserve, ← hreceive, Server.serve, List.foldl_append]
        rfl
      · have hcleanups : withoutCleanups ((readings.map i.2).map fun t => (.cleanupExpired, t))
            = [] := by
          apply List.filter_eq_nil_iff.mpr
          intro j hj
          obtain ⟨t, -, rfl⟩ := List.mem_map.mp hj
          exact Bool.false_ne_true
        rw [callsMeant, List.filterMap_append, ← callsMeant, ← hcalls]
        simp only [withoutCleanups, List.filter_append] at hcleanups ⊢
        rw [hcleanups, List.append_nil]
        have hmeant := withoutCleanups_call i.1 (i.2 0)
        rw [withoutCleanups, ← hcalled] at hmeant
        rw [hmeant, hcalled, List.filterMap_cons]
        cases i.1.call with
        | none => rfl
        | some op => rfl
      · intro j hj
        rcases List.mem_append.mp hj with hj | hj
        · rcases List.mem_append.mp hj with hj | hj
          · obtain ⟨k, hk, n, hn⟩ := htimes j hj
            exact ⟨k, List.mem_append_left _ hk, n, hn⟩
          · obtain ⟨op, -, rfl⟩ := Option.map_eq_some_iff.mp (Option.mem_toList.mp hj)
            exact ⟨i, List.mem_append_right _ (List.mem_singleton_self i), 0, rfl⟩
        · obtain ⟨t, ht, rfl⟩ := List.mem_map.mp hj
          obtain ⟨n, -, rfl⟩ := List.mem_map.mp ht
          exact ⟨i, List.mem_append_right _ (List.mem_singleton_self i), n, rfl⟩

/-! ### Answers -/

/-- What the reads of a map answer, if they are answered, is what the registry returns. -/
structure Server.AnswersTruly (server : Server) (nodes : Nodes) (clock : Clock) : Prop where
  nodes_eq : ∀ target response, getRequest target = some .nodes →
    (server.receive nodes clock (.get target)).1 = some response →
    sendJson 200 (nodesJson (Tracker.listNodes nodes (clock 0) false).1) = some response
  files_eq : ∀ target response, getRequest target = some .files →
    (server.receive nodes clock (.get target)).1 = some response →
    sendJson 200 (filesJson (Tracker.listFiles nodes (clock 0)).1) = some response
  locations_eq : ∀ target fileHash fileName response,
    getRequest target = some (.query fileHash fileName) →
    (server.receive nodes clock (.get target)).1 = some response → response.status = 200 →
    ∃ entries after, Tracker.findFileLocations nodes (first fileHash) (first fileName) (clock 0)
      = .ok (entries, after) ∧ sendJson 200 (queryJson entries) = some response

omit [UnicodeData] in
/-- An answer that is sent is that of a call that did not raise. -/
theorem answer_eq_some {α : Type} {result : Except Exc α} {payload : α → Json}
    {response : Response} (h : answer (result.map payload) = some response) :
  ∃ a, result = .ok a ∧ sendJson 200 (payload a) = some response
  := by
  cases result with
  | error e => cases h
  | ok a => exact ⟨a, rfl, h⟩

omit [UnicodeData] in
theorem answerCatching_eq_ok {α : Type} {result : Except Exc α} {payload : α → Json}
    {response : Response} (h : answerCatching (result.map payload) = some response)
    (hstatus : response.status = 200) :
  ∃ a, result = .ok a ∧ sendJson 200 (payload a) = some response
  := by
  cases result with
  | ok a => exact ⟨a, rfl, h⟩
  | error e =>
      cases e with
      | trackerValidationError message =>
          obtain ⟨body, -, rfl⟩ := Option.map_eq_some_iff.mp h
          cases hstatus
      | _ => cases h

theorem Server.answersTruly :
  server.AnswersTruly nodes clock
  := by
  constructor
  · intro target response hrequest hresponse
    simp only [Server.receive, Server.doGet, hrequest, Server.handle] at hresponse
    obtain ⟨listed, hlisted, hsend⟩ := answer_eq_some hresponse
    obtain ⟨_, -, hlisted⟩ := Fallible.bind_eq_ok.mp hlisted
    obtain ⟨_, -, hlisted⟩ := Fallible.bind_eq_ok.mp hlisted
    rw [← Except.ok.inj hlisted] at hsend
    exact hsend
  · intro target response hrequest hresponse
    simp only [Server.receive, Server.doGet, hrequest, Server.handle] at hresponse
    obtain ⟨files, hfiles, hsend⟩ := answer_eq_some hresponse
    obtain ⟨_, -, hfiles⟩ := Fallible.bind_eq_ok.mp hfiles
    rw [← Except.ok.inj hfiles] at hsend
    exact hsend
  · intro target fileHash fileName response hrequest hresponse hstatus
    simp only [Server.receive, Server.doGet, hrequest, Server.handle] at hresponse
    obtain ⟨entries, hentries, hsend⟩ := answerCatching_eq_ok hresponse hstatus
    rw [Server.findFileLocations] at hentries
    cases hfind : Tracker.findFileLocations nodes (first fileHash) (first fileName) (clock 0) with
    | error e =>
        rw [hfind] at hentries
        cases hentries
    | ok found =>
        obtain ⟨found, after⟩ := found
        rw [hfind] at hentries
        obtain ⟨_, -, hentries⟩ := Fallible.bind_eq_ok.mp hentries
        obtain ⟨_, -, hentries⟩ := Fallible.bind_eq_ok.mp hentries
        rw [← Except.ok.inj hentries] at hsend
        exact ⟨found, after, rfl, hsend⟩

/-- Whatever has happened, the reads at a time that is not before it show the lease map of the
updates and removals that were meant, and what is answered is what the reads show. -/
theorem answers_show_lease (events : List (ServerEvent × Clock)) {t : Time}
    (hclock : ∀ i ∈ events, ∀ n, i.2 n ≤ t) :
  ShowsExactly (server.serve events) t (lease server.nodeTtlSeconds (callsMeant events) t) ∧
    ∀ clock : Clock, server.AnswersTruly (server.serve events) clock
  := by
  obtain ⟨history, hserve, hcalls, htimes⟩ := server.exists_serve_eq events
  have hhistory : ∀ j ∈ history, j.2 ≤ t := by
    intro j hj
    obtain ⟨i, hi, n, heq⟩ := htimes j hj
    rw [heq]
    apply hclock i hi
  constructor
  · rw [← hcalls, lease_withoutCleanups, ← live_runAll hhistory, hserve]
    apply (valid_runAll _ history).showsExactly
  · intro clock
    apply server.answersTruly

end RecursionLimit

/-! ### Four events -/

/-- An update, a snapshot for which the clock is read several times, a cleanup, and a removal of a
node that is not known. -/
def fourEvents : List (ServerEvent × Clock) :=
  let body := "\x7b\"node_id\": \"node-a\", \"host\": \"127.0.0.1\", \"port\": 9001\x7d".toUTF8
  [(.post (Str.ofString "/api/v1/update") (some (Str.ofString "56")) body.toList
      (Str.ofString "127.0.0.1"), fun _ => 0),
    (.get (Str.ofString "/api/v1/snapshot"), fun n => min n 5),
    (.cleanup, fun _ => 6),
    (.delete (Str.ofString "/api/v1/nodes/node-b"), fun _ => 6)]

/-- The reads after them show what was meant. -/
theorem answers_show_lease_fourEvents :
  let _ := UnicodeData.ascii
  let _ := RecursionLimit.default
  let nodes := memoryServer.serve fourEvents
  ShowsExactly nodes 7 (lease 90 (callsMeant fourEvents) 7) ∧
    ∀ clock : Clock, memoryServer.AnswersTruly nodes clock
  := by
  intro _ _ nodes
  apply answers_show_lease memoryServer fourEvents
  intro i hi n
  simp only [fourEvents, List.mem_cons, List.not_mem_nil, or_false] at hi
  rcases hi with rfl | rfl | rfl | rfl
  · exact (by decide : (0 : ℤ) ≤ 7)
  · exact (min_le_right (n : ℤ) 5).trans (by decide)
  · exact (by decide : (6 : ℤ) ≤ 7)
  · exact (by decide : (6 : ℤ) ≤ 7)

end Tracker
