import ResourceDistribution.Node.Console
import ResourceDistribution.System.Resolution

/-!
# Asking for a listed file

What the line `download name` comes to, for a name that the tracker lists. The console and the shell
take the first word after the command for the target, so a name with white space is cut: of the files
that only one name stands for, exactly those can be asked for whose name has no white space, but for
a file whose hash is the first word of its name (`requestable_iff`).
-/

open Python Node Tracker

/-! ### The first word of a name -/

namespace Node

/-- What is white space to the node is white space to the tracker. -/
theorem isspace_of_isWhitespace {c : Char} (h : isWhitespace c = true) :
  Str.isspace (.scalar c) = true
  := by
  have hsubset : ∀ n ∈ whitespace, Str.spaces.contains n = true := by decide
  apply hsubset c.toNat (List.contains_iff_mem.mp h)

/-- A name that the tracker has stripped begins with a word. -/
theorem head_of_trimmed {name : String} (h : (Str.ofString name).Trimmed) :
  ∀ c ∈ name.toList.head?, isWhitespace c = false
  := by
  intro c hc
  apply Bool.eq_false_of_not_eq_true
  intro hspace
  have hhead : CodePoint.scalar c ∈ (Str.ofString name).head? := by
    rw [Str.ofString, List.head?_map]
    exact Option.mem_map_of_mem _ hc
  cases (h.1 _ hhead).symm.trans (isspace_of_isWhitespace hspace)

theorem isWhitespace_of_mem_firstWord {name : String} {c : Char}
    (h : c ∈ (firstWord name).toList) :
  isWhitespace c = false
  := by
  rw [firstWord, String.toList_ofList] at h
  simpa using List.mem_takeWhile_imp h

theorem firstWord_ne_empty {name : String} (hname : name ≠ "")
    (hhead : ∀ c ∈ name.toList.head?, isWhitespace c = false) :
  firstWord name ≠ ""
  := by
  intro hempty
  have hnil : name.toList.takeWhile (fun c => !isWhitespace c) = [] := by
    rw [← String.toList_ofList (l := name.toList.takeWhile _)]
    exact String.toList_eq_nil_iff.mpr hempty
  cases hchars : name.toList with
  | nil => exact hname (String.toList_eq_nil_iff.mp hchars)
  | cons c l =>
      rw [hchars] at hnil hhead
      simp [hhead c rfl] at hnil

/-- A name is its first word exactly when it has no white space. -/
theorem firstWord_eq_self_iff {name : String} :
  firstWord name = name ↔ ∀ c ∈ name.toList, isWhitespace c = false
  := by
  rw [← String.toList_inj, firstWord, String.toList_ofList, List.takeWhile_eq_self_iff]
  simp

/-- The first word of a name, stripped, is the name only if the name is one word. -/
theorem forall_of_strip_firstWord {name : String}
    (h : (Str.ofString (firstWord name)).strip = Str.ofString name) :
  ∀ c ∈ name.toList, isWhitespace c = false
  := by
  rw [← firstWord_eq_self_iff, ← String.toList_inj, firstWord, String.toList_ofList]
  apply (List.takeWhile_prefix _).eq_of_length_le
  have hlength := Str.length_strip_le (Str.ofString (firstWord name))
  rw [h, Str.ofString, Str.ofString, List.length_map, List.length_map, firstWord,
    String.toList_ofList] at hlength
  exact hlength

end Node

namespace System

/-! ### Listed files -/

/-- A file that the tracker lists, by a name that no other file on the list has, as its name or as
its hash. -/
structure Listed (moment : Moment) (summary : FileSummary) (name : String) : Prop where
  mem : summary ∈ (listFiles moment.nodes (moment.clock 0)).1
  fileName_eq : summary.fileName = Str.ofString name
  only : ∀ other ∈ (listFiles moment.nodes (moment.clock 0)).1,
    other.fileName = summary.fileName → other = summary
  not_hash : ∀ other ∈ (listFiles moment.nodes (moment.clock 0)).1,
    other.fileHash ≠ summary.fileName

/-- The list has the summaries of the live entries. -/
theorem mem_listFiles_iff {moment : Moment} {summary : FileSummary} :
  summary ∈ (listFiles moment.nodes (moment.clock 0)).1
    ↔ ∃ entry ∈ moment.live, summaryOf entry = summary
  := by
  change summary ∈ Keyed.sortBy _ (moment.live.map summaryOf) ↔ _
  rw [Keyed.mem_sortBy, List.mem_map]

/-- The name of a live entry is stripped, and not empty. -/
theorem fileName_of_mem_live {moment : Moment} (hvalid : moment.nodes.Valid) {entry : IndexEntry}
    (h : entry ∈ moment.live) :
  entry.fileName ≠ [] ∧ entry.fileName.Trimmed
  := by
  obtain ⟨k', record, hk, resource, hresource, -, hname⟩ :=
    exists_resource_of_get? (get?_of_mem_values h)
  have hresource := (hvalid.cleanupExpired _ k' record hk).resources_valid resource hresource
  rw [← hname]
  exact ⟨hresource.fileName_ne_nil, hresource.fileName_trimmed⟩

/-! ### Lines and targets -/

/-- A line that is typed in the console, or read by the shell, sends the command to download a
target. -/
def Sends (line target : String) : Prop :=
  (∀ (tui : Tui) (done : CommandDone), tui.inputBuffer = "" →
    (tui.enter line done).2 = some ⟨.download target done, false⟩) ∧
  ∀ (done : CommandDone) (printed : Except String Unit),
    NodeShell.handleCommand (trim line) done printed = .ok ⟨some (.download target done), false⟩

theorem sends_iff {name target : String} (hname : name ≠ "")
    (hhead : ∀ c ∈ name.toList.head?, isWhitespace c = false) :
  Sends ("download " ++ name) target ↔ target = firstWord name
  := by
  have hline : "download " ++ name ≠ "" := by simp
  constructor
  · rintro ⟨-, hshell⟩
    have hsent := hshell 0 (.ok ())
    rw [(handleCommand_download hname hhead 0).2] at hsent
    cases hsent
    rfl
  · rintro rfl
    constructor
    · intro tui done htui
      rw [Tui.enter_eq htui hline, (handleCommand_download hname hhead done).1]
    · intro done printed
      apply (handleCommand_download hname hhead done).2

section RecursionLimit

variable [RecursionLimit] [UnicodeData]

/-- Both queries of a target are answered, and the node decodes the answers as what they say. -/
structure Answered (server : Server) (decode : String → Option QueryResponse)
    (first second : Moment) (target : String) : Prop where
  hash_sent : (first.send server "file_hash" target).map Prod.fst = some 200
  name_sent : (second.send server "file_name" target).map Prod.fst = some 200
  hash_decodes : Decodes decode first "file_hash" target
  name_decodes : Decodes decode second "file_name" target

/-- A listed file can be asked for by its name: the line `download name` sends a target, which is
resolved to the entry of the file. -/
def Requestable (server : Server) (decode : String → Option QueryResponse) (first second : Moment)
    (summary : FileSummary) (name : String) : Prop :=
  ∃ target, Sends ("download " ++ name) target ∧
    ∃ location, resolve server decode first second target = .ok location ∧
      entryMeant location ∈ first.live ∧ summaryOf (entryMeant location) = summary

/-- Of the files that the tracker lists, and that their names alone stand for, exactly those can be
asked for by their names whose names have no white space, or begin with their hashes. Otherwise the
target is a part of the name that is not the name. -/
theorem requestable_iff [JsonCodec] (server : Server) {decode : String → Option QueryResponse}
    {listed first second : Moment} {summary : FileSummary} {name : String}
    (hreachable : Reachable server.nodeTtlSeconds listed.nodes) (hfirst : first.live = listed.live)
    (hsecond : second.live = listed.live) (hlisted : Listed listed summary name)
    (hanswered : ∀ target, Sends ("download " ++ name) target →
      Answered server decode first second target) :
  Requestable server decode first second summary name
    ↔ (∀ c ∈ name.toList, isWhitespace c = false) ∨
      (Str.ofString (firstWord name)).strip = summary.fileHash
  := by
  have hsame : first.live = second.live := hfirst.trans hsecond.symm
  obtain ⟨entry, hentry, rfl⟩ := mem_listFiles_iff.mp hlisted.mem
  obtain ⟨hne, htrimmed⟩ := fileName_of_mem_live hreachable.valid hentry
  have heq : entry.fileName = Str.ofString name := hlisted.fileName_eq
  rw [heq] at hne htrimmed
  have hname : name ≠ "" := fun hempty => hne (Str.ofString_eq_nil.mpr hempty)
  have hhead := head_of_trimmed htrimmed
  have hword := hanswered _ ((sends_iff hname hhead).mpr rfl)
  have htrim : trim (firstWord name) ≠ "" := by
    rw [trim_of_forall fun c => isWhitespace_of_mem_firstWord]
    apply firstWord_ne_empty hname hhead
  rw [← hfirst] at hentry
  have hlive : ∀ other ∈ first.live,
      summaryOf other ∈ (listFiles listed.nodes (listed.clock 0)).1 := by
    intro other hother
    rw [hfirst] at hother
    exact mem_listFiles_iff.mpr ⟨other, hother, rfl⟩
  constructor
  · rintro ⟨target, hsends, location, hresolve, hmem, hsummary⟩
    obtain rfl := (sends_iff hname hhead).mp hsends
    obtain ⟨-, -, -, hmatch⟩ :=
      resolved_of_resolve_eq_ok hsame hword.hash_decodes hword.name_decodes hresolve
    rw [eq_of_fileHash_eq hmem hentry (congrArg FileSummary.fileHash hsummary)] at hmatch
    rcases hmatch with hhash | ⟨-, hstrip, -⟩
    · right
      exact hhash.symm
    · left
      apply forall_of_strip_firstWord
      rw [← hstrip, heq]
  · intro h
    have hresolved : ∃ location, resolve server decode first second (firstWord name) = .ok location ∧
        entryMeant location = entry := by
      rcases h with hplain | hhash
      · have hstrip : (Str.ofString (firstWord name)).strip = entry.fileName := by
          rw [firstWord_eq_self_iff.mpr hplain, Str.strip_eq_self_iff.mpr htrimmed, heq]
        apply exists_resolve_eq_ok_of_name htrim hsame hword.hash_decodes hword.name_decodes
          hword.hash_sent hword.name_sent _ hentry hstrip.symm
        · intro other hother hsameName
          rw [hstrip] at hsameName
          have honly := hlisted.only _ (hlive other hother) hsameName
          apply eq_of_fileHash_eq hother hentry (congrArg FileSummary.fileHash honly)
        · intro other hother
          rw [hstrip]
          apply hlisted.not_hash _ (hlive other hother)
      · exact exists_resolve_eq_ok_of_hash htrim hsame hword.hash_decodes hword.name_decodes
          hword.hash_sent hentry hhash.symm
    obtain ⟨location, hresolve, rfl⟩ := hresolved
    exact ⟨_, (sends_iff hname hhead).mpr rfl, location, hresolve, hentry, rfl⟩

end RecursionLimit

/-! ### Two files -/

/-- The update of a node with two files, one of which has a space in its name. -/
def twoFiles : Operation :=
  .updateNode (.dict [
    (Str.ofString "node_id", .str (Str.ofString "node-a")),
    (Str.ofString "host", .str (Str.ofString "127.0.0.1")),
    (Str.ofString "port", .int 9001),
    (Str.ofString "resources", .list ([("h", "my file.txt"), ("k", "notes")].map fun i => .dict [
      (Str.ofString "file_hash", .str (Str.ofString i.1)),
      (Str.ofString "file_name", .str (Str.ofString i.2)),
      (Str.ofString "blocks", .list [.dict [
        (Str.ofString "index", .int 0),
        (Str.ofString "hash", .str (Str.ofString "y")),
        (Str.ofString "size", .int 1)]])]))]) none

/-- The moment after this update. -/
def afterTwoFiles : Moment :=
  let _ := UnicodeData.ascii
  ⟨runAll 90 [(twoFiles, 0)], fun _ => 0⟩

theorem answered_twoFiles {target : String} (htarget : target ∈ ["my", "notes"]) :
  let _ := UnicodeData.ascii
  let _ := RecursionLimit.default
  Answered memoryServer decodeBody afterTwoFiles afterTwoFiles target
  := by
  intro _ _
  have hsent : ∀ key ∈ ["file_hash", "file_name"], ∀ target ∈ ["my", "notes"],
      (afterTwoFiles.send memoryServer key target).map Prod.fst = some 200 := by
    decide +kernel
  have hread : ∀ key ∈ ["file_hash", "file_name"], ∀ target ∈ ["my", "notes"],
      (findFileLocations afterTwoFiles.nodes (first (parameter "file_hash" key target))
        (first (parameter "file_name" key target)) (afterTwoFiles.clock 0)).toOption.all
          fun found => readBack found.1 = some found.1 := by
    decide +kernel
  have hdecodes : ∀ key ∈ ["file_hash", "file_name"],
      Decodes decodeBody afterTwoFiles key target := by
    intro key hkey entries after hfind body hbody
    have hentries := hread key hkey target htarget
    rw [hfind] at hentries
    apply exists_decodeBody_eq_some (of_decide_eq_true hentries) hbody
  constructor
  · apply hsent _ (by decide) _ htarget
  · apply hsent _ (by decide) _ htarget
  · apply hdecodes _ (by decide)
  · apply hdecodes _ (by decide)

/-- Of the two files, the one whose name has no white space can be asked for. -/
theorem requestable_twoFiles :
  let _ := UnicodeData.ascii
  let _ := RecursionLimit.default
  Requestable memoryServer decodeBody afterTwoFiles afterTwoFiles
    ⟨Str.ofString "k", Str.ofString "notes", none, none, 1, [0]⟩ "notes"
  := by
  intro _ _
  let _ := JsonCodec.whole
  let summary : FileSummary := ⟨Str.ofString "k", Str.ofString "notes", none, none, 1, [0]⟩
  have hreachable : Reachable 90 afterTwoFiles.nodes := .inMemory [(twoFiles, 0)]
  have hlisted : Listed afterTwoFiles summary "notes" := by
    constructor <;> decide +kernel
  have hanswered : ∀ target, Sends ("download " ++ "notes") target →
      Answered memoryServer decodeBody afterTwoFiles afterTwoFiles target := by
    intro target hsends
    have hhead : ∀ c ∈ "notes".toList.head?, isWhitespace c = false := by
      rintro c ⟨⟩
      rfl
    rw [(sends_iff (by decide) hhead).mp hsends]
    apply answered_twoFiles (by decide)
  apply (requestable_iff memoryServer hreachable rfl rfl hlisted hanswered).mpr
  have hplain : ("notes".toList.all fun c => isWhitespace c = false) = true := rfl
  exact .inl fun c hc => of_decide_eq_true (List.all_eq_true.mp hplain c hc)

/-- It is not the case that every listed file can be asked for by its name: of `my file.txt` the target
is `my`. -/
theorem not_requestable :
  let _ := UnicodeData.ascii
  let _ := JsonCodec.whole
  let _ := RecursionLimit.default
  ¬ ∀ (server : Server) (decode : String → Option QueryResponse) (listed first second : Moment)
      (summary : FileSummary) (name : String), Reachable server.nodeTtlSeconds listed.nodes →
    first.live = listed.live → second.live = listed.live → Listed listed summary name →
    (∀ target, Sends ("download " ++ name) target → Answered server decode first second target) →
    Requestable server decode first second summary name
  := by
  intro _ _ _ hall
  let summary : FileSummary := ⟨Str.ofString "h", Str.ofString "my file.txt", none, none, 1, [0]⟩
  have hreachable : Reachable 90 afterTwoFiles.nodes := .inMemory [(twoFiles, 0)]
  have hlisted : Listed afterTwoFiles summary "my file.txt" := by
    constructor <;> decide +kernel
  have htarget : ∀ target, Sends ("download " ++ "my file.txt") target → target = "my" := by
    intro target hsends
    have hhead : ∀ c ∈ "my file.txt".toList.head?, isWhitespace c = false := by
      rintro c ⟨⟩
      rfl
    apply (sends_iff (by decide) hhead).mp hsends
  have hanswered : Answered memoryServer decodeBody afterTwoFiles afterTwoFiles "my" :=
    answered_twoFiles (by decide)
  obtain ⟨target, hsends, location, hresolve, -⟩ :=
    hall memoryServer decodeBody afterTwoFiles afterTwoFiles afterTwoFiles summary "my file.txt"
      hreachable rfl rfl hlisted fun target hsends => by
        rw [htarget target hsends]
        exact hanswered
  obtain rfl := htarget target hsends
  obtain ⟨-, -, hmem, hmatch⟩ := resolved_of_resolve_eq_ok rfl hanswered.hash_decodes
    hanswered.name_decodes hresolve
  have hnone : ∀ entry ∈ afterTwoFiles.live, entry.fileHash ≠ (Str.ofString "my").strip ∧
      entry.fileName ≠ (Str.ofString "my").strip := by
    decide +kernel
  rcases hmatch with hhash | ⟨-, hname, -⟩
  · exact (hnone _ hmem).1 hhash
  · exact (hnone _ hmem).2 hname

end System
