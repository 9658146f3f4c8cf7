import ResourceDistribution.Node.TransferWorker

/-!
# Where a download is written

`safe_output_path` puts the components of a file's name, one after another, behind the share
directory. What a component is and what it means to put one behind a path depends on the system: on
Windows a component that begins with a drive, such as `C:evil`, replaces the path
(`foldl_push_eq_iff`).
-/

namespace Node

/-! ### Components -/

/-- The systems, as far as their paths differ. -/
inductive Platform where
  | unix
  | windows
  deriving DecidableEq

/-- Whether a character separates components. -/
def Platform.isSeparator : Platform → Char → Bool
  | .unix, c => c = '/'
  | .windows, c => c = '/' || c = Char.ofNat 0x5C

/-- The letter of the drive that a path begins with, and the rest of the path. -/
def Platform.splitDrive : Platform → List Char → Option (Char × List Char)
  | .windows, letter :: colon :: rest =>
      if letter.isAlpha && colon = ':' then some (letter, rest) else none
  | _, _ => none

/-- A component of a path. A Windows path that begins with two separators may have another prefix
than a drive; here it begins with a root. -/
inductive Component where
  | pathPrefix (letter : Char)
  | rootDir
  | curDir
  | parentDir
  | normal (part : List Char)
  deriving DecidableEq

/-- The component between two separators. A dot counts at the beginning of a path only. -/
def componentOf (atStart : Bool) (segment : List Char) : Option Component :=
  if segment = [] then none
  else if segment = ['.'] then (if atStart then some .curDir else none)
  else if segment = ['.', '.'] then some .parentDir
  else some (.normal segment)

/-- The components of a path that does not begin with a drive. -/
def Platform.rest (platform : Platform) (path : List Char) : List Component :=
  (if path.head?.any platform.isSeparator then [.rootDir] else []) ++
    match path.splitOnP platform.isSeparator with
    | [] => []
    | first :: segments => (componentOf true first).toList ++ segments.filterMap (componentOf false)

/-- `Path::components`. -/
def Platform.components (platform : Platform) (path : List Char) : List Component :=
  match platform.splitDrive path with
  | some (letter, rest) => .pathPrefix letter :: platform.rest rest
  | none => platform.rest path

/-- Whether a component is a prefix, a root or a parent. -/
def Component.isUnsafe : Component → Bool
  | .normal _ => false
  | .curDir => false
  | _ => true

/-- The normal components. -/
def normals (components : List Component) : List (List Char) :=
  components.filterMap fun
    | .normal part => some part
    | _ => none

/-- A name of one file or directory, other than the current and the parent directory. -/
structure Platform.IsNormal (platform : Platform) (part : List Char) : Prop where
  ne_nil : part ≠ []
  ne_current : part ≠ ['.']
  ne_parent : part ≠ ['.', '.']
  no_separator : ∀ c ∈ part, platform.isSeparator c = false

theorem mem_normals {components : List Component} {part : List Char} :
  part ∈ normals components ↔ .normal part ∈ components
  := by
  rw [normals, List.mem_filterMap]
  constructor
  · rintro ⟨component, hmem, heq⟩
    cases component with
    | normal other =>
        obtain rfl := Option.some.inj heq
        exact hmem
    | _ => simp at heq
  · intro hmem
    exact ⟨_, hmem, rfl⟩

/-- Between two separators there is none. -/
theorem not_of_mem_splitOnP {α : Type*} {p : α → Bool} {l segment : List α}
    (h : segment ∈ l.splitOnP p) :
  ∀ a ∈ segment, p a = false
  := by
  induction l generalizing segment with
  | nil =>
      rw [List.splitOnP_nil, List.mem_singleton] at h
      simp [h]
  | cons b l ih =>
      rw [List.splitOnP_cons_eq_if_modifyHead] at h
      split at h
      · rcases List.mem_cons.mp h with rfl | h
        · simp
        · exact ih h
      · rename_i hb
        cases hsplit : l.splitOnP p with
        | nil => simp [hsplit] at h
        | cons first segments =>
            rw [hsplit] at h ih
            rcases List.mem_cons.mp h with rfl | h
            · intro a ha
              rcases List.mem_cons.mp ha with rfl | ha
              · simpa using hb
              · exact ih List.mem_cons_self a ha
            · exact ih (List.mem_cons_of_mem _ h)

theorem isNormal_of_componentOf {platform : Platform} {atStart : Bool} {segment part : List Char}
    (h : componentOf atStart segment = some (.normal part))
    (hsegment : ∀ c ∈ segment, platform.isSeparator c = false) :
  platform.IsNormal part
  := by
  rw [componentOf] at h
  split_ifs at h with hnil hcurrent hstart hparent
  · simp at h
  · simp at h
  · obtain rfl := Component.normal.inj (Option.some.inj h)
    exact ⟨hnil, hcurrent, hparent, hsegment⟩

/-- A normal component of a path is a name. -/
theorem Platform.isNormal_of_mem_rest {platform : Platform} {path part : List Char}
    (h : .normal part ∈ platform.rest path) :
  platform.IsNormal part
  := by
  rw [Platform.rest, List.mem_append] at h
  rcases h with h | h
  · split at h <;> simp at h
  · have hsegment : ∀ segment ∈ path.splitOnP platform.isSeparator,
        ∀ c ∈ segment, platform.isSeparator c = false := fun _ hmem => not_of_mem_splitOnP hmem
    split at h
    · simp at h
    · rename_i first segments hsplit
      rw [hsplit] at hsegment
      rcases List.mem_append.mp h with h | h
      · apply isNormal_of_componentOf (Option.mem_toList.mp h)
        apply hsegment first List.mem_cons_self
      · obtain ⟨segment, hmem, hpart⟩ := List.mem_filterMap.mp h
        apply isNormal_of_componentOf hpart
        apply hsegment segment (List.mem_cons_of_mem _ hmem)

theorem Platform.isNormal_of_mem_components {platform : Platform} {path part : List Char}
    (h : .normal part ∈ platform.components path) :
  platform.IsNormal part
  := by
  rw [Platform.components] at h
  split at h
  · rcases List.mem_cons.mp h with h | h
    · simp at h
    · apply Platform.isNormal_of_mem_rest h
  · apply Platform.isNormal_of_mem_rest h

/-! ### Output paths -/

/-- Where a path starts: at the share directory, or on a drive. -/
inductive Anchor where
  | shareDir
  | drive (letter : Char)
  deriving DecidableEq

/-- A path that a download is written to. -/
structure OutputPath where
  anchor : Anchor
  parts : List (List Char)
  deriving DecidableEq

/-- `PathBuf::push`, of a normal component. One that begins with a drive replaces the path. -/
def OutputPath.push (platform : Platform) (path : OutputPath) (part : List Char) : OutputPath :=
  match platform.splitDrive part with
  | some (letter, rest) => ⟨.drive letter, if rest = [] then [] else [rest]⟩
  | none => { path with parts := path.parts ++ [part] }

/-- One round of the loop of `safe_output_path`. -/
def pushComponent (platform : Platform) (fileName : String) (path : OutputPath) :
    Component → Except DownloadError OutputPath
  | .normal part => .ok (path.push platform part)
  | .curDir => .ok path
  | _ => .error (.unsafeFileName fileName)

/-- `safe_output_path(root, file_name)`. -/
def safeOutputPath (platform : Platform) (fileName : String) : Except DownloadError OutputPath :=
  (platform.components fileName.toList).foldlM (pushComponent platform fileName) ⟨.shareDir, []⟩

/-- The loop goes through exactly when all components are safe. -/
theorem foldlM_pushComponent_eq_ok_iff {platform : Platform} {fileName : String}
    {components : List Component} {start path : OutputPath} :
  components.foldlM (pushComponent platform fileName) start = .ok path ↔
    (∀ component ∈ components, component.isUnsafe = false) ∧
      path = (normals components).foldl (OutputPath.push platform) start
  := by
  induction components generalizing start with
  | nil =>
      constructor
      · intro h
        exact ⟨by simp, (Except.ok.inj h).symm⟩
      · rintro ⟨-, rfl⟩
        rfl
  | cons component components ih =>
      rw [List.forall_mem_cons]
      cases component with
      | normal part =>
          change components.foldlM (pushComponent platform fileName) (start.push platform part)
            = Except.ok path ↔ _
          rw [ih]
          constructor
          · rintro ⟨hsafe, hpath⟩
            exact ⟨⟨rfl, hsafe⟩, hpath⟩
          · rintro ⟨⟨-, hsafe⟩, hpath⟩
            exact ⟨hsafe, hpath⟩
      | curDir =>
          change components.foldlM (pushComponent platform fileName) start = Except.ok path ↔ _
          rw [ih]
          constructor
          · rintro ⟨hsafe, hpath⟩
            exact ⟨⟨rfl, hsafe⟩, hpath⟩
          · rintro ⟨⟨-, hsafe⟩, hpath⟩
            exact ⟨hsafe, hpath⟩
      | _ => simp [bind, Except.bind, pushComponent, Component.isUnsafe]

/-- A name has an output path exactly when all its components are safe. -/
theorem safeOutputPath_eq_ok_iff {platform : Platform} {fileName : String} {path : OutputPath} :
  safeOutputPath platform fileName = .ok path ↔
    (∀ component ∈ platform.components fileName.toList, component.isUnsafe = false) ∧
      path = (normals (platform.components fileName.toList)).foldl (OutputPath.push platform)
        ⟨.shareDir, []⟩
  := foldlM_pushComponent_eq_ok_iff

/-- A path that has left the share directory does not come back to it. -/
theorem anchor_foldl_push {platform : Platform} {parts : List (List Char)} {path : OutputPath}
    (h : path.anchor ≠ .shareDir) :
  (parts.foldl (OutputPath.push platform) path).anchor ≠ .shareDir
  := by
  induction parts generalizing path with
  | nil => exact h
  | cons part parts ih =>
      apply ih
      rw [OutputPath.push]
      split
      · simp
      · exact h

/-- The components stand behind the share directory exactly when none begins with a drive. -/
theorem foldl_push_eq_iff {platform : Platform} {parts front : List (List Char)} :
  parts.foldl (OutputPath.push platform) ⟨.shareDir, front⟩ = ⟨.shareDir, front ++ parts⟩ ↔
    ∀ part ∈ parts, platform.splitDrive part = none
  := by
  induction parts generalizing front with
  | nil => simp
  | cons part parts ih =>
      rw [List.foldl_cons, List.forall_mem_cons]
      cases hdrive : platform.splitDrive part with
      | none =>
          rw [show OutputPath.push platform ⟨.shareDir, front⟩ part = ⟨.shareDir, front ++ [part]⟩ by
            rw [OutputPath.push, hdrive], List.append_cons front part parts, ih]
          simp
      | some split =>
          constructor
          · intro h
            have hleft : (OutputPath.push platform ⟨.shareDir, front⟩ part).anchor ≠ .shareDir := by
              rw [OutputPath.push, hdrive]
              simp
            have hstay : (parts.foldl (OutputPath.push platform) _).anchor ≠ .shareDir :=
              anchor_foldl_push hleft
            rw [h] at hstay
            exact absurd rfl hstay
          · rintro ⟨h, -⟩
            simp at h

/-- On a Unix system no component begins with a drive. -/
@[simp]
theorem splitDrive_unix (path : List Char) :
  Platform.unix.splitDrive path = none
  := rfl

end Node
