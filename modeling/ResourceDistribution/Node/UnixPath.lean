import ResourceDistribution.Data.Disk
import ResourceDistribution.Node.OutputPath

/-!
# Paths on a Unix system

A path is cut at its separators into the steps that lead through the file system (`segments`). For a
path that is a Rust string, these are the components that `safe_output_path` sees
(`segments_utf8`), unless it refuses them; so a name that is made of components is accepted, and its
output path is made of the same components again (`exists_safeOutputPath`,
`segments_of_safeOutputPath`).
-/

open Disk

namespace Node

/-! ### Steps -/

/-- The byte of a dot. -/
def dot : UInt8 := 0x2E

/-- What stands between two separators of a path, as a step: nothing and a dot are none. A separator
at the end is skipped; the system takes such a path for that of a directory only. -/
def segmentOf (name : OsString) : Option (Seg OsString) :=
  if name = [] ∨ name = [dot] then none
  else if name = [dot, dot] then some .parent
  else some (.child name)

/-- The steps of a path. -/
def segments (path : OsString) : List (Seg OsString) :=
  (path.splitOn slash).filterMap segmentOf

/-- A name of a file or a directory. -/
structure IsName (name : OsString) : Prop where
  ne_nil : name ≠ []
  ne_dot : name ≠ [dot]
  ne_parent : name ≠ [dot, dot]
  no_slash : slash ∉ name

theorem segmentOf_name {name : OsString} (h : IsName name) :
  segmentOf name = some (.child name)
  := by
  rw [segmentOf, if_neg, if_neg h.ne_parent]
  rintro (hnil | hdot)
  · apply h.ne_nil hnil
  · apply h.ne_dot hdot

theorem segments_append (a b : OsString) :
  segments (a ++ slash :: b) = segments a ++ segments b
  := by
  rw [segments, List.splitOn_append_cons_self, List.filterMap_append]
  rfl

/-- A separator at the beginning of a path. -/
theorem segments_slash (path : OsString) :
  segments (slash :: path) = segments path
  := segments_append [] path

/-! ### Paths that are put together from names -/

/-- A path that is put together from names is cut into them. -/
theorem splitOn_joinAll {names : List OsString} (h : ∀ name ∈ names, IsName name)
    (hne : names ≠ []) :
  (joinAll names).splitOn slash = names
  := List.splitOn_intercalate slash (fun name hname => (h name hname).no_slash) hne

/-- The steps of a path that is put together from names. -/
theorem segments_joinAll {names : List OsString} (h : ∀ name ∈ names, IsName name) :
  segments (joinAll names) = names.map .child
  := by
  by_cases hne : names = []
  · rw [hne]
    rfl
  · rw [segments, splitOn_joinAll h hne]
    clear hne
    induction names with
    | nil => rfl
    | cons name rest ih =>
        rw [List.forall_mem_cons] at h
        rw [List.filterMap_cons_some (segmentOf_name h.1), ih h.2, List.map_cons]

/-- The names are determined by the path. -/
theorem joinAll_injective {names names' : List OsString} (h : ∀ name ∈ names, IsName name)
    (h' : ∀ name ∈ names', IsName name) (heq : joinAll names = joinAll names') :
  names = names'
  := by
  have hsegments := congrArg segments heq
  rw [segments_joinAll h, segments_joinAll h'] at hsegments
  apply List.map_injective_iff.mpr _ hsegments
  intro a b hab
  apply Seg.child.inj hab

theorem joinAll_cons_of_ne_nil {name : OsString} {rest : List OsString} (h : rest ≠ []) :
  joinAll (name :: rest) = name ++ slash :: joinAll rest
  := by
  rw [joinAll, List.intercalate_cons_of_ne_nil h, List.append_assoc]
  rfl

/-- Such a path does not begin with a separator. -/
theorem head?_joinAll {names : List OsString} (h : ∀ name ∈ names, IsName name) :
  (joinAll names).head? ≠ some slash
  := by
  cases names with
  | nil => simp [joinAll]
  | cons name rest =>
      have hname := h name List.mem_cons_self
      obtain ⟨first, others, rfl⟩ := List.exists_cons_of_ne_nil hname.ne_nil
      have hfirst : (joinAll ((first :: others) :: rest)).head? = some first := by
        cases rest with
        | nil => rfl
        | cons _ _ => rfl
      rw [hfirst]
      intro heq
      apply hname.no_slash
      rw [← Option.some.inj heq]
      exact List.mem_cons_self

/-- Nor does it end in one. -/
theorem getLast?_joinAll {names : List OsString} (h : ∀ name ∈ names, IsName name)
    (hne : names ≠ []) :
  ∃ last, (joinAll names).getLast? = some last ∧ last ≠ slash
  := by
  induction names with
  | nil => cases hne rfl
  | cons name rest ih =>
      rw [List.forall_mem_cons] at h
      by_cases hrest : rest = []
      · subst hrest
        have hlast := List.getLast?_eq_getLast_of_ne_nil h.1.ne_nil
        refine ⟨name.getLast h.1.ne_nil, ?_, ?_⟩
        · rw [joinAll, List.intercalate_singleton, hlast]
        · intro heq
          apply h.1.no_slash
          rw [← heq]
          apply List.getLast_mem
      · obtain ⟨last, hlast, hslash⟩ := ih h.2 hrest
        refine ⟨last, ?_, hslash⟩
        rw [joinAll_cons_of_ne_nil hrest, List.getLast?_append, List.getLast?_cons, hlast]
        rfl

/-- The absolute path of a place. -/
def pathTo (place : List OsString) : OsString := slash :: joinAll place

/-- The steps of a relative path that is joined to an absolute one. -/
theorem segments_join {place : List OsString} (hplace : ∀ name ∈ place, IsName name)
    {path : OsString} (hpath : path.head? ≠ some slash) :
  segments (join (pathTo place) path) = place.map .child ++ segments path
  := by
  rw [join, if_neg hpath, pathTo]
  by_cases hlast : slash :: joinAll place = [] ∨ (slash :: joinAll place).getLast? = some slash
  · have hnil : place = [] := by
      by_contra hne
      obtain ⟨last, hend, hslash⟩ := getLast?_joinAll hplace hne
      rcases hlast with hempty | hlast
      · cases hempty
      · rw [List.getLast?_cons, hend] at hlast
        apply hslash (Option.some.inj hlast)
    subst hnil
    rw [if_pos hlast]
    apply segments_slash
  · rw [if_neg hlast, segments_append, segments_slash, segments_joinAll hplace]

/-! ### Strings as paths -/

/-- The bytes of some characters. -/
def encode (chars : List Char) : OsString := chars.flatMap String.utf8EncodeChar

theorem utf8_eq_encode (s : String) :
  utf8 s = encode s.toList
  := rfl

theorem encode_append (a b : List Char) :
  encode (a ++ b) = encode a ++ encode b
  := List.flatMap_append

theorem encode_injective : Function.Injective encode := by
  intro a b h
  have hutf8 : ∀ chars, encode chars = utf8 (String.ofList chars) := by
    intro chars
    rw [utf8_eq_encode, String.toList_ofList]
  rw [hutf8, hutf8] at h
  have hsame := congrArg toStringLossy h
  rw [toStringLossy_utf8, toStringLossy_utf8] at hsame
  rw [← String.toList_ofList (l := a), hsame, String.toList_ofList]

/-- Only a separator is encoded with the byte of the separator. -/
theorem slash_mem_utf8EncodeChar {c : Char} (h : slash ∈ String.utf8EncodeChar c) :
  c = '/'
  := by
  -- all bytes of a longer encoding are at least `0x80`
  have hslash : slash.toNat = 0x2F := rfl
  have hne : ∀ n, 0x80 ≤ n → n < 256 → slash ≠ UInt8.ofNat n := by
    intro n hlarge hn heq
    have hnat := congrArg UInt8.toNat heq
    rw [toNat_ofNat hn, hslash] at hnat
    omega
  rw [String.utf8EncodeChar, show c.val.toNat = c.toNat from rfl] at h
  split at h
  · have hnat := congrArg UInt8.toNat (List.mem_singleton.mp h)
    rw [toNat_ofNat (by omega), hslash] at hnat
    apply Char.toNat_inj.mp
    exact hnat.symm
  split at h
  · simp only [List.mem_cons, List.not_mem_nil, or_false] at h
    rcases h with h | h
    · exact absurd h (hne _ (by omega) (by omega))
    · exact absurd h (hne _ (by omega) (by omega))
  split at h
  · simp only [List.mem_cons, List.not_mem_nil, or_false] at h
    rcases h with h | h | h
    · exact absurd h (hne _ (by omega) (by omega))
    · exact absurd h (hne _ (by omega) (by omega))
    · exact absurd h (hne _ (by omega) (by omega))
  · simp only [List.mem_cons, List.not_mem_nil, or_false] at h
    rcases h with h | h | h | h
    · exact absurd h (hne _ (by omega) (by omega))
    · exact absurd h (hne _ (by omega) (by omega))
    · exact absurd h (hne _ (by omega) (by omega))
    · exact absurd h (hne _ (by omega) (by omega))

theorem slash_not_mem_encode {chars : List Char} (h : '/' ∉ chars) :
  slash ∉ encode chars
  := by
  intro hmem
  obtain ⟨c, hc, hslash⟩ := List.mem_flatMap.mp hmem
  rw [slash_mem_utf8EncodeChar hslash] at hc
  apply h hc

/-- Only a path that begins with a separator is encoded so. -/
theorem head?_encode {chars : List Char} (h : (encode chars).head? = some slash) :
  chars.head? = some '/'
  := by
  cases chars with
  | nil => cases h
  | cons c chars =>
      have hfirst : slash ∈ String.utf8EncodeChar c := by
        have hne : String.utf8EncodeChar c ≠ [] := String.utf8EncodeChar_ne_nil
        obtain ⟨first, others, heq⟩ := List.exists_cons_of_ne_nil hne
        rw [encode, List.flatMap_cons, heq] at h
        rw [heq, ← Option.some.inj h]
        exact List.mem_cons_self
      rw [slash_mem_utf8EncodeChar hfirst]
      rfl

theorem encode_intercalate (parts : List (List Char)) :
  encode (List.intercalate ['/'] parts) = joinAll (parts.map encode)
  := by
  induction parts with
  | nil => rfl
  | cons part rest ih =>
      by_cases hrest : rest = []
      · subst hrest
        rw [List.intercalate_singleton, List.map_singleton, joinAll, List.intercalate_singleton]
      · rw [List.intercalate_cons_of_ne_nil hrest, encode_append, encode_append, ih, List.map_cons,
          joinAll_cons_of_ne_nil (by simpa using hrest), List.append_assoc]
        rfl

/-- What is between two separators of a path is part of it. -/
theorem mem_of_mem_splitOn {chars part : List Char} (hpart : part ∈ chars.splitOn '/') {c : Char}
    (hc : c ∈ part) :
  c ∈ chars
  := by
  have hmem : ∀ parts : List (List Char), part ∈ parts → c ∈ List.intercalate ['/'] parts := by
    intro parts hparts
    induction parts with
    | nil => cases hparts
    | cons first rest ih =>
        by_cases hrest : rest = []
        · subst hrest
          rw [List.intercalate_singleton, ← List.mem_singleton.mp hparts]
          exact hc
        · rw [List.intercalate_cons_of_ne_nil hrest, List.mem_append, List.mem_append]
          rcases List.mem_cons.mp hparts with rfl | hrest
          · left; left
            exact hc
          · right
            apply ih hrest
  have hjoined : List.intercalate ['/'] (chars.splitOn '/') = chars := List.intercalate_splitOn '/'
  rw [← hjoined]
  apply hmem _ hpart

/-- A string is cut where its bytes are cut. -/
theorem splitOn_encode (chars : List Char) :
  (encode chars).splitOn slash = (chars.splitOn '/').map encode
  := by
  have hparts : ∀ part ∈ (chars.splitOn '/').map encode, slash ∉ part := by
    intro part hpart
    obtain ⟨part', hpart', rfl⟩ := List.mem_map.mp hpart
    apply slash_not_mem_encode
    intro hmem
    rw [List.splitOn_eq_splitOnP] at hpart'
    simpa using not_of_mem_splitOnP hpart' '/' hmem
  have hjoined : List.intercalate ['/'] (chars.splitOn '/') = chars := List.intercalate_splitOn '/'
  nth_rewrite 1 [← hjoined]
  rw [encode_intercalate, joinAll, List.splitOn_intercalate slash hparts]
  simp [List.splitOn_ne_nil]

/-! ### Components -/

/-- What stands between two separators, as a step. -/
theorem segmentOf_encode (segment : List Char) :
  segmentOf (encode segment)
    = if segment = [] ∨ segment = ['.'] then none
      else if segment = ['.', '.'] then some .parent
      else some (.child (encode segment))
  := by
  have hnil : encode segment = [] ↔ segment = [] := encode_injective.eq_iff' rfl
  have hdot : encode segment = [dot] ↔ segment = ['.'] := encode_injective.eq_iff' rfl
  have hparent : encode segment = [dot, dot] ↔ segment = ['.', '.'] := encode_injective.eq_iff' rfl
  simp only [segmentOf, hnil, hdot, hparent]

theorem normals_append (a b : List Component) :
  normals (a ++ b) = normals a ++ normals b
  := List.filterMap_append

/-- The steps are the components, if there is no parent among these. -/
theorem filterMap_segmentOf {atStart : Bool} {l : List (List Char)} (h : ['.', '.'] ∉ l) :
  (l.map encode).filterMap segmentOf
    = (normals (l.filterMap (componentOf atStart))).map fun part => .child (encode part)
  := by
  induction l with
  | nil => rfl
  | cons segment l ih =>
      rw [List.mem_cons, not_or] at h
      have hrest := ih h.2
      rw [List.map_cons, List.filterMap_cons, List.filterMap_cons, segmentOf_encode, componentOf]
      by_cases hnil : segment = []
      · simp only [hnil, true_or, if_true]
        exact hrest
      · by_cases hdot : segment = ['.']
        · simp only [hdot, or_true, if_true, List.cons_ne_nil, if_false]
          cases atStart with
          | true => exact hrest
          | false => exact hrest
        · simp only [hnil, hdot, Ne.symm h.1, or_self, if_false]
          rw [hrest]
          rfl

/-- The components of a path that does not begin with a separator. -/
theorem components_unix {chars : List Char} (h : chars.head? ≠ some '/') :
  ∃ first rest, chars.splitOn '/' = first :: rest ∧
    Platform.unix.components chars
      = [first].filterMap (componentOf true) ++ rest.filterMap (componentOf false)
  := by
  have hroot : chars.head?.any Platform.unix.isSeparator = false := by
    cases chars with
    | nil => rfl
    | cons c chars =>
        rw [List.head?_cons, Option.any_some]
        simpa [Platform.isSeparator] using h
  have hsplit : chars.splitOnP Platform.unix.isSeparator = chars.splitOn '/' := by
    rw [List.splitOn_eq_splitOnP]
    rfl
  obtain ⟨first, rest, hparts⟩ := List.exists_cons_of_ne_nil (List.splitOn_ne_nil '/' chars)
  use first, rest, hparts
  rw [Platform.components, splitDrive_unix]
  simp only
  rw [Platform.rest, hroot, hsplit, hparts]
  cases hfirst : componentOf true first with
  | none => simp [hfirst]
  | some component => simp [hfirst]

/-- A component of such a path stands between two of its separators. -/
theorem exists_segment {chars : List Char} (hhead : chars.head? ≠ some '/') {component : Component}
    (h : component ∈ Platform.unix.components chars) :
  ∃ segment ∈ chars.splitOn '/', ∃ atStart, componentOf atStart segment = some component
  := by
  obtain ⟨first, rest, hparts, hcomponents⟩ := components_unix hhead
  rw [hcomponents, List.mem_append, List.mem_filterMap, List.mem_filterMap] at h
  rw [hparts]
  rcases h with ⟨segment, hsegment, heq⟩ | ⟨segment, hsegment, heq⟩
  · rw [List.mem_singleton.mp hsegment] at heq
    exact ⟨first, List.mem_cons_self, true, heq⟩
  · exact ⟨segment, List.mem_cons_of_mem _ hsegment, false, heq⟩

theorem componentOf_eq_parentDir_iff {atStart : Bool} {segment : List Char} :
  componentOf atStart segment = some .parentDir ↔ segment = ['.', '.']
  := by
  rw [componentOf]
  split_ifs with hnil hdot hstart hparent
  · simp [hnil]
  · simp [hdot]
  · simp [hdot]
  · simp [hparent]
  · simp [hparent]

/-- A component between two separators is safe unless it is a parent. -/
theorem isUnsafe_componentOf {atStart : Bool} {segment : List Char} {component : Component}
    (h : componentOf atStart segment = some component) :
  component.isUnsafe = true ↔ component = .parentDir
  := by
  rw [componentOf] at h
  split_ifs at h
  · cases h; simp [Component.isUnsafe]
  · cases h; simp [Component.isUnsafe]
  · cases h; simp [Component.isUnsafe]

/-- A name is accepted exactly when it does not begin with a separator and has no parent in it. -/
theorem forall_safe_iff {chars : List Char} :
  (∀ component ∈ Platform.unix.components chars, component.isUnsafe = false) ↔
    chars.head? ≠ some '/' ∧ ['.', '.'] ∉ chars.splitOn '/'
  := by
  constructor
  · intro hsafe
    have hhead : chars.head? ≠ some '/' := by
      intro hslash
      have hroot : .rootDir ∈ Platform.unix.components chars := by
        rw [Platform.components, splitDrive_unix]
        simp [Platform.rest, hslash, Platform.isSeparator]
      have hunsafe := hsafe _ hroot
      cases hunsafe
    use hhead
    intro hmem
    obtain ⟨first, rest, hparts, hcomponents⟩ := components_unix hhead
    have hparent : .parentDir ∈ Platform.unix.components chars := by
      rw [hcomponents, List.mem_append, List.mem_filterMap, List.mem_filterMap]
      rw [hparts, List.mem_cons] at hmem
      rcases hmem with hfirst | hrest
      · left
        exact ⟨_, List.mem_singleton.mpr rfl, componentOf_eq_parentDir_iff.mpr hfirst.symm⟩
      · right
        exact ⟨_, hrest, componentOf_eq_parentDir_iff.mpr rfl⟩
    have hunsafe := hsafe _ hparent
    cases hunsafe
  · rintro ⟨hhead, hparent⟩ component hmem
    by_contra hunsafe
    rw [Bool.not_eq_false] at hunsafe
    obtain ⟨segment, hsegment, atStart, heq⟩ := exists_segment hhead hmem
    rw [(isUnsafe_componentOf heq).mp hunsafe, componentOf_eq_parentDir_iff] at heq
    rw [heq] at hsegment
    apply hparent hsegment

/-- The steps of a path that is a string are the components that `safe_output_path` sees. -/
theorem segments_utf8 {s : String}
    (hsafe : ∀ component ∈ Platform.unix.components s.toList, component.isUnsafe = false) :
  segments (utf8 s)
    = (normals (Platform.unix.components s.toList)).map fun part => .child (encode part)
  := by
  obtain ⟨hhead, hparent⟩ := forall_safe_iff.mp hsafe
  obtain ⟨first, rest, hparts, hcomponents⟩ := components_unix hhead
  rw [hparts] at hparent
  have hfirst : ['.', '.'] ∉ [first] := by
    intro hmem
    apply hparent (List.mem_cons.mpr (Or.inl (List.mem_singleton.mp hmem)))
  have hrest : ['.', '.'] ∉ rest := fun hmem => hparent (List.mem_cons_of_mem _ hmem)
  rw [segments, utf8_eq_encode, splitOn_encode, hparts, hcomponents, normals_append,
    List.map_append, ← filterMap_segmentOf hfirst, ← filterMap_segmentOf hrest, ← List.filterMap_append,
    ← List.map_append]
  rfl

/-- A normal component is part of the path. -/
theorem mem_of_mem_normals {chars part : List Char}
    (hpart : part ∈ normals (Platform.unix.components chars)) {c : Char} (hc : c ∈ part)
    (hhead : chars.head? ≠ some '/') :
  c ∈ chars
  := by
  obtain ⟨segment, hsegment, atStart, heq⟩ := exists_segment hhead (mem_normals.mp hpart)
  have hself : segment = part := by
    rw [componentOf] at heq
    split_ifs at heq
    · cases heq
    · cases heq
    · apply Component.normal.inj (Option.some.inj heq)
  apply mem_of_mem_splitOn _ hc
  rw [← hself]
  exact hsegment

/-- On a Unix system the output path of a name is made of its normal components. -/
theorem safeOutputPath_unix_eq_ok_iff {fileName : String} {output : OutputPath} :
  safeOutputPath .unix fileName = .ok output ↔
    (∀ component ∈ Platform.unix.components fileName.toList, component.isUnsafe = false) ∧
      output = ⟨.shareDir, normals (Platform.unix.components fileName.toList)⟩
  := by
  have hpushed : (normals (Platform.unix.components fileName.toList)).foldl
      (OutputPath.push .unix) ⟨.shareDir, []⟩
        = ⟨.shareDir, normals (Platform.unix.components fileName.toList)⟩ :=
    foldl_push_eq_iff.mpr fun part _ => splitDrive_unix part
  rw [safeOutputPath_eq_ok_iff, hpushed]

/-- The steps of a name that is accepted are the components of its output path. -/
theorem segments_of_safeOutputPath {fileName : String} {output : OutputPath}
    (h : safeOutputPath .unix fileName = .ok output) :
  segments (utf8 fileName) = output.parts.map fun part => .child (encode part)
  := by
  obtain ⟨hsafe, rfl⟩ := safeOutputPath_unix_eq_ok_iff.mp h
  apply segments_utf8 hsafe

/-- A name that is put together from names of files is accepted. -/
theorem exists_safeOutputPath {names : List OsString} (h : ∀ name ∈ names, IsName name)
    {fileName : String} (hname : joinAll names = utf8 fileName) :
  ∃ output, safeOutputPath .unix fileName = .ok output
  := by
  refine ⟨_, safeOutputPath_unix_eq_ok_iff.mpr ⟨?_, rfl⟩⟩
  apply forall_safe_iff.mpr
  constructor
  · intro hslash
    apply head?_joinAll h
    rw [hname, utf8_eq_encode]
    obtain ⟨chars, hchars⟩ := List.head?_eq_some_iff.mp hslash
    rw [hchars]
    rfl
  · intro hparent
    have hmem : [dot, dot] ∈ (joinAll names).splitOn slash := by
      rw [hname, utf8_eq_encode, splitOn_encode]
      apply List.mem_map.mpr ⟨_, hparent, rfl⟩
    by_cases hne : names = []
    · subst hne
      simp [joinAll] at hmem
    · rw [splitOn_joinAll h hne] at hmem
      exact (h _ hmem).ne_parent rfl

end Node
