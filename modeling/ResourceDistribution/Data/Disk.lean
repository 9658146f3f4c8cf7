import Mathlib.Data.List.Infix
import Mathlib.Logic.Function.Basic
import Mathlib.Tactic.Common

/-!
# A file system

A tree of directories, files, symbolic links and special files, each at a place, which is the list
of the names that lead to it. A file is the number of an inode, so that one file may have several
names. What a path leads to follows links (`resolve`). Making a directory, opening a file for
writing and writing to it are functions that change nothing where the system reports an error. A
file is written by one call after another (`Target.calls`); after each of them, what is seen of the
file system is the same as before but for the directories on the way and the file itself
(`run_take_calls`, `Target.Fits.view_making`, `Target.Fits.view_writing`).
-/

universe u v w

/-- A step of a path: to the parent directory or to what has a name in the directory. -/
inductive Seg (ν : Type u) where
  | parent
  | child (name : ν)
  deriving DecidableEq

/-- What is at a place; a file is given by its inode or by its contents. -/
inductive Kind (ν : Type u) (φ : Type v) where
  | file (f : φ)
  | directory
  | link (absolute : Bool) (target : List (Seg ν))
  | special
  deriving DecidableEq

/-- The same with files given in another way. -/
def Kind.map {ν : Type u} {φ : Type v} {ψ : Type w} (g : φ → ψ) : Kind ν φ → Kind ν ψ
  | .file f => .file (g f)
  | .directory => .directory
  | .link absolute target => .link absolute target
  | .special => .special

/-- A file system: what is at each place, the contents of the inodes, and the first inode that was
never used. -/
structure Disk (ν : Type u) (β : Type v) where
  kind : List ν → Option (Kind ν Nat)
  data : Nat → List β
  next : Nat
  root_eq : kind [] = some .directory
  parent_eq : ∀ p name k, kind (p ++ [name]) = some k → kind p = some .directory
  inode_lt : ∀ p i, kind p = some (.file i) → i < next

namespace Disk

variable {ν : Type u} {β : Type v} (d : Disk ν β)

/-- What can be seen at a place. -/
def view (p : List ν) : Option (Kind ν (List β)) := (d.kind p).map (Kind.map d.data)

/-! ### Paths -/

/-- The place that a path leads to from a directory, if `follow` says where a link leads together
with the rest of the path. What is missing or no directory can only be the end of a path. -/
def walk (follow : List ν → List (Seg ν) → Option (List ν)) :
    List ν → List (Seg ν) → Option (List ν)
  | p, [] => some p
  | p, .parent :: rest => walk follow p.dropLast rest
  | p, .child name :: rest =>
      match d.kind (p ++ [name]) with
      | some .directory => walk follow (p ++ [name]) rest
      | some (.link absolute target) => follow (if absolute then [] else p) (target ++ rest)
      | _ => if rest.isEmpty then some (p ++ [name]) else none

/-- The place that a path leads to from a directory, on which at most `links` links are followed. -/
def resolve : Nat → List ν → List (Seg ν) → Option (List ν)
  | 0 => d.walk fun _ _ => none
  | links + 1 => d.walk (resolve links)

section DecidableEq

variable [DecidableEq ν]

/-- The directory that the longest part of a path that exists leads to, and the names that are
missing, if all that exists are directories. -/
def existing (links : Nat) : List ν → List ν → Option (List ν × List ν)
  | p, [] => some (p, [])
  | p, name :: rest =>
      if d.kind (p ++ [name]) = none then some (p, name :: rest)
      else
        match d.resolve links p [.child name] with
        | some q => if d.kind q = some .directory then existing links q rest else none
        | none => none

end DecidableEq

/-- Where a path is written to: a directory, the names of the directories to be made in it, and the
place of the file. -/
structure Target (ν : Type u) where
  dir : List ν
  missing : List ν
  place : List ν

section DecidableEq

variable [DecidableEq ν]

/-- Where a path of names is written to, from the root. Nothing is written to a directory. -/
def target (links : Nat) (path : List ν) : Option (Target ν) :=
  match path.getLast?, d.existing links [] path.dropLast with
  | some name, some (dir, []) =>
      match d.resolve links dir [.child name] with
      | some place => if d.kind place = some .directory then none else some ⟨dir, [], place⟩
      | none => none
  | some name, some (dir, missing) => some ⟨dir, missing, dir ++ missing ++ [name]⟩
  | _, _ => none

/-! ### Changes -/

/-- Something new at a place that is free. -/
def add (p : List ν) (name : ν) (k : Kind ν Nat) (next : Nat)
    (hfree : d.kind p = some .directory ∧ d.kind (p ++ [name]) = none)
    (hnext : d.next ≤ next ∧ ∀ i, k = .file i → i < next) : Disk ν β where
  kind := Function.update d.kind (p ++ [name]) (some k)
  data := d.data
  next := next
  root_eq := by
    rw [Function.update_of_ne (by simp), d.root_eq]
  parent_eq := by
    intro q name' k' hk
    have hq : d.kind q = some .directory := by
      by_cases heq : q ++ [name'] = p ++ [name]
      · rw [(List.append_inj' heq rfl).1]
        exact hfree.1
      · rw [Function.update_of_ne heq] at hk
        apply d.parent_eq q name' k' hk
    rw [Function.update_of_ne, hq]
    rintro rfl
    rw [hfree.2] at hq
    cases hq
  inode_lt := by
    intro q i hq
    by_cases heq : q = p ++ [name]
    · rw [heq, Function.update_self] at hq
      apply hnext.2 i (Option.some.inj hq)
    · rw [Function.update_of_ne heq] at hq
      apply (d.inode_lt q i hq).trans_le hnext.1

/-- `mkdir`. -/
def mkdir (p : List ν) (name : ν) : Disk ν β :=
  if h : d.kind p = some .directory ∧ d.kind (p ++ [name]) = none then
    d.add p name .directory d.next h ⟨le_rfl, by simp⟩
  else d

/-- `mkdir`, of one directory in the other. -/
def mkdirs : Disk ν β → List ν → List ν → Disk ν β
  | d, _, [] => d
  | d, p, name :: rest => mkdirs (d.mkdir p name) (p ++ [name]) rest

/-- `open` for writing: a file is truncated, and one that is missing is created. -/
def openFile (q : List ν) : Disk ν β :=
  match d.kind q, q.getLast? with
  | some (.file i), _ => { d with data := Function.update d.data i [] }
  | none, some name =>
      if h : d.kind q.dropLast = some .directory ∧ d.kind (q.dropLast ++ [name]) = none then
        { d.add q.dropLast name (.file d.next) (d.next + 1) h ⟨Nat.le_succ _, by simp⟩ with
          data := Function.update d.data d.next [] }
      else d
  | _, _ => d

/-- `write`, to the end of a file. What is written to a special file is not stored. -/
def append (q : List ν) (bytes : List β) : Disk ν β :=
  match d.kind q with
  | some (.file i) => { d with data := Function.update d.data i (d.data i ++ bytes) }
  | _ => d

/-- A file of which some bytes are written. -/
def write (q : List ν) (bytes : List β) : Disk ν β := (d.openFile q).append q bytes

/-- A call that changes the file system. -/
inductive Call (ν : Type u) (β : Type v) where
  | mkdir (p : List ν) (name : ν)
  | openFile (q : List ν)
  | append (q : List ν) (bytes : List β)

/-- What a call does. -/
def Call.run : Call ν β → Disk ν β → Disk ν β
  | .mkdir p name, d => d.mkdir p name
  | .openFile q, d => d.openFile q
  | .append q bytes, d => d.append q bytes

/-- What some calls do, one after another. -/
def run (calls : List (Call ν β)) : Disk ν β := calls.foldl (fun d call => call.run d) d

/-- The calls of `mkdirs`. -/
def mkdirCalls : List ν → List ν → List (Call ν β)
  | _, [] => []
  | p, name :: rest => .mkdir p name :: mkdirCalls (p ++ [name]) rest

/-- The calls that write a file: the missing directories are made, the file is opened, and it is
written byte by byte. -/
def Target.calls (t : Target ν) (bytes : List β) : List (Call ν β) :=
  mkdirCalls t.dir t.missing ++ .openFile t.place :: bytes.map fun b => .append t.place [b]

end DecidableEq

/-! ### What changes -/

/-- Nothing is below what is missing. -/
theorem kind_append_eq_none {p : List ν} (h : d.kind p = none) (s : List ν) :
  d.kind (p ++ s) = none
  := by
  induction s using List.reverseRecOn with
  | nil => rwa [List.append_nil]
  | append_singleton s name ih =>
      rw [← List.append_assoc]
      cases hk : d.kind (p ++ s ++ [name]) with
      | none => rfl
      | some k =>
          rw [d.parent_eq _ _ _ hk] at ih
          cases ih

variable {d}

/-- A directory is made at this place: on the way to the last of the missing names. -/
def Made (dir missing p : List ν) : Prop := ∃ s, s ≠ [] ∧ s <+: missing ∧ p = dir ++ s

theorem made_nil {dir p : List ν} :
  ¬ Made dir [] p
  := by
  rintro ⟨s, hne, hprefix, -⟩
  apply hne (List.prefix_nil.mp hprefix)

theorem made_cons_iff {dir : List ν} {name : ν} {rest p : List ν} :
  Made dir (name :: rest) p ↔ p = dir ++ [name] ∨ Made (dir ++ [name]) rest p
  := by
  constructor
  · rintro ⟨s, hne, hprefix, rfl⟩
    cases s with
    | nil => cases hne rfl
    | cons name' s =>
        obtain ⟨rfl, hrest⟩ := List.cons_prefix_cons.mp hprefix
        cases s with
        | nil => exact Or.inl rfl
        | cons name'' s =>
            right
            exact ⟨name'' :: s, by simp, hrest, by simp⟩
  · rintro (rfl | ⟨s, hne, hprefix, rfl⟩)
    · exact ⟨[name], by simp, by simp, rfl⟩
    · exact ⟨name :: s, by simp, List.cons_prefix_cons.mpr ⟨rfl, hprefix⟩, by simp⟩

/-- Writing a file at one place writes it at the other: it is the same place, if nothing is there,
or the same file. -/
def Writes (d : Disk ν β) (q p : List ν) : Prop :=
  match d.kind q with
  | some (.file i) => d.kind p = some (.file i)
  | none => p = q
  | _ => False

/-- What can be seen depends on what is there and on the contents of the inode. -/
theorem view_eq_some_file {p : List ν} {i : Nat} (h : d.kind p = some (.file i)) :
  d.view p = some (.file (d.data i))
  := by
  rw [view, h]
  rfl

theorem view_eq_some_file_iff {p : List ν} {content : List β} :
  d.view p = some (.file content) ↔ ∃ i, d.kind p = some (.file i) ∧ d.data i = content
  := by
  constructor
  · intro h
    obtain ⟨k, hk, hcontent⟩ := Option.map_eq_some_iff.mp h
    cases k with
    | file i => exact ⟨i, hk, Kind.file.inj hcontent⟩
    | _ => cases hcontent
  · rintro ⟨i, hi, rfl⟩
    apply view_eq_some_file hi

/-- A place for a new file: it is free, in a directory. -/
structure Free (d : Disk ν β) (q : List ν) : Prop where
  parent_eq : d.kind q.dropLast = some .directory
  kind_eq : d.kind q = none

theorem Free.exists_getLast? {q : List ν} (h : d.Free q) :
  ∃ name, q.getLast? = some name ∧ q.dropLast ++ [name] = q
  := by
  have hne : q ≠ [] := by
    rintro rfl
    have hkind := h.kind_eq
    rw [d.root_eq] at hkind
    cases hkind
  exact ⟨q.getLast hne, List.getLast?_eq_getLast_of_ne_nil hne, List.dropLast_append_getLast hne⟩

section DecidableEq

variable [DecidableEq ν]

theorem kind_mkdir {p : List ν} {name : ν} (hdir : d.kind p = some .directory)
    (hfree : d.kind (p ++ [name]) = none) :
  (d.mkdir p name).kind = Function.update d.kind (p ++ [name]) (some .directory) ∧
    (d.mkdir p name).data = d.data
  := by
  rw [mkdir, dif_pos ⟨hdir, hfree⟩]
  exact ⟨rfl, rfl⟩

theorem run_append_calls (d : Disk ν β) (calls calls' : List (Call ν β)) :
  d.run (calls ++ calls') = (d.run calls).run calls'
  := List.foldl_append

omit [DecidableEq ν] in
@[simp]
theorem length_mkdirCalls (p missing : List ν) :
  (mkdirCalls (β := β) p missing).length = missing.length
  := by
  induction missing generalizing p with
  | nil => rfl
  | cons name rest ih => rw [mkdirCalls, List.length_cons, ih, List.length_cons]

omit [DecidableEq ν] in
theorem take_mkdirCalls (p missing : List ν) (n : Nat) :
  (mkdirCalls (β := β) p missing).take n = mkdirCalls p (missing.take n)
  := by
  induction missing generalizing p n with
  | nil => rw [mkdirCalls, List.take_nil, List.take_nil, mkdirCalls]
  | cons name rest ih =>
      cases n with
      | zero => rfl
      | succ n => rw [mkdirCalls, List.take_succ_cons, ih, List.take_succ_cons, mkdirCalls]

theorem run_mkdirCalls (d : Disk ν β) (p missing : List ν) :
  d.run (mkdirCalls p missing) = d.mkdirs p missing
  := by
  induction missing generalizing d p with
  | nil => rfl
  | cons name rest ih => apply ih

omit [DecidableEq ν] in
/-- Writing nothing. -/
theorem append_nil (d : Disk ν β) (q : List ν) :
  d.append q [] = d
  := by
  rw [append]
  split
  · simp
  · rfl

omit [DecidableEq ν] in
/-- Writing some bytes and then others. -/
theorem append_append (d : Disk ν β) (q : List ν) (a b : List β) :
  (d.append q a).append q b = d.append q (a ++ b)
  := by
  cases hk : d.kind q with
  | none => simp only [append, hk]
  | some k =>
      cases k with
      | file i => simp [append, hk]
      | _ => simp only [append, hk]

/-- Writing byte by byte. -/
theorem run_append (d : Disk ν β) (q : List ν) (bytes : List β) :
  d.run (bytes.map fun b => .append q [b]) = d.append q bytes
  := by
  induction bytes generalizing d with
  | nil => exact (append_nil d q).symm
  | cons b bytes ih =>
      change (d.append q [b]).run (bytes.map fun b => .append q [b]) = _
      rw [ih, append_append, List.singleton_append]

/-- The missing directories are made, and nothing else changes. -/
theorem kind_mkdirs {p missing : List ν} (hdir : d.kind p = some .directory)
    (hfree : ∀ name ∈ missing.head?, d.kind (p ++ [name]) = none) :
  (∀ q, Made p missing q → (d.mkdirs p missing).kind q = some .directory) ∧
    (∀ q, ¬ Made p missing q → (d.mkdirs p missing).kind q = d.kind q) ∧
    (d.mkdirs p missing).data = d.data
  := by
  induction missing generalizing d p with
  | nil =>
      refine ⟨?_, fun _ _ => rfl, rfl⟩
      intro q hq
      cases made_nil hq
  | cons name rest ih =>
      have hname := hfree name rfl
      obtain ⟨hkind, hdata⟩ := kind_mkdir hdir hname
      have hdir' : (d.mkdir p name).kind (p ++ [name]) = some .directory := by
        rw [hkind, Function.update_self]
      have hbelow : ∀ s, s ≠ [] → (d.mkdir p name).kind (p ++ [name] ++ s) = none := by
        intro s hs
        rw [hkind, Function.update_of_ne (by simpa using hs), kind_append_eq_none _ hname]
      obtain ⟨hmade, hnot, hdata'⟩ := ih hdir' fun name' _ => hbelow [name'] (by simp)
      rw [mkdirs]
      refine ⟨?_, ?_, hdata'.trans hdata⟩
      · intro q hq
        by_cases hq' : Made (p ++ [name]) rest q
        · apply hmade q hq'
        · obtain rfl := (made_cons_iff.mp hq).resolve_right hq'
          rw [hnot _ hq', hdir']
      · intro q hq
        rw [made_cons_iff, not_or] at hq
        rw [hnot q hq.2, hkind, Function.update_of_ne hq.1]

/-- A file that is written anew. -/
theorem write_of_free {q : List ν} (h : d.Free q) (bytes : List β) :
  (d.write q bytes).kind = Function.update d.kind q (some (.file d.next)) ∧
    (d.write q bytes).data = Function.update d.data d.next bytes
  := by
  obtain ⟨name, hlast, hq⟩ := h.exists_getLast?
  have hfree : d.kind q.dropLast = some .directory ∧ d.kind (q.dropLast ++ [name]) = none := by
    rw [hq]
    exact ⟨h.parent_eq, h.kind_eq⟩
  have hopen : (d.openFile q).kind = Function.update d.kind q (some (.file d.next)) ∧
      (d.openFile q).data = Function.update d.data d.next [] := by
    rw [openFile, h.kind_eq, hlast]
    simp only
    rw [dif_pos hfree]
    constructor
    · change Function.update d.kind (q.dropLast ++ [name]) _ = _
      rw [hq]
    · rfl
  have hkind : (d.openFile q).kind q = some (.file d.next) := by
    rw [hopen.1, Function.update_self]
  rw [write, append, hkind]
  use hopen.1
  simp only [hopen.2, Function.update_self, List.nil_append, Function.update_idem]

/-- A file that is written over. -/
theorem write_of_file {q : List ν} {i : Nat} (h : d.kind q = some (.file i)) (bytes : List β) :
  (d.write q bytes).kind = d.kind ∧ (d.write q bytes).data = Function.update d.data i bytes
  := by
  have hopen : d.openFile q = { d with data := Function.update d.data i [] } := by
    rw [openFile, h]
  rw [write, hopen, append]
  simp only [h]
  simp

/-- Nothing is written to what is no file and not free. -/
theorem write_of_other {q : List ν} {k : Kind ν Nat} (h : d.kind q = some k)
    (hk : ∀ i, k ≠ .file i) (bytes : List β) :
  d.write q bytes = d
  := by
  cases k with
  | file i => cases hk i rfl
  | _ =>
      have hopen : d.openFile q = d := by
        simp only [openFile, h]
      rw [write, hopen, append, h]

/-- The bytes are in all the places that they are written to. -/
theorem view_write_of_writes {q p : List ν} (hq : d.kind q = none → d.Free q)
    (h : d.Writes q p) (bytes : List β) :
  (d.write q bytes).view p = some (.file bytes)
  := by
  cases hk : d.kind q with
  | none =>
      obtain ⟨hkind, hdata⟩ := write_of_free (hq hk) bytes
      rw [Writes, hk] at h
      subst h
      have hfile : (d.write p bytes).kind p = some (.file d.next) := by
        rw [hkind, Function.update_self]
      rw [view_eq_some_file hfile, hdata, Function.update_self]
  | some k =>
      cases k with
      | file i =>
          obtain ⟨hkind, hdata⟩ := write_of_file hk bytes
          rw [Writes, hk] at h
          rw [← hkind] at h
          rw [view_eq_some_file h, hdata, Function.update_self]
      | _ =>
          rw [Writes, hk] at h
          cases h

/-- All other places are as before. -/
theorem view_write_of_not_writes {q p : List ν} (hq : d.kind q = none → d.Free q)
    (h : ¬ d.Writes q p) (bytes : List β) :
  (d.write q bytes).view p = d.view p
  := by
  cases hk : d.kind q with
  | none =>
      obtain ⟨hkind, hdata⟩ := write_of_free (hq hk) bytes
      rw [Writes, hk] at h
      rw [view, view, hkind, hdata, Function.update_of_ne h]
      cases hp : d.kind p with
      | none => rfl
      | some k =>
          cases k with
          | file i =>
              have hne : i ≠ d.next := (d.inode_lt p i hp).ne
              simp [Kind.map, Function.update_of_ne hne]
          | _ => rfl
  | some k =>
      cases k with
      | file i =>
          obtain ⟨hkind, hdata⟩ := write_of_file hk bytes
          rw [Writes, hk] at h
          rw [view, view, hkind, hdata]
          cases hp : d.kind p with
          | none => rfl
          | some k =>
              cases k with
              | file j =>
                  have hne : j ≠ i := by
                    rintro rfl
                    apply h hp
                  simp [Kind.map, Function.update_of_ne hne]
              | _ => rfl
      | _ => rw [write_of_other hk (by simp)]

end DecidableEq

/-! ### Where a path leads -/

theorem kind_dropLast {p : List ν} (h : d.kind p = some .directory) :
  d.kind p.dropLast = some .directory
  := by
  rcases List.eq_nil_or_concat p with rfl | ⟨p, name, rfl⟩
  · exact h
  · rw [List.concat_eq_append] at h ⊢
    rw [List.dropLast_concat]
    apply d.parent_eq p name _ h

/-- A place that a path leads to: it is no link, and it is free if nothing is there. -/
def Arrived (d : Disk ν β) (q : List ν) : Prop :=
  match d.kind q with
  | none => d.Free q
  | some (.link _ _) => False
  | some _ => True

theorem arrived_of_kind_eq {q : List ν} {k : Kind ν Nat} (h : d.kind q = some k)
    (hk : ∀ absolute target, k ≠ .link absolute target) :
  d.Arrived q
  := by
  rw [Arrived, h]
  cases k with
  | link absolute target => cases hk absolute target rfl
  | _ => trivial

theorem Arrived.free {q : List ν} (h : d.Arrived q) (hq : d.kind q = none) :
  d.Free q
  := by
  rwa [Arrived, hq] at h

theorem arrived_walk {follow : List ν → List (Seg ν) → Option (List ν)}
    (hfollow : ∀ p path q, d.kind p = some .directory → follow p path = some q → d.Arrived q)
    {path : List (Seg ν)} {p q : List ν} (hp : d.kind p = some .directory)
    (h : d.walk follow p path = some q) :
  d.Arrived q
  := by
  induction path generalizing p with
  | nil =>
      obtain rfl := Option.some.inj h
      apply arrived_of_kind_eq hp (by simp)
  | cons seg rest ih =>
      cases seg with
      | parent => apply ih (kind_dropLast hp) h
      | child name =>
          rw [walk] at h
          split at h
          · rename_i hdir
            apply ih hdir h
          · apply hfollow _ _ _ _ h
            split
            · apply d.root_eq
            · exact hp
          · rename_i hdir hlink
            obtain rfl := Option.some.inj (Option.ite_none_right_eq_some.mp h).2
            cases hk : d.kind (p ++ [name]) with
            | none =>
                rw [Arrived, hk]
                constructor
                · rwa [List.dropLast_concat]
                · exact hk
            | some k =>
                apply arrived_of_kind_eq hk
                rintro absolute target rfl
                apply hlink absolute target hk

/-- What a path leads to. -/
theorem arrived_resolve {links : Nat} {path : List (Seg ν)} {p q : List ν}
    (hp : d.kind p = some .directory) (h : d.resolve links p path = some q) :
  d.Arrived q
  := by
  induction links generalizing p path q with
  | zero =>
      apply arrived_walk _ hp h
      intro _ _ _ _ hnone
      cases hnone
  | succ links ih =>
      apply arrived_walk _ hp h
      intro p path q hp h
      apply ih hp h

/-- What leads to something is a directory. -/
theorem kind_above {p s : List ν} {name : ν} {k : Kind ν Nat}
    (h : d.kind (p ++ name :: s) = some k) :
  d.kind p = some .directory
  := by
  induction s using List.reverseRecOn generalizing k with
  | nil => apply d.parent_eq p name k h
  | append_singleton s last ih =>
      rw [← List.cons_append, ← List.append_assoc] at h
      apply ih (d.parent_eq _ _ _ h)

/-- A path of names through directories leads where it says, unless a link is there. -/
theorem walk_children {follow : List ν → List (Seg ν) → Option (List ν)} {s p : List ν}
    (hdirs : ∀ t, t <+: s → t ≠ s → d.kind (p ++ t) = some .directory)
    (hlast : ∀ absolute target, d.kind (p ++ s) ≠ some (.link absolute target)) :
  d.walk follow p (s.map .child) = some (p ++ s)
  := by
  induction s generalizing p with
  | nil => rw [List.map_nil, walk, List.append_nil]
  | cons name rest ih =>
      have hcons : p ++ name :: rest = p ++ [name] ++ rest := List.append_cons p name rest
      rw [List.map_cons, walk]
      by_cases hrest : rest = []
      · subst hrest
        split
        · rw [List.map_nil, walk]
        · rename_i hlink
          exact absurd hlink (hlast _ _)
        · rfl
      · have hdir : d.kind (p ++ [name]) = some .directory := by
          apply hdirs [name]
          · simp
          · intro heq
            apply hrest (List.cons.inj heq).2.symm
        rw [hdir]
        simp only
        rw [ih]
        · rw [hcons]
        · intro t ht hne
          rw [← List.append_cons]
          apply hdirs (name :: t) (List.cons_prefix_cons.mpr ⟨rfl, ht⟩)
          intro heq
          apply hne (List.cons.inj heq).2
        · rwa [← hcons]

theorem resolve_children {links : Nat} {s p : List ν}
    (hdirs : ∀ t, t <+: s → t ≠ s → d.kind (p ++ t) = some .directory)
    (hlast : ∀ absolute target, d.kind (p ++ s) ≠ some (.link absolute target)) :
  d.resolve links p (s.map .child) = some (p ++ s)
  := by
  cases links with
  | zero => apply walk_children hdirs hlast
  | succ links => apply walk_children hdirs hlast

/-- A path of names on which there is no link leads where it says, if it leads anywhere. -/
theorem eq_of_walk_children {follow : List ν → List (Seg ν) → Option (List ν)} {s p q : List ν}
    (hlink : ∀ t, t <+: s → ∀ absolute target, d.kind (p ++ t) ≠ some (.link absolute target))
    (h : d.walk follow p (s.map .child) = some q) :
  q = p ++ s
  := by
  induction s generalizing p with
  | nil =>
      rw [List.map_nil, walk] at h
      rw [← Option.some.inj h, List.append_nil]
  | cons name rest ih =>
      rw [List.append_cons]
      rw [List.map_cons, walk] at h
      split at h
      · apply ih _ h
        intro t ht
        rw [← List.append_cons]
        apply hlink (name :: t) (List.cons_prefix_cons.mpr ⟨rfl, ht⟩)
      · rename_i habsolute
        exact absurd habsolute (hlink [name] (List.prefix_append [name] rest) _ _)
      · obtain ⟨hempty, hq⟩ := Option.ite_none_right_eq_some.mp h
        rw [List.isEmpty_iff, List.map_eq_nil_iff] at hempty
        rw [← Option.some.inj hq, hempty, List.append_nil]

theorem eq_of_resolve_children {links : Nat} {s p q : List ν}
    (hlink : ∀ t, t <+: s → ∀ absolute target, d.kind (p ++ t) ≠ some (.link absolute target))
    (h : d.resolve links p (s.map .child) = some q) :
  q = p ++ s
  := by
  cases links with
  | zero => apply eq_of_walk_children hlink h
  | succ links => apply eq_of_walk_children hlink h

/-- Directories lead to all that exists. -/
theorem kind_of_prefix_ne {p s t : List ν} {k : Kind ν Nat} (h : d.kind (p ++ s) = some k)
    (ht : t <+: s) (hne : t ≠ s) :
  d.kind (p ++ t) = some .directory
  := by
  obtain ⟨rest, rfl⟩ := ht
  cases rest with
  | nil => cases hne (List.append_nil t).symm
  | cons name rest =>
      rw [← List.append_assoc] at h
      apply kind_above h

section DecidableEq

variable [DecidableEq ν]

theorem existing_spec {links : Nat} {names p dir missing : List ν}
    (hp : d.kind p = some .directory) (h : d.existing links p names = some (dir, missing)) :
  d.kind dir = some .directory ∧ ∀ name ∈ missing.head?, d.kind (dir ++ [name]) = none
  := by
  induction names generalizing p with
  | nil =>
      obtain ⟨rfl, rfl⟩ := Prod.mk.inj (Option.some.inj h)
      use hp
      intro name hname
      cases hname
  | cons name rest ih =>
      rw [existing] at h
      split at h
      · rename_i hnone
        obtain ⟨rfl, rfl⟩ := Prod.mk.inj (Option.some.inj h)
        use hp
        intro name' hname'
        obtain rfl := Option.some.inj hname'
        exact hnone
      · split at h
        · obtain ⟨hdir, h⟩ := Option.ite_none_right_eq_some.mp h
          apply ih hdir h
        · cases h

omit [DecidableEq ν] in
/-- A name in a directory leads where it says, unless a link is there. -/
theorem resolve_child {links : Nat} {p : List ν} {name : ν} (hp : d.kind p = some .directory)
    (hlink : ∀ absolute target, d.kind (p ++ [name]) ≠ some (.link absolute target)) :
  d.resolve links p [.child name] = some (p ++ [name])
  := by
  apply resolve_children (s := [name]) _ hlink
  intro t ht hne
  obtain rfl : t = [] := by
    cases t with
    | nil => rfl
    | cons _ _ =>
        obtain ⟨rfl, hnil⟩ := List.cons_prefix_cons.mp ht
        rw [List.prefix_nil.mp hnil] at hne
        cases hne rfl
  rw [List.append_nil]
  exact hp

theorem existing_of_no_link {links : Nat} {names p dir missing : List ν}
    (hp : d.kind p = some .directory)
    (hlink : ∀ s, s <+: names → ∀ absolute target, d.kind (p ++ s) ≠ some (.link absolute target))
    (h : d.existing links p names = some (dir, missing)) :
  dir ++ missing = p ++ names
  := by
  induction names generalizing p with
  | nil =>
      obtain ⟨rfl, rfl⟩ := Prod.mk.inj (Option.some.inj h)
      rfl
  | cons name rest ih =>
      rw [existing, resolve_child hp (hlink [name] (List.prefix_append [name] rest))] at h
      split at h
      · obtain ⟨rfl, rfl⟩ := Prod.mk.inj (Option.some.inj h)
        rfl
      · obtain ⟨hdir, h⟩ := Option.ite_none_right_eq_some.mp h
        rw [List.append_cons p name rest]
        apply ih hdir _ h
        intro s hs
        rw [← List.append_cons]
        apply hlink (name :: s) (List.cons_prefix_cons.mpr ⟨rfl, hs⟩)

/-- If there is no link on a path, the file is written where the path says. -/
theorem place_of_no_link {links : Nat} {path : List ν} {t : Target ν}
    (hlink : ∀ q, q <+: path → ∀ absolute target, d.kind q ≠ some (.link absolute target))
    (h : d.target links path = some t) :
  t.place = path
  := by
  have hbelow : ∀ s, s <+: path.dropLast →
      ∀ absolute target, d.kind ([] ++ s) ≠ some (.link absolute target) := by
    intro s hs
    apply hlink s (hs.trans (List.dropLast_prefix path))
  rw [target] at h
  split at h
  · rename_i name dir hlast hexisting
    obtain ⟨hdir, -⟩ := existing_spec d.root_eq hexisting
    have hpath : dir ++ [name] = path := by
      have hfront := existing_of_no_link d.root_eq hbelow hexisting
      rw [List.append_nil, List.nil_append] at hfront
      rw [hfront, List.dropLast_append_getLast? name hlast]
    rw [resolve_child hdir (by rw [hpath]; exact hlink path (List.prefix_refl path))] at h
    simp only at h
    split at h
    · cases h
    · obtain rfl := Option.some.inj h
      exact hpath
  · rename_i name dir missing _ hlast hexisting
    obtain rfl := Option.some.inj h
    have hfront := existing_of_no_link d.root_eq hbelow hexisting
    rw [List.nil_append] at hfront
    rw [hfront, List.dropLast_append_getLast? name hlast]
  · cases h

/-- A place to write to, as `target` finds it: a directory in which the missing ones can be made,
and then a file be written. -/
structure Target.Fits (d : Disk ν β) (t : Target ν) : Prop where
  dir_eq : d.kind t.dir = some .directory
  missing_eq : ∀ name ∈ t.missing.head?, d.kind (t.dir ++ [name]) = none
  place_of_nil : t.missing = [] → d.Arrived t.place
  place_of_ne_nil : t.missing ≠ [] → ∃ name, t.place = t.dir ++ t.missing ++ [name]

theorem fits_of_target {links : Nat} {path : List ν} {t : Target ν}
    (h : d.target links path = some t) :
  t.Fits d
  := by
  rw [target] at h
  split at h
  · rename_i name dir _ hexisting
    obtain ⟨hdir, -⟩ := existing_spec d.root_eq hexisting
    split at h
    · rename_i place hplace
      split at h
      · cases h
      · obtain rfl := Option.some.inj h
        constructor
        · exact hdir
        · intro name' hname'
          cases hname'
        · intro _
          apply arrived_resolve hdir hplace
        · intro hne
          cases hne rfl
    · cases h
  · rename_i name dir missing hmissing _ hexisting
    obtain ⟨hdir, hfree⟩ := existing_spec d.root_eq hexisting
    obtain rfl := Option.some.inj h
    constructor
    · exact hdir
    · exact hfree
    · intro hnil
      cases hmissing hnil
    · intro _
      exact ⟨name, rfl⟩
  · cases h

/-- How far the writing of a file has come: some of the missing directories are made, or all of them
are, and some bytes are written. -/
inductive Stage where
  | making (made : Nat)
  | writing (written : Nat)

/-- The stage after `n` calls. -/
def Stage.after (t : Target ν) (n : Nat) : Stage :=
  if n ≤ t.missing.length then .making n else .writing (n - t.missing.length - 1)

/-- The file system at a stage. -/
def Stage.disk (d : Disk ν β) (t : Target ν) (bytes : List β) : Stage → Disk ν β
  | .making made => d.mkdirs t.dir (t.missing.take made)
  | .writing written => (d.mkdirs t.dir t.missing).write t.place (bytes.take written)

/-- The calls made so far have brought the file system to a stage. -/
theorem run_take_calls (d : Disk ν β) (t : Target ν) (bytes : List β) (n : Nat) :
  d.run ((t.calls bytes).take n) = (Stage.after t n).disk d t bytes
  := by
  rw [Stage.after, Target.calls]
  split
  · rename_i hle
    rw [List.take_append_of_le_length (by rw [length_mkdirCalls]; exact hle), take_mkdirCalls,
      run_mkdirCalls, Stage.disk]
  · rename_i hlt
    obtain ⟨written, rfl⟩ : ∃ written, n = t.missing.length + (written + 1) :=
      ⟨n - t.missing.length - 1, by omega⟩
    have hwritten : t.missing.length + (written + 1) - t.missing.length - 1 = written := by omega
    rw [hwritten, ← length_mkdirCalls (β := β) t.dir t.missing, List.take_length_add_append,
      List.take_succ_cons, ← List.map_take, run_append_calls, run_mkdirCalls, Stage.disk]
    rw [run, List.foldl_cons]
    apply run_append

theorem Target.Fits.kind_mkdirs {t : Target ν} (h : t.Fits d) (made : Nat) :
  (∀ q, Made t.dir (t.missing.take made) q →
      (d.mkdirs t.dir (t.missing.take made)).kind q = some .directory) ∧
    (∀ q, ¬ Made t.dir (t.missing.take made) q →
      (d.mkdirs t.dir (t.missing.take made)).kind q = d.kind q) ∧
    (d.mkdirs t.dir (t.missing.take made)).data = d.data
  := by
  apply Disk.kind_mkdirs h.dir_eq
  intro name hname
  apply h.missing_eq
  cases hmissing : t.missing with
  | nil => simp [hmissing] at hname
  | cons name' rest =>
      cases made with
      | zero => simp at hname
      | succ made => simpa [hmissing] using hname

/-- While directories are made, nothing else changes. -/
theorem Target.Fits.view_making {t : Target ν} (h : t.Fits d) (bytes : List β) (made : Nat)
    (p : List ν) :
  (Made t.dir (t.missing.take made) p →
      (Stage.disk d t bytes (.making made)).view p = some .directory) ∧
    (¬ Made t.dir (t.missing.take made) p →
      (Stage.disk d t bytes (.making made)).view p = d.view p)
  := by
  obtain ⟨hmade, hnot, hdata⟩ := h.kind_mkdirs made
  constructor
  · intro hp
    rw [view, Stage.disk, hmade p hp]
    rfl
  · intro hp
    rw [view, Stage.disk, hnot p hp, hdata, view]

omit [DecidableEq ν] in
/-- Nothing is at the place of a file in a missing directory, before and after that is made. -/
theorem Target.Fits.kind_place {t : Target ν} (h : t.Fits d) (hne : t.missing ≠ []) :
  d.kind t.place = none ∧ ¬ Made t.dir t.missing t.place
  := by
  obtain ⟨name, hplace⟩ := h.place_of_ne_nil hne
  constructor
  · rw [hplace]
    cases hmissing : t.missing with
    | nil => cases hne hmissing
    | cons name' rest =>
        have hfree := h.missing_eq name' (by rw [hmissing]; rfl)
        have hbelow := kind_append_eq_none d hfree (rest ++ [name])
        simpa using hbelow
  · rintro ⟨s, -, hprefix, heq⟩
    rw [hplace, List.append_assoc, List.append_cancel_left_eq] at heq
    have hle := hprefix.length_le
    rw [← heq, List.length_append, List.length_singleton] at hle
    omega

/-- No file is written to the place of a directory. -/
theorem kind_place_ne_directory {links : Nat} {path : List ν} {t : Target ν}
    (h : d.target links path = some t) :
  d.kind t.place ≠ some .directory
  := by
  have hfits := fits_of_target h
  by_cases hne : t.missing = []
  · rw [target] at h
    split at h
    · split at h
      · obtain ⟨hdir, heq⟩ := Option.ite_none_left_eq_some.mp h
        rw [← Option.some.inj heq]
        exact hdir
      · cases h
    · rename_i hmissing _ _
      rw [← Option.some.inj h] at hne
      cases hmissing hne
    · cases h
  · rw [(hfits.kind_place hne).1]
    simp

/-- The missing directories do not matter for what is written. -/
theorem Target.Fits.writes_mkdirs {t : Target ν} (h : t.Fits d) (p : List ν) :
  (d.mkdirs t.dir t.missing).Writes t.place p ↔ d.Writes t.place p
  := by
  by_cases hne : t.missing = []
  · rw [hne]
    rfl
  · obtain ⟨hnone, hmade⟩ := h.kind_place hne
    have hkind := (h.kind_mkdirs t.missing.length).2.1 t.place
    rw [List.take_length] at hkind
    rw [Writes, Writes, hkind hmade, hnone]

theorem Target.Fits.free_mkdirs {t : Target ν} (h : t.Fits d)
    (hnone : (d.mkdirs t.dir t.missing).kind t.place = none) :
  (d.mkdirs t.dir t.missing).Free t.place
  := by
  by_cases hne : t.missing = []
  · rw [hne] at hnone ⊢
    apply (h.place_of_nil hne).free hnone
  · obtain ⟨name, hplace⟩ := h.place_of_ne_nil hne
    have hkind := (h.kind_mkdirs t.missing.length).1 (t.dir ++ t.missing)
      ⟨t.missing, hne, by rw [List.take_length], rfl⟩
    rw [List.take_length] at hkind
    constructor
    · rw [hplace, List.dropLast_concat, hkind]
    · exact hnone

/-- While the file is written, its bytes are in all its places, the missing directories are there,
and nothing else changes. -/
theorem Target.Fits.view_writing {t : Target ν} (h : t.Fits d) (bytes : List β) (written : Nat)
    (p : List ν) :
  (d.Writes t.place p →
      (Stage.disk d t bytes (.writing written)).view p = some (.file (bytes.take written))) ∧
    (¬ d.Writes t.place p → Made t.dir t.missing p →
      (Stage.disk d t bytes (.writing written)).view p = some .directory) ∧
    (¬ d.Writes t.place p → ¬ Made t.dir t.missing p →
      (Stage.disk d t bytes (.writing written)).view p = d.view p)
  := by
  have hview := h.view_making bytes t.missing.length p
  rw [Stage.disk, List.take_length] at hview
  rw [← h.writes_mkdirs, Stage.disk]
  refine ⟨?_, ?_, ?_⟩
  · intro hp
    apply view_write_of_writes h.free_mkdirs hp
  · intro hp hmade
    rw [view_write_of_not_writes h.free_mkdirs hp, hview.1 hmade]
  · intro hp hmade
    rw [view_write_of_not_writes h.free_mkdirs hp, hview.2 hmade]

omit [DecidableEq ν] in
/-- No directory is made where there is something. -/
theorem Target.Fits.view_of_made {t : Target ν} (h : t.Fits d) {p : List ν}
    (hp : Made t.dir t.missing p) :
  d.view p = none
  := by
  obtain ⟨s, hne, hprefix, rfl⟩ := hp
  cases s with
  | nil => cases hne rfl
  | cons name s =>
      have hhead : name ∈ t.missing.head? := by
        obtain ⟨rest, hrest⟩ := hprefix
        rw [← hrest]
        rfl
      have hnone := kind_append_eq_none d (h.missing_eq name hhead) s
      rw [List.append_assoc, List.singleton_append] at hnone
      rw [view, hnone]
      rfl

end DecidableEq

end Disk
