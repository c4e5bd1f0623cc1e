import Fbz.Error
import Fbz.Lib.FileTree

/-!
# Moving a staged tree into its destination

`archive_extract::commit` first checks every staged entry against the destination and then moves
the entries. Both recursions are functions of what is at the source path and what is at the target
path; file system calls fail only where a path is missing or in the way. `display` writes a target
path, given below the destination. The staging directory, which is made under a fresh name next to
or inside the destination, does not count as part of it.
-/

namespace Fbz.Extract

open FileTree
set_option linter.unusedSimpArgs false
set_option linter.unusedSectionVars false

variable {N F L : Type} [LinearOrder N] (display : List N → String) (overwrite : Bool)

def existingError (path : List N) : Error :=
  .io ⟨.alreadyExists, display path ++ " already exists (use --force)"⟩

def directoryCollision (path : List N) : Error :=
  .io ⟨.alreadyExists,
    "refusing to replace directory " ++ display path ++ " with an archive entry"⟩

def directoryNotEmpty : Error := .io ⟨.named "DirectoryNotEmpty", "Directory not empty"⟩

/-- The end of `preflight`, for a target that is not merged with. -/
def replaceable (path : List N) (target : Node N F L) : Result Unit :=
  if target.isDir then .error (directoryCollision display path)
  else if overwrite then .ok () else .error (existingError display path)

mutual

/-- `preflight`, on the nodes at the source and the target path. -/
def preflight (path : List N) : Node N F L → Option (Node N F L) → Result Unit
  | _, none => .ok ()
  | .dir _ children, some target =>
    if target.isDir then preflightAll path children target.entries
    else replaceable display overwrite path target
  | .file _, some target => replaceable display overwrite path target
  | .symlink _, some target => replaceable display overwrite path target

/-- The loop over the children of a directory, which are listed in the order of their names. -/
def preflightAll (path : List N) : Entries N F L → Entries N F L → Result Unit
  | .nil, _ => .ok ()
  | .cons name child rest, entries => do
    preflight (path ++ [name]) child (entries.lookup name)
    preflightAll path rest entries

end

/-- What a step of `commit_entry` leaves at the source and at the target path, and its result. -/
structure Moved (N F L : Type) where
  source : Option (Node N F L)
  target : Option (Node N F L)
  result : Result Unit

/-- The same for the directories themselves. -/
structure MovedAll (N F L : Type) where
  source : Entries N F L
  target : Entries N F L
  result : Result Unit

/-- The end of `commit_entry`: a target that is not merged with is removed and the source renamed
into its place. -/
def replaceWith (path : List N) (source target : Node N F L) : Moved N F L :=
  if target.isDir then ⟨some source, some target, .error (directoryCollision display path)⟩
  else if !overwrite then ⟨some source, some target, .error (existingError display path)⟩
  else ⟨none, some source, .ok ()⟩

/-- The rest of `commit_entry` once the children have been moved: `remove_dir` on the source, which
`make_directory_mutable` has made writable. -/
def removeSource (mode mode' : Nat) (moved : MovedAll N F L) : Moved N F L :=
  let target := some (.dir mode' moved.target)
  match moved.result with
  | .error error => ⟨some (.dir (mode ||| 0o700) moved.source), target, .error error⟩
  | .ok () =>
    match moved.source with
    | .nil => ⟨none, target, .ok ()⟩
    | left => ⟨some (.dir (mode ||| 0o700) left), target, .error directoryNotEmpty⟩

mutual

/-- `commit_entry`, on the nodes at the source and the target path. -/
def commitEntry (path : List N) : Node N F L → Option (Node N F L) → Moved N F L
  | source, none => ⟨none, some source, .ok ()⟩
  | .dir mode children, some (.dir mode' entries) =>
    removeSource mode mode' (commitAll path children entries)
  | .dir mode children, some (.file content) =>
    replaceWith display overwrite path (.dir mode children) (.file content)
  | .dir mode children, some (.symlink link) =>
    replaceWith display overwrite path (.dir mode children) (.symlink link)
  | .file content, some target => replaceWith display overwrite path (.file content) target
  | .symlink link, some target => replaceWith display overwrite path (.symlink link) target

/-- The loop over the children: a child that has been moved is gone from the source. -/
def commitAll (path : List N) : Entries N F L → Entries N F L → MovedAll N F L
  | .nil, entries => ⟨.nil, entries, .ok ()⟩
  | .cons name child rest, entries =>
    let moved := commitEntry (path ++ [name]) child (entries.lookup name)
    let entries := entries.put name moved.target
    match moved.result with
    | .error error => ⟨rest.push name moved.source, entries, .error error⟩
    | .ok () =>
      let after := commitAll path rest entries
      ⟨after.source.push name moved.source, after.target, after.result⟩

end

/-- A directory of a file system. -/
structure Folder (N F L : Type) [LinearOrder N] where
  mode : Nat
  entries : Entries N F L
  sorted : entries.Sorted

/-- The directory `create_dir` makes. -/
def Folder.created (mode : Nat) : Folder N F L := ⟨mode, .nil, trivial⟩

/-- `commit`: a destination that does not exist is created first. -/
def commit (mode : Nat) (staging : Folder N F L) (destination : Option (Folder N F L)) :
    MovedAll N F L :=
  let target := destination.getD (.created mode)
  match preflightAll display overwrite [] staging.entries target.entries with
  | .error error => ⟨staging.entries, target.entries, .error error⟩
  | .ok () => commitAll display overwrite [] staging.entries target.entries

/-- What the destination holds at a path. -/
def present (destination : Option (Folder N F L)) (path : List N) : Option (Kind F L) :=
  destination.bind fun folder => folder.entries.get path

/-- What is staged at a path can neither be merged with nor replace what is there. -/
def Clash (staged present : Kind F L) : Prop :=
  ¬ (staged.isDir = true ∧ present.isDir = true) ∧ (present.isDir = true ∨ overwrite = false)

/-- What a path holds after the merge: what is staged there, except that a directory that is there
already stays. -/
def merged : Option (Kind F L) → Option (Kind F L) → Option (Kind F L)
  | some (.dir _), some (.dir mode) => some (.dir mode)
  | some staged, _ => some staged
  | none, present => present

section Preflight

variable {display overwrite}

theorem replaceable_eq_ok {path : List N} {target : Node N F L} :
    replaceable display overwrite path target = .ok () ↔
      target.isDir = false ∧ overwrite = true := by
  unfold replaceable
  cases target.isDir <;> cases overwrite <;> simp

theorem replaceable_error {path : List N} {target : Node N F L} {error : Error}
    (h : replaceable display overwrite path target = .error error) :
    ∃ message, error = .io ⟨.alreadyExists, message⟩ := by
  unfold replaceable at h
  split at h
  · exact ⟨_, (Except.error.inj h).symm⟩
  · split at h
    · cases h
    · exact ⟨_, (Except.error.inj h).symm⟩

mutual

theorem preflight_error {path : List N} {error : Error} (source : Node N F L)
    (target : Option (Node N F L))
    (h : preflight display overwrite path source target = .error error) :
    ∃ message, error = .io ⟨.alreadyExists, message⟩ := by
  cases target with
  | none => cases source <;> cases h
  | some target =>
    cases source with
    | file content => exact replaceable_error h
    | symlink link => exact replaceable_error h
    | dir mode children =>
      simp only [preflight] at h
      split at h
      · exact preflightAll_error children _ h
      · exact replaceable_error h

theorem preflightAll_error {path : List N} {error : Error} (children entries : Entries N F L)
    (h : preflightAll display overwrite path children entries = .error error) :
    ∃ message, error = .io ⟨.alreadyExists, message⟩ := by
  cases children with
  | nil => cases h
  | cons name child rest =>
    simp only [preflightAll] at h
    cases hchild : preflight display overwrite (path ++ [name]) child (entries.lookup name) with
    | error error' =>
      rw [hchild] at h
      obtain rfl := Except.error.inj h
      exact preflight_error child _ hchild
    | ok u =>
      rw [hchild] at h
      exact preflightAll_error rest entries h

end

/-- Nothing the source holds clashes with what the target holds at the same path. -/
def Clear (overwrite : Bool) (source target : List N → Option (Kind F L)) : Prop :=
  ∀ path staged present, source path = some staged → target path = some present →
    ¬ Clash overwrite staged present

theorem get_of_not_dir {node : Node N F L} (h : node.isDir = false) (name : N) (path : List N) :
    node.get (name :: path) = none := by
  cases node with
  | dir mode entries => cases h
  | file | symlink => rfl

theorem clear_of_leaf {source target : Node N F L}
    (leaf : source.isDir = false ∨ target.isDir = false) :
    Clear overwrite (fun p => source.get p) (fun p => target.get p) ↔ target.isDir = false ∧ overwrite = true := by
  constructor
  · intro h
    have := h [] _ _ rfl rfl
    simp only [Clash, not_and, not_or, Bool.not_eq_true, Bool.not_eq_false] at this
    exact this fun hs => leaf.resolve_left fun hl => absurd (hs.symm.trans hl) nofun
  · rintro ⟨htarget, rfl⟩ path staged present hs ht ⟨-, hclash⟩
    cases path with
    | nil =>
      obtain rfl := Option.some.inj ht
      rcases hclash with h | h
      · exact absurd (show target.isDir = true from h) (by simp [htarget])
      · cases h
    | cons name path =>
      have := get_of_not_dir htarget name path
      exact absurd (this.symm.trans ht) (by simp)

theorem lookup_cons_of_above {name other : N} {child : Node N F L} {rest : Entries N F L}
    {node : Node N F L} (above : rest.Above name) (h : rest.lookup other = some node) :
    (Entries.cons name child rest).lookup other = some node := by
  rw [Entries.lookup, if_neg]
  · exact h
  · rintro rfl
    rw [above.lookup_eq_none] at h
    cases h

mutual

/-- `preflight` accepts exactly when nothing clashes at any path. -/
theorem preflight_eq_ok {path : List N} (source : Node N F L) (target : Option (Node N F L))
    (sorted : source.Sorted) :
    preflight display overwrite path source target = .ok () ↔
      Clear overwrite (fun p => source.get p) fun p => target.bind (Node.get p) := by
  cases target with
  | none => exact iff_of_true (by cases source <;> rfl) fun _ _ _ _ h => nomatch h
  | some target =>
    cases source with
    | file content => exact replaceable_eq_ok.trans (clear_of_leaf (.inl rfl)).symm
    | symlink link => exact replaceable_eq_ok.trans (clear_of_leaf (.inl rfl)).symm
    | dir mode children =>
      simp only [preflight]
      cases hdir : target.isDir with
      | false =>
        rw [if_neg (by simp)]
        exact replaceable_eq_ok.trans (clear_of_leaf (.inr hdir)).symm
      | true =>
        rw [if_pos rfl, preflightAll_eq_ok children target.entries sorted]
        refine ⟨fun h p staged present hs ht => ?_, fun h p staged present hs ht => ?_⟩
        · cases p with
          | nil =>
            obtain rfl := Option.some.inj hs
            obtain rfl := Option.some.inj ht
            exact fun hclash => hclash.1 ⟨rfl, hdir⟩
          | cons name p => exact h (name :: p) staged present hs ht
        · cases p with
          | nil => cases hs
          | cons name p => exact h (name :: p) staged present hs ht

theorem preflightAll_eq_ok {path : List N} (children entries : Entries N F L)
    (sorted : children.Sorted) :
    preflightAll display overwrite path children entries = .ok () ↔
      Clear overwrite children.get entries.get := by
  cases children with
  | nil => exact iff_of_true rfl fun p staged present hs => by cases p <;> cases hs
  | cons name child rest =>
    obtain ⟨habove, hchild, hrest⟩ := sorted
    simp only [preflightAll]
    constructor
    · intro h p staged present hs ht
      obtain ⟨u, h1, h2⟩ := result_bind_eq_ok.mp h
      have h1 := (preflight_eq_ok child _ hchild).mp h1
      have h2 := (preflightAll_eq_ok rest entries hrest).mp h2
      cases p with
      | nil => cases hs
      | cons other p =>
        rw [Entries.get_cons, Entries.lookup] at hs
        split at hs
        case isTrue heq => exact h1 p staged present hs (heq ▸ ht)
        case isFalse => exact h2 (other :: p) staged present hs ht
    · intro h
      refine result_bind_eq_ok.mpr ⟨(), (preflight_eq_ok child _ hchild).mpr ?_,
        (preflightAll_eq_ok rest entries hrest).mpr ?_⟩
      · intro p staged present hs ht
        refine h (name :: p) staged present ?_ ht
        rw [Entries.get_cons, Entries.lookup, if_pos rfl]
        exact hs
      · intro p staged present hs ht
        cases p with
        | nil => cases hs
        | cons other p =>
          refine h (other :: p) staged present ?_ ht
          rw [Entries.get_cons] at hs ⊢
          obtain ⟨node, hnode, hget⟩ := Option.bind_eq_some_iff.mp hs
          rw [lookup_cons_of_above habove hnode]
          exact hget

end

end Preflight

mutual

/-- The node a target path holds once the source has been moved there. -/
def mergeNode : Node N F L → Option (Node N F L) → Node N F L
  | .dir _ children, some (.dir mode entries) => .dir mode (mergeAll children entries)
  | source, _ => source

def mergeAll : Entries N F L → Entries N F L → Entries N F L
  | .nil, entries => entries
  | .cons name child rest, entries =>
    mergeAll rest (entries.put name (some (mergeNode child (entries.lookup name))))

end

section Merge

variable {display overwrite}

theorem preflightAll_put {path : List N} {name : N} (children entries : Entries N F L)
    (above : children.Above name) (node : Option (Node N F L)) :
    preflightAll display overwrite path children (entries.put name node) =
      preflightAll display overwrite path children entries := by
  cases children with
  | nil => rfl
  | cons first child rest =>
    simp only [preflightAll]
    rw [Entries.lookup_put_ne (ne_of_gt above.1), preflightAll_put rest entries above.2]

theorem replaceWith_of_replaceable {path : List N} {source target : Node N F L}
    (h : replaceable display overwrite path target = .ok ()) :
    replaceWith display overwrite path source target = ⟨none, some source, .ok ()⟩ := by
  obtain ⟨hdir, rfl⟩ := replaceable_eq_ok.mp h
  simp [replaceWith, hdir]

mutual

/-- After an accepting `preflight` no step of `commit_entry` fails. -/
theorem commitEntry_of_preflight {path : List N} (source : Node N F L)
    (target : Option (Node N F L)) (sorted : source.Sorted)
    (accepted : preflight display overwrite path source target = .ok ()) :
    commitEntry display overwrite path source target =
      ⟨none, some (mergeNode source target), .ok ()⟩ := by
  cases target with
  | none => cases source <;> rfl
  | some target =>
    cases source with
    | file content => cases target <;> exact replaceWith_of_replaceable accepted
    | symlink link => cases target <;> exact replaceWith_of_replaceable accepted
    | dir mode children =>
      cases target with
      | file content => exact replaceWith_of_replaceable accepted
      | symlink link => exact replaceWith_of_replaceable accepted
      | dir mode' entries =>
        have hall := commitAll_of_preflight children entries sorted accepted
        simp only [commitEntry, hall, removeSource, mergeNode]

theorem commitAll_of_preflight {path : List N} (children entries : Entries N F L)
    (sorted : children.Sorted)
    (accepted : preflightAll display overwrite path children entries = .ok ()) :
    commitAll display overwrite path children entries =
      ⟨.nil, mergeAll children entries, .ok ()⟩ := by
  cases children with
  | nil => rfl
  | cons name child rest =>
    obtain ⟨habove, hchild, hrest⟩ := sorted
    simp only [preflightAll] at accepted
    obtain ⟨u, hfirst, hothers⟩ := result_bind_eq_ok.mp accepted
    rw [← preflightAll_put rest entries habove
      (some (mergeNode child (entries.lookup name)))] at hothers
    have hentry := commitEntry_of_preflight child _ hchild hfirst
    have hall := commitAll_of_preflight rest _ hrest hothers
    simp only [commitAll, hentry, hall, Entries.push, mergeAll]

end

mutual

theorem mergeNode_sorted (source : Node N F L) (target : Option (Node N F L))
    (hsource : source.Sorted) (htarget : ∀ t, target = some t → t.Sorted) :
    (mergeNode source target).Sorted := by
  cases source with
  | file | symlink => exact trivial
  | dir mode children =>
    cases target with
    | none => exact hsource
    | some target =>
      cases target with
      | file | symlink => exact hsource
      | dir mode' entries => exact mergeAll_sorted children entries hsource (htarget _ rfl)

theorem mergeAll_sorted (children entries : Entries N F L) (hchildren : children.Sorted)
    (hentries : entries.Sorted) : (mergeAll children entries).Sorted := by
  cases children with
  | nil => exact hentries
  | cons name child rest =>
    obtain ⟨-, hchild, hrest⟩ := hchildren
    refine mergeAll_sorted rest _ hrest (hentries.put fun x hx => ?_)
    obtain rfl := Option.some.inj hx
    exact mergeNode_sorted child _ hchild fun t ht => hentries.lookup ht

end

theorem mergeAll_lookup (children entries : Entries N F L) (hchildren : children.Sorted)
    (hentries : entries.Sorted) (name : N) :
    (mergeAll children entries).lookup name =
      match children.lookup name with
      | none => entries.lookup name
      | some child => some (mergeNode child (entries.lookup name)) := by
  cases children with
  | nil => rfl
  | cons first child rest =>
    obtain ⟨habove, hchild, hrest⟩ := hchildren
    have hput : (entries.put first (some (mergeNode child (entries.lookup first)))).Sorted :=
      hentries.put fun x hx => by
        obtain rfl := Option.some.inj hx
        exact mergeNode_sorted child _ hchild fun t ht => hentries.lookup ht
    rw [mergeAll, mergeAll_lookup rest _ hrest hput name]
    by_cases heq : name = first
    · subst heq
      rw [habove.lookup_eq_none, Entries.lookup_put_self hentries, Entries.lookup, if_pos rfl]
    · rw [Entries.lookup_put_ne heq, Entries.lookup, if_neg heq]

theorem merged_none_right (staged : Option (Kind F L)) : merged staged none = staged := by
  cases staged with
  | none => rfl
  | some kind => cases kind <;> rfl

/-- Path by path, the merge is what the paths call for. -/
theorem mergeNode_get (path : List N) (source : Node N F L) (target : Option (Node N F L))
    (hsource : source.Sorted) (htarget : ∀ t, target = some t → t.Sorted)
    (clear : Clear overwrite (fun p => source.get p) fun p => target.bind (Node.get p)) :
    (mergeNode source target).get path = merged (source.get path) (target.bind (Node.get path)) := by
  cases target with
  | none =>
    rw [Option.bind_none, merged_none_right]
    cases source <;> rfl
  | some target =>
    rw [Option.bind_some]
    cases path with
    | nil => cases source <;> cases target <;> rfl
    | cons name path =>
      by_cases both : source.isDir = true ∧ target.isDir = true
      · cases source with
        | file | symlink => cases both.1
        | dir mode children =>
          cases target with
          | file | symlink => cases both.2
          | dir mode' entries =>
            have hentries : entries.Sorted := htarget _ rfl
            simp only [mergeNode, Node.get_cons, Node.entries, Entries.get_cons]
            rw [mergeAll_lookup children entries hsource hentries]
            cases hlookup : children.lookup name with
            | none => rfl
            | some child =>
              refine mergeNode_get path child (entries.lookup name)
                (Entries.Sorted.lookup hsource hlookup) (fun t ht => hentries.lookup ht)
                fun p staged present hs ht => clear (name :: p) staged present ?_ ht
              simp only [Node.get_cons, Node.entries, Entries.get_cons, hlookup, Option.bind_some]
              exact hs
      · have hleaf : target.isDir = false := by
          have := clear [] _ _ rfl rfl
          simp only [Clash, not_and, not_or] at this
          exact Bool.eq_false_iff.mpr (this fun hs ht => both ⟨hs, ht⟩).1
        have hsame : mergeNode source (some target) = source := by
          cases source with
          | file | symlink => rfl
          | dir mode children =>
            cases target with
            | file | symlink => rfl
            | dir mode' entries => cases hleaf
        rw [hsame, get_of_not_dir hleaf, merged_none_right]

theorem mergeAll_get (children entries : Entries N F L) (hchildren : children.Sorted)
    (hentries : entries.Sorted) (clear : Clear overwrite children.get entries.get)
    (path : List N) :
    (mergeAll children entries).get path = merged (children.get path) (entries.get path) := by
  cases path with
  | nil => rfl
  | cons name path =>
    rw [Entries.get_cons, Entries.get_cons, Entries.get_cons,
      mergeAll_lookup children entries hchildren hentries]
    cases hlookup : children.lookup name with
    | none => rfl
    | some child =>
      refine mergeNode_get path child (entries.lookup name) (hchildren.lookup hlookup)
        (fun t ht => hentries.lookup ht)
        fun p staged present hs ht => clear (name :: p) staged present ?_ ht
      rw [Entries.get_cons, hlookup]
      exact hs

end Merge

theorem present_eq (mode : Nat) (destination : Option (Folder N F L)) :
    present destination = (destination.getD (.created mode)).entries.get := by
  funext path
  cases destination with
  | some folder => rfl
  | none => cases path <;> rfl

/-- `commit` merges everything when nothing clashes, and otherwise fails with a conflict and moves
nothing. -/
theorem commit_cases (mode : Nat) (staging : Folder N F L) (destination : Option (Folder N F L)) :
    (Clear overwrite staging.entries.get (present destination) →
      (commit display overwrite mode staging destination).result = .ok () ∧
      (commit display overwrite mode staging destination).source = .nil ∧
      (commit display overwrite mode staging destination).target.Sorted ∧
      ∀ path, (commit display overwrite mode staging destination).target.get path =
        merged (staging.entries.get path) (present destination path)) ∧
    (¬ Clear overwrite staging.entries.get (present destination) →
      (∃ message, (commit display overwrite mode staging destination).result =
        .error (.io ⟨.alreadyExists, message⟩)) ∧
      (commit display overwrite mode staging destination).source = staging.entries ∧
      destination.map Folder.entries =
        some (commit display overwrite mode staging destination).target) := by
  rw [present_eq mode]
  have hiff := @preflightAll_eq_ok _ _ _ _ display overwrite [] staging.entries
    (destination.getD (.created mode)).entries staging.sorted
  refine ⟨fun clear => ?_, fun clash => ?_⟩
  · have accepted := hiff.mpr clear
    have hall := commitAll_of_preflight staging.entries _ staging.sorted accepted
    simp only [commit, accepted, hall, true_and]
    exact ⟨mergeAll_sorted _ _ staging.sorted (destination.getD _).sorted,
      mergeAll_get _ _ staging.sorted (destination.getD _).sorted clear⟩
  · cases hpre : preflightAll display overwrite [] staging.entries
      (destination.getD (.created mode)).entries with
    | ok u => exact absurd (hiff.mp hpre) clash
    | error error =>
      obtain ⟨message, rfl⟩ := preflightAll_error _ _ hpre
      simp only [commit, hpre, true_and]
      refine ⟨⟨message, rfl⟩, ?_⟩
      cases destination with
      | some folder => rfl
      | none => exact absurd (fun path _ _ _ h => by cases path <;> cases h) clash

end Fbz.Extract
