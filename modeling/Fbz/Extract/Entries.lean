import Mathlib.Data.List.Nodup
import Fbz.Extract.Zip

/-!
# Entries and their places

An accepted layout gives every entry a place of its own below directories that are there before
the first entry is extracted. A step of an entry changes its own place only, and what it leaves
there is a matter of its own data and attributes.
-/

namespace Fbz.Extract

open Deflate FileTree FileSystem Transition

variable (P : Platform)

/-- What `validate_layout` makes sure of about the paths. -/
structure Layout (entries : List Entry) : Prop where
  nonempty : ∀ e ∈ entries, e.path ≠ []
  nodup : (entries.map Entry.path).Nodup
  clear : ∀ e ∈ entries, e.kind ≠ .directory → ∀ e' ∈ entries, e.path <+: e'.path →
    e.path = e'.path

private theorem checkDuplicates_eq_ok {seen : List Path} {entries : List Entry}
    (h : checkDuplicates P seen entries = .ok ()) :
    (entries.map Entry.path).Nodup ∧ ∀ e ∈ entries, e.path ∉ seen := by
  induction entries generalizing seen with
  | nil => exact ⟨.nil, nofun⟩
  | cons entry rest ih =>
    rw [checkDuplicates] at h
    split at h
    · cases h
    · next fresh =>
      obtain ⟨hnodup, hseen⟩ := ih h
      refine ⟨List.nodup_cons.mpr ⟨fun hmem => ?_, hnodup⟩, fun e he => ?_⟩
      · obtain ⟨e, he, heq⟩ := List.mem_map.mp hmem
        exact hseen e he (heq ▸ List.mem_cons_self)
      · rcases List.mem_cons.mp he with rfl | he
        · exact fresh
        · exact fun hmem => hseen e he (List.mem_cons_of_mem _ hmem)

private theorem checkAncestors_eq_ok {entries : List Entry} {entry : Entry} {paths : List Path}
    (h : checkAncestors P entries entry paths = .ok ()) :
    ∀ path ∈ paths, blocks entries path = false := by
  induction paths with
  | nil => exact nofun
  | cons path rest ih =>
    rw [checkAncestors] at h
    split at h
    · cases h
    · next free =>
      rintro q hq
      rcases List.mem_cons.mp hq with rfl | hq
      · simpa using free
      · exact ih h q hq

private theorem checkAllAncestors_eq_ok {entries some : List Entry}
    (h : checkAllAncestors P entries some = .ok ()) :
    ∀ e ∈ some, ∀ path ∈ ancestors e.path, blocks entries path = false := by
  induction some with
  | nil => exact nofun
  | cons entry rest ih =>
    rw [checkAllAncestors] at h
    obtain ⟨_, hfirst, hrest⟩ := result_bind_eq_ok.mp h
    rintro e he
    rcases List.mem_cons.mp he with rfl | he
    · exact checkAncestors_eq_ok P hfirst
    · exact ih hrest e he

private theorem getLast?_inits (path : Path) : path.inits.getLast? = some path := by
  induction path with
  | nil => rfl
  | cons name path ih => simp [List.inits, List.getLast?_cons, ih]

private theorem mem_ancestors {q path : Path} (le : q <+: path) (ne : q ≠ path) (pos : q ≠ []) :
    q ∈ ancestors path := by
  refine List.mem_filter.mpr ⟨?_, by simpa using pos⟩
  rw [List.tail_reverse, List.mem_reverse]
  have hmem : q ∈ path.inits := (List.mem_inits q path).mpr le
  have hne := List.ne_nil_of_mem hmem
  have hsplit := List.dropLast_append_getLast hne
  rw [← hsplit, List.mem_append, List.mem_singleton] at hmem
  refine hmem.resolve_right fun heq => ne (heq.trans ?_)
  have hlast := getLast?_inits path
  rw [List.getLast?_eq_some_getLast hne] at hlast
  exact Option.some.inj hlast

theorem layout_of_validateLayout {entries : List Entry} (nonempty : ∀ e ∈ entries, e.path ≠ [])
    (h : validateLayout P entries = .ok ()) : Layout entries := by
  obtain ⟨_, hdup, h⟩ := result_bind_eq_ok.mp h
  obtain ⟨_, hanc, -⟩ := result_bind_eq_ok.mp h
  refine ⟨nonempty, (checkDuplicates_eq_ok P hdup).1, fun e he hkind e' he' le => ?_⟩
  by_contra hne
  have hfree := checkAllAncestors_eq_ok P hanc e' he' e.path
    (mem_ancestors le hne (nonempty e he))
  have hblocks : blocks entries e.path = true :=
    List.any_eq_true.mpr ⟨e, he, by simp [hkind]⟩
  rw [hblocks] at hfree
  cases hfree

/-- The directories there are before the first entry is extracted. -/
def dirPaths (entries : List Entry) : List Path :=
  entries.map fun e => if e.kind = .directory then e.path else e.path.dropLast

theorem prepareDirectories_eq (entries : List Entry) (paths : List Path) :
    prepareDirectories P (Tree.ofDirs P.dirMode paths) entries =
      .ok (Tree.ofDirs P.dirMode ((dirPaths entries).reverse ++ paths)) := by
  induction entries generalizing paths with
  | nil => rfl
  | cons e rest ih =>
    rw [prepareDirectories, Tree.createDirAll_ofDirs]
    simp only [ih, dirPaths, List.map_cons, List.reverse_cons, List.append_assoc,
      List.singleton_append]

/-- What the data of an entry come to, under some schedule of the workers that decode them. -/
def Yields {crc : Crc32} (setting : Setting crc) (data : List UInt8) (entryCount : Nat) (e : Entry)
    (decoded : Result (List UInt8)) : Prop :=
  ∃ inner, Reaches (InflateEntry setting data entryCount e) .opened inner ∧
    decodeEntry P data e inner = some decoded

def openedFile : FileData := ⟨none, P.fileMode, none⟩

def writtenFile (bytes : List UInt8) : FileData := ⟨some bytes, P.fileMode, none⟩

def stampedFile (e : Entry) (bytes : List UInt8) : FileData :=
  ⟨some bytes, (e.mode.map (· &&& 0o7777)).getD P.fileMode, none⟩

/-- The end of an entry whose data are not decoded. -/
def skipped {crc : Crc32} (e : Entry) : Option (Task crc) :=
  match e.kind with
  | .directory => some (.done none)
  | .symlink =>
    if e.decodedSize > 64 * 1024 then
      some (.failed (invalid ("symlink target in " ++ P.display e.path ++ " is too large")) none)
    else none
  | .file => none

/-- The end of an entry whose data decode to this. -/
def ending {crc : Crc32} (e : Entry) : Result (List UInt8) → Task crc
  | .error error =>
    .failed error (if e.kind = .file then some (.file (openedFile P)) else none)
  | .ok bytes =>
    if e.kind = .file then
      match e.modified.bind fun _ => P.openFault (stampedFile P e bytes).mode with
      | some error => .failed (.io error) (some (.file (stampedFile P e bytes)))
      | none => .done (some (.file { stampedFile P e bytes with modified := e.modified }))
    else
      match allowTarget P e bytes with
      | .error error => .failed error none
      | .ok () => .done (some (.symlink bytes))

/-- How an entry ends: as nothing but its own data and attributes make it. -/
inductive Ends {crc : Crc32} (setting : Setting crc) (data : List UInt8) (entryCount : Nat)
    (e : Entry) : Task crc → Prop
  | early {task : Task crc} (h : skipped P e = some task) : Ends setting data entryCount e task
  | decoded {decoded : Result (List UInt8)} (needed : skipped P e = (none : Option (Task crc)))
      (yields : Yields P setting data entryCount e decoded) :
      Ends setting data entryCount e (ending P e decoded)

/-- These are the bytes an entry stands for. -/
structure Contents (crc : Crc32) (data : List UInt8) (e : Entry) (bytes : List UInt8) : Prop where
  size : bytes.length = e.decodedSize
  hashed : crc.hash bytes = e.crc
  decoded : match e.method with
    | .stored => bytes = entryData data e
    | .deflated => ∃ blocks last, decodeDeflate (entryData data e) 0 0 [] ({} : History) =
        .ok (⟨bytes⟩, blocks, last) ∧ (last + 7) / 8 = (entryData data e).length
    | .other => False

/-- What an entry that has been extracted is: a file with its bytes, its mode and its time, a link
with its target, or a directory, which is there from the start. -/
def Extracted (crc : Crc32) (data : List UInt8) (e : Entry) (node : Option EntryNode) : Prop :=
  match e.kind with
  | .directory => node = none
  | .symlink => ∃ bytes, Contents crc data e bytes ∧ node = some (.symlink bytes)
  | .file => ∃ bytes, Contents crc data e bytes ∧
      node = some (.file { stampedFile P e bytes with modified := e.modified })

/-- What the place of an entry holds at some stage of its extraction. -/
def Task.node {crc : Crc32} (e : Entry) : Task crc → Option EntryNode
  | .waiting => none
  | .decoding file _ => file.map fun _ => .file (openedFile P)
  | .written bytes => some (.file (writtenFile P bytes))
  | .stamping bytes => some (.file (stampedFile P e bytes))
  | .done node => node
  | .failed _ left => left

/-- The stages an entry can be at. -/
def Task.Fits {crc : Crc32} (setting : Setting crc) (data : List UInt8) (entryCount : Nat)
    (e : Entry) : Task crc → Prop
  | .waiting => True
  | .decoding file inner => skipped P e = (none : Option (Task crc)) ∧
      file = (if e.kind = .file then some e.path else none) ∧
      Reaches (InflateEntry setting data entryCount e) .opened inner
  | .written bytes | .stamping bytes => e.kind = .file ∧ Yields P setting data entryCount e (.ok bytes)
  | .done node => Ends P setting data entryCount e (.done node)
  | .failed error left => Ends P setting data entryCount e (.failed error left)

/-- What the entry at this path, if there is one that is no directory, has left there. -/
def found {crc : Crc32} (runs : List (Entry × Task crc)) (q : Path) : Option (Option EntryNode) :=
  runs.findSome? fun r =>
    if r.1.kind ≠ .directory ∧ r.1.path = q then some (r.2.node P r.1) else none

/-- The tree of an extraction: entries at their places, directories above them. -/
def treeOf {crc : Crc32} (runs : List (Entry × Task crc)) : FileSystem.Tree FileData := fun q =>
  (found P runs q).getD (Tree.ofDirs P.dirMode (dirPaths (runs.map Prod.fst)) q)

section Data

variable {P} {crc : Crc32} {setting : Setting crc} {data : List UInt8} {entryCount : Nat} {e : Entry}

private theorem decodeStoredEntry_eq_ok {compressed bytes : List UInt8}
    (h : decodeStoredEntry P crc compressed e = .ok bytes) :
    bytes = compressed ∧ bytes.length = e.decodedSize ∧ crc.hash bytes = e.crc := by
  obtain ⟨_, -, h⟩ := result_bind_eq_ok.mp h
  obtain ⟨_, -, h⟩ := result_bind_eq_ok.mp h
  obtain ⟨_, hcheck, heq⟩ := result_bind_eq_ok.mp h
  obtain rfl := Except.ok.inj heq
  obtain ⟨_, hsize, hcrc⟩ := result_bind_eq_ok.mp hcheck
  exact ⟨rfl, ensure_eq_ok.mp hsize, ensure_eq_ok.mp hcrc⟩

private theorem decodeDeflatedEntry_eq_ok {outcome : Outcome} {bytes : List UInt8}
    (h : decodeDeflatedEntry P e outcome = .ok bytes) :
    ∃ report, outcome = .ok (bytes, report) ∧ report.decodedLen = e.decodedSize ∧
      report.crc = e.crc := by
  cases outcome with
  | error error => cases h
  | ok found =>
    obtain ⟨output, report⟩ := found
    obtain ⟨_, hcheck, heq⟩ := result_bind_eq_ok.mp h
    obtain rfl := Except.ok.inj heq
    obtain ⟨_, hsize, hcrc⟩ := result_bind_eq_ok.mp hcheck
    exact ⟨report, rfl, ensure_eq_ok.mp hsize, ensure_eq_ok.mp hcrc⟩

private theorem Yields.contents {bytes : List UInt8}
    (yields : Yields P setting data entryCount e (.ok bytes)) : Contents crc data e bytes := by
  obtain ⟨inner, run, hdecode⟩ := yields
  unfold decodeEntry at hdecode
  split at hdecode
  case h_1 hmethod =>
    obtain ⟨hbytes, hsize, hcrc⟩ := decodeStoredEntry_eq_ok (Option.some.inj hdecode)
    refine ⟨hsize, hcrc, ?_⟩
    rw [hmethod]
    exact hbytes
  case h_2 outcome hmethod =>
    obtain ⟨report, rfl, hsize, hcrc⟩ := decodeDeflatedEntry_eq_ok (Option.some.inj hdecode)
    obtain ⟨hhistory, hlength, hhash⟩ := (inflates_of_run run).decodes
    refine ⟨hlength.symm.trans hsize, hhash.symm.trans hcrc, ?_⟩
    rw [hmethod]
    exact hhistory
  case h_3 => cases hdecode
  case h_4 => cases Option.some.inj hdecode

theorem Yields.unique {decoded decoded' : Result (List UInt8)}
    (yields : Yields P setting data entryCount e decoded)
    (yields' : Yields P setting data entryCount e decoded') : decoded = decoded' := by
  obtain ⟨inner, run, hdecode⟩ := yields
  obtain ⟨inner', run', hdecode'⟩ := yields'
  unfold decodeEntry at hdecode hdecode'
  cases hmethod : e.method with
  | stored | other =>
    simp only [hmethod] at hdecode hdecode'
    exact Option.some.inj (hdecode.symm.trans hdecode')
  | deflated =>
    simp only [hmethod] at hdecode hdecode'
    cases inner with
    | opened | parallel => cases hdecode
    | done outcome =>
      cases inner' with
      | opened | parallel => cases hdecode'
      | done outcome' =>
        obtain rfl := (inflates_of_run run).unique (inflates_of_run run')
        exact Option.some.inj (hdecode.symm.trans hdecode')

theorem Ends.unique {task task' : Task crc} (ends : Ends P setting data entryCount e task)
    (ends' : Ends P setting data entryCount e task') : task = task' := by
  cases ends with
  | early h =>
    cases ends' with
    | early h' => exact Option.some.inj (h.symm.trans h')
    | decoded needed => cases needed.symm.trans h
  | decoded needed yields =>
    cases ends' with
    | early h' => cases needed.symm.trans h'
    | decoded _ yields' => rw [yields.unique yields']

theorem not_directory (needed : skipped P e = (none : Option (Task crc))) :
    e.kind ≠ .directory := by
  intro hkind
  simp [skipped, hkind] at needed

theorem Ends.extracted {node : Option EntryNode}
    (ends : Ends P setting data entryCount e (.done node)) : Extracted P crc data e node := by
  generalize htask : Task.done node = task at ends
  cases ends with
  | early h =>
    subst htask
    cases hkind : e.kind with
    | directory =>
      simp only [skipped, hkind, Option.some.injEq, Task.done.injEq] at h
      simp [Extracted, hkind, h]
    | symlink =>
      simp only [skipped, hkind] at h
      split at h <;> cases h
    | file => simp [skipped, hkind] at h
  | @decoded decoded needed yields =>
    have hdirectory := not_directory needed
    cases decoded with
    | error error => cases htask
    | ok bytes =>
      have hcontents := yields.contents
      cases hkind : e.kind with
      | directory => exact absurd hkind hdirectory
      | symlink =>
        simp only [ending, hkind, reduceCtorEq, if_false] at htask
        split at htask
        · cases htask
        · simp only [Extracted, hkind]
          exact ⟨bytes, hcontents, Task.done.inj htask⟩
      | file =>
        simp only [ending, hkind, if_true] at htask
        split at htask
        · cases htask
        · simp only [Extracted, hkind]
          exact ⟨bytes, hcontents, Task.done.inj htask⟩

end Data

section Trees

variable {P} {crc : Crc32} {pre post : List (Entry × Task crc)} {e : Entry} {t t' : Task crc}

private theorem found_ne {q : Path} (ne : e.kind = .directory ∨ e.path ≠ q) :
    found P (pre ++ (e, t) :: post) q = found P (pre ++ post) q := by
  have hhead : ¬ (e.kind ≠ .directory ∧ e.path = q) := fun h => ne.elim h.1 fun hne => hne h.2
  simp only [found, List.findSome?_append, List.findSome?_cons, if_neg hhead]

private theorem found_self (file : e.kind ≠ .directory)
    (nodup : ((pre ++ (e, t) :: post).map fun r => r.1.path).Nodup) :
    found P (pre ++ (e, t) :: post) e.path = some (t.node P e) := by
  have hpre : pre.findSome? (fun r => if r.1.kind ≠ .directory ∧ r.1.path = e.path then
      some (r.2.node P r.1) else none) = none := by
    refine List.findSome?_eq_none_iff.mpr fun r hr => if_neg fun h => ?_
    rw [List.map_append, List.map_cons, List.nodup_append] at nodup
    exact nodup.2.2 r.1.path (List.mem_map_of_mem (f := fun r : Entry × Task crc => r.1.path) hr)
      e.path List.mem_cons_self h.2
  rw [found, List.findSome?_append, hpre, List.findSome?_cons, if_pos ⟨file, rfl⟩]
  rfl

private theorem treeOf_set (file : e.kind ≠ .directory)
    (nodup : ((pre ++ (e, t) :: post).map fun r => r.1.path).Nodup) :
    treeOf P (pre ++ (e, t') :: post) =
      (treeOf P (pre ++ (e, t) :: post)).set e.path (t'.node P e) := by
  have hnodup : ((pre ++ (e, t') :: post).map fun r => r.1.path).Nodup := by
    simpa using nodup
  funext q
  by_cases heq : q = e.path
  · subst heq
    rw [Tree.set_self, treeOf, found_self file hnodup]
    rfl
  · rw [Tree.set_ne _ heq, treeOf, treeOf, found_ne (.inr fun h => heq h.symm),
      found_ne (.inr fun h => heq h.symm)]
    simp

private theorem treeOf_directory (dir : e.kind = .directory) :
    treeOf P (pre ++ (e, t') :: post) = treeOf P (pre ++ (e, t) :: post) := by
  funext q
  rw [treeOf, treeOf, found_ne (.inl dir), found_ne (.inl dir)]
  simp

end Trees

section Places

variable {P} {crc : Crc32} {entries : List Entry} {runs : List (Entry × Task crc)} {e : Entry}

private theorem eq_of_path_eq {e' : Entry} (layout : Layout entries) (he : e ∈ entries)
    (he' : e' ∈ entries) (heq : e.path = e'.path) : e = e' :=
  List.inj_on_of_nodup_map layout.nodup he he' heq

theorem place_free (layout : Layout entries) (he : e ∈ entries) (file : e.kind ≠ .directory) :
    ¬ (e.path = [] ∨ ∃ p ∈ dirPaths entries, e.path <+: p) := by
  rintro (h | ⟨p, hp, le⟩)
  · exact layout.nonempty e he h
  · obtain ⟨e', he', rfl⟩ := List.mem_map.mp hp
    split at le
    case isTrue hdir =>
      have := eq_of_path_eq layout he he' (layout.clear e he file e' he' le)
      exact file (this ▸ hdir)
    case isFalse =>
      have heq := layout.clear e he file e' he' (le.trans (List.dropLast_prefix _))
      have hlen := le.length_le
      have hpos := List.length_pos_of_ne_nil (layout.nonempty e' he')
      rw [heq, List.length_dropLast] at hlen
      omega

private theorem treeOf_rooted (layout : Layout (runs.map Prod.fst)) (he : e ∈ runs.map Prod.fst)
    (file : e.kind ≠ .directory) : (treeOf P runs).Rooted e.path := by
  intro q le ne
  have hnone : found P runs q = none := by
    refine List.findSome?_eq_none_iff.mpr fun r hr => if_neg fun h => ?_
    have := layout.clear r.1 (List.mem_map_of_mem hr) h.1 e he (h.2 ▸ le)
    exact ne (h.2.symm.trans this)
  rw [treeOf, hnone, Option.getD_none, Tree.ofDirs_of_mem]
  · rfl
  · refine .inr ⟨e.path.dropLast, List.mem_map.mpr ⟨e, he, if_neg file⟩, ?_⟩
    refine List.prefix_of_prefix_length_le le (List.dropLast_prefix _) ?_
    have hlt : q.length < e.path.length := lt_of_le_of_ne le.length_le fun h => ne (le.eq_of_length h)
    rw [List.length_dropLast]
    omega

private theorem runs_nodup (layout : Layout (runs.map Prod.fst)) :
    (runs.map fun r => r.1.path).Nodup := by
  have := layout.nodup
  rwa [List.map_map] at this

theorem treeOf_self {pre post : List (Entry × Task crc)} {t : Task crc}
    (layout : Layout ((pre ++ (e, t) :: post).map Prod.fst)) (file : e.kind ≠ .directory) :
    treeOf P (pre ++ (e, t) :: post) e.path = t.node P e := by
  rw [treeOf, found_self file (runs_nodup layout)]
  rfl

end Places

section Steps

variable {P} {crc : Crc32} {setting : Setting crc} {data : List UInt8} {entryCount : Nat}
  {pre post : List (Entry × Task crc)} {e : Entry} {t t' : Task crc}
  {fs' : FileSystem.Tree FileData}

private theorem treeOf_next (layout : Layout ((pre ++ (e, t) :: post).map Prod.fst))
    (file : e.kind ≠ .directory)
    (here : fs' = (treeOf P (pre ++ (e, t) :: post)).set e.path (t'.node P e)) :
    fs' = treeOf P (pre ++ (e, t') :: post) :=
  here.trans (treeOf_set file (runs_nodup layout)).symm

theorem treeOf_same (layout : Layout ((pre ++ (e, t) :: post).map Prod.fst))
    (file : e.kind ≠ .directory) (same : t'.node P e = t.node P e) :
    treeOf P (pre ++ (e, t) :: post) = treeOf P (pre ++ (e, t') :: post) := by
  refine treeOf_next layout file (funext fun q => ?_)
  by_cases h : q = e.path
  · rw [h, Tree.set_self, treeOf_self layout file, same]
  · rw [Tree.set_ne _ h]

private theorem treeOf_add (layout : Layout ((pre ++ (e, t) :: post).map Prod.fst))
    (file : e.kind ≠ .directory) (free : t.node P e = none) (node : EntryNode) :
    (treeOf P (pre ++ (e, t) :: post)).add e.path node =
      .ok ((treeOf P (pre ++ (e, t) :: post)).set e.path (some node)) := by
  have hmem : e ∈ (pre ++ (e, t) :: post).map Prod.fst := by simp
  rw [(treeOf_rooted layout hmem file).add (layout.nonempty e hmem), treeOf_self layout file, free]
  rfl

private theorem setMode_file {fs : FileSystem.Tree FileData} {path : Path} {bytes : List UInt8}
    (rooted : fs.Rooted path) (ne : path ≠ [])
    (file : fs path = some (.file (writtenFile P bytes))) (mode : Option Nat) :
    setMode fs path mode = .ok (fs.set path
      (some (.file ⟨some bytes, (mode.map (· &&& 0o7777)).getD P.fileMode, none⟩))) := by
  cases mode with
  | none =>
    refine congrArg Except.ok (funext fun q => ?_)
    by_cases h : q = path
    · rw [h, Tree.set_self, file]
      rfl
    · rw [Tree.set_ne _ h]
  | some mode => exact rooted.update_file ne file (chmod mode)

private theorem setModified_file {fs : FileSystem.Tree FileData} {path : Path} {content : FileData}
    (rooted : fs.Rooted path) (ne : path ≠ []) (file : fs path = some (.file content))
    (untouched : content.modified = none) (time : Option Int) :
    setModified P fs path time =
      match time.bind fun _ => P.openFault content.mode with
      | some error => .error (.io error)
      | none => .ok (fs.set path (some (.file { content with modified := time }))) := by
  cases time with
  | none =>
    refine congrArg Except.ok (funext fun q => ?_)
    by_cases h : q = path
    · rw [h, Tree.set_self, file, ← untouched]
    · rw [Tree.set_ne _ h]
  | some time =>
    rw [setModified, rooted.locate_file ne file]
    simp only [file, Option.bind_some, reopenFault]
    cases P.openFault content.mode with
    | some error => rfl
    | none =>
      simp only [rooted.update_file ne file]
      rfl

private theorem advance_waiting (layout : Layout ((pre ++ (e, .waiting) :: post).map Prod.fst))
    (next : advance P data (treeOf P (pre ++ (e, .waiting) :: post)) e .waiting = some (fs', t')) :
    fs' = treeOf P (pre ++ (e, t') :: post) ∧ t'.Fits P setting data entryCount e := by
  have hmem : e ∈ (pre ++ (e, (Task.waiting : Task crc)) :: post).map Prod.fst := by simp
  have hne := layout.nonempty e hmem
  simp only [advance, Option.some.injEq] at next
  cases hkind : e.kind with
  | directory =>
    rw [hkind] at next
    obtain ⟨rfl, rfl⟩ := Prod.mk.inj next
    exact ⟨(treeOf_directory hkind).symm, .early (by simp [skipped, hkind])⟩
  | symlink =>
    have file : e.kind ≠ .directory := by simp [hkind]
    simp only [hkind] at next
    split at next
    case isTrue large =>
      obtain ⟨rfl, rfl⟩ := Prod.mk.inj next
      exact ⟨treeOf_same layout file rfl, .early (by simp only [skipped, hkind, if_pos large])⟩
    case isFalse small =>
      obtain ⟨rfl, rfl⟩ := Prod.mk.inj next
      refine ⟨treeOf_same layout file rfl, ?_, ?_, .refl⟩
      · simp only [skipped, hkind, if_neg small]
      · simp [hkind]
  | file =>
    have file : e.kind ≠ .directory := by simp [hkind]
    simp only [hkind, (treeOf_rooted layout hmem file).place hne,
      treeOf_add layout file rfl] at next
    obtain ⟨rfl, rfl⟩ := Prod.mk.inj next
    exact ⟨treeOf_next layout file rfl, by simp [skipped, hkind], by simp [hkind], .refl⟩

private theorem advance_file {inner : Inflation crc}
    (layout : Layout ((pre ++ (e, .decoding (some e.path) inner) :: post).map Prod.fst))
    (kind : e.kind = .file) (needed : skipped P e = (none : Option (Task crc)))
    (run : Reaches (InflateEntry setting data entryCount e) .opened inner)
    (next : advance P data (treeOf P (pre ++ (e, .decoding (some e.path) inner) :: post)) e
      (.decoding (some e.path) inner) = some (fs', t')) :
    fs' = treeOf P (pre ++ (e, t') :: post) ∧ t'.Fits P setting data entryCount e := by
  have file : e.kind ≠ .directory := by simp [kind]
  have here : treeOf P (pre ++ (e, .decoding (some e.path) inner) :: post) e.path =
      some (.file (openedFile P)) := treeOf_self layout file
  rw [advance] at next
  cases hdecode : decodeEntry P data e inner with
  | none => simp [hdecode] at next
  | some decoded =>
    have hends := @Ends.decoded P crc setting data entryCount e _ needed ⟨inner, run, hdecode⟩
    cases decoded with
    | error error =>
      simp only [hdecode, Option.bind_some, here, Option.some.injEq] at next
      obtain ⟨rfl, rfl⟩ := Prod.mk.inj next
      simp only [ending, if_pos kind] at hends
      exact ⟨treeOf_same layout file rfl, hends⟩
    | ok bytes =>
      simp only [hdecode, fillFile, here, Option.some.injEq] at next
      obtain ⟨rfl, rfl⟩ := Prod.mk.inj next
      exact ⟨treeOf_next layout file rfl, kind, inner, run, hdecode⟩

/-- The target of a link has been decoded. -/
theorem advance_link {inner : Inflation crc}
    (layout : Layout ((pre ++ (e, .decoding none inner) :: post).map Prod.fst))
    (kind : e.kind ≠ .file) (needed : skipped P e = (none : Option (Task crc)))
    (run : Reaches (InflateEntry setting data entryCount e) .opened inner)
    (next : advance P data (treeOf P (pre ++ (e, .decoding none inner) :: post)) e
      (.decoding none inner) = some (fs', t')) :
    fs' = treeOf P (pre ++ (e, t') :: post) ∧ t'.Fits P setting data entryCount e := by
  have file := not_directory needed
  rw [advance] at next
  cases hdecode : decodeEntry P data e inner with
  | none => simp [hdecode] at next
  | some decoded =>
    have hends := @Ends.decoded P crc setting data entryCount e _ needed ⟨inner, run, hdecode⟩
    cases decoded with
    | error error =>
      simp only [hdecode, Option.bind_none, Option.some.injEq] at next
      obtain ⟨rfl, rfl⟩ := Prod.mk.inj next
      simp only [ending, if_neg kind] at hends
      exact ⟨treeOf_same layout file rfl, hends⟩
    | ok bytes =>
      simp only [ending, if_neg kind] at hends
      cases hallow : allowTarget P e bytes with
      | error error =>
        simp only [hdecode, hallow, Option.some.injEq] at next
        obtain ⟨rfl, rfl⟩ := Prod.mk.inj next
        simp only [hallow] at hends
        exact ⟨treeOf_same layout file rfl, hends⟩
      | ok u =>
        simp only [hdecode, hallow, treeOf_add layout file rfl, Option.some.injEq] at next
        obtain ⟨rfl, rfl⟩ := Prod.mk.inj next
        simp only [hallow] at hends
        exact ⟨treeOf_next layout file rfl, hends⟩

private theorem advance_written {bytes : List UInt8}
    (layout : Layout ((pre ++ (e, .written bytes) :: post).map Prod.fst))
    (fits : (Task.written bytes : Task crc).Fits P setting data entryCount e)
    (next : advance P data (treeOf P (pre ++ (e, .written bytes) :: post)) e (.written bytes) =
      some (fs', t')) :
    fs' = treeOf P (pre ++ (e, t') :: post) ∧ t'.Fits P setting data entryCount e := by
  have hmem : e ∈ (pre ++ (e, (Task.written bytes : Task crc)) :: post).map Prod.fst := by simp
  obtain ⟨kind, yields⟩ := fits
  have file : e.kind ≠ .directory := by simp [kind]
  have here : treeOf P (pre ++ (e, .written bytes) :: post) e.path =
      some (.file (writtenFile P bytes)) := treeOf_self layout file
  have hmode := setMode_file (treeOf_rooted layout hmem file) (layout.nonempty e hmem) here e.mode
  simp only [advance, hmode, Option.some.injEq] at next
  obtain ⟨rfl, rfl⟩ := Prod.mk.inj next
  exact ⟨treeOf_next layout file rfl, kind, yields⟩

private theorem advance_stamping {bytes : List UInt8}
    (layout : Layout ((pre ++ (e, .stamping bytes) :: post).map Prod.fst))
    (fits : (Task.stamping bytes : Task crc).Fits P setting data entryCount e)
    (next : advance P data (treeOf P (pre ++ (e, .stamping bytes) :: post)) e (.stamping bytes) =
      some (fs', t')) :
    fs' = treeOf P (pre ++ (e, t') :: post) ∧ t'.Fits P setting data entryCount e := by
  have hmem : e ∈ (pre ++ (e, (Task.stamping bytes : Task crc)) :: post).map Prod.fst := by simp
  obtain ⟨kind, yields⟩ := fits
  have file : e.kind ≠ .directory := by simp [kind]
  have here : treeOf P (pre ++ (e, .stamping bytes) :: post) e.path =
      some (.file (stampedFile P e bytes)) := treeOf_self layout file
  have htime := @setModified_file P _ _ _ (treeOf_rooted layout hmem file)
    (layout.nonempty e hmem) here rfl e.modified
  have hends := @Ends.decoded P crc setting data entryCount e _ (by simp [skipped, kind]) yields
  simp only [ending, if_pos kind] at hends
  simp only [advance, htime] at next
  cases hfault : e.modified.bind fun _ => P.openFault (stampedFile P e bytes).mode with
  | some error =>
    simp only [hfault, here, Option.some.injEq] at next hends
    obtain ⟨rfl, rfl⟩ := Prod.mk.inj next
    exact ⟨treeOf_same layout file rfl, hends⟩
  | none =>
    simp only [hfault, Tree.set_self, Option.some.injEq] at next hends
    obtain ⟨rfl, rfl⟩ := Prod.mk.inj next
    exact ⟨treeOf_next layout file rfl, hends⟩

theorem advance_fits (layout : Layout ((pre ++ (e, t) :: post).map Prod.fst))
    (fits : t.Fits P setting data entryCount e)
    (next : advance P data (treeOf P (pre ++ (e, t) :: post)) e t = some (fs', t')) :
    fs' = treeOf P (pre ++ (e, t') :: post) ∧ t'.Fits P setting data entryCount e := by
  cases t with
  | waiting => exact advance_waiting layout next
  | decoding file inner =>
    obtain ⟨needed, hfile, run⟩ := fits
    by_cases kind : e.kind = .file
    · rw [if_pos kind] at hfile
      subst hfile
      exact advance_file layout kind needed run next
    · rw [if_neg kind] at hfile
      subst hfile
      exact advance_link layout kind needed run next
  | written bytes => exact advance_written layout fits next
  | stamping bytes => exact advance_stamping layout fits next
  | done | failed => cases next

end Steps

end Fbz.Extract
