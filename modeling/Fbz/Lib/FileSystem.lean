import Mathlib.Data.List.Infix
import Fbz.Lib.FileTree

/-!
# File systems by path

A file system as a map from paths below some root directory to what they hold, with the calls that
add to it. Paths are resolved the way a Unix kernel does: symbolic links on the way are followed
first, and `..` is applied to the directory reached. Leaving the root is an outcome of its own.
-/

namespace Fbz.FileSystem

open FileTree

variable {F : Type}

/-- Bytes of one name. -/
abbrev Name := List UInt8

/-- A path below the root. -/
abbrev Path := List Name

inductive Component
  | root
  | cur
  | parent
  | normal (name : Name)
  deriving DecidableEq, Repr

/-- Split at every slash. -/
def splitSlash : List UInt8 → List Name
  | [] => [[]]
  | byte :: rest =>
    if byte = 47 then [] :: splitSlash rest
    else match splitSlash rest with
      | [] => [[byte]]
      | name :: names => (byte :: name) :: names

/-- Empty names and dots inside a path say nothing. -/
def component : Name → Option Component
  | [] => none
  | [46] => none
  | [46, 46] => some .parent
  | name => some (.normal name)

/-- `Path::components`. -/
def components (bytes : List UInt8) : List Component :=
  let body := (splitSlash bytes).filterMap component
  if bytes.head? = some 47 then .root :: body
  else if (splitSlash bytes).head? = some [46] then .cur :: body
  else body

abbrev Tree (F : Type) := Path → Option (Kind F (List UInt8))

/-- Why a call fails. -/
inductive Fault
  | notFound
  | notADirectory
  | alreadyExists
  | tooManyLinks
  | outside
  deriving DecidableEq, Repr

/-- Resolution up to the next symbolic link, which `follow` goes on from. -/
def walkWith (follow : Path → List Component → Except Fault Path) (fs : Tree F) (here : Path) :
    List Component → Except Fault Path
  | [] => .ok here
  | .root :: _ => .error .outside
  | .cur :: rest => walkWith follow fs here rest
  | .parent :: rest => if here = [] then .error .outside else walkWith follow fs here.dropLast rest
  | .normal name :: rest =>
    match fs (here ++ [name]) with
    | none => .error .notFound
    | some (.symlink target) => follow here (components target ++ rest)
    | some (.dir _) => walkWith follow fs (here ++ [name]) rest
    | some (.file _) => if rest = [] then .ok (here ++ [name]) else .error .notADirectory

/-- Where a path leads from `here`, following at most so many links. -/
def walk (fs : Tree F) : Nat → Path → List Component → Except Fault Path
  | 0 => walkWith (fun _ _ => .error .tooManyLinks) fs
  | links + 1 => walkWith (walk fs links) fs

/-- Links a kernel follows in one resolution. -/
def maxLinks : Nat := 40

namespace Tree

def set (fs : Tree F) (path : Path) (node : Option (Kind F (List UInt8))) : Tree F :=
  fun q => if q = path then node else fs q

/-- The place a path leads to, links at its end included. -/
def locate (fs : Tree F) (path : Path) : Except Fault Path :=
  walk fs maxLinks [] (path.map .normal)

def isDir (fs : Tree F) (path : Path) : Bool :=
  match fs.locate path with
  | .ok place => (fs place).any Kind.isDir
  | .error _ => false

/-- The directory a path lies in. -/
def parent (fs : Tree F) (path : Path) : Except Fault Path :=
  match fs.locate path.dropLast with
  | .ok place => if (fs place).any Kind.isDir then .ok place else .error .notADirectory
  | .error fault => .error fault

/-- Where a new node of this path goes. -/
def place (fs : Tree F) (path : Path) : Except Fault Path :=
  match path.getLast? with
  | none => .error .alreadyExists
  | some name =>
    match fs.parent path with
    | .error fault => .error fault
    | .ok dir => .ok (dir ++ [name])

/-- Add a new node at a path. -/
def add (fs : Tree F) (path : Path) (node : Kind F (List UInt8)) : Except Fault (Tree F) :=
  match fs.place path with
  | .error fault => .error fault
  | .ok place =>
    if (fs place).isSome then .error .alreadyExists else .ok (fs.set place (some node))

/-- Change what a path leads to. -/
def update (fs : Tree F) (path : Path) (change : Kind F (List UInt8) → Kind F (List UInt8)) :
    Except Fault (Tree F) :=
  match fs.locate path with
  | .error fault => .error fault
  | .ok place =>
    match fs place with
    | none => .error .notFound
    | some node => .ok (fs.set place (some (change node)))

/-- `create_dir_all`: a missing parent is created first. -/
def createDirAll (fs : Tree F) (mode : Nat) (path : Path) : Except Fault (Tree F) :=
  match fs.add path (.dir mode) with
  | .ok fs' => .ok fs'
  | .error .notFound =>
    if path = [] then .error .notFound
    else match createDirAll fs mode path.dropLast with
      | .error fault => .error fault
      | .ok fs' =>
        match fs'.add path (.dir mode) with
        | .ok fs'' => .ok fs''
        | .error fault => if fs'.isDir path then .ok fs' else .error fault
  | .error fault => if fs.isDir path then .ok fs else .error fault
termination_by path.length
decreasing_by
  rename_i hne
  simp only [List.length_dropLast]
  have := List.length_pos_of_ne_nil hne
  omega

/-- The tree of some directories and all above them. -/
def ofDirs (mode : Nat) (paths : List Path) : Tree F := fun q =>
  if q = [] ∨ ∃ p ∈ paths, q <+: p then some (.dir mode) else none

end Tree

section Walk

variable {follow : Path → List Component → Except Fault Path} {fs : Tree F}

/-- Through directories a path leads where it says. -/
theorem walkWith_dirs (names : List Name) (here : Path)
    (dirs : ∀ q, q ≠ [] → q <+: names → (fs (here ++ q)).any Kind.isDir = true) :
    walkWith follow fs here (names.map .normal) = .ok (here ++ names) := by
  induction names generalizing here with
  | nil => simp [walkWith]
  | cons name names ih =>
    have hfirst := dirs [name] (by simp) ⟨names, rfl⟩
    have hrest := ih (here ++ [name]) fun q hne hq => by
      have := dirs (name :: q) (by simp) ((List.cons_prefix_cons).mpr ⟨rfl, hq⟩)
      simpa using this
    rw [List.map_cons, walkWith]
    cases hnode : fs (here ++ [name]) with
    | none => simp [hnode] at hfirst
    | some node =>
      cases node with
      | file | symlink => simp [hnode, Kind.isDir] at hfirst
      | dir mode => simpa using hrest

theorem walk_dirs {links : Nat} {names : List Name} {here : Path}
    (dirs : ∀ q, q ≠ [] → q <+: names → (fs (here ++ q)).any Kind.isDir = true) :
    walk fs links here (names.map .normal) = .ok (here ++ names) := by
  cases links <;> exact walkWith_dirs names here dirs

/-- The last name may be a file. -/
theorem walkWith_file (names : List Name) (here : Path) (name : Name) {content : F}
    (dirs : ∀ q, q ≠ [] → q <+: names → (fs (here ++ q)).any Kind.isDir = true)
    (file : fs (here ++ names ++ [name]) = some (.file content)) :
    walkWith follow fs here ((names ++ [name]).map .normal) = .ok (here ++ names ++ [name]) := by
  induction names generalizing here with
  | nil =>
    simp only [List.append_nil, List.nil_append, List.map_cons, List.map_nil, walkWith] at file ⊢
    simp [file]
  | cons first names ih =>
    have hfirst := dirs [first] (by simp) ⟨names, rfl⟩
    have hrest := ih (here ++ [first]) (fun q hne hq => by
      have := dirs (first :: q) (by simp) ((List.cons_prefix_cons).mpr ⟨rfl, hq⟩)
      simpa using this) (by simpa using file)
    rw [List.cons_append, List.map_cons, walkWith]
    cases hnode : fs (here ++ [first]) with
    | none => simp [hnode] at hfirst
    | some node =>
      cases node with
      | file | symlink => simp [hnode, Kind.isDir] at hfirst
      | dir mode => simpa using hrest

end Walk

namespace Tree

section Add

variable {fs : Tree F} {path : Path}

@[simp] theorem set_self (node : Option (Kind F (List UInt8))) : fs.set path node path = node :=
  if_pos rfl

theorem set_ne {q : Path} (node : Option (Kind F (List UInt8))) (ne : q ≠ path) :
    fs.set path node q = fs q := if_neg ne

/-- All proper prefixes of the path are directories. -/
def Rooted (fs : Tree F) (path : Path) : Prop :=
  ∀ q, q <+: path → q ≠ path → (fs q).any Kind.isDir = true

theorem Rooted.dropLast (rooted : fs.Rooted path) (ne : path ≠ []) {q : Path}
    (le : q <+: path.dropLast) : (fs q).any Kind.isDir = true := by
  refine rooted q (le.trans (List.dropLast_prefix path)) fun heq => ?_
  have hle := le.length_le
  have hpos := List.length_pos_of_ne_nil ne
  rw [heq, List.length_dropLast] at hle
  omega

theorem Rooted.parent (rooted : fs.Rooted path) (ne : path ≠ []) :
    fs.parent path = .ok path.dropLast := by
  have hlocate : fs.locate path.dropLast = .ok path.dropLast :=
    walk_dirs fun q _ hq => rooted.dropLast ne hq
  rw [Tree.parent, hlocate]
  simp only [rooted.dropLast ne (List.prefix_refl _), if_true]

theorem Rooted.place (rooted : fs.Rooted path) (ne : path ≠ []) : fs.place path = .ok path := by
  rw [Tree.place, List.getLast?_eq_some_getLast ne]
  simp only [rooted.parent ne]
  rw [List.dropLast_append_getLast ne]

/-- Below directories, a call fails only if the path is taken. -/
theorem Rooted.add (rooted : fs.Rooted path) (ne : path ≠ []) (node : Kind F (List UInt8)) :
    fs.add path node =
      if (fs path).isSome then .error .alreadyExists else .ok (fs.set path (some node)) := by
  rw [Tree.add, rooted.place ne]

theorem Rooted.locate_file {content : F} (rooted : fs.Rooted path) (ne : path ≠ [])
    (file : fs path = some (.file content)) : fs.locate path = .ok path := by
  have hsplit := List.dropLast_append_getLast ne
  have hdirs : ∀ q, q ≠ [] → q <+: path.dropLast → (fs ([] ++ q)).any Kind.isDir = true :=
    fun q _ hq => rooted.dropLast ne hq
  have hwalk := @walkWith_file F (walk fs 39) fs path.dropLast [] (path.getLast ne) content hdirs
    (by rw [List.nil_append, hsplit]; exact file)
  rw [List.nil_append, hsplit] at hwalk
  exact hwalk

theorem Rooted.update_file {content : F} (rooted : fs.Rooted path) (ne : path ≠ [])
    (file : fs path = some (.file content))
    (change : Kind F (List UInt8) → Kind F (List UInt8)) :
    fs.update path change = .ok (fs.set path (some (change (.file content)))) := by
  rw [Tree.update, rooted.locate_file ne file]
  simp only [file]

end Add

section Directories

variable {mode : Nat} {paths : List Path} {path q : Path}

theorem ofDirs_isSome : (ofDirs mode paths q : Option (Kind F (List UInt8))).isSome = true ↔
    q = [] ∨ ∃ p ∈ paths, q <+: p := by
  unfold ofDirs
  split <;> simp_all

theorem ofDirs_of_mem (h : q = [] ∨ ∃ p ∈ paths, q <+: p) :
    (ofDirs mode paths : Tree F) q = some (.dir mode) := if_pos h

theorem ofDirs_of_not_mem (h : ¬ (q = [] ∨ ∃ p ∈ paths, q <+: p)) :
    (ofDirs mode paths : Tree F) q = none := if_neg h

theorem ofDirs_congr {paths' : List Path}
    (h : ∀ q : Path, (q = [] ∨ ∃ p ∈ paths, q <+: p) ↔ q = [] ∨ ∃ p ∈ paths', q <+: p) :
    (ofDirs mode paths : Tree F) = ofDirs mode paths' := by
  funext q
  simp only [ofDirs, h q]

theorem below_of_prefix {r : Path} (h : q = [] ∨ ∃ p ∈ paths, q <+: p) (le : r <+: q) :
    r = [] ∨ ∃ p ∈ paths, r <+: p := by
  rcases h with rfl | ⟨p, hp, hq⟩
  · exact .inl (List.prefix_nil.mp le)
  · exact .inr ⟨p, hp, le.trans hq⟩

/-- Among directories a path is either there or missing. -/
theorem walkWith_ofDirs {follow : Path → List Component → Except Fault Path} (names : List Name)
    (here : Path) (start : here = [] ∨ ∃ p ∈ paths, here <+: p) :
    walkWith follow (ofDirs mode paths : Tree F) here (names.map .normal) =
      if here ++ names = [] ∨ ∃ p ∈ paths, here ++ names <+: p then .ok (here ++ names)
      else .error .notFound := by
  induction names generalizing here with
  | nil => simp only [List.append_nil, List.map_nil, walkWith, if_pos start]
  | cons name names ih =>
    have hassoc : here ++ name :: names = here ++ [name] ++ names := by simp
    rw [List.map_cons, walkWith, hassoc]
    by_cases hmem : here ++ [name] = [] ∨ ∃ p ∈ paths, here ++ [name] <+: p
    · rw [ofDirs_of_mem hmem]
      exact ih (here ++ [name]) hmem
    · rw [ofDirs_of_not_mem hmem]
      exact (if_neg fun h => hmem ( below_of_prefix h (List.prefix_append _ _))).symm

theorem locate_ofDirs :
    (ofDirs mode paths : Tree F).locate path =
      if path = [] ∨ ∃ p ∈ paths, path <+: p then .ok path else .error .notFound :=
  walkWith_ofDirs path [] (.inl rfl)

theorem rooted_ofDirs (h : path.dropLast = [] ∨ ∃ p ∈ paths, path.dropLast <+: p) :
    (ofDirs mode paths : Tree F).Rooted path := by
  intro q hq hne
  rw [ofDirs_of_mem]
  · rfl
  · refine below_of_prefix h (List.prefix_of_prefix_length_le hq (List.dropLast_prefix path) ?_)
    have hlt : q.length < path.length := lt_of_le_of_ne hq.length_le fun heq =>
      hne (hq.eq_of_length heq)
    rw [List.length_dropLast]
    omega

/-- Adding a directory next to those there. -/
theorem add_ofDirs (ne : path ≠ [])
    (h : path.dropLast = [] ∨ ∃ p ∈ paths, path.dropLast <+: p) :
    (∃ p ∈ paths, path <+: p) ∧
        (ofDirs mode paths : Tree F).add path (.dir mode) = .error .alreadyExists ∨
      (ofDirs mode paths : Tree F).add path (.dir mode) = .ok (ofDirs mode (path :: paths)) := by
  rw [(rooted_ofDirs h).add ne]
  by_cases hmem : path = [] ∨ ∃ p ∈ paths, path <+: p
  · rw [if_pos (ofDirs_isSome.mpr hmem)]
    exact .inl ⟨hmem.resolve_left ne, rfl⟩
  · rw [if_neg (fun hs => hmem (ofDirs_isSome.mp hs))]
    refine .inr (congrArg Except.ok (funext fun q => ?_))
    by_cases heq : q = path
    · subst heq
      rw [set_self, ofDirs_of_mem (.inr ⟨q, by simp, List.prefix_refl q⟩)]
    · rw [set_ne _ heq]
      have hiff : (q = [] ∨ ∃ p ∈ paths, q <+: p) ↔ (q = [] ∨ ∃ p ∈ path :: paths, q <+: p) := by
        refine ⟨fun hq => hq.imp id fun ⟨p, hp, hle⟩ => ⟨p, List.mem_cons_of_mem _ hp, hle⟩,
          fun hq => ?_⟩
        rcases hq with hq | ⟨p, hp, hle⟩
        · exact .inl hq
        · rcases List.mem_cons.mp hp with rfl | hp
          · have hlt : q.length < p.length := lt_of_le_of_ne hle.length_le fun hlen =>
              heq (hle.eq_of_length hlen)
            refine below_of_prefix h (List.prefix_of_prefix_length_le hle
              (List.dropLast_prefix p) ?_)
            rw [List.length_dropLast]
            omega
          · exact .inr ⟨p, hp, hle⟩
      simp only [ofDirs, hiff]

/-- A directory and what lies above it add nothing where the directory is there. -/
theorem ofDirs_cons_of_mem (h : path = [] ∨ ∃ p ∈ paths, path <+: p) :
    (ofDirs mode (path :: paths) : Tree F) = ofDirs mode paths := by
  refine ofDirs_congr fun q => ⟨fun hq => ?_, fun hq => hq.imp id fun ⟨p, hp, hle⟩ =>
    ⟨p, List.mem_cons_of_mem _ hp, hle⟩⟩
  rcases hq with hq | ⟨p, hp, hle⟩
  · exact .inl hq
  · rcases List.mem_cons.mp hp with rfl | hp
    · exact below_of_prefix h hle
    · exact .inr ⟨p, hp, hle⟩

theorem isDir_ofDirs (h : path = [] ∨ ∃ p ∈ paths, path <+: p) :
    (ofDirs mode paths : Tree F).isDir path = true := by
  rw [isDir, locate_ofDirs, if_pos h]
  simp only [ofDirs_of_mem h]
  rfl

theorem createDirAll_ofDirs (paths : List Path) (path : Path) :
    (ofDirs mode paths : Tree F).createDirAll mode path = .ok (ofDirs mode (path :: paths)) := by
  induction hlen : path.length generalizing path with
  | zero =>
    obtain rfl := List.eq_nil_of_length_eq_zero hlen
    have hadd : (ofDirs mode paths : Tree F).add [] (.dir mode) = .error .alreadyExists := rfl
    rw [createDirAll, hadd, ofDirs_cons_of_mem (.inl rfl)]
    simp only [@isDir_ofDirs F mode paths [] (.inl rfl), if_true]
  | succ n ih =>
    have hne : path ≠ [] := by
      rintro rfl
      cases hlen
    rw [createDirAll]
    by_cases hparent : path.dropLast = [] ∨ ∃ p ∈ paths, path.dropLast <+: p
    · rcases @add_ofDirs F mode paths path hne hparent with ⟨hmem, hadd⟩ | hadd
      · rw [hadd, ofDirs_cons_of_mem (.inr hmem)]
        simp only [@isDir_ofDirs F mode _ _ (.inr hmem), if_true]
      · rw [hadd]
    · have hadd : (ofDirs mode paths : Tree F).add path (.dir mode) = .error .notFound := by
        rw [add, place, List.getLast?_eq_some_getLast hne]
        simp only [Tree.parent, locate_ofDirs, if_neg hparent]
      rw [hadd]
      simp only [hne, if_false]
      rw [ih path.dropLast (by rw [List.length_dropLast]; omega)]
      have hself : path.dropLast = [] ∨ ∃ p ∈ path.dropLast :: paths, path.dropLast <+: p :=
        .inr ⟨_, List.mem_cons_self, List.prefix_refl _⟩
      have hsame : (ofDirs mode (path :: path.dropLast :: paths) : Tree F) =
          ofDirs mode (path :: paths) := by
        refine ofDirs_congr fun q => ⟨fun hq => hq.imp id fun ⟨p, hp, hle⟩ => ?_,
          fun hq => hq.imp id fun ⟨p, hp, hle⟩ => ?_⟩
        · rcases List.mem_cons.mp hp with rfl | hp
          · exact ⟨p, List.mem_cons_self, hle⟩
          · rcases List.mem_cons.mp hp with rfl | hp
            · exact ⟨path, List.mem_cons_self, hle.trans (List.dropLast_prefix path)⟩
            · exact ⟨p, List.mem_cons_of_mem _ hp, hle⟩
        · rcases List.mem_cons.mp hp with rfl | hp
          · exact ⟨p, List.mem_cons_self, hle⟩
          · exact ⟨p, List.mem_cons_of_mem _ (List.mem_cons_of_mem _ hp), hle⟩
      rcases @add_ofDirs F mode (path.dropLast :: paths) path hne hself with ⟨hmem, hadd⟩ | hadd
      · simp only [hadd, @isDir_ofDirs F mode _ _ (.inr hmem), if_true]
        rw [← hsame, ofDirs_cons_of_mem (.inr hmem)]
      · simp only [hadd, hsame]

end Directories

end Tree

end Fbz.FileSystem
