import Mathlib.Algebra.Order.Ring.Int
import Mathlib.Order.Defs.LinearOrder

/-!
# File trees

Directories as nested lists of entries, sorted by name, over arbitrary names, file contents and
link targets. A tree is read through its paths: what is at a path is a file, a symbolic link or a
directory, and links are not followed.
-/

namespace Fbz.FileTree

variable {N F L : Type}

mutual

inductive Node (N F L : Type)
  | file (content : F)
  | symlink (target : L)
  | dir (mode : Nat) (entries : Entries N F L)

inductive Entries (N F L : Type)
  | nil
  | cons (name : N) (node : Node N F L) (rest : Entries N F L)

end

/-- What a path names, without what lies below it. -/
inductive Kind (F L : Type)
  | file (content : F)
  | symlink (target : L)
  | dir (mode : Nat)

def Kind.isDir : Kind F L → Bool
  | .dir _ => true
  | .file _ | .symlink _ => false

def Node.kind : Node N F L → Kind F L
  | .file content => .file content
  | .symlink target => .symlink target
  | .dir mode _ => .dir mode

def Node.isDir (node : Node N F L) : Bool := node.kind.isDir

/-- Entries of a directory; other nodes have none. -/
def Node.entries : Node N F L → Entries N F L
  | .dir _ entries => entries
  | .file _ | .symlink _ => .nil

namespace Entries

/-- Every name is above `name`. -/
def Above (name : N) [LT N] : Entries N F L → Prop
  | .nil => True
  | .cons name' _ rest => name < name' ∧ rest.Above name

def lookup [DecidableEq N] (name : N) : Entries N F L → Option (Node N F L)
  | .nil => none
  | .cons name' node rest => if name = name' then some node else rest.lookup name

/-- Add an entry in front, if there is one. -/
def push (name : N) : Option (Node N F L) → Entries N F L → Entries N F L
  | some node, entries => .cons name node entries
  | none, entries => entries

/-- Set or remove the entry of this name. -/
def put [LinearOrder N] (name : N) (node : Option (Node N F L)) : Entries N F L → Entries N F L
  | .nil => push name node .nil
  | .cons name' node' rest =>
    if name < name' then push name node (.cons name' node' rest)
    else if name = name' then push name node rest
    else .cons name' node' (rest.put name node)

end Entries

mutual

/-- Names increase in every directory of the tree. -/
def Node.Sorted [LT N] : Node N F L → Prop
  | .file _ | .symlink _ => True
  | .dir _ entries => entries.Sorted

def Entries.Sorted [LT N] : Entries N F L → Prop
  | .nil => True
  | .cons name node rest => rest.Above name ∧ node.Sorted ∧ rest.Sorted

end

/-- What is at a path. -/
def Node.get [DecidableEq N] : List N → Node N F L → Option (Kind F L)
  | [], node => some node.kind
  | name :: path, node => (node.entries.lookup name).bind (Node.get path)

/-- What is at a path below a directory. -/
def Entries.get [DecidableEq N] (entries : Entries N F L) : List N → Option (Kind F L)
  | [] => none
  | name :: path => (entries.lookup name).bind (Node.get path)

section Lookup

variable [LinearOrder N]

@[simp] theorem Node.get_nil (node : Node N F L) : node.get [] = some node.kind := rfl

theorem Node.get_cons (node : Node N F L) (name : N) (path : List N) :
    node.get (name :: path) = node.entries.get (name :: path) := rfl

theorem Entries.get_cons (entries : Entries N F L) (name : N) (path : List N) :
    entries.get (name :: path) = (entries.lookup name).bind (Node.get path) := rfl

theorem Entries.lookup_cons (first name : N) (node : Node N F L) (rest : Entries N F L) :
    (Entries.cons first node rest).lookup name = if name = first then some node else rest.lookup name :=
  rfl

theorem Entries.put_nil (name : N) (node : Option (Node N F L)) :
    (Entries.nil : Entries N F L).put name node = Entries.push name node .nil := rfl

theorem Entries.put_cons (first name : N) (other : Node N F L) (rest : Entries N F L)
    (node : Option (Node N F L)) :
    (Entries.cons first other rest).put name node =
      if name < first then Entries.push name node (.cons first other rest)
      else if name = first then Entries.push name node rest
      else .cons first other (rest.put name node) := rfl

theorem Entries.Above.mono {name name' : N} {entries : Entries N F L} (h : entries.Above name) (le : name' ≤ name) :
    entries.Above name' := by
  cases entries with
  | nil => trivial
  | cons first node rest => exact ⟨lt_of_le_of_lt le h.1, h.2.mono le⟩

theorem Entries.Above.lookup_eq_none {name : N} {entries : Entries N F L}
    (h : entries.Above name) : entries.lookup name = none := by
  cases entries with
  | nil => rfl
  | cons first node rest =>
    rw [Entries.lookup_cons, if_neg (ne_of_lt h.1)]
    exact h.2.lookup_eq_none

theorem Entries.lookup_push {name name' : N} {entries : Entries N F L} (node : Option (Node N F L)) :
    (entries.push name node).lookup name' =
      if name' = name then node.or (entries.lookup name') else entries.lookup name' := by
  cases node with
  | none => simp [Entries.push]
  | some node => by_cases h : name' = name <;> simp [Entries.push, Entries.lookup_cons, h]

theorem Entries.lookup_put_ne {name name' : N} {entries : Entries N F L} (ne : name' ≠ name)
    (node : Option (Node N F L)) :
    (entries.put name node).lookup name' = entries.lookup name' := by
  cases entries with
  | nil => rw [Entries.put_nil, Entries.lookup_push, if_neg ne]
  | cons first other rest =>
    rw [Entries.put_cons]
    split
    · rw [Entries.lookup_push, if_neg ne]
    · split
      case isTrue _ heq =>
        rw [Entries.lookup_push, if_neg ne, Entries.lookup_cons, if_neg (heq ▸ ne)]
      case isFalse => rw [Entries.lookup_cons, Entries.lookup_cons, Entries.lookup_put_ne ne]

theorem Entries.lookup_put_self {name : N} {entries : Entries N F L} (sorted : entries.Sorted)
    (node : Option (Node N F L)) :
    (entries.put name node).lookup name = node := by
  cases entries with
  | nil =>
    rw [Entries.put_nil, Entries.lookup_push, if_pos rfl]
    exact Option.or_none
  | cons first other rest =>
    obtain ⟨habove, -, hrest⟩ := sorted
    rw [Entries.put_cons]
    split
    case isTrue hlt =>
      have hnone : (Entries.cons first other rest).lookup name = none := by
        rw [Entries.lookup_cons, if_neg (ne_of_lt hlt)]
        exact (habove.mono (le_of_lt hlt)).lookup_eq_none
      rw [Entries.lookup_push, if_pos rfl, hnone, Option.or_none]
    case isFalse hge =>
      split
      case isTrue heq =>
        rw [Entries.lookup_push, if_pos rfl, heq, habove.lookup_eq_none, Option.or_none]
      case isFalse hne => rw [Entries.lookup_cons, if_neg hne, Entries.lookup_put_self hrest]

theorem Entries.Sorted.lookup {name : N} {entries : Entries N F L} {node : Node N F L}
    (sorted : entries.Sorted) (h : entries.lookup name = some node) : node.Sorted := by
  cases entries with
  | nil => cases h
  | cons first other rest =>
    obtain ⟨-, hnode, hrest⟩ := sorted
    rw [Entries.lookup_cons] at h
    split at h
    · exact Option.some.inj h ▸ hnode
    · exact hrest.lookup h

theorem Entries.Above.put {low name : N} {entries : Entries N F L} (above : entries.Above low)
    (lt : low < name) (node : Option (Node N F L)) : (entries.put name node).Above low := by
  cases entries with
  | nil =>
    rw [Entries.put_nil]
    cases node with
    | none => trivial
    | some node => exact ⟨lt, trivial⟩
  | cons first other rest =>
    rw [Entries.put_cons]
    split
    · cases node with
      | none => exact above
      | some node => exact ⟨lt, above⟩
    · split
      · cases node with
        | none => exact above.2
        | some node => exact ⟨lt, above.2⟩
      · exact ⟨above.1, above.2.put lt node⟩

theorem Entries.Sorted.put {name : N} {entries : Entries N F L} {node : Option (Node N F L)}
    (sorted : entries.Sorted) (hnode : ∀ x, node = some x → x.Sorted) : (entries.put name node).Sorted := by
  cases entries with
  | nil =>
    rw [Entries.put_nil]
    cases node with
    | none => trivial
    | some node => exact ⟨trivial, hnode node rfl, trivial⟩
  | cons first other rest =>
    obtain ⟨habove, hother, hrest⟩ := sorted
    rw [Entries.put_cons]
    split
    case isTrue hlt =>
      cases node with
      | none => exact ⟨habove, hother, hrest⟩
      | some node =>
        exact ⟨⟨hlt, habove.mono (le_of_lt hlt)⟩, hnode node rfl, habove, hother, hrest⟩
    case isFalse hge =>
      split
      case isTrue heq =>
        cases node with
        | none => exact hrest
        | some node => exact ⟨heq ▸ habove, hnode node rfl, hrest⟩
      case isFalse hne =>
        have hlt : first < name := lt_of_le_of_ne (not_lt.mp hge) (Ne.symm hne)
        exact ⟨habove.put hlt node, hother, hrest.put hnode⟩

end Lookup

end Fbz.FileTree
