import Fbz.Extract.Entries

/-!
# Extraction in any order

Whatever order the threads take, the tree is at every moment determined by how far each entry is,
and all orders that come to an end come to the same one.
-/

namespace Fbz.Extract

open Deflate FileTree FileSystem Transition

variable (P : Platform)

/-- Wherever a run gets to, the stages of the entries say what the tree is. -/
structure Ordered {crc : Crc32} (setting : Setting crc) (data : List UInt8) (entries : List Entry)
    (s : Extraction crc) : Prop where
  listed : s.runs.map Prod.fst = entries
  tree : s.fs = treeOf P s.runs
  fits : ∀ r ∈ s.runs, r.2.Fits P setting data entries.length r.1

def Finished {crc : Crc32} (s : Extraction crc) : Prop := ∀ r ∈ s.runs, r.2.ended = true

/-- The decoder of an entry comes to an end, where there is one to wait for. -/
def Settles {crc : Crc32} (setting : Setting crc) (data : List UInt8) (entryCount : Nat)
    (e : Entry) : Prop :=
  e.method = .deflated → skipped P e = (none : Option (Task crc)) →
    Inevitable (InflateEntry setting data entryCount e) Inflation.Ended .opened

/-- Steps still to come for an entry, at most. -/
def Task.weight {crc : Crc32} (setting : Setting crc) (data : List UInt8) (entryCount : Nat)
    (e : Entry) : Task crc → Nat
  | .waiting =>
    (Inflation.opened : Inflation crc).measure (entrySetting setting entryCount e)
      (entryData data e) + 4
  | .decoding _ inner =>
    inner.measure (entrySetting setting entryCount e) (entryData data e) + 3
  | .written _ => 2
  | .stamping _ => 1
  | .done _ | .failed _ _ => 0

def Extraction.measure {crc : Crc32} (setting : Setting crc) (data : List UInt8) (entryCount : Nat)
    (s : Extraction crc) : Nat :=
  (s.runs.map fun r => r.2.weight setting data entryCount r.1).sum

section Runs

variable {P} {crc : Crc32} {setting : Setting crc} {data : List UInt8} {entryCount : Nat}
  {entries : List Entry} {s t : Extraction crc}

private theorem Ordered.step (layout : Layout entries) (h : Ordered P setting data entries s)
    (step : ExtractStep P setting data entries.length s t) : Ordered P setting data entries t := by
  obtain ⟨hentries, htree, hfits⟩ := h
  have key : ∀ {pre post : List (Entry × Task crc)} {e : Entry} {task task' : Task crc},
      s.runs = pre ++ (e, task) :: post → task'.Fits P setting data entries.length e →
      ∀ r ∈ pre ++ (e, task') :: post, r.2.Fits P setting data entries.length r.1 := by
    intro pre post e task task' hruns hfit r hr
    rw [hruns] at hfits
    rcases List.mem_append.mp hr with hr | hr
    · exact hfits r (List.mem_append_left _ hr)
    · rcases List.mem_cons.mp hr with rfl | hr
      · exact hfit
      · exact hfits r (List.mem_append_right _ (List.mem_cons_of_mem _ hr))
  cases step with
  | @call fs fs' pre post e task task' next =>
    dsimp only at hentries htree hfits
    subst htree
    rw [← hentries] at layout
    obtain ⟨rfl, hfit⟩ := advance_fits layout (hfits (e, task) (by simp)) next
    exact ⟨by simpa using hentries, rfl, key rfl hfit⟩
  | @inflate fs pre post e file inner inner' deflated step =>
    dsimp only at hentries htree hfits
    subst htree
    rw [← hentries] at layout
    obtain ⟨needed, hfile, run⟩ := hfits (e, .decoding file inner) (by simp)
    have hfit : (Task.decoding file inner').Fits P setting data entries.length e :=
      ⟨needed, hfile, run.tail step⟩
    refine ⟨by simpa using hentries, ?_, key rfl hfit⟩
    exact treeOf_same layout (not_directory needed) rfl

private theorem advance_weight {fs fs' : FileSystem.Tree FileData} {e : Entry}
    {task task' : Task crc} (next : advance P data fs e task = some (fs', task')) :
    task'.weight setting data entryCount e < task.weight setting data entryCount e := by
  cases task with
  | waiting =>
    simp only [advance, Option.some.injEq] at next
    repeat' split at next
    all_goals
      obtain ⟨-, rfl⟩ := Prod.mk.inj next
      simp only [Task.weight]
      omega
  | decoding file inner =>
    rw [advance] at next
    repeat' split at next
    case h_1 => cases next
    all_goals
      obtain ⟨-, rfl⟩ := Prod.mk.inj (Option.some.inj next)
      simp only [Task.weight]
      omega
  | written bytes =>
    simp only [advance, Option.some.injEq] at next
    split at next <;> obtain ⟨-, rfl⟩ := Prod.mk.inj next <;> simp [Task.weight]
  | stamping bytes =>
    simp only [advance, Option.some.injEq] at next
    split at next <;> obtain ⟨-, rfl⟩ := Prod.mk.inj next <;> simp [Task.weight]
  | done | failed => cases next

private theorem Ordered.shrinks (h : Ordered P setting data entries s)
    (step : ExtractStep P setting data entries.length s t) :
    t.measure setting data entries.length < s.measure setting data entries.length := by
  cases step with
  | @call fs fs' pre post e task task' next =>
    have := @advance_weight P crc setting data entries.length _ _ _ _ _ next
    simp only [Extraction.measure, List.map_append, List.map_cons, List.sum_append, List.sum_cons]
    omega
  | @inflate fs pre post e file inner inner' deflated step =>
    obtain ⟨-, -, run⟩ := h.fits (e, .decoding file inner) (by simp)
    have : inner'.measure (entrySetting setting entries.length e) (entryData data e) <
        inner.measure (entrySetting setting entries.length e) (entryData data e) :=
      (inflates_of_run run).shrinks step
    simp only [Extraction.measure, Task.weight, List.map_append, List.map_cons, List.sum_append,
      List.sum_cons]
    omega

private theorem inflation_stable {e : Entry} {i i' : Inflation crc} (ended : i.Ended)
    (step : InflateEntry setting data entryCount e i i') : i'.Ended := by
  obtain ⟨outcome, rfl⟩ := ended
  cases step

private theorem advance_decoded {e : Entry} {inner : Inflation crc} {decoded : Result (List UInt8)}
    (h : decodeEntry P data e inner = some decoded) (fs : FileSystem.Tree FileData)
    (file : Option Path) : (advance P data fs e (.decoding file inner)).isSome = true := by
  rw [advance, h]
  cases decoded with
  | error error => rfl
  | ok bytes =>
    cases file with
    | some place => rfl
    | none =>
      dsimp only
      cases allowTarget P e bytes with
      | error error => rfl
      | ok u =>
        dsimp only
        cases fs.add e.path (.symlink bytes) <;> rfl

private theorem decodeEntry_eq_none {e : Entry} {inner : Inflation crc}
    (h : decodeEntry P data e inner = none) : e.method = .deflated ∧ ¬ inner.Ended := by
  unfold decodeEntry at h
  cases hmethod : e.method with
  | stored | other => simp [hmethod] at h
  | deflated =>
    refine ⟨rfl, ?_⟩
    rintro ⟨outcome, rfl⟩
    simp [hmethod] at h

private theorem Ordered.progress (h : Ordered P setting data entries s)
    (settles : ∀ e ∈ entries, Settles P setting data entries.length e) (running : ¬ Finished s) :
    ∃ t, ExtractStep P setting data entries.length s t := by
  obtain ⟨r, hr⟩ := not_forall.mp running
  obtain ⟨hmem, hended⟩ := Classical.not_imp.mp hr
  obtain ⟨hentries, -, hfits⟩ := h
  have hentry : r.1 ∈ entries := hentries ▸ List.mem_map_of_mem hmem
  obtain ⟨fs, runs⟩ := s
  obtain ⟨pre, post, rfl⟩ := List.append_of_mem hmem
  obtain ⟨e, task⟩ := r
  cases task with
  | waiting | written | stamping => exact ⟨_, .call rfl⟩
  | done | failed => exact absurd rfl hended
  | decoding file inner =>
    obtain ⟨needed, -, run⟩ := hfits _ hmem
    cases hdecode : decodeEntry P data e inner with
    | some decoded =>
      obtain ⟨next, hnext⟩ := Option.isSome_iff_exists.mp (advance_decoded hdecode fs file)
      exact ⟨_, .call hnext⟩
    | none =>
      obtain ⟨hmethod, hrunning⟩ := decodeEntry_eq_none hdecode
      obtain ⟨inner', step⟩ := (settles e hentry hmethod needed).not_stuck
        (fun _ _ => inflation_stable) run hrunning
      exact ⟨_, .inflate hmethod step⟩

private theorem Task.Fits.ends {e : Entry} {task : Task crc}
    (fits : task.Fits P setting data entryCount e)
    (ended : task.ended = true) : Ends P setting data entryCount e task := by
  cases task with
  | waiting | decoding | written | stamping => cases ended
  | done | failed => exact fits

private theorem Ordered.unique (h : Ordered P setting data entries s)
    (h' : Ordered P setting data entries t)
    (finished : Finished s) (finished' : Finished t) : s = t := by
  have hruns : s.runs = t.runs := by
    refine List.ext_getElem ?_ ?_
    · have := congrArg List.length (h.listed.trans h'.listed.symm)
      rwa [List.length_map, List.length_map] at this
    · intro k hk hk'
      have hentry : (s.runs[k]).1 = (t.runs[k]).1 := by
        have hsame := List.getElem_of_eq (h.listed.trans h'.listed.symm)
          (show k < (s.runs.map Prod.fst).length by rwa [List.length_map])
        rwa [List.getElem_map, List.getElem_map] at hsame
      have hends := (h.fits _ (List.getElem_mem hk)).ends (finished _ (List.getElem_mem hk))
      have hends' := (h'.fits _ (List.getElem_mem hk')).ends (finished' _ (List.getElem_mem hk'))
      rw [← hentry] at hends'
      exact Prod.ext hentry (hends.unique hends')
  have htree : s.fs = t.fs := by rw [h.tree, h'.tree, hruns]
  cases s
  cases t
  cases hruns
  cases htree
  rfl

end Runs

private theorem treeOf_waiting {crc : Crc32} {entries : List Entry} (layout : Layout entries)
    (q : Path) : treeOf P (entries.map fun e => (e, (Task.waiting : Task crc))) q =
      Tree.ofDirs P.dirMode (dirPaths entries) q := by
  have hall : (entries.map fun e => (e, (Task.waiting : Task crc))).map Prod.fst = entries := by
    simp [Function.comp_def]
  rw [treeOf, hall]
  cases hfound : found P (entries.map fun e => (e, (Task.waiting : Task crc))) q with
  | none => rfl
  | some node =>
    obtain ⟨r, hr, hnode⟩ := List.exists_of_findSome?_eq_some hfound
    obtain ⟨e, he, rfl⟩ := List.mem_map.mp hr
    split at hnode
    case isFalse => cases hnode
    case isTrue hplace =>
      obtain ⟨file, rfl⟩ := hplace
      cases hnode
      exact (Tree.ofDirs_of_not_mem (place_free layout he file)).symm

/-- Each entry has left one node at its place; besides there are the directories among and above the
entries, and nothing else. -/
structure HoldsEntries {crc : Crc32} (entries : List Entry) (s : Extraction crc) : Prop where
  listed : s.runs.map Prod.fst = entries
  places : ∀ e task, (e, task) ∈ s.runs → e.kind ≠ .directory → s.fs e.path = task.node P e
  others : ∀ q, (∀ e ∈ entries, e.kind ≠ .directory → e.path ≠ q) →
    s.fs q = Tree.ofDirs P.dirMode (dirPaths entries) q

private theorem Ordered.holds {P : Platform} {crc : Crc32} {setting : Setting crc}
    {data : List UInt8} {entries : List Entry} {s : Extraction crc} (layout : Layout entries)
    (h : Ordered P setting data entries s) : HoldsEntries P entries s where
  listed := h.listed
  places e task hmem file := by
    rw [h.tree]
    rw [← h.listed] at layout
    obtain ⟨pre, post, hruns⟩ := List.append_of_mem hmem
    rw [hruns] at layout ⊢
    exact treeOf_self layout file
  others q free := by
    have hnone : found P s.runs q = none := by
      refine List.findSome?_eq_none_iff.mpr fun r hr => if_neg fun here => ?_
      exact free r.1 (h.listed ▸ List.mem_map_of_mem hr) here.1 here.2
    rw [h.tree, treeOf, hnone, h.listed]
    rfl

/-- Before the first call: the directories are there. -/
def Extraction.start {crc : Crc32} (fs : FileSystem.Tree FileData) (entries : List Entry) :
    Extraction crc :=
  ⟨fs, entries.map fun e => (e, .waiting)⟩

private theorem ordered_start {crc : Crc32} (setting : Setting crc) (data : List UInt8)
    {entries : List Entry} (layout : Layout entries) :
    Ordered P setting data entries (.start (Tree.ofDirs P.dirMode (dirPaths entries)) entries) where
  listed := by simp [Extraction.start, Function.comp_def]
  tree := funext fun q => (treeOf_waiting P layout q).symm
  fits r hr := by
    obtain ⟨e, -, rfl⟩ := List.mem_map.mp hr
    trivial

section Settling

variable {P} {crc : Crc32} {setting : Setting crc} {data : List UInt8} {entries : List Entry}
  {s : Extraction crc}

private theorem entry_threads (threads : 0 < setting.options.resolvedThreads setting.parallelism)
    (entryCount : Nat) (e : Entry) (stream : DeflateStream) :
    0 < (entrySetting setting entryCount e).threads stream := by
  rw [Setting.threads]
  split
  case isTrue => exact Nat.one_pos
  case isFalse =>
    rw [DecodeOptions.resolvedThreads]
    split
    case isTrue hsome => exact Nat.pos_of_ne_zero hsome
    case isFalse hnone =>
      rw [not_not] at hnone
      simp only [entrySetting] at hnone
      split at hnone
      · rw [hnone] at threads
        cases threads
      · cases hnone

private theorem Ends.yields {entryCount : Nat} {e : Entry} {task : Task crc}
    (ends : Ends P setting data entryCount e task)
    (needed : skipped P e = (none : Option (Task crc))) :
    ∃ decoded, Yields P setting data entryCount e decoded := by
  cases ends with
  | early h => cases needed.symm.trans h
  | decoded _ yields => exact ⟨_, yields⟩

private theorem Ordered.settles (threads : 0 < setting.options.resolvedThreads setting.parallelism)
    (h : Ordered P setting data entries s) (finished : Finished s) {e : Entry} (he : e ∈ entries) :
    Settles P setting data entries.length e := by
  intro hmethod needed
  rw [← h.listed] at he
  obtain ⟨⟨e, task⟩, hr, rfl⟩ := List.mem_map.mp he
  obtain ⟨decoded, inner, run, hdecode⟩ := ((h.fits _ hr).ends (finished _ hr)).yields needed
  dsimp only at hmethod hdecode
  cases inner with
  | opened | parallel => simp [decodeEntry, hmethod] at hdecode
  | done outcome => exact inflation_ends (entry_threads threads _ _ _) run

private theorem settles_of_lasts (threads : 0 < setting.options.resolvedThreads setting.parallelism)
    {entryCount : Nat} {e : Entry}
    (lasts : (entrySetting setting entryCount e).threads (wholeStream (entryData data e)) = 1 ∨
      ¬ RunsDry crc (entryData data e) 0
        ((entrySetting setting entryCount e).threads (wholeStream (entryData data e)))) :
    Settles P setting data entryCount e :=
  fun _ _ => inflation_ends_of_lasts (entry_threads threads _ _ _) lasts

end Settling

/-- For an accepted layout the directories can be prepared. From there, in every order of the calls
and of the steps of the decoders, each entry has its place to itself, fails only as it does by
itself, and is what it stands for once it is extracted. There is one state in which all entries have
ended. Either every order comes to it or none does: the decoder of each deflated entry has to come to
an end. -/
theorem extract_any_order {crc : Crc32} (setting : Setting crc) (data : List UInt8)
    {entries : List Entry} (threads : 0 < setting.options.resolvedThreads setting.parallelism)
    (nonempty : ∀ e ∈ entries, e.path ≠ []) (valid : validateLayout P entries = .ok ()) :
    ∃ fs, prepareDirectories P (Tree.ofDirs P.dirMode []) entries = .ok fs ∧
      (∀ s, Reaches (ExtractStep P setting data entries.length) (.start fs entries) s →
        HoldsEntries P entries s ∧
        (∀ e error left, (e, Task.failed error left) ∈ s.runs →
          Ends P setting data entries.length e (Task.failed error left)) ∧
        ∀ e node, (e, Task.done node) ∈ s.runs → Extracted P crc data e node) ∧
      (∀ s t, Reaches (ExtractStep P setting data entries.length) (.start fs entries) s →
        Reaches (ExtractStep P setting data entries.length) (.start fs entries) t →
        Finished s → Finished t → s = t) ∧
      (∀ s, Reaches (ExtractStep P setting data entries.length) (.start fs entries) s →
        Finished s →
        Inevitable (ExtractStep P setting data entries.length) Finished (.start fs entries)) ∧
      (Inevitable (ExtractStep P setting data entries.length) Finished (.start fs entries) ↔
        ∀ e ∈ entries, Settles P setting data entries.length e) := by
  have layout := layout_of_validateLayout P nonempty valid
  have hdirs : Tree.ofDirs P.dirMode ((dirPaths entries).reverse ++ []) =
      (Tree.ofDirs P.dirMode (dirPaths entries) : FileSystem.Tree FileData) :=
    Tree.ofDirs_congr fun q => by simp
  have hordered : ∀ s : Extraction crc, Reaches (ExtractStep P setting data entries.length)
      (.start (Tree.ofDirs P.dirMode (dirPaths entries)) entries) s →
      Ordered P setting data entries s := fun s run =>
    run.invariant (ordered_start P setting data layout) fun _ _ h step => h.step layout step
  have hfinishes : (∀ e ∈ entries, Settles P setting data entries.length e) →
      Inevitable (ExtractStep P setting data entries.length) Finished
        (.start (Tree.ofDirs P.dirMode (dirPaths entries)) entries) := fun settles =>
    Inevitable.of_measure (Extraction.measure setting data entries.length)
      (fun _ _ h step => h.step layout step) (fun _ _ h step => h.shrinks step)
      (fun _ h running => h.progress settles running) (ordered_start P setting data layout)
  refine ⟨_, (prepareDirectories_eq P entries []).trans (congrArg Except.ok hdirs), ?_, ?_, ?_, ?_⟩
  · intro s run
    have ordered := hordered s run
    refine ⟨ordered.holds layout, fun e error left hmem => ordered.fits _ hmem, ?_⟩
    intro e node hmem
    exact Ends.extracted (ordered.fits _ hmem)
  · intro s t run run' finished finished'
    exact (hordered s run).unique (hordered t run') finished finished'
  · intro s run finished
    exact hfinishes fun e he => (hordered s run).settles threads finished he
  · constructor
    · intro inevitable e he
      obtain ⟨s, run, finished⟩ := inevitable.exists_reaches
      exact (hordered s run).settles threads finished he
    · exact hfinishes

/-- A platform where nothing is refused. -/
def plainPlatform : Platform where
  display path := String.ofList (path.flatten.map fun byte => Char.ofNat byte.toNat)
  displayTarget _ := "target"
  linkFault _ := none
  openFault _ := none
  fileMode := 0o644
  dirMode := 0o755

def plainSetting : Setting Crc32.reference where
  options := { threads := 2, memoryLimit := 2 ^ 30 }
  parallelism := 4
  retainedBytes _ := 0

def directoryEntry : Entry :=
  ⟨[[97]], 0, 0, 0, 0, .stored, 4, 4, none, none, .directory⟩

def storedEntry : Entry :=
  ⟨[[97], [98]], 0, 2, 2, Crc32.reference.hash [7, 8], .stored, 0, 2, some 0o600, some 5, .file⟩

def linkEntry : Entry :=
  ⟨[[99], [100]], 0, 2, 2, Crc32.reference.hash [46, 46], .stored, 2, 4, none, none, .symlink⟩

/-- One stored block of one byte. -/
def deflatedEntry : Entry :=
  ⟨[[97], [101]], 8, 6, 1, Crc32.reference.hash [9], .deflated, 4, 10, none, none, .file⟩

def fourEntries : List Entry := [storedEntry, directoryEntry, linkEntry, deflatedEntry]

def fourData : List UInt8 := [7, 8, 46, 46, 1, 1, 0, 254, 255, 9]

private theorem fourEntries_valid : validateLayout plainPlatform fourEntries = .ok () := by
  have hranges : (fourEntries.filter fun entry => entry.compressedSize != 0) =
      [storedEntry, linkEntry, deflatedEntry] := by rfl
  have hsorted : [storedEntry, linkEntry, deflatedEntry].mergeSort
      (fun first second => first.dataStart ≤ second.dataStart) =
        [storedEntry, linkEntry, deflatedEntry] :=
    List.mergeSort_of_pairwise (by simp [storedEntry, linkEntry, deflatedEntry])
  rw [validateLayout, hranges, hsorted]
  rfl

private theorem fourEntries_settle : ∀ e ∈ fourEntries,
    Settles plainPlatform plainSetting fourData fourEntries.length e := by
  intro e he hmethod
  obtain rfl : e = deflatedEntry := by
    simp only [fourEntries, List.mem_cons, List.not_mem_nil, or_false] at he
    rcases he with rfl | rfl | rfl | rfl
    · cases hmethod
    · cases hmethod
    · cases hmethod
    · rfl
  exact settles_of_lasts (by decide) (.inl (by decide)) hmethod

theorem extract_any_order_four :
    ∃ fs, prepareDirectories plainPlatform (Tree.ofDirs plainPlatform.dirMode []) fourEntries =
        .ok fs ∧
      (∀ s, Reaches (ExtractStep plainPlatform plainSetting fourData 4) (.start fs fourEntries) s →
        HoldsEntries plainPlatform fourEntries s ∧
        ∀ e node, (e, Task.done node) ∈ s.runs →
          Extracted plainPlatform Crc32.reference fourData e node) ∧
      Inevitable (ExtractStep plainPlatform plainSetting fourData 4) Finished
        (.start fs fourEntries) := by
  obtain ⟨fs, hprepared, hruns, -, -, hfinishes⟩ := extract_any_order plainPlatform plainSetting
    fourData (by decide) (by decide) fourEntries_valid
  refine ⟨fs, hprepared, fun s run => ?_, hfinishes.mpr fourEntries_settle⟩
  obtain ⟨hholds, -, hextracted⟩ := hruns s run
  exact ⟨hholds, hextracted⟩

end Fbz.Extract
