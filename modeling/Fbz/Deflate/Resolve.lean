import Mathlib.Data.List.GetD
import Mathlib.Data.Option.Basic
import Fbz.Deflate.Segment

/-!
# Resolving a segment

Once the window is known, the symbols of a segment read as the bytes that decoding with the real
history appends. Symbols that no history explains stand for the references it would refuse.
-/

namespace Fbz.Deflate

open DeflateOutput Lz

/-- The last bytes of a history, as far as back references reach. -/
def lastWindow (bytes : List UInt8) : List UInt8 :=
  bytes.drop (bytes.length - min bytes.length windowSize)

theorem lastWindow_length (bytes : List UInt8) :
    (lastWindow bytes).length = min bytes.length windowSize := by
  rw [lastWindow, List.length_drop]
  omega

private theorem lastWindow_suffix (bytes : List UInt8) : lastWindow bytes <:+ bytes :=
  List.drop_suffix _ _

/-- What a symbol stands for, if the window has it. -/
def place (predecessor : List UInt8) (symbol : Nat) : Option UInt8 :=
  (resolveSymbol predecessor symbol).toOption

/-- Symbols a segment may hold: bytes and places of the window. -/
def IsSymbol (symbol : Nat) : Prop :=
  symbol ≤ 255 ∨ windowSize ≤ symbol ∧ symbol < 2 * windowSize

@[simp] theorem place_byte (predecessor : List UInt8) (byte : UInt8) :
    place predecessor byte.toNat = some byte := by
  have : byte.toNat ≤ 255 := Nat.le_of_lt_succ byte.toNat_lt
  simp [place, resolveSymbol, this, Except.toOption, pure, Except.pure]

private theorem place_ofNat (predecessor : List UInt8) {symbol : Nat} (small : symbol ≤ 255) :
    place predecessor symbol = some (UInt8.ofNat symbol) := by
  have := place_byte predecessor (UInt8.ofNat symbol)
  rwa [UInt8.toNat_ofNat_of_lt' (by simp [UInt8.size]; omega)] at this

private theorem place_window (predecessor : List UInt8) {index : Nat} (lt : index < windowSize) :
    place predecessor (windowSize + index) =
      if windowSize - predecessor.length ≤ index then
        some (predecessor.getD (index - (windowSize - predecessor.length)) 0)
      else none := by
  have hlarge : ¬ windowSize + index ≤ 255 := by
    have : windowSize = 32768 := rfl
    omega
  unfold place resolveSymbol ensure
  simp only [hlarge, if_false, Nat.add_sub_cancel_left]
  split <;> rfl

/-- The window in front of a segment: what its history has, and nothing before. -/
def placedWindow (predecessor : List UInt8) : List (Option UInt8) :=
  List.replicate (windowSize - predecessor.length) none ++ predecessor.map some

/-- The symbols of the unknown window itself. -/
def windowSymbols : List Nat := (List.range windowSize).map (windowSize + ·)

@[simp] theorem windowSymbols_length : windowSymbols.length = windowSize := by
  rw [windowSymbols, List.length_map, List.length_range]

private theorem map_place_windowSymbols {predecessor : List UInt8}
    (fits : predecessor.length ≤ windowSize) :
    windowSymbols.map (place predecessor) = placedWindow predecessor := by
  refine List.ext_getElem? fun i => ?_
  rw [windowSymbols, List.map_map, List.getElem?_map]
  rcases Nat.lt_or_ge i windowSize with hi | hi
  · rw [List.getElem?_range hi, Option.map_some, Function.comp_apply, place_window predecessor hi,
      placedWindow]
    split
    case isTrue hit =>
      rw [List.getElem?_append_right (by rw [List.length_replicate]; exact hit),
        List.length_replicate, List.getElem?_map, List.getElem?_eq_getElem (by omega),
        List.getD_eq_getElem _ _ (by omega)]
      rfl
    case isFalse miss =>
      rw [List.getElem?_append_left (by rw [List.length_replicate]; omega),
        List.getElem?_replicate_of_lt (by omega)]
  · rw [List.getElem?_eq_none (by rw [List.length_range]; exact hi), Option.map_none,
      List.getElem?_eq_none]
    simp only [placedWindow, List.length_append, List.length_replicate, List.length_map]
    omega

private theorem mapM_eq_ok {f : Nat → Result UInt8} {xs : List Nat} {ys : List UInt8} :
    xs.mapM f = .ok ys ↔ xs.map (fun x => (f x).toOption) = ys.map some := by
  induction xs generalizing ys with
  | nil => cases ys <;> simp [pure, Except.pure]
  | cons x xs ih =>
    rw [List.mapM_cons, result_bind_eq_ok]
    cases hx : f x with
    | error error => cases ys <;> simp [hx, Except.toOption]
    | ok byte =>
      simp only [Except.ok.injEq, exists_eq_left', result_bind_eq_ok, ih, pure, Except.pure,
        List.map_cons, hx, Except.toOption]
      cases ys with
      | nil => simp
      | cons y ys => simp [eq_comm, and_comm]

private theorem lookup_eq {predecessor : List UInt8} {symbol : Nat} (valid : IsSymbol symbol)
    (whole : predecessor.length = windowSize) :
    place predecessor symbol = some ((symbolLookup predecessor).getD symbol 0) := by
  rcases valid with small | ⟨hle, hlt⟩
  · rw [place_ofNat predecessor small, symbolLookup, List.append_assoc, List.getD_append,
      List.getD_eq_getElem _ _ (by simp; omega)]
    · simp
    · simp only [List.length_map, List.length_range]
      omega
  · obtain ⟨index, rfl⟩ := Nat.exists_eq_add_of_le hle
    have hfront : ((List.range 256).map UInt8.ofNat ++
        List.replicate (windowSize - 256) (0 : UInt8)).length = windowSize := by
      rw [List.length_append, List.length_map, List.length_range, List.length_replicate]
      rfl
    rw [place_window predecessor (by omega), if_pos (by omega), symbolLookup,
      List.getD_append_right _ _ _ _ (by omega), hfront,
      show index - (windowSize - predecessor.length) = windowSize + index - windowSize by omega]

theorem resolveSymbols_eq_ok {symbols : List Nat} {predecessor bytes : List UInt8}
    (valid : ∀ symbol ∈ symbols, IsSymbol symbol) :
    resolveSymbols symbols predecessor = .ok bytes ↔
      symbols.map (place predecessor) = bytes.map some := by
  unfold resolveSymbols
  split
  case isFalse => exact mapM_eq_ok
  case isTrue large =>
    have hmap : symbols.map (place predecessor) =
        (symbols.map fun symbol => (symbolLookup predecessor).getD symbol 0).map some := by
      rw [List.map_map]
      exact List.map_congr_left fun symbol hmem => lookup_eq (valid symbol hmem) large.1
    rw [hmap, Except.ok.injEq]
    exact (List.map_injective_iff.mpr (Option.some_injective _)).eq_iff.symm

private theorem resolveSymbols_error {symbols : List Nat} {predecessor : List UInt8}
    (valid : ∀ symbol ∈ symbols, IsSymbol symbol) (missing : none ∈ symbols.map (place predecessor)) :
    ∃ error, resolveSymbols symbols predecessor = .error error := by
  cases h : resolveSymbols symbols predecessor with
  | error error => exact ⟨error, rfl⟩
  | ok bytes =>
    rw [(resolveSymbols_eq_ok valid).mp h] at missing
    simp at missing

/-- An operation on bytes of which some may be missing. -/
def Op.over : Op → List (Option UInt8) → List (Option UInt8)
  | emit byte, bytes => bytes ++ [some byte]
  | extend added, bytes => bytes ++ added.map some
  | copy distance length, bytes => copyBack distance length bytes

/-- The window and all symbols and bytes behind it. -/
def view (predecessor : List UInt8) (m : MarkerOutput) : List (Option UInt8) :=
  (windowSymbols ++ m.marked).map (place predecessor) ++ (m.clean.drop m.cleanStart).map some

/-- What holds of the output of a segment of unknown history: while it writes symbols there are no
clean bytes, and afterwards the clean bytes repeat at least a whole window. -/
structure Reads (m : MarkerOutput) : Prop where
  unknown : m.history = .unknown
  symbols : ∀ symbol ∈ m.marked, IsSymbol symbol
  start : m.cleanStart ≤ m.clean.length
  marking : m.cleanMode = false → m.clean = []
  whole : m.cleanMode = true → windowSize ≤ m.clean.length
  repeats : m.cleanMode = true → ∀ predecessor, m.clean.map some <:+ view predecessor m

namespace Reads

variable {m m' : MarkerOutput}

theorem new (limit : Nat) : Reads (MarkerOutput.new .unknown limit) where
  unknown := rfl
  symbols := by simp [MarkerOutput.new]
  start := Nat.le_refl 0
  marking := fun _ => rfl
  whole := by simp [MarkerOutput.new]
  repeats := by simp [MarkerOutput.new]

private theorem view_length (reads : Reads m) (predecessor : List UInt8) :
    (view predecessor m).length = windowSize + m.len := by
  have := reads.start
  simp only [view, MarkerOutput.len, List.length_append, List.length_map, windowSymbols_length,
    List.length_drop]
  omega

private theorem isSymbol (reads : Reads m) {symbol : Nat} (h : symbol ∈ windowSymbols ++ m.marked) :
    IsSymbol symbol := by
  rcases List.mem_append.mp h with hwindow | hmarked
  · obtain ⟨index, hindex, rfl⟩ := List.mem_map.mp hwindow
    have := List.mem_range.mp hindex
    exact .inr (by omega)
  · exact reads.symbols symbol hmarked

private theorem view_marking (reads : Reads m) (mode : m.cleanMode = false)
    (predecessor : List UInt8) :
    view predecessor m = (windowSymbols ++ m.marked).map (place predecessor) := by
  rw [view, reads.marking mode, List.drop_nil, List.map_nil, List.append_nil]

private theorem append_clean (reads : Reads m) (mode : m.cleanMode = true) (bytes : List UInt8) :
    Reads { m with clean := m.clean ++ bytes } ∧ ∀ predecessor,
      view predecessor { m with clean := m.clean ++ bytes } =
        view predecessor m ++ bytes.map some := by
  have hview : ∀ predecessor, view predecessor { m with clean := m.clean ++ bytes } =
      view predecessor m ++ bytes.map some := fun predecessor => by
    simp only [view, List.drop_append_of_le_length reads.start, List.map_append,
      List.append_assoc]
  refine ⟨⟨reads.unknown, reads.symbols, ?_, ?_, fun _ => ?_, fun _ predecessor => ?_⟩, hview⟩
  · have := reads.start
    simp only [List.length_append]
    omega
  · simp [mode]
  · have := reads.whole mode
    simp only [List.length_append]
    omega
  · obtain ⟨front, hfront⟩ := reads.repeats mode predecessor
    rw [hview]
    exact ⟨front, by rw [List.map_append, ← List.append_assoc, hfront]⟩

private theorem append_marked (reads : Reads m) (mode : m.cleanMode = false) {symbols : List Nat}
    (valid : ∀ symbol ∈ symbols, IsSymbol symbol) :
    Reads { m with marked := m.marked ++ symbols } ∧ ∀ predecessor,
      view predecessor { m with marked := m.marked ++ symbols } =
        view predecessor m ++ symbols.map (place predecessor) := by
  refine ⟨⟨reads.unknown, ?_, reads.start, reads.marking, ?_, ?_⟩, fun predecessor => ?_⟩
  · intro symbol hmem
    rcases List.mem_append.mp hmem with hold | hnew
    · exact reads.symbols symbol hold
    · exact valid symbol hnew
  · simp [mode]
  · simp [mode]
  · simp only [view, reads.marking mode, List.drop_nil, List.map_nil, List.append_nil,
      ← List.append_assoc, List.map_append]

private theorem extendBytes (reads : Reads m) {bytes : List UInt8}
    (h : m.extendBytes bytes = .ok m') :
    Reads m' ∧ ∀ predecessor, view predecessor m' = view predecessor m ++ bytes.map some := by
  obtain ⟨_, -, heq⟩ := result_bind_eq_ok.mp h
  obtain rfl := Except.ok.inj heq
  by_cases hmode : m.cleanMode
  · rw [if_pos hmode]
    exact reads.append_clean hmode bytes
  · have hvalid : ∀ symbol ∈ bytes.map UInt8.toNat, IsSymbol symbol := by
      intro symbol hmem
      obtain ⟨byte, -, rfl⟩ := List.mem_map.mp hmem
      exact .inl (Nat.le_of_lt_succ byte.toNat_lt)
    rw [if_neg hmode]
    obtain ⟨hreads, hview⟩ := reads.append_marked (Bool.eq_false_iff.mpr hmode) hvalid
    refine ⟨hreads, fun predecessor => (hview predecessor).trans ?_⟩
    simp [List.map_map, Function.comp_def]

end Reads

/-- The part of the window a copy takes and the rest of it are one copy over window and symbols. -/
theorem copyMarked_eq {marked : List Nat} {distance length : Nat} (pos : 0 < distance)
    (le : distance ≤ windowSize) :
    windowSymbols ++ MarkerOutput.copyMarked marked distance length =
      copyBack distance length (windowSymbols ++ marked) := by
  have hall : distance ≤ (windowSymbols ++ marked).length := by
    rw [List.length_append, windowSymbols_length]
    omega
  unfold MarkerOutput.copyMarked
  by_cases hfar : distance > marked.length
  · simp only [hfar, if_true]
    generalize hcount : min (distance - marked.length) length = count
    have hwindow : windowSymbols ++ (marked ++ MarkerOutput.copyWindow marked distance length) =
        copyBack distance count (windowSymbols ++ marked) := by
      rw [copyBack_short pos hall (by omega), ← List.append_assoc]
      congr 1
      refine List.ext_getElem? fun i => ?_
      rw [MarkerOutput.copyWindow, hcount, List.getElem?_map, slice, Nat.add_sub_cancel_left,
        List.getElem?_take, List.length_append, windowSymbols_length]
      split
      case isTrue hi =>
        rw [List.getElem?_range hi, Option.map_some, List.getElem?_drop,
          List.getElem?_append_left (by rw [windowSymbols_length]; omega), windowSymbols,
          List.getElem?_map, List.getElem?_range (by omega), Option.map_some]
        congr 1
        have : windowSize = 32768 := rfl
        omega
      case isFalse hi =>
        rw [List.getElem?_eq_none (by rw [List.length_range]; omega), Option.map_none]
    have hlen : (marked ++ MarkerOutput.copyWindow marked distance length).length =
        marked.length + count := by
      simp only [MarkerOutput.copyWindow, List.length_append, List.length_map, List.length_range,
        hcount]
    split
    case isTrue hmore =>
      rw [extendMatch_eq_copyBack pos (by omega), ← copyBack_append pos (by omega), hwindow,
        ← copyBack_add, Nat.add_sub_cancel' (by omega)]
    case isFalse hdone => rw [hwindow, show count = length by omega]
  · simp only [hfar, if_false, Nat.sub_zero]
    split
    case isTrue =>
      rw [extendMatch_eq_copyBack pos (by omega), ← copyBack_append pos (by omega)]
    case isFalse hnone => rw [show length = 0 by omega, copyBack_zero]

namespace Reads

variable {m m' : MarkerOutput}

private theorem copyMatch (reads : Reads m) {distance length : Nat}
    (h : m.copyMatch distance length = .ok m') :
    Reads m' ∧ ∀ predecessor, view predecessor m' = copyBack distance length (view predecessor m) := by
  obtain ⟨_, -, h⟩ := result_bind_eq_ok.mp h
  by_cases hmode : m.cleanMode
  · rw [if_pos hmode] at h
    obtain ⟨_, hcheck, heq⟩ := result_bind_eq_ok.mp h
    obtain rfl := Except.ok.inj heq
    obtain ⟨hpos, hle⟩ := checkDistance_eq_ok hcheck
    obtain ⟨rest, hrest⟩ := @prefix_copyBack _ _ length m.clean hpos (by omega)
    rw [extendMatch_eq_copyBack hpos (by omega), ← hrest]
    obtain ⟨hreads, hview⟩ := reads.append_clean hmode rest
    refine ⟨hreads, fun predecessor => (hview predecessor).trans ?_⟩
    obtain ⟨front, hfront⟩ := reads.repeats hmode predecessor
    rw [← hfront, copyBack_append hpos (by rw [List.length_map]; omega), ← copyBack_map, ← hrest,
      List.map_append, List.append_assoc]
  · rw [if_neg hmode] at h
    obtain ⟨_, hcheck, heq⟩ := result_bind_eq_ok.mp h
    obtain rfl := Except.ok.inj heq
    obtain ⟨hpos, hle⟩ := checkDistance_eq_ok hcheck
    rw [reads.unknown] at hle
    change distance ≤ windowSize at hle
    have hmode := Bool.eq_false_iff.mpr hmode
    have hcopy := @copyMarked_eq m.marked _ length hpos hle
    obtain ⟨rest, hrest⟩ := @prefix_copyBack _ _ length (windowSymbols ++ m.marked) hpos
      (by rw [List.length_append, windowSymbols_length]; omega)
    rw [← hrest, List.append_assoc, List.append_cancel_left_eq] at hcopy
    rw [hcopy]
    obtain ⟨hreads, hview⟩ := @Reads.append_marked _ reads hmode rest fun symbol hmem =>
      reads.isSymbol (@mem_copyBack _ _ length _ _ (hrest ▸ List.mem_append_right _ hmem))
    refine ⟨hreads, fun predecessor => (hview predecessor).trans ?_⟩
    rw [reads.view_marking hmode, ← List.map_append, hrest, copyBack_map]

private theorem copyMatch_distance (reads : Reads m) {distance length : Nat}
    (h : m.copyMatch distance length = .ok m') : 0 < distance ∧ distance ≤ windowSize := by
  obtain ⟨_, -, h⟩ := result_bind_eq_ok.mp h
  split at h
  · obtain ⟨_, hcheck, -⟩ := result_bind_eq_ok.mp h
    have := checkDistance_eq_ok hcheck
    omega
  · obtain ⟨_, hcheck, -⟩ := result_bind_eq_ok.mp h
    rw [reads.unknown] at hcheck
    exact checkDistance_eq_ok hcheck

theorem run (reads : Reads m) {op : Op} (h : op.run m = .ok m') :
    Reads m' ∧ ∀ predecessor, view predecessor m' = op.over (view predecessor m) := by
  cases op with
  | emit byte =>
    obtain ⟨hreads, hview⟩ := reads.extendBytes h
    exact ⟨hreads, fun predecessor => by rw [hview, Op.over, List.map_singleton]⟩
  | extend bytes =>
    obtain ⟨hreads, hview⟩ := reads.extendBytes h
    exact ⟨hreads, fun predecessor => by rw [hview, Op.over]⟩
  | copy distance length =>
    obtain ⟨hreads, hview⟩ := reads.copyMatch h
    exact ⟨hreads, fun predecessor => by rw [hview, Op.over]⟩

end Reads

/-- Going over to bytes changes no view. -/
theorem Reads.tryClean {m : MarkerOutput} (reads : Reads m) :
    Reads m.tryClean ∧ ∀ predecessor, view predecessor m.tryClean = view predecessor m := by
  unfold MarkerOutput.tryClean
  split
  case isTrue => exact ⟨reads, fun _ => rfl⟩
  case isFalse marking =>
  obtain ⟨hmode, hlen⟩ := not_or.mp marking
  dsimp only
  split
  case isTrue => exact ⟨reads, fun _ => rfl⟩
  case isFalse bytes =>
  have hlength : (m.marked.drop (m.marked.length - windowSize)).length = windowSize := by
    rw [List.length_drop]
    omega
  have hsuffix := List.drop_suffix (m.marked.length - windowSize) m.marked
  generalize m.marked.drop (m.marked.length - windowSize) = suffix at bytes hlength hsuffix ⊢
  have hview := reads.view_marking (Bool.eq_false_iff.mpr hmode)
  have hclean : (suffix.map UInt8.ofNat).length = windowSize := by rw [List.length_map, hlength]
  have hsame (predecessor : List UInt8) : view predecessor { m with
      clean := suffix.map UInt8.ofNat, cleanStart := windowSize, cleanMode := true } =
        view predecessor m := by
    rw [hview, view]
    dsimp only
    rw [List.drop_eq_nil_of_le (Nat.le_of_eq hclean), List.map_nil, List.append_nil]
  refine ⟨⟨reads.unknown, reads.symbols, Nat.le_of_eq hclean.symm, by simp,
    fun _ => Nat.le_of_eq hclean.symm, fun _ predecessor => ?_⟩, hsame⟩
  have hplaced : (suffix.map UInt8.ofNat).map some = suffix.map (place predecessor) := by
    rw [List.map_map]
    refine List.map_congr_left fun symbol hmem => (place_ofNat predecessor ?_).symm
    by_contra hlarge
    exact bytes (List.any_eq_true.mpr ⟨symbol, hmem, by simpa using hlarge⟩)
  rw [hsame, hview]
  dsimp only
  rw [hplaced]
  exact (hsuffix.trans (List.suffix_append _ _)).map _

private theorem Op.prefix_over {op : Op} (proper : op.Proper) {bytes : List (Option UInt8)}
    (whole : windowSize ≤ bytes.length) : bytes <+: op.over bytes := by
  cases op with
  | emit byte => exact List.prefix_append _ _
  | extend added => exact List.prefix_append _ _
  | copy distance length => exact prefix_copyBack proper.1 (Nat.le_trans proper.2.1 whole)

/-- The view is that of the history: what it holds of the window, and all it decoded since. -/
def Agrees (before : List UInt8) (bytes : List (Option UInt8)) (h : History) : Prop :=
  ∃ since, bytes = placedWindow (lastWindow before) ++ since.map some ∧ h.bytes = before ++ since

/-- Bytes behind the window that no history explains. -/
def Dead (bytes : List (Option UInt8)) : Prop := none ∈ bytes.drop windowSize

section History

variable {before : List UInt8} {bytes : List (Option UInt8)} {h : History} {op : Op}

theorem agrees_new (before : List UInt8) (limit : Nat) :
    Agrees before (view (lastWindow before) (MarkerOutput.new .unknown limit)) ⟨before⟩ := by
  refine ⟨[], ?_, (List.append_nil _).symm⟩
  rw [(Reads.new limit).view_marking rfl, List.map_append, map_place_windowSymbols]
  · rfl
  · rw [lastWindow_length]
    omega

private theorem placedWindow_length (before : List UInt8) :
    (placedWindow (lastWindow before)).length = windowSize := by
  rw [placedWindow, List.length_append, List.length_replicate, List.length_map, lastWindow_length]
  omega

private theorem Dead.over (dead : Dead bytes) (proper : op.Proper) : Dead (op.over bytes) := by
  have hlen : windowSize ≤ bytes.length := by
    by_contra hshort
    rw [Dead, List.drop_eq_nil_of_le (by omega)] at dead
    cases dead
  obtain ⟨rest, hrest⟩ := Op.prefix_over proper hlen
  rw [Dead, ← hrest, List.drop_append_of_le_length hlen]
  exact List.mem_append_left _ dead

private theorem Agrees.copy_near {distance length : Nat} (agrees : Agrees before bytes h)
    (pos : 0 < distance) (near : distance ≤ min h.bytes.length windowSize) :
    Agrees before (copyBack distance length bytes) ⟨copyBack distance length h.bytes⟩ := by
  obtain ⟨since, rfl, heq⟩ := agrees
  obtain ⟨front, hfront⟩ := lastWindow_suffix before
  have hwindow := lastWindow_length before
  have hle : distance ≤ (lastWindow before ++ since).length := by
    rw [List.length_append]
    rw [heq, List.length_append] at near
    omega
  obtain ⟨rest, hrest⟩ := @prefix_copyBack _ _ length _ pos hle
  refine ⟨since ++ rest, ?_, ?_⟩
  · rw [placedWindow, List.append_assoc, ← List.map_append,
      copyBack_append pos (by rw [List.length_map]; exact hle), ← copyBack_map, ← hrest]
    simp only [List.map_append, List.append_assoc]
  · rw [heq]
    dsimp only
    rw [← hfront, List.append_assoc, copyBack_append pos hle, ← hrest]
    simp only [List.append_assoc]

private theorem Agrees.copy_far {distance length : Nat} (agrees : Agrees before bytes h)
    (pos : 0 < distance) (le : distance ≤ windowSize) (some_length : 0 < length)
    (far : ¬ distance ≤ min h.bytes.length windowSize) : Dead (copyBack distance length bytes) := by
  obtain ⟨since, rfl, heq⟩ := agrees
  have hwindow := lastWindow_length before
  have hplaced := placedWindow_length before
  rw [heq, List.length_append] at far
  have hlen : (placedWindow (lastWindow before) ++ since.map some).length =
      windowSize + since.length := by
    rw [List.length_append, hplaced, List.length_map]
  have hfirst := @getElem?_copyBack _ _ length 0 (placedWindow (lastWindow before) ++
    since.map some) pos (by omega) some_length
  have hnone : (placedWindow (lastWindow before) ++ since.map some)[
      windowSize + since.length - distance]? = some none := by
    rw [placedWindow, List.append_assoc, List.getElem?_append_left
      (by rw [List.length_replicate]; omega), List.getElem?_replicate_of_lt (by omega)]
  rw [Nat.zero_mod, Nat.add_zero, Nat.add_zero, hlen, hnone] at hfirst
  exact List.mem_of_getElem? (i := since.length) (by rw [List.getElem?_drop, hfirst])

private theorem Agrees.run (agrees : Agrees before bytes h) (proper : op.Proper) :
    (∃ h', op.run h = .ok h' ∧ Agrees before (op.over bytes) h') ∨
      ((∃ error, op.run h = .error error) ∧ Dead (op.over bytes)) := by
  cases op with
  | emit byte =>
    obtain ⟨since, rfl, heq⟩ := agrees
    exact .inl ⟨_, rfl, since ++ [byte], by simp [Op.over], by simp [heq]⟩
  | extend added =>
    obtain ⟨since, rfl, heq⟩ := agrees
    exact .inl ⟨_, rfl, since ++ added, by simp [Op.over], by simp [heq]⟩
  | copy distance length =>
    obtain ⟨hpos, hle, hlength⟩ := proper
    dsimp only [Op.run, DeflateOutput.copy]
    by_cases hnear : distance ≤ min h.bytes.length windowSize
    · rw [checkDistance, ensure_of ⟨by omega, hnear⟩]
      exact .inl ⟨_, rfl, agrees.copy_near hpos hnear⟩
    · rw [checkDistance, ensure_of_not fun hcheck => hnear hcheck.2]
      exact .inr ⟨⟨_, rfl⟩, agrees.copy_far hpos hle (by omega) hnear⟩

end History

theorem Reads.counts {m : MarkerOutput} (reads : Reads m) : Counts m := by
  refine @Counts.of_invariant _ _ Reads (fun {m m' op} reads hrun => ?_) _ reads
  obtain ⟨hreads, hview⟩ := reads.run hrun
  refine ⟨hreads, ?_⟩
  have hold := reads.view_length []
  have hnew := hreads.view_length []
  have hover : (op.over (view [] m)).length = (view [] m).length + op.length := by
    cases op with
    | emit byte => exact List.length_append
    | extend bytes =>
      rw [Op.over, List.length_append, List.length_map]
      rfl
    | copy distance length =>
      obtain ⟨hpos, hle⟩ := reads.copyMatch_distance hrun
      exact copyBack_length hpos (by omega)
  rw [hview, hover, hold] at hnew
  show m'.len = m.len + op.length
  omega

/-- The history as far as it came, against the output of the segment: they agree, or the history
refused a reference that shows in the view. -/
def Tracks (before : List UInt8) (m : MarkerOutput) : Result History → Prop
  | .ok h => Agrees before (view (lastWindow before) m) h
  | .error _ => Dead (view (lastWindow before) m)

section Tracks

variable {before : List UInt8} {m m' : MarkerOutput} {r : Result History}

theorem Tracks.run {op : Op} (tracks : Tracks before m r) (reads : Reads m) (proper : op.Proper)
    (h : op.run m = .ok m') : Tracks before m' (r >>= fun history => op.run history) := by
  have hview := (reads.run h).2 (lastWindow before)
  cases r with
  | error error =>
    rw [result_bind_error, Tracks, hview]
    exact Dead.over tracks proper
  | ok history =>
    rw [result_bind_ok]
    obtain ⟨history', hrun, hagrees⟩ | ⟨⟨error, hrun⟩, hdead⟩ := Agrees.run tracks proper
    · rwa [hrun, Tracks, hview]
    · rwa [hrun, Tracks, hview]

private theorem Tracks.replay {ops : List Op} (tracks : Tracks before m r) (reads : Reads m)
    (proper : ∀ op ∈ ops, op.Proper) (h : Deflate.replay m ops = .ok m') :
    Reads m' ∧ Tracks before m' (r >>= fun history => Deflate.replay history ops) := by
  induction ops generalizing m r with
  | nil =>
    obtain rfl := Except.ok.inj h
    refine ⟨reads, ?_⟩
    cases r <;> exact tracks
  | cons op ops ih =>
    rw [Deflate.replay] at h
    cases hop : op.run m with
    | error error => simp [hop] at h
    | ok mid =>
      rw [hop] at h
      have hmid := tracks.run reads (proper op List.mem_cons_self) hop
      obtain ⟨hreads, htracks⟩ := ih hmid (reads.run hop).1
        (fun other hmem => proper other (List.mem_cons_of_mem _ hmem)) h
      refine ⟨hreads, ?_⟩
      cases r with
      | error error => exact htracks
      | ok history =>
        simp only [result_bind_ok, Deflate.replay] at htracks ⊢
        cases hrun : op.run history with
        | error error => rwa [hrun] at htracks
        | ok history' => rwa [hrun] at htracks

theorem Tracks.tryClean (tracks : Tracks before m r) (reads : Reads m) :
    Tracks before m.tryClean r := by
  have hview := reads.tryClean.2 (lastWindow before)
  cases r with
  | error error =>
    rw [Tracks, hview]
    exact tracks
  | ok history =>
    rw [Tracks, hview]
    exact tracks

theorem Tracks.totalDecoded {h : History} (tracks : Tracks before m (.ok h)) (reads : Reads m) :
    totalDecoded h = totalDecoded m + before.length := by
  obtain ⟨since, hview, heq⟩ := tracks
  have hlen := reads.view_length (lastWindow before)
  rw [hview, List.length_append, placedWindow_length, List.length_map] at hlen
  show h.bytes.length = m.len + before.length
  rw [heq, List.length_append]
  omega

/-- What decoding blocks leaves of the history, against what it leaves of the segment. -/
def TracksBlocks {β : Type} (before : List UInt8) (m : MarkerOutput) (value : β) :
    Result (History × β) → Prop
  | .ok (h, value') => Agrees before (view (lastWindow before) m) h ∧ value' = value
  | .error _ => Dead (view (lastWindow before) m)

theorem Tracks.decodeBlock {data : List UInt8} {bit next : Nat} {block : Block}
    (tracks : Tracks before m r) (reads : Reads m)
    (h : Deflate.decodeBlock data 0 bit m = .ok (m', block, next)) :
    Reads m' ∧ TracksBlocks before m' (block.commit 0 before.length, next)
      (r >>= fun history => Deflate.decodeBlock data 0 bit history) := by
  obtain ⟨t, block', htrace, hreplay, rfl⟩ := blockTrace_of_ok reads.counts h
  obtain ⟨hreads, htracks⟩ := tracks.replay reads (blockTrace_proper htrace) hreplay
  refine ⟨hreads, ?_⟩
  cases r with
  | error error => exact htracks
  | ok history =>
    rw [result_bind_ok] at htracks ⊢
    rw [decodeBlock_of_trace 0 history.counts htrace]
    cases hhistory : Deflate.replay history t.ops with
    | error error => rwa [hhistory] at htracks
    | ok history' =>
      rw [hhistory] at htracks
      exact ⟨htracks, by rw [tracks.totalDecoded reads]; rfl⟩

private theorem TracksBlocks.elim {β : Type} {value : β} {result : Result (History × β)}
    (h : TracksBlocks before m value result) :
    (∃ history, result = .ok (history, value) ∧ Tracks before m (.ok history)) ∨
      ∃ error, result = .error error ∧ Tracks before m (.error error) := by
  rcases result with error | ⟨history, value'⟩
  · exact .inr ⟨error, rfl, h⟩
  · obtain ⟨hagrees, rfl⟩ := h
    exact .inl ⟨history, rfl, hagrees⟩

private theorem refused_decodeUntil {data : List UInt8} {stopBit bit : Nat} {blocks : List Block}
    {error : Error} (h : (r >>= fun history => Deflate.decodeBlock data 0 bit history) = .error error) :
    (r >>= fun history => Deflate.decodeUntil data stopBit id bit blocks history) = .error error := by
  cases r with
  | error error' =>
    rw [result_bind_error] at h ⊢
    rw [Except.error.inj h]
  | ok history =>
    rw [result_bind_ok] at h ⊢
    rw [decodeUntil_eq, h]

/-- Decoding on with the history behind the same blocks. -/
theorem Tracks.decodeUntil {data : List UInt8} {stopBit bit endBit : Nat} {fin : Bool}
    {blocks blocks' : List Block} (tracks : Tracks before m r) (reads : Reads m)
    (h : Deflate.decodeUntil data stopBit MarkerOutput.tryClean bit blocks m =
      .ok (m', blocks', endBit, fin)) :
    Reads m' ∧ TracksBlocks before m' (blocks'.map (Block.commit 0 before.length), endBit, fin)
      (r >>= fun history => Deflate.decodeUntil data stopBit id bit
        (blocks.map (Block.commit 0 before.length)) history) := by
  induction bit, blocks, m using @decodeUntil.induct MarkerOutput _ data stopBit
    MarkerOutput.tryClean generalizing r with
  | case1 bit blocks m error hblock =>
    rw [decodeUntil_eq, hblock] at h
    cases h
  | case2 bit blocks m m1 block next hblock hfinal =>
    obtain ⟨hreads, htracks⟩ := tracks.decodeBlock reads hblock
    rw [decodeUntil_eq, hblock] at h
    simp only [hfinal, if_true, Except.ok.injEq, Prod.mk.injEq] at h
    obtain ⟨rfl, rfl, rfl, rfl⟩ := h
    refine ⟨hreads.tryClean.1, ?_⟩
    obtain ⟨history, heq, hagrees⟩ | ⟨error, heq, hdead⟩ := htracks.elim
    · obtain ⟨earlier, rfl, hearlier⟩ := result_bind_eq_ok.mp heq
      rw [result_bind_ok, decodeUntil_eq, hearlier]
      simp only [Block.commit_finalBlock, hfinal, if_true]
      exact ⟨hagrees.tryClean hreads, by rw [List.map_append]; rfl⟩
    · rw [refused_decodeUntil heq]
      exact hdead.tryClean hreads
  | case3 bit blocks m m1 block next hblock hfinal hstop =>
    obtain ⟨hreads, htracks⟩ := tracks.decodeBlock reads hblock
    rw [decodeUntil_eq, hblock] at h
    simp only [hfinal, if_pos hstop, Bool.false_eq_true, if_false, Except.ok.injEq,
      Prod.mk.injEq] at h
    obtain ⟨rfl, rfl, rfl, rfl⟩ := h
    refine ⟨hreads.tryClean.1, ?_⟩
    obtain ⟨history, heq, hagrees⟩ | ⟨error, heq, hdead⟩ := htracks.elim
    · obtain ⟨earlier, rfl, hearlier⟩ := result_bind_eq_ok.mp heq
      rw [result_bind_ok, decodeUntil_eq, hearlier]
      simp only [Block.commit_finalBlock, hfinal, Bool.false_eq_true, if_false]
      rw [if_pos (by exact hstop)]
      exact ⟨hagrees.tryClean hreads, by rw [List.map_append]; rfl⟩
    · rw [refused_decodeUntil heq]
      exact hdead.tryClean hreads
  | case4 bit blocks m m1 block next hblock hfinal hstop ih =>
    obtain ⟨hreads, htracks⟩ := tracks.decodeBlock reads hblock
    rw [decodeUntil_eq, hblock] at h
    simp only [hfinal, if_neg hstop, Bool.false_eq_true, if_false] at h
    obtain ⟨history, heq, hagrees⟩ | ⟨error, heq, hdead⟩ := htracks.elim
    · obtain ⟨earlier, rfl, hearlier⟩ := result_bind_eq_ok.mp heq
      obtain ⟨hreads', htracks'⟩ := ih (hagrees.tryClean hreads) hreads.tryClean.1 h
      rw [result_bind_ok, decodeUntil_eq, hearlier]
      simp only [Block.commit_finalBlock, hfinal, Bool.false_eq_true, if_false]
      rw [if_neg (by exact hstop)]
      rw [result_bind_ok, List.map_append] at htracks'
      exact ⟨hreads', htracks'⟩
    · rw [refused_decodeUntil heq]
      obtain ⟨hreads', htracks'⟩ := ih (hdead.tryClean hreads) hreads.tryClean.1 h
      exact ⟨hreads', htracks'⟩

end Tracks

variable {crc : Crc32} {data : List UInt8} {startBit stopBit limit : Nat} {segment : Segment crc}

/-- A segment resolved against the window of a history, beside decoding its blocks behind that
history. -/
private theorem resolveSegment_cases
    (h : decodeSegment crc data startBit stopBit .unknown limit = .ok segment)
    (before : List UInt8) :
    (∃ resolved, resolveSegment segment (lastWindow before) = .ok resolved ∧
      decodeUntil data stopBit id startBit [] (⟨before⟩ : History) =
        .ok (⟨before ++ resolved.bytes⟩, segment.blocks.map (Block.commit 0 before.length),
          segment.endBit, segment.finalBlock)) ∨
      (∃ error, resolveSegment segment (lastWindow before) = .error error) ∧
        ∃ error, decodeUntil data stopBit id startBit [] (⟨before⟩ : History) = .error error := by
  obtain ⟨-, -, m, hloop, hm, hc, hs, -⟩ := decodeSegment_until h
  have hagrees : Tracks before (MarkerOutput.new .unknown limit) (.ok ⟨before⟩) :=
    agrees_new before limit
  obtain ⟨hreads, htracks⟩ := hagrees.decodeUntil (Reads.new limit) hloop
  have hview : (view (lastWindow before) m).drop windowSize =
      m.marked.map (place (lastWindow before)) ++ (m.clean.drop m.cleanStart).map some := by
    rw [view, List.map_append, List.append_assoc,
      List.drop_left' (by rw [List.length_map, windowSymbols_length])]
  rw [result_bind_ok, List.map_nil] at htracks
  obtain ⟨⟨bytes⟩, heq, hagrees⟩ | ⟨error, heq, hdead⟩ := htracks.elim
  · left
    obtain ⟨since, hsince, hbytes⟩ := hagrees
    rw [hsince, List.drop_left' (placedWindow_length before)] at hview
    -- The symbols are read off the front of what was decoded since.
    obtain ⟨marked, clean, rfl, hmarked, hclean⟩ := List.map_eq_append_iff.mp hview
    have hresolved := (resolveSymbols_eq_ok hreads.symbols).mpr hmarked.symm
    rw [(List.map_injective_iff.mpr (Option.some_injective _)).eq_iff] at hclean
    refine ⟨_, by rw [resolveSegment, hm, hresolved, result_bind_ok]; rfl, ?_⟩
    rw [heq, ResolvedSegment.bytes, hc, hs]
    dsimp only at hbytes ⊢
    rw [hbytes, hclean]
  · right
    refine ⟨?_, error, heq⟩
    rw [Tracks, Dead, hview] at hdead
    have hmissing : none ∈ m.marked.map (place (lastWindow before)) := by
      refine (List.mem_append.mp hdead).resolve_right fun hclean => ?_
      obtain ⟨byte, -, hbyte⟩ := List.mem_map.mp hclean
      cases hbyte
    obtain ⟨error, hresolve⟩ := resolveSymbols_error hreads.symbols hmissing
    exact ⟨error, by rw [resolveSegment, hm, hresolve, result_bind_error]⟩

/-- Resolving a segment succeeds exactly when its blocks decode behind the real history, and then
gives the bytes this appends. -/
theorem resolveSegment_iff
    (h : decodeSegment crc data startBit stopBit .unknown limit = .ok segment)
    (before : List UInt8) :
    ((∃ resolved, resolveSegment segment (lastWindow before) = .ok resolved) ↔
      ∃ decoded, decodeUntil data stopBit id startBit [] (⟨before⟩ : History) = .ok decoded) ∧
    ∀ resolved, resolveSegment segment (lastWindow before) = .ok resolved →
      decodeUntil data stopBit id startBit [] (⟨before⟩ : History) =
        .ok (⟨before ++ resolved.bytes⟩, segment.blocks.map (Block.commit 0 before.length),
          segment.endBit, segment.finalBlock) := by
  obtain ⟨resolved, hresolved, hdecoded⟩ | ⟨⟨error, hresolved⟩, error', hdecoded⟩ :=
    resolveSegment_cases h before
  · refine ⟨⟨fun _ => ⟨_, hdecoded⟩, fun _ => ⟨resolved, hresolved⟩⟩, fun resolved' heq => ?_⟩
    obtain rfl := Except.ok.inj (hresolved.symm.trans heq)
    exact hdecoded
  · rw [hresolved, hdecoded]
    simp

theorem overlap_resolves : ∃ (segment : Segment Crc32.reference) (resolved : _),
    decodeSegment Crc32.reference [3, 2, 0] 0 0 .unknown 8 = .ok segment ∧
      resolveSegment segment (lastWindow [0x61]) = .ok resolved := by
  have hresolves : (decodeSegment Crc32.reference [3, 2, 0] 0 0 .unknown 8 >>= fun segment =>
      resolveSegment segment (lastWindow [0x61])).toOption.isSome := by decide +kernel
  cases hsegment : decodeSegment Crc32.reference [3, 2, 0] 0 0 .unknown 8 with
  | error error => simp [hsegment, Except.toOption] at hresolves
  | ok segment =>
    rw [hsegment, result_bind_ok] at hresolves
    cases hresolved : resolveSegment segment (lastWindow [0x61]) with
    | error error => simp [hresolved, Except.toOption] at hresolves
    | ok resolved => exact ⟨segment, resolved, rfl, hresolved⟩

theorem resolveSegment_iff_overlap :
    ∃ segment : Segment Crc32.reference,
      decodeSegment Crc32.reference [3, 2, 0] 0 0 .unknown 8 = .ok segment ∧
      ∃ resolved, resolveSegment segment (lastWindow [0x61]) = .ok resolved ∧
        decodeUntil [3, 2, 0] 0 id 0 [] (⟨[0x61]⟩ : History) =
          .ok (⟨[0x61] ++ resolved.bytes⟩, segment.blocks.map (Block.commit 0 1),
            segment.endBit, segment.finalBlock) := by
  obtain ⟨segment, resolved, hsegment, hresolved⟩ := overlap_resolves
  exact ⟨segment, hsegment, resolved, hresolved,
    (resolveSegment_iff hsegment [0x61]).2 resolved hresolved⟩

end Fbz.Deflate
