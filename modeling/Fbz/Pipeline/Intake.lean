import Fbz.Pipeline.Session

/-!
# Cutting input into jobs

The input side of the gzip and LZ4 encoders: a buffer takes the bytes of the calls and is submitted
when it is full, on a flush and at the end. How the bytes are split over writes makes no difference.
-/

namespace Fbz.Pipeline

variable {T H : Type}

/-- What an encoder does with its buffers: the job of a buffer at a level, with the length of what
was kept from the last one; what is kept; and a hash that sees the bytes of every `write`. -/
structure Cutting (T H : Type) where
  job : Nat → List UInt8 → Nat → T
  kept : List UInt8 → List UInt8
  hash : H → List UInt8 → H
  hash_nil : ∀ h, hash h [] = h
  hash_append : ∀ h xs ys, hash (hash h xs) ys = hash h (xs ++ ys)

/-- The input side: `bytes` is what the current `write` still has to take. The buffer begins with
what was kept and has room. -/
structure Intake (H : Type) where
  level : Nat
  size : Nat
  buffer : List UInt8
  prefixLen : Nat
  hash : H
  bytes : List UInt8 := []
  calls : List Call
  within : prefixLen ≤ buffer.length
  room : buffer.length - prefixLen < size

namespace Intake

/-- An encoder that has not been given anything. -/
def new (level : Nat) (size : { size : Nat // 0 < size }) (hash : H) (calls : List Call) :
    Intake H where
  level
  size
  buffer := []
  prefixLen := 0
  hash
  calls
  within := Nat.le_refl _
  room := size.2

variable (k : Cutting T H)

/-- `submit_buffer` takes the buffer and keeps a part of it. -/
def submitted (i : Intake H) (buffer bytes : List UInt8) : Intake H :=
  { i with
    buffer := k.kept buffer
    prefixLen := (k.kept buffer).length
    bytes
    within := Nat.le_refl _
    room := by
      have := i.room
      omega }

/-- The buffer with what it has taken of `write`: it is submitted when it is full. -/
def place (i : Intake H) (buffer bytes : List UInt8) (within : i.prefixLen ≤ buffer.length)
    (room : buffer.length - i.prefixLen ≤ i.size) : Request (Intake H) T :=
  if h : buffer.length - i.prefixLen = i.size then
    .submit (k.job i.level buffer i.prefixLen) (i.submitted k buffer bytes)
  else .compute { i with buffer, bytes, within, room := Nat.lt_of_le_of_ne room h }

/-- One round of the loop of `write`. -/
def fill (i : Intake H) : Request (Intake H) T :=
  let take := min i.bytes.length (i.size - (i.buffer.length - i.prefixLen))
  i.place k (i.buffer ++ i.bytes.take take) (i.bytes.drop take)
    (by
      have := i.within
      rw [List.length_append]
      omega)
    (by
      have := i.room
      have := i.within
      rw [List.length_append, List.length_take]
      omega)

/-- `submit_buffer` where there is something in the buffer, and then another request. -/
def submitThen (i : Intake H) (next : Request (Intake H) T) : Request (Intake H) T :=
  if i.buffer.length = i.prefixLen then next
  else .submit (k.job i.level i.buffer i.prefixLen) (i.submitted k i.buffer [])

/-- The rest of a `write`, then the calls, then `finish`. -/
def request (i : Intake H) : Request (Intake H) T :=
  if i.bytes ≠ [] then i.fill k
  else
    match i.calls with
    | .write bytes :: calls => .compute { i with bytes, calls, hash := k.hash i.hash bytes }
    | .flush :: calls => i.submitThen k (.drain { i with calls })
    | [] => i.submitThen k .finish

def remaining (i : Intake H) : Nat :=
  2 * i.bytes.length + (i.calls.map Call.weight).sum +
    if i.buffer.length = i.prefixLen then 0 else 1

variable {k}

private theorem fill_decreases {i next : Intake H} (ne : i.bytes ≠ [])
    (h : (i.fill k).next? = some next) : next.remaining < i.remaining := by
  have hroom := i.room
  have hpos := List.length_pos_iff.mpr ne
  unfold fill place at h
  dsimp only at h
  split at h
  · obtain rfl := Option.some.inj h
    simp only [remaining, submitted, List.length_drop, if_true]
    omega
  · obtain rfl := Option.some.inj h
    simp only [remaining, List.length_drop]
    split <;> omega

private theorem submitThen_decreases {i next : Intake H} {after : Request (Intake H) T}
    (empty : i.bytes = []) (less : ∀ next, after.next? = some next → next.remaining < i.remaining)
    (h : (i.submitThen k after).next? = some next) : next.remaining < i.remaining := by
  unfold submitThen at h
  split at h
  · exact less next h
  · next hused =>
    obtain rfl := Option.some.inj h
    simp only [remaining, submitted, empty, hused, if_true, if_false]
    omega

private theorem request_decreases (i next : Intake H) (h : (i.request k).next? = some next) :
    next.remaining < i.remaining := by
  unfold request at h
  split at h
  · next hne => exact fill_decreases hne h
  · next hempty =>
    have hempty := not_not.mp hempty
    split at h
    · next bytes calls hcalls =>
      obtain rfl := Option.some.inj h
      simp only [remaining, hempty, hcalls, List.map_cons, List.sum_cons, Call.weight,
        List.length_nil]
      omega
    · next calls hcalls =>
      refine submitThen_decreases hempty (fun next h => ?_) h
      obtain rfl := Option.some.inj h
      simp only [remaining, hempty, hcalls, List.map_cons, List.sum_cons, Call.weight]
      omega
    · refine submitThen_decreases hempty (fun next h => ?_) h
      cases h

end Intake

/-- The client with this input side; `flush` only passes on to the writer. -/
def Cutting.client {B : Type} (k : Cutting T H) (commit : B → T → B) : Client (Intake H) B T where
  request := Intake.request k
  commit := commit
  touch := id
  remaining := Intake.remaining
  decreases := Intake.request_decreases
  touch_commit _ _ := rfl

namespace Intake

variable {B : Type} {k : Cutting T H} {commit : B → T → B}

/-- The same state with all bytes in the write at hand. -/
def single (i : Intake H) (bytes : List UInt8) : Intake H := { i with bytes, calls := [] }

private theorem request_single {i : Intake H} {bytes : List UInt8} (ne : bytes ≠ []) :
    (k.client commit).request (i.single bytes) = (i.single bytes).fill k := if_pos ne

/-- The state with these bytes in the buffer, which stays open. -/
def buffered (i : Intake H) (bytes : List UInt8)
    (more : i.buffer.length - i.prefixLen + bytes.length < i.size) : Intake H :=
  { i with
    buffer := i.buffer ++ bytes
    within := by
      have := i.within
      rw [List.length_append]
      omega
    room := by
      have := i.within
      rw [List.length_append]
      omega }

theorem fill_open {i : Intake H}
    (more : i.buffer.length - i.prefixLen + i.bytes.length < i.size) :
    i.fill k = .compute { i.buffered i.bytes more with bytes := [] } := by
  have htake : min i.bytes.length (i.size - (i.buffer.length - i.prefixLen)) =
      i.bytes.length := by omega
  have hwithin := i.within
  unfold fill place
  dsimp only
  simp only [htake, List.take_length, List.drop_length]
  rw [dif_neg (by rw [List.length_append]; omega)]
  rfl

private theorem place_congr {i : Intake H} {buffer buffer' bytes bytes' : List UInt8}
    {within : i.prefixLen ≤ buffer.length} {room : buffer.length - i.prefixLen ≤ i.size}
    (hbuffer : buffer = buffer') (hbytes : bytes = bytes') :
    i.place k buffer bytes within room =
      i.place k buffer' bytes' (hbuffer ▸ within) (hbuffer ▸ room) := by
  subst hbuffer hbytes
  rfl

private theorem fill_buffered {i : Intake H} {front back : List UInt8}
    (more : i.buffer.length - i.prefixLen + front.length < i.size) :
    (i.single (front ++ back)).fill k = ((i.buffered front more).single back).fill k := by
  have hwithin := i.within
  obtain ⟨take, htake⟩ : ∃ take, take = min back.length
      (i.size - (i.buffer.length - i.prefixLen + front.length)) := ⟨_, rfl⟩
  have hfront : min (front ++ back).length (i.size - (i.buffer.length - i.prefixLen)) =
      front.length + take := by
    rw [List.length_append]
    omega
  have hback : min back.length (i.size - ((i.buffer ++ front).length - i.prefixLen)) = take := by
    rw [List.length_append]
    omega
  unfold fill
  refine (place_congr ?_ ?_).trans rfl
  · show i.buffer ++ (front ++ back).take
        (min (front ++ back).length (i.size - (i.buffer.length - i.prefixLen))) =
      i.buffer ++ front ++ back.take
        (min back.length (i.size - ((i.buffer ++ front).length - i.prefixLen)))
    rw [hfront, hback, List.take_append, List.take_of_length_le (by omega),
      Nat.add_sub_cancel_left, List.append_assoc]
  · show (front ++ back).drop
        (min (front ++ back).length (i.size - (i.buffer.length - i.prefixLen))) =
      back.drop (min back.length (i.size - ((i.buffer ++ front).length - i.prefixLen)))
    rw [hfront, hback, List.drop_append, List.drop_of_length_le (by omega),
      Nat.add_sub_cancel_left, List.nil_append]

private theorem jobs_buffered {i : Intake H} {front back : List UInt8} (ne : front ≠ [])
    (more : i.buffer.length - i.prefixLen + front.length < i.size) :
    (k.client commit).jobs (i.single (front ++ back)) =
      (k.client commit).jobs ((i.buffered front more).single back) := by
  by_cases hback : back = []
  · subst hback
    have hrequest : (k.client commit).request (i.single (front ++ [])) =
        .compute ((i.buffered front more).single []) := by
      rw [List.append_nil, request_single ne]
      exact @fill_open T H k (i.single front) more
    rw [Client.jobs_next (congrArg Request.next? hrequest), hrequest]
    rfl
  · refine Client.jobs_congr ?_
    rw [request_single (by simp [ne]), request_single hback, fill_buffered more]

private theorem fill_full {i : Intake H} {rest : List UInt8}
    (full : i.size ≤ i.buffer.length - i.prefixLen + i.bytes.length) :
    ∃ job next, i.fill k = .submit job next ∧ next.calls = i.calls ∧
      (i.single (i.bytes ++ rest)).fill k = .submit job (next.single (next.bytes ++ rest)) := by
  have hwithin := i.within
  obtain ⟨take, htake⟩ : ∃ take, take = i.size - (i.buffer.length - i.prefixLen) := ⟨_, rfl⟩
  have hsmall : min i.bytes.length (i.size - (i.buffer.length - i.prefixLen)) = take := by
    omega
  have hlarge : min (i.bytes ++ rest).length (i.size - (i.buffer.length - i.prefixLen)) =
      take := by
    rw [List.length_append]
    omega
  have hle : take ≤ i.bytes.length := by omega
  have hlength : (i.buffer ++ i.bytes.take take).length - i.prefixLen = i.size := by
    rw [List.length_append, List.length_take]
    have := i.room
    omega
  refine ⟨k.job i.level (i.buffer ++ i.bytes.take take) i.prefixLen,
    i.submitted k (i.buffer ++ i.bytes.take take) (i.bytes.drop take), ?_, rfl, ?_⟩
  · unfold fill place
    simp only [hsmall]
    rw [dif_pos hlength]
  · unfold fill place single
    dsimp only
    simp only [hlarge, List.take_append_of_le_length hle, List.drop_append_of_le_length hle]
    rw [dif_pos hlength]
    rfl

private theorem jobs_hash (i : Intake H) (hash : H) :
    (k.client commit).jobs ({ i with hash } : Intake H) = (k.client commit).jobs i := by
  refine Client.jobs_related (R := fun i j => ∃ hash, i = { j with hash }) ?_ ⟨hash, rfl⟩
  rintro _ i ⟨hash, rfl⟩
  show Request.Related _ (request k _) (request k i)
  unfold request
  dsimp only
  split
  · unfold fill place
    dsimp only
    split
    · exact .submit _ ⟨hash, rfl⟩
    · exact .compute ⟨hash, rfl⟩
  · split
    · exact .compute ⟨_, rfl⟩
    · unfold submitThen
      dsimp only
      split
      · exact .drain ⟨hash, rfl⟩
      · exact .submit _ ⟨hash, rfl⟩
    · unfold submitThen
      dsimp only
      split
      · exact .finish
      · exact .submit _ ⟨hash, rfl⟩

private theorem request_hash (i next : Intake H) (h : (i.request k).next? = some next) :
    k.hash next.hash (next.calls.map Call.bytes).flatten =
      k.hash i.hash (i.calls.map Call.bytes).flatten := by
  unfold request at h
  split at h
  · unfold fill place at h
    dsimp only at h
    split at h
    · obtain rfl := Option.some.inj h
      rfl
    · obtain rfl := Option.some.inj h
      rfl
  · split at h
    · next hcalls =>
      obtain rfl := Option.some.inj h
      rw [hcalls, List.map_cons, List.flatten_cons]
      exact k.hash_append _ _ _
    · next hcalls =>
      unfold submitThen at h
      split at h
      · obtain rfl := Option.some.inj h
        rw [hcalls]
        rfl
      · obtain rfl := Option.some.inj h
        rfl
    · unfold submitThen at h
      split at h
      · cases h
      · obtain rfl := Option.some.inj h
        rfl

/-- The hash at the end is that of all bytes. -/
theorem last_hash (i : Intake H) :
    ((k.client commit).last i).hash = k.hash i.hash (i.calls.map Call.bytes).flatten := by
  have hcalls : ((k.client commit).last i).calls = [] := by
    have hlast : (((k.client commit).last i).request k).next? = none :=
      Client.last_request (c := k.client commit) i
    unfold request at hlast
    split at hlast
    · unfold fill place at hlast
      dsimp only at hlast
      split at hlast <;> cases hlast
    · split at hlast
      · cases hlast
      · unfold submitThen at hlast
        split at hlast <;> cases hlast
      · assumption
  rw [← Client.last_invariant (c := k.client commit)
    (fun i => k.hash i.hash (i.calls.map Call.bytes).flatten) request_hash, hcalls]
  exact (k.hash_nil _).symm

/-- How the bytes are split over writes makes no difference to the jobs. -/
theorem jobs_single {i : Intake H} {writes : List (List UInt8)}
    (h : i.calls = writes.map Call.write) :
    (k.client commit).jobs i = (k.client commit).jobs (i.single (i.bytes ++ writes.flatten)) := by
  induction hn : i.remaining using Nat.strongRecOn generalizing i writes with
  | ind n ih =>
    by_cases hbytes : i.bytes = []
    · cases writes with
      | nil =>
        have hsame : i.single (i.bytes ++ [].flatten) = i := by
          rw [single, hbytes]
          cases i
          simp_all
        rw [hsame]
      | cons bytes writes =>
        have hrequest : (k.client commit).request i = .compute
            { i with bytes, calls := writes.map Call.write, hash := k.hash i.hash bytes } := by
          show request k i = _
          rw [request, if_neg (not_not.mpr hbytes), h]
          rfl
        have hnext := congrArg Request.next? hrequest
        rw [Client.jobs_next hnext, hrequest, hbytes]
        refine (ih _ (hn ▸ (k.client commit).decreases i _ hnext) rfl rfl).trans ?_
        exact jobs_hash (i.single (bytes ++ writes.flatten)) _
    · have hrequest : (k.client commit).request i = i.fill k := if_pos hbytes
      have hne : i.bytes ++ writes.flatten ≠ [] := by simp [hbytes]
      by_cases hfull : i.size ≤ i.buffer.length - i.prefixLen + i.bytes.length
      · obtain ⟨job, next, hfill, hcalls, hlarge⟩ := @fill_full T H k i writes.flatten hfull
        have hnext := congrArg Request.next? (hrequest.trans hfill)
        have hsingle := (@request_single T H B k commit i _ hne).trans hlarge
        rw [Client.jobs_next hnext, hrequest, hfill,
          Client.jobs_next (congrArg Request.next? hsingle), hsingle,
          ih _ (hn ▸ (k.client commit).decreases i next hnext) (hcalls.trans h) rfl]
        rfl
      · have hmore : i.buffer.length - i.prefixLen + i.bytes.length < i.size := by omega
        have hnext : ((k.client commit).request i).next? =
            some { i.buffered i.bytes hmore with bytes := [] } :=
          congrArg Request.next? (hrequest.trans (fill_open hmore))
        rw [jobs_buffered hbytes hmore, Client.jobs_next hnext, hrequest, fill_open hmore,
          ih _ (hn ▸ (k.client commit).decreases i _ hnext)
            (i := { i.buffered i.bytes hmore with bytes := [] }) h rfl]
        rfl

theorem jobs_new (level : Nat) (size : { size : Nat // 0 < size }) (hash : H)
    (writes : List (List UInt8)) :
    (k.client commit).jobs (.new level size hash (writes.map .write)) =
      (k.client commit).jobs ((Intake.new level size hash []).single writes.flatten) :=
  jobs_single rfl

end Intake

end Fbz.Pipeline
