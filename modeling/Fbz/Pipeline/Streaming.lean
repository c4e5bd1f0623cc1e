import Mathlib.Data.List.Nodup
import Mathlib.Data.List.Perm.Basic
import Fbz.Error

/-!
# Streaming pipeline

The worker pool of the encoders. Jobs run on the pool in any order; the coordinator takes results
in the order of submission. `arrival` fixes the order in which jobs finish: it picks, for the
n-th message received, one of the jobs still out. Whatever it picks, the pool is a queue.
-/

namespace Fbz.Pipeline

/-- Why a call does not return a value: an error, or a wait that nothing ends. -/
inductive Halt
  | failed (error : Error)
  | blocked
  deriving DecidableEq, Repr

/-- The `?` of the source on a result. -/
def liftResult {α : Type} : Result α → Except Halt α
  | .ok a => .ok a
  | .error error => .error (.failed error)

@[simp] theorem liftResult_ok {α : Type} (a : α) : liftResult (.ok a : Result α) = .ok a := rfl

structure StreamingMessage (T : Type) where
  key : Nat
  reservation : Nat
  result : T

/-- `StreamingOrdered` with the messages of jobs that are still out. Jobs do not panic, and what
they return does not depend on when they run. -/
structure StreamingOrdered (T : Type) where
  arrival : Nat → Nat
  received : Nat := 0
  inFlight : List (StreamingMessage T) := []
  ready : List (StreamingMessage T) := []
  nextSubmit : Nat := 0
  nextTake : Nat := 0
  reserved : Nat := 0
  active : Nat := 0
  maxActive : Nat
  memoryLimit : Nat

namespace StreamingOrdered

variable {T : Type}

def new (threads memoryLimit : Nat) (arrival : Nat → Nat) : StreamingOrdered T :=
  { arrival, maxActive := max threads 1, memoryLimit }

def canSubmit (s : StreamingOrdered T) (reservation : Nat) : Bool :=
  decide (s.active < s.maxActive) && decide (reservation ≤ s.memoryLimit - s.reserved)

def enqueue (s : StreamingOrdered T) (reservation : Nat) (job : T) : StreamingOrdered T :=
  { s with
    nextSubmit := s.nextSubmit + 1
    active := s.active + 1
    reserved := s.reserved + reservation
    inFlight := s.inFlight ++ [⟨s.nextSubmit, reservation, job⟩] }

def submit (s : StreamingOrdered T) (reservation : Nat) (job : T) :
    Except Halt (StreamingOrdered T) := do
  liftResult (ensure (reservation ≤ s.memoryLimit)
    (.invalidConfiguration "a streaming job reservation exceeds the memory limit"))
  liftResult (ensure (s.canSubmit reservation)
    (.invalidConfiguration "streaming pipeline is full"))
  return s.enqueue reservation job

/-- One message is received and filed under its key. -/
def deliver (s : StreamingOrdered T) (index : Fin s.inFlight.length) : StreamingOrdered T :=
  { s with
    received := s.received + 1
    inFlight := s.inFlight.eraseIdx index
    ready := s.inFlight.get index :: s.ready.filter (·.key ≠ (s.inFlight.get index).key) }

/-- Receive messages until the one with the next key is there. -/
def receive (s : StreamingOrdered T) : Except Halt (StreamingOrdered T) :=
  if s.ready.any (·.key = s.nextTake) then .ok s
  else if h : s.inFlight.length = 0 then .error .blocked
  else receive (s.deliver ⟨s.arrival s.received % s.inFlight.length,
    Nat.mod_lt _ (Nat.pos_iff_ne_zero.mpr h)⟩)
termination_by s.inFlight.length
decreasing_by
  simp only [deliver, List.length_eraseIdx]
  rw [if_pos (Nat.mod_lt _ (Nat.pos_iff_ne_zero.mpr h))]
  omega

/-- The message is removed and its reservation given back. -/
def release (s : StreamingOrdered T) (message : StreamingMessage T) : StreamingOrdered T :=
  { s with
    ready := s.ready.filter (·.key ≠ message.key)
    nextTake := s.nextTake + 1
    active := s.active - 1
    reserved := s.reserved - message.reservation }

def takeNext (s : StreamingOrdered T) : Except Halt (T × StreamingOrdered T) := do
  liftResult (ensure (s.nextTake < s.nextSubmit)
    (.invalidConfiguration "streaming pipeline has no pending result"))
  let s ← s.receive
  match s.ready.find? (·.key = s.nextTake) with
  | none => .error .blocked
  | some message => return (message.result, s.release message)

def hasPending (s : StreamingOrdered T) : Bool := decide (s.nextTake < s.nextSubmit)

/-- Messages of the queue, numbered from `key` on. -/
def numbered (key : Nat) : List (Nat × T) → List (StreamingMessage T)
  | [] => []
  | (reservation, result) :: queue => ⟨key, reservation, result⟩ :: numbered (key + 1) queue

/-- The pool stands for the queue of pairs of a reservation and a result. -/
structure Holds (s : StreamingOrdered T) (queue : List (Nat × T)) : Prop where
  messages : (s.inFlight ++ s.ready).Perm (numbered s.nextTake queue)
  submitted : s.nextSubmit = s.nextTake + queue.length
  active : s.active = queue.length
  reserved : s.reserved = (queue.map Prod.fst).sum

/-- Two states have the same limits. -/
def SameLimits (s t : StreamingOrdered T) : Prop :=
  s.maxActive = t.maxActive ∧ s.memoryLimit = t.memoryLimit

private theorem numbered_append (key : Nat) (queue rest : List (Nat × T)) :
    numbered key (queue ++ rest) = numbered key queue ++ numbered (key + queue.length) rest := by
  induction queue generalizing key with
  | nil => rfl
  | cons entry queue ih =>
    simp only [List.cons_append, numbered, ih, List.length_cons, Nat.add_assoc, Nat.add_comm 1]

private theorem numbered_key_le {key : Nat} {queue : List (Nat × T)} {message : StreamingMessage T}
    (mem : message ∈ numbered key queue) : key ≤ message.key := by
  induction queue generalizing key with
  | nil => cases mem
  | cons entry queue ih =>
    rcases List.mem_cons.mp mem with rfl | hmem
    · exact Nat.le_refl _
    · exact Nat.le_trans (Nat.le_succ key) (ih hmem)

private theorem numbered_keys_nodup (key : Nat) (queue : List (Nat × T)) :
    ((numbered key queue).map StreamingMessage.key).Nodup := by
  induction queue generalizing key with
  | nil => exact List.nodup_nil
  | cons entry queue ih =>
    refine List.nodup_cons.mpr ⟨fun hmem => ?_, ih (key + 1)⟩
    obtain ⟨message, hm, hkey⟩ := List.mem_map.mp hmem
    have := numbered_key_le hm
    dsimp only at hkey
    omega

private theorem filter_key_eq_self {key : Nat} {messages : List (StreamingMessage T)}
    (h : key ∉ messages.map StreamingMessage.key) : messages.filter (·.key ≠ key) = messages := by
  refine List.filter_eq_self.mpr fun message hm => ?_
  simp only [ne_eq, decide_eq_true_eq]
  exact fun heq => h (heq ▸ List.mem_map_of_mem hm)

theorem holds_new (threads memoryLimit : Nat) (arrival : Nat → Nat) :
    (new threads memoryLimit arrival : StreamingOrdered T).Holds [] :=
  ⟨List.Perm.refl _, rfl, rfl, rfl⟩

variable {s : StreamingOrdered T} {queue : List (Nat × T)}

theorem Holds.hasPending (h : s.Holds queue) : s.hasPending = true ↔ queue ≠ [] := by
  rw [StreamingOrdered.hasPending, decide_eq_true_eq, h.submitted]
  cases queue <;> simp

theorem Holds.canSubmit_nil {reservation : Nat} (h : s.Holds []) (threads : 0 < s.maxActive)
    (fits : reservation ≤ s.memoryLimit) : s.canSubmit reservation = true := by
  have hactive := h.active
  have hreserved := h.reserved
  simp only [List.length_nil, List.map_nil, List.sum_nil] at hactive hreserved
  simp [canSubmit, hactive, hreserved, threads, fits]

theorem Holds.enqueue (h : s.Holds queue) (reservation : Nat) (job : T) :
    (s.enqueue reservation job).Holds (queue ++ [(reservation, job)]) where
  messages := by
    rw [StreamingOrdered.enqueue]
    dsimp only
    rw [numbered_append, ← h.submitted, numbered, numbered]
    refine List.Perm.trans ?_ (h.messages.append_right _)
    simp only [List.append_assoc]
    exact List.Perm.append_left _ List.perm_append_comm
  submitted := by simp [StreamingOrdered.enqueue, h.submitted, Nat.add_assoc]
  active := by simp [StreamingOrdered.enqueue, h.active]
  reserved := by simp [StreamingOrdered.enqueue, h.reserved]

theorem submit_eq {reservation : Nat} (job : T) (room : s.canSubmit reservation = true) :
    s.submit reservation job = .ok (s.enqueue reservation job) := by
  have hfits : reservation ≤ s.memoryLimit := by
    simp only [canSubmit, Bool.and_eq_true, decide_eq_true_eq] at room
    omega
  rw [submit, ensure_of hfits, ensure_of room]
  rfl

private theorem Holds.keys_nodup (h : s.Holds queue) :
    ((s.inFlight ++ s.ready).map StreamingMessage.key).Nodup :=
  (h.messages.map _).nodup_iff.mpr (numbered_keys_nodup _ _)

theorem Holds.deliver (h : s.Holds queue) (index : Fin s.inFlight.length) :
    (s.deliver index).Holds queue := by
  have hsplit : (s.inFlight[index.1] :: s.inFlight.eraseIdx index.1).Perm s.inFlight :=
    List.getElem_cons_eraseIdx_perm index.2
  have hnodup := h.keys_nodup
  rw [List.map_append, List.nodup_append] at hnodup
  have hfilter := filter_key_eq_self fun hmem => hnodup.2.2 _
    (List.mem_map_of_mem (List.getElem_mem index.2)) _ hmem rfl
  refine ⟨?_, h.submitted, h.active, h.reserved⟩
  refine List.Perm.trans ?_ h.messages
  simp only [StreamingOrdered.deliver, List.get_eq_getElem, hfilter]
  exact List.perm_middle.trans (hsplit.append_right s.ready)

theorem Holds.front {reservation : Nat} {result : T} {message : StreamingMessage T}
    (h : s.Holds ((reservation, result) :: queue)) (mem : message ∈ s.inFlight ++ s.ready)
    (key : message.key = s.nextTake) : message = ⟨s.nextTake, reservation, result⟩ := by
  rcases List.mem_cons.mp (h.messages.subset mem) with rfl | hlater
  · rfl
  · have := numbered_key_le hlater
    omega

private theorem Holds.receive {entry : Nat × T} (h : s.Holds (entry :: queue)) :
    ∃ t, s.receive = .ok t ∧ t.Holds (entry :: queue) ∧ t.nextTake = s.nextTake ∧
      SameLimits t s ∧ ⟨t.nextTake, entry.1, entry.2⟩ ∈ t.ready := by
  induction s using StreamingOrdered.receive.induct with
  | case1 s found =>
    refine ⟨s, by rw [StreamingOrdered.receive, if_pos found], h, rfl, ⟨rfl, rfl⟩, ?_⟩
    obtain ⟨message, hm, hkey⟩ := List.any_eq_true.mp found
    rwa [h.front (List.mem_append_right _ hm) (of_decide_eq_true hkey)] at hm
  | case2 s missing idle =>
    have hready : (⟨s.nextTake, entry.1, entry.2⟩ : StreamingMessage T) ∈ s.ready := by
      have := h.messages.symm.subset (List.mem_cons_self ..)
      rwa [List.eq_nil_of_length_eq_zero idle, List.nil_append] at this
    exact absurd (List.any_eq_true.mpr ⟨_, hready, by simp⟩) missing
  | case3 s missing busy ih =>
    rw [StreamingOrdered.receive, if_neg missing, dif_neg busy]
    exact ih (h.deliver _)

theorem Holds.release {reservation : Nat} {result : T}
    (h : s.Holds ((reservation, result) :: queue))
    (hmem : ⟨s.nextTake, reservation, result⟩ ∈ s.ready) :
    (s.release ⟨s.nextTake, reservation, result⟩).Holds queue where
  messages := by
    have hnodup := h.keys_nodup
    obtain ⟨before, after, hready⟩ := List.append_of_mem hmem
    rw [hready, ← List.append_assoc, List.map_append, List.map_cons, List.nodup_middle,
      ← List.map_append] at hnodup
    have hout := (List.nodup_cons.mp hnodup).1
    simp only [List.map_append, List.mem_append, not_or] at hout
    simp only [StreamingOrdered.release, hready, List.filter_append, List.filter_cons]
    rw [filter_key_eq_self hout.1.2, filter_key_eq_self hout.2, if_neg (by simp)]
    have hperm := h.messages
    rw [hready, ← List.append_assoc] at hperm
    have := (List.perm_middle.symm.trans hperm).cons_inv
    rwa [List.append_assoc] at this
  submitted := by
    have := h.submitted
    simp only [List.length_cons] at this
    simp only [StreamingOrdered.release]
    omega
  active := by simp [StreamingOrdered.release, h.active]
  reserved := by simp [StreamingOrdered.release, h.reserved]

/-- The results come out in the order of submission, whatever the order of completion. -/
theorem Holds.takeNext {reservation : Nat} {result : T} (h : s.Holds ((reservation, result) :: queue)) :
    ∃ t, s.takeNext = .ok (result, t) ∧ t.Holds queue ∧ SameLimits t s := by
  have hpending : s.nextTake < s.nextSubmit := by
    rw [h.submitted, List.length_cons]
    omega
  obtain ⟨t, hreceive, ht, -, hlimits, hmem⟩ := h.receive
  have hfind : t.ready.find? (·.key = t.nextTake) = some ⟨t.nextTake, reservation, result⟩ := by
    obtain ⟨message, hmessage⟩ := Option.isSome_iff_exists.mp
      (List.find?_isSome.mpr ⟨_, hmem, by simp⟩ :
        (t.ready.find? fun message => decide (message.key = t.nextTake)).isSome)
    have hkey : message.key = t.nextTake := by simpa using List.find?_some hmessage
    rwa [ht.front (List.mem_append_right _ (List.mem_of_find?_eq_some hmessage)) hkey] at hmessage
  refine ⟨t.release ⟨t.nextTake, reservation, result⟩, ?_, ht.release hmem, hlimits⟩
  rw [StreamingOrdered.takeNext, ensure_of hpending, hreceive]
  simp only [liftResult_ok, result_bind_ok, hfind]
  rfl

private theorem receive_counters {t : StreamingOrdered T} (h : s.receive = .ok t) :
    t.nextSubmit = s.nextSubmit ∧ t.nextTake = s.nextTake := by
  induction s using StreamingOrdered.receive.induct with
  | case1 s found =>
    rw [StreamingOrdered.receive, if_pos found] at h
    obtain rfl := Except.ok.inj h
    exact ⟨rfl, rfl⟩
  | case2 s missing idle =>
    rw [StreamingOrdered.receive, if_neg missing, dif_pos idle] at h
    cases h
  | case3 s missing busy ih =>
    rw [StreamingOrdered.receive, if_neg missing, dif_neg busy] at h
    exact ih h

/-- Taking a result moves on to the next. -/
theorem takeNext_advances {t : StreamingOrdered T} {result : T}
    (h : s.takeNext = .ok (result, t)) :
    t.nextSubmit - t.nextTake < s.nextSubmit - s.nextTake := by
  obtain ⟨u, hpending, h⟩ := result_bind_eq_ok.mp h
  obtain ⟨mid, hreceive, h⟩ := result_bind_eq_ok.mp h
  obtain ⟨hsubmit, htake⟩ := receive_counters hreceive
  have hlt : s.nextTake < s.nextSubmit := by
    by_cases hlt : s.nextTake < s.nextSubmit
    · exact hlt
    · rw [ensure_of_not hlt] at hpending
      cases hpending
  split at h
  · cases h
  · obtain ⟨-, rfl⟩ := Prod.mk.inj (Except.ok.inj h)
    simp only [release]
    omega

end StreamingOrdered

end Fbz.Pipeline
