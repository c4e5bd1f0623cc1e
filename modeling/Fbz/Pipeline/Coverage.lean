import Fbz.Pipeline.Intake

/-!
# The parts of the input

The buffers of the jobs follow each other through the input, whatever calls it came in: what a
buffer begins with is the end of everything before it, and what it adds comes next.
-/

namespace Fbz.Pipeline

/-- Buffers, each with the length of what it repeats, lead from these bytes to those. -/
inductive Continues : List UInt8 → List (List UInt8 × Nat) → List UInt8 → Prop
  | done (before : List UInt8) : Continues before [] before
  | part {before front chunk after : List UInt8} {parts : List (List UInt8 × Nat)}
      (behind : front <:+ before) (rest : Continues (before ++ chunk) parts after) :
      Continues before ((front ++ chunk, front.length) :: parts) after

namespace Intake

variable {T H B : Type} {k : Cutting T H} {commit : B → T → B} {i : Intake H}

/-- The bytes that no job has yet: in the buffer, in the write at hand, in the calls to come. -/
def ahead (i : Intake H) : List UInt8 :=
  i.buffer.drop i.prefixLen ++ (i.bytes ++ (i.calls.map Call.bytes).flatten)

/-- What the buffer repeats is the end of these bytes. -/
def Follows (i : Intake H) (before : List UInt8) : Prop := i.buffer.take i.prefixLen <:+ before

/-- These jobs take everything that is ahead. -/
def Takes (k : Cutting T H) (i : Intake H) (before : List UInt8) (jobs : List T) : Prop :=
  ∃ parts, jobs = parts.map (fun part => k.job i.level part.1 part.2) ∧
    Continues before parts (before ++ i.ahead)

variable {before : List UInt8}

private theorem fill_submit_bytes (full : i.size ≤ i.buffer.length - i.prefixLen + i.bytes.length) :
    ∃ chunk bytes, i.fill k = .submit (k.job i.level (i.buffer ++ chunk) i.prefixLen)
        (i.submitted k (i.buffer ++ chunk) bytes) ∧ chunk ++ bytes = i.bytes := by
  have hroom := i.room
  have hwithin := i.within
  have htake : min i.bytes.length (i.size - (i.buffer.length - i.prefixLen)) =
      i.size - (i.buffer.length - i.prefixLen) := by omega
  have hlength : (i.buffer ++ i.bytes.take (i.size - (i.buffer.length - i.prefixLen))).length -
      i.prefixLen = i.size := by
    rw [List.length_append, List.length_take]
    omega
  refine ⟨_, _, ?_, List.take_append_drop (i.size - (i.buffer.length - i.prefixLen)) i.bytes⟩
  unfold fill place
  simp only [htake]
  rw [dif_pos hlength]

private theorem takes_submitted {chunk bytes : List UInt8} {jobs : List T}
    (kept : ∀ buffer, k.kept buffer <:+ buffer) (follows : i.Follows before)
    (split : chunk ++ bytes = i.bytes)
    (rest : ∀ before, (i.submitted k (i.buffer ++ chunk) bytes).Follows before →
      Takes k (i.submitted k (i.buffer ++ chunk) bytes) before jobs) :
    Takes k i before (k.job i.level (i.buffer ++ chunk) i.prefixLen :: jobs) := by
  have hfront : (i.buffer.take i.prefixLen).length = i.prefixLen :=
    List.length_take_of_le i.within
  have hbuffer : i.buffer.take i.prefixLen ++ (i.buffer.drop i.prefixLen ++ chunk) =
      i.buffer ++ chunk := by
    rw [← List.append_assoc, List.take_append_drop]
  have hnext : (i.submitted k (i.buffer ++ chunk) bytes).Follows
      (before ++ (i.buffer.drop i.prefixLen ++ chunk)) := by
    show (k.kept (i.buffer ++ chunk)).take (k.kept (i.buffer ++ chunk)).length <:+ _
    rw [List.take_length]
    apply (kept _).trans
    obtain ⟨older, holder⟩ := follows
    exact ⟨older, by rw [← hbuffer, ← List.append_assoc, holder]⟩
  have hahead : (i.submitted k (i.buffer ++ chunk) bytes).ahead =
      bytes ++ (i.calls.map Call.bytes).flatten := by
    have hnone : (k.kept (i.buffer ++ chunk)).drop (k.kept (i.buffer ++ chunk)).length = [] :=
      List.drop_length
    simp only [ahead, submitted, hnone, List.nil_append]
  have hsame : before ++ (i.buffer.drop i.prefixLen ++ chunk) ++
      (bytes ++ (i.calls.map Call.bytes).flatten) = before ++ i.ahead := by
    simp only [ahead, ← split, List.append_assoc]
  obtain ⟨parts, rfl, hparts⟩ := rest _ hnext
  rw [hahead, hsame] at hparts
  have hpart := Continues.part follows hparts
  rw [hbuffer, hfront] at hpart
  exact ⟨_, rfl, hpart⟩

/-- The jobs take everything that is ahead, one buffer after the other. -/
theorem jobs_take (kept : ∀ buffer, k.kept buffer <:+ buffer) (follows : i.Follows before) :
    Takes k i before ((k.client commit).jobs i) := by
  induction hn : i.remaining using Nat.strongRecOn generalizing i before with
  | ind n ih =>
    subst hn
    have hdecreases := (k.client commit).decreases i
    -- A next state with the same bytes ahead behind the same bytes, and no job on the way.
    have hmoved {next : Intake H} (hnext : ((k.client commit).request i).next? = some next)
        (hjob : ((k.client commit).request i).job? = none) (hlevel : next.level = i.level)
        (hfollows : next.Follows before) (hahead : next.ahead = i.ahead) :
        Takes k i before ((k.client commit).jobs i) := by
      rw [Client.jobs_next hnext, hjob]
      have htakes := ih next.remaining (hdecreases next hnext) hfollows rfl
      rwa [Takes, hlevel, hahead] at htakes
    have hjobs {chunk bytes : List UInt8} (split : chunk ++ bytes = i.bytes)
        (hrequest : (k.client commit).request i =
          .submit (k.job i.level (i.buffer ++ chunk) i.prefixLen)
            (i.submitted k (i.buffer ++ chunk) bytes)) :
        Takes k i before ((k.client commit).jobs i) := by
      have hnext := congrArg Request.next? hrequest
      rw [Client.jobs_next hnext, hrequest]
      apply takes_submitted kept follows split
      intro before hfollows
      exact ih _ (hdecreases _ hnext) hfollows rfl
    by_cases hbytes : i.bytes = []
    case neg =>
      have hrequest : (k.client commit).request i = i.fill k := if_pos hbytes
      by_cases hfull : i.size ≤ i.buffer.length - i.prefixLen + i.bytes.length
      case pos =>
        obtain ⟨chunk, bytes, hfill, hsplit⟩ := @fill_submit_bytes T H k i hfull
        exact hjobs hsplit (hrequest.trans hfill)
      case neg =>
        rw [fill_open (Nat.not_le.mp hfull)] at hrequest
        have hwithin := i.within
        apply hmoved (congrArg Request.next? hrequest) (congrArg Request.job? hrequest) rfl
        · show (i.buffer ++ i.bytes).take i.prefixLen <:+ before
          rwa [List.take_append_of_le_length hwithin]
        · show (i.buffer ++ i.bytes).drop i.prefixLen ++ ([] ++ _) = _
          rw [List.drop_append_of_le_length hwithin, List.nil_append, List.append_assoc]
          rfl
    case pos =>
      have hrequest : (k.client commit).request i = i.request k := rfl
      rw [request, if_neg (not_not.mpr hbytes)] at hrequest
      -- Where the buffer has something, it is submitted first.
      have hsubmit {next : Request (Intake H) T} (used : ¬ i.buffer.length = i.prefixLen)
          (h : (k.client commit).request i = i.submitThen k next) :
          Takes k i before ((k.client commit).jobs i) := by
        rw [submitThen, if_neg used] at h
        apply @hjobs [] []
        · rw [hbytes, List.append_nil]
        · simpa only [List.append_nil] using h
      cases hcalls : i.calls with
      | nil =>
        rw [hcalls] at hrequest
        by_cases hnone : i.buffer.length = i.prefixLen
        case neg => exact hsubmit hnone hrequest
        case pos =>
          rw [submitThen, if_pos hnone] at hrequest
          have hempty : i.ahead = [] := by
            rw [ahead, hbytes, hcalls, ← hnone, List.drop_length]
            rfl
          rw [Client.jobs_finish (congrArg Request.next? hrequest)]
          refine ⟨[], rfl, ?_⟩
          rw [hempty, List.append_nil]
          exact .done before
      | cons call calls =>
        rw [hcalls] at hrequest
        cases call with
        | write bytes =>
          apply hmoved (congrArg Request.next? hrequest) (congrArg Request.job? hrequest) rfl
          · exact follows
          · simp only [ahead, hbytes, hcalls, List.nil_append, List.map_cons, List.flatten_cons,
              Call.bytes]
        | flush =>
          have hrequest : (k.client commit).request i =
            i.submitThen k (.drain { i with calls }) := hrequest
          by_cases hnone : i.buffer.length = i.prefixLen
          case neg => exact hsubmit hnone hrequest
          case pos =>
            rw [submitThen, if_pos hnone] at hrequest
            apply hmoved (congrArg Request.next? hrequest) (congrArg Request.job? hrequest) rfl
            · exact follows
            · simp only [ahead, hcalls, List.map_cons, List.flatten_cons, Call.bytes,
                List.nil_append]

theorem jobs_new_take (kept : ∀ buffer, k.kept buffer <:+ buffer) (level : Nat)
    (size : { size : Nat // 0 < size }) (hash : H) (calls : List Call) :
    ∃ parts, (k.client commit).jobs (.new level size hash calls) =
        parts.map (fun part => k.job level part.1 part.2) ∧
      Continues [] parts (calls.map Call.bytes).flatten :=
  @jobs_take T H B k commit (.new level size hash calls) [] kept (List.suffix_refl _)

end Intake

end Fbz.Pipeline
