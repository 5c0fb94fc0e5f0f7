import PeekableReader.Io.Grant
import PeekableReader.Script.Basic

/-!
# Peeking until a plan is complete

The operations that peek many times share one shape: as long as their plan asks for room,
they read a script once more and append what it hands over to the peek buffer, again
after each `Interrupted`. `collect` is that shape as a function of the bytes peeked and
the events of the script, with no buffer, no fuel and no poll in it.

`settled` skips what interrupts a single read.
-/

namespace PeekableReader

/-- What an operation does next, given the bytes peeked so far: stop, or grow the peek
buffer, which is refused or makes some room. -/
abbrev Plan := List UInt8 → Option (Except IoError Nat)

/-- The plan of `peek_exact`. -/
def exactPlan (grant : Grant) (total : Nat) : Plan := fun bytes =>
  if bytes.length < total then
    some ((grant bytes total).map fun () => total - bytes.length)
  else none

/-- The plan of `peek_to_end` and `peek_to_string`. -/
def growthPlan (grant : Grant) : Plan := fun bytes => some (growth grant bytes readChunk)

section Resize

open Buffer

variable {B : Type} [Buffer B] {grant : Grant} {b b' : B} {total : Nat}
  (hgrant : FollowsAt grant total b) (hlt : (asSlice b).length < total)
include hgrant hlt

theorem exactPlan_error {e : IoError} (h : resize b total = (.error e, b')) :
    exactPlan grant total (asSlice b) = some (.error e) := by
  have hfst := hgrant b .refl
  rw [h] at hfst
  rw [exactPlan, if_pos hlt, ← hfst]
  rfl

/-- What is granted is the room still missing. -/
theorem exactPlan_ok [LawfulBuffer B] (h : resize b total = (.ok (), b')) :
    ∃ room, asSlice b' = asSlice b ++ room ∧ (asSlice b).length + room.length = total ∧
      exactPlan grant total (asSlice b) = some (.ok room.length) := by
  obtain ⟨room, hroom, hlen⟩ := resize_grow h hlt.le
  have hfst := hgrant b .refl
  rw [h] at hfst
  refine ⟨room, hroom, by omega, ?_⟩
  rw [exactPlan, if_pos hlt, ← hfst, hlen]
  rfl

end Resize

/-- How the reading ends. -/
inductive Outcome where
  | done
  | eof
  | failed (e : IoError)
  | refused (e : IoError)
  deriving DecidableEq, Repr

namespace Outcome

/-- The result of `peek_exact`. -/
def exact (eofError : IoError) : Outcome → Except IoError Unit
  | done => .ok ()
  | eof => .error eofError
  | failed e | refused e => .error e

/-- The `loop_result` of `peek_to_string`. -/
def loopResult : Outcome → Except IoError Unit
  | done | eof => .ok ()
  | failed e | refused e => .error e

end Outcome

open Script

/-- Peek until the plan asks for no more, the reader has no more, or one of them fails. -/
def collect (plan : Plan) (bytes : List UInt8) (es : List Event) :
    Outcome × List UInt8 × List Event :=
  match plan bytes with
  | none => (.done, bytes, es)
  | some (.error e) => (.refused e, bytes, es)
  | some (.ok room) =>
    match _ : next room es with
    | (.ok d, es') =>
      if _ : d = [] then (.eof, bytes, es') else collect plan (bytes ++ d) es'
    | (.error e, es') =>
      if e.kind = .interrupted then collect plan bytes es' else (.failed e, bytes, es')
termination_by weight es
decreasing_by
  · exact (next_ok ‹_›).2.2 ‹_›
  · exact (next_error ‹_›).2

section Steps

variable {plan : Plan} {bytes d : List UInt8} {es es' : List Event} {room : Nat} {e : IoError}

theorem collect_done (h : plan bytes = none) : collect plan bytes es = (.done, bytes, es) := by
  rw [collect, h]

theorem collect_refused (h : plan bytes = some (.error e)) :
    collect plan bytes es = (.refused e, bytes, es) := by
  rw [collect, h]

theorem collect_eof (h : plan bytes = some (.ok room)) (hnext : next room es = (.ok [], es')) :
    collect plan bytes es = (.eof, bytes, es') := by
  rw [collect, h]
  simp only
  split <;> simp_all

theorem collect_data (h : plan bytes = some (.ok room)) (hnext : next room es = (.ok d, es'))
    (hd : d ≠ []) : collect plan bytes es = collect plan (bytes ++ d) es' := by
  rw [collect, h]
  simp only
  split <;> simp_all

theorem collect_interrupted (h : plan bytes = some (.ok room))
    (hnext : next room es = (.error e, es')) (he : e.kind = .interrupted) :
    collect plan bytes es = collect plan bytes es' := by
  rw [collect, h]
  simp only
  split <;> simp_all

theorem collect_failed (h : plan bytes = some (.ok room))
    (hnext : next room es = (.error e, es')) (he : e.kind ≠ .interrupted) :
    collect plan bytes es = (.failed e, bytes, es') := by
  rw [collect, h]
  simp only
  split <;> simp_all

end Steps

/-- The bytes collected are those the script handed over. -/
theorem collect_bytes (plan : Plan) (pre : List UInt8) (es : List Event) :
    ∃ d, (collect plan pre es).2.1 = pre ++ d ∧
      bytes es = d ++ bytes (collect plan pre es).2.2 := by
  fun_induction collect plan pre es with
  | case1 pre es h => exact ⟨[], by simp⟩
  | case2 pre es e h => exact ⟨[], by simp⟩
  | case3 pre es room h es' hnext => exact ⟨[], by simpa using (next_ok hnext).2.1⟩
  | case4 pre es room h d es' hnext hd ih =>
    obtain ⟨d', hpre, hbytes⟩ := ih
    exact ⟨d ++ d', by rw [hpre, List.append_assoc],
      by rw [(next_ok hnext).2.1, hbytes, List.append_assoc]⟩
  | case5 pre es room h e es' hnext he ih =>
    obtain ⟨d, hpre, hbytes⟩ := ih
    exact ⟨d, hpre, by rw [← (next_error hnext).1, hbytes]⟩
  | case6 pre es room h e es' hnext he => exact ⟨[], by simp [(next_error hnext).1]⟩

/-! ## Reads that are made again after each `Interrupted` -/

def Event.isInterrupted : Event → Bool
  | .error e => e.kind = .interrupted
  | .data _ => false

/-- The events from the first one on that ends a read. -/
def settled (es : List Event) : List Event := es.dropWhile Event.isInterrupted

theorem weight_settled_le (es : List Event) : weight (settled es) ≤ weight es := by
  induction es with
  | nil => exact Nat.le_refl _
  | cons e es ih =>
    rw [settled, List.dropWhile_cons]
    split
    · rw [weight_cons]
      exact Nat.le_add_left_of_le ih
    · exact Nat.le_refl _

/-- No bytes are passed over. -/
theorem bytes_settled (es : List Event) : bytes (settled es) = bytes es := by
  induction es with
  | nil => rfl
  | cons ev es ih =>
    match ev with
    | .data chunk => rfl
    | .error e =>
      rw [settled, List.dropWhile_cons]
      split
      · exact ih
      · rfl

theorem settled_interrupted {e : IoError} {es : List Event} (he : e.kind = .interrupted) :
    settled (.error e :: es) = settled es :=
  List.dropWhile_cons_of_pos (by simpa [Event.isInterrupted] using he)

/-- A read that is not answered with `Interrupted` is answered for good. -/
theorem settled_of_next {room : Nat} {es es' : List Event} {answer : Except IoError (List UInt8)}
    (h : next room es = (answer, es')) (hanswer : ∀ e, answer = .error e → e.kind ≠ .interrupted) :
    settled es = es := by
  match es with
  | [] => rfl
  | .data chunk :: es => exact List.dropWhile_cons_of_neg (by simp [Event.isInterrupted])
  | .error e :: es =>
    cases h
    exact List.dropWhile_cons_of_neg (by simpa [Event.isInterrupted] using hanswer e rfl)

theorem settled_of_head {es : List Event}
    (h : ∀ e, es.head? = some (.error e) → e.kind ≠ .interrupted) : settled es = es := by
  match es with
  | [] => rfl
  | .data chunk :: es => rfl
  | .error e :: es => exact List.dropWhile_cons_of_neg (by simpa [Event.isInterrupted] using h e rfl)

/-- A settled script does not answer with `Interrupted`. -/
theorem next_settled_ne {room : Nat} {es es' : List Event} {e : IoError}
    (h : next room (settled es) = (.error e, es')) : e.kind ≠ .interrupted := by
  induction es with
  | nil => cases h
  | cons ev es ih =>
    by_cases hev : ev.isInterrupted
    · rw [settled, List.dropWhile_cons_of_pos hev] at h
      exact ih h
    · rw [settled, List.dropWhile_cons_of_neg hev] at h
      match ev, hev with
      | .data chunk, _ => cases h
      | .error e, hev =>
        cases h
        simpa [Event.isInterrupted] using hev

/-- Collecting passes over what interrupts it. -/
theorem collect_settled {plan : Plan} {bytes : List UInt8} {room : Nat}
    (h : plan bytes = some (.ok room)) (es : List Event) :
    collect plan bytes (settled es) = collect plan bytes es := by
  induction es with
  | nil => rfl
  | cons ev es ih =>
    match ev with
    | .data chunk => rfl
    | .error e =>
      by_cases he : e.kind = .interrupted
      · rw [settled_interrupted he, ih]
        exact (collect_interrupted h rfl he).symm
      · have hnext : next room (.error e :: es) = (.error e, es) := rfl
        rw [settled_of_next hnext (by rintro e ⟨⟩; exact he)]

/-! ## Reading on -/

/-- The events `es'` are left of `es`: no error is new, and there is no more to read. -/
structure Script.ReadsOn (es es' : List Event) : Prop where
  mem {e : IoError} (h : Event.error e ∈ es') : Event.error e ∈ es
  weight_le : weight es' ≤ weight es

namespace Script.ReadsOn

theorem refl (es : List Event) : Script.ReadsOn es es := ⟨id, Nat.le_refl _⟩

theorem trans {es es' es'' : List Event} (h : Script.ReadsOn es es') (h' : Script.ReadsOn es' es'') :
    Script.ReadsOn es es'' :=
  ⟨fun he => h.mem (h'.mem he), h'.weight_le.trans h.weight_le⟩

theorem settled (es : List Event) : Script.ReadsOn es (settled es) :=
  ⟨fun he => (List.dropWhile_sublist _).subset he, weight_settled_le es⟩

theorem next {room : Nat} {es es' : List Event} {answer : Except IoError (List UInt8)}
    (h : next room es = (answer, es')) : Script.ReadsOn es es' := by
  match es, h with
  | [], h => cases h; exact refl _
  | .error e :: es, h => cases h; exact ⟨List.mem_cons_of_mem _, by simp⟩
  | .data chunk :: es, h =>
    cases h
    split
    · exact ⟨by simp, by simp [Event.weight]⟩
    · exact ⟨List.mem_cons_of_mem _, by simp⟩

end Script.ReadsOn

/-- An error that is answered is the first event of the script. -/
theorem head_of_next_error {room : Nat} {es es' : List Event} {e : IoError}
    (h : next room es = (.error e, es')) : es.head? = some (.error e) := by
  match es, h with
  | .error e :: es, h => cases h; rfl

end PeekableReader
