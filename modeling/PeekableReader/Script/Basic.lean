import PeekableReader.Async.Read
import PeekableReader.Io.Read

/-!
# Scripted readers

A script is the list of events a reader will go through: chunks of data, of which a read
takes as much as it has room for, reports of an end of file (empty chunks), errors that
occur once, and for the asynchronous readers pending polls. After its last event a script
reports the end of file for ever. Every behaviour of a reader within finitely many reads
is that of some script.

`PollScript.strip` forgets the pending polls, and `Script.lift` asks for none.
-/

namespace PeekableReader

open Ledger

inductive Event where
  | data (chunk : List UInt8)
  | error (e : IoError)
  deriving DecidableEq, Repr

structure Script where
  events : List Event
  deriving DecidableEq, Repr

inductive PollEvent where
  | ready (event : Event)
  | pending
  deriving DecidableEq, Repr

structure PollScript where
  events : List PollEvent
  deriving DecidableEq, Repr

namespace Event

def bytes : Event → List UInt8
  | data chunk => chunk
  | error _ => []

/-- A bound on how often an event can be read from. -/
def weight : Event → Nat
  | data chunk => chunk.length + 1
  | error _ => 1

end Event

namespace Script

/-- The answer to a read with room for `room` bytes, and the events left. -/
def next (room : Nat) : List Event → Except IoError (List UInt8) × List Event
  | [] => (.ok [], [])
  | .error e :: es => (.error e, es)
  | .data chunk :: es =>
    (.ok (chunk.take room), if room < chunk.length then .data (chunk.drop room) :: es else es)

def bytes (es : List Event) : List UInt8 := es.flatMap Event.bytes

def weight (es : List Event) : Nat := (es.map Event.weight).sum

@[simp] theorem weight_nil : weight [] = 0 := rfl

@[simp] theorem weight_cons (e : Event) (es : List Event) :
    weight (e :: es) = e.weight + weight es := rfl

@[simp] theorem bytes_cons (e : Event) (es : List Event) : bytes (e :: es) = e.bytes ++ bytes es :=
  rfl

/-- The bytes an answer hands over leave the script. -/
theorem next_ok {room : Nat} {es es' : List Event} {d : List UInt8}
    (h : next room es = (.ok d, es')) :
    d.length ≤ room ∧ bytes es = d ++ bytes es' ∧ (d ≠ [] → weight es' < weight es) := by
  match es, h with
  | [], h => cases h; simp
  | .data chunk :: es, h =>
    cases h
    refine ⟨List.length_take_le _ _, ?_, fun hd => ?_⟩
    · split
      · simp [Event.bytes, ← List.append_assoc]
      · next hle => simp [Event.bytes, List.take_of_length_le (Nat.le_of_not_lt hle)]
    · have hroom : room ≠ 0 := by rintro rfl; simp at hd
      split
      · simp [Event.weight]
        omega
      · simp [Event.weight]

theorem next_error {room : Nat} {es es' : List Event} {e : IoError}
    (h : next room es = (.error e, es')) : bytes es' = bytes es ∧ weight es' < weight es := by
  match es, h with
  | .error e :: es, h => cases h; simp [Event.bytes, Event.weight]

/-- What follows the first event is not touched. -/
theorem next_append (room : Nat) (e : Event) (es : List Event) :
    next room (e :: es) = ((next room [e]).1, (next room [e]).2 ++ es) := by
  cases e with
  | error e => rfl
  | data chunk =>
    simp only [next]
    split <;> rfl

end Script

/-- A slice after bytes have been written to its front. -/
def overwrite (buf d : List UInt8) : List UInt8 := d ++ buf.drop d.length

theorem length_overwrite {buf d : List UInt8} (h : d.length ≤ buf.length) :
    (overwrite buf d).length = buf.length := by
  simp [overwrite]; omega

theorem take_overwrite (buf d : List UInt8) : (overwrite buf d).take d.length = d := by
  simp [overwrite]

instance : Read Script where
  read s buf :=
    match Script.next buf.length s.events with
    | (.ok d, es) => (.ok d.length, overwrite buf d, ⟨es⟩)
    | (.error e, es) => (.error e, buf, ⟨es⟩)

instance : Source Script UInt8 where
  rest s := Stream'.Seq.ofList (Script.bytes s.events)

namespace Script

/-- How a read follows from the answer of the script. -/
theorem read_eq_ok {s : Script} {buf d : List UInt8} {es : List Event}
    (h : next buf.length s.events = (.ok d, es)) :
    Read.read s buf = (.ok d.length, overwrite buf d, ⟨es⟩) := by
  simp [Read.read, h]

theorem read_eq_error {s : Script} {buf : List UInt8} {e : IoError} {es : List Event}
    (h : next buf.length s.events = (.error e, es)) : Read.read s buf = (.error e, buf, ⟨es⟩) := by
  simp [Read.read, h]

theorem hands_iff {s s' : Script} {d : List UInt8} :
    Hands s d s' ↔ bytes s.events = d ++ bytes s'.events := by
  rw [hands_iff_rest]
  change Stream'.Seq.ofList _ = (Stream'.Seq.ofList d).append (Stream'.Seq.ofList _) ↔ _
  rw [← Stream'.Seq.ofList_append]
  exact Stream'.Seq.ofList_injective.eq_iff

end Script

instance : LawfulRead Script where
  read_length s buf := by
    rcases h : Script.next buf.length s.events with ⟨_ | d, es⟩
    · rw [Script.read_eq_error h]
    · rw [Script.read_eq_ok h]
      exact length_overwrite (Script.next_ok h).1
  read_le {s s' buf buf' n} hread := by
    rcases h : Script.next buf.length s.events with ⟨_ | d, es⟩
    · rw [Script.read_eq_error h] at hread
      cases hread
    · rw [Script.read_eq_ok h] at hread
      cases hread
      exact (Script.next_ok h).1
  read_ok {s s' buf buf' n} hread := by
    rcases h : Script.next buf.length s.events with ⟨_ | d, es⟩
    · rw [Script.read_eq_error h] at hread
      cases hread
    · rw [Script.read_eq_ok h] at hread
      cases hread
      rw [take_overwrite]
      exact Script.hands_iff.mpr (Script.next_ok h).2.1
  read_error {s s' buf buf' e} hread := by
    rcases h : Script.next buf.length s.events with ⟨_ | d, es⟩
    · rw [Script.read_eq_error h] at hread
      cases hread
      exact Script.hands_iff.mpr (Script.next_error h).1.symm
    · rw [Script.read_eq_ok h] at hread
      cases hread

/-! ## Scripts with pending polls -/

namespace PollEvent

def strip? : PollEvent → Option Event
  | ready event => some event
  | pending => none

end PollEvent

namespace PollScript

/-- The script without its pending polls. -/
def strip (es : List PollEvent) : List Event := es.filterMap PollEvent.strip?

/-- A script that is never pending. -/
def lift (es : List Event) : List PollEvent := es.map .ready

def pendings (es : List PollEvent) : Nat := es.countP (· = .pending)

/-- The answer to a poll with room for `room` bytes, and the events left. -/
def next (room : Nat) : List PollEvent → Poll (Except IoError (List UInt8)) × List PollEvent
  | [] => (.ready (.ok []), [])
  | .pending :: es => (.pending, es)
  | .ready e :: es => (.ready (Script.next room [e]).1, lift (Script.next room [e]).2 ++ es)

@[simp] theorem strip_lift (es : List Event) : strip (lift es) = es := by
  induction es with
  | nil => rfl
  | cons e es ih => exact congrArg (e :: ·) ih

@[simp] theorem strip_append (es es' : List PollEvent) :
    strip (es ++ es') = strip es ++ strip es' :=
  List.filterMap_append

@[simp] theorem pendings_nil : pendings [] = 0 := rfl

@[simp] theorem pendings_ready (e : Event) (es : List PollEvent) :
    pendings (.ready e :: es) = pendings es := by
  simp [pendings]

@[simp] theorem pendings_pending (es : List PollEvent) :
    pendings (.pending :: es) = pendings es + 1 := by
  simp [pendings]

@[simp] theorem pendings_lift (es : List Event) : pendings (lift es) = 0 := by
  simp [pendings, lift]

@[simp] theorem pendings_append (es es' : List PollEvent) :
    pendings (es ++ es') = pendings es + pendings es' :=
  List.countP_append

/-- A poll that is ready answers as the script without its pending polls does. -/
theorem next_ready {room : Nat} {es es' : List PollEvent} {answer : Except IoError (List UInt8)}
    (h : next room es = (.ready answer, es')) :
    Script.next room (strip es) = (answer, strip es') ∧ pendings es' = pendings es := by
  match es, h with
  | [], h => cases h; exact ⟨rfl, rfl⟩
  | .ready e :: es, h =>
    simp only [next, Prod.mk.injEq, Poll.ready.injEq] at h
    obtain ⟨rfl, rfl⟩ := h
    refine ⟨?_, by simp⟩
    change Script.next room (e :: strip es) = _
    rw [Script.next_append, strip_append, strip_lift]

theorem next_pending {room : Nat} {es es' : List PollEvent}
    (h : next room es = (.pending, es')) :
    strip es' = strip es ∧ pendings es = pendings es' + 1 := by
  match es, h with
  | .pending :: es, h => cases h; exact ⟨rfl, pendings_pending _⟩

theorem next_lift (room : Nat) (es : List Event) :
    next room (lift es) = (.ready (Script.next room es).1, lift (Script.next room es).2) := by
  cases es with
  | nil => rfl
  | cons e es =>
    rw [Script.next_append]
    simp [next, lift]

end PollScript

instance : Future.AsyncRead PollScript where
  pollRead s buf :=
    match PollScript.next buf.length s.events with
    | (.ready (.ok d), es) => (.ready (.ok d.length), overwrite buf d, ⟨es⟩)
    | (.ready (.error e), es) => (.ready (.error e), buf, ⟨es⟩)
    | (.pending, es) => (.pending, buf, ⟨es⟩)

instance : Tokio.AsyncRead PollScript where
  pollRead s rb :=
    match PollScript.next rb.remaining s.events with
    | (.ready (.ok d), es) =>
      (.ready (.ok ()), if h : d.length ≤ rb.remaining then rb.append d h else rb, ⟨es⟩)
    | (.ready (.error e), es) => (.ready (.error e), rb, ⟨es⟩)
    | (.pending, es) => (.pending, rb, ⟨es⟩)

instance : Source PollScript UInt8 where
  rest s := Source.rest (Script.mk (PollScript.strip s.events))

namespace PollScript

theorem hands_iff {s s' : PollScript} {d : List UInt8} :
    Hands s d s' ↔ Script.bytes (strip s.events) = d ++ Script.bytes (strip s'.events) :=
  Script.hands_iff (s := ⟨strip s.events⟩) (d := d)

/-- What leaves a script when a poll with room for `room` bytes is answered. -/
theorem hands_next {room : Nat} {es es' : List PollEvent} {poll : Poll (Except IoError (List UInt8))}
    (h : next room es = (poll, es')) :
    (∀ d, poll = .ready (.ok d) → d.length ≤ room ∧ Hands (mk es) d (mk es')) ∧
      ((∀ d, poll ≠ .ready (.ok d)) → Hands (mk es) [] (mk es')) := by
  cases poll using Poll.casesResult with
  | ok d =>
    obtain ⟨hle, hbytes, -⟩ := Script.next_ok (next_ready h).1
    refine ⟨?_, fun hne => absurd rfl (hne d)⟩
    intro d hd
    cases hd
    exact ⟨hle, hands_iff.mpr hbytes⟩
  | error e =>
    exact ⟨(by rintro d ⟨⟩), fun _ => hands_iff.mpr (Script.next_error (next_ready h).1).1.symm⟩
  | pending =>
    refine ⟨(by rintro d ⟨⟩), fun _ => hands_iff.mpr ?_⟩
    rw [(next_pending h).1, List.nil_append]

end PollScript

instance : Future.LawfulAsyncRead PollScript where
  pollRead_length s buf := by
    simp only [Future.AsyncRead.pollRead]
    split
    · next h => exact length_overwrite ((PollScript.hands_next h).1 _ rfl).1
    · rfl
    · rfl
  pollRead_le {s s' buf buf' n} hread := by
    simp only [Future.AsyncRead.pollRead] at hread
    split at hread <;> cases hread
    next h => exact ((PollScript.hands_next h).1 _ rfl).1
  pollRead_ok {s s' buf buf' n} hread := by
    simp only [Future.AsyncRead.pollRead] at hread
    split at hread <;> cases hread
    next h =>
      rw [take_overwrite]
      exact ((PollScript.hands_next h).1 _ rfl).2
  pollRead_none {s s' buf buf' poll} hread hpoll := by
    simp only [Future.AsyncRead.pollRead] at hread
    split at hread <;> cases hread
    · cases hpoll
    · next h => exact (PollScript.hands_next h).2 (by simp)
    · next h => exact (PollScript.hands_next h).2 (by simp)

instance : Tokio.LawfulAsyncRead PollScript where
  pollRead_length s rb := by
    simp only [Tokio.AsyncRead.pollRead]
    split
    · next h =>
      rw [dif_pos ((PollScript.hands_next h).1 _ rfl).1, Tokio.ReadBuf.length_append]
    · rfl
    · rfl
  pollRead_ok {s s' rb rb'} hread := by
    simp only [Tokio.AsyncRead.pollRead] at hread
    split at hread <;> cases hread
    next d es h =>
      obtain ⟨hle, hands⟩ := (PollScript.hands_next h).1 _ rfl
      exact ⟨d, by rw [dif_pos hle, Tokio.ReadBuf.filledBytes_append], hands⟩
  pollRead_none {s s' rb rb' poll} hread hpoll := by
    simp only [Tokio.AsyncRead.pollRead] at hread
    split at hread <;> cases hread
    · exact absurd rfl hpoll
    · next h => exact ⟨rfl, (PollScript.hands_next h).2 (by simp)⟩
    · next h => exact ⟨rfl, (PollScript.hands_next h).2 (by simp)⟩

end PeekableReader
