import PeekableReader.Io.Supply
import PeekableReader.Script.Basic

/-!
# Scripts come to an end

Every event of a script is a part of its supply, and so is every pending poll.
-/

namespace PeekableReader

theorem Script.next_used {room : Nat} {es es' : List Event} {answer : Except IoError (List UInt8)}
    (h : next room es = (answer, es')) :
    weight es' ≤ weight es ∧
      (∀ stalls, (Poll.ready (answer.map List.length)).Uses stalls → weight es' < weight es) := by
  cases answer with
  | error e =>
    have hlt := (next_error h).2
    exact ⟨Nat.le_of_lt hlt, fun _ _ => hlt⟩
  | ok d =>
    refine ⟨?_, fun _ huses => (next_ok h).2.2 (List.ne_nil_of_length_pos huses)⟩
    match es, h with
    | [], h => cases h; exact Nat.le_refl _
    | .data chunk :: es, h =>
      cases h
      split
      · simp [Event.weight]
      · simp

theorem PollScript.next_used {room : Nat} {es es' : List PollEvent}
    {poll : Poll (Except IoError (List UInt8))} (h : next room es = (poll, es')) :
    Script.weight (strip es') + pendings es' ≤ Script.weight (strip es) + pendings es ∧
      ((poll.mapOk List.length).Uses True →
        Script.weight (strip es') + pendings es' < Script.weight (strip es) + pendings es) := by
  cases poll with
  | ready answer =>
    obtain ⟨hnext, hpendings⟩ := next_ready h
    obtain ⟨hle, hlt⟩ := Script.next_used hnext
    rw [Poll.mapOk_ready]
    exact ⟨by omega, fun huses => by have := hlt _ huses; omega⟩
  | pending =>
    obtain ⟨hstrip, hpendings⟩ := next_pending h
    rw [hstrip]
    exact ⟨by omega, fun _ => by omega⟩

def Script.supply : Read.Supply Script where
  left s := weight s.events
  left_le {s s' buf buf' result} h := by
    rcases hnext : next buf.length s.events with ⟨_ | d, es⟩
    · rw [read_eq_error hnext] at h
      cases h
      exact (next_used hnext).1
    · rw [read_eq_ok hnext] at h
      cases h
      exact (next_used hnext).1
  left_lt {s s' buf buf' result} h huses := by
    rcases hnext : next buf.length s.events with ⟨_ | d, es⟩
    · rw [read_eq_error hnext] at h
      cases h
      exact (next_used hnext).2 _ huses
    · rw [read_eq_ok hnext] at h
      cases h
      exact (next_used hnext).2 _ huses

/-- Of the events and the pending polls. -/
def PollScript.futureSupply : Future.Supply PollScript True where
  left s := Script.weight (strip s.events) + pendings s.events
  left_le h := by
    simp only [Future.AsyncRead.pollRead] at h
    split at h <;> cases h
    all_goals
      next hnext => exact (next_used hnext).1
  left_lt h huses := by
    simp only [Future.AsyncRead.pollRead] at h
    split at h <;> cases h
    all_goals
      next hnext => exact (next_used hnext).2 huses

def PollScript.tokioSupply : Tokio.Supply PollScript True where
  left s := Script.weight (strip s.events) + pendings s.events
  left_le h := by
    simp only [Tokio.AsyncRead.pollRead] at h
    split at h <;> cases h
    all_goals
      next hnext => exact (next_used hnext).1
  left_lt {s s' rb rb' poll} h huses := by
    simp only [Tokio.AsyncRead.pollRead] at h
    split at h <;> cases h
    · next d es hnext =>
      rw [dif_pos ((hands_next hnext).1 d rfl).1] at huses
      refine (next_used hnext).2 ?_
      change 0 < d.length
      have hpos : 0 < rb.filled + d.length - rb.filled := huses
      omega
    · next hnext => exact (next_used hnext).2 huses
    · next hnext => exact (next_used hnext).2 huses

end PeekableReader
