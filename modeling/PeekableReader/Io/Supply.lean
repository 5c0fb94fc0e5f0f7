import PeekableReader.Async.Read
import PeekableReader.Io.Read

/-!
# Readers that come to an end

A supply of a reader bounds how often it will hand over something or report an interruption:
each such answer uses up some of it, and no answer adds to it. A supply that counts stalls
bounds how often the reader is not ready, too.
-/

namespace PeekableReader

/-- The answers of a reader that use up its supply. -/
def Poll.Uses (stalls : Prop) : Poll (Except IoError Nat) → Prop
  | .ready (.ok n) => 0 < n
  | .ready (.error e) => e.kind = .interrupted ∨ stalls ∧ e.kind = .wouldBlock
  | .pending => stalls

structure Read.Supply (R : Type) [Read R] where
  left : R → Nat
  left_le {r r' : R} {buf buf' : List UInt8} {result : Except IoError Nat}
    (h : Read.read r buf = (result, buf', r')) : left r' ≤ left r
  left_lt {r r' : R} {buf buf' : List UInt8} {result : Except IoError Nat}
    (h : Read.read r buf = (result, buf', r')) (huses : (Poll.ready result).Uses False) :
    left r' < left r

structure Future.Supply (R : Type) [AsyncRead R] (stalls : Prop) where
  left : R → Nat
  left_le {r r' : R} {buf buf' : List UInt8} {poll : Poll (Except IoError Nat)}
    (h : AsyncRead.pollRead r buf = (poll, buf', r')) : left r' ≤ left r
  left_lt {r r' : R} {buf buf' : List UInt8} {poll : Poll (Except IoError Nat)}
    (h : AsyncRead.pollRead r buf = (poll, buf', r')) (huses : poll.Uses stalls) : left r' < left r

/-- As many bytes are handed over as the `ReadBuf` gained. -/
structure Tokio.Supply (R : Type) [AsyncRead R] (stalls : Prop) where
  left : R → Nat
  left_le {r r' : R} {rb rb' : ReadBuf} {poll : Poll (Except IoError Unit)}
    (h : AsyncRead.pollRead r rb = (poll, rb', r')) : left r' ≤ left r
  left_lt {r r' : R} {rb rb' : ReadBuf} {poll : Poll (Except IoError Unit)}
    (h : AsyncRead.pollRead r rb = (poll, rb', r'))
    (huses : (poll.mapOk fun () => rb'.filled - rb.filled).Uses stalls) : left r' < left r

/-- What is left after an answer of the reader. -/
def Used {R : Type} (left : R → Nat) (stalls : Prop) (poll : Poll (Except IoError Nat)) (r r' : R) :
    Prop :=
  left r' ≤ left r ∧ (poll.Uses stalls → left r' < left r)

/-- What is left after a poll of a future. -/
def Spent {R α : Type} (left : R → Nat) (stalls : Prop) (poll : Poll α) (r r' : R) : Prop :=
  left r' ≤ left r ∧ (stalls → poll = .pending → left r' < left r)

section

variable {R α β : Type} {left : R → Nat} {stalls : Prop} {r r₁ r' : R}

theorem Used.after {poll : Poll (Except IoError Nat)} (hle : left r₁ ≤ left r)
    (h : Used left stalls poll r₁ r') : Used left stalls poll r r' :=
  ⟨h.1.trans hle, fun huses => (h.2 huses).trans_le hle⟩

theorem Spent.after {poll : Poll α} (hle : left r₁ ≤ left r) (h : Spent left stalls poll r₁ r') :
    Spent left stalls poll r r' :=
  ⟨h.1.trans hle, fun hstalls hpoll => (h.2 hstalls hpoll).trans_le hle⟩

theorem Spent.refl (result : α) (r : R) : Spent left stalls (.ready result) r r :=
  ⟨Nat.le_refl _, by rintro _ ⟨⟩⟩

theorem Spent.of_ready (result : α) (hle : left r' ≤ left r) :
    Spent left stalls (.ready result) r r' := ⟨hle, by rintro _ ⟨⟩⟩

/-- A pending poll that comes from one of the reader. -/
theorem Used.spent (h : Used left stalls .pending r r') :
    Spent left stalls (.pending : Poll α) r r' := ⟨h.1, fun hstalls _ => h.2 hstalls⟩

theorem Spent.mapOk {poll : Poll (Except IoError α)} (f : α → β)
    (h : Spent left stalls poll r r') : Spent left stalls (poll.mapOk f) r r' :=
  ⟨h.1, fun hstalls hpoll => h.2 hstalls (Poll.mapOk_eq_pending.mp hpoll)⟩

end

end PeekableReader
