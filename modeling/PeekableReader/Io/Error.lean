import PeekableReader.Lib.Utf8

/-!
# I/O errors

The kinds of `std::io::Error` that the crate distinguishes; every other kind is
`other`. An error keeps what it wraps, so that two errors of one kind can differ.
-/

namespace PeekableReader

/-- `std::io::ErrorKind` -/
inductive ErrorKind where
  | interrupted
  | wouldBlock
  | unexpectedEof
  | invalidData
  | outOfMemory
  | connectionReset
  | other (code : Nat)
  deriving DecidableEq, Repr

/-- What an error was made from: its kind alone, a message or a UTF-8 error. -/
inductive Payload where
  | simple
  | message (text : String)
  | utf8 (e : Utf8Error)
  deriving DecidableEq, Repr

/-- `std::io::Error` -/
structure IoError where
  kind : ErrorKind
  payload : Payload
  deriving DecidableEq, Repr

/-- `ErrorKind::into` -/
def IoError.ofKind (kind : ErrorKind) : IoError := ⟨kind, .simple⟩

/-- `invalid_utf8_io_error` of `lib.rs` -/
def invalidUtf8IoError (e : Utf8Error) : IoError := ⟨.invalidData, .utf8 e⟩

@[simp] theorem toOption_ok {α : Type} (a : α) :
    (Except.ok a : Except IoError α).toOption = some a := rfl

@[simp] theorem toOption_error {α : Type} (e : IoError) :
    (Except.error e : Except IoError α).toOption = none := rfl

/-- An error that a retry may get past. -/
def ErrorKind.transient : ErrorKind → Bool
  | .interrupted | .wouldBlock => true
  | _ => false

end PeekableReader
