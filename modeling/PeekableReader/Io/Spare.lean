import PeekableReader.Io.Peekable

/-!
# Reading into spare room

Every peeking operation enlarges the peek buffer, lets the reader write behind the old
contents and cuts the buffer back to what arrived. `Spare p₀ p room` is the state in
between, `p₀` with `room` scratch bytes behind its contents, and `ReadInto` what a read
into those bytes leaves, whichever flavour made it.
-/

namespace PeekableReader

open Buffer Ledger

variable {R B : Type} [Buffer B] [Ledger R UInt8]

/-- `p` is `p₀` with `room` scratch bytes behind the contents of its peek buffer. -/
def Spare (p₀ p : Peekable R B) (room : Nat) : Prop :=
  ∃ scratch, p.peeked = p₀.peeked ++ scratch ∧ scratch.length = room ∧
    Hands p₀.reader [] p.reader

/-- The outcome of a read into spare room: the bytes handed over, or nothing. -/
def ReadInto (p₀ : Peekable R B) (room : Nat) : Option Nat → Peekable R B → Prop
  | some n, p => n ≤ room ∧ ∃ d, d.length = n ∧ Fetched p₀ (p.truncate (p₀.peeked.length + n)) d
  | none, p => Spare p₀ p room

theorem Spare.length {p₀ p : Peekable R B} {room : Nat} (h : Spare p₀ p room) :
    p.peeked.length = p₀.peeked.length + room := by
  obtain ⟨scratch, hp, hl, -⟩ := h
  rw [hp, List.length_append, hl]

theorem ReadInto.length_le {p₀ p : Peekable R B} {room n : Nat} (h : ReadInto p₀ room (some n) p) :
    (p.truncate (p₀.peeked.length + n)).peeked.length ≤ p₀.peeked.length + room := by
  obtain ⟨hn, d, hd, hf⟩ := h
  rw [hf.peeked, List.length_append, hd]
  omega

section Lawful

variable [LawfulBuffer B] {p₀ p : Peekable R B} {room : Nat}

/-- Cutting the scratch bytes off again undoes everything. -/
theorem Spare.rollback (h : Spare p₀ p room) : Fetched p₀ (p.truncate p₀.peeked.length) [] := by
  obtain ⟨scratch, hp, -, hrest⟩ := h
  exact ⟨by simp [hp], hrest⟩

theorem Spare.of_resize {n : Nat} {buffer : B} (h : resize p₀.buffer n = (.ok (), buffer))
    (hn : p₀.peeked.length ≤ n) : Spare p₀ { p₀ with buffer } (n - p₀.peeked.length) := by
  obtain ⟨scratch, hb, hl⟩ := resize_grow h hn
  exact ⟨scratch, hb, hl, Ledger.refl _⟩

theorem Spare.of_grow {growth : Nat} {buffer : B}
    (h : growPeekBuffer p₀.buffer = (.ok growth, buffer)) :
    0 < growth ∧ Spare p₀ { p₀ with buffer } growth := by
  obtain ⟨hpos, scratch, hb, hl⟩ := (growPeekBuffer_spec _ h).1 growth rfl
  exact ⟨hpos, scratch, hb, hl, Ledger.refl _⟩

/-- A refused resize changes nothing. -/
theorem Fetched.of_resize_error {n : Nat} {e : IoError} {buffer : B}
    (h : resize p₀.buffer n = (.error e, buffer)) : Fetched p₀ { p₀ with buffer } [] :=
  ⟨by simpa [Peekable.peeked] using LawfulBuffer.resize_error h, Ledger.refl _⟩

theorem Fetched.of_grow_error {e : IoError} {buffer : B}
    (h : growPeekBuffer p₀.buffer = (.error e, buffer)) : Fetched p₀ { p₀ with buffer } [] :=
  ⟨by simpa [Peekable.peeked] using (growPeekBuffer_spec _ h).2 e rfl, Ledger.refl _⟩

/-- What a lawful reader does to the scratch bytes, seen from the whole buffer. -/
theorem Spare.readInto {scratch scratch' : List UInt8} {d : List UInt8} {handed : Option Nat}
    {reader : R} (hp : p.peeked = p₀.peeked ++ scratch)
    (hrest : Hands p₀.reader [] p.reader) (hlen : scratch'.length = scratch.length)
    (hd : Hands p.reader d reader)
    (hsome : ∀ n, handed = some n → n ≤ scratch.length ∧ d = scratch'.take n)
    (hnone : handed = none → d = []) :
    ReadInto p₀ scratch.length handed
      { p with reader, buffer := setSlice p.buffer (p₀.peeked ++ scratch') } := by
  have hset : asSlice (setSlice p.buffer (p₀.peeked ++ scratch')) = p₀.peeked ++ scratch' :=
    asSlice_setSlice _ (by
      change _ = p.peeked.length
      rw [hp, List.length_append, List.length_append, hlen])
  cases handed with
  | some n =>
    obtain ⟨hn, rfl⟩ := hsome n rfl
    refine ⟨hn, scratch'.take n, by grind, ?_, ?_⟩
    · simp [hset, take_append_add]
    · exact Ledger.trans hrest hd
  | none =>
    obtain rfl := hnone rfl
    exact ⟨scratch', hset, hlen, Ledger.trans hrest hd⟩

end Lawful

/-! ## Postconditions of the operations -/

/-- A peek into a slice that held `buf`: it reports as much of the peek buffer as fits, or
fails and changes nothing. -/
def Peeks (p : Peekable R B) (buf : List UInt8) :
    Option Nat → List UInt8 → Peekable R B → Prop
  | some n, buf', p' => n = min buf.length p'.peeked.length ∧
      buf' = p'.peeked.take n ++ buf.drop n ∧ ∃ d, Fetched p p' d
  | none, buf', p' => buf' = buf ∧ Fetched p p' []

/-- A peek into several buffers. -/
def PeeksVectored (p : Peekable R B) (bufs : List (List UInt8)) :
    Option Nat → List (List UInt8) → Peekable R B → Prop
  | some n, bufs', p' => n ≤ p'.peeked.length ∧ n ≤ bufs'.flatten.length ∧
      bufs'.flatten.take n = p'.peeked.take n ∧ ∃ d, Fetched p p' d
  | none, bufs', p' => bufs' = bufs ∧ Fetched p p' []

/-- A read into a slice that held `buf` delivers what it returns. -/
def Delivers (p : Peekable R B) (buf : List UInt8) :
    Option Nat → List UInt8 → Peekable R B → Prop
  | some n, buf', p' => n ≤ buf.length ∧ buf'.length = buf.length ∧ Hands p (buf'.take n) p'
  | none, buf', p' => buf'.length = buf.length ∧ Hands p [] p'

/-- An exact peek fills its destination from the peek buffer, and never peeks past it. -/
structure PeeksExactly (p : Peekable R B) (buf : List UInt8) (done : Prop) (buf' : List UInt8)
    (p' : Peekable R B) : Prop where
  length : buf'.length = buf.length
  bounded : p'.peeked.length ≤ max p.peeked.length buf.length
  fetched : ∃ d, Fetched p p' d
  exact : done → buf.length ≤ p'.peeked.length ∧ buf' = p'.peeked.take buf.length

/-- Peeking to the end keeps the destination in step with the peek buffer. -/
structure PeeksToEnd (p : Peekable R B) (buf : List UInt8) (res : Option Nat) (buf' : List UInt8)
    (p' : Peekable R B) : Prop where
  fetched : ∃ d, Fetched p p' d
  mirrors : buf' = buf ++ p'.peeked
  counts : ∀ n, res = some n → n = p'.peeked.length

/-- Peeking to a string appends a prefix of the peek buffer, all of it on success. -/
structure PeeksToString (p : Peekable R B) (buf : Str) (res : Option Nat) (buf' : Str)
    (p' : Peekable R B) : Prop where
  fetched : ∃ d, Fetched p p' d
  appends : ∃ s : Str, buf' = buf.pushStr s ∧ s.bytes <+: p'.peeked ∧
    ∀ n, res = some n → s.bytes = p'.peeked ∧ n = p'.peeked.length

/-- Filling the peek buffer reports how much it grew by. -/
def Fills (p : Peekable R B) : Option Nat → Peekable R B → Prop
  | some n, p' => ∃ d, d.length = n ∧ Fetched p p' d
  | none, p' => Fetched p p' []

section

variable {p₀ p p' : Peekable R B} {room : Nat} {buf buf' : List UInt8} {d : List UInt8}

/-- A request the peek buffer covers is answered from it. -/
theorem Peeks.covered (p : Peekable R B) (buf : List UInt8) (h : buf.length ≤ p.peeked.length) :
    Peeks p buf (some buf.length) (p.peeked.take buf.length) p :=
  ⟨by omega, by simp, [], .refl p⟩

/-- What a topped-up peek copies out when the reader handed over `n` bytes. -/
theorem Peeks.of_readInto {n : Nat} (buf : List UInt8) (h : ReadInto p₀ room (some n) p)
    (hroom : p₀.peeked.length + room = buf.length) :
    let p' := p.truncate (p₀.peeked.length + n)
    p'.peeked.length = p₀.peeked.length + n ∧ p₀.peeked.length + n ≤ buf.length ∧
      Peeks p₀ buf (some (p₀.peeked.length + n))
        (p'.peeked ++ buf.drop (p₀.peeked.length + n)) p' := by
  obtain ⟨hn, d, hd, hf⟩ := h
  have hlen : (p.truncate (p₀.peeked.length + n)).peeked.length = p₀.peeked.length + n := by
    rw [hf.peeked, List.length_append, hd]
  refine ⟨hlen, by omega, by omega, ?_, d, hf⟩
  rw [List.take_of_length_le (Nat.le_of_eq hlen)]

/-- What a topped-up peek copies out when the reader handed over nothing. -/
theorem Peeks.of_rollback (buf : List UInt8) (h : Fetched p₀ p []) (hle : p₀.peeked.length ≤ buf.length) :
    copyInto buf 0 p₀.peeked.length p.peeked = .ok (p.peeked ++ buf.drop p₀.peeked.length) ∧
      Peeks p₀ buf (some p₀.peeked.length) (p.peeked ++ buf.drop p₀.peeked.length) p := by
  have hp : p.peeked = p₀.peeked := by simpa using h.peeked
  refine ⟨copyInto_front buf (by rw [hp]) hle, by rw [hp]; omega, ?_, [], h⟩
  rw [List.take_of_length_le (by rw [hp])]

/-- A peek into the first of several buffers. -/
theorem Peeks.vectored {res : Option Nat} (h : Peeks p buf res buf' p') (bufs : List (List UInt8)) :
    PeeksVectored p (buf :: bufs) res (buf' :: bufs) p' := by
  cases res with
  | none => exact ⟨by rw [h.1], h.2⟩
  | some n =>
    obtain ⟨hn, rfl, hd⟩ := h
    have hlen : (p'.peeked.take n).length = n := by grind
    refine ⟨by omega, by simp; omega, ?_, hd⟩
    rw [List.flatten_cons, List.append_assoc]
    exact take_append_of_length hlen

/-- A peek into an empty buffer, for want of others. -/
theorem Peeks.vectored_nil {res : Option Nat} (h : Peeks p [] res buf' p') :
    PeeksVectored p [] res [] p' := by
  cases res with
  | none => exact ⟨rfl, h.2⟩
  | some n =>
    obtain ⟨hn, -, hd⟩ := h
    obtain rfl : n = 0 := by simpa using hn
    exact ⟨by omega, by simp, by simp, hd⟩

/-- An empty buffer in front is skipped. -/
theorem PeeksVectored.cons_nil {res : Option Nat} {bufs bufs' : List (List UInt8)}
    (h : PeeksVectored p bufs res bufs' p') (hbuf : buf = []) :
    PeeksVectored p (buf :: bufs) res (buf :: bufs') p' := by
  cases res with
  | none => exact ⟨by rw [h.1], h.2⟩
  | some n => simpa [PeeksVectored, hbuf] using h

theorem PeeksExactly.failed {done : Prop} (h : Fetched p p' d)
    (hle : p'.peeked.length ≤ max p.peeked.length buf.length) (hdone : ¬ done) :
    PeeksExactly p buf done buf p' :=
  ⟨rfl, hle, ⟨d, h⟩, fun hd => absurd hd hdone⟩

/-- An exact peek that goes on from `p₁` with an equally long destination. -/
theorem PeeksExactly.after {p₁ : Peekable R B} {buf₁ : List UInt8} {done : Prop}
    (h : PeeksExactly p₁ buf₁ done buf' p') (hf : Fetched p p₁ d)
    (hle : p₁.peeked.length ≤ max p.peeked.length buf.length) (hlen : buf₁.length = buf.length) :
    PeeksExactly p buf done buf' p' := by
  obtain ⟨hlen', hle', ⟨d', hf'⟩, hdone⟩ := h
  rw [hlen] at hlen' hle' hdone
  exact ⟨hlen', by omega, ⟨d ++ d', hf.trans hf'⟩, hdone⟩

theorem PeeksToEnd.after {p₁ : Peekable R B} {res : Option Nat}
    (h : PeeksToEnd p₁ buf res buf' p') (hf : Fetched p p₁ d) : PeeksToEnd p buf res buf' p' := by
  obtain ⟨⟨d', hf'⟩, hmirrors, hcounts⟩ := h
  exact ⟨⟨d ++ d', hf.trans hf'⟩, hmirrors, hcounts⟩

/-- The end of `peek_to_string`, after its loop. -/
theorem PeeksToString.of_finish {loopResult : Except IoError Unit} {dst : Str}
    {out : Except IoError Nat × Str} (hf : Fetched p p' d)
    (h : ∃ s : Str, out.2 = dst.pushStr s ∧ s.bytes <+: p'.peeked ∧
      (∀ n, out.1 = .ok n → s.bytes = p'.peeked ∧ n = p'.peeked.length ∧ loopResult = .ok ())) :
    PeeksToString p dst out.1.toOption out.2 p' := by
  obtain ⟨s, hs, hprefix, hok⟩ := h
  refine ⟨⟨d, hf⟩, s, hs, hprefix, fun n hn => ?_⟩
  cases hres : out.1 with
  | ok m =>
    rw [hres] at hn
    cases hn
    exact ⟨(hok n hres).1, (hok n hres).2.1⟩
  | error e => rw [hres] at hn; cases hn

theorem Fills.fetched {res : Option Nat} (h : Fills p res p') : ∃ d, Fetched p p' d := by
  cases res with
  | some n => exact h.imp fun _ hd => hd.2
  | none => exact ⟨[], h⟩

/-- A text refused before anything was read. -/
theorem PeeksToString.refused (p : Peekable R B) (dst : Str) : PeeksToString p dst none dst p :=
  ⟨⟨[], .refl p⟩, .empty, (Str.pushStr_empty dst).symm, List.nil_prefix, by rintro n ⟨⟩⟩

end

end PeekableReader
