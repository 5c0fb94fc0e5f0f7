import PeekableReader.Script.Futures

/-!
# Filling the peek buffer in three flavours

`fill_peek_buf` was written three times. The synchronous one retries an interrupted read,
and reads even when there is no room; the futures return early from a full buffer, and
pass an interruption on to the caller. `fill_agrees_iff` states exactly when the three
answer alike, on a script that is never pending.
-/

namespace PeekableReader

open Buffer

/-- What the caller can see after `fill_peek_buf`. -/
structure Filled where
  result : Except ErrorKind Nat
  peeked : List UInt8
  /-- The bytes that have not been delivered. -/
  undelivered : List UInt8
  deriving DecidableEq

variable {B : Type} [Buffer B]

def fillSync (fuel : Nat) (p : Peekable Script B) : Exec Filled := do
  let (result, p) ← p.fillPeekBuf fuel
  return ⟨result.mapError IoError.kind, p.peeked, p.peeked ++ Script.bytes p.reader.events⟩

def fillFuture (polls : Nat) (p : Peekable PollScript B) : Exec Filled := do
  let (result, f) ← drive Future.FillPeekBuf.poll polls (.new p)
  return ⟨result.mapError IoError.kind, f.peeker.peeked,
    f.peeker.peeked ++ Script.bytes f.peeker.events⟩

def fillTokio (polls : Nat) (p : Peekable PollScript B) : Exec Filled := do
  let (result, f) ← drive Tokio.FillPeekBuf.poll polls (.new p)
  return ⟨result.mapError IoError.kind, f.peeker.peeked,
    f.peeker.peeked ++ Script.bytes f.peeker.events⟩

/-- A single read of the events `es` into the room up to the capacity. -/
def fillOnce (p : Peekable Script B) (es : List Event) : Filled :=
  match (resize p.buffer (capacity p.buffer)).1 with
  | .error e => ⟨.error e.kind, p.peeked, p.peeked ++ Script.bytes es⟩
  | .ok () =>
    match Script.next (capacity p.buffer - p.peeked.length) es with
    | (.ok d, es') => ⟨.ok d.length, p.peeked ++ d, p.peeked ++ d ++ Script.bytes es'⟩
    | (.error e, es') => ⟨.error e.kind, p.peeked, p.peeked ++ Script.bytes es'⟩

section Results

variable [LawfulBuffer B] {p : Peekable Script B} (hcap : p.peeked.length ≤ capacity p.buffer)
include hcap

theorem fillSync_eq {fuel : Nat} (hfuel : Script.weight p.reader.events < fuel) :
    fillSync fuel p = .ok (fillOnce p (settled p.reader.events)) := by
  simp only [fillSync, Peekable.fillPeekBuf, Peekable.len_buffer, fillOnce]
  rcases hres : resize p.buffer (capacity p.buffer) with ⟨e | _, buffer⟩
  · have hsame : ({ p with buffer } : Peekable Script B).peeked = p.peeked :=
      LawfulBuffer.resize_error hres
    simp only [Exec.pure_eq, Exec.ok_bind, hsame, bytes_settled]
    rfl
  · obtain ⟨room, hroom, hlen⟩ := resize_grow hres hcap
    obtain ⟨answer, p₁, hrun, hnext, hpeeked⟩ :=
      readRetry_script fuel (p := { p with buffer }) hroom rfl hfuel
    change Peekable.readRetry fuel { p with buffer } p.peeked.length = _ at hrun
    change Script.next room.length (settled p.reader.events) = _ at hnext
    change p₁.peeked = p.peeked ++ overwrite room _ at hpeeked
    rw [show capacity p.buffer - p.peeked.length = room.length from hlen.symm]
    simp only [hrun, hnext, Exec.ok_bind]
    cases answer with
    | ok d =>
      have hdata := peeked_truncate_read (d := d) (n := p.peeked.length + d.length) hpeeked rfl
      simp only [Except.map, Exec.pure_eq, Exec.ok_bind, hdata]
      rfl
    | error e =>
      have hsame := peeked_truncate_read (d := []) (n := p.peeked.length) hpeeked rfl
      simp only [Except.map, Exec.pure_eq, Exec.ok_bind, hsame, List.append_nil]
      rfl

theorem fillFuture_eq {polls : Nat} (hpolls : 0 < polls) :
    fillFuture polls p.lift = .ok
      (if capacity p.buffer = p.peeked.length then
        ⟨.ok 0, p.peeked, p.peeked ++ Script.bytes p.reader.events⟩
      else fillOnce p p.reader.events) := by
  obtain ⟨polls, rfl⟩ := Nat.exists_eq_succ_of_ne_zero hpolls.ne'
  simp only [fillFuture, drive, Future.FillPeekBuf.poll, FillPeekBuf.pollWith, FillPeekBuf.new,
    Peekable.buffer_lift, p.len_buffer]
  by_cases hfull : capacity p.buffer = p.peeked.length
  · simp only [if_pos hfull]
    simp [Except.mapError]
  · simp only [if_neg hfull, fillOnce]
    rcases hres : resize p.buffer (capacity p.buffer) with ⟨e | _, buffer⟩
    · have hsame : asSlice buffer = p.peeked := LawfulBuffer.resize_error hres
      simp [hsame, Except.mapError, Peekable.events, Peekable.lift]
    · obtain ⟨room, hroom, hlen⟩ := resize_grow hres hcap
      obtain ⟨answer, p₁, hrun, hnext, hpeeked⟩ := readSpare_script (p := { p with buffer }) hroom rfl
        (congrArg List.length hroom |>.trans List.length_append)
      change Peekable.readSpare { p with buffer } p.peeked.length _ = _ at hrun
      change Script.next room.length p.reader.events = _ at hnext
      change p₁.peeked = p.peeked ++ overwrite room _ at hpeeked
      rw [show capacity p.buffer - p.peeked.length = room.length from hlen.symm]
      simp only [Peekable.lift_with_buffer, readTail_lift, hrun, hnext, Exec.map_ok, Exec.ok_bind]
      cases answer with
      | ok d =>
        have hdata : (p₁.lift.truncate (p.peeked.length + d.length)).peeked = p.peeked ++ d :=
          peeked_truncate_read (d := d) hpeeked rfl
        simp [Except.map, Except.mapError, hdata]
      | error e =>
        have hsame : (p₁.lift.truncate p.peeked.length).peeked = p.peeked ++ [] :=
          peeked_truncate_read (d := []) hpeeked rfl
        simp [Except.map, Except.mapError, hsame]

omit hcap [LawfulBuffer B] in
theorem fillTokio_eq (polls : Nat) (p : Peekable PollScript B) :
    fillTokio polls p = fillFuture polls p := by
  have hpoll : (Tokio.FillPeekBuf.poll : FillPeekBuf PollScript B → _) = Future.FillPeekBuf.poll := by
    funext f
    simp only [Tokio.FillPeekBuf.poll, tokio_readTail_eq, Future.FillPeekBuf.poll]
  rw [fillTokio, hpoll, fillFuture]

end Results

/-! ## When they agree -/

section Agreement

variable {p : Peekable Script B} {es : List Event}

theorem fillOnce_refused {e : IoError} (h : (resize p.buffer (capacity p.buffer)).1 = .error e) :
    fillOnce p es = ⟨.error e.kind, p.peeked, p.peeked ++ Script.bytes es⟩ := by
  rw [fillOnce, h]

/-- A read into no room reports nothing, or an error. -/
theorem fillOnce_full (h : (resize p.buffer (capacity p.buffer)).1 = .ok ())
    (hfull : capacity p.buffer = p.peeked.length) (hes : ∀ e, es.head? ≠ some (.error e)) :
    fillOnce p es = ⟨.ok 0, p.peeked, p.peeked ++ Script.bytes es⟩ := by
  rw [fillOnce, h, hfull, Nat.sub_self]
  match es, hes with
  | [], _ => simp [Script.next]
  | .data chunk :: es, _ =>
    obtain ⟨-, hbytes, -⟩ :=
      Script.next_ok (show Script.next 0 (.data chunk :: es) = (.ok (chunk.take 0), _) from rfl)
    simp only [List.take_zero, List.nil_append] at hbytes
    simp [Script.next, hbytes]
  | .error e :: es, hes => exact absurd rfl (hes e)

theorem fillOnce_result_error {e : IoError} (h : (resize p.buffer (capacity p.buffer)).1 = .ok ())
    (hes : es.head? = some (.error e)) : (fillOnce p es).result = .error e.kind := by
  match es, hes with
  | .error e :: es, rfl => rw [fillOnce, h]; rfl

/-- The retries of the synchronous flavour get past every interruption. -/
theorem fillOnce_settled_ne (h : (resize p.buffer (capacity p.buffer)).1 = .ok ()) :
    (fillOnce p (settled es)).result ≠ .error .interrupted := by
  rw [fillOnce, h]
  rcases hnext : Script.next (capacity p.buffer - p.peeked.length) (settled es) with ⟨e | d, es'⟩
  · intro heq
    exact next_settled_ne hnext (Except.error.inj heq)
  · simp

end Agreement

/-- When the three flavours answer alike: a full buffer must be granted its capacity again,
and its reader must not fail; with room left, the reader must not interrupt at once, unless
the capacity is refused and it is not asked at all. -/
def FillsAlike (p : Peekable Script B) : Prop :=
  if capacity p.buffer = p.peeked.length then
    (resize p.buffer (capacity p.buffer)).1 = .ok () ∧
      ∀ e, (settled p.reader.events).head? ≠ some (.error e)
  else
    (resize p.buffer (capacity p.buffer)).1 = .ok () →
      ∀ e, p.reader.events.head? = some (.error e) → e.kind ≠ .interrupted

theorem fillOnce_agrees_iff (p : Peekable Script B) :
    fillOnce p (settled p.reader.events) =
        (if capacity p.buffer = p.peeked.length then
          ⟨.ok 0, p.peeked, p.peeked ++ Script.bytes p.reader.events⟩
        else fillOnce p p.reader.events) ↔ FillsAlike p := by
  rw [FillsAlike]
  by_cases hfull : capacity p.buffer = p.peeked.length
  · rw [if_pos hfull, if_pos hfull]
    cases hres : (resize p.buffer (capacity p.buffer)).1 with
    | error e => simp [fillOnce_refused hres]
    | ok u =>
      constructor
      · intro heq
        refine ⟨rfl, ?_⟩
        intro e he
        have hresult := congrArg Filled.result heq
        rw [fillOnce_result_error hres he] at hresult
        cases hresult
      · intro ⟨_, hes⟩
        rw [fillOnce_full hres hfull hes, bytes_settled]
  · rw [if_neg hfull, if_neg hfull]
    cases hres : (resize p.buffer (capacity p.buffer)).1 with
    | error e => simp [fillOnce_refused hres, bytes_settled]
    | ok u =>
      constructor
      · intro heq _ e he hkind
        apply fillOnce_settled_ne hres
        rw [heq, fillOnce_result_error hres he, hkind]
      · intro hes
        rw [settled_of_head (hes rfl)]

theorem fill_agrees_iff [LawfulBuffer B] (p : Peekable Script B)
    (hcap : p.peeked.length ≤ capacity p.buffer) {fuel polls : Nat}
    (hfuel : Script.weight p.reader.events < fuel) (hpolls : 0 < polls) :
    (∃ seen, fillSync fuel p = .ok seen ∧ fillFuture polls p.lift = .ok seen ∧
      fillTokio polls p.lift = .ok seen) ↔ FillsAlike p := by
  rw [fillTokio_eq, fillSync_eq hcap hfuel, fillFuture_eq hcap hpolls, ← fillOnce_agrees_iff]
  constructor
  · intro ⟨seen, hsync, hfuture, _⟩
    exact (Exec.ok.inj hsync).trans (Exec.ok.inj hfuture).symm
  · intro heq
    exact ⟨_, rfl, congrArg Exec.ok heq.symm, congrArg Exec.ok heq.symm⟩

/-- A chunk that fills up the buffer reads the same everywhere. -/
theorem fill_agrees_iff_chunk :
    ∃ seen, fillSync 4 ⟨⟨[.data [2, 3]]⟩, (⟨[1]⟩ : BoundedBuffer 3), none⟩ = .ok seen ∧
      fillFuture 1 (Peekable.lift ⟨⟨[.data [2, 3]]⟩, (⟨[1]⟩ : BoundedBuffer 3), none⟩) = .ok seen ∧
      fillTokio 1 (Peekable.lift ⟨⟨[.data [2, 3]]⟩, (⟨[1]⟩ : BoundedBuffer 3), none⟩) = .ok seen :=
  (fill_agrees_iff ⟨⟨[.data [2, 3]]⟩, (⟨[1]⟩ : BoundedBuffer 3), none⟩ (by decide) (by decide)
    (by decide)).mpr (by simp [FillsAlike, Peekable.peeked, Buffer.asSlice, Buffer.capacity])

/-- An interruption is retried by the synchronous flavour only, and an error behind a full
buffer is seen by it only. -/
theorem fill_disagrees :
    (¬ ∃ seen,
      fillSync 4 ⟨⟨[.error (.ofKind .interrupted), .data [1]]⟩, (⟨[]⟩ : BoundedBuffer 2), none⟩ =
        .ok seen ∧
      fillFuture 1 (Peekable.lift
        ⟨⟨[.error (.ofKind .interrupted), .data [1]]⟩, (⟨[]⟩ : BoundedBuffer 2), none⟩) =
        .ok seen ∧
      fillTokio 1 (Peekable.lift
        ⟨⟨[.error (.ofKind .interrupted), .data [1]]⟩, (⟨[]⟩ : BoundedBuffer 2), none⟩) =
        .ok seen) ∧
    ¬ ∃ seen,
      fillSync 2 ⟨⟨[.error (.ofKind .connectionReset)]⟩, (⟨[1, 2]⟩ : BoundedBuffer 2), none⟩ =
        .ok seen ∧
      fillFuture 1 (Peekable.lift
        ⟨⟨[.error (.ofKind .connectionReset)]⟩, (⟨[1, 2]⟩ : BoundedBuffer 2), none⟩) =
        .ok seen ∧
      fillTokio 1 (Peekable.lift
        ⟨⟨[.error (.ofKind .connectionReset)]⟩, (⟨[1, 2]⟩ : BoundedBuffer 2), none⟩) =
        .ok seen := by
  constructor
  · intro ⟨seen, hsync, hfuture, _⟩
    have hne : fillSync 4
        ⟨⟨[.error (.ofKind .interrupted), .data [1]]⟩, (⟨[]⟩ : BoundedBuffer 2), none⟩ ≠
        fillFuture 1 (Peekable.lift
          ⟨⟨[.error (.ofKind .interrupted), .data [1]]⟩, (⟨[]⟩ : BoundedBuffer 2), none⟩) := by
      decide +kernel
    exact hne (hsync.trans hfuture.symm)
  · intro ⟨seen, hsync, hfuture, _⟩
    have hne : fillSync 2
        ⟨⟨[.error (.ofKind .connectionReset)]⟩, (⟨[1, 2]⟩ : BoundedBuffer 2), none⟩ ≠
        fillFuture 1 (Peekable.lift
          ⟨⟨[.error (.ofKind .connectionReset)]⟩, (⟨[1, 2]⟩ : BoundedBuffer 2), none⟩) := by
      decide +kernel
    exact hne (hsync.trans hfuture.symm)

end PeekableReader
