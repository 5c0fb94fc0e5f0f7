import PeekableReader.Io.Grow
import PeekableReader.Script.Futures

/-!
# Peeking to the end of a script

What `peek_to_end` and `peek_to_string` read of a script is settled by the script alone:
the bytes before its first end of file, or before its first error that is no interruption.
`ending` splits a script there. A poll of the loop either gets that far or is refused
growth before (`Stops`), or it is pending on the way (`Gathers`).

Nothing is assumed of what the buffer refuses.
-/

namespace PeekableReader

open Buffer

/-- How a script ends. -/
structure Ending where
  /-- The bytes handed over before. -/
  handed : List UInt8
  /-- `ok` for an end of file. -/
  stop : Except IoError Unit
  /-- The events behind it. -/
  rest : List Event
  deriving DecidableEq

/-- The ending of a script that hands over `d` first. -/
def Ending.after (d : List UInt8) (e : Ending) : Ending := { e with handed := d ++ e.handed }

@[simp] theorem Ending.after_nil (e : Ending) : e.after [] = e := rfl

@[simp] theorem Ending.after_after (d d' : List UInt8) (e : Ending) :
    (e.after d').after d = e.after (d ++ d') := by
  simp [Ending.after]

/-- The first end of file or error that ends a read, and what comes before and behind it. -/
def ending : List Event → Ending
  | [] => ⟨[], .ok (), []⟩
  | .error e :: es => if e.kind = .interrupted then ending es else ⟨[], .error e, es⟩
  | .data chunk :: es => if chunk = [] then ⟨[], .ok (), es⟩ else (ending es).after chunk

/-! ## One read -/

section Next

variable {room : Nat} {es es' : List Event} {d : List UInt8} {e : IoError}

theorem ending_of_eof (hroom : 0 < room) (h : Script.next room es = (.ok [], es')) :
    ending es = ⟨[], .ok (), es'⟩ := by
  match es, h with
  | [], h => cases h; rfl
  | .data chunk :: es, h =>
    obtain ⟨htake, hrest⟩ := Prod.mk.inj h
    have hchunk : chunk = [] := by
      obtain rfl | hchunk := List.take_eq_nil_iff.mp (Except.ok.inj htake)
      · exact absurd hroom (Nat.lt_irrefl 0)
      · exact hchunk
    subst hchunk
    simpa [ending] using hrest

theorem ending_of_data (h : Script.next room es = (.ok d, es')) (hd : d ≠ []) :
    ending es = (ending es').after d := by
  match es, h with
  | [], h => cases h; exact absurd rfl hd
  | .data chunk :: es, h =>
    cases h
    have hchunk : chunk ≠ [] := by rintro rfl; simp at hd
    by_cases hlt : room < chunk.length
    · have hrest : chunk.drop room ≠ [] := by simpa using hlt
      simp [ending, hchunk, hlt, hrest]
    · simp [ending, hchunk, hlt, List.take_of_length_le (Nat.le_of_not_lt hlt)]

theorem ending_of_interrupted (h : Script.next room es = (.error e, es'))
    (he : e.kind = .interrupted) : ending es = ending es' := by
  match es, h with
  | .error e :: es, h => cases h; exact if_pos he

theorem ending_of_error (h : Script.next room es = (.error e, es')) (he : e.kind ≠ .interrupted) :
    ending es = ⟨[], .error e, es'⟩ := by
  match es, h with
  | .error e :: es, h => cases h; exact if_neg he

end Next

/-- The bytes before the ending are handed over, and what follows it is left. -/
theorem bytes_ending (es : List Event) :
    Script.bytes es = (ending es).handed ++ Script.bytes (ending es).rest := by
  induction es with
  | nil => rfl
  | cons ev es ih =>
    match ev with
    | .error e =>
      by_cases he : e.kind = .interrupted
      · simp [ending, he, Event.bytes, ih]
      · simp [ending, he, Event.bytes]
    | .data chunk =>
      by_cases hchunk : chunk = []
      · simp [ending, hchunk, Event.bytes]
      · simp [ending, hchunk, Event.bytes, Ending.after, ih]

/-! ## Scripts that come to an end of file -/

/-- The bytes up to the first report of an end of file. -/
def toEof : List Event → List UInt8
  | [] => []
  | .error _ :: es => toEof es
  | .data chunk :: es => if chunk = [] then [] else chunk ++ toEof es

/-- The reader comes to an end of file, and only interruptions occur before it. -/
def EndsInEof : List Event → Prop
  | [] => True
  | .error e :: es => e.kind = .interrupted ∧ EndsInEof es
  | .data chunk :: es => chunk = [] ∨ EndsInEof es

theorem endsInEof_iff {es : List Event} : EndsInEof es ↔ (ending es).stop = .ok () := by
  induction es with
  | nil => simp [EndsInEof, ending]
  | cons ev es ih =>
    match ev with
    | .error e => by_cases he : e.kind = .interrupted <;> simp [EndsInEof, ending, he, ih]
    | .data chunk => by_cases hchunk : chunk = [] <;> simp [EndsInEof, ending, hchunk, ih, Ending.after]

instance (es : List Event) : Decidable (EndsInEof es) := decidable_of_iff _ endsInEof_iff.symm

theorem toEof_eq {es : List Event} (h : EndsInEof es) : toEof es = (ending es).handed := by
  induction es with
  | nil => rfl
  | cons ev es ih =>
    match ev with
    | .error e => rw [toEof, ih h.2, ending, if_pos h.1]
    | .data chunk =>
      by_cases hchunk : chunk = []
      · simp [toEof, ending, hchunk]
      · simp [toEof, ending, hchunk, ih (h.resolve_left hchunk), Ending.after]

/-- A script on the way to its end of file. -/
theorem endsInEof_of_after {es es' : List Event} {d : List UInt8} (h : ending es = (ending es').after d)
    (hend : EndsInEof es) : EndsInEof es' ∧ toEof es = d ++ toEof es' := by
  have hend' : EndsInEof es' := by
    rw [endsInEof_iff] at hend ⊢
    rw [← hend, h]
    rfl
  refine ⟨hend', ?_⟩
  rw [toEof_eq hend, toEof_eq hend', h]
  rfl

/-! ## Room for more -/

variable {B : Type} [Buffer B]

/-- What peeking makes of `b` has been granted a length of at least `n`. -/
def Granted (b : B) (n : Nat) : Prop :=
  ∃ b', Reshapes b b' ∧ ∃ m, n ≤ m ∧ (resize b' m).1 = .ok ()

theorem Granted.reshapes {b b' : B} {n : Nat} (hb : Reshapes b b') (h : Granted b' n) :
    Granted b n := by
  obtain ⟨b'', hb', m, hm, hres⟩ := h
  exact ⟨b'', hb.trans hb', m, hm, hres⟩

theorem Granted.mono {b : B} {m n : Nat} (h : Granted b n) (hmn : m ≤ n) : Granted b m := by
  obtain ⟨b', hb, k, hk, hres⟩ := h
  exact ⟨b', hb, k, hmn.trans hk, hres⟩

theorem Granted.of_grow [LawfulBuffer B] {b b' : B} {n : Nat}
    (h : growPeekBuffer b = (.ok n, b')) : Granted b ((asSlice b).length + n) := by
  obtain ⟨k, -, -, b₁, hrefused, hlast⟩ := exists_granted h
  exact ⟨b₁, hrefused.reshapes, _, Nat.le_refl _, by rw [hlast]⟩

/-! ## The loop -/

/-- Between `p` and `q` the bytes `d` were read, and the end was not reached. -/
structure Gathers (p : Peekable PollScript B) (d : List UInt8) (q : Peekable PollScript B) :
    Prop where
  peeked : q.peeked = p.peeked ++ d
  ending_eq : ending p.events = (ending q.events).after d
  reshapes : Reshapes p.buffer q.buffer
  granted : d ≠ [] → Granted p.buffer q.peeked.length

theorem Gathers.refl (p : Peekable PollScript B) : Gathers p [] p :=
  ⟨(List.append_nil _).symm, rfl, .refl, fun hne => absurd rfl hne⟩

theorem Gathers.trans {p q r : Peekable PollScript B} {d d' : List UInt8} (h : Gathers p d q)
    (h' : Gathers q d' r) : Gathers p (d ++ d') r where
  peeked := by rw [h'.peeked, h.peeked, List.append_assoc]
  ending_eq := by rw [h.ending_eq, h'.ending_eq, Ending.after_after]
  reshapes := h.reshapes.trans h'.reshapes
  granted hne := by
    by_cases hd' : d' = []
    · subst hd'
      rw [h'.peeked, List.append_nil]
      exact h.granted (by simpa using hne)
    · exact (h'.granted hd').reshapes h.reshapes

/-- How the loop ends that starts with the buffer `b` and the events `es`: at the end of
the script, or with a buffer that is refused growth. -/
inductive Stops (b : B) (es : List Event) (stop : Except IoError Unit) (bytes : List UInt8)
    (es' : List Event) : Prop
  | ended {d : List UInt8} (bytes_eq : bytes = asSlice b ++ d) (ending_eq : ending es = ⟨d, stop, es'⟩)
      (granted : Granted b (bytes.length + 1))
  | refused {d : List UInt8} {e : IoError} {b₁ b₂ : B} (stop_eq : stop = .error e)
      (bytes_eq : bytes = asSlice b ++ d) (ending_eq : ending es = (ending es').after d)
      (reshapes : Reshapes b b₁) (peeked : asSlice b₁ = bytes)
      (grow : growPeekBuffer b₁ = (.error e, b₂)) (granted : d ≠ [] → Granted b bytes.length)

theorem Gathers.stops {p q : Peekable PollScript B} {d bytes : List UInt8}
    {stop : Except IoError Unit} {es' : List Event} (h : Gathers p d q)
    (hq : Stops q.buffer q.events stop bytes es') : Stops p.buffer p.events stop bytes es' := by
  have hpeeked : asSlice q.buffer = asSlice p.buffer ++ d := h.peeked
  cases hq with
  | @ended d' hbytes hending hgranted =>
    refine .ended (d := d ++ d') ?_ ?_ (hgranted.reshapes h.reshapes)
    · rw [hbytes, hpeeked, List.append_assoc]
    · rw [h.ending_eq, hending]
      rfl
  | @refused d' e b₁ b₂ hstop hbytes hending hb hb₁ hgrow hgranted =>
    refine .refused (d := d ++ d') hstop ?_ ?_ (h.reshapes.trans hb) hb₁ hgrow ?_
    · rw [hbytes, hpeeked, List.append_assoc]
    · rw [h.ending_eq, hending, Ending.after_after]
    · intro hne
      by_cases hd' : d' = []
      · subst hd'
        rw [hbytes, List.append_nil]
        exact h.granted (by simpa using hne)
      · exact (hgranted hd').reshapes h.reshapes

/-- Stopped by either, the bytes gathered have left the script. -/
theorem Stops.handed {b : B} {es es' : List Event} {stop : Except IoError Unit} {bytes : List UInt8}
    (h : Stops b es stop bytes es') :
    ∃ d, bytes = asSlice b ++ d ∧ Script.bytes es = d ++ Script.bytes es' := by
  cases h with
  | @ended d hbytes hending _ => exact ⟨d, hbytes, by rw [bytes_ending, hending]⟩
  | @refused d _ _ _ _ hbytes hending _ _ _ _ =>
    refine ⟨d, hbytes, ?_⟩
    rw [bytes_ending, hending, bytes_ending es']
    simp [Ending.after]

/-- From `p` to `p'` the reader was pending, and it read no further than that. -/
structure Waited (p p' : Peekable PollScript B) : Prop where
  weight_le : Script.weight p'.events ≤ Script.weight p.events
  pendings_lt : p'.pendings < p.pendings

theorem Collects.waited {plan : Plan} {p p' : Peekable PollScript B}
    (h : Collects plan p p' .pending) : Waited p p' := by
  obtain ⟨-, hweight, hpend⟩ := h
  exact ⟨hweight, by omega⟩

theorem Waited.after {plan : Plan} {p q p' : Peekable PollScript B} (h : Waited q p')
    (hpq : Advances plan p q) : Waited p p' :=
  ⟨h.weight_le.trans hpq.weight_lt.le, h.pendings_lt.trans_eq hpq.pendings_eq.symm⟩

variable [LawfulBuffer B]

/-- A poll with some room, for the plan that asks for that room. -/
theorem readTail_answers {p : Peekable PollScript B} {buffer : B} {room : List UInt8}
    (hbuffer : asSlice buffer = p.peeked ++ room) {lo hi : Nat} (hlo : lo = p.peeked.length)
    (hhi : hi = lo + room.length) :
    ∃ poll p₁, Future.readTail { p with buffer } lo hi = .ok (poll, p₁) ∧
      TailCase (fun _ => some (.ok room.length)) p p₁ room.length poll :=
  readTail_cases hbuffer rfl hlo hhi

theorem PeekToString.loop_stops (fuel : Nat) {p : Peekable PollScript B}
    (hfuel : Script.weight p.events < fuel) :
    (loop Future.readTail fuel p).Ends
      (PollEnds (fun out => Stops p.buffer p.events out.1 out.2.peeked out.2.events)
        fun q => Waited p q ∧ ∃ d, Gathers p d q) := by
  induction fuel generalizing p with
  | zero => omega
  | succ fuel ih =>
    simp only [loop, Peekable.len_buffer]
    rcases hgrow : growPeekBuffer p.buffer with ⟨e | n, buffer⟩
    · have hsame : asSlice buffer = p.peeked := (growPeekBuffer_spec _ hgrow).2 e rfl
      exact Exec.ends_ok.mpr (Stops.refused rfl (hsame.trans (List.append_nil _).symm) rfl .refl
        hsame.symm hgrow fun hne => absurd rfl hne)
    · obtain ⟨hpos, room, hroom, rfl⟩ := (growPeekBuffer_spec _ hgrow).1 n rfl
      obtain ⟨poll, p₁, hrun, hcase⟩ := readTail_answers hroom rfl rfl
      have hgranted := Granted.of_grow hgrow
      have hreshapes := (Reshapes.of_grow hgrow).trans (readTail_reshapes hrun)
      -- what the rest of the loop does, it does for a poll that started at `p`
      have hafter {m : Nat} {d : List UInt8} {out : Poll (Except IoError Unit) × Peekable PollScript B}
          (hadv : Advances (fun _ => some (.ok room.length)) p (p₁.truncate m))
          (hgathers : Gathers p d (p₁.truncate m))
          (h : PollEnds
            (fun out => Stops (p₁.truncate m).buffer (p₁.truncate m).events out.1 out.2.peeked
              out.2.events)
            (fun q => Waited (p₁.truncate m) q ∧ ∃ d, Gathers (p₁.truncate m) d q) out) :
          PollEnds (fun out => Stops p.buffer p.events out.1 out.2.peeked out.2.events)
            (fun q => Waited p q ∧ ∃ d, Gathers p d q) out := by
        apply h.imp (fun _ _ hstops => hgathers.stops hstops)
        rintro q ⟨hwaited, d', hq⟩
        exact ⟨hwaited.after hadv, _, hgathers.trans hq⟩
      simp only [hrun, Exec.ok_bind]
      cases hcase with
      | eof hpeeked _ hnext =>
        refine Exec.ends_ok.mpr (Stops.ended (hpeeked.trans (List.append_nil _).symm)
          (ending_of_eof hpos hnext) ?_)
        rw [hpeeked]
        exact hgranted.mono (Nat.add_le_add_left hpos _)
      | @data d hd hle hpeeked hadv hnext =>
        simp only [if_neg hd]
        have hgathers : Gathers p d (p₁.truncate (p.peeked.length + d.length)) := by
          refine ⟨hpeeked, ending_of_data hnext (by simpa using hd), hreshapes.truncate _, fun _ => ?_⟩
          rw [hpeeked, List.length_append]
          exact hgranted.mono (Nat.add_le_add_left hle _)
        have hw := hadv.weight_lt
        exact (ih (Nat.lt_of_lt_of_le hw (Nat.le_of_lt_succ hfuel))).mono
          fun _ h => hafter hadv hgathers h
      | interrupted he hpeeked hadv hnext =>
        simp only [if_pos he]
        have hgathers : Gathers p [] (p₁.truncate p.peeked.length) :=
          ⟨hpeeked.trans (List.append_nil _).symm, ending_of_interrupted hnext he,
            hreshapes.truncate _, fun hne => absurd rfl hne⟩
        have hw := hadv.weight_lt
        exact (ih (Nat.lt_of_lt_of_le hw (Nat.le_of_lt_succ hfuel))).mono
          fun _ h => hafter hadv hgathers h
      | failed he hpeeked _ hnext =>
        simp only [if_neg he]
        refine Exec.ends_ok.mpr (Stops.ended (hpeeked.trans (List.append_nil _).symm)
          (ending_of_error hnext he) ?_)
        rw [hpeeked]
        exact hgranted.mono (Nat.add_le_add_left hpos _)
      | pending hpeeked hcollects hsame =>
        refine Exec.ends_ok.mpr ⟨hcollects.waited, [], hpeeked.trans (List.append_nil _).symm, ?_,
          hreshapes.truncate _, fun hne => absurd rfl hne⟩
        rw [Peekable.events_truncate, hsame, Ending.after_nil]

end PeekableReader
