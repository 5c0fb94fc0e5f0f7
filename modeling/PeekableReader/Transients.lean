import PeekableReader.Script.Whole

/-!
# Transient errors in the middle of a stream

A single peek takes `WouldBlock` for a pending poll. The futures that peek at the whole
stream pass over `Interrupted` only: the first `WouldBlock` that answers one of their reads
is what they return, although the next poll might have gone on.

`unaffected_iff` says that this is the only difference. Interruptions anywhere, and
`WouldBlock` in place of pending polls, change nothing unless a `WouldBlock` is met.
-/

namespace PeekableReader

open Buffer Script

/-! ## What transient errors do to a script -/

/-- Pending polls are replaced by `WouldBlock`, and interruptions are inserted. -/
inductive Perturbs : List PollEvent → List PollEvent → Prop
  | nil : Perturbs [] []
  | keep {es es' : List PollEvent} (event : PollEvent) (rest : Perturbs es es') :
      Perturbs (event :: es) (event :: es')
  | block {es es' : List PollEvent} {e : IoError} (kind : e.kind = .wouldBlock)
      (rest : Perturbs es es') : Perturbs (.pending :: es) (.ready (.error e) :: es')
  | interrupt {es es' : List PollEvent} {e : IoError} (kind : e.kind = .interrupted)
      (rest : Perturbs es es') : Perturbs es (.ready (.error e) :: es')

/-- Transient errors are inserted into a script without pending polls. -/
inductive Inserts : List Event → List Event → Prop
  | nil : Inserts [] []
  | keep {es es' : List Event} (event : Event) (rest : Inserts es es') :
      Inserts (event :: es) (event :: es')
  | insert {es es' : List Event} {e : IoError} (kind : e.kind.transient) (rest : Inserts es es') :
      Inserts es (.error e :: es')

namespace Perturbs

variable {es es' : List PollEvent}

theorem strip (h : Perturbs es es') : Inserts (PollScript.strip es) (PollScript.strip es') := by
  induction h with
  | nil => exact .nil
  | keep event _ ih =>
    cases event with
    | pending => exact ih
    | ready event => exact .keep event ih
  | block hkind _ ih => exact .insert (by rw [hkind]; rfl) ih
  | interrupt hkind _ ih => exact .insert (by rw [hkind]; rfl) ih

theorem pendings_le (h : Perturbs es es') : PollScript.pendings es' ≤ PollScript.pendings es := by
  induction h with
  | nil => exact Nat.le_refl _
  | keep event _ ih =>
    cases event with
    | pending => simpa using ih
    | ready event => simpa using ih
  | block _ _ ih =>
    rw [PollScript.pendings_ready, PollScript.pendings_pending]
    exact Nat.le_add_right_of_le ih
  | interrupt _ _ ih => simpa using ih

end Perturbs

namespace Inserts

variable {es es' : List Event}

theorem weight_le (h : Inserts es es') : weight es ≤ weight es' := by
  induction h with
  | nil => exact Nat.le_refl _
  | keep event _ ih => simpa using ih
  | insert _ _ ih =>
    rw [weight_cons]
    exact Nat.le_add_left_of_le ih

theorem next_ok (h : Inserts es es') {room : Nat} {d : List UInt8} {rest' : List Event}
    (hnext : next room es' = (.ok d, rest')) :
    ∃ rest, next room es = (.ok d, rest) ∧ Inserts rest rest' := by
  cases h with
  | nil => cases hnext; exact ⟨[], rfl, .nil⟩
  | @keep es es' event hrest =>
    match event, hnext with
    | .data chunk, hnext =>
      cases hnext
      refine ⟨_, rfl, ?_⟩
      split
      · exact .keep _ hrest
      · exact hrest
  | insert _ _ => cases hnext

/-- An error that is answered was inserted, or is answered without the others too. -/
theorem next_error (h : Inserts es es') {room : Nat} {e : IoError} {rest' : List Event}
    (hnext : next room es' = (.error e, rest')) :
    (e.kind.transient ∧ Inserts es rest') ∨
      ∃ rest, next room es = (.error e, rest) ∧ Inserts rest rest' := by
  cases h with
  | nil => cases hnext
  | @keep es es' event hrest =>
    match event, hnext with
    | .error e, hnext => cases hnext; exact .inr ⟨_, rfl, hrest⟩
  | insert hkind hrest => cases hnext; exact .inl ⟨hkind, hrest⟩

end Inserts

/-! ## What they do to an operation -/

/-- While the plan still asks for room, the reader answers `WouldBlock`. -/
inductive MeetsBlock (plan : Plan) : List UInt8 → List Event → Prop
  | here {bytes : List UInt8} {es es' : List Event} {room : Nat} {e : IoError}
      (asks : plan bytes = some (.ok room)) (next : next room es = (.error e, es'))
      (kind : e.kind = .wouldBlock) : MeetsBlock plan bytes es
  | interrupted {bytes : List UInt8} {es es' : List Event} {room : Nat} {e : IoError}
      (asks : plan bytes = some (.ok room)) (next : next room es = (.error e, es'))
      (kind : e.kind = .interrupted) (later : MeetsBlock plan bytes es') : MeetsBlock plan bytes es
  | data {bytes d : List UInt8} {es es' : List Event} {room : Nat}
      (asks : plan bytes = some (.ok room)) (next : next room es = (.ok d, es'))
      (nonempty : d ≠ []) (later : MeetsBlock plan (bytes ++ d) es') : MeetsBlock plan bytes es

section Collect

variable {plan : Plan} {bytes : List UInt8} {es es' : List Event}

theorem MeetsBlock.collect_failed (h : MeetsBlock plan bytes es) :
    ∃ e room, e.kind = .wouldBlock ∧ (collect plan bytes es).1 = .failed e ∧
      plan (collect plan bytes es).2.1 = some (.ok room) := by
  induction h with
  | @here bytes es es' room e hasks hnext hkind =>
    rw [PeekableReader.collect_failed hasks hnext (by rw [hkind]; decide)]
    exact ⟨e, room, hkind, rfl, hasks⟩
  | interrupted hasks hnext hkind _ ih =>
    rw [collect_interrupted hasks hnext hkind]
    exact ih
  | data hasks hnext hd _ ih =>
    rw [collect_data hasks hnext hd]
    exact ih

/-- A refusal is that of the plan, for the bytes collected. -/
theorem collect_refusal {e : IoError} (h : (collect plan bytes es).1 = .refused e) :
    plan (collect plan bytes es).2.1 = some (.error e) := by
  fun_induction collect plan bytes es with
  | case1 bytes es hplan => cases h
  | case2 bytes es e' hplan => cases h; exact hplan
  | case3 bytes es room hplan es' hnext => cases h
  | case4 bytes es room hplan d es' hnext hd ih => exact ih h
  | case5 bytes es room hplan e' es' hnext he ih => exact ih h
  | case6 bytes es room hplan e' es' hnext he => cases h

/-- Where no `WouldBlock` is met, inserting transient errors makes no difference. -/
theorem collect_inserts (h : Inserts es es') (hblock : ¬ MeetsBlock plan bytes es') :
    (collect plan bytes es).1 = (collect plan bytes es').1 ∧
      (collect plan bytes es).2.1 = (collect plan bytes es').2.1 ∧
      ∀ e, (collect plan bytes es').1 = .failed e → ¬ e.kind.transient := by
  fun_induction collect plan bytes es' generalizing es with
  | case1 bytes es' hplan =>
    rw [collect_done hplan]
    exact ⟨rfl, rfl, by simp⟩
  | case2 bytes es' e hplan =>
    rw [collect_refused hplan]
    exact ⟨rfl, rfl, by simp⟩
  | case3 bytes es' room hplan rest' hnext =>
    obtain ⟨rest, hnext', -⟩ := h.next_ok hnext
    rw [collect_eof hplan hnext']
    exact ⟨rfl, rfl, by simp⟩
  | case4 bytes es' room hplan d rest' hnext hd ih =>
    obtain ⟨rest, hnext', hrest⟩ := h.next_ok hnext
    rw [collect_data hplan hnext' hd]
    exact ih hrest fun hmeets => hblock (.data hplan hnext hd hmeets)
  | case5 bytes es' room hplan e rest' hnext he ih =>
    have hlater : ¬ MeetsBlock plan bytes rest' :=
      fun hmeets => hblock (.interrupted hplan hnext he hmeets)
    obtain ⟨-, hrest⟩ | ⟨rest, hnext', hrest⟩ := h.next_error hnext
    · exact ih hrest hlater
    · rw [collect_interrupted hplan hnext' he]
      exact ih hrest hlater
  | case6 bytes es' room hplan e rest' hnext he =>
    have hkind : ¬ e.kind.transient := by
      have hblocked : e.kind ≠ .wouldBlock := fun hkind => hblock (.here hplan hnext hkind)
      cases hk : e.kind <;> simp_all [ErrorKind.transient]
    obtain ⟨htransient, -⟩ | ⟨rest, hnext', -⟩ := h.next_error hnext
    · exact absurd htransient hkind
    · rw [collect_failed hplan hnext' he]
      exact ⟨rfl, rfl, by intro e' he'; cases he'; exact hkind⟩

end Collect

/-! ## The three operations -/

/-- A failed read is what the result reports, and where the result is an error of a
transient kind, it is that of a failed read or of a refused growth. -/
structure Outcome.Reported {α : Type} (outcome : Outcome) (result : Except IoError α) : Prop where
  failed : ∀ e, outcome = .failed e → result = .error e
  transient : ∀ e, result = .error e → e.kind.transient → outcome = .failed e ∨ outcome = .refused e

namespace Outcome

variable {outcome : Outcome} {α β : Type}

theorem Reported.map {result : Except IoError α} (h : outcome.Reported result) (f : α → β) :
    outcome.Reported (result.map f) where
  failed e he := by rw [h.failed e he]; rfl
  transient e he hkind := by
    cases result with
    | ok a => cases he
    | error e' => cases he; exact h.transient e rfl hkind

theorem reported_exact {eofError : IoError} (h : ¬ eofError.kind.transient) :
    outcome.Reported (outcome.exact eofError) where
  failed e he := by rw [he]; rfl
  transient e he hkind := by
    cases outcome with
    | done => cases he
    | eof => cases he; exact absurd hkind h
    | failed e' => cases he; exact .inl rfl
    | refused e' => cases he; exact .inr rfl

theorem reported_loopResult (outcome : Outcome) : outcome.Reported outcome.loopResult where
  failed e he := by rw [he]; rfl
  transient e he _ := by
    cases outcome with
    | done => cases he
    | eof => cases he
    | failed e' => cases he; exact .inl rfl
    | refused e' => cases he; exact .inr rfl

end Outcome

namespace Whole

/-- How the operation reads. -/
def plan (grant : Grant) : Whole → Plan
  | exact buf => exactPlan grant buf.length
  | toEnd _ | toString _ => growthPlan grant

/-- The error with which the operation ends before it has read anything. -/
def refuses (bytes : List UInt8) : Whole → Option Utf8Error
  | exact _ | toEnd _ => none
  | toString _ => earlyReject bytes

/-- The result and the destination, when `bytes` have been peeked in the end. -/
def ending (reply : ExactReply) (outcome : Outcome) (bytes : List UInt8) :
    Whole → Exec (Except IoError (Option Nat) × List UInt8)
  | exact buf => .ok (reply outcome buf.length, overwrite buf (bytes.take buf.length))
  | toEnd buf => .ok (outcome.loopResult.map fun () => some bytes.length, buf ++ bytes)
  | toString buf => do
    let (result, buf) ← finishString outcome.loopResult bytes buf
    return (result.map some, buf.bytes)

variable {reply : ExactReply} {grant : Grant} {bytes : List UInt8} {es : List Event} {op : Whole}

theorem spec_refused (reply : ExactReply) (grant : Grant) {e : Utf8Error} (h : op.refuses bytes = some e) :
    ∃ dst, ∀ es, op.spec reply grant bytes es = .ok ⟨.error (invalidUtf8IoError e), dst, bytes, es⟩ := by
  cases op with
  | exact buf => cases h
  | toEnd buf => cases h
  | toString buf =>
    refine ⟨buf.bytes, ?_⟩
    intro es
    change earlyReject bytes = some e at h
    simp only [spec, h]

/-- The specification in two steps: collect, then answer. -/
theorem spec_eq_ending (h : op.refuses bytes = none) :
    op.spec reply grant bytes es = do
      let (result, dst) ← op.ending reply (collect (op.plan grant) bytes es).1
        (collect (op.plan grant) bytes es).2.1
      return ⟨result, dst, (collect (op.plan grant) bytes es).2.1,
        (collect (op.plan grant) bytes es).2.2⟩ := by
  cases op with
  | exact buf => rfl
  | toEnd buf => rfl
  | toString buf =>
    change earlyReject bytes = none at h
    simp only [spec, h, ending, plan, bind_assoc, Exec.pure_eq, Exec.ok_bind]

/-- A failed loop fails the operation, whatever the bytes. -/
theorem finishString_failed {io : IoError} {bytes : List UInt8} {dst : Str}
    {out : Except IoError Nat × Str} (h : finishString (.error io) bytes dst = .ok out) :
    out.1 = .error io := by
  cases hutf8 : fromUtf8 bytes with
  | ok s =>
    simp only [finishString, hutf8] at h
    cases h
    rfl
  | error u =>
    obtain ⟨hle, s, hs⟩ := fromUtf8_take_validUpTo hutf8
    simp only [finishString, hutf8] at h
    split at h
    · simp only [slice_front bytes hle, Exec.ok_bind, hs] at h
      cases h
      rfl
    · cases h
      rfl

/-- A loop that has not failed leaves the text as the only thing that can be wrong. -/
theorem finishString_invalid {e : IoError} {bytes : List UInt8} {dst : Str}
    {out : Except IoError Nat × Str} (h : finishString (.ok ()) bytes dst = .ok out)
    (he : out.1 = .error e) : e.kind = .invalidData := by
  cases hutf8 : fromUtf8 bytes with
  | ok s =>
    simp only [finishString, hutf8] at h
    cases h
    cases he
  | error u =>
    simp only [finishString, hutf8] at h
    cases h
    cases he
    rfl

/-- The loop of `peek_to_string` is reported, and apart from it only what is wrong with the
text. -/
theorem reported_finishString {outcome : Outcome} {dst : Str} {out : Except IoError Nat × Str}
    (h : finishString outcome.loopResult bytes dst = .ok out) : outcome.Reported out.1 := by
  cases hloop : outcome.loopResult with
  | error io =>
    rw [hloop] at h
    have hreported := outcome.reported_loopResult
    rw [hloop] at hreported
    rw [finishString_failed h]
    exact hreported.map fun _ => 0
  | ok u =>
    rw [hloop] at h
    constructor
    · intro e he
      rw [he] at hloop
      cases hloop
    · intro e he hkind
      rw [finishString_invalid h he] at hkind
      cases hkind

theorem ending_ends (flavour : AsyncFlavour) (op : Whole) (outcome : Outcome) (bytes : List UInt8) :
    (op.ending flavour.reply outcome bytes).Ends fun out => outcome.Reported out.1 := by
  cases op with
  | exact buf =>
    apply Exec.ends_ok.mpr
    cases flavour with
    | future => exact (Outcome.reported_exact (by decide)).map _
    | tokio => exact (Outcome.reported_exact (by decide)).map _
  | toEnd buf => exact Exec.ends_ok.mpr (outcome.reported_loopResult.map _)
  | toString buf =>
    obtain ⟨⟨result, dst⟩, hfinish, -⟩ := finishString_ends outcome.loopResult bytes buf
    simp only [ending, hfinish, Exec.ok_bind]
    exact Exec.ends_ok.mpr ((reported_finishString hfinish).map some)

end Whole

/-- The result is not an error of a transient kind, unless it is the one with which the peek
buffer refuses to grow any further. -/
def Final.NoTransient (plan : Plan) (r : Final) : Prop :=
  ∀ e, r.result = .error e → e.kind.transient → plan r.peeked = some (.error e)

/-- The future ends on both scripts, with the same result, destination and peek buffer, and
passes on no transient error of either reader. -/
def Unaffected {B : Type} [Buffer B] (grant : Grant) (flavour : AsyncFlavour) (op : Whole)
    (polls fuel : Nat) (p p' : Peekable PollScript B) : Prop :=
  ∃ r r', op.drive flavour polls fuel p = .ok r ∧ op.drive flavour polls fuel p' = .ok r' ∧
    r.result = r'.result ∧ r.dst = r'.dst ∧ r.peeked = r'.peeked ∧
    r.NoTransient (op.plan grant) ∧ r'.NoTransient (op.plan grant)

/-- The operation asks the reader for bytes and is answered with `WouldBlock`. -/
def Whole.MeetsBlock (grant : Grant) (bytes : List UInt8) (es : List Event) (op : Whole) : Prop :=
  op.refuses bytes = none ∧ PeekableReader.MeetsBlock (op.plan grant) bytes es

namespace Whole

variable {grant : Grant} {bytes : List UInt8} {es es' : List Event} {op : Whole}

/-- What becomes of a script in which transient errors have been inserted. -/
theorem spec_unaffected_iff (flavour : AsyncFlavour) (h : Inserts es es') :
    (∃ r r', op.spec flavour.reply grant bytes es = .ok r ∧
      op.spec flavour.reply grant bytes es' = .ok r' ∧
      r.result = r'.result ∧ r.dst = r'.dst ∧ r.peeked = r'.peeked ∧
      r.NoTransient (op.plan grant) ∧ r'.NoTransient (op.plan grant)) ↔
      ¬ op.MeetsBlock grant bytes es' := by
  cases hrefuses : op.refuses bytes with
  | some e =>
    obtain ⟨dst, hspec⟩ := spec_refused flavour.reply grant hrefuses
    have hquiet (es : List Event) :
        Final.NoTransient (op.plan grant) ⟨.error (invalidUtf8IoError e), dst, bytes, es⟩ := by
      intro e' he' hkind
      cases he'
      cases hkind
    constructor
    · intro _ hmeets
      rw [hmeets.1] at hrefuses
      cases hrefuses
    · intro _
      exact ⟨_, _, hspec es, hspec es', rfl, rfl, rfl, hquiet es, hquiet es'⟩
  | none =>
    obtain ⟨⟨result, dst⟩, hending, hreported⟩ := ending_ends flavour op
      (collect (op.plan grant) bytes es').1 (collect (op.plan grant) bytes es').2.1
    have hspec' : op.spec flavour.reply grant bytes es' =
        .ok ⟨result, dst, (collect (op.plan grant) bytes es').2.1,
          (collect (op.plan grant) bytes es').2.2⟩ := by
      rw [spec_eq_ending hrefuses, hending]
      rfl
    constructor
    · intro ⟨r, r', _, hr', _, _, _, _, hquiet⟩ hmeets
      obtain ⟨e, room, hkind, hfailed, hasks⟩ := hmeets.2.collect_failed
      cases hspec'.symm.trans hr'
      have hrefused := hquiet e (hreported.failed e hfailed) (by rw [hkind]; rfl)
      cases hasks.symm.trans hrefused
    · intro hmeets
      obtain ⟨houtcome, hbytes, hhard⟩ :=
        collect_inserts h fun hblock => hmeets ⟨hrefuses, hblock⟩
      have hspec : op.spec flavour.reply grant bytes es =
          .ok ⟨result, dst, (collect (op.plan grant) bytes es').2.1,
            (collect (op.plan grant) bytes es).2.2⟩ := by
        rw [spec_eq_ending hrefuses, houtcome, hbytes, hending]
        rfl
      have hquiet (rest : List Event) : Final.NoTransient (op.plan grant)
          ⟨result, dst, (collect (op.plan grant) bytes es').2.1, rest⟩ := by
        intro e he hkind
        rcases hreported.transient e he hkind with hfailed | hrefused
        · exact absurd hkind (hhard e hfailed)
        · exact collect_refusal hrefused
      exact ⟨_, _, hspec, hspec', rfl, rfl, rfl, hquiet _, hquiet _⟩

end Whole

theorem unaffected_iff {B : Type} [Buffer B] [LawfulBuffer B] {grant : Grant} {buffer : B}
    (hgrant : Follows grant buffer) (flavour : AsyncFlavour) (op : Whole)
    {events events' : List PollEvent} (h : Perturbs events events') (bufCap : Option Nat)
    {polls fuel : Nat}
    (hpolls : PollScript.pendings events < polls)
    (hfuel : Script.weight (PollScript.strip events') < fuel) :
    Unaffected grant flavour op polls fuel ⟨⟨events⟩, buffer, bufCap⟩ ⟨⟨events'⟩, buffer, bufCap⟩ ↔
      ¬ op.MeetsBlock grant (asSlice buffer) (PollScript.strip events') := by
  rw [← Whole.spec_unaffected_iff flavour h.strip, Unaffected]
  rw [Whole.drive_eq_spec flavour _ hgrant (h.strip.weight_le.trans_lt hfuel) hpolls op,
    Whole.drive_eq_spec flavour _ hgrant hfuel (h.pendings_le.trans_lt hpolls) op]
  rfl

/-- A `WouldBlock` behind the bytes that are asked for. -/
theorem unaffected_iff_exact :
    Unaffected (fun _ _ => .ok ()) .tokio (.exact [0]) 3 6
      ⟨⟨[.pending, .ready (.data [1]), .pending]⟩, VecBuffer.ofBytes [], none⟩
      ⟨⟨[.ready (.error (.ofKind .interrupted)), .pending, .ready (.data [1]),
        .ready (.error (.ofKind .wouldBlock))]⟩, VecBuffer.ofBytes [], none⟩ := by
  have hperturbs : Perturbs [.pending, .ready (.data [1]), .pending]
      [.ready (.error (.ofKind .interrupted)), .pending, .ready (.data [1]),
        .ready (.error (.ofKind .wouldBlock))] :=
    .interrupt rfl (.keep _ (.keep _ (.block rfl .nil)))
  have hgrant : Follows (fun _ _ => .ok ()) (VecBuffer.ofBytes []) := fun _ _ _ => rfl
  apply (unaffected_iff hgrant .tokio (.exact [0]) hperturbs none (by decide) (by decide)).mpr
  -- the plan asks until it has been handed the one byte, and then asks no more
  intro ⟨_, hmeets⟩
  obtain ⟨e, room, -, hfailed, -⟩ := hmeets.collect_failed
  have hasks : (Whole.exact [0]).plan (fun _ _ => .ok ()) [] = some (.ok 1) := rfl
  have hdone : (Whole.exact [0]).plan (fun _ _ => .ok ()) [1] = none := rfl
  change (collect _ [] [.error (.ofKind .interrupted), .data [1], .error (.ofKind .wouldBlock)]).1 =
    _ at hfailed
  rw [collect_interrupted hasks rfl rfl, collect_data hasks rfl (by decide), List.nil_append] at hfailed
  cases (congrArg Prod.fst (collect_done hdone)).symm.trans hfailed

/-- A `WouldBlock` in place of a pending poll, in an exact peek and in a peek to the end. -/
theorem not_unaffected :
    ¬ Unaffected (fun _ _ => .ok ()) .future (.exact [0]) 2 4
      ⟨⟨[.pending, .ready (.data [1])]⟩, VecBuffer.ofBytes [], none⟩
      ⟨⟨[.ready (.error (.ofKind .wouldBlock)), .ready (.data [1])]⟩, VecBuffer.ofBytes [], none⟩ ∧
    ¬ Unaffected (fun _ _ => .ok ()) .tokio (.exact [0]) 2 4
      ⟨⟨[.pending, .ready (.data [1])]⟩, VecBuffer.ofBytes [], none⟩
      ⟨⟨[.ready (.error (.ofKind .wouldBlock)), .ready (.data [1])]⟩, VecBuffer.ofBytes [], none⟩ ∧
    ¬ Unaffected (fun _ _ => .ok ()) .tokio (.toEnd []) 2 4
      ⟨⟨[.pending, .ready (.data [1])]⟩, VecBuffer.ofBytes [], none⟩
      ⟨⟨[.ready (.error (.ofKind .wouldBlock)), .ready (.data [1])]⟩, VecBuffer.ofBytes [], none⟩ ∧
    ¬ Unaffected (fun _ _ => .ok ()) .future (.toString .empty) 2 4
      ⟨⟨[.pending, .ready (.data [1])]⟩, VecBuffer.ofBytes [], none⟩
      ⟨⟨[.ready (.error (.ofKind .wouldBlock)), .ready (.data [1])]⟩, VecBuffer.ofBytes [], none⟩ := by
  have hfailed {flavour : AsyncFlavour} {op : Whole} (r r' : Final)
      (hr : op.drive flavour 2 4
        ⟨⟨[.pending, .ready (.data [1])]⟩, VecBuffer.ofBytes [], none⟩ = .ok r)
      (hr' : op.drive flavour 2 4
        ⟨⟨[.ready (.error (.ofKind .wouldBlock)), .ready (.data [1])]⟩, VecBuffer.ofBytes [], none⟩ =
          .ok r') (hne : r.result ≠ r'.result) :
      ¬ Unaffected (fun _ _ => .ok ()) flavour op 2 4
        ⟨⟨[.pending, .ready (.data [1])]⟩, VecBuffer.ofBytes [], none⟩
        ⟨⟨[.ready (.error (.ofKind .wouldBlock)), .ready (.data [1])]⟩, VecBuffer.ofBytes [], none⟩ := by
    intro ⟨s, s', hs, hs', hresult, _⟩
    cases hr.symm.trans hs
    cases hr'.symm.trans hs'
    exact hne hresult
  refine ⟨?_, ?_, ?_, ?_⟩
  · exact hfailed ⟨.ok none, [1], [1], []⟩ ⟨.error (.ofKind .wouldBlock), [0], [], [.data [1]]⟩
      (by decide +kernel) (by decide +kernel) (by decide)
  · exact hfailed ⟨.ok (some 1), [1], [1], []⟩ ⟨.error (.ofKind .wouldBlock), [0], [], [.data [1]]⟩
      (by decide +kernel) (by decide +kernel) (by decide)
  · exact hfailed ⟨.ok (some 1), [1], [1], []⟩ ⟨.error (.ofKind .wouldBlock), [], [], [.data [1]]⟩
      (by decide +kernel) (by decide +kernel) (by decide)
  · exact hfailed ⟨.ok (some 1), [1], [1], []⟩ ⟨.error (.ofKind .wouldBlock), [], [], [.data [1]]⟩
      (by decide +kernel) (by decide +kernel) (by decide)

end PeekableReader
