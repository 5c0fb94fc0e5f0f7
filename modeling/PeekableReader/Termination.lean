import PeekableReader.Future.Supply
import PeekableReader.Safety
import PeekableReader.Script.Supply
import PeekableReader.Sync.Supply
import PeekableReader.Tokio.Supply

/-!
# Every call returns

Over a reader with a supply, and whatever the buffer refuses, every operation and every poll of
a session returns, with fuel for one call of the reader more than the supply was at first. If
the supply counts stalls as well, then every future becomes ready within as many polls.

The supply need not be known. A reader without one may hand over bytes for ever, and
`peek_to_end` has to follow it.
-/

namespace PeekableReader

open Buffer

/-! ## The supply over a run -/

/-- The ledger of a supply, which nothing adds to. -/
@[reducible] def Ledger.supply {R : Type} (left : R → Nat) : Ledger R UInt8 where
  Hands r _ r' := left r' ≤ left r
  refl _ := Nat.le_refl _
  trans h h' := h'.trans h

section

variable {R W B : Type} [Buffer B] {left : R → Nat} {stalls : Prop}

theorem Transparent.left_le {p p' : Peekable R B} {seen : Seen}
    (h : @Transparent R B _ (Ledger.supply left) p seen p') : left p'.reader ≤ left p.reader :=
  h.1.choose_spec.1

variable [LawfulBuffer B]

theorem Peekable.Step.left_le [Read R] [BoundedRead R] (S : Read.Supply R) {p p' : Peekable R B}
    {op : Op} {seen : Seen} (h : p.Step op seen p') : S.left p'.reader ≤ S.left p.reader := by
  let _ := Ledger.supply S.left
  have : LawfulRead R := { read_ok := S.left_le, read_error := S.left_le }
  obtain ⟨fuel, h⟩ := h
  exact (Peekable.perform_post fuel p op _ h).left_le

theorem Future.Session.Step.left_le [AsyncRead R] [BoundedAsyncRead R] (S : Supply R stalls)
    {s s' : Session R B} {i : Input} {seen : Seen} (hs : s.Inv) (h : s.Step i seen s') :
    s'.Inv ∧ S.left s'.held.reader ≤ S.left s.held.reader := by
  let _ := Ledger.supply S.left
  have : LawfulAsyncRead R :=
    { pollRead_ok := S.left_le, pollRead_none := fun h _ => S.left_le h }
  obtain ⟨fuel, x, hx, hout⟩ := h
  obtain ⟨hinv, htransparent⟩ := react_post hs hx _ hout
  exact ⟨hinv, htransparent.left_le⟩

theorem Tokio.Session.Step.left_le [AsyncRead R] [BoundedAsyncRead R] [BufMut W] [LawfulBufMut W]
    [AmpleBuffer B] (S : Supply R stalls) {s s' : Session R W B} {i : Input W} {seen : Seen}
    (hs : s.Inv) (h : s.Step i seen s') :
    s'.Inv ∧ S.left s'.held.reader ≤ S.left s.held.reader := by
  let _ := Ledger.supply S.left
  have : LawfulFreshRead R :=
    { fresh_ok := S.left_le, fresh_none := fun h _ => S.left_le h }
  obtain ⟨fuel, x, hx, hout⟩ := h
  by_cases hread : ∀ rb, i ≠ .pollRead rb
  · obtain ⟨hinv, htransparent⟩ := (react_sat hs hs.ample hread hx).post hout
    exact ⟨hinv, htransparent.left_le⟩
  · obtain ⟨rb, rfl⟩ := not_forall_not.mp hread
    refine ⟨(react_safe hs hs.ample hx).post hout, ?_⟩
    cases s <;> cases hx
    case idle.refl p =>
      obtain ⟨out, hpoll, hout⟩ := Exec.bind_eq_ok.mp hout
      have hle := pollRead_halts S p rb
      rw [hpoll] at hle
      cases hout
      exact hle

/-- A session in progress, and no more of the supply than at first. -/
theorem Future.Session.run_left_le [AsyncRead R] [BoundedAsyncRead R] (S : Supply R stalls)
    {p₀ : Peekable R B} {events : List (Input × Seen)} {s : Session R B}
    (run : Run Step (.idle p₀) events s) : s.Inv ∧ S.left s.held.reader ≤ S.left p₀.reader :=
  run.invariant (fun s => s.Inv ∧ S.left s.held.reader ≤ S.left p₀.reader)
    (fun _ _ _ _ h step => (step.left_le S h.1).imp_right (·.trans h.2)) ⟨trivial, Nat.le_refl _⟩

theorem Tokio.Session.run_left_le [AsyncRead R] [BoundedAsyncRead R] [BufMut W] [LawfulBufMut W]
    [AmpleBuffer B] (S : Supply R stalls) {p₀ : Peekable R B} {events : List (Input W × Seen)}
    {s : Session R W B} (run : Run Step (.idle p₀) events s) :
    s.Inv ∧ S.left s.held.reader ≤ S.left p₀.reader :=
  run.invariant (fun s => s.Inv ∧ S.left s.held.reader ≤ S.left p₀.reader)
    (fun _ _ _ _ h step => (step.left_le S h.1).imp_right (·.trans h.2)) ⟨trivial, Nat.le_refl _⟩

/-! ## One step -/

variable [AmpleBuffer B]

theorem Future.Session.react_ends [AsyncRead R] [BoundedAsyncRead R] (S : Supply R stalls)
    {fuel : Nat} {s : Session R B} (hs : s.Inv) (hfuel : S.left s.held.reader < fuel) {i : Input}
    {x : Exec (Seen × Session R B)} (hx : s.react fuel i = some x) :
    x.Ends fun out => Spends S i s out.2 ∧ out.2.Inv := by
  let _ := Ledger.any R UInt8
  have := BoundedAsyncRead.lawful R
  exact ((react_halts hfuel hx).ends (react_sat hs hs.ample hx)).mono fun _ h => ⟨h.1, h.2.1⟩

theorem Tokio.Session.react_ends [AsyncRead R] [BoundedAsyncRead R] [BufMut W] [LawfulBufMut W]
    (S : Supply R stalls) {fuel : Nat} {s : Session R W B} (hs : s.Inv)
    (hfuel : S.left s.held.reader < fuel) {i : Input W} {x : Exec (Seen × Session R W B)}
    (hx : s.react fuel i = some x) : x.Ends fun out => Spends S i s out.2 ∧ out.2.Inv := by
  let _ := Ledger.any R UInt8
  have := BoundedAsyncRead.lawful R
  exact (react_halts hfuel hx).ends (react_safe hs hs.ample hx)

/-- A future that is still borrowing the reader is brought nearer to its end by a poll. -/
theorem Future.Session.settles [AsyncRead R] [BoundedAsyncRead R] (S : Supply R True)
    {s : Session R B} (hs : s.Inv) (hbusy : ¬ ∃ p, s = .idle p) :
    ∃ seen s', s.Step .poll seen s' ∧ s'.Inv ∧
      ((∃ p, s' = .idle p) ∨ S.left s'.held.reader < S.left s.held.reader) := by
  obtain ⟨x, hx⟩ : ∃ x, s.react (S.left s.held.reader + 1) .poll = some x := by
    cases s with
    | idle p => exact absurd ⟨p, rfl⟩ hbusy
    | _ => exact ⟨_, rfl⟩
  obtain ⟨⟨seen, s'⟩, hout, hspends, hinv⟩ := react_ends S hs (Nat.lt_succ_self _) hx
  exact ⟨seen, s', ⟨_, x, hx, hout⟩, hinv, hspends.2 trivial rfl⟩

theorem Tokio.Session.settles [AsyncRead R] [BoundedAsyncRead R] [BufMut W] [LawfulBufMut W]
    (S : Supply R True) {s : Session R W B} (hs : s.Inv) (hbusy : ¬ ∃ p, s = .idle p) :
    ∃ seen s', s.Step .poll seen s' ∧ s'.Inv ∧
      ((∃ p, s' = .idle p) ∨ S.left s'.held.reader < S.left s.held.reader) := by
  obtain ⟨x, hx⟩ : ∃ x, s.react (S.left s.held.reader + 1) .poll = some x := by
    cases s with
    | idle p => exact absurd ⟨p, rfl⟩ hbusy
    | _ => exact ⟨_, rfl⟩
  obtain ⟨⟨seen, s'⟩, hout, hspends, hinv⟩ := react_ends S hs (Nat.lt_succ_self _) hx
  exact ⟨seen, s', ⟨_, x, hx, hout⟩, hinv, hspends.2 trivial rfl⟩

end

/-! ## Over whole sessions -/

section

variable (R R₁ R₂ W B : Type) [Read R] [BoundedRead R] [Future.AsyncRead R₁]
  [Future.BoundedAsyncRead R₁] [Tokio.AsyncRead R₂] [Tokio.BoundedAsyncRead R₂] [Tokio.BufMut W]
  [Tokio.LawfulBufMut W] [Buffer B] [LawfulBuffer B] [AmpleBuffer B]

/-- However long a session goes on, the fuel that was enough at first is enough. -/
theorem sessions_return :
    (∀ (S : Read.Supply R) (p₀ : Peekable R B) events p, Run Peekable.Step p₀ events p →
      ∀ fuel op, S.left p₀.reader < fuel → ∃ out, p.perform fuel op = .ok out) ∧
    (∀ (S : Future.Supply R₁ False) (p₀ : Peekable R₁ B) events s,
      Run Future.Session.Step (.idle p₀) events s →
        ∀ fuel i x, S.left p₀.reader < fuel → s.react fuel i = some x → ∃ out, x = .ok out) ∧
    ∀ (S : Tokio.Supply R₂ False) (p₀ : Peekable R₂ B) events (s : Tokio.Session R₂ W B),
      Run Tokio.Session.Step (.idle p₀) events s →
        ∀ fuel i x, S.left p₀.reader < fuel → s.react fuel i = some x → ∃ out, x = .ok out := by
  refine ⟨?_, ?_, ?_⟩
  · intro S p₀ events p run fuel op hfuel
    have hle := run.invariant (fun p => S.left p.reader ≤ S.left p₀.reader)
      (fun _ _ _ _ h step => (step.left_le S).trans h) (Nat.le_refl _)
    let _ := Ledger.any R UInt8
    have := BoundedRead.lawful R
    obtain ⟨out, hout, -⟩ := (Peekable.perform_halts S (hle.trans_lt hfuel) op).ends
      (Peekable.perform_safe fuel p op)
    exact ⟨out, hout⟩
  · intro S p₀ events s run fuel i x hfuel hx
    obtain ⟨hs, hle⟩ := Future.Session.run_left_le S run
    obtain ⟨out, hout, -⟩ := Future.Session.react_ends S hs (hle.trans_lt hfuel) hx
    exact ⟨out, hout⟩
  · intro S p₀ events s run fuel i x hfuel hx
    obtain ⟨hs, hle⟩ := Tokio.Session.run_left_le S run
    obtain ⟨out, hout, -⟩ := Tokio.Session.react_ends S hs (hle.trans_lt hfuel) hx
    exact ⟨out, hout⟩

/-- Two chunks with an interruption between them. -/
theorem sessions_return_script :
    ∃ out, (Peekable.withBuffer (B := VecBuffer)
      (Script.mk [.data [1, 2], .error (.ofKind .interrupted), .data [3]])).perform 7 (.peekToEnd []) =
        .ok out := by
  have returns := (sessions_return Script PollScript PollScript Tokio.SliceSink VecBuffer).1
  exact returns Script.supply _ [] _ .nil 7 (.peekToEnd []) (by decide)

/-- Whatever futures a caller has started and dropped: the one it holds becomes ready. -/
theorem futures_settle :
    (∀ (S : Future.Supply R₁ True) (p₀ : Peekable R₁ B) events s,
      Run Future.Session.Step (.idle p₀) events s →
        ∃ polls p, Run Future.Session.Step s polls (.idle p) ∧
          polls.length ≤ S.left p₀.reader + 1 ∧ ∀ poll ∈ polls, poll.1 = .poll) ∧
    ∀ (S : Tokio.Supply R₂ True) (p₀ : Peekable R₂ B) events (s : Tokio.Session R₂ W B),
      Run Tokio.Session.Step (.idle p₀) events s →
        ∃ polls p, Run Tokio.Session.Step s polls (.idle p) ∧
          polls.length ≤ S.left p₀.reader + 1 ∧ ∀ poll ∈ polls, poll.1 = .poll := by
  refine ⟨?_, ?_⟩
  · intro S p₀ events s run
    obtain ⟨hs, hle⟩ := Future.Session.run_left_le S run
    obtain ⟨polls, _, hpolls, ⟨p, rfl⟩, hlen, hpoll⟩ := Run.reaches
      (fun s : Future.Session R₁ B => S.left s.held.reader)
      (fun _ hs hbusy => Future.Session.settles S hs hbusy) hs
    exact ⟨polls, p, hpolls, hlen.trans (Nat.succ_le_succ hle), hpoll⟩
  · intro S p₀ events s run
    obtain ⟨hs, hle⟩ := Tokio.Session.run_left_le S run
    obtain ⟨polls, _, hpolls, ⟨p, rfl⟩, hlen, hpoll⟩ := Run.reaches
      (fun s : Tokio.Session R₂ W B => S.left s.held.reader)
      (fun _ hs hbusy => Tokio.Session.settles S hs hbusy) hs
    exact ⟨polls, p, hpolls, hlen.trans (Nat.succ_le_succ hle), hpoll⟩

end

/-- A stream with a pending poll between its two bytes. -/
def halting : PollScript := ⟨[.ready (.data [1]), .pending, .ready (.data [2])]⟩

/-- A future that has to wait for the second byte. -/
theorem futures_settle_script :
    (∃ polls p, Run (Future.Session.Step (R := PollScript) (B := VecBuffer))
      (.peekExact (.new (.withBuffer halting) [0, 0])) polls (.idle p) ∧
        polls.length ≤ 6 ∧ ∀ poll ∈ polls, poll.1 = .poll) ∧
    ∃ polls p, Run (Tokio.Session.Step (R := PollScript) (W := Tokio.SliceSink) (B := VecBuffer))
      (.peekExact (.new (.withBuffer halting) [0, 0])) polls (.idle p) ∧
        polls.length ≤ 6 ∧ ∀ poll ∈ polls, poll.1 = .poll := by
  have settles := futures_settle PollScript PollScript Tokio.SliceSink VecBuffer
  refine ⟨?_, ?_⟩
  · exact settles.1 PollScript.futureSupply (.withBuffer halting) _ _
      (Run.nil.snoc (i := .peekExact [0, 0]) ⟨0, _, rfl, rfl⟩)
  · exact settles.2 PollScript.tokioSupply (.withBuffer halting) _ _
      (Run.nil.snoc (i := .peekExact [0, 0]) ⟨0, _, rfl, rfl⟩)

end PeekableReader
