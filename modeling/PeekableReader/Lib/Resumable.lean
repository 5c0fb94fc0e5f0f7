import Mathlib.Logic.Relation
import PeekableReader.Lib.Exec

/-!
# Resumable computations

A future is a state with a `poll` step that either is `ready` with a value or `pending`
with the state to poll again. `drive` polls until it is ready. `driveRetry` does the
same, but at each pending poll a schedule may drop the future and start another one.

`Exec.Rel` relates two executions that agree on whether they return, panic or diverge.

## Main results

* `driveRetry_rel`: restarting is harmless when it preserves a relation kept by the polls.
* `driveRetry_ends`: a future whose pending polls use up some measure is driven to an end.
* `driveRetry_same`: the two together, for a future that is dropped and one that is not.
* `driveRetry_joins`: the same, where a restarted future need not match as long as it comes
  to a matching end.
-/

namespace PeekableReader

/-- `core::task::Poll` -/
inductive Poll (α : Type) where
  | ready (a : α)
  | pending
  deriving DecidableEq, Repr

def Poll.map {α β : Type} (f : α → β) : Poll α → Poll β
  | ready a => ready (f a)
  | pending => pending

namespace Exec

variable {α β γ δ : Type}

/-- The executions agree on how they end, and related values come out of them. -/
def Rel (R : α → β → Prop) : Exec α → Exec β → Prop
  | ok a, ok b => R a b
  | panic v, panic w => v = w
  | diverge, diverge => True
  | _, _ => False

@[simp] theorem rel_ok {R : α → β → Prop} {a : α} {b : β} : Rel R (ok a) (ok b) ↔ R a b := Iff.rfl

theorem Rel.bind {R : α → β → Prop} {S : γ → δ → Prop} {x : Exec α} {y : Exec β}
    {f : α → Exec γ} {g : β → Exec δ} (h : Rel R x y) (hfg : ∀ a b, R a b → Rel S (f a) (g b)) :
    Rel S (x >>= f) (y >>= g) := by
  cases x <;> cases y <;> first | exact hfg _ _ h | exact h | exact h.elim

theorem Rel.mono {R S : α → β → Prop} {x : Exec α} {y : Exec β} (h : Rel R x y)
    (hRS : ∀ a b, R a b → S a b) : Rel S x y := by
  cases x <;> cases y <;> first | exact hRS _ _ h | exact h

/-- An execution agrees with itself on what is known of its value. -/
theorem Rel.of_sat {R : α → α → Prop} {Q : α → Prop} {x : Exec α} (h : Sat x Q)
    (hR : ∀ a, Q a → R a a) : Rel R x x := by
  cases x with
  | ok a => exact hR a h
  | panic w => exact Eq.refl w
  | diverge => trivial

theorem Rel.refl {R : α → α → Prop} (hR : ∀ a, R a a) (x : Exec α) : Rel R x x := by
  cases x with
  | ok a => exact hR a
  | panic w => exact Eq.refl w
  | diverge => trivial

/-- Related values may be related by what is known of each of them as well. -/
theorem Rel.and_sat {R : α → β → Prop} {P : α → Prop} {Q : β → Prop} {x : Exec α} {y : Exec β}
    (h : Rel R x y) (hx : Sat x P) (hy : Sat y Q) : Rel (fun a b => R a b ∧ P a ∧ Q b) x y := by
  cases x <;> cases y <;> first | exact ⟨h, hx, hy⟩ | exact h

/-- A value that comes out of one side has its counterpart on the other. -/
theorem Rel.ok_left {R : α → β → Prop} {x : Exec α} {y : Exec β} (h : Rel R x y) {a : α}
    (hx : x = ok a) : ∃ b, y = ok b ∧ R a b := by
  subst hx
  cases y <;> first | exact ⟨_, rfl, h⟩ | exact h.elim

end Exec

section Drive

variable {α β σ τ ι : Type}

/-- Poll until ready. -/
def drive (poll : σ → Exec (Poll α × σ)) : Nat → σ → Exec (α × σ)
  | 0, _ => .diverge
  | fuel + 1, s => do
    match ← poll s with
    | (.ready a, s) => return (a, s)
    | (.pending, s) => drive poll fuel s

/-- Poll until ready. At the `k`-th pending poll, `schedule k` may hold the input of a
new future that is started in place of the dropped one. -/
def driveRetry (poll : σ → Exec (Poll α × σ)) (restart : ι → σ → σ) :
    Nat → (Nat → Option ι) → σ → Exec (α × σ)
  | 0, _, _ => .diverge
  | fuel + 1, schedule, s => do
    match ← poll s with
    | (.ready a, s) => return (a, s)
    | (.pending, s) =>
      let s := match schedule 0 with
        | some i => restart i s
        | none => s
      driveRetry poll restart fuel (fun k => schedule (k + 1)) s

/-- Two polls agree: ready together with related outcomes, or pending together. -/
def PollRel (Done : α × σ → β × τ → Prop) (Live : σ → τ → Prop) :
    Poll α × σ → Poll β × τ → Prop
  | (.ready a, s), (.ready b, t) => Done (a, s) (b, t)
  | (.pending, s), (.pending, t) => Live s t
  | _, _ => False

theorem PollRel.imp {Done Done' : α × σ → β × τ → Prop} {Live Live' : σ → τ → Prop}
    {out : Poll α × σ} {out' : Poll β × τ} (h : PollRel Done Live out out')
    (hdone : ∀ a b, Done a b → Done' a b) (hlive : ∀ s t, Live s t → Live' s t) :
    PollRel Done' Live' out out' := by
  obtain ⟨poll, s⟩ := out
  obtain ⟨poll', t⟩ := out'
  cases poll <;> cases poll' <;> first | exact hdone _ _ h | exact hlive _ _ h | exact h.elim

variable {p : σ → Exec (Poll α × σ)} {q : τ → Exec (Poll β × τ)}
  {Done : α × σ → β × τ → Prop} {Live : σ → τ → Prop}

/-- Dropping and restarting is harmless when the restarted future still matches. -/
theorem driveRetry_rel {restart : ι → σ → σ} {Admissible : ι → Prop}
    (step : ∀ s t, Live s t → Exec.Rel (PollRel Done Live) (p s) (q t))
    (again : ∀ i s t, Admissible i → Live s t → Live (restart i s) t)
    (fuel : Nat) (schedule : Nat → Option ι)
    (hschedule : ∀ k i, schedule k = some i → Admissible i) {s : σ} {t : τ} (h : Live s t) :
    Exec.Rel Done (driveRetry p restart fuel schedule s) (drive q fuel t) := by
  induction fuel generalizing schedule s t with
  | zero => trivial
  | succ fuel ih =>
    refine (step s t h).bind ?_
    rintro ⟨a, s'⟩ ⟨b, t'⟩ hab
    cases a <;> cases b <;> try first | exact hab | exact hab.elim
    refine ih _ (fun k i hk => hschedule (k + 1) i hk) ?_
    cases hs : schedule 0 with
    | none => exact hab
    | some i => exact again i s' t' (hschedule 0 i hs) hab

/-- A schedule that drops nothing. -/
theorem driveRetry_none (restart : ι → σ → σ) (fuel : Nat) (s : σ) :
    driveRetry p restart fuel (fun _ => none) s = drive p fuel s := by
  induction fuel generalizing s with
  | zero => rfl
  | succ fuel ih =>
    rw [driveRetry, drive]
    congr 1
    funext ⟨poll, s'⟩
    cases poll with
    | ready a => rfl
    | pending => exact ih s'

/-- A poll is ready with a value and a state, or leaves a state to poll again. -/
def PollEnds (Done : α × σ → Prop) (Live : σ → Prop) : Poll α × σ → Prop
  | (.ready a, s) => Done (a, s)
  | (.pending, s) => Live s

theorem PollEnds.imp {Done Done' : α × σ → Prop} {Live Live' : σ → Prop} {out : Poll α × σ}
    (h : PollEnds Done Live out) (hdone : ∀ a s, Done (a, s) → Done' (a, s))
    (hlive : ∀ s, Live s → Live' s) : PollEnds Done' Live' out := by
  obtain ⟨poll, s⟩ := out
  cases poll with
  | ready a => exact hdone a s h
  | pending => exact hlive s h

/-- A future that uses up some measure at each pending poll is ready after as many polls,
however often it is dropped and restarted. -/
theorem driveRetry_ends {restart : ι → σ → σ} {Admissible : ι → Prop} {Done : α × σ → Prop}
    {Live : σ → Prop} (measure : σ → Nat)
    (step : ∀ s, Live s → (p s).Ends (PollEnds Done fun t => Live t ∧ measure t < measure s))
    (again : ∀ i s, Admissible i → Live s → Live (restart i s) ∧ measure (restart i s) = measure s)
    (fuel : Nat) (schedule : Nat → Option ι)
    (hschedule : ∀ k i, schedule k = some i → Admissible i) {s : σ} (h : Live s)
    (hfuel : measure s < fuel) : (driveRetry p restart fuel schedule s).Ends Done := by
  induction fuel generalizing schedule s with
  | zero => omega
  | succ fuel ih =>
    apply (step s h).bind
    intro ⟨poll, s'⟩ hpoll
    cases poll with
    | ready a => exact Exec.ends_ok.mpr hpoll
    | pending =>
      obtain ⟨hlive, hlt⟩ : Live s' ∧ measure s' < measure s := hpoll
      apply ih _ fun k i hk => hschedule (k + 1) i hk
      · cases hs : schedule 0 with
        | none => exact hlive
        | some i => exact (again i s' (hschedule 0 i hs) hlive).1
      · cases hs : schedule 0 with
        | none => exact Nat.lt_of_lt_of_le hlt (Nat.le_of_lt_succ hfuel)
        | some i =>
          have hsame := (again i s' (hschedule 0 i hs) hlive).2
          exact Nat.lt_of_le_of_lt (Nat.le_of_eq hsame)
            (Nat.lt_of_lt_of_le hlt (Nat.le_of_lt_succ hfuel))

/-- A future that is dropped and restarted comes to the same end as one that is not. -/
theorem driveRetry_same {restart : ι → σ → σ} {Admissible : ι → Prop}
    {Done : α × σ → α × σ → Prop} {Live : σ → Prop} {Twins : σ → σ → Prop} (measure : σ → Nat)
    (step : ∀ s, Live s →
      (p s).Ends (PollEnds (fun _ => True) fun t => Live t ∧ measure t < measure s))
    (again : ∀ i s, Admissible i → Live s → Live (restart i s) ∧ measure (restart i s) = measure s)
    (twins : ∀ s t, Twins s t → Exec.Rel (PollRel Done Twins) (p s) (p t))
    (rejoin : ∀ i s t, Admissible i → Twins s t → Twins (restart i s) t)
    (fuel : Nat) (schedule : Nat → Option ι)
    (hschedule : ∀ k i, schedule k = some i → Admissible i) {s : σ} (h : Live s)
    (htwins : Twins s s) (hfuel : measure s < fuel) :
    ∃ out out', driveRetry p restart fuel schedule s = .ok out ∧
      driveRetry p restart fuel (fun _ => none) s = .ok out' ∧ Done out out' := by
  obtain ⟨out, hrun, -⟩ := driveRetry_ends measure step again fuel schedule hschedule h hfuel
  have hrel := driveRetry_rel twins rejoin fuel schedule hschedule htwins
  obtain ⟨out', hrun', hdone⟩ := hrel.ok_left hrun
  exact ⟨out, out', hrun, (driveRetry_none restart fuel s).trans hrun', hdone⟩

/-- The state behind the `k`-th pending poll, if the future gets there without being ready. -/
def pendingAt (poll : σ → Exec (Poll α × σ)) : Nat → σ → Option σ
  | 0, s => match poll s with
    | .ok (.pending, t) => some t
    | _ => none
  | k + 1, s => match poll s with
    | .ok (.pending, t) => pendingAt poll k t
    | _ => none

theorem pendingAt_zero {s t : σ} (h : p s = .ok (.pending, t)) : pendingAt p 0 s = some t := by
  simp [pendingAt, h]

theorem pendingAt_succ {s t : σ} (h : p s = .ok (.pending, t)) (k : Nat) :
    pendingAt p (k + 1) s = pendingAt p k t := by
  simp [pendingAt, h]

theorem pendingAt_succ_eq_none {k : Nat} {s : σ} (h : pendingAt p k s = none) :
    pendingAt p (k + 1) s = none := by
  induction k generalizing s with
  | zero =>
    unfold pendingAt at h ⊢
    split
    · simp_all
    · rfl
  | succ k ih =>
    rw [pendingAt] at h ⊢
    split
    · next t ht => exact ih (by simpa only [ht] using h)
    · rfl

/-- Both are ready in the end, the one that is dropped on the schedule and the one that is
not, with related outcomes. -/
def Joins (p : σ → Exec (Poll α × σ)) (restart : ι → σ → σ) (Done : α × σ → α × σ → Prop)
    (fuel : Nat) (schedule : Nat → Option ι) (s t : σ) : Prop :=
  ∃ out out', driveRetry p restart fuel schedule s = .ok out ∧ drive p fuel t = .ok out' ∧
    Done out out'

/-- Where a restarted future no longer matches, it is enough that it comes to the end it
would have come to. -/
theorem driveRetry_joins {restart : ι → σ → σ} {Done : α × σ → α × σ → Prop}
    {Twins : σ → σ → Prop} (measure : σ → Nat)
    (step : ∀ s t, Twins s t → ∃ out out', p s = .ok out ∧ p t = .ok out' ∧
      PollRel Done (fun s' t' => Twins s' t' ∧ measure t' < measure t) out out')
    (fuel : Nat) (schedule : Nat → Option ι) {s t : σ}
    (again : ∀ k i s' t', schedule k = some i → pendingAt p k t = some t' → Twins s' t' →
      Twins (restart i s') t' ∨ ∀ fuel, measure t' < fuel →
        Joins p restart Done fuel (fun j => schedule (j + (k + 1))) (restart i s') t')
    (h : Twins s t) (hfuel : measure t < fuel) : Joins p restart Done fuel schedule s t := by
  induction fuel generalizing schedule s t with
  | zero => omega
  | succ fuel ih =>
    obtain ⟨⟨poll, s'⟩, ⟨poll', t'⟩, hs, ht, hpoll⟩ := step s t h
    unfold Joins driveRetry drive
    simp only [hs, ht, Exec.ok_bind]
    cases poll with
    | ready a =>
      cases poll' with
      | ready b => exact ⟨_, _, rfl, rfl, hpoll⟩
      | pending => exact hpoll.elim
    | pending =>
      cases poll' with
      | ready b => exact hpoll.elim
      | pending =>
        obtain ⟨htwins, hlt⟩ : Twins s' t' ∧ measure t' < measure t := hpoll
        have hfuel' : measure t' < fuel := Nat.lt_of_lt_of_le hlt (Nat.le_of_lt_succ hfuel)
        have hagain k i s'' t'' (hi : schedule (k + 1) = some i)
            (ht'' : pendingAt p k t' = some t'') (h' : Twins s'' t'') :=
          again (k + 1) i s'' t'' hi ((pendingAt_succ ht k).trans ht'') h'
        cases hi : schedule 0 with
        | none => exact ih _ hagain htwins hfuel'
        | some i =>
          -- The future is dropped here: it still matches, or its end has to be compared.
          rcases again 0 i s' t' hi (pendingAt_zero ht) htwins with hmatch | hjoins
          · exact ih _ hagain hmatch hfuel'
          · exact hjoins fuel hfuel'

/-- Polled with some fuel, `s` is pending and becomes `t`. -/
def Pends (poll : Nat → σ → Exec (Poll α × σ)) (s t : σ) : Prop :=
  ∃ fuel, poll fuel s = .ok (.pending, t)

/-- What a pending poll keeps is kept by any number of them. -/
theorem Pends.invariant {poll : Nat → σ → Exec (Poll α × σ)} {Inv : σ → Prop}
    (step : ∀ fuel s t, Inv s → poll fuel s = .ok (.pending, t) → Inv t) {s t : σ} (hs : Inv s)
    (run : Relation.ReflTransGen (Pends poll) s t) : Inv t := by
  induction run with
  | refl => exact hs
  | tail _ hpends ih =>
    obtain ⟨fuel, hpoll⟩ := hpends
    exact step fuel _ _ ih hpoll

theorem drive_ends {Done : α × σ → Prop} {Live : σ → Prop} (measure : σ → Nat)
    (step : ∀ s, Live s → (p s).Ends (PollEnds Done fun t => Live t ∧ measure t < measure s))
    (fuel : Nat) {s : σ} (h : Live s) (hfuel : measure s < fuel) :
    (drive p fuel s).Ends Done := by
  rw [← driveRetry_none (fun (_ : Unit) s => s)]
  exact driveRetry_ends measure step (fun _ _ _ hs => ⟨hs, rfl⟩) fuel _
    (fun _ _ _ => trivial) h hfuel

end Drive

end PeekableReader
