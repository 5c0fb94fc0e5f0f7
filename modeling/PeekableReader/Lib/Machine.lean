import Mathlib.Order.Basic
import PeekableReader.Lib.Exec
import PeekableReader.Lib.Ledger

/-!
# Runs of a machine

A machine is a relation `Step s i o s'`: in state `s` the input `i` may be answered with
the output `o`, leaving state `s'`. `Run Step s₀ events s` is a finite run, with the
inputs and outputs it went through.

## Main results

* `Run.invariant`: what every step preserves holds after every run.
* `Run.hands`: a ledger kept by every step is kept by every run.
* `Run.constant_iff`: a quantity that never grows is constant over the runs whose steps
  keep it.
* `Run.reaches`: a goal that each of the same inputs brings nearer is reached.
* `runCalls_agree`: a sequence of calls is answered alike when single calls are.
-/

namespace PeekableReader

open Ledger

variable {σ τ ι ο α : Type}

inductive Run (Step : σ → ι → ο → σ → Prop) (s₀ : σ) : List (ι × ο) → σ → Prop
  | nil : Run Step s₀ [] s₀
  | snoc {events : List (ι × ο)} {s s' : σ} {i : ι} {o : ο} (run : Run Step s₀ events s)
      (step : Step s i o s') : Run Step s₀ (events ++ [(i, o)]) s'

variable {Step : σ → ι → ο → σ → Prop} {s₀ s : σ} {events : List (ι × ο)}

namespace Run

/-- A step in front of a run. -/
theorem cons {s₁ : σ} {i : ι} {o : ο} (step : Step s₀ i o s₁) (run : Run Step s₁ events s) :
    Run Step s₀ ((i, o) :: events) s := by
  induction run with
  | nil => exact nil.snoc step
  | snoc _ step' ih => exact ih.snoc step'

theorem invariant (Inv : σ → Prop) (hstep : ∀ s i o s', Inv s → Step s i o s' → Inv s')
    (run : Run Step s₀ events s) (h₀ : Inv s₀) : Inv s := by
  induction run with
  | nil => exact h₀
  | snoc _ step ih => exact hstep _ _ _ _ ih step

/-- The same for runs whose inputs are of one kind. -/
theorem invariant_inputs (Inv : σ → Prop) {Kind : ι → Prop}
    (hstep : ∀ s i o s', Inv s → Kind i → Step s i o s' → Inv s') (run : Run Step s₀ events s)
    (hkind : ∀ event ∈ events, Kind event.1) (h₀ : Inv s₀) : Inv s := by
  induction run with
  | nil => exact h₀
  | snoc _ step ih =>
    obtain ⟨hkind, hlast⟩ := List.forall_mem_append.mp hkind
    exact hstep _ _ _ _ (ih hkind) (hlast _ List.mem_cons_self) step

/-- What the steps hand over, one after the other, is what the run hands over, for a ledger
kept on a view of the states. -/
theorem hands [Ledger τ α] (view : σ → τ) (out : ο → List α) {Inv : σ → Prop}
    (hstep : ∀ s i o s', Inv s → Step s i o s' → Inv s' ∧ Hands (view s) (out o) (view s'))
    (run : Run Step s₀ events s) (h₀ : Inv s₀) :
    Hands (view s₀) (events.flatMap fun e => out e.2) (view s) := by
  induction run with
  | nil => exact Ledger.refl _
  | snoc run step ih =>
    have hinv := run.invariant Inv (fun s i o s' h hs => (hstep s i o s' h hs).1) h₀
    rw [List.flatMap_append, List.flatMap_singleton]
    exact Ledger.trans ih (hstep _ _ _ _ hinv step).2

/-- A quantity that never grows is the same at both ends of a run exactly if every step of
the run keeps it; here for runs with `Quiet` outputs, whose steps keep it where `Keeps`
holds. -/
theorem constant_iff {β : Type} [PartialOrder β] (f : σ → β) {Quiet : ο → Prop}
    {Keeps : σ → ι → Prop} (hle : ∀ s i o s', Step s i o s' → f s' ≤ f s)
    (hkeeps : ∀ s i o s', Step s i o s' → Quiet o → (f s' = f s ↔ Keeps s i))
    (run : Run Step s₀ events s) (hquiet : ∀ event ∈ events, Quiet event.2) :
    f s = f s₀ ↔ Run (fun s i o s' => Step s i o s' ∧ Keeps s i) s₀ events s := by
  constructor
  · intro heq
    induction run with
    | nil => exact .nil
    | @snoc events s s' i o run step ih =>
      -- the quantity cannot have fallen before the last step, nor in it
      have hrun : f s ≤ f s₀ :=
        run.invariant (fun t => f t ≤ f s₀) (fun s i o s' h hs => (hle s i o s' hs).trans h) le_rfl
      have hmid : f s = f s₀ := le_antisymm hrun (heq ▸ hle s i o s' step)
      have hkeep := (hkeeps s i o s' step (hquiet (i, o) (by simp))).mp (heq.trans hmid.symm)
      exact (ih (fun event hevent => hquiet event (by simp [hevent])) hmid).snoc ⟨step, hkeep⟩
  · intro run'
    clear run
    induction run' with
    | nil => rfl
    | @snoc events s s' i o run' step ih =>
      have hlast := (hkeeps s i o s' step.1 (hquiet (i, o) (by simp))).mpr step.2
      exact hlast.trans (ih fun event hevent => hquiet event (by simp [hevent]))

/-- Where the same input brings the state nearer to a goal each time, it reaches the goal. -/
theorem reaches {next : ι} {Goal Inv : σ → Prop} (measure : σ → Nat)
    (hstep : ∀ s, Inv s → ¬ Goal s →
      ∃ o s', Step s next o s' ∧ Inv s' ∧ (Goal s' ∨ measure s' < measure s)) (h₀ : Inv s₀) :
    ∃ events s, Run Step s₀ events s ∧ Goal s ∧ events.length ≤ measure s₀ + 1 ∧
      ∀ event ∈ events, event.1 = next := by
  -- after `n` steps the goal has been reached, or the measure has fallen by `n`
  have hfall : ∀ n, ∃ events s, Run Step s₀ events s ∧ Inv s ∧ events.length ≤ n ∧
      (∀ event ∈ events, event.1 = next) ∧
      (Goal s ∧ events.length ≤ measure s₀ + 1 ∨ measure s + n ≤ measure s₀) := by
    intro n
    induction n with
    | zero => exact ⟨[], s₀, .nil, h₀, Nat.le_refl _, by simp, .inr (Nat.le_refl _)⟩
    | succ n ih =>
      obtain ⟨events, s, run, hinv, hlen, hnext, hreached⟩ := ih
      by_cases hgoal : Goal s ∧ events.length ≤ measure s₀ + 1
      · exact ⟨events, s, run, hinv, by omega, hnext, .inl hgoal⟩
      · have hle := hreached.resolve_left hgoal
        obtain ⟨o, s', step, hinv', hnear⟩ := hstep s hinv fun h => hgoal ⟨h, by omega⟩
        refine ⟨_, s', run.snoc step, hinv', by simpa using hlen, ?_, ?_⟩
        · intro event hevent
          obtain h | h := List.mem_append.mp hevent
          · exact hnext event h
          · rw [List.mem_singleton.mp h]
        · refine hnear.imp (fun h => ⟨h, ?_⟩) fun hlt => by omega
          rw [List.length_append, List.length_singleton]
          omega
  obtain ⟨events, s, run, -, -, hnext, hreached⟩ := hfall (measure s₀ + 1)
  obtain ⟨hgoal, hlen⟩ := hreached.resolve_right (by omega)
  exact ⟨events, s, run, hgoal, hlen, hnext⟩

end Run

/-! ## Sequences of calls -/

/-- The answers to a sequence of calls, and the state after them. -/
def runCalls (call : ι → σ → Exec (α × σ)) : List ι → σ → Exec (List α × σ)
  | [], s => .ok ([], s)
  | i :: is, s => do
    let (a, s) ← call i s
    let (as, s) ← runCalls call is s
    return (a :: as, s)

/-- Two machines that answer single calls alike, from states that match, answer all alike. -/
theorem runCalls_agree {call : ι → σ → Exec (α × σ)} {call' : ι → τ → Exec (α × τ)}
    (Sim : σ → τ → Prop)
    (hcall : ∀ i s t, Sim s t → ∃ a s' t', call i s = .ok (a, s') ∧ call' i t = .ok (a, t') ∧ Sim s' t')
    (is : List ι) {s : σ} {t : τ} (h : Sim s t) :
    ∃ as s' t', runCalls call is s = .ok (as, s') ∧ runCalls call' is t = .ok (as, t') ∧ Sim s' t' := by
  induction is generalizing s t with
  | nil => exact ⟨[], s, t, rfl, rfl, h⟩
  | cons i is ih =>
    obtain ⟨a, s₁, t₁, hs, ht, h₁⟩ := hcall i s t h
    obtain ⟨as, s₂, t₂, hs', ht', h₂⟩ := ih h₁
    exact ⟨a :: as, s₂, t₂, by simp [runCalls, hs, hs'], by simp [runCalls, ht, ht'], h₂⟩

end PeekableReader
