import Mathlib.Data.List.Induction
import PeekableReader.Lib.Machine
import PeekableReader.Lib.Resumable

/-!
# Machines that cannot be told apart

Two outcomes `Agree` when they show the same and leave related states. A machine whose
every call agrees with that of another, from related states, agrees with it over any
sequence of calls, panics and divergence included.

A machine with two kinds of calls that do not touch each other splits into two machines,
each with the calls of one kind.

A machine refines a specification if it always goes on, and each of its steps is one that
the specification allows. Its runs are then runs of the specification. Where that leaves no
choice, they are all the same.

## Main results

* `runCalls_rel`: single calls that agree make sequences of calls agree.
* `Refines.run`, `Refines.exists_run`: the runs of a machine that refines a specification.
* `Run.unique`: inputs that leave the specification no choice have one run.
* `Run.split`: a run with calls of two kinds is a run of each kind, one beside the other.
-/

namespace PeekableReader

variable {α β γ δ σ τ υ ι κ : Type}

/-- The same is shown, and related states are left. -/
def Agree (Sim : σ → τ → Prop) (out : α × σ) (out' : α × τ) : Prop :=
  out.1 = out'.1 ∧ Sim out.2 out'.2

@[simp] theorem agree_mk {Sim : σ → τ → Prop} {a a' : α} {s : σ} {t : τ} :
    Agree Sim (a, s) (a', t) ↔ a = a' ∧ Sim s t := Iff.rfl

namespace Exec

variable {Sim : σ → τ → Prop} {Q : γ → δ → Prop}

/-- Two continuations of one execution. -/
theorem Rel.same (x : Exec α) {f : α → Exec γ} {g : α → Exec δ} (h : ∀ a, Rel Q (f a) (g a)) :
    Rel Q (x >>= f) (x >>= g) :=
  (Rel.refl (fun _ => rfl) x).bind fun a b hab => by subst hab; exact h a

theorem Rel.map {P : α → β → Prop} {x : Exec α} {y : Exec β} {f : α → γ} {g : β → δ}
    (h : Rel P x y) (hfg : ∀ a b, P a b → Q (f a) (g b)) : Rel Q (f <$> x) (g <$> y) := by
  cases x <;> cases y <;> first | exact hfg _ _ h | exact h

theorem Rel.trans {P : α → β → Prop} {x : Exec α} {y : Exec β} {z : Exec γ} {S : β → γ → Prop}
    (hxy : Rel P x y) (hyz : Rel S y z) : Rel (fun a c => ∃ b, P a b ∧ S b c) x z := by
  match x, y, z, hxy, hyz with
  | ok _, ok b, ok _, hxy, hyz => exact ⟨b, hxy, hyz⟩
  | panic _, panic _, panic _, hxy, hyz => exact Eq.trans hxy hyz
  | diverge, diverge, diverge, _, _ => trivial

/-- Related values may be related by what is known of the first as well. -/
theorem Rel.and_left {P : α → β → Prop} {P' : α → Prop} {x : Exec α} {y : Exec β} (h : Rel P x y)
    (hx : Sat x P') : Rel (fun a b => P a b ∧ P' a) x y := by
  cases x <;> cases y <;> first | exact ⟨h, hx⟩ | exact h

/-- Related values may be related by what is known of the second as well. -/
theorem Rel.and_post {P : α → β → Prop} {P' : β → Prop} {x : Exec α} {y : Exec β} (h : Rel P x y)
    (hy : Post y P') : Rel (fun a b => P a b ∧ P' b) x y := by
  cases x <;> cases y <;> first | exact ⟨h, hy _ rfl⟩ | exact h

theorem Rel.bind_agree {x : Exec (α × σ)} {y : Exec (α × τ)} {f : α × σ → Exec γ}
    {g : α × τ → Exec δ} (h : Rel (Agree Sim) x y)
    (hfg : ∀ a s t, Sim s t → Rel Q (f (a, s)) (g (a, t))) : Rel Q (x >>= f) (y >>= g) := by
  refine h.bind ?_
  rintro ⟨a, s⟩ ⟨b, t⟩ ⟨hab, hst⟩
  cases hab
  exact hfg a s t hst

/-- The same with a destination beside the state. -/
theorem Rel.bind_agree₂ {x : Exec (α × β × σ)} {y : Exec (α × β × τ)} {f : α × β × σ → Exec γ}
    {g : α × β × τ → Exec δ} (h : Rel (Agree (Agree Sim)) x y)
    (hfg : ∀ a b s t, Sim s t → Rel Q (f (a, b, s)) (g (a, b, t))) : Rel Q (x >>= f) (y >>= g) := by
  refine h.bind_agree ?_
  rintro a ⟨b, s⟩ ⟨b', t⟩ ⟨hb, hst⟩
  cases hb
  exact hfg a b s t hst

end Exec

/-! ## Sequences of calls -/

theorem runCalls_rel {call : ι → σ → Exec (α × σ)} {call' : ι → τ → Exec (α × τ)}
    (Sim : σ → τ → Prop) (is : List ι)
    (hcall : ∀ i ∈ is, ∀ s t, Sim s t → Exec.Rel (Agree Sim) (call i s) (call' i t)) {s : σ} {t : τ}
    (h : Sim s t) : Exec.Rel (Agree Sim) (runCalls call is s) (runCalls call' is t) := by
  induction is generalizing s t with
  | nil => exact ⟨rfl, h⟩
  | cons i is ih =>
    refine (hcall i List.mem_cons_self s t h).bind_agree ?_
    intro a s₁ t₁ h₁
    refine (ih (fun j hj => hcall j (List.mem_cons_of_mem i hj)) h₁).bind_agree ?_
    intro as s₂ t₂ h₂
    exact ⟨rfl, h₂⟩

theorem runCalls_map (call : κ → σ → Exec (α × σ)) (f : ι → κ) (is : List ι) (s : σ) :
    runCalls call (is.map f) s = runCalls (fun i => call (f i)) is s := by
  induction is generalizing s with
  | nil => rfl
  | cons i is ih => simp only [List.map_cons, runCalls, ih]

/-! ## Refinement -/

section Refinement

variable {Step : σ → ι → α → σ → Prop} {Spec : τ → ι → α → τ → Prop} {Inv : σ → Prop} {view : σ → τ}
  {s₀ s : σ} {events : List (ι × α)}

/-- What every step says of its input and output holds all along a run. -/
theorem Run.forall_event {P : ι × α → Prop} (run : Run Step s₀ events s)
    (hstep : ∀ s i a s', Step s i a s' → P (i, a)) : ∀ event ∈ events, P event := by
  induction run with
  | nil => simp
  | snoc _ step ih =>
    intro event hevent
    obtain h | h := List.mem_append.mp hevent
    · exact ih event h
    · obtain rfl := List.mem_singleton.mp h
      exact hstep _ _ _ _ step

/-- A run, seen through a view of its states. -/
theorem Run.viewed (run : Run Step s₀ events s)
    (hstep : ∀ s i a s', Inv s → Step s i a s' → Spec (view s) i a (view s') ∧ Inv s')
    (h₀ : Inv s₀) : Run Spec (view s₀) events (view s) ∧ Inv s := by
  induction run with
  | nil => exact ⟨.nil, h₀⟩
  | snoc run step ih =>
    obtain ⟨hrun, hinv⟩ := ih
    obtain ⟨hspec, hinv'⟩ := hstep _ _ _ _ hinv step
    exact ⟨hrun.snoc hspec, hinv'⟩

/-- The machine goes on, and does what the specification allows. -/
structure Refines (Step : σ → ι → α → σ → Prop) (Spec : τ → ι → α → τ → Prop) (Inv : σ → Prop)
    (view : σ → τ) : Prop where
  goes_on (s : σ) (i : ι) (h : Inv s) : ∃ a s', Step s i a s'
  step (s : σ) (i : ι) (a : α) (s' : σ) (h : Inv s) (step : Step s i a s') :
    Spec (view s) i a (view s') ∧ Inv s'

theorem Refines.run (h : Refines Step Spec Inv view) (h₀ : Inv s₀) (run : Run Step s₀ events s) :
    Run Spec (view s₀) events (view s) ∧ Inv s := run.viewed h.step h₀

theorem Refines.exists_run (h : Refines Step Spec Inv view) (h₀ : Inv s₀) (is : List ι) :
    ∃ events s, Run Step s₀ events s ∧ events.map Prod.fst = is := by
  induction is using List.reverseRecOn with
  | nil => exact ⟨[], s₀, .nil, rfl⟩
  | append_singleton is i ih =>
    obtain ⟨events, s, hrun, rfl⟩ := ih
    obtain ⟨a, s', hstep⟩ := h.goes_on s i (h.run h₀ hrun).2
    exact ⟨_, s', hrun.snoc hstep, by simp⟩

/-- Two machines that answer the same inputs alike, where they stand in relation, have the same
runs. -/
theorem Run.same {StepT : τ → ι → α → τ → Prop} {Sim : σ → τ → Prop} {t₀ t : τ}
    {events' : List (ι × α)}
    (hstep : ∀ s t i a s' a' t', Sim s t → Step s i a s' → StepT t i a' t' → a' = a ∧ Sim s' t')
    (run : Run Step s₀ events s) (run' : Run StepT t₀ events' t) (h₀ : Sim s₀ t₀)
    (hsame : events'.map Prod.fst = events.map Prod.fst) : events' = events ∧ Sim s t := by
  induction run generalizing events' t with
  | nil =>
    cases run' with
    | nil => exact ⟨rfl, h₀⟩
    | snoc _ _ => simp at hsame
  | @snoc events s s' i a run step ih =>
    cases run' with
    | nil => simp at hsame
    | @snoc events' t t' i' a' run' step' =>
      obtain ⟨hinit, rfl⟩ : events'.map Prod.fst = events.map Prod.fst ∧ i' = i := by simpa using hsame
      obtain ⟨rfl, hsim⟩ := ih run' hinit
      obtain ⟨rfl, hsim'⟩ := hstep _ _ _ _ _ _ _ hsim step step'
      exact ⟨rfl, hsim'⟩

/-- The inputs are ones with a single answer, in whatever state the earlier ones lead to. -/
def Determined (Spec : τ → ι → α → τ → Prop) (Sure : τ → ι → Prop) : List ι → τ → Prop
  | [], _ => True
  | i :: is, t => Sure t i ∧ ∀ a t', Spec t i a t' → Determined Spec Sure is t'

section Determined

variable {Sure : τ → ι → Prop} {t₀ t t' : τ} {runs runs' : List (ι × α)}

theorem Determined.front {is js : List ι} (h : Determined Spec Sure (is ++ js) t) :
    Determined Spec Sure is t := by
  induction is generalizing t with
  | nil => trivial
  | cons i is ih => exact ⟨h.1, fun a t' hstep => ih (h.2 a t' hstep)⟩

/-- What is left of the inputs after a run. -/
theorem Run.determined (run : Run Spec t₀ runs t) {js : List ι}
    (h : Determined Spec Sure (runs.map Prod.fst ++ js) t₀) : Determined Spec Sure js t := by
  induction run generalizing js with
  | nil => exact h
  | @snoc runs t t' i a run step ih =>
    have hrest : Determined Spec Sure (i :: js) t := ih (by simpa using h)
    exact hrest.2 a t' step

/-- Where every input has a single answer, the inputs of a run make the run. -/
theorem Run.unique (hunique : ∀ t i a t₁ a' t₂, Sure t i → Spec t i a t₁ → Spec t i a' t₂ →
      a = a' ∧ t₁ = t₂)
    (run : Run Spec t₀ runs t) (run' : Run Spec t₀ runs' t')
    (hsame : runs'.map Prod.fst = runs.map Prod.fst)
    (h : Determined Spec Sure (runs.map Prod.fst) t₀) : runs' = runs ∧ t' = t := by
  induction run generalizing runs' t' with
  | nil =>
    cases run' with
    | nil => exact ⟨rfl, rfl⟩
    | snoc _ _ => simp at hsame
  | @snoc runs t u i a run step ih =>
    cases run' with
    | nil => simp at hsame
    | @snoc runs' t' u' i' a' run' step' =>
      rw [List.map_append] at h
      obtain ⟨hinit, rfl⟩ : runs'.map Prod.fst = runs.map Prod.fst ∧ i' = i := by simpa using hsame
      obtain ⟨rfl, rfl⟩ := ih run' hinit h.front
      obtain ⟨rfl, rfl⟩ := hunique _ _ _ _ _ _ (run.determined h).1 step step'
      exact ⟨rfl, rfl⟩

end Determined

end Refinement

/-! ## Machines with two kinds of calls -/

/-- A call of the first kind and its answer. -/
def leftEvent : (ι ⊕ κ) × (α ⊕ β) → Option (ι × α)
  | (.inl i, .inl a) => some (i, a)
  | _ => none

/-- A call of the second kind and its answer. -/
def rightEvent : (ι ⊕ κ) × (α ⊕ β) → Option (κ × β)
  | (.inr k, .inr b) => some (k, b)
  | _ => none

/-- A call that returns, with enough fuel. -/
def CallStep (call : Nat → ι → σ → Exec (α × σ)) (s : σ) (i : ι) (a : α) (s' : σ) : Prop :=
  ∃ fuel, call fuel i s = .ok (a, s')

/-- Calls of two kinds, each on its own part of the state: a run is a run of the calls of the
one kind beside a run of the calls of the other. -/
theorem Run.split {Step : σ → ι ⊕ κ → α ⊕ β → σ → Prop} {StepL : τ → ι → α → τ → Prop}
    {StepR : υ → κ → β → υ → Prop} (Sim : σ → τ → υ → Prop)
    (hleft : ∀ s t u i o s', Sim s t u → Step s (.inl i) o s' →
      ∃ a t', o = .inl a ∧ StepL t i a t' ∧ Sim s' t' u)
    (hright : ∀ s t u k o s', Sim s t u → Step s (.inr k) o s' →
      ∃ b u', o = .inr b ∧ StepR u k b u' ∧ Sim s' t u')
    {s₀ s : σ} {t₀ : τ} {u₀ : υ} {events : List ((ι ⊕ κ) × (α ⊕ β))} (run : Run Step s₀ events s)
    (h₀ : Sim s₀ t₀ u₀) :
    ∃ t u, Run StepL t₀ (events.filterMap leftEvent) t ∧
      Run StepR u₀ (events.filterMap rightEvent) u ∧ Sim s t u := by
  induction run with
  | nil => exact ⟨t₀, u₀, .nil, .nil, h₀⟩
  | @snoc events s s' i o run step ih =>
    obtain ⟨t, u, hrunL, hrunR, h⟩ := ih
    rw [List.filterMap_append, List.filterMap_append]
    cases i with
    | inl i =>
      obtain ⟨a, t', rfl, hstep, h'⟩ := hleft s t u i o s' h step
      refine ⟨t', u, hrunL.snoc hstep, ?_, h'⟩
      simpa [List.filterMap_cons, rightEvent] using hrunR
    | inr k =>
      obtain ⟨b, u', rfl, hstep, h'⟩ := hright s t u k o s' h step
      refine ⟨t, u', ?_, hrunR.snoc hstep, h'⟩
      simpa [List.filterMap_cons, leftEvent] using hrunL

end PeekableReader
