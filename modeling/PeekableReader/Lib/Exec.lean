import Mathlib.Logic.Basic

/-!
# Executions that may panic or run out of fuel

`Exec α` is the outcome of running a piece of safe code: a value, a panic raised by
a failed run-time check, or `diverge` when the fuel given to one of its loops is used
up. Loops recurse structurally on their fuel, so every definition stays executable.

`Exec.Sat x Q` is the partial-correctness judgement used throughout: `x` does not
panic, and a value it returns satisfies `Q`. Its rules follow the monad, and a
function is specified by one `Sat` lemma that its callers compose with `Sat.bind`.
`Exec.Post` is the weaker judgement that says nothing about panics.

`Exec.Halts x Q` says that the fuel was enough, and nothing about panics either. Together with
`Exec.Sat` it makes `Exec.Ends`, total correctness.
-/

namespace PeekableReader

/-- The run-time checks of the standard library that safe code can fail. -/
inductive Panic where
  | sliceRange
  | copyLength
  | putSlice
  | drainRange
  | advanceRange
  | expectFailed
  deriving DecidableEq, Repr

inductive Exec (α : Type) where
  | ok (a : α)
  | panic (why : Panic)
  | diverge
  deriving DecidableEq, Repr

namespace Exec

variable {α β γ : Type}

protected def bind (x : Exec α) (f : α → Exec β) : Exec β :=
  match x with
  | ok a => f a
  | panic why => panic why
  | diverge => diverge

instance : Monad Exec where
  pure := ok
  bind := Exec.bind

@[simp] theorem pure_eq (a : α) : (pure a : Exec α) = ok a := rfl
@[simp] theorem ok_bind (a : α) (f : α → Exec β) : (ok a >>= f) = f a := rfl
@[simp] theorem panic_bind (w : Panic) (f : α → Exec β) : (panic w >>= f) = panic w := rfl
@[simp] theorem diverge_bind (f : α → Exec β) : ((diverge : Exec α) >>= f) = diverge := rfl

instance : LawfulMonad Exec :=
  LawfulMonad.mk' Exec (fun x => by cases x <;> rfl) (fun _ _ => rfl)
    (fun x _ _ => by cases x <;> rfl)

@[simp] theorem map_ok (f : α → β) (a : α) : f <$> (ok a : Exec α) = ok (f a) := rfl
@[simp] theorem map_panic (f : α → β) (w : Panic) : f <$> (panic w : Exec α) = panic w := rfl
@[simp] theorem map_diverge (f : α → β) : f <$> (diverge : Exec α) = diverge := rfl

/-- A returning sequence splits into a returning head and its returning tail. -/
theorem bind_eq_ok {x : Exec α} {f : α → Exec β} {b : β} :
    (x >>= f) = ok b ↔ ∃ a, x = ok a ∧ f a = ok b := by
  cases x <;> simp

theorem map_eq_ok {f : α → β} {x : Exec α} {b : β} : f <$> x = ok b ↔ ∃ a, x = ok a ∧ f a = b := by
  cases x <;> simp

/-! ## Partial correctness -/

/-- `x` does not panic, and every value it returns satisfies `Q`. -/
def Sat (x : Exec α) (Q : α → Prop) : Prop :=
  match x with
  | ok a => Q a
  | panic _ => False
  | diverge => True

@[simp] theorem sat_ok {a : α} {Q : α → Prop} : Sat (ok a) Q ↔ Q a := Iff.rfl
@[simp] theorem sat_panic {w : Panic} {Q : α → Prop} : ¬ Sat (panic w) Q := id
@[simp] theorem sat_diverge {Q : α → Prop} : Sat diverge Q := trivial

theorem Sat.bind {x : Exec α} {P : α → Prop} {f : α → Exec β} {Q : β → Prop}
    (hx : Sat x P) (hf : ∀ a, P a → Sat (f a) Q) : Sat (x >>= f) Q := by
  cases x with
  | ok a => exact hf a hx
  | panic w => exact hx.elim
  | diverge => trivial

theorem Sat.mono {x : Exec α} {P Q : α → Prop} (hx : Sat x P) (h : ∀ a, P a → Q a) :
    Sat x Q := by
  cases x with
  | ok a => exact h a hx
  | panic w => exact hx
  | diverge => trivial

theorem Sat.map {x : Exec α} {P : α → Prop} {f : α → β} {Q : β → Prop} (hx : Sat x P)
    (hf : ∀ a, P a → Q (f a)) : Sat (f <$> x) Q := by
  cases x with
  | ok a => exact hf a hx
  | panic w => exact hx
  | diverge => trivial

theorem Sat.post {x : Exec α} {Q : α → Prop} {a : α} (hx : Sat x Q) (h : x = ok a) : Q a := by
  subst h; exact hx

theorem Sat.not_panic {x : Exec α} {Q : α → Prop} (hx : Sat x Q) (w : Panic) : x ≠ panic w := by
  rintro rfl; exact hx

/-- Every value `x` returns satisfies `Q`; a panic is allowed. -/
def Post (x : Exec α) (Q : α → Prop) : Prop := ∀ a, x = ok a → Q a

theorem Sat.toPost {x : Exec α} {Q : α → Prop} (hx : Sat x Q) : Post x Q := fun _ h => hx.post h

theorem Post.bind {x : Exec α} {P : α → Prop} {f : α → Exec β} {Q : β → Prop}
    (hx : Post x P) (hf : ∀ a, P a → Post (f a) Q) : Post (x >>= f) Q := by
  intro b hb
  obtain ⟨a, rfl, ha⟩ := bind_eq_ok.mp hb
  exact hf a (hx a rfl) b ha

@[simp] theorem post_ok {a : α} {Q : α → Prop} : Post (ok a) Q ↔ Q a := by simp [Post]

theorem Post.mono {x : Exec α} {P Q : α → Prop} (hx : Post x P) (h : ∀ a, P a → Q a) : Post x Q :=
  fun a ha => h a (hx a ha)

theorem Post.and {x : Exec α} {P Q : α → Prop} (hP : Post x P) (hQ : Post x Q) :
    Post x fun a => P a ∧ Q a := fun a ha => ⟨hP a ha, hQ a ha⟩

/-- A step of which nothing needs to be known. -/
theorem Post.skip (x : Exec α) {f : α → Exec β} {Q : β → Prop} (hf : ∀ a, Post (f a) Q) :
    Post (x >>= f) Q :=
  Post.bind (P := fun _ => True) (fun _ _ => trivial) fun a _ => hf a

/-- `x` returns a value, and the value satisfies `Q`. -/
def Ends (x : Exec α) (Q : α → Prop) : Prop := ∃ a, x = ok a ∧ Q a

@[simp] theorem ends_ok {a : α} {Q : α → Prop} : Ends (ok a) Q ↔ Q a := by simp [Ends]

theorem Ends.bind {x : Exec α} {P : α → Prop} {f : α → Exec β} {Q : β → Prop}
    (hx : Ends x P) (hf : ∀ a, P a → Ends (f a) Q) : Ends (x >>= f) Q := by
  obtain ⟨a, rfl, ha⟩ := hx
  exact hf a ha

theorem Ends.mono {x : Exec α} {P Q : α → Prop} (hx : Ends x P) (h : ∀ a, P a → Q a) :
    Ends x Q := by
  obtain ⟨a, rfl, ha⟩ := hx
  exact ⟨a, rfl, h a ha⟩

theorem Ends.map {x : Exec α} {P : α → Prop} {f : α → β} {Q : β → Prop} (hx : Ends x P)
    (hf : ∀ a, P a → Q (f a)) : Ends (f <$> x) Q := by
  obtain ⟨a, rfl, ha⟩ := hx
  exact ⟨f a, rfl, hf a ha⟩

theorem Ends.sat {x : Exec α} {Q : α → Prop} (hx : Ends x Q) : Sat x Q := by
  obtain ⟨a, rfl, ha⟩ := hx
  exact ha

/-- A returning execution may be strengthened by what is known of all its values. -/
theorem Ends.and_sat {x : Exec α} {P Q : α → Prop} (hx : Ends x P) (h : Sat x Q) :
    Ends x fun a => P a ∧ Q a := by
  obtain ⟨a, rfl, ha⟩ := hx
  exact ⟨a, rfl, ha, h⟩

/-! ## Enough fuel -/

/-- `x` does not run out of fuel, and every value it returns satisfies `Q`. -/
def Halts (x : Exec α) (Q : α → Prop) : Prop :=
  match x with
  | ok a => Q a
  | panic _ => True
  | diverge => False

@[simp] theorem halts_ok {a : α} {Q : α → Prop} : Halts (ok a) Q ↔ Q a := Iff.rfl
@[simp] theorem halts_panic {w : Panic} {Q : α → Prop} : Halts (panic w) Q := trivial

theorem Halts.bind {x : Exec α} {P : α → Prop} {f : α → Exec β} {Q : β → Prop}
    (hx : Halts x P) (hf : ∀ a, P a → Halts (f a) Q) : Halts (x >>= f) Q := by
  cases x with
  | ok a => exact hf a hx
  | panic w => trivial
  | diverge => exact hx.elim

theorem Halts.mono {x : Exec α} {P Q : α → Prop} (hx : Halts x P) (h : ∀ a, P a → Q a) :
    Halts x Q := by
  cases x with
  | ok a => exact h a hx
  | panic w => trivial
  | diverge => exact hx

/-- A step of which no more than that needs to be known. -/
theorem Halts.skip {x : Exec α} (hx : Halts x fun _ => True) {f : α → Exec β} {Q : β → Prop}
    (hf : ∀ a, Halts (f a) Q) : Halts (x >>= f) Q := hx.bind fun a _ => hf a

/-- What neither panics nor runs out of fuel returns. -/
theorem Halts.ends {x : Exec α} {P Q : α → Prop} (hx : Halts x P) (h : Sat x Q) :
    Ends x fun a => P a ∧ Q a := by
  cases x with
  | ok a => exact ⟨a, rfl, hx, h⟩
  | panic w => exact h.elim
  | diverge => exact hx.elim

theorem Ends.halts {x : Exec α} {Q : α → Prop} (hx : Ends x Q) : Halts x Q := by
  obtain ⟨a, rfl, ha⟩ := hx
  exact ha

end Exec

end PeekableReader
