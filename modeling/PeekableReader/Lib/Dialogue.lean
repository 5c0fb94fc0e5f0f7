import PeekableReader.Lib.Machine

/-!
# Dialogues

A component that answers a call may put questions to the component below it, and a log keeps the
questions with their answers. The `Dialogue` of one call is what the call adds to the log: every
question is fit to be asked, after each but the last the asker may go on asking, and the last
one accounts for how the call ends.

## Main results

* `Dialogue.cons`: a loop that goes on after an answer that lets it.
* `runCalls_asks`: a sequence of calls is a run in which the log grows by what each call asks.
-/

namespace PeekableReader

variable {κ : Type}

structure Dialogue (Fit GoesOn : κ → Prop) (Ends : Option κ → Prop) (asked : List κ) : Prop where
  fit : ∀ q ∈ asked, Fit q
  goesOn : ∀ q ∈ asked.dropLast, GoesOn q
  ends : Ends asked.getLast?

namespace Dialogue

variable {Fit GoesOn : κ → Prop} {Ends : Option κ → Prop} {asked : List κ} {q : κ}

/-- Nothing is asked. -/
theorem nil (h : Ends none) : Dialogue Fit GoesOn Ends [] := ⟨by simp, by simp, h⟩

theorem single (hfit : Fit q) (h : Ends (some q)) : Dialogue Fit GoesOn Ends [q] :=
  ⟨by simpa using hfit, by simp, h⟩

theorem cons_cons {r : κ} (hfit : Fit q) (hgo : GoesOn q)
    (h : Dialogue Fit GoesOn Ends (r :: asked)) : Dialogue Fit GoesOn Ends (q :: r :: asked) := by
  refine ⟨?_, ?_, by simpa using h.ends⟩
  · intro x hx
    rcases List.mem_cons.mp hx with rfl | hx
    · exact hfit
    · exact h.fit x hx
  · intro x hx
    rw [List.dropLast_cons_cons] at hx
    rcases List.mem_cons.mp hx with rfl | hx
    · exact hgo
    · exact h.goesOn x hx

/-- One more question in front, before which there may be more to account for than behind it. -/
theorem cons {Ends' : Option κ → Prop} (hfit : Fit q) (hgo : GoesOn q)
    (hnone : Ends' none → Ends (some q)) (hsome : ∀ r, Ends' (some r) → Ends (some r))
    (h : Dialogue Fit GoesOn Ends' asked) : Dialogue Fit GoesOn Ends (q :: asked) := by
  cases asked with
  | nil => exact single hfit (hnone h.ends)
  | cons r asked =>
    have hends := h.ends
    rw [List.getLast?_cons] at hends
    exact cons_cons hfit hgo ⟨h.fit, h.goesOn, by rw [List.getLast?_cons]; exact hsome _ hends⟩

/-- A dialogue in front of another, if the asker may go on after its last answer. -/
theorem append {Ends' Ends'' : Option κ → Prop} {asked' : List κ}
    (h : Dialogue Fit GoesOn Ends asked) (hasked : ¬ Ends none)
    (hlast : ∀ q, Ends (some q) → GoesOn q ∧ (Ends' none → Ends'' (some q)))
    (hsome : ∀ r, Ends' (some r) → Ends'' (some r)) (h' : Dialogue Fit GoesOn Ends' asked') :
    Dialogue Fit GoesOn Ends'' (asked ++ asked') := by
  induction asked with
  | nil => exact absurd h.ends hasked
  | cons q asked ih =>
    have hfit := h.fit q List.mem_cons_self
    cases asked with
    | nil =>
      obtain ⟨hgo, hnone⟩ := hlast q h.ends
      exact h'.cons hfit hgo hnone hsome
    | cons r asked =>
      have htail : Dialogue Fit GoesOn Ends (r :: asked) :=
        ⟨fun x hx => h.fit x (List.mem_cons_of_mem q hx),
          fun x hx => h.goesOn x (by simpa using .inr hx), by simpa using h.ends⟩
      exact cons_cons hfit (h.goesOn q (by simp)) (ih htail)

theorem mono {Fit' : κ → Prop} {Ends' : Option κ → Prop} (h : Dialogue Fit GoesOn Ends asked)
    (hfit : ∀ q, Fit q → Fit' q) (hends : ∀ last, Ends last → Ends' last) :
    Dialogue Fit' GoesOn Ends' asked :=
  ⟨fun q hq => hfit q (h.fit q hq), h.goesOn, hends _ h.ends⟩

end Dialogue

/-- The log grows by questions that satisfy `D`. -/
def Asks (D : List κ → Prop) (log log' : List κ) : Prop := ∃ asked, log' = log ++ asked ∧ D asked

namespace Asks

variable {Fit GoesOn : κ → Prop} {Ends : Option κ → Prop} {log log' : List κ} {q : κ}

theorem none (h : Ends Option.none) : Asks (Dialogue Fit GoesOn Ends) log log :=
  ⟨[], by simp, .nil h⟩

theorem single (hfit : Fit q) (h : Ends (some q)) : Asks (Dialogue Fit GoesOn Ends) log (log ++ [q]) :=
  ⟨[q], rfl, .single hfit h⟩

theorem cons {Ends' : Option κ → Prop} (hfit : Fit q) (hgo : GoesOn q)
    (hnone : Ends' Option.none → Ends (some q)) (hsome : ∀ r, Ends' (some r) → Ends (some r))
    (h : Asks (Dialogue Fit GoesOn Ends') (log ++ [q]) log') :
    Asks (Dialogue Fit GoesOn Ends) log log' := by
  obtain ⟨asked, rfl, hasked⟩ := h
  exact ⟨q :: asked, by simp, hasked.cons hfit hgo hnone hsome⟩

theorem append {Ends' Ends'' : Option κ → Prop} {log'' : List κ}
    (h : Asks (Dialogue Fit GoesOn Ends) log log') (hasked : ¬ Ends Option.none)
    (hlast : ∀ q, Ends (some q) → GoesOn q ∧ (Ends' Option.none → Ends'' (some q)))
    (hsome : ∀ r, Ends' (some r) → Ends'' (some r))
    (h' : Asks (Dialogue Fit GoesOn Ends') log' log'') :
    Asks (Dialogue Fit GoesOn Ends'') log log'' := by
  obtain ⟨asked, rfl, h₁⟩ := h
  obtain ⟨asked', rfl, h₂⟩ := h'
  exact ⟨asked ++ asked', by simp, h₁.append hasked hlast hsome h₂⟩

theorem mono {D D' : List κ → Prop} (h : Asks D log log') (hD : ∀ asked, D asked → D' asked) :
    Asks D' log log' := by
  obtain ⟨asked, rfl, hasked⟩ := h
  exact ⟨asked, rfl, hD asked hasked⟩

end Asks

/-- A sequence of calls is a run of them, in which the log grows by what each of them asks. -/
theorem runCalls_asks {ι α σ : Type} {call : ι → σ → Exec (α × σ)} (log : σ → List κ)
    (D : σ → ι → α → σ → List κ → Prop)
    (hcall : ∀ i s, (call i s).Post fun out => Asks (D s i out.1 out.2) (log s) (log out.2))
    (is : List ι) (s : σ) :
    (runCalls call is s).Post fun out => ∃ events : List (ι × α × List κ),
      events.map (·.1) = is ∧ events.map (·.2.1) = out.1 ∧
        Run (fun s i o s' => call i s = .ok (o.1, s') ∧ log s' = log s ++ o.2 ∧ D s i o.1 s' o.2)
          s events out.2 := by
  induction is generalizing s with
  | nil => exact Exec.post_ok.mpr ⟨[], rfl, rfl, .nil⟩
  | cons i is ih =>
    have hfirst : (call i s).Post fun out =>
        call i s = .ok out ∧ Asks (D s i out.1 out.2) (log s) (log out.2) :=
      fun out hout => ⟨hout, hcall i s out hout⟩
    refine hfirst.bind ?_
    rintro ⟨a, s₁⟩ ⟨hrun, asked, hlog, hasked⟩
    refine (ih s₁).bind ?_
    rintro ⟨as, s₂⟩ ⟨events, rfl, rfl, run⟩
    exact Exec.post_ok.mpr ⟨(i, a, asked) :: events, rfl, rfl, run.cons ⟨hrun, hlog, hasked⟩⟩

end PeekableReader
