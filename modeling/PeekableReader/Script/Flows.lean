import PeekableReader.Backends
import PeekableReader.Exact
import PeekableReader.Tape.Model
import PeekableReader.Text

/-!
# Streams that only hand over bytes

A script flows if it has nothing but data in it and interruptions: whatever the chunks are, its
bytes come in order, and it reports its end when there are no more. With a buffer that never
refuses to grow, the operations on the whole stream then answer as on a tape.
-/

namespace PeekableReader

open Buffer Script

/-- Data, or an interruption. -/
def Event.Flows : Event → Prop
  | .data chunk => chunk ≠ []
  | .error e => e.kind = .interrupted

def Flows (es : List Event) : Prop := ∀ e ∈ es, e.Flows

instance : DecidablePred Event.Flows
  | .data chunk => inferInstanceAs (Decidable (chunk ≠ []))
  | .error e => inferInstanceAs (Decidable (e.kind = .interrupted))

instance (es : List Event) : Decidable (Flows es) := inferInstanceAs (Decidable (∀ e ∈ es, e.Flows))

namespace Flows

variable {room : Nat} {es es' : List Event} {d : List UInt8} {e : IoError}

theorem next {answer : Except IoError (List UInt8)} (h : Flows es)
    (hnext : Script.next room es = (answer, es')) : Flows es' := by
  match es, h, hnext with
  | [], h, hnext => cases hnext; exact h
  | .error e :: es, h, hnext => cases hnext; exact fun e he => h e (List.mem_cons_of_mem _ he)
  | .data chunk :: es, h, hnext =>
    cases hnext
    by_cases hroom : room < chunk.length
    · rw [if_pos hroom]
      intro e he
      obtain rfl | he := List.mem_cons.mp he
      · exact fun hnil => by simp at hnil; omega
      · exact h e (List.mem_cons_of_mem _ he)
    · rw [if_neg hroom]
      exact fun e he => h e (List.mem_cons_of_mem _ he)

/-- No bytes are handed over only where there are none. -/
theorem ended (h : Flows es) (hroom : 0 < room) (hnext : Script.next room es = (.ok [], es')) :
    bytes es = [] := by
  match es, h, hnext with
  | [], _, _ => rfl
  | .data chunk :: es, h, hnext =>
    have hchunk : chunk ≠ [] := h _ List.mem_cons_self
    obtain ⟨htake, -⟩ := Prod.mk.inj hnext
    obtain hzero | hnil := List.take_eq_nil_iff.mp (Except.ok.inj htake)
    · omega
    · exact absurd hnil hchunk

theorem interrupted (h : Flows es) (hnext : Script.next room es = (.error e, es')) :
    e.kind = .interrupted := by
  match es, h, hnext with
  | .error e :: es, h, hnext => cases hnext; exact h _ List.mem_cons_self

theorem ending_eq (h : Flows es) : ending es = ⟨bytes es, .ok (), []⟩ := by
  induction es with
  | nil => rfl
  | cons event es ih =>
    have hrest := ih fun e he => h e (List.mem_cons_of_mem _ he)
    have hfirst : event.Flows := h _ List.mem_cons_self
    match event, hfirst with
    | .data chunk, hchunk => simp [ending, if_neg hchunk, hrest, Ending.after, Event.bytes]
    | .error e, hkind =>
      have he : e.kind = .interrupted := hkind
      simp [ending, he, hrest, Event.bytes]

theorem collect (h : Flows es) (plan : Plan) (pre : List UInt8) :
    Flows (PeekableReader.collect plan pre es).2.2 := by
  fun_induction PeekableReader.collect plan pre es with
  | case1 => exact h
  | case2 => exact h
  | case3 _ _ _ _ _ hnext => exact h.next hnext
  | case4 _ _ _ _ _ _ hnext _ ih => exact ih (h.next hnext)
  | case5 _ _ _ _ _ _ hnext _ ih => exact ih (h.next hnext)
  | case6 _ _ _ _ _ _ hnext _ => exact h.next hnext

/-- A plan that never stops collects everything. -/
theorem collect_all {plan : Plan} (h : Flows es)
    (hplan : ∀ bytes, ∃ room, 0 < room ∧ plan bytes = some (.ok room)) (pre : List UInt8) :
    ∃ es', PeekableReader.collect plan pre es = (.eof, pre ++ bytes es, es') ∧ bytes es' = [] := by
  fun_induction PeekableReader.collect plan pre es with
  | case1 pre es hstop =>
    obtain ⟨room, -, hroom⟩ := hplan pre
    rw [hroom] at hstop
    cases hstop
  | case2 pre es e hrefused =>
    obtain ⟨room, -, hroom⟩ := hplan pre
    rw [hroom] at hrefused
    cases hrefused
  | case3 pre es room hroom es' hnext =>
    obtain ⟨room', hpos, hroom'⟩ := hplan pre
    obtain rfl : room' = room := by simpa using hroom'.symm.trans hroom
    have hnil := h.ended hpos hnext
    have hsame := (next_ok hnext).2.1
    rw [hnil, List.nil_append] at hsame
    exact ⟨es', by rw [hnil, List.append_nil], hsame.symm⟩
  | case4 pre es room hroom d es' hnext hd ih =>
    obtain ⟨es'', hcollect, hnil⟩ := ih (h.next hnext)
    refine ⟨es'', ?_, hnil⟩
    rw [hcollect, (next_ok hnext).2.1, List.append_assoc]
  | case5 pre es room hroom e es' hnext he ih =>
    obtain ⟨es'', hcollect, hnil⟩ := ih (h.next hnext)
    exact ⟨es'', by rw [hcollect, (next_error hnext).1], hnil⟩
  | case6 pre es room hroom e es' hnext he => exact absurd (h.interrupted hnext) he

/-- A plan that wants `total` bytes collects as many, or all there are. -/
theorem collect_exact (h : Flows es) (total : Nat) (pre : List UInt8) :
    ∃ d es', PeekableReader.collect (exactPlan (fun _ _ => .ok ()) total) pre es =
        (if total ≤ (pre ++ bytes es).length then .done else .eof, pre ++ d, es') ∧
      bytes es = d ++ bytes es' ∧ d.length = min (bytes es).length (total - pre.length) := by
  rcases Nat.lt_or_ge total pre.length with hlt | hle
  · have hplan : exactPlan (fun _ _ => .ok ()) total pre = none := if_neg (by omega)
    have henough : total ≤ (pre ++ bytes es).length := by simp; omega
    refine ⟨[], es, ?_, rfl, by simp; omega⟩
    rw [collect_done hplan, if_pos henough, List.append_nil]
  · obtain ⟨d, hpre, hbytes⟩ := collect_bytes (exactPlan (fun _ _ => .ok ()) total) pre es
    have hends := collect_exactPlan pre es hle
    rw [h.ending_eq] at hends
    split at hends
    · next henough =>
      obtain ⟨es', hcollect⟩ := hends
      rw [hcollect] at hpre hbytes
      have hlen := congrArg List.length hpre
      simp only [List.length_take, List.length_append] at hlen henough
      refine ⟨d, es', ?_, hbytes, by omega⟩
      rw [hcollect, if_pos (by simpa using henough)]
      exact congrArg (fun bytes => (Outcome.done, bytes, es')) hpre
    · next hshort =>
      rw [hends, List.append_right_inj] at hpre
      rw [hends] at hbytes
      obtain rfl : bytes es = d := hpre
      refine ⟨bytes es, [], ?_, by simp [bytes], ?_⟩
      · rw [hends, if_neg hshort]
        rfl
      · simp only [List.length_append] at hshort
        omega

end Flows

/-! ## On a tape -/

theorem InfallibleBuffer.follows {B : Type} [Buffer B] [InfallibleBuffer B] (b : B) :
    Follows (fun _ _ => .ok ()) b := fun b' _ n => InfallibleBuffer.resize_succeeds b' n

/-- What a caller is told when an operation on the whole stream has returned. -/
def told (result : Except IoError (Option Nat)) (dst : List UInt8) : Answer (Except ErrorKind Nat) :=
  .gave ((result.map (·.getD dst.length)).mapError IoError.kind) [dst]

def Final.answer (final : Final) : Answer (Except ErrorKind Nat) := told final.result final.dst

/-- The tape in the hands of a peekable reader: its peek buffer, and what its reader still holds. -/
def Tape.of (peeked : List UInt8) (es : List Event) : Tape := ⟨peeked, Script.bytes es⟩

def Final.tape (final : Final) : Tape := .of final.peeked final.events

def Peekable.tape {B : Type} [Buffer B] (p : Peekable PollScript B) : Tape := .of p.peeked p.events

/-- The answer and the tape that an operation leaves. -/
def Final.OnTape (t : Tape) (op : Whole) (final : Final) : Prop :=
  t.whole op = (final.answer, final.tape) ∧ Flows final.events

/-- With all room granted, there is always more. -/
theorem growthPlan_granted (bytes : List UInt8) :
    ∃ room, 0 < room ∧ growthPlan (fun _ _ => .ok ()) bytes = some (.ok room) :=
  ⟨readChunk, by decide, by rw [growthPlan, growth]⟩

namespace Whole

theorem spec_onTape (flavour : AsyncFlavour) {peeked : List UInt8} {es : List Event} (h : Flows es)
    (op : Whole) : (op.spec flavour.reply (fun _ _ => .ok ()) peeked es).Ends
      (Final.OnTape (.of peeked es) op) := by
  cases op with
  | exact buf =>
    obtain ⟨d, es', hcollect, hbytes, hlen⟩ := h.collect_exact buf.length peeked
    have hflows := h.collect (exactPlan (fun _ _ => .ok ()) buf.length) peeked
    rw [hcollect] at hflows
    rw [hbytes] at hlen
    have htape : Tape.of peeked es = ⟨peeked, d ++ Script.bytes es'⟩ := congrArg _ hbytes
    have hlook : (Tape.of peeked es).look buf.length = .of (peeked ++ d) es' := by
      rw [htape, Tape.look_eq hlen]
      rfl
    have htake := (Tape.of peeked es).take_look buf.length
    rw [hlook] at htake
    have hdst : (overwrite buf ((peeked ++ d).take buf.length)).length = buf.length :=
      length_overwrite (List.length_take_le _ _)
    simp only [spec, hcollect]
    refine ⟨_, rfl, ?_, hflows⟩
    change (peeked ++ d).take buf.length = _ at htake
    simp only [Tape.whole, hlook, ← htake]
    by_cases henough : buf.length ≤ (peeked ++ Script.bytes es).length
    · have henough' : buf.length ≤ (Tape.of peeked es).bytes.length := henough
      simp only [if_pos henough, if_pos henough']
      cases flavour <;> simp [Final.answer, told, Final.tape, AsyncFlavour.reply, syncReply, tokioReply,
        Outcome.exact, Except.map, Except.mapError, hdst]
    · have hshort : ¬ buf.length ≤ (Tape.of peeked es).bytes.length := henough
      simp only [if_neg henough, if_neg hshort]
      cases flavour <;> rfl
  | toEnd buf =>
    obtain ⟨es', hcollect, hnil⟩ := h.collect_all growthPlan_granted peeked
    have hflows := h.collect (growthPlan fun _ _ => .ok ()) peeked
    rw [hcollect] at hflows
    simp only [spec, hcollect]
    refine ⟨_, rfl, ?_, hflows⟩
    simp [Tape.whole, Tape.of, Tape.lookAll, Tape.bytes, Final.answer, told, Final.tape, hnil, Outcome.loopResult,
      Except.map, Except.mapError]
  | toString buf =>
    cases hearly : earlyReject peeked with
    | some e =>
      have hhopeless : ¬ ∃ more, Utf8.Valid (peeked ++ more) := by
        rw [← earlyReject_eq_none_iff, hearly]
        exact Option.some_ne_none e
      simp only [spec, hearly]
      exact ⟨_, rfl, Tape.whole_hopeless (t := .of peeked es) hhopeless, h⟩
    | none =>
      have hhope := earlyReject_eq_none_iff.mp hearly
      obtain ⟨es', hcollect, hnil⟩ := h.collect_all growthPlan_granted peeked
      have hflows := h.collect (growthPlan fun _ _ => .ok ()) peeked
      rw [hcollect] at hflows
      have htape : Tape.of (peeked ++ Script.bytes es) es' = (Tape.of peeked es).lookAll :=
        congrArg _ hnil
      simp only [spec, hearly, hcollect, Outcome.loopResult]
      by_cases hvalid : Utf8.Valid (peeked ++ Script.bytes es)
      · obtain ⟨dst, hfinish, hdst⟩ := finishString_valid hvalid buf
        simp only [hfinish, Exec.ok_bind]
        refine ⟨_, rfl, ?_, hflows⟩
        rw [Tape.whole_valid (t := .of peeked es) hvalid, Final.tape, htape, Final.answer, hdst]
        rfl
      · obtain ⟨e, hfinish⟩ := finishString_invalid hvalid buf
        simp only [hfinish, Exec.ok_bind]
        refine ⟨_, rfl, ?_, hflows⟩
        rw [Tape.whole_invalid (t := .of peeked es) hvalid hhope, Final.tape, htape]
        rfl

variable {B : Type} [Buffer B] [LawfulBuffer B] [InfallibleBuffer B]

theorem always_onTape (p : Peekable PollScript B) (h : Flows p.events) (op : Whole) :
    op.Always p (Final.OnTape p.tape op) where
  sync {fuel} hfuel := by
    rw [sync_eq_spec p.strip (InfallibleBuffer.follows _) hfuel]
    exact spec_onTape .future h op
  drive flavour {polls fuel} hfuel hpolls := by
    rw [drive_eq_spec flavour p (InfallibleBuffer.follows _) hfuel hpolls]
    exact spec_onTape flavour h op

end Whole

end PeekableReader
