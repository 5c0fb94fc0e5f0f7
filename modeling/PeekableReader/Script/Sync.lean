import PeekableReader.Script.Whole

/-!
# The synchronous loops on scripts

`peek_to_end` and `peek_to_string` are the loops of the futures on a script that is never
pending. `peek_exact` retries an interrupted read where its future starts over, so it is
followed on its own; `collect` passes over what interrupts it, and both do what it says.
-/

namespace PeekableReader

open Buffer

variable {B : Type} [Buffer B]

theorem peekToStringLoop_lift (fuel : Nat) (p : Peekable Script B) :
    PeekToString.loop Future.readTail fuel p.lift =
      (fun out => (.ready out.1, out.2.lift)) <$> p.peekToStringLoop fuel := by
  induction fuel generalizing p with
  | zero => rfl
  | succ fuel ih =>
    simp only [PeekToString.loop, Peekable.peekToStringLoop, Peekable.buffer_lift]
    rcases growPeekBuffer p.buffer with ⟨e | n, buffer⟩
    · rfl
    · simp only [Peekable.lift_with_buffer, readTail_lift]
      rcases Peekable.readSpare { p with buffer } (len p.buffer) (len p.buffer + n) with
        ⟨⟨e⟩ | ⟨m⟩, q⟩ | why | _
      · simp only [Exec.map_ok, Exec.ok_bind]
        split
        · exact ih (q.truncate _)
        · rfl
      · simp only [Exec.map_ok, Exec.ok_bind]
        split
        · rfl
        · exact ih (q.truncate _)
      · rfl
      · rfl

theorem peekToEndLoop_lift (fuel : Nat) (p : Peekable Script B) (buf : List UInt8) :
    PeekToEnd.loop Future.readTail fuel ⟨p.lift, buf, true⟩ =
      (fun out => (.ready out.1, ⟨out.2.2.lift, out.2.1, true⟩)) <$> p.peekToEndLoop fuel buf := by
  induction fuel generalizing p buf with
  | zero => rfl
  | succ fuel ih =>
    simp only [PeekToEnd.loop, Peekable.peekToEndLoop, Peekable.buffer_lift]
    rcases growPeekBuffer p.buffer with ⟨e | n, buffer⟩
    · rfl
    · simp only [Peekable.lift_with_buffer, readTail_lift]
      rcases Peekable.readSpare { p with buffer } (len p.buffer) (len p.buffer + n) with
        ⟨⟨e⟩ | ⟨m⟩, q⟩ | why | _
      · simp only [Exec.map_ok, Exec.ok_bind]
        split
        · exact ih (q.truncate _) buf
        · rfl
      · simp only [Exec.map_ok, Exec.ok_bind]
        split
        · rfl
        · change (slice (q.truncate _).peeked _ _ >>= _) = _
          rcases slice (q.truncate (len p.buffer + m)).peeked (len p.buffer) (len p.buffer + m) with
            chunk | why | _
          · exact ih (q.truncate _) (buf ++ chunk)
          · rfl
          · rfl
      · rfl
      · rfl

variable [LawfulBuffer B] {grant : Grant}

theorem peekExactLoop_collects (dst : List UInt8) (fuel : Nat) {p : Peekable Script B}
    (hgrant : FollowsAt grant dst.length p.buffer) (hle : p.peeked.length ≤ dst.length)
    (hfuel : Script.weight p.reader.events < fuel) :
    (p.peekExactLoop fuel (overwrite dst p.peeked) p.peeked.length).Ends fun out => ∃ outcome,
      collect (exactPlan grant dst.length) p.peeked p.reader.events =
        (outcome, out.2.2.peeked, out.2.2.reader.events) ∧
      out.1 = outcome.exact (.ofKind .unexpectedEof) ∧
      out.2.1 = overwrite dst (out.2.2.peeked.take dst.length) := by
  induction fuel generalizing p with
  | zero => omega
  | succ fuel ih =>
    have hlength : (overwrite dst p.peeked).length = dst.length := length_overwrite hle
    simp only [Peekable.peekExactLoop, Peekable.len_buffer, hlength]
    by_cases hlt : p.peeked.length < dst.length
    · have htarget : p.peeked.length + (dst.length - p.peeked.length) = dst.length := by omega
      simp only [if_pos hlt, htarget]
      rcases hres : resize p.buffer dst.length with ⟨e | _, buffer⟩
      · have hsame : ({ p with buffer } : Peekable Script B).peeked = p.peeked :=
          LawfulBuffer.resize_error hres
        refine Exec.ends_ok.mpr ⟨.refused e, ?_, rfl, ?_⟩
        · rw [hsame]
          exact collect_refused (exactPlan_error hgrant hlt hres)
        · rw [hsame, List.take_of_length_le hle]
      · obtain ⟨room, hroom, hlen, hplan⟩ := exactPlan_ok hgrant hlt hres
        obtain ⟨answer, p₁, hrun, hnext, hpeeked⟩ :=
          readRetry_script (fuel + 1) (p := { p with buffer }) hroom rfl hfuel
        change exactPlan grant dst.length p.peeked = _ at hplan
        change Script.next room.length (settled p.reader.events) = _ at hnext
        change p₁.peeked = p.peeked ++ overwrite room _ at hpeeked
        change Peekable.readRetry (fuel + 1) { p with buffer } p.peeked.length = _ at hrun
        rw [← collect_settled hplan]
        simp only [hrun, Exec.ok_bind]
        cases answer with
        | error e =>
          have hsame : (p₁.truncate p.peeked.length).peeked = p.peeked := by
            simpa using peeked_truncate_read (d := []) hpeeked rfl
          refine Exec.ends_ok.mpr ⟨.failed e, ?_, rfl, ?_⟩
          · rw [hsame]
            exact collect_failed hplan hnext (next_settled_ne hnext)
          · rw [hsame, List.take_of_length_le hle]
        | ok d =>
          have hsame : (p₁.truncate (p.peeked.length + d.length)).peeked = p.peeked ++ d :=
            peeked_truncate_read hpeeked rfl
          simp only [Except.map]
          by_cases hd : d.length = 0
          · obtain rfl := List.eq_nil_of_length_eq_zero hd
            rw [List.append_nil] at hsame
            refine Exec.ends_ok.mpr ⟨.eof, ?_, rfl, ?_⟩
            · rw [hsame]
              exact collect_eof hplan hnext
            · rw [hsame, List.take_of_length_le hle]
          · obtain ⟨hfits, -, hweight⟩ := Script.next_ok hnext
            have hne : d ≠ [] := fun h => hd (congrArg List.length h)
            have hfit : (p.peeked ++ d).length ≤ dst.length := by
              rw [List.length_append]
              exact (Nat.add_le_add_left hfits _).trans_eq hlen
            have hw := weight_settled_le p.reader.events
            have hw' := hweight hne
            rw [collect_data hplan hnext hne]
            simp only [if_neg hd, slice_of_append hsame, Exec.ok_bind,
              copyInto_overwrite (List.length_append ▸ hfit)]
            have hreshapes := (Reshapes.of_resize hres).trans (readRetry_reshapes _ hrun)
            have hfollows :
                FollowsAt grant dst.length (p₁.truncate (p.peeked.length + d.length)).buffer :=
              hgrant.reshapes (hreshapes.truncate _)
            have hrest := ih hfollows (by rw [hsame]; exact hfit) (Nat.lt_of_lt_of_le hw' (by omega))
            rwa [hsame, List.length_append] at hrest
    · have hplan : exactPlan grant dst.length p.peeked = none := if_neg hlt
      simp only [if_neg hlt]
      refine Exec.ends_ok.mpr ⟨.done, collect_done hplan, rfl, ?_⟩
      rw [List.take_of_length_le hle]

namespace Whole

omit [LawfulBuffer B] in
/-- A single poll on a script that is never pending is the synchronous operation. -/
theorem future_lift_toEnd (fuel : Nat) (p : Peekable Script B) (buf : List UInt8) :
    (toEnd buf).future 1 fuel p.lift = (toEnd buf).sync fuel p := by
  have hpoll : Future.PeekToEnd.poll fuel (.new p.lift buf) =
      (fun out => (.ready out.1, ⟨out.2.2.lift, out.2.1, true⟩)) <$> p.peekToEnd fuel buf :=
    peekToEndLoop_lift fuel p (buf ++ p.peeked)
  simp only [future, sync, PeekableReader.drive, hpoll]
  rcases p.peekToEnd fuel buf with ⟨result, dst, q⟩ | why | _
  · simp
  · rfl
  · rfl

omit [LawfulBuffer B] in
theorem future_lift_toString (fuel : Nat) (p : Peekable Script B) (buf : Str) :
    (toString buf).future 1 fuel p.lift = (toString buf).sync fuel p := by
  rcases hearly : earlyReject p.peeked with _ | e
  · have hpoll : Future.PeekToString.poll fuel (.new p.lift buf) =
        (fun out => (.ready out.1, ⟨out.2.2.lift, out.2.1, true⟩)) <$> p.peekToString fuel buf := by
      simp only [Future.PeekToString.poll, PeekToString.pollWith, PeekToString.new,
        PeekToString.resume, Peekable.peekToString, Peekable.peeked_lift, hearly]
      simp only [peekToStringLoop_lift]
      rcases p.peekToStringLoop fuel with ⟨result, q⟩ | why | _
      · simp [map_bind]
      · rfl
      · rfl
    simp only [future, sync, PeekableReader.drive, hpoll]
    rcases p.peekToString fuel buf with ⟨result, dst, q⟩ | why | _
    · simp
    · rfl
    · rfl
  · simp [future, sync, PeekableReader.drive, Future.PeekToString.poll, PeekToString.pollWith,
      PeekToString.new, Peekable.peekToString, hearly]

theorem sync_eq_spec {fuel : Nat} (p : Peekable Script B) (hgrant : Follows grant p.buffer)
    (hfuel : Script.weight p.reader.events < fuel) (op : Whole) :
    op.sync fuel p = op.spec syncReply grant p.peeked p.reader.events := by
  cases op with
  | exact buf =>
    by_cases hle : buf.length ≤ p.peeked.length
    · have hplan : exactPlan grant buf.length p.peeked = none := if_neg (by omega)
      have hcopy : copyFromSlice buf (p.peeked.take buf.length) = .ok (p.peeked.take buf.length) :=
        copyFromSlice_eq (by simpa using hle)
      simp only [sync, Peekable.peekExact, Peekable.len_buffer, if_pos hle, slice_front _ hle,
        hcopy, Exec.ok_bind, Exec.pure_eq, spec, collect_done hplan]
      simp [overwrite, hle, syncReply, Outcome.exact, Except.map]
    · have hcopy : copyInto buf 0 p.peeked.length p.peeked = .ok (overwrite buf p.peeked) :=
        copyInto_front buf rfl (by omega)
      obtain ⟨⟨result, dst, q⟩, hrun, outcome, hcollect, hresult, hdst⟩ :=
        peekExactLoop_collects buf fuel (hgrant.at _) (by omega) hfuel
      obtain rfl : result = outcome.exact _ := hresult
      obtain rfl : dst = overwrite buf (q.peeked.take buf.length) := hdst
      simp only [sync, Peekable.peekExact, Peekable.len_buffer, if_neg hle, hcopy, hrun,
        Exec.ok_bind, spec, hcollect]
      rfl
  | toEnd buf =>
    have h := future_eq_spec p.lift hgrant (by simpa using hfuel)
      (show p.lift.pendings < 1 by simp) (toEnd buf)
    rwa [future_lift_toEnd, Peekable.peeked_lift, Peekable.events_lift] at h
  | toString buf =>
    have h := future_eq_spec p.lift hgrant (by simpa using hfuel)
      (show p.lift.pendings < 1 by simp) (toString buf)
    rwa [future_lift_toString, Peekable.peeked_lift, Peekable.events_lift] at h

end Whole

end PeekableReader
