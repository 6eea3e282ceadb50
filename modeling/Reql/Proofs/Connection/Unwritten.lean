import Reql.Proofs.Connection.Outlet
import Reql.Proofs.Connection.Shutdown
import Reql.Proofs.Connection.Tokens

/-! A query that cannot be written leaves the connection as it was, unless the stream has failed. -/
namespace Reql

namespace FrameWriter

variable {w : FrameWriter} {f : Frame}

theorem makeRoom_of_empty (hb : w.buffer = []) : w.makeRoom = (none, w) := by
  rw [makeRoom, if_pos]
  rw [hb]
  decide

theorem flush_of_empty (hb : w.buffer = []) : w.flush = (none, w) := by
  simp [flush, hb]

/-- A frame over the limit changes nothing. -/
theorem send_of_refused (hb : w.buffer = []) {e : FramingError}
    (hf : f.refusal? w.limit = some e) : w.send f = (some e, w) := by
  rcases f.encode_eq w.limit w.buffer with ⟨e', he', henc⟩ | ⟨hnone, -⟩
  · obtain rfl := Option.some.inj (hf.symm.trans he')
    simp only [send, feed, makeRoom_of_empty hb, henc]
  · rw [hf] at hnone
    cases hnone

/-- A frame stays in the buffer only if the stream fails. -/
theorem send_of_empty (hb : w.buffer = []) (f : Frame) :
    (w.send f).2.buffer = [] ∨ ∃ reason, (w.send f).1 = some (.io reason) := by
  cases henc : f.encode w.limit w.buffer with
  | error e =>
    left
    simp only [send, feed, makeRoom_of_empty hb, henc]
    exact hb
  | ok buffer =>
    have hsend : w.send f = { w with buffer }.flush := by
      simp only [send, feed, makeRoom_of_empty hb, henc]
    rw [hsend]
    cases hflush : ({ w with buffer }.flush).1 with
    | some e =>
      obtain ⟨reason, rfl⟩ := flush_error hflush
      exact .inr ⟨reason, rfl⟩
    | none =>
      left
      unfold flush at hflush ⊢
      split
      next hempty => exact List.isEmpty_iff.mp hempty
      next hempty =>
        rw [if_neg hempty] at hflush
        split
        · rfl
        next hwrite =>
          rw [hwrite] at hflush
          cases hflush

theorem close_of_empty (hb : w.buffer = []) : w.close.2.buffer = [] := by
  simp only [close, flush_of_empty hb]
  exact hb

end FrameWriter

namespace Connection

variable {c c' : Connection} {a : Action} {q : Query} {e : ClientError} {s : Settings}
  {as : List Action} {i : CursorId} {k : Cursor}

/-- Whatever is accepted goes out at once, or the connection is closed. -/
def Unspilled (c : Connection) : Prop :=
  c.closed = false → c.writer.buffer = []

theorem Unspilled.write (h : Unspilled c) (q : Query) : Unspilled (c.write q).2 := by
  intro ho
  have hopen : c.closed = false := by
    cases hc : c.closed with
    | false => rfl
    | true =>
      have hspares : Spares (fun _ => True) (fun _ => True) c (c.write q).2 := c.write_spares q
      rw [hspares.closed hc] at ho
      cases ho
  unfold Connection.write at ho ⊢
  split at ho
  · exact h hopen
  next payload hp =>
    have hsend := FrameWriter.send_of_empty (h hopen) ⟨q.token, payload⟩
    split at ho
    next w hw =>
      rw [hw] at hsend
      exact hsend.resolve_right fun ⟨_, hnone⟩ => by cases hnone
    next e w hw =>
      rw [hw] at hsend
      rcases hsend with hb | ⟨reason, hio⟩
      · dsimp only at ho ⊢
        split
        next hfatal =>
          rw [if_pos hfatal, shutDown_closed] at ho
          cases ho
        · exact hb
      · obtain rfl := Option.some.inj hio
        have hfatal : (ClientError.ofFraming (.io reason)).isFatal = true := rfl
        dsimp only at ho
        rw [if_pos hfatal, shutDown_closed] at ho
        cases ho

theorem Part.unspilled (h : Part c c') (hc : Unspilled c) : Unspilled c' := by
  cases h with
  | kept hclosed hwriter =>
    rw [Unspilled, hclosed, hwriter]
    exact hc
  | write q => exact hc.write q
  | shutDown e =>
    intro ho
    rw [shutDown_closed] at ho
    cases ho
  | closeWriter =>
    intro ho
    rw [closeWriter_closed] at ho
    unfold Connection.closeWriter
    split
    · exact hc ho
    · exact FrameWriter.close_of_empty (hc ho)
  | hangUp | breakWriting => exact hc

theorem unspilled_run (s : Settings) (as : List Action) : Unspilled ((start s).run as) :=
  run_of_parts (fun _ _ hpart h => hpart.unspilled h) (fun _ => rfl) as

/-- A request over the limit changes nothing. -/
theorem write_of_refused (hb : c.writer.buffer = []) (hq : q.refusal? c.writer.limit = some e) :
    c.write q = (some e, c) := by
  have hfatal := Query.isFatal_refusal hq
  unfold Query.refusal? at hq
  unfold write
  cases hp : q.payload with
  | error e' =>
    rw [hp] at hq
    obtain rfl := Option.some.inj hq
    rfl
  | ok payload =>
    rw [hp] at hq
    obtain ⟨e', hf, rfl⟩ := Option.map_eq_some_iff.mp hq
    simp only [FrameWriter.send_of_refused hb hf, hfatal, Bool.false_eq_true, if_false]

/-- A request is refused for its length alone. -/
theorem refusal?_of_request (hq : a.request? c = some q) (limit : FrameLimit) :
    ∃ payload, q.payload = .ok payload ∧ q.refusal? limit =
      if limit.bytes < payload.length then
        some (.ofFraming (.frameTooLarge payload.length limit.bytes))
      else none := by
  obtain ⟨payload, hp⟩ : ∃ payload, q.payload = .ok payload := by
    cases a with
    | query | noreplyWait =>
      obtain rfl := Option.some.inj hq
      exact ⟨_, rfl⟩
    | _ => cases hq
  refine ⟨payload, hp, ?_⟩
  simp only [Query.refusal?, hp, Frame.refusal?]
  split <;> rfl

/-- The error of a request is that of writing it. -/
theorem write_of_unwritten (ho : c.closed = false) (hq : a.request? c = some q)
    (he : (c.act a).1 = .done (some e)) :
    (c.prepare a.isNoreply).write q = (some e, c.after a) := by
  obtain ⟨k, -, hact⟩ := c.act_of_request ho hq
  rw [after, hact]
  rw [hact] at he
  cases hr : (c.prepare a.isNoreply).write q with
  | mk r d =>
    rw [hr] at he
    cases r with
    | none => cases he
    | some e' =>
      cases he
      rfl

/-- A request over the limit takes its token, and that is all. -/
theorem refused_of_long (hb : Unspilled c) (ho : c.closed = false) (hq : a.request? c = some q)
    (he : (c.act a).1 = .done (some e)) {payload : Bytes} (hp : q.payload = .ok payload)
    (hlong : c.writer.limit.bytes < payload.length) :
    e.isFatal = false ∧ c.after a = c.prepare a.isNoreply := by
  obtain ⟨payload', hp', hrefusal⟩ := refusal?_of_request hq c.writer.limit
  obtain rfl : payload = payload' := Except.ok.inj (hp.symm.trans hp')
  rw [if_pos hlong, ← c.prepare_writer a.isNoreply] at hrefusal
  have hempty : (c.prepare a.isNoreply).writer.buffer = [] := by
    rw [prepare_writer]
    exact hb ho
  have hwrite := write_of_unwritten ho hq he
  rw [write_of_refused hempty hrefusal] at hwrite
  obtain ⟨herror, hafter⟩ := Prod.mk.inj hwrite
  obtain rfl := Option.some.inj herror
  exact ⟨Query.isFatal_refusal hrefusal, hafter.symm⟩

/-- A request that cannot be written is over the limit, or the stream has failed and the connection
is closed for that. -/
theorem unwritten_cases (hb : Unspilled c) (ho : c.closed = false) (hq : a.request? c = some q)
    (he : (c.act a).1 = .done (some e)) :
    let long := ∃ payload, q.payload = .ok payload ∧ c.writer.limit.bytes < payload.length
    e.isFatal = false ∧ long ∧ c.after a = c.prepare a.isNoreply ∨
      e.isFatal = true ∧ ¬long ∧ (∃ reason, e = .transport reason) ∧
        (c.after a).closed = true := by
  intro long
  obtain ⟨payload, hp, hrefusal⟩ := refusal?_of_request hq c.writer.limit
  by_cases hlong : long
  · obtain ⟨payload', hp', hlt⟩ := hlong
    obtain ⟨hfatal, hafter⟩ := refused_of_long hb ho hq he hp' hlt
    exact .inl ⟨hfatal, ⟨payload', hp', hlt⟩, hafter⟩
  · right
    have hwrite := write_of_unwritten ho hq he
    obtain ⟨w, hw, ⟨-, h⟩ | ⟨e', hq', h⟩ | ⟨reason, h⟩⟩ :=
      (c.prepare a.isNoreply).write_cases q <;>
      rw [hwrite] at h <;> obtain ⟨herror, hafter⟩ := Prod.mk.inj h
    · cases herror
    · rw [hw, prepare_writer, hrefusal, if_neg fun h => hlong ⟨payload, hp, h⟩] at hq'
      cases hq'
    · obtain rfl := Option.some.inj herror
      exact ⟨rfl, hlong, ⟨reason, rfl⟩, by rw [hafter, shutDown_closed]⟩

/-- Requests are only ever added to those written. -/
theorem Part.written (h : Part c c') : c.written <+: c'.written := by
  cases h with
  | kept _ _ hwritten => exact hwritten ▸ List.prefix_refl _
  | write q =>
    rw [(c.write_sent q).2]
    exact List.prefix_append _ _
  | shutDown e => exact (c.shutDown_written e).symm ▸ List.prefix_refl _
  | closeWriter =>
    unfold Connection.closeWriter
    split <;> exact List.prefix_refl _
  | hangUp | breakWriting => exact List.prefix_refl _

theorem written_run (c : Connection) (as : List Action) : c.written <+: (c.run as).written :=
  run_induction (P := fun d => c.written <+: d.written)
    (fun d a h => (d.parts_after a).induction (P := fun d => c.written <+: d.written)
      (fun _ _ hpart h => h.trans hpart.written) h)
    (List.prefix_refl _) as

/-- The action `a` has taken a token for the request `q`, and that is all: the connection `c` is as
it was but for its tokens, each cursor is as it was, registered as it was unless it still had the
token, and only requests that are written later reach the stream. -/
structure Refused (c : Connection) (a : Action) (q : Query) : Prop where
  kept : c.after a = { c with tokens := c.tokens.take.2, cursors := (c.after a).cursors }
  cursors : ∀ (i : CursorId) (k : Cursor), c.cursors[i]? = some k →
    ∃ registered, (c.after a).cursors[i]? = some { k with registered } ∧
      (k.token ≠ q.token → registered = k.registered)
  later : ∀ bs, ∃ qs, ((c.after a).run bs).written = c.written ++ qs ∧
    ((c.after a).run bs).writer.link.delivered =
      c.writer.link.delivered ++ qs.flatMap Query.bytes

theorem refused_of_prepare (hq : a.request? ((start s).run as) = some q)
    (hafter : ((start s).run as).after a = ((start s).run as).prepare a.isNoreply) :
    Refused ((start s).run as) a q where
  kept := by
    rw [hafter]
    cases a.isNoreply <;> rfl
  cursors i k hk := by
    rw [hafter]
    cases a.isNoreply with
    | true => exact ⟨k.registered, hk, fun _ => rfl⟩
    | false =>
      have hget : (((start s).run as).prepare false).cursors[i]? =
          some (k.deregister ((start s).run as).tokens.next) := by
        change (((start s).run as).cursors.map _)[i]? = _
        rw [List.getElem?_map, hk]
        rfl
      rw [hget, (opening_of_request? hq).2]
      unfold Cursor.deregister
      split
      next ht => exact ⟨false, rfl, fun hne => absurd ht hne⟩
      · exact ⟨k.registered, rfl, fun _ => rfl⟩
  later bs := by
    obtain ⟨qs, hqs⟩ := (((start s).run as).after a).written_run bs
    have hwritten : (((start s).run as).after a).written = ((start s).run as).written := by
      rw [hafter, prepare_written]
    have hdelivered := (exact_run s (as ++ a :: bs)).delivered
    rw [run_append, run_cons] at hdelivered
    refine ⟨qs, by rw [← hqs, hwritten], hdelivered.trans ?_⟩
    change ((((start s).run as).after a).run bs).written.flatMap Query.bytes = _
    have hbefore : ((start s).run as).writer.link.delivered =
      ((start s).run as).written.flatMap Query.bytes := (exact_run s as).delivered
    rw [← hqs, hwritten, List.flatMap_append, hbefore]

/-- The cause for which a request closes the connection is the error that it gets. -/
theorem Cause.eq_of_request {e' : ClientError} (h : Cause c a e') (hq : a.request? c = some q)
    (he : (c.act a).1 = .done (some e)) : e' = e := by
  cases h with
  | close | ended | failed => cases hq
  | released ha =>
    cases a with
    | query | noreplyWait => cases ha
    | _ => cases hq
  | unwritten _ _ htold =>
    rcases htold with htold | ⟨id, rfl⟩
    · rw [he] at htold
      exact (Option.some.inj htold).symm
    · cases hq

theorem cursor?_of_request (hq : a.request? c = some q) : a.cursor? = none := by
  cases a with
  | query | noreplyWait => rfl
  | _ => cases hq

theorem not_ends_of_request (hq : a.request? c = some q) {t : Token} (ht : t ≠ q.token) :
    ¬a.Ends c t := by
  rw [(opening_of_request? hq).2] at ht
  cases a with
  | query | noreplyWait => exact ht
  | _ => cases hq

theorem isRegistered_of_prepare (hq : a.request? c = some q) (hnoreply : a.isNoreply = false) :
    (c.prepare a.isNoreply).isRegistered q.token = false := by
  rw [hnoreply, (opening_of_request? hq).2]
  refine List.any_eq_false.mpr fun k hk h => ?_
  simp only [Bool.and_eq_true, beq_iff_eq] at h
  have hgone := registered_of_mem_deregister _ hk h.2
  rw [h.1] at hgone
  cases hgone

/-- Nobody loses a token that nobody has. -/
theorem prepare_of_fresh (hfresh : ∀ k ∈ c.cursors, k.token ≠ c.tokens.next) (noreply : Bool) :
    c.prepare noreply = { c with tokens := c.tokens.take.2 } := by
  have hcursors : c.cursors.map (·.deregister c.tokens.next) = c.cursors := by
    refine (List.map_congr_left fun k hk => ?_).trans (List.map_id _)
    rw [Cursor.deregister, if_neg (hfresh k hk)]
    rfl
  cases noreply with
  | true => rfl
  | false => exact congrArg (fun ks => { c with tokens := c.tokens.take.2, cursors := ks }) hcursors

/-- What closing the connection by a request means for those who wait. -/
theorem told_of_request {bs : List Action} (horderly : Orderly c) (hshut : Shutdown c a e bs)
    (hq : a.request? c = some q) (hk : c.cursors[i]? = some k) (hr : k.registered = true)
    (ht : k.token ≠ q.token) : (c.after a).cursors[i]? = some (k.lose e) ∧
      (Keeps i bs →
        Reads (c.after a) i bs (k.inbox.buffer.map (.ok ∘ some) ++ [.error e])) := by
  have hcursor : a.cursor? ≠ some i := by
    rw [cursor?_of_request hq]
    exact (Option.some_ne_none i).symm
  rw [lose_of_registered (horderly.sound i k hk) hr]
  exact hshut.told i k hk hr hcursor (not_ends_of_request hq ht)

/-- A query that cannot be written is not registered, and leaves the connection open as it was if
its payload exceeds the limit: no byte of it reaches the stream, and its token is taken, no more.
Otherwise the stream has failed: the connection is shut down with that error, and all other queries
that wait get it. An older query can have the same token only once tokens have wrapped around. -/
theorem unwritten_undone (s : Settings) (as : List Action) {a : Action} {q : Query}
    {e : ClientError} (ho : ((start s).run as).closed = false)
    (hq : a.request? ((start s).run as) = some q)
    (he : (((start s).run as).act a).1 = .done (some e)) :
    let c := (start s).run as
    let few := ((start s).taken as).length < 2 ^ 64
    ((a.isNoreply = true → few) → (c.after a).isRegistered q.token = false) ∧
    (c.after a).cursors.length = c.cursors.length ∧
    (e.isFatal = false ↔
      ∃ payload, q.payload = .ok payload ∧ c.writer.limit.bytes < payload.length) ∧
    (e.isFatal = false → Refused c a q ∧ (few → c.after a = { c with tokens := c.tokens.take.2 })) ∧
    (e.isFatal = true → (∃ reason, e = .transport reason) ∧ (c.after a).closed = true ∧
      ∀ bs, Shutdown c a e bs ∧ ∀ i k, c.cursors[i]? = some k → k.registered = true →
        (few ∨ k.token ≠ q.token) → (c.after a).cursors[i]? = some (k.lose e) ∧
          (Keeps i bs →
            Reads (c.after a) i bs (k.inbox.buffer.map (.ok ∘ some) ++ [.error e]))) := by
  intro c few
  have horderly : Orderly c := (orderly_start s).run as
  have hb : Unspilled c := unspilled_run s as
  have hfresh (hfew : few) : ∀ k ∈ c.cursors, k.token ≠ q.token :=
    token_ne_of_taken? hfew (taken?_eq_some.mpr ⟨ho, q, hq, rfl⟩)
  have hlength : (c.after a).cursors.length = c.cursors.length := by
    rcases c.request_cases hq with ⟨hs, -⟩ | ⟨k, c₁, hasked⟩
    · exact hs.length
    · rw [hasked.reply] at he
      cases he
  rcases unwritten_cases hb ho hq he with
    ⟨hfatal, hlong, hafter⟩ | ⟨hfatal, hlong, hreason, hclosed⟩
  · have hsame (hfew : few) : c.after a = { c with tokens := c.tokens.take.2 } := by
      rw [hafter]
      refine prepare_of_fresh (fun k hk => ?_) _
      rw [← (opening_of_request? hq).2]
      exact hfresh hfew k hk
    refine ⟨fun hnoreply => ?_, hlength, iff_of_true hfatal hlong,
      fun _ => ⟨refused_of_prepare hq hafter, hsame⟩, fun h => ?_⟩
    · cases hn : a.isNoreply with
      | false =>
        rw [hafter]
        exact isRegistered_of_prepare hq hn
      | true =>
        rw [hsame (hnoreply hn)]
        refine List.any_eq_false.mpr fun k hk => ?_
        simp [hfresh (hnoreply hn) k hk]
    · rw [hfatal] at h
      cases h
  · have hnot : ¬e.isFatal = false := by
      rw [hfatal]
      decide
    refine ⟨fun _ => ?_, hlength, iff_of_false hnot hlong, fun h => absurd h hnot,
      fun _ => ⟨hreason, hclosed, fun bs => ?_⟩⟩
    · refine List.any_eq_false.mpr fun k hk => ?_
      simp [(horderly.after a).closed hclosed k hk]
    · obtain ⟨e', hshut⟩ := shutdown_of_closed horderly ho hclosed bs
      obtain rfl := hshut.cause.eq_of_request hq he
      refine ⟨hshut, fun i k hk hr ht => ?_⟩
      exact told_of_request horderly hshut hq hk hr
        (ht.elim (fun hfew => hfresh hfew k (List.mem_of_getElem? hk)) id)

/-- Beside a query that waits, one is too long, and the next meets a stream that has failed. -/
theorem unwritten_undone_beside :
    let s : Settings := { (default : Settings) with maxFrameSize := 16 }
    let short : Action := .query (.ofString "ok") default false
    let long : Action := .query (.ofString "no room for it") default false
    let tooLong : ClientError := .malformedFrame "frame too large: 23 bytes (max 16)"
    let c := (start s).run [short]
    let d := (start s).run [short, .breakWriting "reset"]
    (c.closed = false ∧ (c.act long).1 = .done (some tooLong) ∧
      c.after long = { c with tokens := c.tokens.take.2 }) ∧
    d.closed = false ∧ (d.act short).1 = .done (some (.transport "reset")) ∧
      (d.after short).closed = true ∧ (d.after short).cursors.map (·.inbox.error) =
        [some (.transport "reset")] := by
  intro s short long tooLong c d
  have ho : c.closed = false := by decide +kernel
  have ho' : d.closed = false := by decide +kernel
  have hquery : errorOf (c.query (.ofString "no room for it") default false).1 = some tooLong := by
    decide +kernel
  have hquery' : errorOf (d.query (.ofString "ok") default false).1 =
      some (.transport "reset") := by
    decide +kernel
  have hact (c : Connection) (term : Term) : (c.act (.query term default false)).1 =
      .done (errorOf (c.query term default false).1) := rfl
  have hrefused : (c.act long).1 = .done (some tooLong) := by rw [hact, hquery]
  have hfailed : (d.act short).1 = .done (some (.transport "reset")) := by rw [hact, hquery']
  obtain ⟨-, -, -, hkept, -⟩ := unwritten_undone s [short] ho rfl hrefused
  obtain ⟨-, -, -, -, hclosed⟩ := unwritten_undone s [short, .breakWriting "reset"] ho' rfl hfailed
  exact ⟨⟨ho, hrefused, (hkept rfl).2 (by decide +kernel)⟩, ho', hfailed, (hclosed rfl).2.1,
    by decide +kernel⟩

end Connection
end Reql
