import Reql.Proofs.Async.Shape

/-! What a section does to each of the cursors. -/
namespace Reql.Async

/-- What a section makes of the cursor `k` at the place `i`. -/
inductive Touch (i : CursorId) (k : Cursor) : Point → Cursor → Prop where
  | none (p : Point) : Touch i k p k
  | deregister (t : Token) (ht : k.token = t) :
    Touch i k (.deregister t) { k with registered := false }
  | displace (t : Token) (r : Request) (ht : k.token = t) :
    Touch i k (.register t r) { k with registered := false }
  | drain (cause : ClientError) : Touch i k (.drain cause) { k with registered := false }
  | fail (cause : ClientError) (ids : List CursorId) (hi : i ∈ ids) :
    Touch i k (.fail cause ids) { k with inbox := k.inbox.fail cause }
  | read : Touch i k (.read i) { k with inbox := k.inbox.step.2 }
  | prime : Touch i k (.prime i) { k with inbox := k.inbox.prime.2 }
  | close :
    Touch i k (.close i) { k with inbox := if k.inbox.closed then k.inbox else k.inbox.close }
  | leave : Touch i k (.leave i) { k with inbox := k.inbox.drop }
  | letGo : Touch i k (.letGo i) { k with held := false }
  | handOver (t : Token) : Touch i k (.wrote .none (.query t i)) { k with held := true }
  | abandon (e : ClientError) :
    Touch i k (.wrote (some e) (.fetch i)) { k with inbox := k.inbox.abandon }
  | deliver (r : Response) : Touch i k (.deliver i r) { k with inbox := k.inbox.deliver r }
  | reject (e : ClientError) : Touch i k (.reject i e) { k with inbox := k.inbox.fail e }

def Point.added? : Point → Option Cursor
  | register t r => some ⟨t, r.term, r.isExclusive, .start, true, false⟩
  | wrote none (.noreply t r) => some ⟨t, r.term, r.isExclusive, .finished, false, true⟩
  | _ => none

variable {runtime : Bool} {pick : Nat} {s : Store} {p : Point} {i id : CursorId}
  {k k' : Cursor}

theorem closed_of_step {s : Inbox} (h : s.closed = true) : s.step.2.closed = true := by
  unfold Inbox.step
  repeat' split
  all_goals first | exact h | rfl

theorem closed_of_prime {s : Inbox} (h : s.closed = true) : s.prime.2.closed = true := by
  unfold Inbox.prime
  repeat' split
  all_goals first | exact h | rfl

theorem Touch.token_eq (h : Touch i k p k') : k'.token = k.token := by
  cases h <;> rfl

theorem Touch.exclusive_eq (h : Touch i k p k') : k'.exclusive = k.exclusive := by
  cases h <;> rfl

/-- What a cursor keeps whatever happens to it. -/
structure Ages (k k' : Cursor) : Prop where
  token : k'.token = k.token
  exclusive : k'.exclusive = k.exclusive
  registered : k'.registered = true → k.registered = true
  closed : k.inbox.closed = true → k'.inbox.closed = true

theorem Ages.refl (k : Cursor) : Ages k k :=
  ⟨rfl, rfl, id, id⟩

theorem Ages.trans {l : Cursor} (h₁ : Ages k k') (h₂ : Ages k' l) : Ages k l :=
  ⟨h₂.token.trans h₁.token, h₂.exclusive.trans h₁.exclusive, h₁.registered ∘ h₂.registered,
    h₂.closed ∘ h₁.closed⟩

theorem Touch.ages (h : Touch i k p k') : Ages k k' := by
  refine ⟨h.token_eq, h.exclusive_eq, fun hr => ?_, fun hc => ?_⟩
  · cases h <;> first | exact hr | cases hr
  · cases h with
    | read => exact closed_of_step hc
    | prime => exact closed_of_prime hc
    | close => simp [hc]
    | leave | abandon => rfl
    | deliver r => simp [Inbox.deliver, hc]
    | fail | reject => simp [Inbox.fail, hc]
    | _ => exact hc

theorem Touch.held_of (h : Touch i k p k') (hk' : k'.held = true) :
    k.held = true ∨ ∃ t, p = .wrote .none (.query t i) := by
  cases h with
  | letGo => cases hk'
  | handOver t => exact .inr ⟨t, rfl⟩
  | _ => exact .inl hk'

theorem touch_modify {f : Cursor → Cursor} (hk : s.conn.cursors[i]? = some k)
    (hf : id = i → Touch i k p (f k)) :
    ∃ k', (s.conn.cursors.modify id f)[i]? = some k' ∧ Touch i k p k' := by
  rw [List.getElem?_modify, hk]
  by_cases hid : id = i
  · exact ⟨f k, by simp [hid], hf hid⟩
  · exact ⟨k, by simp [hid], .none p⟩

theorem onCursor_cursor {f : Cursor → Cursor} {g : Cursor → List Point}
    (hk : s.conn.cursors[i]? = some k) :
    (s.onCursor i f g).store.conn.cursors[i]? = some (f k) := by
  unfold Store.onCursor
  rw [hk]
  simp [hk]

theorem touch_onCursor {f : Cursor → Cursor} {g : Cursor → List Point}
    (hk : s.conn.cursors[i]? = some k) (hf : id = i → Touch i k p (f k)) :
    ∃ k', (s.onCursor id f g).store.conn.cursors[i]? = some k' ∧ Touch i k p k' := by
  rcases s.onCursor_cases id f g with h | ⟨l, -, h⟩ <;> rw [h]
  · exact ⟨k, hk, .none p⟩
  · exact touch_modify hk hf

/-- What a section does to a cursor that is there. -/
theorem exec_cursor (runtime : Bool) (pick : Nat) (p : Point) (hk : s.conn.cursors[i]? = some k) :
    ∃ k', (p.exec runtime pick s).store.conn.cursors[i]? = some k' ∧ Touch i k p k' := by
  have hlt : i < s.conn.cursors.length := (List.getElem?_eq_some_iff.mp hk).choose
  have hdereg (t : Token) : (s.conn.cursors.map (·.deregister t))[i]? =
      some (if k.token = t then { k with registered := false } else k) := by
    rw [List.getElem?_map, hk]
    rfl
  cases p with
  | read id => exact touch_onCursor hk fun hi => hi ▸ .read
  | prime id => exact touch_onCursor hk fun hi => hi ▸ .prime
  | close id => exact touch_onCursor hk fun hi => hi ▸ .close
  | leave id => exact touch_onCursor hk fun hi => hi ▸ .leave
  | letGo id => exact touch_onCursor hk fun hi => hi ▸ .letGo
  | deliver id r => exact touch_onCursor hk fun hi => hi ▸ .deliver r
  | reject id e => exact touch_onCursor hk fun hi => hi ▸ .reject e
  | wrote error q =>
    cases q <;> cases error
    case query.none token id => exact touch_onCursor hk fun hi => hi ▸ .handOver token
    case fetch.some id e => exact touch_onCursor hk fun hi => hi ▸ .abandon e
    case noreply.none => exact ⟨k, (List.getElem?_append_left hlt).trans hk, .none _⟩
    all_goals exact ⟨k, hk, .none _⟩
  | deregister t =>
    refine ⟨_, hdereg t, ?_⟩
    split
    next ht => exact .deregister t ht
    next => exact .none _
  | register t r =>
    have hlt' : i < (s.conn.cursors.map (·.deregister t)).length := by simpa using hlt
    refine ⟨_, (List.getElem?_append_left hlt').trans (hdereg t), ?_⟩
    split
    next ht => exact .displace t r ht
    next => exact .none _
  | drain cause =>
    refine ⟨_, ?_, .drain cause⟩
    simp [Point.exec, hk]
  | fail cause ids =>
    simp only [Point.exec]
    split
    next => exact ⟨k, hk, .none _⟩
    next id rest =>
      refine touch_modify hk fun hi => .fail cause _ ?_
      cases hpick : (id :: rest)[pick]? with
      | none =>
        rw [hpick] at hi
        exact hi ▸ List.mem_cons_self
      | some l =>
        rw [hpick] at hi
        exact hi ▸ List.mem_of_getElem? hpick
  | feed m q =>
    refine ⟨k, ?_, .none _⟩
    simp only [Point.exec]
    repeat' split
    all_goals simpa [Store.accept] using hk
  | flush m q =>
    refine ⟨k, ?_, .none _⟩
    simp only [Point.exec]
    split <;> simpa using hk
  | endWriting => exact ⟨k, by simpa [Point.exec] using hk, .none _⟩
  | _ =>
    refine ⟨k, ?_, .none _⟩
    simp only [Point.exec]
    repeat' split
    all_goals exact hk

theorem onCursor_length (f : Cursor → Cursor) (g : Cursor → List Point) :
    (s.onCursor id f g).store.conn.cursors.length = s.conn.cursors.length := by
  rcases s.onCursor_cases id f g with h | ⟨k, -, h⟩ <;> rw [h]
  · rfl
  · exact List.length_modify _ _ _

/-- Cursors are added behind the others and are never taken away. -/
theorem exec_length (runtime : Bool) (pick : Nat) (s : Store) (p : Point) :
    (p.exec runtime pick s).store.conn.cursors.length =
    s.conn.cursors.length + p.added?.toList.length := by
  cases p with
  | read | prime | close | leave | letGo | deliver | reject => exact onCursor_length _ _
  | wrote error q =>
    cases q <;> cases error
    case query.none => exact onCursor_length _ _
    case fetch.some e => exact onCursor_length _ _
    case noreply.none => simp [Point.exec, Point.added?, Connection.addCursor]
    all_goals rfl
  | deregister | register | drain =>
    simp [Point.exec, Point.added?, Connection.register, Connection.addCursor,
      Connection.deregister]
  | fail cause ids =>
    simp only [Point.exec]
    split
    · rfl
    · exact List.length_modify _ _ _
  | feed m q =>
    simp only [Point.exec]
    repeat' split
    all_goals simp [Store.accept, Point.added?]
  | flush m q =>
    simp only [Point.exec]
    split <;> simp [Point.added?]
  | endWriting => simp [Point.exec, Point.added?]
  | _ =>
    simp only [Point.exec]
    repeat' split
    all_goals rfl

theorem exec_added (h : p.added? = some k) :
    (p.exec runtime pick s).store.conn.cursors[s.conn.cursors.length]? = some k := by
  cases p with
  | register t r =>
    obtain rfl := Option.some.inj h
    simp [Point.exec, Connection.register, Connection.addCursor, Connection.deregister]
  | wrote error q =>
    cases q <;> cases error <;> cases h
    simp [Point.exec, Connection.addCursor]
  | _ => cases h

/-- The cursors keep their tokens. -/
theorem exec_tokens : (p.exec runtime pick s).store.conn.cursors.map (·.token) =
    s.conn.cursors.map (·.token) ++ p.added?.toList.map (·.token) := by
  have hlength := exec_length runtime pick s p
  refine List.ext_getElem? fun i => ?_
  rw [List.getElem?_map]
  cases hk : s.conn.cursors[i]? with
  | some k =>
    obtain ⟨k', hk', ht⟩ := exec_cursor runtime pick p hk
    have hlt : i < (s.conn.cursors.map (·.token)).length := by
      simpa using (List.getElem?_eq_some_iff.mp hk).choose
    rw [hk', List.getElem?_append_left hlt, List.getElem?_map, hk, Option.map_some, Option.map_some,
      ht.token_eq]
  | none =>
    have hle := List.getElem?_eq_none_iff.mp hk
    rw [List.getElem?_append_right (by simpa using hle), List.length_map]
    cases hadded : p.added? with
    | none =>
      rw [hadded] at hlength
      rw [List.getElem?_eq_none_iff.mpr (by simpa [hlength] using hle)]
      rfl
    | some k =>
      rcases Nat.eq_or_lt_of_le hle with rfl | hlt
      · rw [exec_added hadded]
        simp
      · rw [hadded] at hlength
        rw [List.getElem?_eq_none_iff.mpr (by rw [hlength]; exact hlt),
          List.getElem?_eq_none_iff.mpr]
        · rfl
        · simp only [Option.toList_some, List.map_singleton, List.length_singleton]
          omega

/-- A cursor that is there after a section has been there before or is added by it. -/
theorem cursor_of_exec (hk' : (p.exec runtime pick s).store.conn.cursors[i]? = some k') :
    (∃ k, s.conn.cursors[i]? = some k ∧ Touch i k p k') ∨
      (i = s.conn.cursors.length ∧ p.added? = some k') := by
  cases hk : s.conn.cursors[i]? with
  | some k =>
    obtain ⟨l, hl, ht⟩ := exec_cursor runtime pick p hk
    obtain rfl := Option.some.inj (hl.symm.trans hk')
    exact .inl ⟨k, rfl, ht⟩
  | none =>
    have hle := List.getElem?_eq_none_iff.mp hk
    have hlt := (List.getElem?_eq_some_iff.mp hk').choose
    rw [exec_length] at hlt
    cases hadded : p.added? with
    | none =>
      rw [hadded] at hlt
      exact absurd hlt (Nat.not_lt.mpr hle)
    | some l =>
      rw [hadded, Option.toList_some, List.length_singleton] at hlt
      obtain rfl : i = s.conn.cursors.length := Nat.le_antisymm (Nat.le_of_lt_succ hlt) hle
      exact .inr ⟨rfl, by rw [← hk', exec_added hadded]⟩

namespace State

variable {s : State} {a : Action}

def section? (s : State) : Action → Option Point
  | .step j _ => (s.next? j).map (·.2.1)
  | .handle _ => s.handler.head?
  | _ => none

theorem after_of_section? (h : s.section? a = some p) :
    ∃ runtime pick, (s.after a).store = (p.exec runtime pick s.store).store := by
  cases a with
  | step j pick =>
    obtain ⟨⟨τ, q, rest⟩, hnext, rfl⟩ := Option.map_eq_some_iff.mp h
    exact ⟨τ.runtime, pick, by rw [after, step_of_next? hnext]; rfl⟩
  | handle pick =>
    refine ⟨true, pick, ?_⟩
    unfold section? at h
    cases hhandler : s.handler with
    | nil => rw [hhandler] at h; cases h
    | cons q rest =>
      rw [hhandler] at h
      obtain rfl := Option.some.inj h
      simp only [after, handle, hhandler]
  | _ => cases h

/-- What only sections change: the rest is about who holds the connection, and about faults and the
end of its stream. -/
theorem kept_of_section? (h : s.section? a = none) (P : Store → Prop) (hs : P s.store)
    (hdrop : P { s.store with conn := { s.conn with held := false } })
    (hbreak : ∀ reason, P { s.store with conn := s.conn.breakWriting reason })
    (hend : a = .collect → P { s.store with conn := { s.conn with writer := { s.conn.writer with
      link := { s.conn.writer.link with ended := true } } } }) : P (s.after a).store := by
  cases a with
  | begin call runtime => exact begin_kept P hs hdrop hbreak
  | step j pick =>
    cases hnext : s.next? j with
    | none => simpa only [after, step, hnext] using hs
    | some x => rw [section?, hnext] at h; cases h
  | handle pick =>
    cases hhandler : s.handler with
    | nil => simpa only [after, handle, hhandler] using hs
    | cons q rest => rw [section?, hhandler] at h; cases h
  | abandon j => rwa [after, abandon_store]
  | collect =>
    rcases s.collect_cases with hs' | hs' <;> rw [after, hs']
    · exact hs
    · exact hend rfl

theorem cursors_of_section? (h : s.section? a = none) :
    (s.after a).conn.cursors = s.conn.cursors :=
  kept_of_section? h (fun s' => s'.conn.cursors = s.conn.cursors) rfl rfl (fun _ => rfl)
    fun _ => rfl

/-- What only sections change of a count. -/
theorem total_of_section? (h : s.section? a = none) {w : Bool → Point → Nat}
    (hbegin : ∀ call runtime, a = .begin call runtime → ((opening call).map (w runtime)).sum = 0)
    (habandon : ∀ j τ, a = .abandon j → s.tasks[j]? = some τ →
      τ.todo.head?.any Point.isSuspended = true → ∀ p ∈ τ.todo, w τ.runtime p = 0) :
    (s.after a).total w = s.total w := by
  cases a with
  | begin call runtime =>
    rcases s.begin_cases runtime call with h | ⟨-, h⟩ | ⟨c, rfl, -, h⟩ | ⟨reason, -, h⟩ |
      ⟨event, -, h⟩ <;> rw [after, h]
    case inr.inl => rw [total_launch, hbegin call runtime rfl, Nat.add_zero]
    all_goals rfl
  | step j pick =>
    cases hnext : s.next? j with
    | none => rw [after, step, hnext]
    | some x => rw [section?, hnext] at h; cases h
  | handle pick =>
    cases hhandler : s.handler with
    | nil => simp only [after, handle, hhandler]
    | cons q rest => rw [section?, hhandler] at h; cases h
  | abandon j => exact total_abandon fun τ hτ => habandon j τ rfl hτ
  | collect =>
    rw [total, after, collect_tasks]
    rfl

theorem length_le_after (s : State) (a : Action) :
    s.conn.cursors.length ≤ (s.after a).conn.cursors.length := by
  cases hp : s.section? a with
  | none => exact Nat.le_of_eq (by rw [cursors_of_section? hp])
  | some p =>
    obtain ⟨runtime, pick, hs⟩ := after_of_section? hp
    rw [conn, conn, hs, exec_length]
    exact Nat.le_add_right _ _

/-- A cursor that is there stays there, and is changed by nothing but the section carried out. -/
theorem cursor_after (hk : s.conn.cursors[i]? = some k) (a : Action) :
    ∃ k', (s.after a).conn.cursors[i]? = some k' ∧
      (k' = k ∨ ∃ p, s.section? a = some p ∧ Touch i k p k') := by
  cases hp : s.section? a with
  | none => exact ⟨k, by rw [cursors_of_section? hp, hk], .inl rfl⟩
  | some p =>
    obtain ⟨runtime, pick, hs⟩ := after_of_section? hp
    obtain ⟨k', hk', ht⟩ := exec_cursor runtime pick p hk
    exact ⟨k', by rw [conn, hs, hk'], .inr ⟨p, rfl, ht⟩⟩

theorem ages_after (hk : s.conn.cursors[i]? = some k) (a : Action) :
    ∃ k', (s.after a).conn.cursors[i]? = some k' ∧ Ages k k' := by
  obtain ⟨k', hk', rfl | ⟨p, -, ht⟩⟩ := cursor_after hk a
  · exact ⟨_, hk', .refl _⟩
  · exact ⟨k', hk', ht.ages⟩

theorem ages_run (hk : s.conn.cursors[i]? = some k) (as : List Action) :
    ∃ k', (s.run as).conn.cursors[i]? = some k' ∧ Ages k k' := by
  induction as generalizing s k with
  | nil => exact ⟨k, hk, .refl k⟩
  | cons a as ih =>
    obtain ⟨l, hl, hages⟩ := ages_after hk a
    obtain ⟨k', hk', hages'⟩ := ih hl
    exact ⟨k', hk', hages.trans hages'⟩

theorem cursor_of_after (hk' : (s.after a).conn.cursors[i]? = some k') :
    (∃ k, s.conn.cursors[i]? = some k ∧ (k' = k ∨ ∃ p, s.section? a = some p ∧ Touch i k p k')) ∨
      (i = s.conn.cursors.length ∧ ∃ p, s.section? a = some p ∧ p.added? = some k') := by
  cases hp : s.section? a with
  | none =>
    rw [cursors_of_section? hp] at hk'
    exact .inl ⟨k', hk', .inl rfl⟩
  | some p =>
    obtain ⟨runtime, pick, hs⟩ := after_of_section? hp
    rw [conn, hs] at hk'
    rcases cursor_of_exec hk' with ⟨k, hk, ht⟩ | ⟨hi, hadded⟩
    · exact .inl ⟨k, hk, .inr ⟨p, rfl, ht⟩⟩
    · exact .inr ⟨hi, p, rfl, hadded⟩

end State
end Reql.Async
