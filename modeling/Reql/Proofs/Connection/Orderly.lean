import Reql.Proofs.Connection.History

/-! Whom the connection waits for: at most one cursor under each token, and nobody once closed. -/
namespace Reql.Connection

/-- The registrations of a connection are in order. -/
structure Orderly (c : Connection) : Prop where
  sound : ∀ (i : CursorId) (k : Cursor), c.cursors[i]? = some k → k.Sound
  distinct : ∀ (i j : CursorId) (k l : Cursor), c.cursors[i]? = some k → c.cursors[j]? = some l →
    k.registered = true → l.registered = true → k.token = l.token → i = j
  closed : c.closed = true → ∀ k ∈ c.cursors, k.registered = false

variable {c : Connection} {a : Action} {i : CursorId} {k : Cursor}

theorem closed_after (a : Action) (hc : c.closed = true) : (c.after a).closed = true := by
  rcases c.after_cases a with h | ⟨l, d, h⟩
  · exact h.closed hc
  · have hd := h.spares.closed hc
    rw [h.closed] at hd
    cases hd

theorem closed_run (as : List Action) (hc : c.closed = true) : (c.run as).closed = true :=
  run_induction (P := fun c => c.closed = true) (fun _ a h => closed_after a h) hc as

theorem open_of_run {as : List Action} (ho : (c.run as).closed = false) : c.closed = false := by
  cases hc : c.closed with
  | false => rfl
  | true => rw [closed_run as hc] at ho; cases ho

/-- A cursor that has just been asked for is the only one registered under its token. -/
theorem Asked.eq_length {E : Token → Prop} {O : CursorId → Prop} {c₁ : Connection} {l : Cursor}
    (h : Asked E O c a k c₁) (hl : (c.after a).cursors[i]? = some l) (hkr : k.registered = true)
    (hlr : l.registered = true) (ht : l.token = k.token) : i = c.cursors.length := by
  obtain ⟨hlt, -⟩ := List.getElem?_eq_some_iff.mp hl
  rw [h.length] at hlt
  by_cases hi : i < c.cursors.length
  · rw [h.getElem?_of_lt hi] at hl
    have hreply : a.isNoreply = false := by simpa [h.new.registered] using hkr
    rw [h.only hreply l (List.mem_of_getElem? hl) ht] at hlr
    cases hlr
  · exact Nat.le_antisymm (Nat.lt_succ_iff.mp hlt) (Nat.not_lt.mp hi)

theorem orderly_start (s : Settings) : Orderly (start s) where
  sound i k hk := by simp [start] at hk
  distinct i j k l hk := by simp [start] at hk
  closed hc := by cases hc

theorem Orderly.after (h : Orderly c) (a : Action) : Orderly (c.after a) where
  sound i k hk := by
    rcases before_or_asked hk with ⟨l, hl, -⟩ | ⟨-, c₁, h₁⟩
    · obtain ⟨k', hk', hs⟩ := steps_after a hl (h.sound i l hl)
      obtain rfl := Option.some.inj (hk.symm.trans hk')
      exact hs.sound (h.sound i l hl)
    · exact h₁.new.sound
  distinct i j k l hk hl hkr hlr ht := by
    rcases before_or_asked hk with ⟨k₀, hk₀, htk, hrk⟩ | ⟨hi, c₁, h₁⟩
    · rcases before_or_asked hl with ⟨l₀, hl₀, htl, hrl⟩ | ⟨hj, c₁, h₁⟩
      · exact h.distinct i j k₀ l₀ hk₀ hl₀ (hrk hkr) (hrl hlr) (htk.symm.trans (ht.trans htl))
      · rw [hj, h₁.eq_length hk hlr hkr ht]
    · rw [hi, h₁.eq_length hl hkr hlr ht.symm]
  closed hc := by
    rcases c.after_cases a with h₁ | ⟨l, c₁, h₁⟩
    · rcases h₁.lost hc with ho | hnone
      · exact h₁.unregistered (h.closed ho)
      · exact hnone
    · rw [h₁.after, addCursor, h₁.closed] at hc
      cases hc

/-- In every reachable state the registrations are in order. -/
theorem Orderly.run (h : Orderly c) (as : List Action) : Orderly (c.run as) :=
  run_induction (fun _ a h => h.after a) h as

theorem Orderly.open_of_registered (h : Orderly c) (hk : c.cursors[i]? = some k)
    (hr : k.registered = true) : c.closed = false := by
  cases hc : c.closed with
  | false => rfl
  | true =>
    rw [h.closed hc k (List.mem_of_getElem? hk)] at hr
    cases hr

def holder? (c : Connection) (t : Token) : Option CursorId :=
  c.cursors.findIdx? fun k => k.registered && k.token == t

variable {t : Token}

theorem isRegistered_eq_isSome : c.isRegistered t = (c.holder? t).isSome := by
  rw [isRegistered, holder?, List.findIdx?_isSome]

theorem Orderly.holder?_eq_some (h : Orderly c) : c.holder? t = some i ↔
    ∃ k, c.cursors[i]? = some k ∧ k.registered = true ∧ k.token = t := by
  rw [holder?, List.findIdx?_eq_some_iff_getElem]
  constructor
  · rintro ⟨hlt, hp, -⟩
    simp only [Bool.and_eq_true, beq_iff_eq] at hp
    exact ⟨_, List.getElem?_eq_getElem hlt, hp.1, hp.2⟩
  · rintro ⟨k, hk, hr, ht⟩
    obtain ⟨hlt, rfl⟩ := List.getElem?_eq_some_iff.mp hk
    refine ⟨hlt, by simp [hr, ht], fun j hj hp => ?_⟩
    simp only [Bool.and_eq_true, beq_iff_eq] at hp
    have hij := h.distinct i j _ _ hk (List.getElem?_eq_getElem (Nat.lt_trans hj hlt)) hr hp.1
      (ht.trans hp.2.symm)
    exact absurd hij (Nat.ne_of_gt hj)

/-- A frame concerns only the cursor that waits under its token. -/
theorem Orderly.getElem?_route (h : Orderly c) {f : Frame} (hf : c.holder? f.token ≠ some i) :
    (c.route f).cursors[i]? = c.cursors[i]? := by
  simp only [route, List.getElem?_map]
  cases hk : c.cursors[i]? with
  | none => rfl
  | some k =>
    have hnot : ¬(k.registered = true ∧ k.token = f.token) := fun hr =>
      hf (h.holder?_eq_some.mpr ⟨k, hk, hr⟩)
    rw [Option.map_some, Cursor.receive, if_neg hnot]

/-- A frame that nobody waits for changes nothing. -/
theorem route_eq_self {f : Frame} (hf : c.isRegistered f.token = false) : c.route f = c := by
  have hcursors : c.cursors.map (·.receive f) = c.cursors := by
    refine (List.map_congr_left fun k hk => ?_).trans (List.map_id _)
    have hnot : ¬(k.registered = true ∧ k.token = f.token) := by
      simp only [isRegistered, List.any_eq_false, Bool.and_eq_true, beq_iff_eq] at hf
      exact hf k hk
    rw [Cursor.receive, if_neg hnot]
    rfl
  rw [route, hcursors]

end Reql.Connection
