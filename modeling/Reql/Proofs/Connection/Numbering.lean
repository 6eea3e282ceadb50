import Mathlib.Algebra.Group.Nat.Defs
import Reql.Proofs.Connection.Requests

/-! Tokens are taken in order, so that they differ until they wrap around. -/
namespace Reql.Connection

/-- The token that an action takes: a request for a cursor takes one, unless the connection is
closed. -/
def taken? (c : Connection) (a : Action) : Option Token :=
  if c.closed then none else (a.request? c).map (·.token)

def taken (c : Connection) : List Action → List Token
  | [] => []
  | a :: as => (c.taken? a).toList ++ (c.after a).taken as

/-- The tokens of the cursors are, in order, among the first `n` that were taken. -/
structure Numbered (n : Nat) (c : Connection) : Prop where
  next : c.tokens.next = UInt64.ofNat (n + 1)
  cursors : ∃ ns : List Nat, c.cursors.map (·.token) = ns.map UInt64.ofNat ∧
    ns.Pairwise (· < ·) ∧ ∀ m ∈ ns, 1 ≤ m ∧ m ≤ n

variable {c : Connection} {a : Action} {n : Nat}

theorem Spares.map_token {E : Token → Prop} {O : CursorId → Prop} {c' : Connection}
    (h : Spares E O c c') : c'.cursors.map (·.token) = c.cursors.map (·.token) := by
  refine List.ext_getElem? fun i => ?_
  rw [List.getElem?_map, List.getElem?_map]
  cases hk : c.cursors[i]? with
  | none =>
    have hi : c'.cursors[i]? = none := by
      rw [List.getElem?_eq_none_iff] at hk ⊢
      rw [h.length]
      exact hk
    rw [hi]
  | some k =>
    obtain ⟨k', hk', ht, -⟩ := h.cursors i k hk
    rw [hk', Option.map_some, Option.map_some, ht]

theorem Asked.map_token {E : Token → Prop} {O : CursorId → Prop} {c₁ : Connection} {k : Cursor}
    (h : Asked E O c a k c₁) :
    (c.after a).cursors.map (·.token) = c.cursors.map (·.token) ++ [c.tokens.next] := by
  rw [h.after, addCursor, List.map_append, h.spares.map_token, List.map_singleton, h.new.token]

theorem taken_append (c : Connection) (as bs : List Action) :
    c.taken (as ++ bs) = c.taken as ++ (c.run as).taken bs := by
  induction as generalizing c with
  | nil => rfl
  | cons a as ih => simp only [List.cons_append, taken, run_cons, ih, List.append_assoc]

theorem taken?_eq_some {t : Token} : c.taken? a = some t ↔
    c.closed = false ∧ ∃ q, a.request? c = some q ∧ q.token = t := by
  unfold taken?
  split
  next hc => simp [hc]
  next hc => simp [hc]

/-- Whatever comes of a request, it takes the next token. -/
theorem token_of_taken? {t : Token} (h : c.taken? a = some t) : t = c.tokens.next := by
  obtain ⟨-, q, hq, rfl⟩ := taken?_eq_some.mp h
  exact (opening_of_request? hq).2

theorem Asks.tokens {E : Token → Prop} {O : CursorId → Prop} {noreply : Bool} {q : Query}
    {r : Except ClientError CursorId × Connection} (h : Asks E O noreply q c r) :
    r.2.tokens = c.tokens.take.2 := by
  rcases h with ⟨e, -, -, ht, -⟩ | ⟨c₁, k, rfl, -, -, ht, -⟩
  · exact ht
  · exact ht

theorem tokens_after_of_taken? {t : Token} (h : c.taken? a = some t) :
    (c.after a).tokens = c.tokens.take.2 := by
  obtain ⟨ho, q, hq, -⟩ := taken?_eq_some.mp h
  cases a with
  | query term options exclusive =>
    exact (c.query_cases (O := fun _ => True) term options exclusive rfl ho).tokens
  | noreplyWait => exact (c.noreplyWait_cases (O := fun _ => True) rfl ho).tokens
  | _ => cases hq

theorem tokens_after_of_not_taken? (h : c.taken? a = none) : (c.after a).tokens = c.tokens := by
  cases hq : a.request? c with
  | some q =>
    cases hc : c.closed with
    | true => rw [after, c.act_of_closed hc hq]
    | false => simp [taken?, hc, hq] at h
  | none =>
    have hr := c.requests_after a
    generalize (c.after a).tokens = tokens, (c.after a).written = written at hr ⊢
    cases hr with
    | quiet | fetched | continued | stopped => rfl
    | refused _ q hsome | asked _ q hsome => simp [hq] at hsome

theorem Numbered.next_take (h : Numbered n c) :
    c.tokens.take.2.next = UInt64.ofNat (n + 1 + 1) := by
  rw [UInt64.ofNat_add (n + 1), ← h.next]
  rfl

theorem Asked.taken? {E : Token → Prop} {O : CursorId → Prop} {c₁ : Connection} {k : Cursor}
    (h : Asked E O c a k c₁) : c.taken? a = some c.tokens.next := by
  obtain ⟨q, hq, -⟩ := h.written
  have ho : c.closed = false := by
    cases hc : c.closed with
    | false => rfl
    | true =>
      have hc₁ := h.spares.closed hc
      rw [h.closed] at hc₁
      cases hc₁
  exact taken?_eq_some.mpr ⟨ho, q, hq, (opening_of_request? hq).2⟩

/-- An action that takes a token uses up one number. -/
theorem Numbered.after (h : Numbered n c) (a : Action) :
    Numbered (n + (c.taken? a).toList.length) (c.after a) := by
  obtain ⟨ns, htokens, hlt, hle⟩ := h.cursors
  rcases c.after_cases a with hs | ⟨k, c₁, ha⟩
  · rw [← hs.map_token] at htokens
    cases ht : c.taken? a with
    | none =>
      exact ⟨(tokens_after_of_not_taken? ht).symm ▸ h.next, ns, htokens, hlt, hle⟩
    | some t =>
      refine ⟨by rw [tokens_after_of_taken? ht]; exact h.next_take, ns, htokens, hlt, ?_⟩
      intro m hm
      exact ⟨(hle m hm).1, Nat.le_succ_of_le (hle m hm).2⟩
  · have ht := ha.taken?
    rw [ht]
    refine ⟨by rw [tokens_after_of_taken? ht]; exact h.next_take, ns ++ [n + 1], ?_, ?_, ?_⟩
    · rw [ha.map_token, htokens, h.next, List.map_append, List.map_singleton]
    · refine List.pairwise_append.mpr ⟨hlt, List.pairwise_singleton _ _, fun m hm l hl => ?_⟩
      rw [List.mem_singleton.mp hl]
      exact Nat.lt_succ_of_le (hle m hm).2
    · intro m hm
      rcases List.mem_append.mp hm with hm | hm
      · exact ⟨(hle m hm).1, Nat.le_succ_of_le (hle m hm).2⟩
      · rw [List.mem_singleton.mp hm]
        exact ⟨Nat.succ_pos n, Nat.le_refl _⟩

theorem numbered_start (s : Settings) : Numbered 0 (start s) :=
  ⟨rfl, [], rfl, .nil, by simp⟩

theorem Numbered.run (h : Numbered n c) (as : List Action) :
    Numbered (n + (c.taken as).length) (c.run as) := by
  induction as generalizing c n with
  | nil => exact h
  | cons a as ih =>
    rw [taken, List.length_append, ← Nat.add_assoc]
    exact ih (h.after a)

/-- Tokens are taken one after the other. -/
theorem Numbered.taken_eq (h : Numbered n c) (as : List Action) :
    c.taken as = (List.range' (n + 1) (c.taken as).length).map UInt64.ofNat := by
  induction as generalizing c n with
  | nil => rfl
  | cons a as ih =>
    have htail := ih (h.after a)
    cases ht : c.taken? a with
    | none =>
      rw [ht] at htail
      rw [taken, ht]
      exact htail
    | some t =>
      rw [ht] at htail
      rw [taken, ht, token_of_taken? ht, h.next]
      simp only [Option.toList_some, List.singleton_append, List.length_cons, List.range'_succ,
        List.map_cons]
      exact congrArg _ htail

/-- No more tokens are taken than actions happen. -/
theorem length_taken_le (c : Connection) (as : List Action) :
    (c.taken as).length ≤ as.length := by
  induction as generalizing c with
  | nil => exact Nat.le_refl _
  | cons a as ih =>
    have hone : (c.taken? a).toList.length ≤ 1 := by cases c.taken? a <;> simp
    have htail := ih (c.after a)
    rw [taken, List.length_append, List.length_cons]
    omega

theorem ofNat_inj {m l : Nat} (hm : m < 2 ^ 64) (hl : l < 2 ^ 64)
    (h : UInt64.ofNat m = UInt64.ofNat l) : m = l := by
  have hnat := congrArg UInt64.toNat h
  rwa [UInt64.toNat_ofNat', UInt64.toNat_ofNat', Nat.mod_eq_of_lt hm, Nat.mod_eq_of_lt hl]
    at hnat

/-- Before they wrap around, tokens differ. -/
theorem Numbered.nodup (h : Numbered n c) (hn : n < 2 ^ 64) :
    (c.cursors.map (·.token)).Nodup := by
  obtain ⟨ns, htokens, hlt, hle⟩ := h.cursors
  rw [htokens]
  refine List.pairwise_map.mpr (hlt.imp_of_mem fun hm hl hml heq => ?_)
  have hm' := Nat.lt_of_le_of_lt (hle _ hm).2 hn
  have hl' := Nat.lt_of_le_of_lt (hle _ hl).2 hn
  exact absurd (ofNat_inj hm' hl' heq) (Nat.ne_of_lt hml)

theorem Numbered.next_fresh (h : Numbered n c) (hn : n < 2 ^ 64) :
    c.tokens.next ∉ c.cursors.map (·.token) := by
  obtain ⟨ns, htokens, -, hle⟩ := h.cursors
  rw [htokens, h.next]
  intro hmem
  obtain ⟨m, hm, heq⟩ := List.mem_map.mp hmem
  obtain ⟨hpos, hmn⟩ := hle m hm
  have hnat := congrArg UInt64.toNat heq
  rw [UInt64.toNat_ofNat', UInt64.toNat_ofNat', Nat.mod_eq_of_lt (Nat.lt_of_le_of_lt hmn hn)]
    at hnat
  -- The last token of all is zero, which no cursor has.
  rcases Nat.lt_or_ge (n + 1) (2 ^ 64) with h | h
  · rw [Nat.mod_eq_of_lt h] at hnat
    omega
  · have hlast : n + 1 = 2 ^ 64 := by omega
    rw [hlast, Nat.mod_self] at hnat
    omega

/-- The state of the numbering after a run of a new connection. -/
theorem numbered_run (s : Settings) (as : List Action) :
    Numbered ((start s).taken as).length ((start s).run as) := by
  simpa using (numbered_start s).run as

theorem nodup_run (s : Settings) {as : List Action} (hlen : as.length < 2 ^ 64) :
    (((start s).run as).cursors.map (·.token)).Nodup ∧
      ((start s).run as).tokens.next ∉ ((start s).run as).cursors.map (·.token) := by
  have hfew := Nat.lt_of_le_of_lt ((start s).length_taken_le as) hlen
  exact ⟨(numbered_run s as).nodup hfew, (numbered_run s as).next_fresh hfew⟩

end Reql.Connection
