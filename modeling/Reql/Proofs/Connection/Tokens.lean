import Reql.Proofs.Connection.Multiplexing
import Reql.Proofs.Connection.Registry

/-! No token serves twice, so that what arrives for a query that is over reaches nobody. -/
namespace Reql.Connection

open Cursor (Event awaits)

variable {s : Settings} {as as₁ as₂ bs bs₁ bs₂ cs : List Action} {a b : Action} {i j : CursorId}
  {k : Cursor} {t : Token}

theorem length_taken_mono (c : Connection) (as bs : List Action) :
    (c.taken as).length ≤ (c.taken (as ++ bs)).length := by
  rw [taken_append, List.length_append]
  exact Nat.le_add_right _ _

/-- An action that takes a token comes before fewer tokens than anything behind it. -/
theorem length_taken_lt (ha : ((start s).run as₁).taken? a = some t) (cs : List Action) :
    ((start s).taken as₁).length < ((start s).taken (as₁ ++ a :: cs)).length := by
  rw [taken_append, List.length_append, taken, ha, List.length_append, Option.toList_some,
    List.length_singleton]
  omega

/-- The number of a token tells how many were taken before it. -/
theorem token_eq_ofNat (ha : ((start s).run as₁).taken? a = some t) :
    t = UInt64.ofNat (((start s).taken as₁).length + 1) :=
  (token_of_taken? ha).trans (numbered_run s as₁).next

theorem not_shorter_of_taken (hfew : ((start s).taken as).length < 2 ^ 64)
    (has : as = as₁ ++ a :: as₂) (hbs : as = bs₁ ++ b :: bs₂)
    (ha : ((start s).run as₁).taken? a = some t) (hb : ((start s).run bs₁).taken? b = some t) :
    ¬as₁.length < bs₁.length := by
  intro hlt
  have hleft : as₁ ++ [a] <+: as := ⟨as₂, by rw [has, List.append_assoc, List.singleton_append]⟩
  have hright : bs₁ <+: as := ⟨b :: bs₂, hbs.symm⟩
  have hlength : (as₁ ++ [a]).length ≤ bs₁.length := by
    rw [List.length_append, List.length_singleton]
    exact hlt
  obtain ⟨cs, hcs⟩ := List.prefix_of_prefix_length_le hleft hright hlength
  rw [List.append_assoc, List.singleton_append] at hcs
  subst hcs
  have hbefore := length_taken_lt ha cs
  have hbehind := length_taken_lt hb bs₂
  rw [← hbs] at hbehind
  have heq := ofNat_inj (by omega) (by omega) ((token_eq_ofNat ha).symm.trans (token_eq_ofNat hb))
  omega

/-- Until tokens wrap around, each of them is taken by one action. -/
theorem split_eq_of_taken (hfew : ((start s).taken as).length < 2 ^ 64)
    (has : as = as₁ ++ a :: as₂) (hbs : as = bs₁ ++ b :: bs₂)
    (ha : ((start s).run as₁).taken? a = some t) (hb : ((start s).run bs₁).taken? b = some t) :
    as₁ = bs₁ ∧ a = b ∧ as₂ = bs₂ := by
  have hle := not_shorter_of_taken hfew has hbs ha hb
  have hge := not_shorter_of_taken hfew hbs has hb ha
  have hlen : as₁.length = bs₁.length := by omega
  obtain ⟨rfl, htail⟩ := List.append_inj (has.symm.trans hbs) hlen
  obtain ⟨rfl, rfl⟩ := List.cons.inj htail
  exact ⟨rfl, rfl, rfl⟩

/-- Whoever has a token has been asked for by the action that took it. -/
theorem asked_of_token (hfew : ((start s).taken (as₁ ++ a :: as₂)).length < 2 ^ 64)
    (ha : ((start s).run as₁).taken? a = some t)
    (hk : ((start s).run (as₁ ++ a :: as₂)).cursors[j]? = some k) (ht : k.token = t) :
    j = ((start s).run as₁).cursors.length ∧
      ∃ k₀ c₁, Asked (a.Ends ((start s).run as₁)) (a.Owns ((start s).run as₁))
        ((start s).run as₁) a k₀ c₁ := by
  rcases history_of_none (as₁ ++ a :: as₂) (start_none s j) with
    ⟨-, hnone⟩ | ⟨bs₁, b, bs₂, k₀, c₁, hbs, hj, hasked, -⟩
  · rw [hk] at hnone
    cases hnone
  · have hk₀ : (((start s).run bs₁).after b).cursors[j]? = some k₀ :=
      hj ▸ hasked.getElem?_length
    obtain ⟨l, hl, hsteps⟩ := steps_run bs₂ hk₀ hasked.new.sound
    rw [hbs, run_append, run_cons, hl] at hk
    obtain rfl := Option.some.inj hk
    have hb : ((start s).run bs₁).taken? b = some t := by
      rw [hasked.taken?, ← hasked.new.token, ← hsteps.token_eq, ht]
    obtain ⟨rfl, rfl, rfl⟩ := split_eq_of_taken hfew rfl hbs ha hb
    exact ⟨hj, k₀, c₁, hasked⟩

/-- Nobody has a token before it is taken. -/
theorem token_ne_of_taken? (hfew : ((start s).taken as₁).length < 2 ^ 64)
    (ha : ((start s).run as₁).taken? a = some t) :
    ∀ k ∈ ((start s).run as₁).cursors, k.token ≠ t := by
  intro k hk ht
  refine (numbered_run s as₁).next_fresh hfew ?_
  rw [← token_of_taken? ha, ← ht]
  exact List.mem_map_of_mem hk

/-- Registering a query leaves the others as they are, unless the connection is lost by it. -/
theorem others_kept (hfew : ((start s).taken as₁).length < 2 ^ 64)
    (ha : ((start s).run as₁).taken? a = some t)
    (ho : (((start s).run as₁).after a).closed = false)
    (hk : ((start s).run as₁).cursors[i]? = some k) :
    (((start s).run as₁).after a).cursors[i]? = some k := by
  obtain ⟨-, q, hq, rfl⟩ := taken?_eq_some.mp ha
  have hown : a.cursor? ≠ some i ∧ a.frame? = none ∧
      ∀ u, a.Ends ((start s).run as₁) u → u = ((start s).run as₁).tokens.next := by
    cases a with
    | query | noreplyWait => exact ⟨by simp [Action.cursor?], rfl, fun _ h => h⟩
    | _ => cases hq
  obtain ⟨k', hk', hbystander⟩ := bystander_after hk hown.1 hown.2.1
  cases hbystander with
  | same => exact hk'
  | displaced hend =>
    have hne := token_ne_of_taken? hfew ha k (List.mem_of_getElem? hk)
    exact absurd ((hown.2.2 _ hend).trans (token_of_taken? ha).symm) hne
  | lost e hc =>
    rw [ho] at hc
    cases hc

/-- The connection waits under a token for as long as the request that took it was written, wants
an answer and is not over. -/
theorem isRegistered_iff_awaited (hfew : ((start s).taken (as₁ ++ a :: as₂)).length < 2 ^ 64)
    (ha : ((start s).run as₁).taken? a = some t) :
    let c := (start s).run as₁
    ((start s).run (as₁ ++ a :: as₂)).isRegistered t = true ↔
      ((start s).run (as₁ ++ a :: as₂)).closed = false ∧ a.isNoreply = false ∧
        (c.act a).1 = .done none ∧
        ∀ v ∈ (c.after a).history c.cursors.length as₂, v.isOver = false := by
  intro c
  constructor
  · intro hr
    obtain ⟨k, hmem, hk⟩ := List.any_eq_true.mp hr
    obtain ⟨j, hj⟩ := List.mem_iff_getElem?.mp hmem
    simp only [Bool.and_eq_true, beq_iff_eq] at hk
    obtain ⟨rfl, k₀, c₁, hasked⟩ := asked_of_token hfew ha hj hk.2
    obtain ⟨ho, hawaits⟩ := (registered_iff hj).mp hk.1
    rw [history_of_asked hasked rfl, Cursor.awaits_asked] at hawaits
    exact ⟨ho, hawaits.1, hasked.reply, hawaits.2⟩
  · rintro ⟨ho, hnoreply, hreply, hall⟩
    obtain ⟨-, q, hq, -⟩ := taken?_eq_some.mp ha
    rcases request_cases _ hq with ⟨-, e, he⟩ | ⟨k₀, c₁, hasked⟩
    · rw [hreply] at he
      cases he
    · obtain ⟨k, hk, hsteps⟩ := steps_run as₂ hasked.getElem?_length hasked.new.sound
      rw [← run_cons, ← run_append] at hk
      have hr : k.registered = true := by
        rw [registered_iff hk, history_of_asked hasked rfl, Cursor.awaits_asked]
        exact ⟨ho, hnoreply, hall⟩
      have ht : k.token = t := by
        rw [hsteps.token_eq, hasked.new.token, token_of_taken? ha]
      exact List.any_eq_true.mpr ⟨k, List.mem_of_getElem? hk, by simp [hr, ht]⟩

/-- The token `t`, which the action `a` takes after `as₁`, serves the request of this action and
nothing else, then and when `as₂` have followed. -/
structure Reserved (s : Settings) (as₁ : List Action) (a : Action) (as₂ : List Action)
    (t : Token) : Prop where
  /-- Nobody has the token yet, so that registering the query overwrites nothing. -/
  fresh : ∀ k ∈ ((start s).run as₁).cursors, k.token ≠ t
  kept : (((start s).run as₁).after a).closed = false →
    ∀ (i : CursorId) (k : Cursor), ((start s).run as₁).cursors[i]? = some k →
      (((start s).run as₁).after a).cursors[i]? = some k
  /-- The request that is written and the cursor that is given have the token. -/
  given : (((start s).run as₁).act a).1 = .done none → ∃ q k,
    a.request? ((start s).run as₁) = some q ∧ q.token = t ∧
    (((start s).run as₁).after a).written = ((start s).run as₁).written ++ [q] ∧
    (((start s).run as₁).after a).cursors[((start s).run as₁).cursors.length]? = some k ∧
    k.token = t
  /-- The token is registered as long as the query is unfinished, open and held. -/
  awaited : ((start s).run (as₁ ++ a :: as₂)).isRegistered t = true ↔
    ((start s).run (as₁ ++ a :: as₂)).closed = false ∧ a.isNoreply = false ∧
      (((start s).run as₁).act a).1 = .done none ∧
      ∀ v ∈ (((start s).run as₁).after a).history ((start s).run as₁).cursors.length as₂,
        v.isOver = false
  /-- It is never registered again. -/
  gone : ∀ bs cs, as₂ = bs ++ cs → ((start s).run (as₁ ++ a :: bs)).isRegistered t = false →
    ((start s).run (as₁ ++ a :: as₂)).isRegistered t = false
  /-- A late answer changes nothing at all. -/
  discarded : ((start s).run (as₁ ++ a :: as₂)).isRegistered t = false → ∀ f : Frame, f.token = t →
    ((start s).run (as₁ ++ a :: as₂)).after (.report (.frame f)) =
      (start s).run (as₁ ++ a :: as₂)
  /-- No answer under the token reaches another cursor. -/
  others : ∀ f : Frame, f.token = t → ∀ j ≠ ((start s).run as₁).cursors.length,
    (((start s).run (as₁ ++ a :: as₂)).after (.report (.frame f))).cursors[j]? =
      ((start s).run (as₁ ++ a :: as₂)).cursors[j]?

theorem given_of_taken? (ha : ((start s).run as₁).taken? a = some t)
    (hreply : (((start s).run as₁).act a).1 = .done none) : ∃ q k,
    a.request? ((start s).run as₁) = some q ∧ q.token = t ∧
    (((start s).run as₁).after a).written = ((start s).run as₁).written ++ [q] ∧
    (((start s).run as₁).after a).cursors[((start s).run as₁).cursors.length]? = some k ∧
    k.token = t := by
  obtain ⟨-, q, hq, hqt⟩ := taken?_eq_some.mp ha
  rcases request_cases _ hq with ⟨-, e, he⟩ | ⟨k, c₁, hasked⟩
  · rw [hreply] at he
    cases he
  · obtain ⟨q', hq', hwritten⟩ := hasked.written
    obtain rfl := Option.some.inj (hq.symm.trans hq')
    refine ⟨q, k, hq, hqt, ?_, hasked.getElem?_length, ?_⟩
    · rw [hasked.after]
      exact hwritten
    · rw [hasked.new.token, token_of_taken? ha]

theorem reserved_of_taken? (hfew : ((start s).taken (as₁ ++ a :: as₂)).length < 2 ^ 64)
    (ha : ((start s).run as₁).taken? a = some t) : Reserved s as₁ a as₂ t := by
  have hbefore : ((start s).taken as₁).length < 2 ^ 64 :=
    Nat.lt_of_le_of_lt ((start s).length_taken_mono as₁ _) hfew
  refine {
    fresh := token_ne_of_taken? hbefore ha
    kept := fun ho _ _ hk => others_kept hbefore ha ho hk
    given := given_of_taken? ha
    awaited := isRegistered_iff_awaited hfew ha
    gone := ?gone
    discarded := fun hnot f hf => route_eq_self (hf ▸ hnot)
    others := ?others }
  case gone =>
    rintro bs cs rfl hnot
    have happend : as₁ ++ a :: (bs ++ cs) = (as₁ ++ a :: bs) ++ cs := by simp
    have hfew' : ((start s).taken (as₁ ++ a :: bs)).length < 2 ^ 64 := by
      rw [happend] at hfew
      exact Nat.lt_of_le_of_lt ((start s).length_taken_mono _ cs) hfew
    refine Bool.eq_false_iff.mpr fun hr => ?_
    obtain ⟨ho, hnoreply, hreply, hall⟩ := (isRegistered_iff_awaited hfew ha).mp hr
    rw [happend, run_append] at ho
    have hearlier := (isRegistered_iff_awaited hfew' ha).mpr
      ⟨open_of_run ho, hnoreply, hreply, fun v hv => hall v ?_⟩
    · rw [hnot] at hearlier
      cases hearlier
    · rw [history_append]
      exact List.mem_append_left _ hv
  case others =>
    intro f hf j hj
    change (((start s).run (as₁ ++ a :: as₂)).route f).cursors[j]? = _
    cases hk : ((start s).run (as₁ ++ a :: as₂)).cursors[j]? with
    | none => simp only [route, List.getElem?_map, hk, Option.map_none]
    | some k =>
      have hne : k.token ≠ f.token := fun h => hj (asked_of_token hfew ha hk (h.trans hf)).1
      rw [getElem?_route f hk, Cursor.receive, if_neg fun h => hne h.2]

/-- As long as tokens do not wrap around, requests take the tokens from one on in order, whether
they are written or not, and each token serves its request alone. What arrives under it once the
query is over, or if none was to be answered, is discarded. -/
theorem tokens_never_reused (s : Settings) (as : List Action)
    (hfew : ((start s).taken as).length < 2 ^ 64) :
    ((start s).taken as).map UInt64.toNat = List.range' 1 ((start s).taken as).length ∧
      ∀ as₁ a as₂ t, as = as₁ ++ a :: as₂ → ((start s).run as₁).taken? a = some t →
        Reserved s as₁ a as₂ t := by
  constructor
  · have heq := (numbered_start s).taken_eq as
    have hnat : ∀ m ∈ List.range' 1 ((start s).taken as).length,
        (UInt64.toNat ∘ UInt64.ofNat) m = m := by
      intro m hm
      have hle := (List.mem_range'_1.mp hm).2
      rw [Function.comp_apply, UInt64.toNat_ofNat', Nat.mod_eq_of_lt (by omega)]
    rw [heq, List.length_map, List.length_range', List.map_map, List.map_congr_left hnat,
      List.map_id']
  · rintro as₁ a as₂ t rfl ha
    exact reserved_of_taken? hfew ha

/-- The second of three requests is too long to be written. -/
theorem tokens_never_reused_refused :
    let s : Settings := { (default : Settings) with maxFrameSize := 16 }
    let short : Action := .query (.ofString "ok") default false
    let long : Action := .query (.ofString "no room for it") default false
    let as := [short, long, .noreplyWait]
    ((start s).taken as).length < 2 ^ 64 ∧ (start s).taken as = [1, 2, 3] ∧
      ((start s).run as).cursors.map (·.token) = [1, 3] ∧
      ((start s).taken as).map UInt64.toNat = List.range' 1 ((start s).taken as).length ∧
      Reserved s [short] long [.noreplyWait] 2 := by
  intro s short long as
  have htaken : (start s).taken as = [1, 2, 3] := by decide +kernel
  have hfew : ((start s).taken as).length < 2 ^ 64 := by
    rw [htaken]
    decide
  obtain ⟨hnumbers, hreserved⟩ := tokens_never_reused s as hfew
  exact ⟨hfew, htaken, by decide +kernel, hnumbers,
    hreserved [short] long [.noreplyWait] 2 rfl (by decide +kernel)⟩

end Reql.Connection
