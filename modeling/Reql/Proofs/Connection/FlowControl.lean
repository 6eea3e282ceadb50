import Reql.Proofs.Connection.Draining
import Reql.Proofs.Connection.Numbering
import Reql.Proofs.Connection.Orderly
import Reql.Proofs.Cursor.Flow

/-! Requests for more keep in step with the answers, if each call is carried out in one piece. -/
namespace Reql.Connection

open Cursor (Event Step Steps due)

def framesUnder (t : Token) (as : List Action) : List Frame :=
  (as.filterMap Action.frame?).filter (·.token == t)

/-- Whether an action brings a batch under a token for which somebody waits. -/
def bringsBatch (c : Connection) (t : Token) (a : Action) : Bool :=
  match a.frame? with
  | some f => f.token == t && f.isBatch && c.isRegistered t
  | none => false

def batchesUnder (c : Connection) (t : Token) : List Action → Nat
  | [] => 0
  | a :: as => (c.bringsBatch t a).toNat + (c.after a).batchesUnder t as

def continuesUnder (c : Connection) (t : Token) : Nat :=
  c.written.countP fun q => q.token == t && q.type == .continue

/-- The number of requests written under a token that are to be answered. -/
def requestsUnder (c : Connection) (t : Token) : Nat :=
  c.written.countP fun q => q.token == t && (q.isOpening || q.type == .continue)

def queriesUnder (c : Connection) (t : Token) : Nat :=
  (c.cursors.map (·.token)).count t

/-- The number of cursors with a token that would ask for more. -/
def readyUnder (c : Connection) (t : Token) : Nat :=
  c.cursors.countP fun k => k.token == t && k.ready

section Counting

variable {p : Cursor → Bool} {l l' : List Cursor} {j : Nat}

theorem countP_le_of_before (h : ∀ (i : Nat) (k' : Cursor), l'[i]? = some k' → p k' = true →
    ∃ k, l[i]? = some k ∧ p k = true) : l'.countP p ≤ l.countP p := by
  induction l' generalizing l with
  | nil => exact Nat.zero_le _
  | cons m' l' ih =>
    cases l with
    | nil =>
      refine Nat.le_of_eq (List.countP_eq_zero.mpr fun k' hk' hp => ?_)
      obtain ⟨i, hi⟩ := List.mem_iff_getElem?.mp hk'
      obtain ⟨k, hk, -⟩ := h i k' hi hp
      cases hk
    | cons m l =>
      have htail := ih (l := l) fun i k' hk' => h (i + 1) k' hk'
      have hhead : p m' = true → p m = true := fun hp => by
        obtain ⟨k, hk, hpk⟩ := h 0 m' rfl hp
        rwa [Option.some.inj hk]
      rw [List.countP_cons, List.countP_cons]
      cases hm' : p m' with
      | false =>
        simp only [Bool.false_eq_true, if_false]
        omega
      | true =>
        rw [hhead hm']
        simp only [if_true]
        omega

theorem countP_eraseIdx (p : Cursor → Bool) (l : List Cursor) (j : Nat) :
    (l.eraseIdx j).countP p + (l[j]?.any p).toNat = l.countP p := by
  induction l generalizing j with
  | nil => rfl
  | cons m l ih =>
    rw [List.countP_cons]
    cases j with
    | zero =>
      rw [List.eraseIdx_cons_zero, List.getElem?_cons_zero, Option.any_some]
      cases p m <;> rfl
    | succ j =>
      have htail := ih j
      rw [List.eraseIdx_cons_succ, List.getElem?_cons_succ, List.countP_cons]
      omega

/-- With the exception of one place, at which `p` may begin to hold or cease to. -/
theorem countP_le_of_before_ne (h : ∀ (i : Nat) (k' : Cursor), i ≠ j → l'[i]? = some k' →
    p k' = true → ∃ k, l[i]? = some k ∧ p k = true) :
    l'.countP p + (l[j]?.any p).toNat ≤ l.countP p + (l'[j]?.any p).toNat := by
  have hrest : (l'.eraseIdx j).countP p ≤ (l.eraseIdx j).countP p := by
    refine countP_le_of_before fun i k' hk' hp => ?_
    rw [List.getElem?_eraseIdx] at hk' ⊢
    by_cases hi : i < j
    · rw [if_pos hi] at hk' ⊢
      exact h i k' (Nat.ne_of_lt hi) hk' hp
    · rw [if_neg hi] at hk' ⊢
      exact h (i + 1) k' (by omega) hk' hp
  have hl := countP_eraseIdx p l j
  have hl' := countP_eraseIdx p l' j
  omega

end Counting

variable {c : Connection} {a : Action} {as : List Action} {i : CursorId} {k : Cursor} {t : Token}

theorem not_ready_of_new {noreply : Bool} (hk : k.New t noreply) : k.ready = false := by
  unfold Cursor.ready
  rw [hk.inbox]
  cases noreply <;> rfl

theorem isBatch_ofFrame (f : Frame) : (Event.ofFrame f).isBatch = f.isBatch := by
  unfold Event.ofFrame Frame.isBatch
  cases Response.decode f.token f.payload with
  | ok r => rfl
  | error e => rfl

/-- A cursor that is ready was so before, or a batch has just been delivered to it. -/
theorem Orderly.ready_cases (h : Orderly c) (hk : (c.after a).cursors[i]? = some k)
    (hr : k.ready = true) : ∃ l, c.cursors[i]? = some l ∧ l.token = k.token ∧
      (l.ready = true ∨ c.bringsBatch k.token a = true ∧ c.holder? k.token = some i) := by
  rcases before_or_asked hk with ⟨l, hl, ht, -⟩ | ⟨-, c₁, ha⟩
  · refine ⟨l, hl, ht.symm, ?_⟩
    obtain ⟨k', hk', hs⟩ := steps_after a hl (h.sound i l hl)
    obtain rfl := Option.some.inj (hk.symm.trans hk')
    rcases hs.ready (h.sound i l hl) hr with hl' | ⟨v, hv, hb⟩
    · exact Or.inl hl'
    · right
      cases arises_of_mem hv with
      | next k₁ v hk₁ hv hread => cases v <;> cases hread <;> cases hb
      | frame f l' v hl' hlr hlt hv harr =>
        obtain rfl := Option.some.inj (hl.symm.trans hl')
        have hheld := h.holder?_eq_some.mpr ⟨l, hl, hlr, ht.symm⟩
        refine ⟨?_, hheld⟩
        rw [hv, isBatch_ofFrame] at hb
        simp only [bringsBatch, Action.frame?, Bool.and_eq_true, beq_iff_eq]
        exact ⟨⟨hlt.symm.trans ht.symm, hb⟩, by rw [isRegistered_eq_isSome, hheld]; rfl⟩
      | prime | closeCursor | dropCursor | lost | displaced | asked => cases hb
  · rw [not_ready_of_new ha.new] at hr
    cases hr

theorem Orderly.ready_after (h : Orderly c) (a : Action) :
    (c.after a).readyUnder t ≤ c.readyUnder t + (c.bringsBatch t a).toNat := by
  unfold readyUnder
  cases hb : c.bringsBatch t a with
  | false =>
    refine countP_le_of_before fun i k' hk' hp => ?_
    simp only [Bool.and_eq_true, beq_iff_eq] at hp
    obtain ⟨l, hl, ht, hr | ⟨hb', -⟩⟩ := h.ready_cases hk' hp.2
    · exact ⟨l, hl, by simp [ht, hp.1, hr]⟩
    · rw [hp.1, hb] at hb'
      cases hb'
  | true =>
    -- Only the holder can become ready.
    have hle : (c.after a).cursors.countP (fun k => k.token == t && k.ready) +
        _ ≤ _ := countP_le_of_before_ne (l := c.cursors) (j := (c.holder? t).getD 0)
      fun i k' hi hk' hp => by
        simp only [Bool.and_eq_true, beq_iff_eq] at hp
        obtain ⟨l, hl, ht, hr | ⟨-, hheld⟩⟩ := h.ready_cases hk' hp.2
        · exact ⟨l, hl, by simp [ht, hp.1, hr]⟩
        · rw [hp.1] at hheld
          rw [hheld] at hi
          exact absurd rfl hi
    refine Nat.le_trans (Nat.le_trans (Nat.le_add_right _ _) hle) (Nat.add_le_add_left ?_ _)
    exact Bool.toNat_le _

/-- Whoever asks for more was ready and is not any more. -/
theorem Orderly.ready_fetched (h : Orderly c) (hk : c.cursors[i]? = some k)
    (hread : Event.ofRead k.inbox.step.1 (c.next? i).1 = .fetched) :
    (c.after (.next i)).readyUnder k.token + 1 ≤ c.readyUnder k.token := by
  obtain ⟨k', hk', hs⟩ := step_next hk
  rw [hread] at hs
  obtain ⟨hready, hnot⟩ := hs.ready_of_fetched
  have hle := countP_le_of_before_ne (p := fun l => l.token == k.token && l.ready)
    (l := c.cursors) (j := i) fun j l hj hl hp => by
      simp only [Bool.and_eq_true, beq_iff_eq] at hp
      obtain ⟨m, hm, ht, hr | ⟨hb, -⟩⟩ := h.ready_cases (a := .next i) hl hp.2
      · exact ⟨m, hm, by simp [ht, hp.1, hr]⟩
      · cases hb
  have hafter : (c.after (.next i)).cursors[i]? = some k' := hk'
  rw [hk, hafter] at hle
  simpa [hready, hnot, readyUnder] using hle

/-- A request for more is written only because it is asked for explicitly, or because a cursor asks
for it. -/
theorem continuesUnder_after (c : Connection) (a : Action) (t : Token) :
    (c.after a).continuesUnder t = c.continuesUnder t ∨
      (c.after a).continuesUnder t = c.continuesUnder t + 1 ∧ (a = .continueQuery t ∨
        ∃ i k, a = .next i ∧ c.cursors[i]? = some k ∧ k.token = t ∧
          Event.ofRead k.inbox.step.1 (c.next? i).1 = .fetched) := by
  unfold continuesUnder
  have h := c.requests_after a
  generalize (c.after a).tokens = tokens, (c.after a).written = written at h ⊢
  cases h with
  | quiet | refused => exact Or.inl rfl
  | asked _ q hq =>
    left
    cases a with
    | query | noreplyWait =>
      obtain rfl := Option.some.inj hq
      simp [startOf, Query.start, Query.bare]
    | _ => cases hq
  | stopped _ s =>
    left
    simp [Query.bare]
  | fetched i k hk hread =>
    by_cases ht : k.token = t
    · right
      exact ⟨by simp [Query.bare, ht], Or.inr ⟨i, k, rfl, hk, ht, hread⟩⟩
    · left
      simp [Query.bare, ht]
  | continued s =>
    by_cases ht : s = t
    · right
      exact ⟨by simp [Query.bare, ht], Or.inl (by rw [ht])⟩
    · left
      simp [Query.bare, ht]

/-- A request for more uses up a batch. -/
theorem Orderly.continues_after (h : Orderly c) (ha : a ≠ .continueQuery t) :
    (c.after a).continuesUnder t + (c.after a).readyUnder t ≤
      c.continuesUnder t + c.readyUnder t + (c.bringsBatch t a).toNat := by
  have hready := h.ready_after (t := t) a
  rcases c.continuesUnder_after a t with hc | ⟨hc, rfl | ⟨i, k, rfl, hk, rfl, hread⟩⟩
  · omega
  · exact absurd rfl ha
  · have hfetched := h.ready_fetched hk hread
    omega

theorem Orderly.continues_run (h : Orderly c) (ha : .continueQuery t ∉ as) :
    (c.run as).continuesUnder t + (c.run as).readyUnder t ≤
      c.continuesUnder t + c.readyUnder t + c.batchesUnder t as := by
  induction as generalizing c with
  | nil => exact Nat.le_refl _
  | cons a as ih =>
    have hstep := h.continues_after (a := a) (t := t) fun he => ha (he ▸ List.mem_cons_self)
    have hrun := ih (h.after a) fun hm => ha (List.mem_cons_of_mem _ hm)
    rw [run_cons, batchesUnder]
    omega

theorem toNat_bringsBatch_le (c : Connection) (t : Token) (a : Action) :
    (c.bringsBatch t a).toNat ≤ (framesUnder t [a]).countP (·.isBatch) := by
  unfold bringsBatch framesUnder
  cases hf : a.frame? with
  | none => simp
  | some f =>
    by_cases ht : f.token = t <;> cases hb : f.isBatch <;> simp [hf, ht, hb, Bool.toNat_le]

theorem framesUnder_append (t : Token) (as bs : List Action) :
    framesUnder t (as ++ bs) = framesUnder t as ++ framesUnder t bs := by
  rw [framesUnder, List.filterMap_append, List.filter_append]
  rfl

/-- Only what arrives can be delivered. -/
theorem batchesUnder_le (c : Connection) (t : Token) (as : List Action) :
    c.batchesUnder t as ≤ (framesUnder t as).countP (·.isBatch) := by
  induction as generalizing c with
  | nil => exact Nat.zero_le _
  | cons a as ih =>
    have hhead := toNat_bringsBatch_le c t a
    have htail := ih (c.after a)
    have hsplit : framesUnder t (a :: as) = framesUnder t [a] ++ framesUnder t as :=
      framesUnder_append t [a] as
    rw [hsplit, List.countP_append, batchesUnder]
    omega

/-- Requests that begin queries have been written for the cursors, in order. -/
def Opened (c : Connection) : Prop :=
  (c.written.filter (·.isOpening)).map (·.token) = c.cursors.map (·.token)

theorem Opened.after (h : Opened c) (a : Action) : Opened (c.after a) := by
  unfold Opened at h ⊢
  rcases c.after_cases a with hs | ⟨k, c₁, ha⟩
  · have hwritten : (c.after a).written.filter (·.isOpening) =
        c.written.filter (·.isOpening) := by
      have hr := c.requests_after a
      generalize (c.after a).tokens = tokens, (c.after a).written = written at hr ⊢
      cases hr with
      | quiet | refused => rfl
      | asked _ q _ hlen =>
        rw [hs.length] at hlen
        omega
      | fetched | continued | stopped => simp [Query.isOpening, Query.bare]
    rw [hwritten, hs.map_token, h]
  · obtain ⟨q, hq, hw⟩ := ha.written
    obtain ⟨hopening, ht⟩ := opening_of_request? hq
    have hwritten : (c.after a).written = c.written ++ [q] := by rw [ha.after]; exact hw
    rw [hwritten, ha.map_token, List.filter_append, List.map_append, h]
    simp [hopening, ht]

/-- A request to be answered begins a query or asks for more of it. -/
theorem Opened.requestsUnder (h : Opened c) (t : Token) :
    c.requestsUnder t = c.queriesUnder t + c.continuesUnder t := by
  have hopening : c.queriesUnder t = c.written.countP fun q => q.token == t && q.isOpening := by
    rw [queriesUnder, ← h, List.count, List.countP_map, List.countP_filter]
    rfl
  rw [hopening, Connection.requestsUnder, continuesUnder]
  induction c.written with
  | nil => rfl
  | cons q qs ih =>
    rw [List.countP_cons, List.countP_cons, List.countP_cons, ih]
    obtain ⟨token, type, term, options⟩ := q
    cases type <;> cases token == t <;> simp [Query.isOpening] <;> omega

theorem opened_run (s : Settings) (as : List Action) : Opened ((start s).run as) :=
  run_induction (fun _ a h => h.after a) (show Opened (start s) from rfl) as

theorem flow_run (s : Settings) (hk : ((start s).run as).cursors[i]? = some k) :
    k.Flow ((start s).history i as) := by
  obtain ⟨t, noreply, h, k₀, hnew, hh, hs⟩ := steps_of_none (start_none s i) hk
  rw [hh]
  exact hnew.flow.steps hs

/-- A cursor asks for more only when that is due. -/
theorem continue_due (s : Settings) (ha : a ≠ .continueQuery t)
    (hc : (((start s).run as).after a).continuesUnder t ≠ ((start s).run as).continuesUnder t) :
    (((start s).run as).after a).continuesUnder t = ((start s).run as).continuesUnder t + 1 ∧
      ∃ i k, a = .next i ∧ ((start s).run as).cursors[i]? = some k ∧ k.token = t ∧
        k.inbox.buffer = [] ∧ (∀ v ∈ (start s).history i as, v.isPlain = true) ∧
        due ((start s).history i as) = true := by
  rcases continuesUnder_after ((start s).run as) a t with
    h | ⟨h, rfl | ⟨i, k, rfl, hk, ht, hread⟩⟩
  · exact absurd h hc
  · exact absurd rfl ha
  · obtain ⟨k', -, hs⟩ := step_next hk
    rw [hread] at hs
    obtain ⟨inbox, hstep⟩ : ∃ inbox, k.inbox.step = (.fetch, inbox) := by
      cases hs with
      | fetched inbox hstep => exact ⟨inbox, hstep⟩
    obtain ⟨hb, hdue, hplain⟩ := (flow_run s hk).of_fetch hstep
    exact ⟨h, i, k, rfl, hk, ht, hb, hplain, hdue⟩

/-- No more requests for more are written than batches are delivered. -/
theorem continuesUnder_le (s : Settings) (hno : .continueQuery t ∉ as) :
    ((start s).run as).continuesUnder t ≤ (start s).batchesUnder t as := by
  have h := (orderly_start s).continues_run (t := t) hno
  have hwritten : (start s).continuesUnder t = 0 := rfl
  have hready : (start s).readyUnder t = 0 := rfl
  omega

/-- Of the requests under a token, no more are unanswered than there are queries with it. -/
theorem requestsUnder_le (s : Settings) (hno : .continueQuery t ∉ as) :
    ((start s).run as).requestsUnder t ≤
      (framesUnder t as).length + ((start s).run as).queriesUnder t := by
  have hrequests := (opened_run s as).requestsUnder t
  have hcontinues := continuesUnder_le s hno
  have hbatches := batchesUnder_le (start s) t as
  have hframes : (framesUnder t as).countP (·.isBatch) ≤ (framesUnder t as).length :=
    List.countP_le_length
  omega

/-- A query that is answered by batches and then by a last frame, each of them the answer to a
request, asks for more once for each batch. -/
theorem continuesUnder_eq (s : Settings) (hno : .continueQuery t ∉ as) {bs : List Frame}
    {g : Frame} (hframes : framesUnder t as = bs ++ [g]) (hg : g.isBatch = false)
    (hone : ((start s).run as).queriesUnder t ≤ 1)
    (hserver : (framesUnder t as).length ≤ ((start s).run as).requestsUnder t) :
    ((start s).run as).continuesUnder t = bs.length := by
  have hrequests := (opened_run s as).requestsUnder t
  have hcontinues := continuesUnder_le s hno
  have hbatches := batchesUnder_le (start s) t as
  have hlast : (bs ++ [g]).countP (·.isBatch) ≤ bs.length := by
    rw [List.countP_append, List.countP_singleton, hg]
    exact List.countP_le_length
  rw [hframes] at hbatches hserver
  rw [List.length_append, List.length_singleton] at hserver
  omega

/-- Requests for more keep in step with the answers, as long as nobody makes them explicitly. One
is written only when its cursor has nothing to hand out, nothing final has happened to it, and a
batch has arrived since the request before; and nobody waits without a request that is unanswered.
So there are no more of them than batches. If the server answers each request once, then at most
one for each query is unanswered, where queries have tokens of their own until these wrap around;
and a query asks for more exactly once for each batch, down to its end. This is about calls that
nothing interrupts: one that is given up or overtaken while it waits for the writer may leave its
request out, or write it too late. -/
theorem continuation_flow (s : Settings) (t : Token) (as : List Action)
    (hno : .continueQuery t ∉ as) :
    let c := (start s).run as
    (∀ a, a ≠ .continueQuery t → (c.after a).continuesUnder t ≠ c.continuesUnder t →
      (c.after a).continuesUnder t = c.continuesUnder t + 1 ∧
      ∃ i k, a = .next i ∧ c.cursors[i]? = some k ∧ k.token = t ∧ k.inbox.buffer = [] ∧
        (∀ v ∈ (start s).history i as, v.isPlain = true) ∧
        ∃ h₁ r h₂, (start s).history i as = h₁ ++ .answered r :: h₂ ∧ r.body.isBatch = true ∧
          .fetched ∉ h₂) ∧
    (∀ i k, c.cursors[i]? = some k → k.inbox.step.1 = .wait →
      due ((start s).history i as) = false) ∧
    c.continuesUnder t ≤ (start s).batchesUnder t as ∧
    c.requestsUnder t ≤ (framesUnder t as).length + c.queriesUnder t ∧
    (as.length < 2 ^ 64 → c.queriesUnder t ≤ 1) ∧
    (∀ bs g, framesUnder t as = bs ++ [g] → g.isBatch = false → c.queriesUnder t ≤ 1 →
      (framesUnder t as).length ≤ c.requestsUnder t → c.continuesUnder t = bs.length) ∧
    ∀ term options exclusive id c', c.query term options exclusive = (.ok id, c') →
      options.isNoreply = false → c'.writer.Works → ∀ bs g,
      (∀ f ∈ bs, f.token = c.tokens.next ∧ f.isBatch = true) → g.token = c.tokens.next →
      g.isBatch = false → ∃ d, c'.drain id (bs ++ [g]) (.all []) =
        (.inl (g.outcome (bs.flatMap Frame.values)), d) ∧
        d.written = c'.written ++ List.replicate bs.length (.bare c.tokens.next .continue) := by
  intro c
  refine ⟨fun a ha hc => ?_, fun i k hk hwait => ?_, continuesUnder_le s hno,
    requestsUnder_le s hno, fun hlen => ?_, fun bs g hframes hg hone hserver => ?_,
    fun term options exclusive id c' hq hreply hw bs g hbs hgt hg => ?_⟩
  · obtain ⟨h, i, k, hnext, hk, ht, hb, hplain, hdue⟩ := continue_due s ha hc
    exact ⟨h, i, k, hnext, hk, ht, hb, hplain, Cursor.due_iff.mp hdue⟩
  · exact (flow_run s hk).of_wait (Prod.ext hwait rfl)
  · exact List.nodup_iff_count.mp (nodup_run s hlen).1 t
  · exact continuesUnder_eq s hno hframes hg hone hserver
  · exact (reading_of_query hq hreply hw).drain hbs hgt hg []

/-- A query answered by an empty batch, a batch of one value and an empty last answer. -/
theorem continuation_flow_batches :
    let empty : Frame := ⟨1, Bytes.ofString "\x7b\"t\":3,\"r\":[]\x7d"⟩
    let batch : Frame := ⟨1, Bytes.ofString "\x7b\"t\":3,\"r\":[\"a\"]\x7d"⟩
    let last : Frame := ⟨1, Bytes.ofString "\x7b\"t\":2,\"r\":[]\x7d"⟩
    let c' := ((start default).query .anything default false).2
    .continueQuery 1 ∉ ([] : List Action) ∧
      ∃ d, c'.drain 0 [empty, batch, last] (.all []) = (.inl (.values [.str "a"]), d) ∧
        d.written = c'.written ++ [.bare 1 .continue, .bare 1 .continue] := by
  intro empty batch last c'
  have hno : .continueQuery 1 ∉ ([] : List Action) := List.not_mem_nil
  obtain ⟨-, -, -, -, -, -, hdrain⟩ := continuation_flow default 1 [] hno
  have hq : (start default).query .anything default false = (.ok 0, c') := rfl
  have hbs : ∀ f ∈ [empty, batch], f.token = 1 ∧ f.isBatch = true := by decide +kernel
  have h := hdrain _ _ _ _ _ hq rfl ⟨rfl, rfl⟩ [empty, batch] last hbs rfl (by decide +kernel)
  exact ⟨hno, h⟩

end Reql.Connection
