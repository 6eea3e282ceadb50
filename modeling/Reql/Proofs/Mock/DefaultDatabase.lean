import Reql.Proofs.Connection.Requests
import Reql.Proofs.Mock.Caller
import Reql.Proofs.Mock.Service
import Reql.Proofs.Term.Agreement

/-! A live connection and a mock fill in the default database alike. -/
namespace Reql

theorem Fields.Sorted.nodup {α : Type} {fs : Fields α} (h : Sorted fs) : fs.Nodup := by
  refine h.imp fun hlt heq => ?_
  rw [heq] at hlt
  exact String.lt_irrefl _ hlt

/-- Sorted fields in which every name has the same value are the same. -/
theorem Fields.Sorted.ext {α : Type} {fs gs : Fields α} (hf : Sorted fs) (hg : Sorted gs)
    (h : ∀ name, get? name fs = get? name gs) : fs = gs := by
  have hmem (p : String × α) : p ∈ fs ↔ p ∈ gs :=
    ⟨fun hp => mem_of_get? ((h p.1).symm.trans (get?_of_mem hf hp)),
      fun hp => mem_of_get? ((h p.1).trans (get?_of_mem hg hp))⟩
  have hperm : fs.Perm gs := (List.perm_ext_iff_of_nodup hf.nodup hg.nodup).mpr hmem
  exact hperm.eq_of_pairwise (fun _ _ _ _ hlt hgt => (String.lt_asymm hlt hgt).elim) hf hg

namespace QueryOptions

variable {o p : QueryOptions} {db : String}

theorem ext_get? (h : ∀ name, o.get? name = p.get? name) : o = p := by
  have hentries : o.entries = p.entries := o.sorted.ext p.sorted h
  obtain ⟨fs, hf⟩ := o
  obtain ⟨gs, hg⟩ := p
  cases hentries
  rfl

/-- A default fills in a database that is not named, and nothing else. -/
theorem get?_withDefaultDb (o : QueryOptions) (db : Option String) (name : String) :
    (o.withDefaultDb db).get? name =
      if name = "db" then (o.get? "db").or (db.map .db) else o.get? name := by
  cases db with
  | none =>
    rw [withDefaultDb, Option.map_none, Option.or_none]
    split
    next hname => rw [hname]
    · rfl
  | some db =>
    cases hdb : o.get? "db" with
    | some value =>
      have hcontains : o.contains "db" = true := congrArg Option.isSome hdb
      rw [withDefaultDb, if_pos hcontains, Option.some_or]
      split
      next hname => rw [hname, hdb]
      · rfl
    | none =>
      have hcontains : ¬o.contains "db" = true := by
        rw [show o.contains "db" = (o.get? "db").isSome from rfl, hdb]
        decide
      rw [withDefaultDb, if_neg hcontains, Option.none_or, Option.map_some]
      split
      next hname =>
        rw [hname]
        exact Fields.get?_insert_self _ _ _
      next hname => exact Fields.get?_insert_of_ne _ _ hname

/-- To name the default database is to leave it out. -/
theorem withDefaultDb_eq_of_named (ho : o.get? "db" = none) (hp : p.get? "db" = some (.db db))
    (h : ∀ name, name ≠ "db" → p.get? name = o.get? name) :
    p.withDefaultDb (some db) = o.withDefaultDb (some db) := by
  refine ext_get? fun name => ?_
  rw [get?_withDefaultDb, get?_withDefaultDb, ho, hp]
  split
  · rfl
  next hname => exact h name hname

end QueryOptions

namespace Connection

theorem database_after (c : Connection) (a : Action) : (c.after a).database = c.database := by
  rcases c.after_cases a with hs | ⟨k, c₁, hasked⟩
  · exact hs.database
  · rw [hasked.after]
    exact hasked.spares.database

theorem database_run (s : Settings) (as : List Action) :
    ((start s).run as).database = s.database :=
  run_induction (P := fun c => c.database = s.database)
    (fun c a h => (c.database_after a).trans h) rfl as

/-- A query writes its request or nothing. -/
theorem query_written (c : Connection) (term : Term) (options : QueryOptions) (exclusive : Bool) :
    (c.query term options exclusive).2.written =
      c.written ++ sent (c.startOf term options) (errorOf (c.query term options exclusive).1) := by
  cases ho : c.closed with
  | true =>
    simp only [query, ho, if_true]
    exact (List.append_nil _).symm
  | false =>
    rcases c.query_cases (O := fun _ => True) term options exclusive rfl ho with
      ⟨e, he, -, -, hw⟩ | ⟨c₁, k, hr, -, -, -, hw, -⟩
    · rw [hw, he]
      exact (List.append_nil _).symm
    · rw [hr]
      exact hw

end Connection

namespace Mock

/-- Under the settings `s`, a query with the options `o` is one with the options `filled` for a
live connection, and wherever a mock comes to deal with it. -/
structure Fills (s : Settings) (term : Term) (o filled : QueryOptions) : Prop where
  /-- A live connection writes the filled options, if it writes the query. -/
  live : ∀ as exclusive, let c := (Connection.start s).run as
    let r := c.query term o exclusive
    let qs := Connection.sent (.start c.tokens.next term filled) (Connection.errorOf r.1)
    r.2.written = c.written ++ qs ∧
      r.2.writer.link.delivered = c.writer.link.delivered ++ qs.flatMap Query.bytes
  /-- A mock expects them, -/
  expected : ∀ as, let m := ((Service.start s).run as).mock
    (m.expect term o).2.expectations = m.expectations ++ [.start term filled]
  /-- matches them, -/
  matched : ∀ as, let m := ((Service.start s).run as).mock
    m.taker? term o = m.expectations.findIdx? fun e => e.isLive && e.accepts term filled
  /-- records them for a call that nobody takes, -/
  rejected : ∀ as, let m := ((Service.start s).run as).mock
    m.taker? term o = none → (m.begin term o).2.log = m.log ++ [⟨term, filled, .unexpected⟩]
  /-- and for one that is answered, whenever that is; -/
  recorded : ∀ as claim, (((Service.start s).run as).mock.begin term o).1 = .ok claim →
    ∀ m : Mock, (m.finish claim).2.log = m.log ++ [⟨term, filled, .of (m.finish claim).1⟩]
  /-- and its own connection writes them. -/
  pretended : ∀ as claim, (((Service.start s).run as).mock.begin term o).1 = .ok claim →
    ∀ c, claim.connect s = .ok c → c.written = [.start 1 term filled] ∧
      c.writer.link.delivered = (Query.start 1 term filled).bytes

variable {s : Settings} {term : Term} {o : QueryOptions} {as : List Action} {claim : Claim}

theorem settings_run (s : Settings) (as : List Action) :
    ((Service.start s).run as).mock.settings = s :=
  Service.run_induction (P := fun service => service.mock.settings = s)
    (fun service a h => (service.settings_after a).trans h) rfl as

theorem effective_run (s : Settings) (as : List Action) (o : QueryOptions) :
    ((Service.start s).run as).mock.effective o = o.withDefaultDb s.database := by
  rw [effective, settings_run]

/-- What a mock answers is the query as it is run. -/
theorem query_of_begin {m : Mock} (h : (m.begin term o).1 = .ok claim) :
    claim.term = term ∧ claim.options = m.effective o := by
  cases htaker : m.taker? term o with
  | none =>
    rw [begin_untaken htaker] at h
    cases h
  | some i =>
    obtain ⟨e, -, hbegin⟩ := begin_taken htaker
    rw [hbegin] at h
    cases h
    exact ⟨rfl, rfl⟩

theorem connect_written {c : Connection} (h : claim.connect s = .ok c) :
    c.written = [claim.query s] ∧ c.writer.link.delivered = (claim.query s).bytes := by
  unfold Claim.connect at h
  split at h
  · cases h
  · split at h
    next id d hquery =>
      cases h
      have hrun : d.drop = (Connection.start s).run
          [.query claim.term claim.options true, .drop] := by
        have hafter : (Connection.start s).after (.query claim.term claim.options true) = d :=
          congrArg Prod.snd hquery
        rw [Connection.run_cons, hafter]
        rfl
      have hwritten : d.drop.written = [claim.query s] := by
        have hsent := (Connection.start s).query_written claim.term claim.options true
        rw [hquery] at hsent
        exact (Connection.collect_quiet _).written.trans hsent
      have hdelivered : d.drop.writer.link.delivered = d.drop.written.flatMap Query.bytes := by
        rw [hrun]
        exact (Connection.exact_run s _).delivered
      rw [hdelivered, hwritten]
      exact ⟨rfl, List.flatMap_singleton _ _⟩
    · cases h

theorem fills_withDefaultDb (s : Settings) (term : Term) (o : QueryOptions) :
    Fills s term o (o.withDefaultDb s.database) where
  live as exclusive := by
    intro c r qs
    have hstart : c.startOf term o = .start c.tokens.next term (o.withDefaultDb s.database) := by
      rw [Connection.startOf, Connection.database_run]
    have hwritten : r.2.written = c.written ++ qs := by
      have hsent := c.query_written term o exclusive
      rwa [hstart] at hsent
    have hbefore : c.writer.link.delivered = c.written.flatMap Query.bytes :=
      (Connection.exact_run s as).delivered
    have hdelivered : r.2.writer.link.delivered = r.2.written.flatMap Query.bytes := by
      have hafter := (Connection.exact_run s (as ++ [.query term o exclusive])).delivered
      rwa [Connection.run_append] at hafter
    refine ⟨hwritten, ?_⟩
    rw [hdelivered, hwritten, List.flatMap_append, hbefore]
  expected as := by
    intro m
    rw [expect, effective_run]
  matched as := by
    intro m
    rw [taker?, effective_run]
  rejected as := by
    intro m htaker
    rw [begin_untaken htaker, effective_run]
    rfl
  recorded as claim h m := by
    obtain ⟨hterm, hoptions⟩ := query_of_begin h
    rw [effective_run] at hoptions
    rw [← hterm, ← hoptions]
    rfl
  pretended as claim h c hc := by
    obtain ⟨hterm, hoptions⟩ := query_of_begin h
    rw [effective_run] at hoptions
    have hquery : claim.query s = .start 1 term (o.withDefaultDb s.database) := by
      rw [Claim.query, hterm, hoptions, QueryOptions.withDefaultDb_withDefaultDb]
      rfl
    rw [← hquery]
    exact connect_written hc

/-- Filling in means the same to a live connection and to a mock: what is written, expected, matched,
recorded and written to the mock's own server has the same options. They have a database if the
settings or the caller name one, the caller's before the default, and are otherwise those of the
caller; to fill in again changes nothing. So a query that names the default database and one that
names none are the same request, and a mock takes and answers them alike. -/
theorem default_database_agrees (s : Settings) (term : Term) (o : QueryOptions) :
    let filled := o.withDefaultDb s.database
    Fills s term o filled ∧
    (∀ name, filled.get? name =
      if name = "db" then (o.get? "db").or (s.database.map .db) else o.get? name) ∧
    filled.withDefaultDb s.database = filled ∧
    ∀ db (p : QueryOptions), s.database = some db → o.get? "db" = none →
      p.get? "db" = some (.db db) → (∀ name, name ≠ "db" → p.get? name = o.get? name) →
        Fills s term p filled ∧
        (∀ as exclusive, ((Connection.start s).run as).query term p exclusive =
          ((Connection.start s).run as).query term o exclusive) ∧
        ∀ as, let m := ((Service.start s).run as).mock
          m.taker? term p = m.taker? term o ∧ m.begin term p = m.begin term o := by
  intro filled
  refine ⟨fills_withDefaultDb s term o, o.get?_withDefaultDb s.database,
    o.withDefaultDb_withDefaultDb s.database, ?_⟩
  intro db p hs ho hp h
  have hfilled : p.withDefaultDb s.database = filled := by
    rw [hs, QueryOptions.withDefaultDb_eq_of_named ho hp h, ← hs]
  refine ⟨hfilled ▸ fills_withDefaultDb s term p, fun as exclusive => ?_, fun as => ⟨?_, ?_⟩⟩
  · rw [Connection.query, Connection.query, Connection.database_run, hfilled]
  · rw [taker?, taker?, effective_run, effective_run, hfilled]
  · rw [begin, begin, effective_run, effective_run, hfilled]

/-- What is expected without a database takes a call that names the default one, and none that
names another. -/
theorem default_database_agrees_named :
    let s : Settings := { (default : Settings) with database := some "app" }
    let p : QueryOptions := (default : QueryOptions).setDb "app"
    let m := ((Service.start s).run [.expect .anything default]).mock
    m.taker? .anything default = some 0 ∧ m.taker? .anything p = some 0 ∧
      m.taker? .anything ((default : QueryOptions).setDb "audit") = none ∧
      Fills s .anything p ((default : QueryOptions).withDefaultDb (some "app")) := by
  intro s p m
  have htaker : m.taker? .anything default = some 0 := by decide +kernel
  have hother (name : String) (hname : name ≠ "db") :
      p.get? name = (default : QueryOptions).get? name :=
    Fields.get?_insert_of_ne _ _ hname
  obtain ⟨-, -, -, hsame⟩ := default_database_agrees s .anything default
  obtain ⟨hfills, -, hmock⟩ := hsame "app" p rfl rfl (Fields.get?_insert_self _ _ _) hother
  obtain ⟨hsametaker, -⟩ := hmock [.expect .anything default]
  exact ⟨htaker, hsametaker.trans htaker, by decide +kernel, hfills⟩

end Mock
end Reql
