import Reql.Proofs.Response.Coding

/-! What of an answer gets lost when it is written and read: parts that are `null`, and of an answer
that has been read nothing. -/
namespace Reql

open Json (Fault Piece Tree)

namespace ResponsePayload

variable {t : Tree} {p : ResponsePayload} {j : Json}

def documents (p : ResponsePayload) : List Json :=
  p.results ++ p.backtrace.toList ++ p.profile.toList

theorem within_document (h : j ∈ p.documents) : j.Within p.document := by
  have hfield (f : String × Json) (hf : f ∈ p.fields) (hj : j.Within f.2) : j.Within p.document :=
    .field hf hj
  simp only [documents, List.mem_append, Option.mem_toList] at h
  rcases h with (h | h) | h
  · exact hfield ("r", .arr p.results) (by simp [fields]) (.item h (.whole j))
  · exact hfield ("b", j) (by simp [fields, Option.mem_def.mp h]) (.whole j)
  · exact hfield ("p", j) (by simp [fields, Option.mem_def.mp h]) (.whole j)

/-- Documents in order and without doubles are legible. -/
theorem legible_of_canonical (hcanon : ∀ j ∈ p.documents, j.Canonical)
    (hfree : p.document.DoubleFree) (hdepth : p.document.depth ≤ Json.maxLevels) : p.Legible := by
  have hfaithful (j : Json) (hj : j ∈ p.documents) : j.Faithful :=
    (hcanon j hj).faithful (hfree.within (within_document hj))
  exact {
    results := Json.faithfulItems_iff.mpr fun j hj => hfaithful j (by simp [documents, hj])
    backtrace := fun j hj => hfaithful j (by simp [documents, hj])
    profile := fun j hj => hfaithful j (by simp [documents, hj])
    depth := hdepth }

theorem depth_document_le {levels : Nat} (hresults : ∀ j ∈ p.results, j.depth ≤ levels)
    (hbacktrace : ∀ j, p.backtrace = some j → j.depth ≤ levels + 1)
    (hprofile : ∀ j, p.profile = some j → j.depth ≤ levels + 1) :
    p.document.depth ≤ levels + 2 := by
  have hword (w : UInt64) : (Json.ofUInt64 w).depth = 0 := rfl
  have hnotes : Json.depthItems (p.notes.map .ofUInt64) ≤ levels := by
    refine Json.depthItems_le_iff.mpr (List.forall_mem_map.mpr fun w _ => ?_)
    rw [hword]
    exact Nat.zero_le levels
  refine Nat.succ_le_succ (Json.depthFields_le_iff.mpr fun f hf => ?_)
  change f ∈ p.fields at hf
  simp only [fields, List.mem_append, List.mem_cons, List.not_mem_nil, or_false, Option.mem_toList,
    Option.map_eq_some_iff] at hf
  rcases hf with (((rfl | rfl) | ⟨j, hj, rfl⟩) | ⟨j, hj, rfl⟩) | hf
  · exact Nat.zero_le _
  · exact Nat.succ_le_succ (Json.depthItems_le_iff.mpr hresults)
  · exact hbacktrace j hj
  · exact hprofile j hj
  · split at hf
    · cases hf
    · rw [List.mem_singleton.mp hf]
      exact Nat.succ_le_succ hnotes

/-- Every document in the payload was read from the tree, and its optional ones are no `null`. -/
structure ReadFrom (t : Tree) (p : ResponsePayload) : Prop where
  results : ∀ j ∈ p.results, Json.ReadFrom t (Json.maxLevels - 2) j
  backtrace : ∀ j, p.backtrace = some j → j ≠ .null ∧ Json.ReadFrom t (Json.maxLevels - 1) j
  profile : ∀ j, p.profile = some j → j ≠ .null ∧ Json.ReadFrom t (Json.maxLevels - 1) j

theorem readFrom_resultsOf {r : Option Tree} {js : List Json} (h : resultsOf r = .ok js)
    (hpart : ∀ u, r = some u → t.DoubleFree → u.DoubleFree) :
    ∀ j ∈ js, Json.ReadFrom t (Json.maxLevels - 2) j := by
  cases r with
  | none =>
    cases h
    simp
  | some u =>
    cases u with
    | list items =>
      intro j hj
      obtain ⟨u, hu, hread⟩ := Json.readFrom_ofTrees items h j hj
      exact hread.of_part fun hfree => (hpart _ rfl hfree).item hu
    | _ => cases h

theorem ofTree_ne_null {u : Tree} {levels : Nat} (hu : u ≠ .null) :
    Json.ofTree levels u ≠ .ok .null := by
  intro h
  cases u with
  | null => exact hu rfl
  | bool => cases h
  | number n => rcases Json.ofNumeral_eq_ok h with ⟨i, h⟩ | ⟨d, h⟩ <;> cases h
  | text pieces =>
    obtain ⟨s, -, h⟩ := bind_eq_ok_iff.mp h
    cases h
  | list items | record fields =>
    cases levels with
    | zero => cases h
    | succ levels =>
      obtain ⟨js, -, h⟩ := bind_eq_ok_iff.mp h
      cases h

theorem readFrom_optionalOf {o : Option Tree} {part : Option Json} (h : optionalOf o = .ok part)
    (hpart : ∀ u, o = some u → t.DoubleFree → u.DoubleFree) :
    ∀ j, part = some j → j ≠ .null ∧ Json.ReadFrom t (Json.maxLevels - 1) j := by
  rintro j rfl
  cases o with
  | none => cases h
  | some u =>
    by_cases hu : u = .null
    · rw [hu] at h
      cases h
    · rw [optionalOf_of_ne_null hu] at h
      obtain ⟨k, hread, h⟩ := bind_eq_ok_iff.mp h
      cases h
      refine ⟨?_, (Json.readFrom_ofTree u hread).of_part (hpart u rfl)⟩
      rintro rfl
      exact ofTree_ne_null hu hread

theorem readFrom_ofParts {c r b q n : Option Tree} (h : ofParts c r b q n = .ok p)
    (hpart : ∀ u, r = some u ∨ b = some u ∨ q = some u → t.DoubleFree → u.DoubleFree) :
    ReadFrom t p := by
  unfold ofParts at h
  cases c with
  | none => cases h
  | some c =>
  obtain ⟨code, -, h⟩ := bind_eq_ok_iff.mp h
  obtain ⟨results, hr, h⟩ := bind_eq_ok_iff.mp h
  obtain ⟨backtrace, hb, h⟩ := bind_eq_ok_iff.mp h
  obtain ⟨profile, hq, h⟩ := bind_eq_ok_iff.mp h
  obtain ⟨notes, -, h⟩ := bind_eq_ok_iff.mp h
  cases h
  exact {
    results := readFrom_resultsOf hr fun u hu => hpart u (.inl hu)
    backtrace := readFrom_optionalOf hb fun u hu => hpart u (.inr (.inl hu))
    profile := readFrom_optionalOf hq fun u hu => hpart u (.inr (.inr hu)) }

theorem mem_of_nameFields {fields : List (List Piece × Tree)} {named : List (String × Tree)}
    (h : nameFields fields = .ok named) {n : String} {u : Tree} (hu : (n, u) ∈ named) :
    ∃ f ∈ fields, f.2 = u := by
  induction fields generalizing named with
  | nil =>
    cases h
    cases hu
  | cons f rest ih =>
    obtain ⟨name, v⟩ := f
    unfold nameFields at h
    obtain ⟨s, -, h⟩ := bind_eq_ok_iff.mp h
    obtain ⟨others, hothers, h⟩ := bind_eq_ok_iff.mp h
    cases h
    rcases List.mem_cons.mp hu with hu | hu
    · exact ⟨(name, v), List.mem_cons_self, (Prod.mk.inj hu).2.symm⟩
    · obtain ⟨g, hg, heq⟩ := ih hothers hu
      exact ⟨g, List.mem_cons_of_mem _ hg, heq⟩

theorem exists_of_only? {name : String} {named : List (String × Tree)} {u : Tree}
    (h : only? name named = .ok (some u)) : ∃ n, (n, u) ∈ named := by
  unfold only? at h
  split at h
  · cases h
  · next f hf =>
    cases h
    have hmem : f ∈ named.filter fun g => g.1 == name := by simp [hf]
    exact ⟨f.1, (List.mem_filter.mp hmem).1⟩
  · cases h

theorem readFrom_ofTree (h : ofTree t = .ok p) : ReadFrom t p := by
  cases t with
  | record fields =>
    obtain ⟨named, hnamed, h⟩ := bind_eq_ok_iff.mp h
    obtain ⟨c, -, h⟩ := bind_eq_ok_iff.mp h
    obtain ⟨r, hr, h⟩ := bind_eq_ok_iff.mp h
    obtain ⟨b, hb, h⟩ := bind_eq_ok_iff.mp h
    obtain ⟨q, hq, h⟩ := bind_eq_ok_iff.mp h
    obtain ⟨n, -, h⟩ := bind_eq_ok_iff.mp h
    have hfield (name : String) (u : Tree) (hu : only? name named = .ok (some u))
        (hfree : Tree.DoubleFree (.record fields)) : u.DoubleFree := by
      obtain ⟨n, hn⟩ := exists_of_only? hu
      obtain ⟨g, hg, rfl⟩ := mem_of_nameFields hnamed hn
      exact hfree.field hg
    refine readFrom_ofParts h fun u hu => ?_
    rcases hu with rfl | rfl | rfl
    · exact hfield "r" u hr
    · exact hfield "b" u hb
    · exact hfield "p" u hq
  | list items =>
    rw [ofTree] at h
    split at h
    · refine readFrom_ofParts h fun u hu hfree => ?_
      rcases hu with hu | hu | hu <;> exact hfree.item (List.mem_of_getElem? hu)
    · cases h
  | null | bool | number | text => cases h

end ResponsePayload

namespace Response

variable {token : Token} {text : Bytes} {r : Response}

/-- The objects in the answer have their fields in order. -/
def Canonical (r : Response) : Prop :=
  ∀ j ∈ r.toPayload.documents, j.Canonical

/-- The answer without a backtrace or profile that is `null`. -/
def dropNulls (r : Response) : Response :=
  { r with
    body := match r.body with
      | .error kind text backtrace => .error kind text (backtrace.filter (· ≠ .null))
      | body => body
    profile := r.profile.filter (· ≠ .null) }

theorem toPayload_dropNulls (r : Response) : r.dropNulls.toPayload = r.toPayload.dropNulls := by
  obtain ⟨token, body, profile, notes⟩ := r
  cases body <;> rfl

/-- An answer without doubles that is not nested too deep is read back from its payload, but for a
backtrace or profile that is `null`. -/
theorem decoding_undoes_encoding (hcanon : r.Canonical) (hfree : r.toPayload.document.DoubleFree)
    (hdepth : r.toPayload.document.depth ≤ Json.maxLevels) :
    decode r.token r.encode = .ok r.dropNulls := by
  have hread := ResponsePayload.read_encode_of_legible
    (ResponsePayload.legible_of_canonical hcanon hfree hdepth)
  have hpayload := ofPayload_toPayload r.dropNulls
  rw [toPayload_dropNulls] at hpayload
  simp only [decode, encode, hread]
  exact hpayload

/-- A backtrace that is `null` gets lost, what is `null` elsewhere is kept. -/
theorem decoding_undoes_encoding_null :
    let r : Response := ⟨7, .error .runtime "gone" (some .null),
      some (.obj [("a", .arr [.null, .ofInt64 (-3)])]), [1, 2]⟩
    (r.Canonical ∧ r.toPayload.document.DoubleFree ∧
        r.toPayload.document.depth ≤ Json.maxLevels) ∧
      decode r.token r.encode = .ok { r with body := .error .runtime "gone" none } := by
  intro r
  have hcanon : r.Canonical := by
    simp [r, Canonical, toPayload, ResponsePayload.documents, Json.Canonical, Json.CanonicalFields,
      Json.CanonicalItems, Json.ofInt64, Fields.Sorted]
  have hfree : r.toPayload.document.DoubleFree := by
    have hint (n : Json.Integer) : (Json.int n).DoubleFree := Json.doubleFree_of_leaf rfl (by simp)
    have hnull : Json.null.DoubleFree := Json.doubleFree_of_leaf rfl (by simp)
    have hstr (s : String) : (Json.str s).DoubleFree := Json.doubleFree_of_leaf rfl (by simp)
    simp [r, toPayload, ResponsePayload.document, Json.doubleFree_obj_iff, Json.doubleFree_arr_iff,
      Json.ofUInt64, Json.ofInt64, hint, hnull, hstr]
  have hdepth : r.toPayload.document.depth ≤ Json.maxLevels := by decide
  exact ⟨⟨hcanon, hfree, hdepth⟩, decoding_undoes_encoding hcanon hfree hdepth⟩

theorem eq_singleton_of_single {type : ResponseType} {js : List Json} {j : Json}
    (h : single type js = .ok j) : js = [j] := by
  unfold single at h
  split at h
  · rw [Except.ok.inj h]
  · cases h

/-- What an answer holds was in its payload, but for the message of an error. -/
theorem toPayload_of_ofPayload {p : ResponsePayload} (h : ofPayload token p = .ok r) :
    r.token = token ∧ (∀ j ∈ r.toPayload.results, j ∈ p.results ∨ ∃ s, j = .str s) ∧
      (∀ j, r.toPayload.backtrace = some j → p.backtrace = some j) ∧
      ∀ j, r.toPayload.profile = some j → p.profile = some j := by
  unfold ofPayload at h
  obtain ⟨type, -, h⟩ := bind_eq_ok_iff.mp h
  obtain ⟨body, hbody, h⟩ := bind_eq_ok_iff.mp h
  cases h
  -- Of its results an error keeps only a message, and the end of a wait none.
  cases type with
  | successAtom | serverInfo =>
    obtain ⟨v, hv, hbody⟩ := bind_eq_ok_iff.mp hbody
    cases hbody
    rw [eq_singleton_of_single hv]
    exact ⟨rfl, fun j hj => .inl hj, fun j hj => (by cases hj), fun j hj => hj⟩
  | successSequence | successPartial =>
    cases hbody
    exact ⟨rfl, fun j hj => .inl hj, fun j hj => (by cases hj), fun j hj => hj⟩
  | waitComplete =>
    cases hbody
    exact ⟨rfl, fun j hj => (by cases hj), fun j hj => (by cases hj), fun j hj => hj⟩
  | clientError | compileError | runtimeError =>
    cases hbody
    exact ⟨rfl, fun j hj => .inr ⟨_, List.mem_singleton.mp hj⟩, fun j hj => hj, fun j hj => hj⟩

/-- An answer that was read is faithful if no double was read. -/
theorem faithful_of_readFrom {t : Tree} {p : ResponsePayload} (hp : p.ReadFrom t)
    (h : ofPayload token p = .ok r) (hfree : t.DoubleFree) : r.Faithful := by
  obtain ⟨-, hresults, hbacktrace, hprofile⟩ := toPayload_of_ofPayload h
  have hfaithful (j : Json) (hj : j ∈ r.toPayload.results) :
      j.Faithful ∧ j.depth ≤ Json.maxLevels - 2 := by
    rcases hresults j hj with hj | ⟨s, rfl⟩
    · exact ⟨(hp.results j hj).faithful hfree, (hp.results j hj).depth_le⟩
    · exact ⟨trivial, Nat.zero_le _⟩
  exact {
    results := Json.faithfulItems_iff.mpr fun j hj => (hfaithful j hj).1
    backtrace := fun j hj =>
      ⟨(hp.backtrace j (hbacktrace j hj)).1, (hp.backtrace j (hbacktrace j hj)).2.faithful hfree⟩
    profile := fun j hj =>
      ⟨(hp.profile j (hprofile j hj)).1, (hp.profile j (hprofile j hj)).2.faithful hfree⟩
    depth := ResponsePayload.depth_document_le (fun j hj => (hfaithful j hj).2)
      (fun j hj => (hp.backtrace j (hbacktrace j hj)).2.depth_le)
      fun j hj => (hp.profile j (hprofile j hj)).2.depth_le }

/-- A payload is read in two steps, what its text spells and what that says. -/
theorem exists_of_decode (h : decode token text = .ok r) :
    ∃ t p, Json.readTree text = .ok t ∧ ResponsePayload.ofTree t = .ok p ∧
      ofPayload token p = .ok r := by
  unfold decode ResponsePayload.read at h
  cases ht : Json.readTree text with
  | error e =>
    rw [ht] at h
    cases h
  | ok t =>
    cases hp : ResponsePayload.ofTree t with
    | error f =>
      simp only [ht, hp] at h
      cases h
    | ok p =>
      simp only [ht, hp] at h
      exact ⟨t, p, rfl, hp, h⟩

/-- An answer that was read from a text without doubles is the one that is read from its own
payload, whatever the text was like. -/
theorem reencoding_keeps_answer (h : decode token text = .ok r) (hfree : Json.DoubleFreeText text) :
    decode token r.encode = .ok r := by
  obtain ⟨t, p, ht, hp, hr⟩ := exists_of_decode h
  have hread := ResponsePayload.readFrom_ofTree hp
  have htoken := (toPayload_of_ofPayload hr).1
  rw [← htoken]
  exact decode_encode (faithful_of_readFrom hread hr (hfree t ht))

/-- An error whose message is an object that repeats a name, and which has a second result. -/
theorem reencoding_keeps_answer_message :
    let text := Bytes.ofString
      "\x7b\"x\":\x7b\"a\":[]\x7d,\"n\":[],\"r\":[\x7b\"b\":1,\"a\":2,\"b\":3\x7d,5],\"p\":null,\"t\":18\x7d"
    let r : Response := ⟨7, .error .runtime "\x7b\"a\":2,\"b\":3\x7d" none, none, []⟩
    (decode 7 text = .ok r ∧ Json.DoubleFreeText text) ∧ decode 7 r.encode = .ok r := by
  intro text r
  have hread : decode 7 text = .ok r := by decide +kernel
  have hfree : Json.DoubleFreeText text := by decide +kernel
  exact ⟨⟨hread, hfree⟩, reencoding_keeps_answer hread hfree⟩

end Response
end Reql
