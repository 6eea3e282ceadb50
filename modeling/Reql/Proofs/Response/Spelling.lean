import Mathlib.Data.List.Forall2
import Mathlib.Logic.Relation
import Reql.Proofs.Json.Spelling
import Reql.Proofs.Response.Admission

/-! An answer does not depend on how its payload is spelled. -/
namespace Reql

open Json (Fault Piece Tree)

namespace ResponsePayload

/-- No field has the name. -/
def Absent (name : String) (fields : List (List Piece × Tree)) : Prop :=
  ∀ f ∈ fields, Json.stringOfPieces f.1 ≠ .ok name

/-- Two payloads that say the same. -/
inductive Respelled : Tree → Tree → Prop where
  /-- The fields stand in another order. -/
  | reorder {fields fields' : List (List Piece × Tree)} (h : fields.Perm fields') :
    Respelled (.record fields) (.record fields')
  /-- There is a field more, of no known name. -/
  | unknown {fields : List (List Piece × Tree)} {label : List Piece} {name : String} (value : Tree)
    (hlabel : Json.stringOfPieces label = .ok name) (hname : name ∉ partNames) :
    Respelled (.record fields) (.record ((label, value) :: fields))
  /-- Missing results or notes are given as an empty list. -/
  | empty {fields : List (List Piece × Tree)} {label : List Piece} {name : String}
    (hlabel : Json.stringOfPieces label = .ok name) (hname : name = "r" ∨ name = "n")
    (habsent : Absent name fields) :
    Respelled (.record fields) (.record ((label, .list []) :: fields))
  /-- A missing backtrace or profile is given as `null`. -/
  | null {fields : List (List Piece × Tree)} {label : List Piece} {name : String}
    (hlabel : Json.stringOfPieces label = .ok name) (hname : name = "b" ∨ name = "p")
    (habsent : Absent name fields) :
    Respelled (.record fields) (.record ((label, .null) :: fields))
  /-- The first parts are given in order, without their names. -/
  | array {items : List Tree} (h : items.length ≤ partNames.length) :
    Respelled (.record ((partNames.map Json.pieces).zip items)) (.list items)

/-- A list that is the same as a missing one is missing. -/
def dropEmpty : Option Tree → Option Tree
  | some (.list []) => none
  | o => o

/-- A `null` that is the same as a missing part is missing. -/
def dropNull : Option Tree → Option Tree
  | some .null => none
  | o => o

/-- The parts without those that may as well be missing. -/
def Parts.normal (p : Parts) : Parts :=
  { p with
    results := dropEmpty p.results
    backtrace := dropNull p.backtrace
    profile := dropNull p.profile
    notes := dropEmpty p.notes }

theorem resultsOf_dropEmpty (o : Option Tree) : resultsOf (dropEmpty o) = resultsOf o := by
  match o with
  | none | some (.list []) => rfl
  | some (.list (_ :: _)) | some .null | some (.bool _) | some (.number _) | some (.text _)
  | some (.record _) => rfl

theorem notesOf_dropEmpty (o : Option Tree) : notesOf (dropEmpty o) = notesOf o := by
  match o with
  | none | some (.list []) => rfl
  | some (.list (_ :: _)) | some .null | some (.bool _) | some (.number _) | some (.text _)
  | some (.record _) => rfl

theorem optionalOf_dropNull (o : Option Tree) : optionalOf (dropNull o) = optionalOf o := by
  match o with
  | none | some .null => rfl
  | some (.list _) | some (.bool _) | some (.number _) | some (.text _) | some (.record _) => rfl

theorem Parts.payload_normal (p : Parts) : p.normal.payload = p.payload := by
  simp only [payload, ofParts, normal, resultsOf_dropEmpty, notesOf_dropEmpty, optionalOf_dropNull]

/-- The tree gives these parts, up to those that may as well be missing. -/
def Means (t : Tree) (q : Parts) : Prop :=
  ∃ p, Holds t p ∧ p.normal = q

theorem Means.ofTree {t : Tree} {q : Parts} (h : Means t q) : ofTree t = q.payload := by
  obtain ⟨p, hp, rfl⟩ := h
  rw [hp.ofTree, p.payload_normal]

variable {fields fields' : List (List Piece × Tree)} {named : List (String × Tree)}
  {label : List Piece} {name : String} {value : Tree} {q : Parts}

theorem nameFields_cons_iff {named' : List (String × Tree)} :
    nameFields ((label, value) :: fields) = .ok named' ↔
      ∃ name, Json.stringOfPieces label = .ok name ∧
        ∃ named, nameFields fields = .ok named ∧ (name, value) :: named = named' := by
  simp only [nameFields, bind_eq_ok_iff, pure, Except.pure, Except.ok.injEq]

/-- Fields get their names one by one. -/
theorem nameFields_iff_forall₂ : nameFields fields = .ok named ↔
    List.Forall₂ (fun f g => Json.stringOfPieces f.1 = .ok g.1 ∧ f.2 = g.2) fields named := by
  induction fields generalizing named with
  | nil => simp [nameFields, eq_comm]
  | cons f fields ih =>
    obtain ⟨label, value⟩ := f
    rw [nameFields_cons_iff, List.forall₂_cons_left_iff]
    simp only [ih]
    constructor
    · rintro ⟨name, hlabel, rest, hrest, rfl⟩
      exact ⟨(name, value), rest, ⟨hlabel, rfl⟩, hrest, rfl⟩
    · rintro ⟨⟨name, _⟩, rest, ⟨hlabel, rfl⟩, hrest, rfl⟩
      exact ⟨name, hlabel, rest, hrest, rfl⟩

theorem means_record_iff : Means (.record fields) q ↔
    ∃ named, nameFields fields = .ok named ∧ Once named ∧ (Parts.ofFields named).normal = q := by
  constructor
  · rintro ⟨_, ⟨hnamed, honce⟩, rfl⟩
    exact ⟨_, hnamed, honce, rfl⟩
  · rintro ⟨named, hnamed, honce, rfl⟩
    exact ⟨_, .object hnamed honce, rfl⟩

/-- A field more changes nothing if it changes nothing once the fields have names. -/
theorem means_cons_iff (hlabel : Json.stringOfPieces label = .ok name)
    (h : ∀ named, nameFields fields = .ok named →
      (Once ((name, value) :: named) ↔ Once named) ∧
        (Parts.ofFields ((name, value) :: named)).normal = (Parts.ofFields named).normal) :
    Means (.record fields) q ↔ Means (.record ((label, value) :: fields)) q := by
  simp only [means_record_iff, nameFields_cons_iff, hlabel, Except.ok.injEq, exists_eq_left']
  constructor
  · rintro ⟨named, hnamed, honce, hq⟩
    obtain ⟨honce', hparts⟩ := h named hnamed
    exact ⟨_, ⟨named, hnamed, rfl⟩, honce'.mpr honce, hparts.trans hq⟩
  · rintro ⟨_, ⟨named, hnamed, rfl⟩, honce, hq⟩
    obtain ⟨honce', hparts⟩ := h named hnamed
    exact ⟨named, hnamed, honce'.mp honce, hparts.symm.trans hq⟩

theorem Once.perm {named' : List (String × Tree)} (honce : Once named) (h : named.Perm named') :
    Once named' := by
  intro name hname
  rw [← (h.filter _).length_eq]
  exact honce name hname

/-- Of fields that are given once each is found, in whatever order they stand. -/
theorem Parts.ofFields_perm {named' : List (String × Tree)} (honce : Once named)
    (h : named.Perm named') : Parts.ofFields named = Parts.ofFields named' := by
  have hlookup (name : String) (hname : name ∈ partNames) :
      named.lookup name = named'.lookup name := by
    -- At most one field has the name, so there is no order among those that have it.
    have hfound := h.filter fun f => f.1 == name
    have hone := honce name hname
    rw [lookup_eq_head?, lookup_eq_head?]
    generalize (named.filter fun f => f.1 == name) = found at hfound hone
    match found, hone with
    | [], _ => rw [hfound.nil_eq]
    | [f], _ => rw [List.singleton_perm.mp hfound]
  simp only [Parts.ofFields, hlookup "t" (by decide), hlookup "r" (by decide),
    hlookup "b" (by decide), hlookup "p" (by decide), hlookup "n" (by decide)]

theorem Means.reorder (h : fields.Perm fields') (hmeans : Means (.record fields) q) :
    Means (.record fields') q := by
  obtain ⟨named, hnamed, honce, rfl⟩ := means_record_iff.mp hmeans
  obtain ⟨named', hnamed', hperm⟩ :=
    List.perm_comp_forall₂ h.symm (nameFields_iff_forall₂.mp hnamed)
  refine means_record_iff.mpr
    ⟨named', nameFields_iff_forall₂.mpr hnamed', honce.perm hperm.symm, ?_⟩
  rw [Parts.ofFields_perm honce hperm.symm]

theorem lookup_cons_of_ne {part : String} (h : part ≠ name) :
    List.lookup part ((name, value) :: named) = named.lookup part := by
  rw [List.lookup_cons, beq_false_of_ne h]

/-- A field of no known name is skipped. -/
theorem Parts.ofFields_unknown (h : name ∉ partNames) :
    Parts.ofFields ((name, value) :: named) = Parts.ofFields named := by
  have hne (part : String) (hpart : part ∈ partNames) : part ≠ name := by
    rintro rfl
    exact h hpart
  simp only [Parts.ofFields, lookup_cons_of_ne (hne "t" (by decide)),
    lookup_cons_of_ne (hne "r" (by decide)), lookup_cons_of_ne (hne "b" (by decide)),
    lookup_cons_of_ne (hne "p" (by decide)), lookup_cons_of_ne (hne "n" (by decide))]

/-- A field can be given first if its name is none of the known ones or is not given again. -/
theorem once_cons_iff (h : name ∉ partNames ∨ ∀ f ∈ named, f.1 ≠ name) :
    Once ((name, value) :: named) ↔ Once named := by
  refine forall_congr' fun part => imp_congr_right fun hpart => ?_
  rw [List.filter_cons]
  by_cases hname : name = part
  · subst hname
    have hnone : (named.filter fun f => f.1 == name) = [] := by
      refine List.filter_eq_nil_iff.mpr fun f hf => ?_
      rw [beq_iff_eq]
      exact (h.resolve_left (not_not_intro hpart)) f hf
    simp [hnone]
  · rw [beq_false_of_ne hname]
    rfl

theorem Absent.forall_ne (h : Absent name fields) (hnamed : nameFields fields = .ok named) :
    ∀ f ∈ named, f.1 ≠ name := by
  have hall := nameFields_iff_forall₂.mp hnamed
  clear hnamed
  induction hall with
  | nil => simp
  | cons hfg _ ih =>
    obtain ⟨hf, hrest⟩ := List.forall_mem_cons.mp h
    refine List.forall_mem_cons.mpr ⟨?_, ih hrest⟩
    rintro rfl
    exact hf hfg.1

theorem lookup_eq_none (h : ∀ f ∈ named, f.1 ≠ name) : named.lookup name = none := by
  rw [List.lookup_eq_none_iff]
  exact fun f hf => by simpa using (h f hf).symm

theorem nameFields_zip (names : List String) (items : List Tree) :
    nameFields ((names.map Json.pieces).zip items) = .ok (names.zip items) := by
  induction names generalizing items with
  | nil => rfl
  | cons name names ih =>
    cases items with
    | nil => rfl
    | cons t items =>
      refine nameFields_cons_iff.mpr ⟨name, Json.stringOfPieces_pieces name, _, ih items, rfl⟩

theorem names_zip_sublist (names : List String) (items : List Tree) :
    ((names.zip items).map (·.1)).Sublist names := by
  induction names generalizing items with
  | nil => exact List.Sublist.refl _
  | cons name names ih =>
    cases items with
    | nil => exact List.nil_sublist _
    | cons t items => exact (ih items).cons_cons name

theorem once_zip (items : List Tree) : Once (partNames.zip items) := by
  intro name _
  have hnodup : ((partNames.zip items).map (·.1)).Nodup :=
    (by decide : partNames.Nodup).sublist (names_zip_sublist partNames items)
  have hcount := List.nodup_iff_count_le_one.mp hnodup name
  rw [List.count, List.countP_map, List.countP_eq_length_filter] at hcount
  exact hcount

/-- Parts in order are the parts under their names. -/
theorem means_array_iff {items : List Tree} (h : items.length ≤ partNames.length) :
    Means (.record ((partNames.map Json.pieces).zip items)) q ↔ Means (.list items) q := by
  rw [means_record_iff, nameFields_zip]
  constructor
  · rintro ⟨_, ⟨⟩, -, hq⟩
    exact ⟨_, .array h, hq⟩
  · rintro ⟨_, ⟨-⟩, hq⟩
    exact ⟨_, rfl, once_zip items, hq⟩

/-- Every change of the spelling keeps what the payload means. -/
theorem Respelled.means_iff {t u : Tree} (h : Respelled t u) : Means t q ↔ Means u q := by
  cases h with
  | reorder h => exact ⟨.reorder h, .reorder h.symm⟩
  | unknown value hlabel hname =>
    refine means_cons_iff hlabel fun named _ => ⟨once_cons_iff (.inl hname), ?_⟩
    rw [Parts.ofFields_unknown hname]
  | empty hlabel hname habsent =>
    refine means_cons_iff hlabel fun named hnamed => ?_
    have hnew := habsent.forall_ne hnamed
    refine ⟨once_cons_iff (.inr hnew), ?_⟩
    have hnone := lookup_eq_none hnew
    rcases hname with rfl | rfl <;>
      simp [Parts.ofFields, Parts.normal, List.lookup_cons, hnone, dropEmpty]
  | null hlabel hname habsent =>
    refine means_cons_iff hlabel fun named hnamed => ?_
    have hnew := habsent.forall_ne hnamed
    refine ⟨once_cons_iff (.inr hnew), ?_⟩
    have hnone := lookup_eq_none hnew
    rcases hname with rfl | rfl <;>
      simp [Parts.ofFields, Parts.normal, List.lookup_cons, hnone, dropNull]
  | array h => exact means_array_iff h

/-- Any number of changes, made or undone, keeps what the payload means. -/
theorem means_iff_of_eqvGen {t u : Tree} (h : Relation.EqvGen Respelled t u) :
    Means t q ↔ Means u q := by
  induction h with
  | rel t u h => exact h.means_iff
  | refl t => exact Iff.rfl
  | symm t u _ ih => exact ih.symm
  | trans t u v _ _ ih ih' => exact ih.trans ih'

end ResponsePayload

namespace Response

open ResponsePayload

variable {token : Token} {t t' : Tree} {text text' : Bytes} {p : Parts}

/-- The same answer, the same unknown type, or payloads that are both refused. -/
def SameOutcome (x y : Except ProtocolError Response) : Prop :=
  x = y ∨ ∃ reason reason', x = .error (.decode reason) ∧ y = .error (.decode reason')

/-- Decoding is taking the tree of the text for a payload, and that for an answer. -/
theorem decode_of_spells (h : t.Spells text) : decode token text =
    match ResponsePayload.ofTree t with
    | .ok p => ofPayload token p
    | .error f => .error (.decode (Json.ReadError.atRest f text 0).message) := by
  simp only [decode, ResponsePayload.read, Json.readTree_of_spells h]
  cases ResponsePayload.ofTree t <;> rfl

theorem sameOutcome_of_ofTree_eq (h : t.Spells text) (h' : t'.Spells text')
    (heq : ResponsePayload.ofTree t = ResponsePayload.ofTree t') :
    SameOutcome (decode token text) (decode token text') := by
  rw [decode_of_spells h, decode_of_spells h', ← heq]
  cases ResponsePayload.ofTree t with
  | ok p => exact .inl rfl
  | error f => exact .inr ⟨_, _, rfl, rfl⟩

theorem exists_decode_iff (h : t.Spells text) (hp : Holds t p) :
    (∃ r, decode token text = .ok r) ↔ ∃ type, Admissible p type := by
  rw [decode_of_spells h, hp.ofTree, ← @exists_answer_iff token p]
  cases p.payload with
  | ok q => simp
  | error f => simp

/-- A payload that gives no part twice is decoded to the same, in whatever order its fields stand,
with or without unknown ones and such as may as well be missing, by name or in order, and with
whatever blanks. It is an answer if its parts make one. -/
theorem spelling_immaterial (h : t.Spells text) (hp : Holds t p) :
    (∀ t' text', Relation.EqvGen Respelled t t' → t'.Spells text' →
      SameOutcome (decode token text) (decode token text')) ∧
    ((∃ r, decode token text = .ok r) ↔ ∃ type, Admissible p type) := by
  refine ⟨fun t' text' hrespelled h' => ?_, exists_decode_iff h hp⟩
  have hmeans : Means t p.normal := ⟨p, hp, rfl⟩
  have hmeans' : Means t' p.normal := (means_iff_of_eqvGen hrespelled).mp hmeans
  exact sameOutcome_of_ofTree_eq h h' (hmeans.ofTree.trans hmeans'.ofTree.symm)

/-- The end of a wait, as an object with notes that may as well be missing and as an array. -/
theorem spelling_immaterial_array :
    let text := Bytes.ofString "\x7b\"n\":[],\"t\":4 \x7d"
    let text' := Bytes.ofString "[4]"
    SameOutcome (decode 7 text) (decode 7 text') ∧ ∃ r, decode 7 text = .ok r := by
  intro text text'
  let four : Json.Numeral := ⟨false, [4], [], none⟩
  let n : List Piece × Tree := ([.byte 0x6E], .list [])
  let t : List Piece × Tree := ([.byte 0x74], .number four)
  have hn : Json.stringOfPieces n.1 = .ok "n" := Json.stringOfPieces_pieces "n"
  have ht : Json.stringOfPieces t.1 = .ok "t" := Json.stringOfPieces_pieces "t"
  have hfour : (Tree.number four).Spells [0x34] := by
    refine .number ⟨⟨⟨4, [], rfl, by simp⟩, ?_, ?_, ?_⟩, [], .none, rfl⟩ <;> simp [four]
  have hlabel (b : UInt8) (hb : 0x20 ≤ b ∧ b ≠ 0x22 ∧ b ≠ 0x5C) :
      (Tree.text [.byte b]).Spells ([0x22] ++ ([b] ++ []) ++ [0x22]) :=
    .text (.cons (.byte hb.1 hb.2.1 hb.2.2) .nil)
  have hempty : n.2.Spells ([0x5B] ++ [] ++ [0x5D]) := .list (.none (by simp))
  have h : (Tree.record [n, t]).Spells text :=
    .record (.more (hlabel 0x6E (by decide)) hempty
      (.last (hlabel 0x74 (by decide)) (.after (.inl rfl) hfour)))
  have h' : (Tree.list [.number four]).Spells text' := .list (.last hfour)
  have hp : Holds (.record [n, t]) (.ofFields [("n", n.2), ("t", t.2)]) := by
    refine .object (nameFields_iff_forall₂.mpr (.cons ⟨hn, rfl⟩ (.cons ⟨ht, rfl⟩ .nil))) ?_
    simp [Once, partNames]
  have hrespelled : Relation.EqvGen Respelled (.record [n, t]) (.list [.number four]) := by
    have habsent : Absent "n" [t] := List.forall_mem_singleton.mpr (by simp [ht])
    have harray : Respelled (.record [t]) (.list [.number four]) :=
      @Respelled.array [.number four] (by decide)
    exact .trans _ _ _ (.symm _ _ (.rel _ _ (.empty hn (.inr rfl) habsent))) (.rel _ _ harray)
  have hadmissible : Admissible (.ofFields [("n", n.2), ("t", t.2)]) .waitComplete := {
    code := ⟨four, rfl, rfl, rfl, rfl, rfl⟩
    results := fun _ h => nomatch h
    backtrace := fun _ h => nomatch h
    profile := fun _ h => nomatch h
    notes := by
      rintro _ ⟨⟩
      exact ⟨[], rfl, by simp⟩
    single := by simp }
  obtain ⟨hsame, hiff⟩ := @spelling_immaterial 7 _ _ _ h hp
  exact ⟨hsame _ _ hrespelled h', hiff.mpr ⟨_, hadmissible⟩⟩

end Response
end Reql
