import Reql.Proofs.Settings.Text
import Reql.Settings.Basic

/-! The names of settings, and what a text means as the value of one. -/
namespace Reql.Settings

/-- What settings have for one of the keys. -/
inductive Value where
  | text (value : String)
  | name (value : Option String)
  | word (value : UInt64)

def get (s : Settings) : Key → Value
  | .address => .text s.address
  | .database => .name s.database
  | .connectTimeout => .word s.connectTimeout
  | .maxFrameSize => .word s.maxFrameSize
  | .handoffCapacity => .word s.handoffCapacity

theorem ext_get {s t : Settings} (h : ∀ key, s.get key = t.get key) : s = t := by
  have haddress := h .address
  have hdatabase := h .database
  have htimeout := h .connectTimeout
  have hsize := h .maxFrameSize
  have hcapacity := h .handoffCapacity
  obtain ⟨a, d, c, m, n⟩ := s
  obtain ⟨a', d', c', m', n'⟩ := t
  simp only [get, Value.text.injEq, Value.name.injEq, Value.word.injEq] at *
  rw [haddress, hdatabase, htimeout, hsize, hcapacity]

namespace Key

/-- The names of a setting in small letters. -/
def names : Key → List String
  | .address => ["address", "server", "host"]
  | .database => ["database", "db"]
  | .connectTimeout => ["connect timeout", "connection timeout", "timeout"]
  | .maxFrameSize => ["max frame size"]
  | .handoffCapacity => ["handoff capacity"]

/-- The setting has this name, in either case. -/
def Named (key : Key) (name : List Char) : Prop :=
  String.ofList (name.map Char.toLower) ∈ key.names

theorem ofName?_eq_some_iff {key : Key} {name : List Char} :
    ofName? name = some key ↔ key.Named name := by
  unfold ofName? Named
  generalize String.ofList (name.map Char.toLower) = n
  constructor
  · intro h
    simp only at h
    split_ifs at h with haddress hdatabase htimeout hsize hcapacity <;>
      obtain rfl := Option.some.inj h
    · simpa [names] using haddress
    · simpa [names] using hdatabase
    · simpa [names] using htimeout
    · simpa [names] using hsize
    · simpa [names] using hcapacity
  · intro h
    cases key <;> simp only [names, List.mem_cons, List.not_mem_nil, or_false] at h
    · exact if_pos h
    · rcases h with rfl | rfl <;> rfl
    · rcases h with rfl | rfl | rfl <;> rfl
    · rw [h]
      rfl
    · rw [h]
      rfl

theorem Named.unique {key other : Key} {name : List Char} (h : key.Named name)
    (h' : other.Named name) : key = other :=
  Option.some.inj ((ofName?_eq_some_iff.mpr h).symm.trans (ofName?_eq_some_iff.mpr h'))

/-- How a setting that is a word reports a value that is none. -/
def wordFault? : Key → Option (String → Fault)
  | .address | .database => none
  | .connectTimeout => some .badConnectTimeout
  | .maxFrameSize => some .badMaxFrameSize
  | .handoffCapacity => some .badHandoffCapacity

/-- What a text means as the value of a setting. -/
inductive Means : Key → List Char → Value → Prop where
  | address {v : List Char} (hv : v ≠ []) : Means .address v
    (.text (if ':' ∈ v then String.ofList v else String.ofList v ++ ":28015"))
  | database (v : List Char) : Means .database v
    (.name (if v = [] then none else some (String.ofList v)))
  | word {key : Key} {fault : String → Fault} {v : List Char} {w : UInt64}
    (hkey : key.wordFault? = some fault) (h : Writes v w) : Means key v (.word w)

/-- What is wrong with a text as the value of a setting. -/
inductive Refuses : Key → List Char → Fault → Prop where
  | address : Refuses .address [] .emptyAddress
  | word {key : Key} {fault : String → Fault} {v : List Char}
    (hkey : key.wordFault? = some fault) (h : ∀ w, ¬Writes v w) :
    Refuses key v (fault (String.ofList v))

variable {key : Key} {v : List Char}

theorem Means.unique {x y : Value} (h : key.Means v x) (h' : key.Means v y) : x = y := by
  cases h with
  | address =>
    cases h' with
    | address => rfl
    | word hkey => cases hkey
  | database =>
    cases h' with
    | database => rfl
    | word hkey => cases hkey
  | word hkey h =>
    cases h' with
    | address | database => cases hkey
    | word _ h' => rw [h.unique h']

end Key

/-- One setting has been given the value that a text means. -/
structure Assigned (s : Settings) (key : Key) (v : List Char) (t : Settings) : Prop where
  means : key.Means v (t.get key)
  others : ∀ other, other ≠ key → t.get other = s.get other

section Assigning

variable {s t : Settings} {key : Key} {v : List Char}

theorem assign_word {fault : String → Fault} (hkey : key.wordFault? = some fault)
    (s : Settings) (v : List Char) :
    (word? v = none → s.assign key v = .error (fault (String.ofList v))) ∧
      ∀ w, word? v = some w → ∃ t, s.assign key v = .ok t ∧ t.get key = .word w ∧
        ∀ other, other ≠ key → t.get other = s.get other := by
  cases key with
  | address | database => cases hkey
  | connectTimeout | maxFrameSize | handoffCapacity =>
    cases hkey
    refine ⟨fun h => by simp [assign, h], fun w h => ?_⟩
    simp only [assign, h]
    refine ⟨_, rfl, rfl, ?_⟩
    rintro (_ | _ | _ | _ | _) hne <;> first | rfl | exact absurd rfl hne

/-- Whether a value is refused does not depend on the settings. -/
theorem assign_cases (key : Key) (v : List Char) :
    (∃ f, key.Refuses v f ∧ ∀ s : Settings, s.assign key v = .error f) ∨
      ∀ s : Settings, ∃ t, s.assign key v = .ok t ∧ Assigned s key v t := by
  cases hkey : key.wordFault? with
  | some fault =>
    cases hword : word? v with
    | none =>
      refine .inl ⟨_, .word hkey fun w hw => ?_, fun s => (assign_word hkey s v).1 hword⟩
      rw [← word?_eq_some_iff, hword] at hw
      cases hw
    | some w =>
      refine .inr fun s => ?_
      obtain ⟨t, ht, hget, hothers⟩ := (assign_word hkey s v).2 w hword
      refine ⟨t, ht, ?_, hothers⟩
      rw [hget]
      exact .word hkey (word?_eq_some_iff.mp hword)
  | none =>
    cases key with
    | address =>
      by_cases hv : v = []
      · rw [hv]
        exact .inl ⟨_, .address, fun s => rfl⟩
      · refine .inr fun s => ⟨_, if_neg (by simpa using hv), .address hv, ?_⟩
        rintro (_ | _ | _ | _ | _) hne <;> first | rfl | exact absurd rfl hne
    | database =>
      refine .inr fun s => ⟨_, rfl, ?_, ?_⟩
      · have h := Key.Means.database v
        simp only [← List.isEmpty_iff] at h
        exact h
      · rintro (_ | _ | _ | _ | _) hne <;> first | rfl | exact absurd rfl hne
    | connectTimeout | maxFrameSize | handoffCapacity => cases hkey

theorem assign_of_refuses {f : Fault} (h : key.Refuses v f) (s : Settings) :
    s.assign key v = .error f := by
  cases h with
  | address => rfl
  | word hkey hno =>
    refine (assign_word hkey s v).1 ?_
    cases hword : word? v with
    | none => rfl
    | some w => exact absurd (word?_eq_some_iff.mp hword) (hno w)

theorem Assigned.unique {u : Settings} (h : Assigned s key v t) (h' : Assigned s key v u) :
    t = u := by
  refine ext_get fun other => ?_
  by_cases hother : other = key
  · rw [hother]
    exact h.means.unique h'.means
  · rw [h.others other hother, h'.others other hother]

/-- In which order two different settings are given makes no difference. -/
theorem Assigned.comm {s₁ s₂ u : Settings} {other : Key} {w : List Char} (hne : key ≠ other)
    (h₁ : Assigned s key v s₁) (ht : Assigned s₁ other w t) (h₂ : Assigned s other w s₂)
    (hu : Assigned s₂ key v u) : t = u := by
  refine ext_get fun k => ?_
  by_cases hkey : k = key
  · rw [hkey, ht.others key hne]
    exact h₁.means.unique hu.means
  by_cases hother : k = other
  · rw [hother, hu.others other (Ne.symm hne)]
    exact ht.means.unique h₂.means
  · rw [ht.others k hother, h₁.others k hkey, hu.others k hkey, h₂.others k hother]

end Assigning
end Reql.Settings
