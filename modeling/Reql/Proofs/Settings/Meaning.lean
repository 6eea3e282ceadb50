import Reql.Proofs.Settings.Values

/-! What a text of settings means: the first segment at fault decides, else for each setting the
last segment that names it. How the segments are worded makes no difference. -/
namespace Reql.Settings

variable {s t u : Settings} {key other : Key} {v w name value part seg : List Char} {f : Fault}
  {parts segs before after : List (List Char)}

/-- The segment names a setting and gives a value for it. -/
def Sets (seg : List Char) (key : Key) (v : List Char) : Prop :=
  ∃ name value, seg = name ++ '=' :: value ∧ '=' ∉ name ∧ key.Named (trim name) ∧ v = trim value

/-- What is wrong with a segment on its own. -/
inductive Faulty : List Char → Fault → Prop where
  | noValue {seg : List Char} (h : '=' ∉ seg) : Faulty seg (.noValue (String.ofList seg))
  | badValue {seg v : List Char} {key : Key} {f : Fault} (h : Sets seg key v)
    (hv : key.Refuses v f) : Faulty seg f

/-- The first segment at fault has this fault. -/
inductive FirstFault : List (List Char) → Fault → Prop where
  | here {seg : List Char} {segs : List (List Char)} {f : Fault} (h : Faulty seg f) :
    FirstFault (seg :: segs) f
  | later {seg : List Char} {segs : List (List Char)} {f : Fault} (hseg : ∀ g, ¬Faulty seg g)
    (h : FirstFault segs f) : FirstFault (seg :: segs) f

/-- The last segment that names the setting gives this value. -/
inductive LastValue (key : Key) : List (List Char) → List Char → Prop where
  | here {seg v : List Char} {segs : List (List Char)} (h : Sets seg key v)
    (hsegs : ∀ seg ∈ segs, ∀ w, ¬Sets seg key w) : LastValue key (seg :: segs) v
  | later {seg v : List Char} {segs : List (List Char)} (h : LastValue key segs v) :
    LastValue key (seg :: segs) v

/-- Every setting has the value that the last segment naming it gives, and else the one from
before. -/
def Settles (s : Settings) (segs : List (List Char)) (t : Settings) : Prop :=
  ∀ key, (∃ v, LastValue key segs v ∧ key.Means v (t.get key)) ∨
    ((∀ seg ∈ segs, ∀ v, ¬Sets seg key v) ∧ t.get key = s.get key)

/-- The segments of a text: what stands between semicolons, trimmed, and without the blank ones. -/
def segments (text : String) : List (List Char) :=
  ((text.toList.splitOn ';').map trim).filter (· ≠ [])

/-- A segment is cut into name and value in one way. -/
theorem sets_append_iff (h : '=' ∉ name) : Sets (name ++ '=' :: value) key v ↔
    key.Named (trim name) ∧ v = trim value := by
  constructor
  · rintro ⟨name', value', heq, hname', hset⟩
    have hcut := cut?_eq_some_iff.mpr ⟨heq, hname'⟩
    rw [cut?_append h] at hcut
    cases hcut
    exact hset
  · intro hset
    exact ⟨name, value, rfl, h, hset⟩

theorem applySegment_blank (h : trim part = []) : s.applySegment part = .ok s := by
  simp [applySegment, h]

theorem applySegment_congr (h : trim part = trim seg) (s : Settings) :
    s.applySegment part = s.applySegment seg := by
  rw [applySegment, applySegment, h]

/-- A segment with an equals sign does what its name and value say, whatever blanks are around. -/
theorem applySegment_entry (h : '=' ∉ name) (value : List Char) (s : Settings) :
    s.applySegment (name ++ '=' :: value) =
      match Key.ofName? (trim name) with
      | some key => s.assign key (trim value)
      | none => .ok s := by
  obtain ⟨name', value', htrim, hname', hname, hvalue⟩ := exists_trim_entry value h
  have hempty : (name' ++ '=' :: value').isEmpty = false := by cases name' <;> rfl
  simp only [applySegment, htrim, hempty, cut?_append hname', hname, hvalue]
  rfl

theorem applySegment_named (h : '=' ∉ name) (hkey : key.Named (trim name)) (value : List Char)
    (s : Settings) : s.applySegment (name ++ '=' :: value) = s.assign key (trim value) := by
  rw [applySegment_entry h, Key.ofName?_eq_some_iff.mpr hkey]

theorem applySegment_unnamed (h : '=' ∉ name) (hno : ∀ key : Key, ¬key.Named (trim name))
    (value : List Char) (s : Settings) : s.applySegment (name ++ '=' :: value) = .ok s := by
  rw [applySegment_entry h]
  cases hkey : Key.ofName? (trim name) with
  | none => rfl
  | some key => exact absurd (Key.ofName?_eq_some_iff.mp hkey) (hno key)

theorem applySegment_sets (h : Sets part key v) (s : Settings) :
    s.applySegment part = s.assign key v := by
  obtain ⟨name, value, rfl, hname, hkey, rfl⟩ := h
  exact applySegment_named hname hkey value s

/-- What a segment says that is not at fault. -/
theorem applySegment_settles (hseg : trim seg = seg) (hne : seg ≠ []) (h : ∀ f, ¬Faulty seg f)
    (s : Settings) : ∃ t, s.applySegment seg = .ok t ∧ Settles s [seg] t := by
  by_cases hmem : '=' ∈ seg
  · obtain ⟨name, value, rfl, hname⟩ := List.eq_append_cons_of_mem hmem
    by_cases hno : ∀ key : Key, ¬key.Named (trim name)
    · refine ⟨s, applySegment_unnamed hname hno value s, fun key => .inr ⟨?_, rfl⟩⟩
      refine List.forall_mem_singleton.mpr fun v hsets => ?_
      exact hno key ((sets_append_iff hname).mp hsets).1
    · obtain ⟨key, hkey⟩ := not_forall_not.mp hno
      have hsets : Sets (name ++ '=' :: value) key (trim value) :=
        (sets_append_iff hname).mpr ⟨hkey, rfl⟩
      rcases assign_cases key (trim value) with ⟨f, hf, -⟩ | hassign
      · exact absurd (.badValue hsets hf) (h f)
      · obtain ⟨t, ht, hassigned⟩ := hassign s
        refine ⟨t, (applySegment_sets hsets s).trans ht, fun other => ?_⟩
        by_cases hother : other = key
        · rw [hother]
          exact .inl ⟨_, .here hsets (by simp), hassigned.means⟩
        · refine .inr ⟨?_, hassigned.others other hother⟩
          refine List.forall_mem_singleton.mpr fun v hsets' => ?_
          exact hother (((sets_append_iff hname).mp hsets').1.unique hkey)
  · exact absurd (.noValue hmem) (h _)

theorem applySegment_faulty (hseg : trim seg = seg) (hne : seg ≠ []) (h : Faulty seg f)
    (s : Settings) : s.applySegment seg = .error f := by
  cases h with
  | noValue h =>
    have hempty : seg.isEmpty = false := by simpa using hne
    simp [applySegment, hseg, hempty, cut?_eq_none_iff.mpr h]
  | badValue hsets hv => rw [applySegment_sets hsets, assign_of_refuses hv]

theorem Settles.cons (h : Settles s [seg] t) (h' : Settles t segs u) :
    Settles s (seg :: segs) u := by
  intro key
  rcases h' key with ⟨v, hlast, hmeans⟩ | ⟨hnot, hu⟩
  · exact .inl ⟨v, .later hlast, hmeans⟩
  · rw [hu]
    rcases h key with ⟨v, hlast, hmeans⟩ | ⟨hfirst, ht⟩
    · cases hlast with
      | here hsets => exact .inl ⟨v, .here hsets hnot, hmeans⟩
      | later hlast => cases hlast
    · refine .inr ⟨List.forall_mem_cons.mpr ⟨hfirst seg List.mem_cons_self, hnot⟩, ht⟩

theorem applySegments_settles (htrim : ∀ seg ∈ segs, trim seg = seg ∧ seg ≠ [])
    (h : ∀ seg ∈ segs, ∀ f, ¬Faulty seg f) (s : Settings) :
    ∃ t, s.applySegments segs = .ok t ∧ Settles s segs t := by
  induction segs generalizing s with
  | nil => exact ⟨s, rfl, fun key => .inr ⟨by simp, rfl⟩⟩
  | cons seg segs ih =>
    obtain ⟨⟨hseg, hne⟩, htrim⟩ := List.forall_mem_cons.mp htrim
    obtain ⟨hfault, h⟩ := List.forall_mem_cons.mp h
    obtain ⟨t, ht, hst⟩ := applySegment_settles hseg hne hfault s
    obtain ⟨u, hu, htu⟩ := ih htrim h t
    refine ⟨u, ?_, hst.cons htu⟩
    simp only [applySegments, ht, hu]

theorem applySegments_firstFault (htrim : ∀ seg ∈ segs, trim seg = seg ∧ seg ≠ [])
    (h : FirstFault segs f) (s : Settings) : s.applySegments segs = .error f := by
  induction h generalizing s with
  | here h =>
    obtain ⟨hseg, hne⟩ := htrim _ List.mem_cons_self
    simp only [applySegments, applySegment_faulty hseg hne h s]
  | later hfault _ ih =>
    obtain ⟨⟨hseg, hne⟩, htrim⟩ := List.forall_mem_cons.mp htrim
    obtain ⟨t, ht, -⟩ := applySegment_settles hseg hne hfault s
    simp only [applySegments, ht, ih htrim t]

/-- Blank segments, and blanks around the others, change nothing. -/
theorem applySegments_trim (s : Settings) (parts : List (List Char)) :
    s.applySegments ((parts.map trim).filter (· ≠ [])) = s.applySegments parts := by
  induction parts generalizing s with
  | nil => rfl
  | cons part parts ih =>
    rw [List.map_cons, List.filter_cons]
    by_cases hpart : trim part = []
    · rw [if_neg (by simp [hpart]), ih, applySegments, applySegment_blank hpart]
    · rw [if_pos (by simpa using hpart), applySegments, applySegments,
        applySegment_congr (trim_trim part)]
      cases s.applySegment part with
      | ok t => exact ih t
      | error f => rfl

theorem trim_of_mem_segments {text : String} (h : seg ∈ segments text) :
    trim seg = seg ∧ seg ≠ [] := by
  obtain ⟨hmem, hne⟩ := List.mem_filter.mp h
  obtain ⟨part, -, rfl⟩ := List.mem_map.mp hmem
  exact ⟨trim_trim part, by simpa using hne⟩

theorem parse_eq (text : String) : parse text =
    match default.applySegments (segments text) with
    | .error f => .error f
    | .ok s =>
      match s.validate with
      | .ok () => .ok s
      | .error f => .error f := by
  rw [parse, splitAt_eq_splitOn, ← applySegments_trim]
  rfl

/-- No text gives an empty address. -/
theorem Settles.address_ne (h : Settles default segs s) : s.address ≠ "" := by
  rcases h .address with ⟨v, -, hmeans⟩ | ⟨-, haddress⟩
  · have htext {a : String} (ha : Key.Means .address v (.text a)) : a ≠ "" := by
      cases ha with
      | address hv =>
        split
        · simpa using hv
        · simp
    exact htext hmeans
  · have heq : s.address = default.address := by
      simpa only [get, Value.text.injEq] using haddress
    rw [heq]
    decide

/-- Settings with an address are usable unless a size is zero. -/
theorem validate_eq (h : s.address ≠ "") : s.validate =
    if s.maxFrameSize = 0 then .error .zeroMaxFrameSize
    else if s.handoffCapacity = 0 then .error .zeroHandoffCapacity
    else .ok () := by
  have hempty : s.address.isEmpty = false := by simpa using h
  simp [validate, hempty]

end Reql.Settings
