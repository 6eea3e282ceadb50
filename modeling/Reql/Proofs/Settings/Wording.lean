import Reql.Proofs.Settings.Meaning

/-! A text of settings has one meaning, however it is worded. -/
namespace Reql.Settings

/-- What stands between the semicolons of two texts differs only in how it is worded. -/
inductive Reworded : List (List Char) → List (List Char) → Prop where
  /-- A blank segment more. -/
  | blank {before after : List (List Char)} {part : List Char} (hpart : AllBlank part) :
    Reworded (before ++ after) (before ++ part :: after)
  /-- A segment more whose name is that of no setting. -/
  | unnamed {before after : List (List Char)} {name : List Char} (value : List Char)
    (h : '=' ∉ name) (hno : ∀ key : Key, ¬key.Named (trim name)) :
    Reworded (before ++ after) (before ++ (name ++ '=' :: value) :: after)
  /-- A name in another case. -/
  | recase {before after : List (List Char)} {name name' : List Char} (value : List Char)
    (h : '=' ∉ name) (h' : '=' ∉ name')
    (hcase : (trim name).map Char.toLower = (trim name').map Char.toLower) :
    Reworded (before ++ (name ++ '=' :: value) :: after)
      (before ++ (name' ++ '=' :: value) :: after)
  /-- Another name of the same setting. -/
  | rename {before after : List (List Char)} {name name' : List Char} {key : Key}
    (value : List Char) (h : '=' ∉ name) (h' : '=' ∉ name') (hkey : key.Named (trim name))
    (hkey' : key.Named (trim name')) :
    Reworded (before ++ (name ++ '=' :: value) :: after)
      (before ++ (name' ++ '=' :: value) :: after)
  /-- Blanks around a segment, -/
  | padSegment {before after : List (List Char)} {ls rs : List Char} (hls : AllBlank ls)
    (hrs : AllBlank rs) (part : List Char) :
    Reworded (before ++ part :: after) (before ++ (ls ++ part ++ rs) :: after)
  /-- around a name -/
  | padName {before after : List (List Char)} {ls rs name : List Char} (hls : AllBlank ls)
    (hrs : AllBlank rs) (h : '=' ∉ name) (value : List Char) :
    Reworded (before ++ (name ++ '=' :: value) :: after)
      (before ++ (ls ++ name ++ rs ++ '=' :: value) :: after)
  /-- and around a value. -/
  | padValue {before after : List (List Char)} {ls rs name : List Char} (hls : AllBlank ls)
    (hrs : AllBlank rs) (h : '=' ∉ name) (value : List Char) :
    Reworded (before ++ (name ++ '=' :: value) :: after)
      (before ++ (name ++ '=' :: (ls ++ value ++ rs)) :: after)
  /-- Two segments for different settings in the other order. -/
  | swap {before after : List (List Char)} {part part' v v' : List Char} {key key' : Key}
    (h : Sets part key v) (h' : Sets part' key' v') (hne : key ≠ key') :
    Reworded (before ++ part :: part' :: after) (before ++ part' :: part :: after)
  | refl (parts : List (List Char)) : Reworded parts parts
  | symm {parts parts' : List (List Char)} (h : Reworded parts parts') : Reworded parts' parts
  | trans {parts parts' parts'' : List (List Char)} (h : Reworded parts parts')
    (h' : Reworded parts' parts'') : Reworded parts parts''

variable {s t : Settings} {key key' : Key} {v v' name part part' : List Char}
  {parts parts' before after : List (List Char)}

/-- From all settings, both lists of segments lead to the same settings if to any. -/
def Alike (parts parts' : List (List Char)) : Prop :=
  ∀ s t : Settings, s.applySegments parts = .ok t ↔ s.applySegments parts' = .ok t

theorem applySegments_append : s.applySegments (before ++ after) = .ok t ↔
    ∃ u, s.applySegments before = .ok u ∧ u.applySegments after = .ok t := by
  induction before generalizing s with
  | nil => simp [applySegments]
  | cons part before ih =>
    rw [List.cons_append, applySegments, applySegments]
    cases s.applySegment part with
    | ok u => exact ih
    | error f => simp

theorem Alike.behind (h : Alike parts parts') (before : List (List Char)) :
    Alike (before ++ parts) (before ++ parts') := by
  intro s t
  rw [applySegments_append, applySegments_append]
  exact exists_congr fun u => and_congr_right fun _ => h u t

/-- A segment without effect is as good as none. -/
theorem alike_insert (h : ∀ s : Settings, s.applySegment part = .ok s) :
    Alike after (part :: after) := by
  intro s t
  rw [applySegments, h]

/-- Segments with the same effect are as good as each other. -/
theorem alike_replace (h : ∀ s : Settings, s.applySegment part = s.applySegment part') :
    Alike (part :: after) (part' :: after) := by
  intro s t
  rw [applySegments, applySegments, h]

theorem applySegments_pair (h : Sets part key v) (h' : Sets part' key' v') :
    s.applySegments [part, part'] = .ok t ↔
      ∃ u, s.assign key v = .ok u ∧ u.assign key' v' = .ok t := by
  simp only [applySegments, applySegment_sets h, applySegment_sets h']
  cases s.assign key v with
  | ok u => cases hu : u.assign key' v' <;> simp [hu]
  | error f => simp

/-- Different settings can be given in either order. -/
theorem assign_assign_comm (hne : key ≠ key')
    (h : ∃ u, s.assign key v = .ok u ∧ u.assign key' v' = .ok t) :
    ∃ u, s.assign key' v' = .ok u ∧ u.assign key v = .ok t := by
  obtain ⟨s₁, h₁, ht⟩ := h
  rcases assign_cases key v with ⟨f, -, hf⟩ | hkey
  · cases (hf s).symm.trans h₁
  rcases assign_cases key' v' with ⟨f, -, hf⟩ | hkey'
  · cases (hf s₁).symm.trans ht
  -- Both values are good from whatever settings, so they are also in the other order.
  obtain ⟨s₁', h₁', hassigned₁⟩ := hkey s
  obtain rfl := Except.ok.inj (h₁.symm.trans h₁')
  obtain ⟨t', ht', hassigned⟩ := hkey' s₁
  obtain rfl := Except.ok.inj (ht.symm.trans ht')
  obtain ⟨s₂, h₂, hassigned₂⟩ := hkey' s
  obtain ⟨u, hu, hassigned'⟩ := hkey s₂
  rw [hassigned₁.comm hne hassigned hassigned₂ hassigned']
  exact ⟨s₂, h₂, hu⟩

theorem alike_swap (h : Sets part key v) (h' : Sets part' key' v') (hne : key ≠ key') :
    Alike (part :: part' :: after) (part' :: part :: after) := by
  intro s t
  change s.applySegments ([part, part'] ++ after) = .ok t ↔
    s.applySegments ([part', part] ++ after) = .ok t
  rw [applySegments_append, applySegments_append]
  refine exists_congr fun u => and_congr_left fun _ => ?_
  rw [applySegments_pair h h', applySegments_pair h' h]
  exact ⟨assign_assign_comm hne, assign_assign_comm hne.symm⟩

theorem Reworded.alike (h : Reworded parts parts') : Alike parts parts' := by
  induction h with
  | blank hpart =>
    exact (alike_insert fun _ => applySegment_blank (trim_eq_nil_iff.mpr hpart)).behind _
  | unnamed value h hno => exact (alike_insert (applySegment_unnamed h hno value)).behind _
  | recase value h h' hcase =>
    refine (alike_replace fun s => ?_).behind _
    rw [applySegment_entry h, applySegment_entry h', Key.ofName?, Key.ofName?, hcase]
  | rename value h h' hkey hkey' =>
    refine (alike_replace fun s => ?_).behind _
    rw [applySegment_named h hkey, applySegment_named h' hkey']
  | padSegment hls hrs part =>
    exact (alike_replace (applySegment_congr (trim_padded hls hrs part).symm)).behind _
  | @padName _ _ ls rs name hls hrs h value =>
    have hpadded : '=' ∉ ls ++ name ++ rs := by
      have hequals {cs : List Char} (hcs : AllBlank cs) : '=' ∉ cs := fun hmem => by
        cases hcs '=' hmem
      simp [hequals hls, hequals hrs, h]
    refine (alike_replace fun s => ?_).behind _
    rw [applySegment_entry h, applySegment_entry hpadded, trim_padded hls hrs]
  | padValue hls hrs h value =>
    refine (alike_replace fun s => ?_).behind _
    rw [applySegment_entry h, applySegment_entry h, trim_padded hls hrs]
  | swap h h' hne => exact (alike_swap h h' hne).behind _
  | refl => exact fun s t => Iff.rfl
  | symm _ ih => exact fun s t => (ih s t).symm
  | trans _ _ ih ih' => exact fun s t => (ih s t).trans (ih' s t)

theorem parse_eq_ok_iff {text : String} : parse text = .ok s ↔
    default.applySegments (text.toList.splitOn ';') = .ok s ∧ s.validate = .ok () := by
  rw [parse, splitAt_eq_splitOn]
  cases default.applySegments (text.toList.splitOn ';') with
  | error f => simp
  | ok t =>
    cases hvalid : t.validate with
    | ok =>
      simp only [hvalid, Except.ok.injEq]
      exact ⟨fun h => ⟨h, h ▸ hvalid⟩, And.left⟩
    | error f =>
      simp only [hvalid, reduceCtorEq, false_iff]
      rintro ⟨h, hs⟩
      rw [Except.ok.inj h, hs] at hvalid
      cases hvalid

/-- The first segment at fault is the fault of the text. If there is none, each setting has what the
last segment naming it means, and only a size of zero is refused. What is accepted can be used, and
every other wording of it is accepted as the same. -/
theorem one_meaning (text : String) :
    (∀ f, FirstFault (segments text) f → parse text = .error f) ∧
    ((∀ seg ∈ segments text, ∀ f, ¬Faulty seg f) →
      ∃ s, Settles default (segments text) s ∧ parse text =
        if s.maxFrameSize = 0 then .error .zeroMaxFrameSize
        else if s.handoffCapacity = 0 then .error .zeroHandoffCapacity
        else .ok s) ∧
    ∀ s, parse text = .ok s → s.validate = .ok () ∧
      ∀ text', Reworded (text.toList.splitOn ';') (text'.toList.splitOn ';') →
        parse text' = .ok s := by
  have htrim : ∀ seg ∈ segments text, trim seg = seg ∧ seg ≠ [] :=
    fun _ => trim_of_mem_segments
  refine ⟨fun f hf => ?_, fun hsound => ?_, fun s hs => ?_⟩
  · simp only [parse_eq, applySegments_firstFault htrim hf]
  · obtain ⟨s, happly, hsettles⟩ := applySegments_settles htrim hsound default
    refine ⟨s, hsettles, ?_⟩
    simp only [parse_eq, happly, validate_eq hsettles.address_ne]
    split_ifs <;> rfl
  · obtain ⟨happly, hvalid⟩ := parse_eq_ok_iff.mp hs
    refine ⟨hvalid, fun text' hreworded => parse_eq_ok_iff.mpr ⟨?_, hvalid⟩⟩
    exact (hreworded.alike _ _).mp happly

end Reql.Settings
