import Reql.Proofs.Json.Scanning

/-! Documents read back from their text. -/
namespace Reql.Json

open Assembly

theorem Tree.exists_lexemes : ∀ t : Tree, ∃ l rest, t.lexemes = l :: rest ∧ l ≠ .endArray
  | .null => ⟨_, _, rfl, by simp⟩
  | .bool _ => ⟨_, _, rfl, by simp⟩
  | .number _ => ⟨_, _, rfl, by simp⟩
  | .text _ => ⟨_, _, rfl, by simp⟩
  | .list _ => ⟨_, _, rfl, by simp⟩
  | .record _ => ⟨_, _, rfl, by simp⟩

theorem Assembly.step?_firstItem {l : Lexeme} (h : l ≠ .endArray) (outer : List OpenTree) :
    step? (.firstItem outer) l = step? (.value (.list [] :: outer)) l := by
  cases l <;> first | rfl | exact absurd rfl h

theorem Tree.exists_lexemesOfItems : ∀ t rest, ∃ l ls,
    lexemesOfItems (t :: rest) = l :: ls ∧ l ≠ .endArray
  | t, [] => t.exists_lexemes
  | t, u :: rest => by
    obtain ⟨l, ls, h, hl⟩ := t.exists_lexemes
    exact ⟨l, _, by rw [lexemesOfItems, h]; rfl; simp, hl⟩

/-- The first item of an array is read like any other. -/
theorem Assembly.feed?_firstItem (t : Tree) (rest : List Tree) (outer : List OpenTree) :
    (Assembly.firstItem outer).feed? (Tree.lexemesOfItems (t :: rest)) =
      (Assembly.value (.list [] :: outer)).feed? (Tree.lexemesOfItems (t :: rest)) := by
  obtain ⟨l, ls, h, hl⟩ := Tree.exists_lexemesOfItems t rest
  rw [h, feed?, List.foldlM_cons, step?_firstItem hl]
  rfl

theorem Assembly.feed?_firstName (f : List Piece × Tree) (rest : List (List Piece × Tree))
    (outer : List OpenTree) :
    (Assembly.firstName outer).feed? (Tree.lexemesOfFields (f :: rest)) =
      (Assembly.name [] outer).feed? (Tree.lexemesOfFields (f :: rest)) := by
  cases rest <;> rfl

theorem Assembly.feed?_append_of_some {a b : Assembly} {ts us : List Lexeme}
    (h : a.feed? ts = some b) : a.feed? (ts ++ us) = b.feed? us := by
  rw [feed?_append, h, Option.bind_some]

mutual

theorem feed?_lexemes : ∀ (t : Tree) (outer : List OpenTree),
    (Assembly.value outer).feed? t.lexemes = some (place t outer)
  | .null, _ | .bool _, _ | .number _, _ | .text _, _ | .list [], _ | .record [], _ => rfl
  | .list (t :: rest), outer => by
    have hopen : (Assembly.value outer).feed? [.beginArray] = some (.firstItem outer) := rfl
    have hitems := feed?_lexemesOfItems (t :: rest) (List.cons_ne_nil t rest) [] outer
    have hclose : (Assembly.afterItem ((t :: rest).reverse ++ []) outer).feed? [.endArray] =
        some (place (.list ((t :: rest).reverse ++ []).reverse) outer) := rfl
    rw [List.append_nil, List.reverse_reverse] at hclose
    rw [List.append_nil] at hitems
    rw [Tree.lexemes, List.append_assoc, feed?_append_of_some hopen, feed?_append,
      feed?_firstItem, hitems, Option.bind_some, hclose]
  | .record (f :: rest), outer => by
    have hopen : (Assembly.value outer).feed? [.beginObject] = some (.firstName outer) := rfl
    have hfields := feed?_lexemesOfFields (f :: rest) (List.cons_ne_nil f rest) [] outer
    have hclose : (Assembly.afterField ((f :: rest).reverse ++ []) outer).feed? [.endObject] =
        some (place (.record ((f :: rest).reverse ++ []).reverse) outer) := rfl
    rw [List.append_nil, List.reverse_reverse] at hclose
    rw [List.append_nil] at hfields
    rw [Tree.lexemes, List.append_assoc, feed?_append_of_some hopen, feed?_append,
      feed?_firstName, hfields, Option.bind_some, hclose]

theorem feed?_lexemesOfItems : ∀ ts ≠ [], ∀ (items : List Tree) (outer : List OpenTree),
    (Assembly.value (.list items :: outer)).feed? (Tree.lexemesOfItems ts) =
      some (.afterItem (ts.reverse ++ items) outer)
  | [], hne, _, _ => absurd rfl hne
  | [t], _, items, outer => feed?_lexemes t (.list items :: outer)
  | t :: u :: rest, _, items, outer => by
    have hitem := feed?_lexemes t (.list items :: outer)
    have hcomma : (place t (.list items :: outer)).feed? [.comma] =
        some (.value (.list (t :: items) :: outer)) := rfl
    have hitems := feed?_lexemesOfItems (u :: rest) (List.cons_ne_nil u rest) (t :: items) outer
    rw [Tree.lexemesOfItems, List.append_assoc, feed?_append_of_some hitem,
      feed?_append_of_some hcomma, hitems]
    · simp
    · simp

theorem feed?_lexemesOfFields : ∀ fs ≠ [], ∀ (fields : List (List Piece × Tree))
    (outer : List OpenTree),
    (Assembly.name fields outer).feed? (Tree.lexemesOfFields fs) =
      some (.afterField (fs.reverse ++ fields) outer)
  | [], hne, _, _ => absurd rfl hne
  | [(n, t)], _, fields, outer => feed?_lexemes t (.record fields n :: outer)
  | (n, t) :: f :: rest, _, fields, outer => by
    have hfield := feed?_lexemes t (.record fields n :: outer)
    have hname : (Assembly.name fields outer).feed? ([.text n] ++ [.colon]) =
        some (.value (.record fields n :: outer)) := rfl
    have hcomma : (place t (.record fields n :: outer)).feed? [.comma] =
        some (.name ((n, t) :: fields) outer) := rfl
    have hfields := feed?_lexemesOfFields (f :: rest) (List.cons_ne_nil f rest)
      ((n, t) :: fields) outer
    rw [Tree.lexemesOfFields, feed?_append_of_some (b := .name ((n, t) :: fields) outer), hfields]
    · simp
    · rw [feed?_append_of_some (b := place t (.record fields n :: outer)), hcomma]
      rw [feed?_append_of_some hname, hfield]
    · simp

end

theorem ofLexemes_lexemes (t : Tree) : Tree.ofLexemes t.lexemes = .ok t := by
  rw [Tree.ofLexemes, feed?_lexemes t []]
  rfl

theorem readTree_encode (j : Json) : readTree j.encode = .ok j.tree := by
  simp only [readTree, lexemes_encode, ofLexemes_lexemes]

theorem bytesOfPieces_bytes (bs : Bytes) (ps : List Piece) :
    bytesOfPieces (bs.map .byte ++ ps) = (bytesOfPieces ps).map (bs ++ ·) := by
  induction bs with
  | nil => cases h : bytesOfPieces ps <;> simp [h, Except.map]
  | cons b rest ih =>
    rw [List.map_cons, List.cons_append, bytesOfPieces, ih]
    cases bytesOfPieces ps <;> rfl

theorem bytesOfPieces_unit {u : Nat} (h : u < 0x20) (ps : List Piece) :
    bytesOfPieces (.unit u :: ps) = (bytesOfPieces ps).map (bytesOfCode u ++ ·) := by
  have hhigh : isHighSurrogate u = false := by
    simp only [isHighSurrogate, Bool.and_eq_false_iff, decide_eq_false_iff_not]
    omega
  have hlow : isLowSurrogate u = false := by
    simp only [isLowSurrogate, Bool.and_eq_false_iff, decide_eq_false_iff_not]
    omega
  cases ps with
  | nil => simp [bytesOfPieces, hhigh, hlow, Except.map]
  | cons p rest =>
    have hsome (r : Except Fault Bytes) :
        (do return bytesOfCode u ++ (← r)) = r.map (bytesOfCode u ++ ·) := by
      cases r <;> rfl
    cases p with
    | byte b =>
      simp only [bytesOfPieces, hhigh, hlow, Bool.or_false, Bool.false_eq_true, if_false]
      exact hsome _
    | unit v =>
      rw [bytesOfPieces, hhigh, hlow]
      exact hsome _

theorem bytesOfPieces_char (c : Char) (ps : List Piece) :
    bytesOfPieces (piecesOfChar c ++ ps) =
      (bytesOfPieces ps).map (String.utf8EncodeChar c ++ ·) := by
  rw [piecesOfChar]
  split
  next h =>
    have hcode : bytesOfCode c.toNat = String.utf8EncodeChar c := by
      rw [bytesOfCode, Char.ofNat_toNat, String.singleton_eq_ofList, Bytes.ofString_ofList,
        List.flatMap_singleton]
    rw [List.singleton_append, bytesOfPieces_unit h.1, hcode]
  next h => exact bytesOfPieces_bytes _ ps

theorem stringOfPieces_pieces (s : String) : stringOfPieces (pieces s) = .ok s := by
  have hchars (cs : List Char) : bytesOfPieces (cs.flatMap piecesOfChar) =
      .ok (cs.flatMap String.utf8EncodeChar) := by
    induction cs with
    | nil => rfl
    | cons c rest ih =>
      rw [List.flatMap_cons, bytesOfPieces_char, ih, List.flatMap_cons]
      rfl
  have hbytes : bytesOfPieces (pieces s) = .ok (Bytes.ofString s) := by
    rw [pieces, hchars, ← Bytes.ofString_ofList, String.ofList_toList]
  simp only [stringOfPieces, hbytes, bind, Except.bind, Bytes.toString?_ofString]

theorem ofNumeral_ofInt (n : Integer) : ofNumeral (.ofInt n.val) = .ok (.int n) := by
  obtain ⟨n, hlow, hhigh⟩ := n
  have hsize : UInt64.size = 0x10000000000000000 := rfl
  have habsorb : absorb 0 (decimal n.natAbs) = (n.natAbs, 0) := by
    have hdigits := natOfDigits_decimal n.natAbs
    rw [absorb_eq, hdigits, Nat.zero_mul, Nat.zero_add]
    rw [hdigits]
    omega
  have hvalue : (if decide (n < 0) then -(n.natAbs : Int) else n.natAbs) = n := by
    by_cases hn : n < 0
    · rw [decide_eq_true hn, if_pos rfl]
      omega
    · rw [decide_eq_false hn, if_neg Bool.false_ne_true]
      omega
  have hzero : (decide (n < 0) && n.natAbs == 0) = false := by
    rw [Bool.and_eq_false_iff, decide_eq_false_iff_not, beq_eq_false_iff_ne]
    omega
  simp only [ofNumeral, Numeral.ofInt, habsorb, hvalue, hzero]
  exact dif_pos ⟨⟨trivial, trivial, trivial, trivial⟩, hlow, hhigh⟩

/-- A document nested deeper than allowed is refused for that, any other one is read. -/
def Bounded {α : Type} (depth levels : Nat) (r : Except Fault α) : Prop :=
  if depth ≤ levels then ∃ a, r = .ok a else r = .error .tooDeep

namespace Bounded

variable {α β γ : Type} {d e levels : Nat} {r : Except Fault α} {t : Except Fault β}

theorem ok (a : α) : Bounded 0 levels (.ok a : Except Fault α) := by
  rw [Bounded, if_pos (Nat.zero_le levels)]
  exact ⟨a, rfl⟩

theorem map (h : Bounded d levels r) (f : α → β) :
    Bounded d levels (do return f (← r)) := by
  unfold Bounded at h ⊢
  split at h
  next hd =>
    obtain ⟨a, rfl⟩ := h
    rw [if_pos hd]
    exact ⟨f a, rfl⟩
  next hd =>
    rw [if_neg hd, h]
    rfl

theorem both (h : Bounded d levels r) (h' : Bounded e levels t) (f : α → β → γ) :
    Bounded (max d e) levels (do return f (← r) (← t)) := by
  unfold Bounded at h h' ⊢
  split at h
  next hd =>
    obtain ⟨a, rfl⟩ := h
    split at h'
    next he =>
      obtain ⟨b, rfl⟩ := h'
      rw [if_pos (by omega)]
      exact ⟨f a b, rfl⟩
    next he =>
      rw [if_neg (by omega), h']
      rfl
  next hd =>
    rw [if_neg (by omega), h]
    rfl

theorem nested (h : Bounded d levels r) : Bounded (d + 1) (levels + 1) r := by
  unfold Bounded at h ⊢
  simpa only [Nat.add_le_add_iff_right] using h

end Bounded

mutual

theorem bounded_ofTree : ∀ (j : Json) (levels : Nat), Bounded j.depth levels (ofTree levels j.tree)
  | .null, _ | .bool _, _ => Bounded.ok _
  | .int n, levels => by
    rw [tree, ofTree, ofNumeral_ofInt]
    exact Bounded.ok _
  | .double d, levels => by
    obtain ⟨j, hj⟩ := d.exists_ofNumeral
    rw [tree, ofTree, hj]
    exact Bounded.ok j
  | .str s, levels => by
    rw [tree, ofTree, stringOfPieces_pieces]
    exact Bounded.ok (Json.str s)
  | .arr items, 0 | .obj fields, 0 => rfl
  | .arr items, levels + 1 => ((bounded_ofTrees items levels).map Json.arr).nested
  | .obj fields, levels + 1 => ((bounded_ofFieldTrees fields levels).map ofFields).nested

theorem bounded_ofTrees : ∀ (items : List Json) (levels : Nat),
    Bounded (depthItems items) levels (ofTrees levels (treeItems items))
  | [], _ => Bounded.ok _
  | j :: rest, levels => (bounded_ofTree j levels).both (bounded_ofTrees rest levels) List.cons

theorem bounded_ofFieldTrees : ∀ (fields : List (String × Json)) (levels : Nat),
    Bounded (depthFields fields) levels (ofFieldTrees levels (treeFields fields))
  | [], _ => Bounded.ok _
  | (n, j) :: rest, levels => by
    have h := (bounded_ofTree j levels).both (bounded_ofFieldTrees rest levels)
      fun j fields => (n, j) :: fields
    rw [treeFields, ofFieldTrees, stringOfPieces_pieces]
    exact h

end

/-- Documents up to the greatest depth are read back from their text, and only they. -/
theorem read_encode (j : Json) :
    if j.depth ≤ maxLevels then ∃ j', read j.encode = .ok j'
    else read j.encode = .error (.atRest .tooDeep j.encode 0) := by
  have h := bounded_ofTree j maxLevels
  unfold Bounded at h
  split at h
  next hdepth =>
    obtain ⟨j', hj'⟩ := h
    rw [if_pos hdepth]
    exact ⟨j', by simp only [read, readTree_encode, hj']⟩
  next hdepth =>
    rw [if_neg hdepth]
    simp only [read, readTree_encode, h]

/-- An integer at the head of an array is read back as it was written. -/
theorem read_encode_arr (n : Integer) (items : List Json)
    (hdepth : (Json.arr (.int n :: items)).depth ≤ maxLevels) :
    ∃ items', read (Json.arr (.int n :: items)).encode = .ok (.arr (.int n :: items')) := by
  have h := bounded_ofTrees items 126
  have hitems : depthItems items ≤ 126 := by
    simp only [depth, depthItems, maxLevels] at hdepth
    omega
  rw [Bounded, if_pos hitems] at h
  obtain ⟨items', hitems'⟩ := h
  have hhead : ofTree maxLevels (Json.arr (.int n :: items)).tree =
      .ok (.arr (.int n :: items')) := by
    change (do return Json.arr (← ofTrees 126 (.number (.ofInt n.val) :: treeItems items))) = _
    rw [ofTrees, ofTree, ofNumeral_ofInt, hitems']
    rfl
  exact ⟨items', by simp only [read, readTree_encode, hhead]⟩

end Reql.Json
