import Reql.Proofs.Json.Nesting

/-! The texts that spell a tree by the grammar of JSON, and that they are read as that tree. -/
namespace Reql.Json

/-- The bytes that may stand anywhere between lexemes. -/
def Blank (b : UInt8) : Prop :=
  b = 0x20 ∨ b = 0x09 ∨ b = 0x0A ∨ b = 0x0D

inductive Piece.Spells : Piece → Bytes → Prop where
  | byte {b : UInt8} (hcontrol : 0x20 ≤ b) (hquote : b ≠ 0x22) (hbackslash : b ≠ 0x5C) :
    Spells (.byte b) [b]
  | escape {b letter : UInt8} (h : shortEscape? letter = some b) : Spells (.byte b) [0x5C, letter]
  | unit {a b c d : UInt8} {i j k l : Nat} (ha : hexDigit? a = some i) (hb : hexDigit? b = some j)
    (hc : hexDigit? c = some k) (hd : hexDigit? d = some l) :
    Spells (.unit (16 * (16 * (16 * i + j) + k) + l)) [0x5C, 0x75, a, b, c, d]

/-- How the parts of a quoted text can be written in a row. -/
inductive PiecesSpell : List Piece → Bytes → Prop where
  | nil : PiecesSpell [] []
  | cons {p : Piece} {ps : List Piece} {s s' : Bytes} (h : p.Spells s) (hrest : PiecesSpell ps s') :
    PiecesSpell (p :: ps) (s ++ s')

mutual

/-- The text spells the tree. Blanks may stand before and after every value. -/
inductive Tree.Spells : Tree → Bytes → Prop where
  | null : Tree.Spells .null (Bytes.ofString "null")
  | bool (b : Bool) : Tree.Spells (.bool b) (Bytes.ofString (if b then "true" else "false"))
  | number {n : Numeral} {s : Bytes} (h : n.Spells s) : Tree.Spells (.number n) s
  | text {ps : List Piece} {s : Bytes} (h : PiecesSpell ps s) :
    Tree.Spells (.text ps) ([0x22] ++ s ++ [0x22])
  | list {items : List Tree} {s : Bytes} (h : ItemsSpell items s) :
    Tree.Spells (.list items) ([0x5B] ++ s ++ [0x5D])
  | record {fields : List (List Piece × Tree)} {s : Bytes} (h : FieldsSpell fields s) :
    Tree.Spells (.record fields) ([0x7B] ++ s ++ [0x7D])
  | before {t : Tree} {b : UInt8} {s : Bytes} (hb : Blank b) (h : t.Spells s) :
    Tree.Spells t ([b] ++ s)
  | after {t : Tree} {b : UInt8} {s : Bytes} (hb : Blank b) (h : t.Spells s) :
    Tree.Spells t (s ++ [b])

inductive ItemsSpell : List Tree → Bytes → Prop where
  | none {s : Bytes} (h : ∀ b ∈ s, Blank b) : ItemsSpell [] s
  | last {t : Tree} {s : Bytes} (h : t.Spells s) : ItemsSpell [t] s
  | more {t u : Tree} {rest : List Tree} {s s' : Bytes} (h : t.Spells s)
    (hrest : ItemsSpell (u :: rest) s') : ItemsSpell (t :: u :: rest) (s ++ [0x2C] ++ s')

/-- The text spells the fields of an object. Blanks may also stand around the names. -/
inductive FieldsSpell : List (List Piece × Tree) → Bytes → Prop where
  | none {s : Bytes} (h : ∀ b ∈ s, Blank b) : FieldsSpell [] s
  | last {label : List Piece} {t : Tree} {s s' : Bytes} (hlabel : Tree.Spells (.text label) s)
    (h : t.Spells s') : FieldsSpell [(label, t)] (s ++ [0x3A] ++ s')
  | more {label : List Piece} {t : Tree} {f : List Piece × Tree}
    {rest : List (List Piece × Tree)} {s s' s'' : Bytes} (hlabel : Tree.Spells (.text label) s)
    (h : t.Spells s') (hrest : FieldsSpell (f :: rest) s'') :
    FieldsSpell ((label, t) :: f :: rest) (s ++ [0x3A] ++ s' ++ [0x2C] ++ s'')

end

namespace Scanner

variable {s : Scanner} {ls found : List Lexeme} {text : Bytes}

theorem digit?_of_blank {b : UInt8} (h : Blank b) : digit? b = none := by
  rcases h with rfl | rfl | rfl | rfl <;> rfl

theorem openLexeme_blank (ls : List Lexeme) {b : UInt8} (h : Blank b) :
    openLexeme ls b = .ok ⟨ls, .between⟩ :=
  if_pos h

/-- A blank is skipped, and ends a number. -/
theorem Settled.step_blank (h : Settled s ls) {b : UInt8} (hb : Blank b) :
    s.step b = .ok ⟨ls, .between⟩ := by
  rw [h.step (digit?_of_blank hb), openLexeme_blank ls hb]
  all_goals rcases hb with rfl | rfl | rfl | rfl <;> decide

theorem closes_blanks (h : ∀ b ∈ text, Blank b) : Closes text [] := by
  intro ls
  induction text with
  | nil => rfl
  | cons b rest ih =>
    obtain ⟨hb, hrest⟩ := List.forall_mem_cons.mp h
    have hstep : step ⟨ls, .between⟩ b = .ok ⟨ls, .between⟩ := openLexeme_blank ls hb
    rw [feed, hstep]
    exact ih hrest

theorem Reads.append_blank (h : Reads text found) {b : UInt8} (hb : Blank b) :
    Closes (text ++ [b]) found := by
  intro ls
  obtain ⟨s, hs, hsettled⟩ := h ls
  rw [feed_append_of_ok hs, feed, hsettled.step_blank hb]
  rfl

theorem feed_piece {p : Piece} (h : p.Spells text) (ps : List Piece) :
    feed ⟨ls, .text ps⟩ text = .ok ⟨ls, .text (p :: ps)⟩ := by
  cases h with
  | byte hcontrol hquote hbackslash =>
    exact feed_plain ps (List.forall_mem_singleton.mpr ⟨hcontrol, hquote, hbackslash⟩)
  | @escape b letter h =>
    have hletter : letter ≠ 0x75 := by
      rintro rfl
      cases h
    simp [feed, step, hletter, h]
  | unit ha hb hc hd => simp [feed, step, ha, hb, hc, hd]

theorem feed_pieces {ps : List Piece} (h : PiecesSpell ps text) (qs : List Piece) :
    feed ⟨ls, .text qs⟩ text = .ok ⟨ls, .text (ps.reverse ++ qs)⟩ := by
  induction h generalizing qs with
  | nil => rfl
  | @cons p ps s s' h _ ih =>
    rw [feed_append_of_ok (feed_piece h qs), ih, List.reverse_cons, List.append_assoc]
    rfl

theorem closes_text {ps : List Piece} (h : PiecesSpell ps text) :
    Closes ([0x22] ++ text ++ [0x22]) [.text ps] := by
  intro ls
  have hopen : feed ⟨ls, .between⟩ [0x22] = .ok ⟨ls, .text []⟩ := rfl
  have hinside : feed ⟨ls, .between⟩ ([0x22] ++ text) = .ok ⟨ls, .text ps.reverse⟩ := by
    rw [feed_append_of_ok hopen, feed_pieces h, List.append_nil]
  rw [feed_append_of_ok hinside]
  simp [feed, step, emit]

mutual

theorem reads_tree : ∀ {t : Tree} {text : Bytes}, t.Spells text → Reads text t.lexemes
  | _, _, .null | _, _, .bool true | _, _, .bool false => Closes.reads fun _ => rfl
  | _, _, .number h => reads_number h
  | _, _, .text h => (closes_text h).reads
  | _, _, .list h => by
    have hopen : Closes [0x5B] [.beginArray] := fun _ => rfl
    exact ((hopen.append_reads (reads_items h)).append_delimiter (by simp)).reads
  | _, _, .record h => by
    have hopen : Closes [0x7B] [.beginObject] := fun _ => rfl
    exact ((hopen.append_reads (reads_fields h)).append_delimiter (by simp)).reads
  | _, _, .before hb h => by
    have hblank : Closes [_] [] := closes_blanks (List.forall_mem_singleton.mpr hb)
    exact hblank.append_reads (reads_tree h)
  | _, _, .after hb h => ((reads_tree h).append_blank hb).reads

theorem reads_items : ∀ {items : List Tree} {text : Bytes}, ItemsSpell items text →
    Reads text (Tree.lexemesOfItems items)
  | _, _, .none h => (closes_blanks h).reads
  | _, _, .last h => reads_tree h
  | _, _, .more h hrest => by
    have hitem := (reads_tree h).append_delimiter (b := 0x2C) (l := .comma) (by simp)
    rw [Tree.lexemesOfItems]
    · exact hitem.append_reads (reads_items hrest)
    · simp

theorem reads_fields : ∀ {fields : List (List Piece × Tree)} {text : Bytes},
    FieldsSpell fields text → Reads text (Tree.lexemesOfFields fields)
  | _, _, .none h => (closes_blanks h).reads
  | _, _, .last hlabel h => by
    have hname := (reads_tree hlabel).append_delimiter (b := 0x3A) (l := .colon) (by simp)
    exact hname.append_reads (reads_tree h)
  | _, _, .more hlabel h hrest => by
    have hname := (reads_tree hlabel).append_delimiter (b := 0x3A) (l := .colon) (by simp)
    have hfield := hname.append_reads (reads_tree h)
    have hcomma := hfield.append_delimiter (b := 0x2C) (l := .comma) (by simp)
    rw [Tree.lexemesOfFields]
    · exact hcomma.append_reads (reads_fields hrest)
    · simp

end

end Scanner

/-- A text is read as the tree that it spells. -/
theorem readTree_of_spells {t : Tree} {text : Bytes} (h : t.Spells text) :
    readTree text = .ok t := by
  simp only [readTree, lexemes_of_reads (Scanner.reads_tree h), ofLexemes_lexemes]

end Reql.Json
