import Reql.Proofs.Json.Literals

/-! What the scanner finds in the text of a document. -/
namespace Reql.Json

mutual

def tree : Json → Tree
  | .null => .null
  | .bool b => .bool b
  | .int n => .number (.ofInt n.val)
  | .double d => .number d.numeral
  | .str s => .text (pieces s)
  | .arr items => .list (treeItems items)
  | .obj fields => .record (treeFields fields)

def treeItems : List Json → List Tree
  | [] => []
  | j :: rest => tree j :: treeItems rest

def treeFields : List (String × Json) → List (List Piece × Tree)
  | [] => []
  | (n, j) :: rest => (pieces n, tree j) :: treeFields rest

end

mutual

def Tree.lexemes : Tree → List Lexeme
  | .null => [.null]
  | .bool b => [.bool b]
  | .number n => [.number n]
  | .text pieces => [.text pieces]
  | .list items => [.beginArray] ++ lexemesOfItems items ++ [.endArray]
  | .record fields => [.beginObject] ++ lexemesOfFields fields ++ [.endObject]

def Tree.lexemesOfItems : List Tree → List Lexeme
  | [] => []
  | [t] => t.lexemes
  | t :: rest => t.lexemes ++ [.comma] ++ lexemesOfItems rest

def Tree.lexemesOfFields : List (List Piece × Tree) → List Lexeme
  | [] => []
  | [(n, t)] => [.text n] ++ [.colon] ++ t.lexemes
  | (n, t) :: rest => [.text n] ++ [.colon] ++ t.lexemes ++ [.comma] ++ lexemesOfFields rest

end

structure Numeral.Spells (n : Numeral) (text : Bytes) : Prop where
  proper : n.Proper
  parts : ∃ exponent, Scanner.ExponentSpells n.exponent exponent ∧
    text = (if n.negative then [0x2D] else []) ++ n.whole.map Scanner.digitByte ++
      (if n.fraction = [] then [] else 0x2E :: n.fraction.map Scanner.digitByte) ++ exponent

namespace Scanner

variable {s : Scanner} {ls found more : List Lexeme} {as bs : Bytes}

/-- The lexemes are complete, the latest maybe only if no more bytes belong to it. -/
inductive Settled : Scanner → List Lexeme → Prop
  | between (ls : List Lexeme) : Settled ⟨ls, .between⟩ ls
  | number (ls : List Lexeme) {stage : NumberStage} (n : Numeral)
      (hstage : stage.complete = true) : Settled ⟨ls, .number stage n⟩ (numberLexeme n :: ls)

theorem Settled.finish (h : Settled s ls) : s.finish = .ok ls.reverse := by
  cases h with
  | between => rfl
  | number ls n hstage => simp only [Scanner.finish, hstage, if_true]

/-- A byte that belongs to no number is read as if nothing was pending. -/
theorem Settled.step (h : Settled s ls) {b : UInt8} (hdigit : digit? b = none)
    (hpoint : b ≠ 0x2E) (hsmall : b ≠ 0x65) (hcapital : b ≠ 0x45) :
    s.step b = openLexeme ls b := by
  cases h with
  | between => rfl
  | @number ls stage n hstage =>
    have hend : extendNumber? stage n b = none := by
      cases stage <;> simp [NumberStage.complete] at hstage <;>
        simp [extendNumber?, hdigit, hpoint, hsmall, hcapital]
    simp only [Scanner.step, hend, hdigit, hstage, Option.isSome_none, Bool.false_eq_true,
      and_false, if_false, if_true]

def Reads (text : Bytes) (found : List Lexeme) : Prop :=
  ∀ ls, ∃ s, feed ⟨ls, .between⟩ text = .ok s ∧ Settled s (found.reverse ++ ls)

/-- The text is read as these lexemes, whatever follows. -/
def Closes (text : Bytes) (found : List Lexeme) : Prop :=
  ∀ ls, feed ⟨ls, .between⟩ text = .ok ⟨found.reverse ++ ls, .between⟩

theorem Closes.reads (h : Closes as found) : Reads as found :=
  fun ls => ⟨_, h ls, .between _⟩

theorem Closes.append (h : Closes as found) (h' : Closes bs more) :
    Closes (as ++ bs) (found ++ more) := by
  intro ls
  rw [feed_append_of_ok (h ls), h', List.reverse_append, List.append_assoc]

theorem Closes.append_reads (h : Closes as found) (h' : Reads bs more) :
    Reads (as ++ bs) (found ++ more) := by
  intro ls
  obtain ⟨s, hs, hsettled⟩ := h' (found.reverse ++ ls)
  refine ⟨s, ?_, ?_⟩
  · rw [feed_append_of_ok (h ls), hs]
  · rw [List.reverse_append, List.append_assoc]
    exact hsettled

/-- A comma, a colon or a closing bracket ends what is before it. -/
theorem Reads.append_delimiter (h : Reads as found) {b : UInt8} {l : Lexeme}
    (hb : (b, l) ∈ [((0x2C : UInt8), Lexeme.comma), (0x3A, .colon), (0x5D, .endArray),
      (0x7D, .endObject)]) :
    Closes (as ++ [b]) (found ++ [l]) := by
  intro ls
  obtain ⟨s, hs, hsettled⟩ := h ls
  have hopen : s.step b = .ok ⟨l :: found.reverse ++ ls, .between⟩ := by
    simp only [List.mem_cons, Prod.mk.injEq, List.not_mem_nil, or_false] at hb
    rcases hb with ⟨rfl, rfl⟩ | ⟨rfl, rfl⟩ | ⟨rfl, rfl⟩ | ⟨rfl, rfl⟩ <;>
      exact hsettled.step rfl (by decide) (by decide) (by decide)
  rw [feed_append_of_ok hs, feed, hopen, List.reverse_append]
  rfl

theorem reads_number {n : Numeral} {text : Bytes} (h : n.Spells text) : Reads text [.number n] := by
  intro ls
  obtain ⟨hn, exponent, hexponent, rfl⟩ := h
  obtain ⟨stage₁, hstage₁, hwhole⟩ := feed_whole ls hn
  obtain ⟨stage₂, hstage₂, hfraction⟩ := feed_fraction ls hstage₁ hn
  obtain ⟨stage₃, hcomplete, hrest⟩ := feed_exponent ls hstage₂ hn hexponent
  have hpoint := (feed_append_of_ok hwhole).trans hfraction
  have hsettled := Settled.number ls ⟨n.negative, n.whole.reverse, n.fraction.reverse,
    n.exponent.map fun e => (e.1, e.2.reverse)⟩ hcomplete
  refine ⟨_, by rw [feed_append_of_ok hpoint, hrest], ?_⟩
  simpa [numberLexeme, Function.comp_def] using hsettled

theorem reads_numeral {n : Numeral} (hn : n.Proper) :
    Reads (Bytes.ofString (String.ofList n.chars)) [.number n] := by
  rw [Bytes.ofString_ofList, utf8_chars hn]
  exact reads_number ⟨hn, _, exponentSpells_text n, rfl⟩

theorem closes_quote (s : String) : Closes (Bytes.ofString (quote s)) [.text (pieces s)] :=
  fun _ => feed_quote s

mutual

theorem reads_render : ∀ j : Json, Reads (Bytes.ofString j.render) j.tree.lexemes
  | .null | .bool true | .bool false => Closes.reads fun _ => rfl
  | .int n => by
    rw [render, Numeral.toString_eq_chars]
    exact reads_numeral (Numeral.proper_ofInt n.val)
  | .double d => by
    rw [render, Double.text_eq_chars]
    exact reads_numeral d.proper_numeral
  | .str s => (closes_quote s).reads
  | .arr items => by
    have hopen : Closes (Bytes.ofString "[") [.beginArray] := fun _ => rfl
    have hitems := hopen.append_reads (reads_renderItems items)
    rw [render, Bytes.ofString_append, Bytes.ofString_append]
    exact (hitems.append_delimiter (b := 0x5D) (by simp)).reads
  | .obj fields => by
    have hopen : Closes (Bytes.ofString "\x7b") [.beginObject] := fun _ => rfl
    have hfields := hopen.append_reads (reads_renderFields fields)
    rw [render, Bytes.ofString_append, Bytes.ofString_append]
    exact (hfields.append_delimiter (b := 0x7D) (by simp)).reads

theorem reads_renderItems : ∀ items : List Json,
    Reads (Bytes.ofString (renderItems items)) (Tree.lexemesOfItems (treeItems items))
  | [] => Closes.reads fun _ => rfl
  | [j] => reads_render j
  | j :: k :: rest => by
    have hitem := (reads_render j).append_delimiter (b := 0x2C) (l := .comma) (by simp)
    have hitems := hitem.append_reads (reads_renderItems (k :: rest))
    rw [renderItems, Bytes.ofString_append, Bytes.ofString_append]
    · exact hitems
    · simp

theorem reads_renderFields : ∀ fields : List (String × Json),
    Reads (Bytes.ofString (renderFields fields)) (Tree.lexemesOfFields (treeFields fields))
  | [] => Closes.reads fun _ => rfl
  | [(n, j)] => by
    have hcolon : Closes (Bytes.ofString ":") [.colon] := fun _ => rfl
    rw [renderFields, Bytes.ofString_append, Bytes.ofString_append]
    exact ((closes_quote n).append hcolon).append_reads (reads_render j)
  | (n, j) :: f :: rest => by
    have hcolon : Closes (Bytes.ofString ":") [.colon] := fun _ => rfl
    have hfield := ((closes_quote n).append hcolon).append_reads (reads_render j)
    have hcomma := hfield.append_delimiter (b := 0x2C) (l := .comma) (by simp)
    rw [renderFields, Bytes.ofString_append, Bytes.ofString_append, Bytes.ofString_append,
      Bytes.ofString_append]
    · exact hcomma.append_reads (reads_renderFields (f :: rest))
    · simp

end

end Scanner

theorem lexemes_of_reads {text : Bytes} {found : List Lexeme} (h : Scanner.Reads text found) :
    lexemes text = .ok found := by
  obtain ⟨s, hfeed, hsettled⟩ := h []
  rw [List.append_nil] at hsettled
  have hfinish : s.finish = .ok found := by
    rw [hsettled.finish, List.reverse_reverse]
  have hstart : Scanner.start.feed text = .ok s := hfeed
  simp only [lexemes, hstart, bind, Except.bind, hfinish]

/-- The text of a document is read as what it was written from. -/
theorem lexemes_encode (j : Json) : lexemes j.encode = .ok j.tree.lexemes :=
  lexemes_of_reads (Scanner.reads_render j)

end Reql.Json
