import Mathlib.Tactic.IntervalCases
import Reql.Proofs.Double.Rereading

/-! Numbers and quoted texts as they are scanned. -/
namespace Reql

theorem Bytes.ofString_ofList (cs : List Char) :
    ofString (String.ofList cs) = cs.flatMap String.utf8EncodeChar := by
  simp [ofString, List.utf8Encode]

namespace Json

def piecesOfChar (c : Char) : List Piece :=
  if c.toNat < 0x20 ∧ c ∉ ['\n', '\r', '\t', '\x08', '\x0c'] then [.unit c.toNat]
  else (String.utf8EncodeChar c).map .byte

def pieces (s : String) : List Piece :=
  s.toList.flatMap piecesOfChar

namespace Scanner

variable {s s' : Scanner} {ls : List Lexeme} {as bs : Bytes}

theorem feed_append_of_ok (h : s.feed as = .ok s') : s.feed (as ++ bs) = s'.feed bs := by
  rcases feed_append s as bs with ⟨s₁, h₁, happend⟩ | ⟨f, n, h₁, -⟩
  · rw [h] at h₁
    cases h₁
    exact happend
  · rw [h] at h₁
    cases h₁

def digitByte (d : Nat) : UInt8 :=
  UInt8.ofNat (0x30 + d)

/-- How the sign of an exponent can be written: a plus may be left out. -/
inductive SignSpells : Bool → Bytes → Prop where
  | minus : SignSpells true [0x2D]
  | plus : SignSpells false [0x2B]
  | unsigned : SignSpells false []

/-- How an exponent can be written, after a letter of either case. -/
inductive ExponentSpells : Option (Bool × List Nat) → Bytes → Prop where
  | none : ExponentSpells none []
  | some {negative : Bool} {digits : List Nat} {mark : UInt8} {sign : Bytes}
    (hmark : mark = 0x65 ∨ mark = 0x45) (hsign : SignSpells negative sign) :
    ExponentSpells (some (negative, digits)) ([mark] ++ sign ++ digits.map digitByte)

theorem utf8EncodeChar_digitChar {d : Nat} (h : d < 10) :
    String.utf8EncodeChar d.digitChar = [digitByte d] := by
  interval_cases d <;> rfl

theorem digit?_digitByte {d : Nat} (h : d < 10) : digit? (digitByte d) = some d := by
  interval_cases d <;> rfl

theorem flatMap_digitChar {ds : List Nat} (h : ∀ d ∈ ds, d < 10) :
    (ds.map Nat.digitChar).flatMap String.utf8EncodeChar = ds.map digitByte := by
  induction ds with
  | nil => rfl
  | cons d rest ih =>
    have hd := h d List.mem_cons_self
    have hrest := ih fun e he => h e (List.mem_cons_of_mem _ he)
    rw [List.map_cons, List.flatMap_cons, hrest, utf8EncodeChar_digitChar hd, List.map_cons]
    rfl

/-- Digits of a part of a number that takes any of them. -/
theorem feed_digits (ls : List Lexeme) {stage : NumberStage} {part : List Nat → Numeral}
    (hpart : ∀ es d, d < 10 →
      extendNumber? stage (part es) (digitByte d) = some (.number stage (part (d :: es))))
    {ds : List Nat} (h : ∀ d ∈ ds, d < 10) (es : List Nat) :
    feed ⟨ls, .number stage (part es)⟩ (ds.map digitByte) =
      .ok ⟨ls, .number stage (part (ds.reverse ++ es))⟩ := by
  induction ds generalizing es with
  | nil => rfl
  | cons d rest ih =>
    have hd := hpart es d (h d List.mem_cons_self)
    have hrest := ih (fun e he => h e (List.mem_cons_of_mem _ he)) (d :: es)
    simp only [List.map_cons, feed, step, hd, hrest]
    simp

/-- A part is read with all its digits once its first digit has been taken. -/
theorem feed_part {ls : List Lexeme} {stage : NumberStage} (part : List Nat → Numeral)
    (hpart : ∀ es d, d < 10 →
      extendNumber? stage (part es) (digitByte d) = some (.number stage (part (d :: es))))
    {d : Nat} {rest : List Nat} (h : ∀ e ∈ d :: rest, e < 10)
    (hfirst : s.feed (as ++ [digitByte d]) = .ok ⟨ls, .number stage (part [d])⟩) :
    s.feed (as ++ (d :: rest).map digitByte) =
      .ok ⟨ls, .number stage (part (d :: rest).reverse)⟩ := by
  have hrest := feed_digits ls hpart (fun e he => h e (List.mem_cons_of_mem _ he)) [d]
  rw [List.map_cons, List.append_cons, feed_append_of_ok hfirst, hrest, List.reverse_cons]

theorem feed_whole (ls : List Lexeme) {n : Numeral} (hn : n.Proper) : ∃ stage,
    (stage = .zero ∨ stage = .whole) ∧
    feed ⟨ls, .between⟩ ((if n.negative then [0x2D] else []) ++ n.whole.map digitByte) =
      .ok ⟨ls, .number stage ⟨n.negative, n.whole.reverse, [], none⟩⟩ := by
  obtain ⟨d, rest, hwhole, hzero⟩ := hn.leading
  have hlt : ∀ e ∈ d :: rest, e < 10 := hwhole ▸ hn.whole
  have hd : d < 10 := hlt d List.mem_cons_self
  rw [hwhole]
  by_cases h : d = 0
  · refine ⟨.zero, Or.inl rfl, ?_⟩
    rw [hzero h, h]
    cases n.negative <;> rfl
  · refine ⟨.whole, Or.inr rfl, ?_⟩
    apply feed_part (fun es => ⟨n.negative, es, [], none⟩) _ hlt
    · have hpos : 1 ≤ d := Nat.one_le_iff_ne_zero.mpr h
      cases n.negative <;> interval_cases d <;> rfl
    · intro es e he
      simp only [extendNumber?, digit?_digitByte he]

theorem feed_fraction (ls : List Lexeme) {stage : NumberStage}
    (hstage : stage = .zero ∨ stage = .whole) {n : Numeral} (hn : n.Proper) : ∃ stage',
    (stage' = .zero ∨ stage' = .whole ∨ stage' = .fraction) ∧
    feed ⟨ls, .number stage ⟨n.negative, n.whole.reverse, [], none⟩⟩
        (if n.fraction = [] then [] else 0x2E :: n.fraction.map digitByte) =
      .ok ⟨ls, .number stage' ⟨n.negative, n.whole.reverse, n.fraction.reverse, none⟩⟩ := by
  cases hfraction : n.fraction with
  | nil => exact ⟨stage, hstage.imp_right Or.inl, rfl⟩
  | cons d rest =>
    have hlt : ∀ e ∈ d :: rest, e < 10 := hfraction ▸ hn.fraction
    have hd : d < 10 := hlt d List.mem_cons_self
    refine ⟨.fraction, Or.inr (Or.inr rfl), ?_⟩
    rw [if_neg (List.cons_ne_nil d rest), ← List.singleton_append]
    apply feed_part (fun es => ⟨n.negative, n.whole.reverse, es, none⟩) _ hlt
    · rcases hstage with rfl | rfl <;> interval_cases d <;> rfl
    · intro es e he
      simp only [extendNumber?, digit?_digitByte he]

/-- After its mark and its sign an exponent waits for digits. -/
theorem feed_exponent_sign (ls : List Lexeme) {stage : NumberStage}
    (hstage : stage = .zero ∨ stage = .whole ∨ stage = .fraction) (n : Numeral) {mark : UInt8}
    (hmark : mark = 0x65 ∨ mark = 0x45) {negative : Bool} {sign : Bytes}
    (hsign : SignSpells negative sign) {d : Nat} (hd : d < 10) :
    feed ⟨ls, .number stage n⟩ ([mark] ++ sign ++ [digitByte d]) =
      .ok ⟨ls, .number .exponent { n with exponent := some (negative, [d]) }⟩ := by
  rcases hstage with rfl | rfl | rfl <;> rcases hmark with rfl | rfl <;> cases hsign <;>
    interval_cases d <;> rfl

theorem feed_exponent (ls : List Lexeme) {stage : NumberStage}
    (hstage : stage = .zero ∨ stage = .whole ∨ stage = .fraction) {n : Numeral} (hn : n.Proper)
    {text : Bytes} (h : ExponentSpells n.exponent text) :
    ∃ stage', stage'.complete = true ∧
    feed ⟨ls, .number stage ⟨n.negative, n.whole.reverse, n.fraction.reverse, none⟩⟩ text =
      .ok ⟨ls, .number stage' ⟨n.negative, n.whole.reverse, n.fraction.reverse,
        n.exponent.map fun e => (e.1, e.2.reverse)⟩⟩ := by
  have hdigits := hn.exponent
  generalize n.exponent = exponent at h hdigits
  cases h with
  | none =>
    refine ⟨stage, ?_, rfl⟩
    rcases hstage with rfl | rfl | rfl <;> rfl
  | @some negative digits mark sign hmark hsign =>
    obtain ⟨hne, hlt⟩ := hdigits (negative, digits) rfl
    obtain ⟨d, rest, rfl⟩ := List.exists_cons_of_ne_nil hne
    refine ⟨.exponent, rfl, ?_⟩
    apply feed_part
      (fun es => ⟨n.negative, n.whole.reverse, n.fraction.reverse, some (negative, es)⟩) _ hlt
    · exact feed_exponent_sign ls hstage _ hmark hsign (hlt d List.mem_cons_self)
    · intro es e he
      simp only [extendNumber?, digit?_digitByte he, Option.map_some]

theorem utf8_chars {n : Numeral} (hn : n.Proper) :
    n.chars.flatMap String.utf8EncodeChar =
      (if n.negative then [0x2D] else []) ++ n.whole.map digitByte ++
        (if n.fraction = [] then [] else 0x2E :: n.fraction.map digitByte) ++
        match n.exponent with
        | none => []
        | some (negative, digits) =>
          [0x65, if negative then 0x2D else 0x2B] ++ digits.map digitByte := by
  have hsign : (if n.negative then ['-'] else []).flatMap String.utf8EncodeChar =
      if n.negative then [0x2D] else [] := by
    cases n.negative <;> rfl
  have hfraction : (if n.fraction = [] then [] else '.' :: n.fraction.map Nat.digitChar).flatMap
      String.utf8EncodeChar =
      if n.fraction = [] then [] else 0x2E :: n.fraction.map digitByte := by
    split
    next => rfl
    next => rw [List.flatMap_cons, flatMap_digitChar hn.fraction]; rfl
  rw [Numeral.chars, List.flatMap_append, List.flatMap_append, List.flatMap_append, hsign,
    hfraction, flatMap_digitChar hn.whole]
  congr 1
  cases hexponent : n.exponent with
  | none => rfl
  | some e =>
    obtain ⟨negative, digits⟩ := e
    have hlt := (hn.exponent (negative, digits) hexponent).2
    rw [List.flatMap_cons, List.flatMap_cons, flatMap_digitChar hlt]
    cases negative <;> rfl

/-- Exponents are printed with a small letter and always with a sign. -/
theorem exponentSpells_text (n : Numeral) : ExponentSpells n.exponent
    (match n.exponent with
    | none => []
    | some (negative, digits) =>
      [0x65, if negative then 0x2D else 0x2B] ++ digits.map digitByte) := by
  cases n.exponent with
  | none => exact .none
  | some e =>
    obtain ⟨negative, digits⟩ := e
    cases negative with
    | false => exact .some (.inl rfl) .plus
    | true => exact .some (.inl rfl) .minus

theorem feed_plain (ps : List Piece) (h : ∀ b ∈ bs, 0x20 ≤ b ∧ b ≠ 0x22 ∧ b ≠ 0x5C) :
    feed ⟨ls, .text ps⟩ bs = .ok ⟨ls, .text ((bs.map .byte).reverse ++ ps)⟩ := by
  induction bs generalizing ps with
  | nil => rfl
  | cons b rest ih =>
    obtain ⟨hcontrol, hquote, hbackslash⟩ := h b List.mem_cons_self
    have hrest := ih (.byte b :: ps) fun c hc => h c (List.mem_cons_of_mem _ hc)
    simp only [feed, step, if_neg hquote, if_neg hbackslash, if_neg (UInt8.not_lt.mpr hcontrol),
      hrest]
    simp

/-- A byte of a character is the character itself or no ASCII character at all. -/
theorem mem_utf8EncodeChar {c : Char} {b : UInt8} (h : b ∈ String.utf8EncodeChar c) :
    b.toNat = c.toNat ∨ 0x80 ≤ b.toNat := by
  have hval : c.val.toNat = c.toNat := rfl
  rw [String.utf8EncodeChar] at h
  split_ifs at h with h₁ h₂ h₃
  all_goals
    simp only [List.mem_cons, List.not_mem_nil, or_false] at h
  · rw [h, UInt8.toNat_ofNat']
    omega
  · rcases h with h | h <;> rw [h, UInt8.toNat_ofNat'] <;> omega
  · rcases h with h | h | h <;> rw [h, UInt8.toNat_ofNat'] <;> omega
  · rcases h with h | h | h | h <;> rw [h, UInt8.toNat_ofNat'] <;> omega

theorem feed_escape (c : Char) {ps : List Piece} :
    feed ⟨ls, .text ps⟩ ((escape c).flatMap String.utf8EncodeChar) =
      .ok ⟨ls, .text ((piecesOfChar c).reverse ++ ps)⟩ := by
  by_cases hcontrol : c.toNat < 0x20
  · -- Short escapes lie among the others here, so each control character is worked out.
    have hc : c = Char.ofNat c.toNat := (Char.ofNat_toNat c).symm
    generalize c.toNat = n at hc hcontrol
    subst hc
    interval_cases n <;> rfl
  by_cases hquote : c = '"'
  · rw [hquote]
    rfl
  by_cases hbackslash : c = '\\'
  · rw [hbackslash]
    rfl
  have hne (d : Char) (hd : d.toNat < 0x20) : c ≠ d := by
    intro h
    exact hcontrol (h ▸ hd)
  have hescape : escape c = [c] := by
    simp only [escape, hquote, hbackslash, hcontrol, hne '\n' (by decide), hne '\r' (by decide),
      hne '\t' (by decide), hne '\x08' (by decide), hne '\x0c' (by decide), if_false]
  have hpieces : piecesOfChar c = (String.utf8EncodeChar c).map .byte :=
    if_neg fun h => hcontrol h.1
  rw [hescape, hpieces, List.flatMap_cons, List.flatMap_nil, List.append_nil]
  apply feed_plain
  intro b hb
  have hbyte := mem_utf8EncodeChar hb
  have hother (d : Char) (h : c ≠ d) (hd : d.toNat < 0x80) : b ≠ UInt8.ofNat d.toNat := by
    intro hb
    rw [hb, UInt8.toNat_ofNat'] at hbyte
    have hcode : c.toNat ≠ d.toNat := fun hcode => h (Char.toNat_inj.mp hcode)
    omega
  refine ⟨?_, hother '"' hquote (by decide), hother '\\' hbackslash (by decide)⟩
  have hspace : (0x20 : UInt8).toNat = 0x20 := rfl
  rw [UInt8.le_iff_toNat_le, hspace]
  omega

theorem feed_escapes (ls : List Lexeme) (cs : List Char) (ps : List Piece) :
    feed ⟨ls, .text ps⟩ ((cs.flatMap escape).flatMap String.utf8EncodeChar) =
      .ok ⟨ls, .text ((cs.flatMap piecesOfChar).reverse ++ ps)⟩ := by
  induction cs generalizing ps with
  | nil => rfl
  | cons c rest ih =>
    rw [List.flatMap_cons, List.flatMap_append, feed_append_of_ok (feed_escape c), ih,
      List.flatMap_cons, List.reverse_append, List.append_assoc]

theorem feed_quote (s : String) :
    feed ⟨ls, .between⟩ (Bytes.ofString (quote s)) = .ok ⟨.text (pieces s) :: ls, .between⟩ := by
  have hopen : feed ⟨ls, .between⟩ (String.utf8EncodeChar '"') = .ok ⟨ls, .text []⟩ := rfl
  have hinside := feed_escapes ls s.toList []
  have hclose : feed ⟨ls, .text ((s.toList.flatMap piecesOfChar).reverse ++ [])⟩
      (String.utf8EncodeChar '"') = .ok ⟨.text (pieces s) :: ls, .between⟩ := by
    simp [feed, step, emit, pieces, String.utf8EncodeChar]
  rw [quote, Bytes.ofString_ofList, List.cons_append, List.flatMap_cons, feed_append_of_ok hopen,
    List.flatMap_append, feed_append_of_ok hinside, List.flatMap_singleton, hclose]

end Scanner
end Json
end Reql
