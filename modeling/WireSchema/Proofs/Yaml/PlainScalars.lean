import WireSchema.Proofs.Text.Utf8
import WireSchema.Proofs.Yaml.Expansion
import WireSchema.Proofs.Yaml.Numerals
import WireSchema.Yaml.Page

/-!
# A numeral as a document

A document that is one numeral is written as it is, on a line of its own, and this text is parsed as the
same plain scalar. No character of a numeral is a blank, ends a line or indicates anything, but for a
dash at the front; a digit stands behind that one.
-/

namespace WireSchema.Yaml

/-! ## The characters of a numeral -/

/-- A character from the dash to the nine. -/
def IsNumeralChar (c : Char) : Prop := 0x2D ≤ c.toNat ∧ c.toNat ≤ 0x39

namespace IsNumeralChar

variable {c : Char}

theorem ne (h : IsNumeralChar c) {x : Char} (hx : x.toNat < 0x2D ∨ 0x39 < x.toNat) : c ≠ x := by
  rintro rfl
  have := h.1
  have := h.2
  omega

theorem beq (h : IsNumeralChar c) {x : Char} (hx : x.toNat < 0x2D ∨ 0x39 < x.toNat) :
    (c == x) = false := by
  simpa using h.ne hx

theorem not_mem_of_far (h : IsNumeralChar c) {l : List Char}
    (hl : (l.all fun x => x.toNat < 0x2D || 0x39 < x.toNat) = true) : c ∉ l := by
  intro hmem
  have hfar := List.all_eq_true.mp hl c hmem
  simp only [Bool.or_eq_true, decide_eq_true_eq] at hfar
  exact h.ne hfar rfl

theorem isBlank (h : IsNumeralChar c) : isBlank c = false := by
  simp [Yaml.isBlank, h.ne (x := ' ') (by decide), h.ne (x := '\t') (by decide)]

theorem isBreak (h : IsNumeralChar c) : isBreak c = false := by
  simp [Yaml.isBreak, h.ne (x := '\n') (by decide), h.ne (x := '\r') (by decide),
    h.ne (x := '\u0085') (by decide), h.ne (x := '\u2028') (by decide),
    h.ne (x := '\u2029') (by decide)]

theorem isShown (h : IsNumeralChar c) : isShown c = true := by
  have := h.1
  have := h.2
  simp only [Yaml.isShown, Bool.or_eq_true, Bool.and_eq_true, decide_eq_true_eq]
  omega

theorem isAllowed (h : IsNumeralChar c) : isAllowed c = true := by
  have := h.1
  have := h.2
  simp only [Yaml.isAllowed, Bool.or_eq_true, Bool.and_eq_true, decide_eq_true_eq]
  omega

end IsNumeralChar

/-- The characters are those of a numeral: a dash stands before something else than a dash, and there is
no point at the front. -/
structure IsWord (cs : List Char) : Prop where
  chars : ∀ c ∈ cs, IsNumeralChar c
  ne_nil : cs ≠ []
  point : cs.head? ≠ some '.'
  dash : ∀ rest, cs = '-' :: rest → ∃ d rest', rest = d :: rest' ∧ d ≠ '-'

section Characters

variable {t : Text}

theorem bytes_of_isNumeral (h : IsNumeral t) : ∀ b ∈ t, 0x2D ≤ b.toNat ∧ b.toNat ≤ 0x39 := by
  obtain ⟨negative, whole, kept, rfl, hw, hk⟩ := h
  have hdigit (b : UInt8) (hb : Text.isDigit b = true) : 0x2D ≤ b.toNat ∧ b.toNat ≤ 0x39 := by
    simp only [Text.isDigit, Bool.and_eq_true, decide_eq_true_eq, UInt8.le_iff_toNat_le] at hb
    exact ⟨le_trans (by decide) hb.1, hb.2⟩
  have hbytes : ∀ b ∈ Binary.numeral whole kept [], 0x2D ≤ b.toNat ∧ b.toNat ≤ 0x39 := by
    intro b hb
    rw [Meaning.numeral_eq] at hb
    rcases List.mem_append.mp hb with hb | hb
    · exact hdigit b (hw.2 b hb)
    · split_ifs at hb
      · cases hb
      · rcases List.mem_cons.mp hb with rfl | hb
        · decide
        · exact hdigit b (hk b hb)
  cases negative with
  | false => exact hbytes
  | true => exact List.forall_mem_cons.mpr ⟨by decide, hbytes⟩

theorem ofChars_ascii (h : ∀ b ∈ t, b.toNat < 0x80) :
    Text.ofChars (t.map fun b => Char.ofNat b.toNat) = t := by
  induction t with
  | nil => rfl
  | cons b t ih =>
    obtain ⟨hb, ht⟩ := List.forall_mem_cons.mp h
    rw [List.map_cons, Text.ofChars, List.flatMap_cons, Text.utf8_ascii (UInt8.lt_iff_toNat_lt.mpr hb)]
    exact congrArg (b :: ·) (ih ht)

theorem isWord_of_isNumeral (h : IsNumeral t) : ∃ cs, t = Text.ofChars cs ∧ IsWord cs := by
  have hbytes := bytes_of_isNumeral h
  have hchar (b : UInt8) (hb : b ∈ t) : (Char.ofNat b.toNat).toNat = b.toNat :=
    Text.toNat_ofNat_valid (.inl (by have := (hbytes b hb).2; omega))
  refine ⟨t.map fun b => Char.ofNat b.toNat, ?_, ?_⟩
  · exact (ofChars_ascii fun b hb => by have := (hbytes b hb).2; omega).symm
  obtain ⟨negative, d, rest, rfl, hd⟩ := Meaning.exists_digit_of_isNumeral h
  have hdigit : 0x30 ≤ d.toNat := by
    simp only [Text.isDigit, Bool.and_eq_true, decide_eq_true_eq, UInt8.le_iff_toNat_le] at hd
    exact hd.1
  have hne (x : Char) (hx : x.toNat < 0x30) : Char.ofNat d.toNat ≠ x := by
    rintro rfl
    rw [hchar d (by cases negative <;> simp [Text.signed])] at hx
    omega
  constructor
  · refine List.forall_mem_map.mpr fun b hb => ?_
    rw [IsNumeralChar, hchar b hb]
    exact hbytes b hb
  · cases negative <;> simp [Text.signed]
  · cases negative with
    | false => simpa [Text.signed] using hne '.' (by decide)
    | true => exact fun hpoint => absurd (Option.some.inj hpoint) (by decide)
  · intro rest' heq
    cases negative with
    | false => exact absurd (List.cons.inj heq).1 (hne '-' (by decide))
    | true => exact ⟨_, _, (List.cons.inj heq).2.symm, hne '-' (by decide)⟩

theorem chars?_ofChars (cs : List Char) : Text.chars? (Text.ofChars cs) = some cs := by
  rw [Text.chars?, Text.pieces_ofChars]
  induction cs with
  | nil => rfl
  | cons c cs ih => rw [List.map_cons, List.mapM_cons, ih]; rfl

end Characters

/-! ## Writing -/

section Writing

variable {cs : List Char}

theorem scan_numeral {t : Traits} {p : Char} (hp : IsNumeralChar p) (h : ∀ c ∈ cs, IsNumeralChar c) :
    t.scan (some p) cs = t := by
  induction cs generalizing p with
  | nil => rfl
  | cons c cs ih =>
    obtain ⟨hc, hcs⟩ := List.forall_mem_cons.mp h
    have hspace : (c == ' ') = false := hc.beq (by decide)
    have htab : (c == '\t') = false := hc.beq (by decide)
    have hcolon : (c == ':') = false := hc.beq (by decide)
    have hhash : (c == '#') = false := hc.beq (by decide)
    rw [Traits.scan]
    simp only [Traits.indicatesInside, hc.isBreak, hc.isShown, hspace, htab, hcolon, hhash,
      Bool.false_and, Bool.and_false, Bool.or_false, Bool.not_true]
    exact ih hc hcs

theorem indicatesFirst_word {c : Char} {rest : List Char} (h : IsWord (c :: rest)) :
    Traits.indicatesFirst c rest = false := by
  have hc : IsNumeralChar c := h.chars c (.head _)
  have hquestion : (c == '?') = false := hc.beq (by decide)
  have hcolon : (c == ':') = false := hc.beq (by decide)
  simp only [Traits.indicatesFirst, hquestion, hcolon, Bool.or_false, Bool.false_or, beq_iff_eq]
  split_ifs with hdash
  · subst hdash
    obtain ⟨d, rest', rfl, -⟩ := h.dash rest rfl
    exact (h.chars d (by simp)).isBlank
  · rw [← Bool.not_eq_true, List.contains_iff_mem]
    exact hc.not_mem_of_far (by decide +kernel)

theorem ofChars_word (h : IsWord cs) : Traits.ofChars cs = {} := by
  obtain ⟨c, rest, rfl⟩ := List.exists_cons_of_ne_nil h.ne_nil
  obtain ⟨hc, hrest⟩ := List.forall_mem_cons.mp h.chars
  have hdashes : "---".toList.isPrefixOf (c :: rest) = false := by
    rw [← Bool.not_eq_true, List.isPrefixOf_iff_prefix]
    rintro ⟨more, hmore⟩
    obtain ⟨d, rest', hrest', hd⟩ := h.dash _ hmore.symm
    exact hd (List.cons.inj hrest').1.symm
  have hpoints : "...".toList.isPrefixOf (c :: rest) = false := by
    rw [← Bool.not_eq_true, List.isPrefixOf_iff_prefix]
    rintro ⟨more, hmore⟩
    exact h.point (by rw [← hmore]; rfl)
  have hspace : (c == ' ') = false := hc.beq (by decide)
  have htab : (c == '\t') = false := hc.beq (by decide)
  rw [Traits.ofChars, hdashes, hpoints, Traits.scan]
  simp only [indicatesFirst_word h, hc.isBreak, hc.isShown, hspace, htab, Bool.and_false,
    Bool.or_false, Bool.not_true]
  exact scan_numeral hc hrest

/-- A numeral needs no quotes. -/
theorem chooseStyle_word (h : IsWord cs) : chooseStyle false cs = .plain := by
  have hbreak : cs.contains '\n' = false := by
    rw [← Bool.not_eq_true, List.contains_iff_mem]
    exact fun hmem => (h.chars _ hmem).ne (x := '\n') (by decide) rfl
  simp only [chooseStyle, hbreak, ofChars_word h]
  rfl

theorem puts_eq (p : Page) (cs : List Char) :
    p.puts cs = { p with out := cs.reverse ++ p.out, column := p.column + cs.length } := by
  induction cs generalizing p with
  | nil => rfl
  | cons c cs ih =>
    rw [Page.puts, List.foldl_cons, ← Page.puts, ih]
    simp [Page.put, Nat.add_comm, Nat.add_left_comm]

/-- A numeral is written as it is, on a line of its own. -/
theorem render_word (h : IsWord cs) (unit : Nat) :
    (Tree.plain (Text.ofChars cs)).render unit = Text.ofChars (cs ++ ['\n']) := by
  have hne : cs.isEmpty = false := by simpa using h.ne_nil
  rw [Tree.render, Page.tree, Text.chars_ofChars, chooseStyle_word h]
  simp only [Page.scalar, Page.plain, hne, Bool.false_eq_true, if_false, if_true, puts_eq,
    Page.toColumn, Page.newline]
  simp

end Writing

/-! ## Reading -/

section Reading

variable {cs : List Char}

theorem wordLength_numeral (h : ∀ c ∈ cs, IsNumeralChar c) (n : Nat) :
    wordLength false n (cs ++ ['\n']) = n + cs.length := by
  induction cs generalizing n with
  | nil => rfl
  | cons c cs ih =>
    obtain ⟨hc, hcs⟩ := List.forall_mem_cons.mp h
    have hcolon : (c == ':') = false := hc.beq (by decide)
    rw [List.cons_append, wordLength]
    simp only [hc.isBlank, hc.isBreak, hcolon, Bool.or_self, Bool.false_and, Bool.false_eq_true,
      if_false]
    rw [ih hcs, List.length_cons]
    omega

theorem atMarker_word (h : IsWord cs) : Cursor.atMarker { rest := cs ++ ['\n'] } = false := by
  obtain ⟨c, rest, rfl⟩ := List.exists_cons_of_ne_nil h.ne_nil
  simp only [Cursor.atMarker, List.cons_append]
  split
  · rename_i heq
    obtain ⟨rfl, hrest⟩ := List.cons.inj heq
    obtain ⟨d, rest', rfl, hd⟩ := h.dash rest rfl
    exact absurd (List.cons.inj hrest).1 hd
  · rename_i heq
    obtain ⟨rfl, -⟩ := List.cons.inj heq
    exact absurd rfl h.point
  · rfl

theorem scanPlainLoop_end (fuel : Nat) (seen : List Char) (gap : Gap) (line column index : Nat) :
    scanPlainLoop false 0 (fuel + 1) seen gap ⟨[], line, column, index⟩ =
      some ⟨seen.reverse, ⟨[], line, column, index⟩, gap.broken⟩ := by
  simp [scanPlainLoop, Cursor.atMarker, wordLength, Cursor.advance]

theorem scanPlain_word (h : IsWord cs) :
    scanPlain false 0 { rest := cs ++ ['\n'] } = some ⟨cs, ⟨[], 1, 0, cs.length + 1⟩, true⟩ := by
  have hhead : ((cs ++ ['\n']).head? == some '#') = false := by
    obtain ⟨c, rest, rfl⟩ := List.exists_cons_of_ne_nil h.ne_nil
    simpa using (h.chars c (.head _)).ne (x := '#') (by decide)
  have hlength : (cs.length == 0) = false := by simpa using h.ne_nil
  have hgap : Cursor.gap 0 {} ⟨['\n'], 0, 0 + cs.length, 0 + cs.length⟩ =
      some (⟨[], ['\n'], [], true⟩, ⟨[], 1, 0, cs.length + 1⟩) := by
    simp [Cursor.gap, scanGap, scanGap.addBreak, isBlank, isBreak, Cursor.breakChar]
  rw [scanPlain, List.length_append, List.length_singleton, scanPlainLoop]
  simp only [atMarker_word h, hhead, wordLength_numeral h.chars, Nat.zero_add, hlength,
    Cursor.advance, List.drop_left, List.take_left, Bool.or_self, Bool.false_eq_true, if_false]
  simp only [Nat.zero_add] at hgap
  simp only [hgap, scanPlainLoop_end]
  simp [isBlank, isBreak, Gap.folded]

theorem toNextWord_word (h : IsWord cs) (fuel : Nat) :
    Lexer.toNextWord false 0 (fuel + 1) true { rest := cs ++ ['\n'] } =
      ({ rest := cs ++ ['\n'] }, true) := by
  obtain ⟨c, rest, rfl⟩ := List.exists_cons_of_ne_nil h.ne_nil
  have hc : IsNumeralChar c := h.chars c (.head _)
  have hspace : (c == ' ') = false := hc.beq (by decide)
  have hhash : c ≠ '#' := hc.ne (by decide)
  simp [Lexer.toNextWord, Cursor.skipWhile, Cursor.advance, hspace, hhash, hc.isBreak]

theorem startsPlain_word (h : IsWord cs) : Lexer.startsPlain false (cs ++ ['\n']) = true := by
  obtain ⟨c, rest, rfl⟩ := List.exists_cons_of_ne_nil h.ne_nil
  have hc : IsNumeralChar c := h.chars c (.head _)
  have hquestion : (c == '?') = false := hc.beq (by decide)
  have hcolon : (c == ':') = false := hc.beq (by decide)
  simp only [List.cons_append, Lexer.startsPlain, hquestion, hcolon, hc.isBlank, hc.isBreak,
    Bool.or_self, Bool.false_or, Bool.false_eq_true, if_false, beq_iff_eq]
  split_ifs with hdash
  · subst hdash
    obtain ⟨d, rest', rfl, -⟩ := h.dash rest rfl
    simp [(h.chars d (by simp)).isBlank]
  · rw [Bool.not_eq_true', ← Bool.not_eq_true, List.contains_iff_mem]
    exact hc.not_mem_of_far (by decide +kernel)

theorem atGap_word (h : IsWord cs) {rest : List Char} (hrest : cs = '-' :: rest) :
    atGap (rest ++ ['\n']) = false := by
  obtain ⟨d, rest', rfl, -⟩ := h.dash rest hrest
  have hd : IsNumeralChar d := h.chars d (by simp [hrest])
  simp [atGap, hd.isBlank, hd.isBreak]

theorem takeWord_word (h : IsWord cs) :
    Lexer.takeWord { cursor := { rest := cs ++ ['\n'] } } =
      Lexer.takePlain { cursor := { rest := cs ++ ['\n'] } } := by
  have hmarker := atMarker_word h
  have hplain := startsPlain_word h
  obtain ⟨c, rest, rfl⟩ := List.exists_cons_of_ne_nil h.ne_nil
  have hc : IsNumeralChar c := h.chars c (.head _)
  have hdash : (c == '-' && atGap (rest ++ ['\n'])) = false := by
    rw [Bool.and_eq_false_imp, beq_iff_eq]
    rintro rfl
    exact atGap_word h rfl
  rw [List.cons_append] at hmarker hplain ⊢
  simp only [Lexer.takeWord, hmarker, hplain, hdash, hc.beq (x := '%') (by decide),
    hc.beq (x := '[') (by decide), hc.beq (x := '\x7b') (by decide), hc.beq (x := ']') (by decide),
    hc.beq (x := '\x7d') (by decide), hc.beq (x := ',') (by decide), hc.beq (x := '?') (by decide),
    hc.beq (x := ':') (by decide), hc.beq (x := '*') (by decide), hc.beq (x := '&') (by decide),
    hc.beq (x := '!') (by decide), hc.beq (x := '|') (by decide), hc.beq (x := '>') (by decide),
    hc.beq (x := '\'') (by decide), hc.beq (x := '"') (by decide), Nat.lt_irrefl, decide_false,
    Bool.false_and, Bool.false_eq_true, if_false, if_true]

/-- The lexer behind a numeral, at the end of the stream. -/
def behindWord (cs : List Char) : Lexer where
  cursor := ⟨[], 1, 0, cs.length + 1⟩
  lexemes := [⟨.scalar cs .plain, 0⟩]
  count := 1
  key := { possible := true }

theorem step_word (h : IsWord cs) :
    Lexer.step { cursor := { rest := cs ++ ['\n'] } } = some (behindWord cs) := by
  have hnext := toNextWord_word h (cs ++ ['\n']).length
  have hplain : Lexer.takePlain { cursor := { rest := cs ++ ['\n'] } } = some (behindWord cs) := by
    have hscan := scanPlain_word h
    simp only [Lexer.takePlain, Lexer.saveKey, Lexer.dropKey, bind, Option.bind, Option.map,
      Bool.not_true, Bool.false_eq_true, if_false, Bool.false_and]
    rw [show ((-1 : Int) + 1) = 0 from rfl, show decide (0 < 0) = false from rfl, hscan]
    rfl
  simp only [Lexer.step, hnext]
  show (do
    let l ← Lexer.takeWord { cursor := { rest := cs ++ ['\n'] } }
    if l.broken && l.cursor.rest.isEmpty then none else some l) = some (behindWord cs)
  rw [takeWord_word h, hplain]
  rfl

theorem lexemes_word (h : IsWord cs) :
    lexemes false (cs ++ ['\n']) = [⟨.scalar cs .plain, 0⟩, ⟨.streamEnd, 1⟩] := by
  have hmark : ((cs ++ ['\n']).head? == some '\ufeff') = false := by
    obtain ⟨c, rest, rfl⟩ := List.exists_cons_of_ne_nil h.ne_nil
    simpa using (h.chars c (.head _)).ne (x := '\ufeff') (by decide)
  have hrun : Lexer.run ((cs ++ ['\n']).length + 2) { cursor := { rest := cs ++ ['\n'] } } =
      Lexer.run (cs ++ ['\n']).length
        { behindWord cs with
          lexemes := [⟨.streamEnd, 1⟩, ⟨.scalar cs .plain, 0⟩], count := 2, key := {}, keyAllowed := false
          ended := true } := by
    rw [Lexer.run, if_neg Bool.false_ne_true, step_word h]
    rfl
  rw [lexemes, hmark, hrun, List.length_append, List.length_singleton, Lexer.run]
  rfl

/-- A stream that begins with an ASCII byte has no byte order mark. -/
theorem decode_ascii {b : UInt8} (hb : b < 0x80) (t : Text) :
    decode (b :: t) = (Text.chars? (b :: t)).bind fun cs =>
      if cs.all isAllowed then some cs else none := by
  have hne {c : UInt8} {u : Text} (hc : ¬ c < 0x80) : b :: t ≠ c :: u := by
    intro heq
    exact hc ((List.cons.inj heq).1 ▸ hb)
  unfold decode
  split
  · rename_i heq
    exact absurd heq (hne (by decide))
  · rename_i heq
    exact absurd heq (hne (by decide))
  · rename_i heq
    exact absurd heq (hne (by decide))
  · rfl

theorem decode_word (h : IsWord cs) : decode (Text.ofChars (cs ++ ['\n'])) = some (cs ++ ['\n']) := by
  have hall : (cs ++ ['\n']).all isAllowed = true := by
    rw [List.all_append, Bool.and_eq_true]
    exact ⟨List.all_eq_true.mpr fun c hc => (h.chars c hc).isAllowed, by decide⟩
  have hchars := chars?_ofChars (cs ++ ['\n'])
  obtain ⟨c, rest, rfl⟩ := List.exists_cons_of_ne_nil h.ne_nil
  have hc : c.toNat ≤ 0x39 := (h.chars c (.head _)).2
  have hb : UInt8.ofNat c.toNat < 0x80 := by
    rw [UInt8.lt_iff_toNat_lt, Text.toNat_ofNat_byte (by omega)]
    exact lt_of_le_of_lt hc (by decide)
  have hfirst : Text.ofChars (c :: rest ++ ['\n']) =
      UInt8.ofNat c.toNat :: Text.ofChars (rest ++ ['\n']) := by
    have hencode := Text.utf8_ascii hb
    rw [Text.toNat_ofNat_byte (by omega), Char.ofNat_toNat] at hencode
    rw [List.cons_append, Text.ofChars, List.flatMap_cons, hencode]
    rfl
  rw [hfirst] at hchars ⊢
  rw [decode_ascii hb, hchars, Option.bind_some, if_pos hall]

/-- **A numeral is parsed as it was written.** -/
theorem parse_word (h : IsWord cs) :
    parse (Text.ofChars (cs ++ ['\n'])) false =
      some (some (.scalar 0 1 [] .plain (Text.ofChars cs))) := by
  rw [parse, decode_word h]
  simp only [lexemes_word h, bind, Option.bind]
  rfl

end Reading

end WireSchema.Yaml
