import WireSchema.Proofs.Schema.Composition

/-!
# Writing schemas

A list of declarations is written line by line, with quoted keys and a name for every field. Where
blanks stand, how each line ends and which lines without meaning come between is left to a layout.
Whatever the layout, one line is read back as what is written on it.
-/

namespace WireSchema.Schema

/-! ## Layouts -/

/-- Blanks within a line. -/
structure Gap where
  text : Text
  blank : ∀ b ∈ text, b = 0x20 ∨ b = 0x09

/-- What may follow two slashes on a line. -/
structure Remark where
  text : Text
  oneLine : 0x0A ∉ text

/-- A line without meaning: blanks, and perhaps a remark. -/
structure IdleLine where
  gap : Gap
  remark : Option Remark

/-- The end of a line: blanks, or a remark that is set off by blanks. -/
inductive LineEnd where
  | plain (gap : Gap)
  | remark (gap : Gap) (apart : gap.text ≠ []) (remark : Remark)

/-- How declarations are laid out. The lines that hold something are counted from zero. -/
structure Layout where
  /-- The blanks at each place of a line. -/
  gap : (line place : Nat) → Gap
  /-- The end of a line. -/
  ending : (line : Nat) → LineEnd
  /-- The lines without meaning that stand before a line, or after the last one. -/
  idle : (line : Nat) → List IdleLine
  /-- Does the text end in a line break? -/
  isClosed : Bool

def Remark.written (r : Remark) : Text := Text.ofString "//" ++ r.text

def IdleLine.written (i : IdleLine) : Text :=
  i.gap.text ++ (i.remark.map Remark.written).getD []

def LineEnd.written : LineEnd → Text
  | .plain gap => gap.text
  | .remark gap _ r => gap.text ++ r.written

/-! ## Lines -/

/-- The bases of an object, with commas between them; the first blanks have number `i`. -/
def writtenBases (gap : Nat → Gap) : (i : Nat) → List Text → Text
  | _, [] => []
  | i, [base] => (gap i).text ++ base
  | i, base :: rest =>
    (gap i).text ++ (base ++ ((gap (i + 1)).text ++ 0x2C :: writtenBases gap (i + 2) rest))

/-- The name and the bases of an object. -/
def Declaration.writtenBody (gap : Nat → Gap) (d : Declaration) : Text :=
  d.name ++ if d.bases = [] then [] else (gap 2).text ++ 0x3A :: writtenBases gap 3 d.bases

/-- The line of an object. -/
def Declaration.written (gap : Nat → Gap) (d : Declaration) : Text :=
  if d.isInterface then 0x3A :: ((gap 1).text ++ d.writtenBody gap) else d.writtenBody gap

def bracketed (isBracketed : Bool) (left right : UInt8) (g g' : Gap) (t : Text) : Text :=
  if isBracketed then left :: (g.text ++ t ++ g'.text ++ [right]) else t

def Property.writtenType (gap : Nat → Gap) (p : Property) : Text :=
  bracketed p.isArray 0x5B 0x5D (gap 6) (gap 7)
    (bracketed p.isDictionary 0x7B 0x7D (gap 8) (gap 9) p.type)

def Property.writtenKey (p : Property) : Text := 0x22 :: (p.key ++ [0x22])

/-- The key, the name and the type of a property. -/
def Property.writtenBody (gap : Nat → Gap) (p : Property) : Text :=
  p.writtenKey ++ (gap 2).text ++ Text.ofString "=>" ++ (gap 3).text ++ p.name ++ (gap 4).text ++
    0x3A :: ((gap 5).text ++ p.writtenType gap)

def Property.written (gap : Nat → Gap) (p : Property) : Text :=
  0x2D :: ((gap 1).text ++ p.writtenBody gap)

/-- A line that holds something. -/
inductive Row where
  | object (d : Declaration)
  | property (p : Property)

def Row.written (gap : Nat → Gap) : Row → Text
  | .object d => d.written gap
  | .property p => p.written gap

/-- The lines that declarations take. -/
def rows (ds : List Declaration) : List Row :=
  ds.flatMap fun d => .object d :: d.properties.map .property

namespace Layout

variable (l : Layout)

def line (k : Nat) (r : Row) : Text :=
  (l.gap k 0).text ++ r.written (l.gap k) ++ (l.ending k).written

/-- The lines from number `k` on, with those between them. -/
def linesFrom : (k : Nat) → List Row → List Text
  | k, [] => (l.idle k).map IdleLine.written
  | k, r :: rest => (l.idle k).map IdleLine.written ++ l.line k r :: linesFrom (k + 1) rest

def render (ds : List Declaration) : Text :=
  Text.join "\n" (l.linesFrom 0 (rows ds)) ++ if l.isClosed then [0x0A] else []

/-- The number, counted from one, of the first line that belongs to line `k`. -/
def start (k : Nat) : Nat := k + 1 + ((List.range k).flatMap l.idle).length

/-- The number, counted from one, that line `k` has among all lines. -/
def number (k : Nat) : Nat := l.start k + (l.idle k).length

/-- Properties with the numbers of their lines, the first of which is line `k`. -/
def numberProperties : (k : Nat) → List Property → List Property
  | _, [] => []
  | k, p :: rest => { p with line := l.number k } :: numberProperties (k + 1) rest

/-- Declarations with the numbers of their lines, the first of which is line `k`. -/
def numberFrom : (k : Nat) → List Declaration → List Declaration
  | _, [] => []
  | k, d :: rest =>
    { d with line := l.number k, properties := l.numberProperties (k + 1) d.properties } ::
      numberFrom (k + 1 + d.properties.length) rest

end Layout

/-! ## What can be written -/

/-- A text without the marks of schemas. -/
@[mk_iff]
structure Unmarked (t : Text) : Prop where
  bytes : ∀ b ∈ t, b ≠ 0x0A ∧ b ≠ 0x22 ∧ b ≠ 0x3A ∧ b ≠ 0x2C
  slashes : ¬Text.ofString "//" <:+: t
  arrow : ¬Text.ofString "=>" <:+: t

/-- A name: not empty, without marks and without blanks around it. -/
@[mk_iff]
structure Word (t : Text) : Prop extends Unmarked t where
  ne_nil : t ≠ []
  trimmed : Text.trim t = t

/-- A property whose parts can be written. -/
@[mk_iff]
structure Property.Writable (p : Property) : Prop where
  key : Unmarked p.key
  key_ne_nil : p.key ≠ []
  name : Word p.name
  type : Word p.type
  brackets : ∀ b ∈ p.type, b ≠ 0x5B ∧ b ≠ 0x5D ∧ b ≠ 0x7B ∧ b ≠ 0x7D

/-- A property whose parts can be written, but for marks in its key, which stands between quotes. -/
@[mk_iff]
structure Property.Quotable (p : Property) : Prop where
  key : ∀ b ∈ p.key, b ≠ 0x0A ∧ b ≠ 0x22
  slashes : ¬Text.ofString "//" <:+: p.key
  key_ne_nil : p.key ≠ []
  name : Word p.name
  type : Word p.type
  brackets : ∀ b ∈ p.type, b ≠ 0x5B ∧ b ≠ 0x5D ∧ b ≠ 0x7B ∧ b ≠ 0x7D

theorem Property.Writable.quotable {p : Property} (hp : p.Writable) : p.Quotable where
  key b hb := ⟨(hp.key.bytes b hb).1, (hp.key.bytes b hb).2.1⟩
  slashes := hp.key.slashes
  key_ne_nil := hp.key_ne_nil
  name := hp.name
  type := hp.type
  brackets := hp.brackets

/-- A declaration whose parts can be written. -/
@[mk_iff]
structure Declaration.Writable (d : Declaration) : Prop where
  name : Word d.name
  dash : d.name.head? ≠ some 0x2D
  bases : ∀ base ∈ d.bases, Word base
  properties : ∀ p ∈ d.properties, p.Writable

-- A condition on all bytes of a text is decided along the text, not for each of the 256 bytes.
local instance decidableBytes (p : UInt8 → Prop) [DecidablePred p] (t : Text) :
    Decidable (∀ b ∈ t, p b) :=
  List.decidableBAll p t

instance (t : Text) : Decidable (Unmarked t) := decidable_of_iff' _ (unmarked_iff t)

instance (t : Text) : Decidable (Word t) := decidable_of_iff' _ (word_iff t)

instance (p : Property) : Decidable p.Writable := decidable_of_iff' _ (Property.writable_iff p)

instance (p : Property) : Decidable p.Quotable := decidable_of_iff' _ (Property.quotable_iff p)

instance (d : Declaration) : Decidable d.Writable := decidable_of_iff' _ (Declaration.writable_iff d)

/-! ## Blanks and marks -/

namespace Gap

variable (g : Gap)

theorem isBlank {b : UInt8} (hb : b ∈ g.text) : Text.isBlank b = true := by
  rcases g.blank b hb with rfl | rfl <;> rfl

theorem lt {b : UInt8} (hb : b ∈ g.text) : b < 0x80 := Text.lt_of_isBlank (g.isBlank hb)

theorem head_lt {u : Text} (hu : ∀ b ∈ u.head?, b < 0x80) :
    ∀ b ∈ (g.text ++ u).head?, b < 0x80 := by
  intro b hb
  cases hg : g.text with
  | nil =>
    rw [hg] at hb
    exact hu b hb
  | cons c rest =>
    rw [hg] at hb
    obtain rfl : c = b := by simpa using hb
    exact g.lt (by simp [hg])

theorem getLast_lt : ∀ b ∈ g.text.getLast?, b < 0x80 :=
  fun _ hb => g.lt (List.mem_of_getLast? hb)

end Gap

/-- A mark of schemas that is not a blank. -/
structure IsMark (sep : Text) : Prop where
  ne_nil : sep ≠ []
  space : 0x20 ∉ sep
  tab : 0x09 ∉ sep

theorem isMark_slashes : IsMark (Text.ofString "//") := ⟨by decide, by decide, by decide⟩

theorem isMark_arrow : IsMark (Text.ofString "=>") := ⟨by decide, by decide, by decide⟩

/-- The mark stands nowhere in the text. -/
def Lacks (t sep : Text) : Prop := ¬sep <:+: t

namespace Lacks

variable {sep t u : Text}

theorem nil (hsep : IsMark sep) : Lacks [] sep := fun h => hsep.ne_nil (List.infix_nil.mp h)

theorem append_cons (ht : Lacks t sep) {c : UInt8} (hc : c ∉ sep) (hu : Lacks u sep) :
    Lacks (t ++ c :: u) sep := by
  rw [Lacks, Text.infix_append_cons_iff hc]
  exact not_or.mpr ⟨ht, hu⟩

theorem cons (hsep : IsMark sep) {c : UInt8} (hc : c ∉ sep) (hu : Lacks u sep) :
    Lacks (c :: u) sep := append_cons (nil hsep) hc hu

theorem gap_append (hsep : IsMark sep) (g : Gap) (hu : Lacks u sep) : Lacks (g.text ++ u) sep := by
  obtain ⟨g, hg⟩ := g
  induction g with
  | nil => exact hu
  | cons b g ih =>
    refine cons hsep ?_ (ih fun b' hb' => hg b' (List.mem_cons_of_mem b hb'))
    rcases hg b List.mem_cons_self with rfl | rfl
    · exact hsep.space
    · exact hsep.tab

theorem append_gap (hsep : IsMark sep) (ht : Lacks t sep) (g : Gap) : Lacks (t ++ g.text) sep := by
  obtain ⟨g, hg⟩ := g
  cases g with
  | nil => rwa [List.append_nil]
  | cons b g =>
    have hrest : Lacks g sep := by
      have h := gap_append hsep ⟨g, fun b' hb' => hg b' (List.mem_cons_of_mem b hb')⟩ (nil hsep)
      rwa [List.append_nil] at h
    refine append_cons ht ?_ hrest
    rcases hg b List.mem_cons_self with rfl | rfl
    · exact hsep.space
    · exact hsep.tab

end Lacks

/-! ## Solid texts -/

/-- A text that is not empty and has no blank at either end. -/
structure Solid (t : Text) : Prop where
  ne_nil : t ≠ []
  front : Text.FrontSolid t
  back : Text.BackSolid t

theorem Word.solid {t : Text} (h : Word t) : Solid t :=
  ⟨h.ne_nil, (Text.trim_eq_self_iff.mp h.trimmed).1, (Text.trim_eq_self_iff.mp h.trimmed).2⟩

namespace Solid

variable {t u : Text}

theorem trim_between (h : Solid t) (g g' : Gap) : Text.trim (g.text ++ t ++ g'.text) = t :=
  Text.trim_padded (fun _ => g.isBlank) (fun _ => g'.isBlank) h.front h.back

theorem trim_after (h : Solid t) (g : Gap) : Text.trim (g.text ++ t) = t := by
  rw [Text.trim_blanks_append fun _ => g.isBlank, Text.trim_eq_self_iff.mpr ⟨h.front, h.back⟩]

theorem trim_before (h : Solid t) (g : Gap) : Text.trim (t ++ g.text) = t := by
  rw [Text.trim_append_blanks fun _ => g.isBlank, Text.trim_eq_self_iff.mpr ⟨h.front, h.back⟩]

theorem append_cons (ht : Solid t) (g g' : Gap) {c : UInt8} (hc : c < 0x80) (hu : Solid u) :
    Solid (t ++ g.text ++ c :: (g'.text ++ u)) where
  ne_nil := by simp [ht.ne_nil]
  front := by
    rw [List.append_assoc]
    exact ht.front.append ht.ne_nil (g.head_lt (by simpa using hc))
  back := by
    have hback : Text.BackSolid (g'.text ++ u) := hu.back.append hu.ne_nil g'.getLast_lt
    rw [← List.singleton_append, ← List.append_assoc]
    exact hback.append (by simp [hu.ne_nil]) (by simpa using hc)

theorem cons (g : Gap) {c : UInt8} (hc : c < 0x80) (hblank : Text.isBlank c = false) (hu : Solid u) :
    Solid (c :: (g.text ++ u)) where
  ne_nil := by simp
  front := Text.frontSolid_cons hc hblank _
  back := by
    have hback : Text.BackSolid (g.text ++ u) := hu.back.append hu.ne_nil g.getLast_lt
    exact hback.append (t := [c]) (by simp [hu.ne_nil]) (by simpa using hc)

theorem enclosed {a b : UInt8} (ha : a < 0x80) (ha' : Text.isBlank a = false) (hb : b < 0x80)
    (hb' : Text.isBlank b = false) (t : Text) : Solid (a :: (t ++ [b])) where
  ne_nil := by simp
  front := Text.frontSolid_cons ha ha' _
  back := Text.backSolid_concat hb hb' (a :: t)

end Solid

/-! ## Single lines -/

theorem uncommented_line {t : Text} (ht : Solid t) (hslashes : Lacks t (Text.ofString "//")) (g : Gap)
    (e : LineEnd) : uncommented (g.text ++ t ++ e.written) = t := by
  have hlacks : ∀ g' : Gap, Lacks (g.text ++ t ++ g'.text) (Text.ofString "//") := fun g' =>
    (hslashes.gap_append isMark_slashes g).append_gap isMark_slashes g'
  cases e with
  | plain g' =>
    rw [LineEnd.written, uncommented, (Text.cut?_eq_none_iff (by decide) _).mpr (hlacks g')]
    exact ht.trim_between g g'
  | remark g' apart r =>
    have hlast : ∀ b ∈ (g.text ++ t ++ g'.text).getLast?, b ∉ Text.ofString "//" := by
      intro b hb
      rw [List.getLast?_append_of_ne_nil _ apart] at hb
      rcases g'.blank b (List.mem_of_getLast? hb) with rfl | rfl
      · exact isMark_slashes.space
      · exact isMark_slashes.tab
    rw [LineEnd.written, Remark.written, ← List.append_assoc, uncommented,
      Text.cut?_append_self (by decide) (hlacks g') hlast]
    exact ht.trim_between g g'

theorem ofText_idle (i : IdleLine) : Line.ofText i.written = .blank := by
  have huncommented : uncommented i.written = [] := by
    obtain ⟨g, r⟩ := i
    have hlacks : Lacks g.text (Text.ofString "//") := by
      have h := Lacks.gap_append isMark_slashes g (Lacks.nil isMark_slashes)
      rwa [List.append_nil] at h
    cases r with
    | none =>
      rw [IdleLine.written, Option.map_none, Option.getD_none, List.append_nil, uncommented,
        (Text.cut?_eq_none_iff (by decide) _).mpr hlacks]
      exact Text.trim_blanks fun _ => g.isBlank
    | some r =>
      have hlast : ∀ b ∈ g.text.getLast?, b ∉ Text.ofString "//" := by
        intro b hb
        rcases g.blank b (List.mem_of_getLast? hb) with rfl | rfl
        · exact isMark_slashes.space
        · exact isMark_slashes.tab
      rw [IdleLine.written, Option.map_some, Option.getD_some, Remark.written, uncommented,
        Text.cut?_append_self (by decide) hlacks hlast]
      exact Text.trim_blanks fun _ => g.isBlank
  rw [Line.ofText, huncommented]

/-! ## Properties -/

theorem splitAtColon_append {t : Text} (h : ∀ b ∈ t, b ≠ 0x3A ∧ b ≠ 0x22) (quoted : Bool)
    (seen u : Text) :
    splitAtColon quoted seen (t ++ u) = splitAtColon quoted (t.reverse ++ seen) u := by
  induction t generalizing seen with
  | nil => rfl
  | cons b t ih =>
    obtain ⟨hcolon, hquote⟩ := h b List.mem_cons_self
    rw [List.cons_append, splitAtColon]
    simp [hcolon, hquote, ih fun b' hb' => h b' (List.mem_cons_of_mem b hb')]

/-- Between quotes, nothing is decided up to the second one. -/
theorem splitAtColon_quoted {t : Text} (h : ∀ b ∈ t, b ≠ 0x22) (seen u : Text) :
    splitAtColon true seen (t ++ u) = splitAtColon true (t.reverse ++ seen) u := by
  induction t generalizing seen with
  | nil => rfl
  | cons b t ih =>
    rw [List.cons_append, splitAtColon]
    simp [h b List.mem_cons_self, ih fun b' hb' => h b' (List.mem_cons_of_mem b hb')]

theorem splitAtColon_quote (quoted : Bool) (seen u : Text) :
    splitAtColon quoted seen (0x22 :: u) = splitAtColon (!quoted) (0x22 :: seen) u := by
  simp [splitAtColon]

/-- A pair of brackets is taken off together with the blanks within. -/
theorem unbracket_bracketed (isBracketed : Bool) {left right : UInt8} (fault : Fault) (g g' : Gap)
    {t : Text} (ht : Solid t) (hhead : t.head? ≠ some left) (hlast : t.getLast? ≠ some right) :
    unbracket left right fault (bracketed isBracketed left right g g' t) = .ok (isBracketed, t) := by
  cases isBracketed with
  | true =>
    have htrim := ht.trim_between g g'
    simp only [bracketed, if_true, unbracket, List.head?_cons, beq_self_eq_true, Bool.true_or,
      unenclosed?, Bool.true_and, List.getLast?_concat, List.dropLast_concat, htrim]
  | false => simp [bracketed, unbracket, hhead, hlast]

theorem Solid.bracketed {t : Text} (ht : Solid t) (isBracketed : Bool) {left right : UInt8}
    (hleft : left < 0x80) (hleft' : Text.isBlank left = false) (hright : right < 0x80)
    (hright' : Text.isBlank right = false) (g g' : Gap) :
    Solid (bracketed isBracketed left right g g' t) := by
  cases isBracketed with
  | true => exact Solid.enclosed hleft hleft' hright hright' _
  | false => exact ht

theorem Lacks.bracketed {sep t : Text} (hsep : IsMark sep) (ht : Lacks t sep) (isBracketed : Bool)
    {left right : UInt8} (hleft : left ∉ sep) (hright : right ∉ sep) (g g' : Gap) :
    Lacks (bracketed isBracketed left right g g' t) sep := by
  cases isBracketed with
  | true =>
    exact .cons hsep hleft <|
      ((ht.gap_append hsep g).append_gap hsep g').append_cons hright (.nil hsep)
  | false => exact ht

namespace Property

variable {p : Property} (gap : Nat → Gap)

theorem Quotable.solid_type (hp : p.Quotable) : Solid (p.writtenType gap) :=
  (hp.type.solid.bracketed _ (by decide) rfl (by decide) rfl _ _).bracketed _ (by decide) rfl
    (by decide) rfl _ _

theorem solid_writtenKey (p : Property) : Solid p.writtenKey :=
  Solid.enclosed (by decide) rfl (by decide) rfl _

theorem Quotable.unbracket_array (hp : p.Quotable) :
    unbracket 0x5B 0x5D .arrayBrackets (p.writtenType gap) =
      .ok (p.isArray, bracketed p.isDictionary 0x7B 0x7D (gap 8) (gap 9) p.type) := by
  apply unbracket_bracketed
  · exact hp.type.solid.bracketed _ (by decide) rfl (by decide) rfl _ _
  · cases p.isDictionary with
    | true => simp [bracketed]
    | false => exact fun h => (hp.brackets _ (List.mem_of_mem_head? h)).1 rfl
  · cases p.isDictionary with
    | true =>
      rw [bracketed, if_pos rfl, ← List.cons_append, List.getLast?_concat]
      decide
    | false => exact fun h => (hp.brackets _ (List.mem_of_getLast? h)).2.1 rfl

theorem Quotable.unbracket_dictionary (hp : p.Quotable) :
    unbracket 0x7B 0x7D .dictionaryBraces
      (bracketed p.isDictionary 0x7B 0x7D (gap 8) (gap 9) p.type) = .ok (p.isDictionary, p.type) :=
  unbracket_bracketed _ _ _ _ hp.type.solid
    (fun h => (hp.brackets _ (List.mem_of_mem_head? h)).2.2.1 rfl)
    (fun h => (hp.brackets _ (List.mem_of_getLast? h)).2.2.2 rfl)

theorem lacks_writtenKey {sep : Text} (hsep : IsMark sep) (hkey : Lacks p.key sep)
    (hquote : 0x22 ∉ sep) (g : Gap) : Lacks (p.writtenKey ++ g.text) sep :=
  (Lacks.cons hsep hquote (hkey.append_cons hquote (.nil hsep))).append_gap hsep g

theorem Quotable.keyAndName (hp : p.Quotable) (harrow : Lacks p.key (Text.ofString "=>")) :
    keyAndName (p.writtenKey ++ (gap 2).text ++ Text.ofString "=>" ++ (gap 3).text ++ p.name) =
      .ok (p.key, p.name) := by
  have hlast : ∀ b ∈ (p.writtenKey ++ (gap 2).text).getLast?, b ∉ Text.ofString "=>" := by
    intro b hb
    cases hg : (gap 2).text with
    | nil =>
      rw [hg, List.append_nil, writtenKey, ← List.cons_append, List.getLast?_concat] at hb
      obtain rfl : 0x22 = b := by simpa using hb
      decide
    | cons c rest =>
      rw [List.getLast?_append_of_ne_nil _ (by simp [hg])] at hb
      rcases (gap 2).blank b (List.mem_of_getLast? hb) with rfl | rfl
      · exact isMark_arrow.space
      · exact isMark_arrow.tab
  have hcut : Text.cut?
      (p.writtenKey ++ (gap 2).text ++ Text.ofString "=>" ++ (gap 3).text ++ p.name)
      (Text.ofString "=>") = some (p.writtenKey ++ (gap 2).text, (gap 3).text ++ p.name) := by
    rw [List.append_assoc, List.append_assoc _ (Text.ofString "=>")]
    exact Text.cut?_append_self (by decide)
      (lacks_writtenKey isMark_arrow harrow (by decide) (gap 2)) hlast _
  have hkey := (solid_writtenKey p).trim_before (gap 2)
  have hkey' : Text.trim p.writtenKey = p.writtenKey := by
    simpa using (solid_writtenKey p).trim_before ⟨[], by simp⟩
  have hunquote : unenclosed? 0x22 0x22 p.writtenKey = some p.key := by
    simp [writtenKey, unenclosed?]
  unfold Schema.keyAndName
  simp only [hcut, hp.name.solid.trim_after, hkey, List.isEmpty_iff, hp.name.ne_nil, if_false,
    pure_bind, hkey', hunquote, Option.getD_some, hp.key_ne_nil]
  rfl

theorem Quotable.solid_left (hp : p.Quotable) :
    Solid (p.writtenKey ++ (gap 2).text ++ Text.ofString "=>" ++ (gap 3).text ++ p.name) := by
  have h := ((solid_writtenKey p).append_cons (gap 2) ⟨[], by simp⟩ (c := 0x3D) (by decide)
    (hp.name.solid.cons (gap 3) (c := 0x3E) (by decide) rfl))
  have harrow : Text.ofString "=>" = [0x3D, 0x3E] := rfl
  simpa [harrow] using h

theorem parse_of_keyAndName (hp : p.Quotable) {key name : Text}
    (h : Schema.keyAndName
      (p.writtenKey ++ (gap 2).text ++ Text.ofString "=>" ++ (gap 3).text ++ p.name) =
        .ok (key, name)) (n : Nat) :
    Property.parse n (p.writtenBody gap) = .ok { p with key, name, line := n } := by
  have hname : ∀ b ∈ p.name, b ≠ 0x3A ∧ b ≠ 0x22 := fun b hb =>
    ⟨(hp.name.bytes b hb).2.2.1, (hp.name.bytes b hb).2.1⟩
  have hgap : ∀ i, ∀ b ∈ (gap i).text, b ≠ 0x3A ∧ b ≠ 0x22 := by
    intro i b hb
    rcases (gap i).blank b hb with rfl | rfl <;> decide
  have harrow : ∀ b ∈ Text.ofString "=>", b ≠ 0x3A ∧ b ≠ 0x22 := by
    simp [show Text.ofString "=>" = [0x3D, 0x3E] from rfl]
  have hsplit : splitAtColon false [] (p.writtenBody gap) =
      some (p.writtenKey ++ (gap 2).text ++ Text.ofString "=>" ++ (gap 3).text ++ p.name ++
        (gap 4).text, (gap 5).text ++ p.writtenType gap) := by
    simp only [writtenBody, writtenKey, List.append_assoc, List.cons_append, List.nil_append]
    rw [splitAtColon_quote, Bool.not_false, splitAtColon_quoted fun b hb => (hp.key b hb).2,
      splitAtColon_quote, splitAtColon_append (hgap 2), splitAtColon_append harrow,
      splitAtColon_append (hgap 3), splitAtColon_append hname, splitAtColon_append (hgap 4),
      splitAtColon]
    simp
  have hleft : Text.trim (p.writtenKey ++ (gap 2).text ++ Text.ofString "=>" ++ (gap 3).text ++
      p.name ++ (gap 4).text) =
        p.writtenKey ++ (gap 2).text ++ Text.ofString "=>" ++ (gap 3).text ++ p.name :=
    (Quotable.solid_left gap hp).trim_before (gap 4)
  unfold Property.parse
  simp only [hsplit, (Quotable.solid_type gap hp).trim_after, hleft, bind, Except.bind,
    Quotable.unbracket_array gap hp, Quotable.unbracket_dictionary gap hp, h, List.isEmpty_iff,
    hp.type.ne_nil, if_false]
  rfl

theorem parse_writtenBody (hp : p.Writable) (n : Nat) :
    Property.parse n (p.writtenBody gap) = .ok { p with line := n } :=
  parse_of_keyAndName gap hp.quotable (hp.quotable.keyAndName gap hp.key.arrow) n

theorem Quotable.solid_body (hp : p.Quotable) : Solid (p.writtenBody gap) :=
  (Quotable.solid_left gap hp).append_cons (gap 4) (gap 5) (by decide) (Quotable.solid_type gap hp)

theorem Quotable.lacks_slashes (hp : p.Quotable) :
    Lacks (p.written gap) (Text.ofString "//") := by
  have hkey : Lacks (p.writtenKey ++ (gap 2).text) (Text.ofString "//") :=
    lacks_writtenKey isMark_slashes hp.slashes (by decide) (gap 2)
  have hname : Lacks ((gap 3).text ++ p.name) (Text.ofString "//") :=
    .gap_append isMark_slashes _ hp.name.slashes
  have hleft : Lacks (p.writtenKey ++ (gap 2).text ++ Text.ofString "=>" ++ (gap 3).text ++ p.name)
      (Text.ofString "//") := by
    have harrow : Text.ofString "=>" = [0x3D, 0x3E] := rfl
    have h := hkey.append_cons (c := 0x3D) (by decide)
      (hname.cons isMark_slashes (c := 0x3E) (by decide))
    simpa [harrow] using h
  have htype : Lacks (p.writtenType gap) (Text.ofString "//") :=
    .bracketed isMark_slashes
      (.bracketed isMark_slashes hp.type.slashes _ (by decide) (by decide) _ _) _ (by decide)
      (by decide) _ _
  refine .cons isMark_slashes (by decide) (.gap_append isMark_slashes _ ?_)
  exact (hleft.append_gap isMark_slashes (gap 4)).append_cons (by decide)
    (htype.gap_append isMark_slashes (gap 5))

theorem ofText_line (hp : p.Quotable) (g : Gap) (e : LineEnd) :
    Line.ofText (g.text ++ p.written gap ++ e.written) = .property (p.writtenBody gap) := by
  have hsolid : Solid (p.written gap) :=
    (Quotable.solid_body gap hp).cons (gap 1) (by decide) rfl
  rw [Line.ofText, uncommented_line hsolid (Quotable.lacks_slashes gap hp), written]
  simp only [(Quotable.solid_body gap hp).trim_after]

end Property

/-! ## Objects -/

section Bases

variable (gap : Nat → Gap) {bases : List Text}

theorem solid_writtenBases (h : ∀ base ∈ bases, Word base) (hne : bases ≠ []) (i : Nat) :
    ∃ u, Solid u ∧ writtenBases gap i bases = (gap i).text ++ u := by
  fun_induction writtenBases gap i bases with
  | case1 => exact absurd rfl hne
  | case2 i base => exact ⟨base, (h base (by simp)).solid, rfl⟩
  | case3 i base rest hrest ih =>
    obtain ⟨u, hu, heq⟩ :=
      ih (fun b hb => h b (List.mem_cons_of_mem base hb)) (by simpa using hrest)
    refine ⟨_, (h base (by simp)).solid.append_cons (gap (i + 1)) (gap (i + 2)) (c := 0x2C)
      (by decide) hu, ?_⟩
    rw [heq, List.append_assoc]

theorem lacks_writtenBases (h : ∀ base ∈ bases, Word base) (i : Nat) :
    Lacks (writtenBases gap i bases) (Text.ofString "//") := by
  fun_induction writtenBases gap i bases with
  | case1 => exact .nil isMark_slashes
  | case2 i base => exact .gap_append isMark_slashes _ (h base (by simp)).slashes
  | case3 i base rest hrest ih =>
    have htail := ih fun b hb => h b (List.mem_cons_of_mem base hb)
    have hbase : Lacks (base ++ (gap (i + 1)).text) (Text.ofString "//") :=
      .append_gap isMark_slashes (h base (by simp)).slashes _
    refine .gap_append isMark_slashes _ ?_
    rw [← List.append_assoc]
    exact hbase.append_cons (by decide) htail

theorem parseBases_append (t u : Text) : parseBases (t ++ 0x2C :: u) =
    (do let before ← parseBases t; let after ← parseBases u; pure (before ++ after)) := by
  unfold parseBases
  rw [Text.splitOn_eq, List.splitOn_append_cons_self, List.mapM_append, ← Text.splitOn_eq,
    ← Text.splitOn_eq]

theorem parseBases_word {base : Text} (h : Word base) (g g' : Gap) :
    parseBases (g.text ++ base ++ g'.text) = .ok [base] := by
  have hcomma : 0x2C ∉ g.text ++ base ++ g'.text := by
    simp only [List.mem_append, not_or]
    refine ⟨⟨fun hb => ?_, fun hb => (h.bytes _ hb).2.2.2 rfl⟩, fun hb => ?_⟩
    · rcases g.blank _ hb with hb | hb <;> cases hb
    · rcases g'.blank _ hb with hb | hb <;> cases hb
  unfold parseBases
  rw [Text.splitOn_eq, List.splitOn_eq_singleton hcomma]
  simp only [List.mapM_cons, List.mapM_nil, h.solid.trim_between, List.isEmpty_iff, h.ne_nil,
    if_false]
  rfl

theorem parseBases_written (h : ∀ base ∈ bases, Word base) (hne : bases ≠ []) (i : Nat) :
    parseBases (writtenBases gap i bases) = .ok bases := by
  fun_induction writtenBases gap i bases with
  | case1 => exact absurd rfl hne
  | case2 i base =>
    have hword := parseBases_word (h base (by simp)) (gap i) ⟨[], by simp⟩
    rwa [List.append_nil] at hword
  | case3 i base rest hrest ih =>
    rw [← List.append_assoc, ← List.append_assoc, parseBases_append,
      parseBases_word (h base (by simp)),
      ih (fun b hb => h b (List.mem_cons_of_mem base hb)) (by simpa using hrest)]
    rfl

end Bases

namespace Declaration

variable {d : Declaration} (gap : Nat → Gap)

theorem Writable.solid_body (hd : d.Writable) : Solid (d.writtenBody gap) := by
  unfold writtenBody
  split
  · rw [List.append_nil]
    exact hd.name.solid
  · rename_i hne
    obtain ⟨u, hu, heq⟩ := solid_writtenBases gap hd.bases hne 3
    rw [heq, ← List.append_assoc]
    exact hd.name.solid.append_cons (gap 2) (gap 3) (by decide) hu

theorem Writable.lacks_slashes (hd : d.Writable) :
    Lacks (d.writtenBody gap) (Text.ofString "//") := by
  unfold writtenBody
  split
  · rw [List.append_nil]
    exact hd.name.slashes
  · rw [← List.append_assoc]
    exact Lacks.append_cons (.append_gap isMark_slashes hd.name.slashes _) (by decide)
      (lacks_writtenBases gap hd.bases 3)

/-- The name of an object that is no interface does not look like the start of another line. -/
theorem Writable.ofText_body (hd : d.Writable) {t : Text}
    (h : uncommented t = d.writtenBody gap) : Line.ofText t = .object false (d.writtenBody gap) := by
  obtain ⟨b, name, hname⟩ := List.exists_cons_of_ne_nil hd.name.ne_nil
  have hdash : b ≠ 0x2D := by
    have := hd.dash
    rintro rfl
    simp [hname] at this
  have hcolon : b ≠ 0x3A := (hd.name.bytes b (by simp [hname])).2.2.1
  rw [Line.ofText, h, writtenBody, hname, List.cons_append]
  split <;> simp_all

theorem ofText_line (hd : d.Writable) (g : Gap) (e : LineEnd) :
    Line.ofText (g.text ++ d.written gap ++ e.written) =
      .object d.isInterface (d.writtenBody gap) := by
  have hsolid := Writable.solid_body gap hd
  have hslashes := Writable.lacks_slashes gap hd
  unfold written
  cases d.isInterface with
  | true =>
    rw [if_pos rfl, Line.ofText, uncommented_line (hsolid.cons (gap 1) (by decide) rfl)
      (.cons isMark_slashes (by decide) (.gap_append isMark_slashes _ hslashes))]
    simp only [hsolid.trim_after]
  | false =>
    rw [if_neg Bool.false_ne_true]
    exact Writable.ofText_body gap hd (uncommented_line hsolid hslashes g e)

theorem parse_writtenBody (hd : d.Writable) (n : Nat) :
    Declaration.parse n d.isInterface (d.writtenBody gap) =
      .ok { d with line := n, properties := [] } := by
  have hcolon : 0x3A ∉ d.name := fun hb => (hd.name.bytes _ hb).2.2.1 rfl
  have hmark : Text.ofString ":" = [0x3A] := rfl
  unfold Declaration.parse writtenBody
  by_cases hne : d.bases = []
  · have hcut : Text.cut? d.name ":" = none := by
      rwa [Text.cut?_eq_none_iff (by decide), hmark, List.singleton_infix_iff]
    simp [hne, hcut, hd.name.ne_nil]
    rfl
  · have hbefore : 0x3A ∉ d.name ++ (gap 2).text := by
      rw [List.mem_append, not_or]
      refine ⟨hcolon, fun hb => ?_⟩
      rcases (gap 2).blank _ hb with hb | hb <;> cases hb
    have hcut : Text.cut? (d.name ++ ((gap 2).text ++ 0x3A :: writtenBases gap 3 d.bases)) ":" =
        some (d.name ++ (gap 2).text, writtenBases gap 3 d.bases) := by
      rw [← List.append_assoc, hmark, ← List.singleton_append]
      refine Text.cut?_append_self (by decide) ?_ ?_ _
      · rwa [List.singleton_infix_iff]
      · rintro b hb hb'
        obtain rfl := List.mem_singleton.mp hb'
        exact hbefore (List.mem_of_getLast? hb)
    rw [if_neg hne, hcut]
    simp only [parseBases_written gap hd.bases hne, hd.name.solid.trim_before, bind, Except.bind,
      pure, Except.pure, List.isEmpty_iff, hd.name.ne_nil, if_false]

end Declaration

end WireSchema.Schema
