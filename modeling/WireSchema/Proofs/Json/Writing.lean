import WireSchema.Json.Writer
import WireSchema.Proofs.Json.Grammar
import WireSchema.Proofs.Text.Utf8

/-!
# What the JSON writer writes

The writer as a machine between places: a place is what is open and whether a name waits for its
value. Each action says which place it leads to and which text it appends, and the text of a value
spells the value, compact or indented by blanks.
-/

namespace WireSchema.Json

/-! ## Strings -/

theorem unit_hex_two : ∀ n : Fin 128,
    unit 0x30 0x30 (Text.hexDigit (n / 16 % 16)) (Text.hexDigit (n % 16)) = n ∧
    (Text.hexValue? (Text.hexDigit (n / 16 % 16))).isSome = true ∧
    (Text.hexValue? (Text.hexDigit (n % 16))).isSome = true := by
  decide

theorem isSurrogate_toNat (c : Char) : isSurrogate c.toNat = false := by
  have hv : c.toNat < 0xD800 ∨ 0xDFFF < c.toNat ∧ c.toNat < 0x110000 := c.valid
  simp only [isSurrogate, Bool.and_eq_false_iff, decide_eq_false_iff_not]
  omega

theorem single_toNat (c : Char) : single c.toNat = c := by
  simp [single, isSurrogate_toNat]

theorem spells_code {s x : Text} {ch : Char} {a b c d : UInt8} (hcode : unit a b c d = ch.toNat)
    (hdigits : ∀ h ∈ [a, b, c, d], (Text.hexValue? h).isSome = true) (h : SpellsString s x) :
    SpellsString (utf8 ch ++ s) (0x5C :: 0x75 :: a :: b :: c :: d :: x) := by
  have hsurrogate : isSurrogate (unit a b c d) = false := by
    rw [hcode]
    exact isSurrogate_toNat ch
  have hunit := SpellsString.unit hdigits hsurrogate h
  rwa [hcode, single_toNat] at hunit

theorem spells_escape {s x : Text} (c : Char) (h : SpellsString s x) :
    SpellsString (utf8 c ++ s) (escapePiece (.char c) ++ x) := by
  simp only [escapePiece]
  split_ifs with hq hn hr ht hu hl
  · simp only [Bool.or_eq_true, beq_iff_eq] at hq
    rcases hq with rfl | rfl
    · exact .letter (b := 0x22) rfl h
    · exact .letter (b := 0x5C) rfl h
  · obtain rfl := eq_of_beq hn
    exact .letter (b := 0x6E) rfl h
  · obtain rfl := eq_of_beq hr
    exact .letter (b := 0x72) rfl h
  · obtain rfl := eq_of_beq ht
    exact .letter (b := 0x74) rfl h
  · have hc : c.toNat < 128 := by
      simp only [Bool.or_eq_true, decide_eq_true_eq, beq_iff_eq] at hu
      rcases hu with ((hu | rfl) | rfl) | rfl
      · omega
      all_goals decide
    obtain ⟨hunit, ha, hb⟩ := unit_hex_two ⟨c.toNat, hc⟩
    exact spells_code hunit (by simp [ha, hb]; decide) h
  · simp only [Bool.or_eq_true, beq_iff_eq] at hl
    have hline (d : UInt8) (hcode : unit 0x32 0x30 0x32 d = c.toNat)
        (hd : (Text.hexValue? d).isSome = true)
        (hx : Text.hex 4 c.toNat = [0x32, 0x30, 0x32, d]) :
        SpellsString (utf8 c ++ s) (Text.ofString "\\u" ++ Text.hex 4 c.toNat ++ x) := by
      rw [hx]
      exact spells_code hcode (by simp [hd]; decide) h
    rcases hl with hl | hl
    · exact hline 0x38 (by rw [hl]; decide) (by decide) (by rw [hl]; decide)
    · exact hline 0x39 (by rw [hl]; decide) (by decide) (by rw [hl]; decide)
  · simp only [Bool.or_eq_true, decide_eq_true_eq, beq_iff_eq, not_or] at hq hu
    exact .plain (by omega) hq.1 hq.2 h

/-- A byte that belongs to no character is escaped as U+FFFD. -/
theorem spells_piece {s x : Text} (p : Piece) (h : SpellsString s x) :
    SpellsString (utf8 p.toChar ++ s) (escapePiece p ++ x) := by
  cases p with
  | char c => exact spells_escape c h
  | stray b =>
    have hsingle : single (unit 0x66 0x66 0x66 0x64) = '�' := by decide
    have hspells := SpellsString.unit (a := 0x66) (b := 0x66) (c := 0x66) (d := 0x64)
      (by simp; decide) (by decide) h
    rw [hsingle] at hspells
    exact hspells

theorem spells_mended (t : Text) : SpellsQuoted t.mended (stringText t) := by
  refine ⟨t.pieces.flatMap escapePiece, rfl, ?_⟩
  rw [Text.mended, Text.chars]
  induction t.pieces with
  | nil => exact .nil
  | cons p pieces ih => exact spells_piece p ih

theorem mended_eq {t : Text} (h : t.isUtf8 = true) : t.mended = t := by
  obtain ⟨cs, rfl⟩ := Text.isUtf8_iff.mp h
  rw [Text.mended, Text.chars, Text.pieces_ofChars, List.map_map]
  exact congrArg Text.ofChars (List.map_id cs)

theorem spells_stringText {t : Text} (h : t.isUtf8 = true) : SpellsQuoted t (stringText t) := by
  have hspells := spells_mended t
  rwa [mended_eq h] at hspells

theorem isUtf8_escapePiece (p : Piece) : (escapePiece p).isUtf8 = true := by
  cases p with
  | stray b => exact Text.isUtf8_ofString _
  | char c =>
    simp only [escapePiece]
    split_ifs
    · exact Text.isUtf8_iff.mpr ⟨_, rfl⟩
    · exact Text.isUtf8_ofString _
    · exact Text.isUtf8_ofString _
    · exact Text.isUtf8_ofString _
    · exact Text.isUtf8_append (Text.isUtf8_ofString _) (Text.isUtf8_hex _ _)
    · exact Text.isUtf8_append (Text.isUtf8_ofString _) (Text.isUtf8_hex _ _)
    · exact Text.isUtf8_iff.mpr ⟨[c], (List.flatMap_singleton _ _).symm⟩

theorem isUtf8_stringText (t : Text) : (stringText t).isUtf8 = true := by
  have hpieces : Text.isUtf8 (t.pieces.flatMap escapePiece) = true := by
    induction t.pieces with
    | nil => exact Text.isUtf8_ofString ""
    | cons p pieces ih => exact Text.isUtf8_append (isUtf8_escapePiece p) ih
  exact Text.isUtf8_append (Text.isUtf8_append (Text.isUtf8_ofString _) hpieces)
    (Text.isUtf8_ofString _)

end WireSchema.Json

namespace WireSchema.Json.Writer

/-! ## Places -/

/-- The open containers, innermost first, and whether a name waits for its value. -/
abbrev Place := List OpenContainer × Bool

def place (w : Writer) : Place := (w.stack, w.named)

def lineStart (indent : Text) (depth : Nat) : Text :=
  if indent.isEmpty then [] else 0x0A :: Text.repeated indent depth

/-- What stands before an entry. -/
def lead (indent : Text) : Place → Text
  | (top :: outer, false) =>
    (if 0 < top.count then [0x2C] else []) ++ lineStart indent (outer.length + 1)
  | _ => []

/-- What stands after a name. -/
def colon (indent : Text) : Text := Text.ofString (if indent.isEmpty then ":" else ": ")

/-- The place once an entry has begun. -/
def entered : Place → Place
  | (top :: outer, false) => ({ top with count := top.count + 1 } :: outer, false)
  | (stack, _) => (stack, false)

/-- On a sink without a limit the action leads from one place to the other and appends the text. -/
def Does (indent : Text) (a : Action) (p p' : Place) (x : Text) : Prop :=
  ∀ w : Writer, w.indent = indent → w.sink.limit = none → w.place = p →
    ∃ w', a.run w = .ok () w' ∧ w'.indent = indent ∧ w'.sink.limit = none ∧ w'.place = p' ∧
      w'.sink.text = w.sink.text ++ x

def Writes (indent : Text) (es : List Write) (p p' : Place) (x : Text) : Prop :=
  ∀ w : Writer, w.indent = indent → w.sink.limit = none → w.place = p →
    ∃ w', w.writeAll es = (none, w') ∧ w'.indent = indent ∧ w'.sink.limit = none ∧ w'.place = p' ∧
      w'.sink.text = w.sink.text ++ x

variable {indent x y : Text} {p p₁ p₂ : Place}

theorem Does.bind {a b : Action} (ha : Does indent a p p₁ x) (hb : Does indent b p₁ p₂ y) :
    Does indent (do a; b) p p₂ (x ++ y) := by
  intro w hi hl hp
  obtain ⟨w₁, hr, hi, hl, hp, ht⟩ := ha w hi hl hp
  obtain ⟨w₂, hr', hi, hl, hp, ht'⟩ := hb w₁ hi hl hp
  refine ⟨w₂, ?_, hi, hl, hp, by rw [ht', ht, List.append_assoc]⟩
  simp only [EStateM.run] at hr hr'
  simp only [EStateM.run, Bind.bind, EStateM.bind, hr, hr']

theorem Writes.nil : Writes indent [] p p [] := by
  intro w hi hl hp
  exact ⟨w, rfl, hi, hl, hp, by simp⟩

theorem Writes.cons {e : Write} {es : List Write} (he : Does indent (event e) p p₁ x)
    (hes : Writes indent es p₁ p₂ y) : Writes indent (e :: es) p p₂ (x ++ y) := by
  intro w hi hl hp
  obtain ⟨w₁, hr, hi, hl, hp, ht⟩ := he w hi hl hp
  obtain ⟨w₂, hr', hi, hl, hp, ht'⟩ := hes w₁ hi hl hp
  refine ⟨w₂, ?_, hi, hl, hp, by rw [ht', ht, List.append_assoc]⟩
  simp only [writeAll, write, hr, hr']

theorem Does.writes {e : Write} (h : Does indent (event e) p p₁ x) : Writes indent [e] p p₁ x := by
  have := Writes.cons h .nil
  rwa [List.append_nil] at this

theorem writeAll_append {w w₁ : Writer} {es : List Write} (h : w.writeAll es = (none, w₁))
    (es' : List Write) : w.writeAll (es ++ es') = w₁.writeAll es' := by
  induction es generalizing w with
  | nil =>
    obtain ⟨-, rfl⟩ := Prod.mk.inj h
    rfl
  | cons e es ih =>
    simp only [List.cons_append, writeAll] at h ⊢
    split at h
    · rename_i w' he
      exact ih h
    · simp at h

theorem Writes.append {es es' : List Write} (h : Writes indent es p p₁ x)
    (h' : Writes indent es' p₁ p₂ y) : Writes indent (es ++ es') p p₂ (x ++ y) := by
  intro w hi hl hp
  obtain ⟨w₁, hr, hi, hl, hp, ht⟩ := h w hi hl hp
  obtain ⟨w₂, hr', hi, hl, hp, ht'⟩ := h' w₁ hi hl hp
  exact ⟨w₂, (writeAll_append hr es').trans hr', hi, hl, hp, by rw [ht', ht, List.append_assoc]⟩

/-! ## Actions -/

theorem does_get {f : Writer → Action}
    (h : ∀ w : Writer, w.indent = indent → w.sink.limit = none → w.place = p →
      ∃ w', (f w).run w = .ok () w' ∧ w'.indent = indent ∧ w'.sink.limit = none ∧ w'.place = p₁ ∧
        w'.sink.text = w.sink.text ++ x) : Does indent (get >>= f) p p₁ x := h

theorem does_modify {f : Writer → Writer} (hsink : ∀ w, (f w).sink = w.sink)
    (hindent : ∀ w, (f w).indent = w.indent) (hplace : ∀ w, w.place = p → (f w).place = p₁) :
    Does indent (modify f) p p₁ [] := by
  intro w hi hl hp
  exact ⟨f w, rfl, (hindent w).trans hi, by rw [hsink, hl], hplace w hp, by rw [hsink, List.append_nil]⟩

theorem does_pure : Does indent (pure ()) p p [] := by
  intro w hi hl hp
  exact ⟨w, rfl, hi, hl, hp, by simp⟩

theorem does_raw (t : Text) : Does indent (raw t) p p t := by
  refine does_get fun w hi hl hp => ?_
  have hw : w.sink.write t =
      .ok { w.sink with chunks := t :: w.sink.chunks, size := w.sink.size + t.length } := by
    simp [Sink.write, Sink.fits, hl]
  rw [hw]
  exact ⟨_, rfl, hi, hl, hp, by simp [Sink.text]⟩

theorem does_newline (depth : Nat) : Does indent (newline depth) p p (lineStart indent depth) := by
  refine does_get fun w hi hl hp => ?_
  rw [hi]
  by_cases he : indent.isEmpty = true
  · rw [if_pos he, lineStart, if_pos he]
    exact does_pure w hi hl hp
  · rw [if_neg he, lineStart, if_neg he]
    exact does_raw _ w hi hl hp

theorem does_element : Does indent element p (entered p) (lead indent p) := by
  refine does_get fun w hi hl hp => ?_
  obtain ⟨stack, named⟩ := p
  obtain ⟨hs, hn⟩ := Prod.mk.inj hp
  cases named with
  | true =>
    rw [hn, if_pos rfl]
    exact ⟨_, rfl, hi, hl, by simp [place, entered, hs], by simp [lead]⟩
  | false =>
    rw [hn, hs, if_neg (by decide)]
    cases stack with
    | nil => exact does_pure w hi hl hp
    | cons top outer =>
      have hcount : Does indent (do
          modify fun w => { w with stack := { top with count := top.count + 1 } :: outer }
          newline (outer.length + 1)) (top :: outer, false) (entered (top :: outer, false))
          (lineStart indent (outer.length + 1)) := by
        refine Does.bind (does_modify ?_ ?_ ?_) (does_newline _)
        · exact fun w => rfl
        · exact fun w => rfl
        · exact fun w h => Prod.ext rfl (Prod.mk.inj h).2
      simp only [lead]
      split_ifs with hc
      · exact Does.bind (does_raw ",") hcount w hi hl hp
      · exact hcount w hi hl hp

theorem does_scalar (t : Text) : Does indent (scalar t) p (entered p) (lead indent p ++ t) :=
  does_element.bind (does_raw t)

theorem entered_eq (p : Place) : entered p = ((entered p).1, false) := by
  obtain ⟨_ | ⟨top, outer⟩, _ | _⟩ := p <;> rfl

theorem does_open (isObject : Bool) (bracket : Text) :
    Does indent (openContainer isObject bracket) p (⟨isObject, 0⟩ :: (entered p).1, false)
      (lead indent p ++ bracket) := by
  refine does_element.bind (Does.bind (does_modify ?_ ?_ ?_) (does_raw bracket))
  · exact fun w => rfl
  · exact fun w => rfl
  · intro w h
    rw [entered_eq] at h
    obtain ⟨hs, hn⟩ := Prod.mk.inj h
    simp only [place, hs, hn]

theorem does_close {top : OpenContainer} {outer : List OpenContainer} (bracket : Text) :
    Does indent (closeContainer top.isObject bracket) (top :: outer, false) (outer, false)
      ((if 0 < top.count then lineStart indent outer.length else []) ++ bracket) := by
  refine does_get fun w hi hl hp => ?_
  obtain ⟨hs, hn⟩ := Prod.mk.inj hp
  simp only [hs, hn, bne_self_eq_false, Bool.or_false, Bool.false_eq_true, if_false]
  split_ifs with hc
  · exact (does_newline _).bind (does_raw bracket) ⟨w.sink, w.indent, outer, false⟩ hi hl rfl
  · exact does_raw bracket ⟨w.sink, w.indent, outer, false⟩ hi hl rfl

theorem does_fieldName {top : OpenContainer} {outer : List OpenContainer} (h : top.isObject = true)
    (t : Text) :
    Does indent (fieldName t) (top :: outer, false) ((entered (top :: outer, false)).1, true)
      (lead indent (top :: outer, false) ++ (stringText t ++ colon indent)) := by
  refine does_get fun w hi hl hp => ?_
  obtain ⟨hs, hn⟩ := Prod.mk.inj hp
  have ha : w.acceptsName = true := by simp [acceptsName, hs, hn, h]
  simp only [ha, Bool.not_true, Bool.false_eq_true, if_false]
  have hnamed : Does indent (modify fun w => { w with named := true })
      (entered (top :: outer, false)) ((entered (top :: outer, false)).1, true) [] := by
    refine does_modify ?_ ?_ ?_
    · exact fun w => rfl
    · exact fun w => rfl
    · exact fun w h => Prod.ext (Prod.mk.inj h).1 rfl
  have := does_element.bind ((does_raw (stringText t ++ colon indent)).bind hnamed) w hi hl hp
  rw [List.append_nil] at this
  rw [hi]
  exact this

/-! ## Values -/

theorem blank_lineStart (hi : Blank indent) (depth : Nat) : Blank (lineStart indent depth) := by
  intro b hb
  unfold lineStart at hb
  split_ifs at hb with hempty
  · simp at hb
  · rcases List.mem_cons.mp hb with rfl | hb
    · exact .inr (.inr (.inl rfl))
    · obtain ⟨t, ht, hb⟩ := List.mem_flatten.mp hb
      rw [List.eq_of_mem_replicate ht] at hb
      exact hi b hb

theorem colon_eq (indent : Text) : ∃ gap, colon indent = 0x3A :: gap ∧ Blank gap := by
  unfold colon
  split_ifs
  · exact ⟨[], rfl, List.forall_mem_nil _⟩
  · refine ⟨[0x20], rfl, fun b hb => .inl (List.mem_singleton.mp hb)⟩

/-- Wherever the events are written, the text written for them spells the document. -/
def WritesTree (indent : Text) (es : List Write) (t : Tree) : Prop :=
  ∀ p : Place, ∃ y, t.Spells y ∧ Writes indent es p (entered p) (lead indent p ++ y)

theorem writesTree_scalar {e : Write} {t : Tree} (ht : event e = scalar x) (hs : t.Spells x) :
    WritesTree indent [e] t := by
  intro p
  have hdoes : Does indent (event e) p (entered p) (lead indent p ++ x) := ht ▸ does_scalar x
  exact ⟨x, hs, hdoes.writes⟩

/-- Further elements, given as events and documents, are written each after a comma; blanks may
follow them. -/
theorem writes_moreItems (hi : Blank indent) {items : List (List Write × Tree)}
    (h : ∀ v ∈ items, WritesTree indent v.1 v.2) (k : Nat) (outer : List OpenContainer) :
    ∃ y, Writes indent (items.flatMap (·.1)) (⟨false, k + 1⟩ :: outer, false)
        (⟨false, k + 1 + items.length⟩ :: outer, false) y ∧
      ∀ after, Blank after → Tree.SpellsMoreItems (items.map (·.2)) (y ++ after) := by
  induction items generalizing k with
  | nil => exact ⟨[], .nil, fun after ha => ha⟩
  | cons v items ih =>
    obtain ⟨y, hy, hwrite⟩ := h v (by simp) (⟨false, k + 1⟩ :: outer, false)
    obtain ⟨more, hmore, hspells⟩ := ih (List.forall_mem_cons.mp h).2 (k + 1)
    have hall := hwrite.append hmore
    rw [show k + 1 + 1 + items.length = k + 1 + (v :: items).length by simp; omega] at hall
    refine ⟨_, hall, fun after ha => ?_⟩
    exact ⟨[], lineStart indent (outer.length + 1), y, more ++ after, by simp [lead],
        List.forall_mem_nil _, blank_lineStart hi _, hy, hspells after ha⟩

theorem writes_items (hi : Blank indent) {items : List (List Write × Tree)}
    (h : ∀ v ∈ items, WritesTree indent v.1 v.2) (outer : List OpenContainer) :
    ∃ y, Writes indent (items.flatMap (·.1)) (⟨false, 0⟩ :: outer, false)
        (⟨false, items.length⟩ :: outer, false) y ∧
      ∀ after, Blank after → Tree.SpellsItems (items.map (·.2)) (y ++ after) := by
  cases items with
  | nil => exact ⟨[], .nil, fun after ha => ha⟩
  | cons v items =>
    obtain ⟨y, hy, hwrite⟩ := h v (by simp) (⟨false, 0⟩ :: outer, false)
    obtain ⟨more, hmore, hspells⟩ := writes_moreItems hi (List.forall_mem_cons.mp h).2 0 outer
    have hall := hwrite.append hmore
    rw [show 0 + 1 + items.length = (v :: items).length by simp; omega] at hall
    refine ⟨_, hall, fun after ha => ?_⟩
    exact ⟨lineStart indent (outer.length + 1), y, more ++ after, by simp [lead],
        blank_lineStart hi _, hy, hspells after ha⟩

/-- A member of an object to be written: its name, and its value as events and as a document. -/
abbrev Entry := Text × List Write × Tree

def Entry.events (e : Entry) : List Write := .fieldName e.1 :: e.2.1

def Entry.member (e : Entry) : Text × Tree := (e.1.mended, e.2.2)

theorem writes_entry {e : Entry} (h : WritesTree indent e.2.1 e.2.2) (k : Nat)
    (outer : List OpenContainer) :
    ∃ y, e.2.2.Spells y ∧
      Writes indent e.events (⟨true, k⟩ :: outer, false) (⟨true, k + 1⟩ :: outer, false)
        (lead indent (⟨true, k⟩ :: outer, false) ++ (stringText e.1 ++ (colon indent ++ y))) := by
  obtain ⟨y, hy, hwrite⟩ := h (⟨true, k + 1⟩ :: outer, true)
  refine ⟨y, hy, ?_⟩
  have hname : Does indent (event (.fieldName e.1)) (⟨true, k⟩ :: outer, false)
      (⟨true, k + 1⟩ :: outer, true) _ := does_fieldName rfl e.1
  simpa [Entry.events, lead, entered] using Writes.cons hname hwrite

theorem writes_moreEntries (hi : Blank indent) {es : List Entry}
    (h : ∀ e ∈ es, WritesTree indent e.2.1 e.2.2) (k : Nat) (outer : List OpenContainer) :
    ∃ y, Writes indent (es.flatMap Entry.events) (⟨true, k + 1⟩ :: outer, false)
        (⟨true, k + 1 + es.length⟩ :: outer, false) y ∧
      ∀ after, Blank after → Tree.SpellsMoreMembers (es.map Entry.member) (y ++ after) := by
  obtain ⟨gap, hcolon, hgap⟩ := colon_eq indent
  induction es generalizing k with
  | nil => exact ⟨[], .nil, fun after ha => ha⟩
  | cons e es ih =>
    obtain ⟨y, hy, hwrite⟩ := writes_entry (h e (by simp)) (k + 1) outer
    obtain ⟨more, hmore, hspells⟩ := ih (List.forall_mem_cons.mp h).2 (k + 1)
    have hall := hwrite.append hmore
    rw [show k + 1 + 1 + es.length = k + 1 + (e :: es).length by simp; omega] at hall
    refine ⟨_, hall, fun after ha => ?_⟩
    exact ⟨[], lineStart indent (outer.length + 1), stringText e.1, [], gap, y, more ++ after,
        by simp [lead, hcolon], List.forall_mem_nil _, blank_lineStart hi _, spells_mended e.1,
        List.forall_mem_nil _, hgap, hy, hspells after ha⟩

theorem writes_entries (hi : Blank indent) {es : List Entry}
    (h : ∀ e ∈ es, WritesTree indent e.2.1 e.2.2) (outer : List OpenContainer) :
    ∃ y, Writes indent (es.flatMap Entry.events) (⟨true, 0⟩ :: outer, false)
        (⟨true, es.length⟩ :: outer, false) y ∧
      ∀ after, Blank after → Tree.SpellsMembers (es.map Entry.member) (y ++ after) := by
  obtain ⟨gap, hcolon, hgap⟩ := colon_eq indent
  cases es with
  | nil => exact ⟨[], .nil, fun after ha => ha⟩
  | cons e es =>
    obtain ⟨y, hy, hwrite⟩ := writes_entry (h e (by simp)) 0 outer
    obtain ⟨more, hmore, hspells⟩ := writes_moreEntries hi (List.forall_mem_cons.mp h).2 0 outer
    have hall := hwrite.append hmore
    rw [show 0 + 1 + es.length = (e :: es).length by simp; omega] at hall
    refine ⟨_, hall, fun after ha => ?_⟩
    exact ⟨lineStart indent (outer.length + 1), stringText e.1, [], gap, y, more ++ after,
        by simp [lead, hcolon], blank_lineStart hi _, spells_mended e.1, List.forall_mem_nil _, hgap,
        hy, hspells after ha⟩

/-- Writing a container: brackets around its body, the closing one on a line of its own if there are
entries. -/
theorem writes_container {isObject : Bool} (start stop : Write) (left right : UInt8)
    (hstart : event start = openContainer isObject [left])
    (hstop : event stop = closeContainer isObject [right]) (hi : Blank indent) {es : List Write}
    {n : Nat} (h : Writes indent es (⟨isObject, 0⟩ :: (entered p).1, false)
      (⟨isObject, n⟩ :: (entered p).1, false) y) :
    ∃ after, Blank after ∧ Writes indent (start :: es ++ [stop]) p (entered p)
      (lead indent p ++ left :: (y ++ after ++ [right])) := by
  refine ⟨if 0 < n then lineStart indent (entered p).1.length else [], ?_, ?_⟩
  · split_ifs
    exacts [blank_lineStart hi _, List.forall_mem_nil _]
  · have hopen : Does indent (event start) p (⟨isObject, 0⟩ :: (entered p).1, false) _ :=
      hstart ▸ does_open isObject [left]
    have hclose : Does indent (closeContainer isObject [right]) (⟨isObject, n⟩ :: (entered p).1, false)
        ((entered p).1, false) _ := does_close [right]
    rw [← hstop, ← entered_eq] at hclose
    simpa using (Writes.cons hopen h).append hclose.writes

theorem writesTree_array (hi : Blank indent) {items : List (List Write × Tree)}
    (h : ∀ v ∈ items, WritesTree indent v.1 v.2) :
    WritesTree indent (.startArray :: items.flatMap (·.1) ++ [.endArray])
      (.array (items.map (·.2))) := by
  intro p
  obtain ⟨y, hy, hspells⟩ := writes_items hi h (entered p).1
  obtain ⟨after, ha, hw⟩ := writes_container .startArray .endArray 0x5B 0x5D rfl rfl hi hy
  exact ⟨_, ⟨y ++ after, rfl, hspells after ha⟩, hw⟩

theorem writesTree_object (hi : Blank indent) {es : List Entry}
    (h : ∀ e ∈ es, WritesTree indent e.2.1 e.2.2) :
    WritesTree indent (.startObject :: es.flatMap Entry.events ++ [.endObject])
      (.object (es.map Entry.member)) := by
  intro p
  obtain ⟨y, hy, hspells⟩ := writes_entries hi h (entered p).1
  obtain ⟨after, ha, hw⟩ := writes_container .startObject .endObject 0x7B 0x7D rfl rfl hi hy
  exact ⟨_, ⟨y ++ after, rfl, hspells after ha⟩, hw⟩

end WireSchema.Json.Writer
