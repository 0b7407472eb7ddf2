import WireSchema.Proofs.Codec.Dialects
import WireSchema.Proofs.Codec.Interruption
import WireSchema.Proofs.Json.StrictTruncation
import WireSchema.Proofs.Lists

/-!
# Truncated documents are rejected

A text of one object from which bytes are missing at the end is decoded by no codec, in neither
dialect. Where the cut is between two tokens, and the whole text can be decoded, the failure is the
end of the stream. A number that is cut may still be a number, so the tokens up to the cut are those
of an object, but not always of the same one.
-/

namespace WireSchema

open Json (Tree Blank Between)

/-! ## Other numbers in a document -/

namespace Json.Tree

mutual

theorem renumber : ∀ (t : Tree) {before after : List Token} {literal : Text} (other : Text),
    t.tokens = before ++ .number literal :: after →
    ∃ t' : Tree, t'.tokens = before ++ .number other :: after
  | .array items, before, after, literal, other, h => by
    rw [tokens, head, tail] at h
    obtain ⟨before, rfl, hcontents⟩ := split_of_ne h (by simp)
    obtain ⟨after, hitems, rfl⟩ := split_concat_of_ne hcontents (by simp)
    obtain ⟨items', hitems'⟩ := renumber_items items other hitems
    exact ⟨.array items', by simp [tokens, head, tail, hitems']⟩
  | .object members, before, after, literal, other, h => by
    rw [tokens, head, tail] at h
    obtain ⟨before, rfl, hcontents⟩ := split_of_ne h (by simp)
    obtain ⟨after, hmembers, rfl⟩ := split_concat_of_ne hcontents (by simp)
    obtain ⟨members', hmembers'⟩ := renumber_members members other hmembers
    exact ⟨.object members', by simp [tokens, head, tail, hmembers']⟩
  | .number x, before, after, literal, other, h => by
    cases before with
    | nil =>
      obtain ⟨-, rfl⟩ := List.cons.inj h
      exact ⟨.number other, rfl⟩
    | cons b before => simp [tokens, tail] at h
  | .null, before, after, literal, other, h | .bool _, before, after, literal, other, h
  | .string _, before, after, literal, other, h => by
    rw [tokens, head, tail_eq_nil rfl] at h
    obtain ⟨before, rfl, hcontents⟩ := split_of_ne h (by simp)
    simp at hcontents

theorem renumber_items : ∀ (items : List Tree) {before after : List Token} {literal : Text}
    (other : Text), itemTokens items = before ++ .number literal :: after →
    ∃ items', itemTokens items' = before ++ .number other :: after
  | [], before, after, literal, other, h => by simp [itemTokens] at h
  | t :: items, before, after, literal, other, h => by
    rcases split_cons (show t.tokens ++ itemTokens items = _ from h) with
      ⟨more, ht, rfl⟩ | ⟨more, rfl, hitems⟩
    · obtain ⟨t', ht'⟩ := renumber t other ht
      refine ⟨t' :: items, ?_⟩
      show t'.tokens ++ itemTokens items = _
      rw [ht', List.append_assoc, List.cons_append]
    · obtain ⟨items', hitems'⟩ := renumber_items items other hitems
      refine ⟨t :: items', ?_⟩
      show t.tokens ++ itemTokens items' = _
      rw [hitems', List.append_assoc]

theorem renumber_members : ∀ (members : List (Text × Tree)) {before after : List Token}
    {literal : Text} (other : Text), memberTokens members = before ++ .number literal :: after →
    ∃ members', memberTokens members' = before ++ .number other :: after
  | [], before, after, literal, other, h => by simp [memberTokens] at h
  | (key, t) :: members, before, after, literal, other, h => by
    rw [memberTokens] at h
    obtain ⟨before, rfl, hvalue⟩ := split_of_ne h (by simp)
    rcases split_cons (show t.tokens ++ memberTokens members = _ from hvalue) with
      ⟨more, ht, rfl⟩ | ⟨more, rfl, hmembers⟩
    · obtain ⟨t', ht'⟩ := renumber t other ht
      refine ⟨(key, t') :: members, ?_⟩
      show .key key :: (t'.tokens ++ memberTokens members) = _
      rw [ht', List.append_assoc, List.cons_append, List.cons_append]
    · obtain ⟨members', hmembers'⟩ := renumber_members members other hmembers
      refine ⟨(key, t) :: members', ?_⟩
      show .key key :: (t.tokens ++ memberTokens members') = _
      rw [hmembers', List.cons_append, List.append_assoc]

end

theorem renumber_object {members : List (Text × Tree)} {before after : List Token} {literal : Text}
    (other : Text) (h : (object members).tokens = before ++ .number literal :: after) :
    ∃ members', (object members').tokens = before ++ .number other :: after := by
  obtain ⟨t, ht⟩ := renumber _ other h
  rw [tokens, head] at h
  obtain ⟨before, rfl, -⟩ := split_of_ne h (by simp)
  obtain ⟨hhead, -⟩ : t.head = .beginObject ∧ _ := List.cons.inj ht
  cases t with
  | object members' => exact ⟨members', ht⟩
  | _ => cases hhead

theorem eq_endObject {members : List (Text × Tree)} {before : List Token} {t : Token}
    (h : (object members).tokens = before ++ [t]) : t = .endObject := by
  have hconcat : (object members).tokens = (.beginObject :: memberTokens members) ++ [.endObject] := by
    simp [tokens, head, tail]
  rw [hconcat] at h
  simpa using (List.append_inj' h rfl).2.symm

end Json.Tree

/-! ## What is left of a text of one object -/

namespace Json

variable {members : List (Text × Tree)} {before y p q : Text}

/-- In either dialect the source of a text that is cut is cut off with respect to the source of the
whole text. -/
theorem curtailed (hb : Blank before) (hy : (Tree.object members).Spells y)
    (hcut : before ++ y = p ++ q) (hq : q ≠ []) (d : Dialect) :
    ∃ ts f, (Source.ofJson d p).Stops ts f ∧ (Between q p → f = .exhausted .clean) ∧
      Source.Curtails (fun t u => ¬Between q p ∧ Resembles t u) (Tree.object members).tokens ts := by
  have hawaits : Lenient.AwaitsValue [] := by simp [Lenient.AwaitsValue]
  have hends : Lenient.Ends [] := ends_of_blank Value.blank_nil
  cases d with
  | lenient =>
    have hemits := Lenient.readsTree (.object members) (Lenient.all_skipped_of_blank hb) hy hawaits
      hends
    rw [List.append_nil, hcut] at hemits
    refine hemits.curtailed (Lenient.trails (Between q p))
      ⟨p, q, false, [], hq, fun h => ⟨rfl, h⟩, rfl, rfl⟩ ?_
    rintro s' ⟨p', q', e, n, hq', -, hs, -⟩
    have hnil : [] = p' ++ q' := congrArg Lenient.rest (Source.lenient.inj hs)
    exact hq' (List.append_eq_nil_iff.mp hnil.symm).2
  | strict =>
    have hleads : Strict.Place.Leads ⟨before ++ (y ++ []), .value, [], []⟩
        (Tree.object members).tokens ⟨[], .value, [], []⟩ :=
      Strict.readsTree (.object members) (.blank .value hb) rfl hy hawaits hends
    rw [List.append_nil, hcut] at hleads
    obtain ⟨s, hemits, o, l, rfl⟩ := hleads (Source.ofJson .strict (p ++ q)) ⟨0, _, rfl⟩
    refine hemits.curtailed (Strict.trails (Between q p))
      ⟨p, q, .value, [], [], hq, id, ⟨0, _, rfl⟩, ⟨0, _, rfl⟩⟩ ?_
    rintro s' ⟨p', q', e, outer, n, hq', -, ⟨o', l', hs⟩, -⟩
    have hnil : [] = p' ++ q' := congrArg Strict.rest (Source.strict.inj hs)
    exact hq' (List.append_eq_nil_iff.mp hnil.symm).2

theorem stops_cut (hb : Blank before) (hy : (Tree.object members).Spells y)
    (hcut : before ++ y = p ++ q) (hq : q ≠ []) (d : Dialect) :
    ∃ members' ts f, (Source.ofJson d p).Stops ts f ∧ ts <+: (Tree.object members').tokens ∧
      ts ≠ (Tree.object members').tokens ∧
      (Between q p → members' = members ∧ f = .exhausted .clean) := by
  obtain ⟨ts, f, hstops, hclean, hcurtails⟩ := curtailed hb hy hcut hq d
  rcases hcurtails with ⟨hinitial, hne⟩ | ⟨first, t, u, after, htokens, rfl, hloose, hu⟩
  · exact ⟨members, ts, f, hstops, hinitial, hne, fun h => ⟨rfl, hclean h⟩⟩
  · have hafter : t.closes = false → after ≠ [] := by
      rintro hcloses rfl
      rw [Tree.eq_endObject htokens] at hcloses
      cases hcloses
    rcases hu with ⟨rfl, hcloses⟩ | ⟨x, x', rfl, rfl⟩
    · refine ⟨members, _, f, hstops, ?_, ?_, fun h => absurd h hloose⟩
      · exact ⟨after, by simp [htokens]⟩
      · simpa [htokens] using (hafter hcloses).symm
    · obtain ⟨members', hmembers'⟩ := Tree.renumber_object x' htokens
      refine ⟨members', _, f, hstops, ?_, ?_, fun h => absurd h hloose⟩
      · exact ⟨after, by simp [hmembers']⟩
      · simpa [hmembers'] using (hafter rfl).symm

end Json

/-! ## Decoding -/

namespace Codec

variable {m : Model} {o : Object} {target : Target} {members : List (Text × Tree)}

theorem ofMembers_of_decode {s s₁ : Source} {l : Limits}
    (he : s.Emits (Tree.object members).tokens s₁)
    (h : (decode m o (some target) { source := s.withLimits l }).failure = none) :
    (Meaning.ofMembers m o target members).1 = none := by
  rcases he.withLimits l with ⟨s₂, he⟩ | ⟨us, f, hus, hne, hstops⟩
  · obtain ⟨offset, s', hn, hinside⟩ := Source.Emits.cons_iff.mp he
    have hn := Reader.next_on (r := { source := s.withLimits l }) hn
    have hsize := hinside.length_le
    simp only [Tree.tail, List.length_append, List.length_singleton] at hsize
    obtain ⟨r', hd, -⟩ := readsMembers m members o target
      (steps (Reader.on { source := s.withLimits l } s' .beginObject))
      (Reader.on { source := s.withLimits l } s' .beginObject) s₂
      (by simp only [steps, Reader.on_source]; omega) hinside
    simp only [Tree.head] at hn
    simpa only [decode, hn, hd] using h
  · obtain ⟨e, hfailure, -⟩ := decode_stops m o target hus hne hstops
    rw [h] at hfailure
    cases hfailure

/-- **Truncated documents are rejected.** From a text of one object, with blanks before it or none, at
least one byte is cut off. What is left of it is decoded with a failure, in either dialect, under any
limits, by every codec and into any target. Where the cut is between two tokens and the whole text is
decoded without a failure, the failure is the end of the stream. -/
theorem truncated_rejected {before y p q : Text} (hb : Blank before)
    (hy : (Tree.object members).Spells y) (hcut : before ++ y = p ++ q) (hq : q ≠ []) (d : Dialect)
    (limits : Limits) (m : Model) (o : Object) (target : Target) :
    ∃ f, (decode m o (some target) (Reader.ofJson d limits p)).failure = some f ∧
      (Between q p →
        (decode m o (some target) (Reader.ofJson d limits (before ++ y))).failure = none →
        ∃ how, f = .endOfStream (some how)) := by
  obtain ⟨members', ts, f, hstops, hts, hne, hclean⟩ := Json.stops_cut hb hy hcut hq d
  have hdocument : (Tree.object members).Documents (before ++ y) :=
    ⟨before, y, [], by simp, hb, hy, Value.blank_nil⟩
  obtain ⟨s₁, hemits, -⟩ := Json.emits_document hdocument d
  rw [Reader.ofJson, Reader.ofJson, Reader.enforce_fresh, Reader.enforce_fresh]
  rcases hstops.withLimits limits with hlimited | ⟨us, f', hus, hlimited, hrefused⟩
  · obtain ⟨e, hfailure, hblame⟩ := decode_stops m o target hts hne hlimited
    refine ⟨e, hfailure, ?_⟩
    intro hbetween hdecode
    obtain ⟨rfl, rfl⟩ := hclean hbetween
    rcases hblame with (hbreaks | hbreaks) | hsome
    · exact ⟨.clean, hbreaks⟩
    · exact ⟨.torn, hbreaks⟩
    · rw [ofMembers_of_decode hemits hdecode] at hsome
      cases hsome
  · have hinside : us ≠ (Tree.object members').tokens := by
      rintro rfl
      exact hne (hts.eq_of_length_le hus.length_le)
    obtain ⟨e, hfailure, -⟩ := decode_stops m o target (hus.trans hts) hinside hlimited
    refine ⟨e, hfailure, ?_⟩
    -- the limits refuse a token before the cut, and they refuse it in the whole text as well
    intro hbetween hdecode
    obtain ⟨rfl, -⟩ := hclean hbetween
    obtain ⟨rest, hrest⟩ := hts
    rw [← hrest] at hemits
    obtain ⟨s₂, hemits, -⟩ := Source.Emits.append_iff.mp hemits
    obtain ⟨e', hfailure', -⟩ := decode_stops m o target (hus.trans ⟨rest, hrest⟩) hinside
      (hrefused hemits)
    rw [hdecode] at hfailure'
    cases hfailure'

/-- The text of an item with a member that no field takes. -/
def spareText : Text := "\x7b\"spare\":[true]\x7d"

theorem spells_spareName : Json.SpellsQuoted "spare" "\"spare\"" := by
  have hname := Json.spells_stringText (Text.isUtf8_ofString "spare")
  rwa [show Json.stringText "spare" = "\"spare\"" by decide +kernel] at hname

theorem spells_spareText : (Tree.object [("spare", .array [.bool true])]).Spells spareText := by
  have hspare : (Tree.array [.bool true]).Spells "[true]" :=
    ⟨"true", rfl, [], "true", [], rfl, Value.blank_nil, rfl, Value.blank_nil⟩
  exact ⟨"\"spare\":[true]", by decide +kernel, [], "\"spare\"", [], [], "[true]", [],
    by decide +kernel, Value.blank_nil, spells_spareName, Value.blank_nil, Value.blank_nil, hspare,
    Value.blank_nil⟩

theorem between_spareText : Between "]\x7d" "\x7b\"spare\":[true" := by
  have htrue : Between "]\x7d" (Text.ofString "true" ++ []) := by
    refine .scalar (t := .bool true) rfl rfl ?_ .nil
    rintro b ⟨⟩
    rfl
  have hname : Between "]\x7d"
      (Text.ofString "\"spare\"" ++ 0x3A :: 0x5B :: (Text.ofString "true" ++ [])) := by
    refine .scalar (t := .string "spare") rfl spells_spareName ?_
      (.gap rfl (.bracket (by simp) htrue))
    rintro b ⟨⟩
    rfl
  rw [show ("\x7b\"spare\":[true" : Text) = 0x7B :: (Text.ofString "\"spare\"" ++ 0x3A :: 0x5B ::
    (Text.ofString "true" ++ [])) by decide +kernel]
  exact .bracket (by simp) hname

/-- Cut after the element of the member that is skipped, strictly read, and cut inside the element,
leniently read. -/
theorem truncated_rejected_spare :
    (decode invoices itemObject (some (Target.empty itemObject))
      (Reader.ofJson .strict { maxDepth := 2 } spareText)).failure = none ∧
    (∃ how, (decode invoices itemObject (some (Target.empty itemObject))
      (Reader.ofJson .strict { maxDepth := 2 } "\x7b\"spare\":[true")).failure =
        some (.endOfStream (some how))) ∧
    ∃ f, (decode invoices itemObject (some (Target.empty itemObject))
      (Reader.ofJson .lenient {} "\x7b\"spare\":[tru")).failure = some f := by
  have hwhole : (decode invoices itemObject (some (Target.empty itemObject))
      (Reader.ofJson .strict { maxDepth := 2 } spareText)).failure = none :=
    Option.isNone_iff_eq_none.mp (by decide +kernel)
  have hbetween : ([] : Text) ++ spareText = Text.ofString "\x7b\"spare\":[true" ++ "]\x7d" := by
    decide +kernel
  have hinside : ([] : Text) ++ spareText = Text.ofString "\x7b\"spare\":[tru" ++ "e]\x7d" := by
    decide +kernel
  obtain ⟨f, hf, hend⟩ := truncated_rejected Value.blank_nil spells_spareText hbetween (by decide)
    .strict { maxDepth := 2 } invoices itemObject (Target.empty itemObject)
  obtain ⟨f', hf', -⟩ := truncated_rejected Value.blank_nil spells_spareText hinside (by decide)
    .lenient {} invoices itemObject (Target.empty itemObject)
  obtain ⟨how, rfl⟩ := hend between_spareText hwhole
  exact ⟨hwhole, ⟨how, hf⟩, f', hf'⟩

end Codec

end WireSchema
