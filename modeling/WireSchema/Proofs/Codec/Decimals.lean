import WireSchema.Proofs.Codec.Dialects
import WireSchema.Proofs.Yaml.Documents
import WireSchema.Proofs.Yaml.PlainScalars

/-!
# Decimals in both formats

A decimal is written as its text, in JSON as in YAML, and that text is read as the same number. JSON hands
the text on as one number, whatever its size. In YAML the text is a plain scalar, and what a plain scalar
means is found out through double precision: where that has no finite number near the decimal, from
`2 ^ 1024 - 2 ^ 970` on, the document has a string in place of the number.
-/

namespace WireSchema

namespace Decimal

theorem readDecimal_toText {d : Decimal} (hd : exponentFits d.exponent = true) :
    ∃ d', Codec.readDecimal d.toText = .ok d' ∧ d'.value = d.value := by
  obtain ⟨d', hparse, hvalue⟩ := parse_toText hd
  exact ⟨d', by rw [Codec.readDecimal, hparse]; rfl, hvalue⟩

theorem drain_json (d : Decimal) (indent : Text) :
    ∃ w, Json.Writer.writeAll { indent } [.decimal d] = (none, w) ∧
      ∀ dialect : Dialect, ∃ located s,
        (Source.ofJson dialect w.sink.text).drain = (located, .exhausted .clean, s) ∧
        located.map (·.token) = [.number d.toText] := by
  have hwrites : Value.WritesTree indent (some (.decimal d)) :=
    Value.writesTree_scalar rfl rfl ⟨rfl, d.isNumber_toText⟩
  obtain ⟨w, hw, hdocument⟩ := hwrites.documents_writeAll
  exact ⟨w, hw, Json.drain_document hdocument⟩

theorem drain_yaml {d : Decimal} {t : Token} (h : Yaml.scalarToken [] .plain d.toText = .ok t)
    {indent : Int} (hi : 0 ≤ indent) :
    ∃ b text located s, Yaml.Builder.writeAll {} [.decimal d] = (none, b) ∧
      b.text indent = .ok text ∧
      (Yaml.source text false).drain = (located, .exhausted .clean, s) ∧
      located.map (·.token) = [t] := by
  obtain ⟨cs, htext, hword⟩ := Yaml.isWord_of_isNumeral (Yaml.isNumeral_toText d)
  have hparse := Yaml.parse_word hword
  rw [← htext] at hparse
  have hrender : Yaml.Builder.text ⟨some (.scalar [] d.toText), [], false⟩ indent =
      .ok (Text.ofChars (cs ++ ['\n'])) := by
    have hunit := Yaml.render_word hword (Yaml.indentUnit indent)
    rw [← htext] at hunit
    have hdocument : Yaml.Builder.document ⟨some (.scalar [] d.toText), [], false⟩ =
        .ok (.plain d.toText) := rfl
    simp only [Yaml.Builder.text, hdocument, bind, Except.bind, not_lt.mpr hi, if_false,
      Yaml.Tree.isWritable, hunit]
    rfl
  have hsource : Yaml.source (Text.ofChars (cs ++ ['\n'])) false =
      .document [⟨t, 1⟩] (-1) (.exhausted .clean) := by
    refine Yaml.source_of_expands hparse .scalar ?_ ?_
    · rw [Yaml.Node.tokens?, h]
      rfl
    · exact le_max_of_le_left (by simp)
  obtain ⟨s, hs⟩ := Yaml.drain_document [⟨t, 1⟩] (-1) (.exhausted .clean)
  rw [← hsource] at hs
  exact ⟨_, _, _, s, rfl, hrender, hs, rfl⟩

/-- **Decimals in JSON and in YAML.** The text of a decimal is read as the same number. Through the
writer of JSON, with any indentation, and either dialect, the decimal is one number with that text.
Through the builder of YAML it is one scalar with that text, and that is a number exactly for decimals
that double precision can round. -/
theorem drain_formats {d : Decimal} (hd : exponentFits d.exponent = true) :
    (∃ d', Codec.readDecimal d.toText = .ok d' ∧ d'.value = d.value) ∧
    (∀ indent : Text, ∃ w, Json.Writer.writeAll { indent } [.decimal d] = (none, w) ∧
      ∀ dialect : Dialect, ∃ located s,
        (Source.ofJson dialect w.sink.text).drain = (located, .exhausted .clean, s) ∧
        located.map (·.token) = [.number d.toText]) ∧
    ∀ indent : Int, 0 ≤ indent →
      ∃ b text located s, Yaml.Builder.writeAll {} [.decimal d] = (none, b) ∧
        b.text indent = .ok text ∧
        (Yaml.source text false).drain = (located, .exhausted .clean, s) ∧
        located.map (·.token) =
          [if |d.value| < 2 ^ 1024 - 2 ^ 970 then .number d.toText else .string d.toText] := by
  have htoken := Yaml.scalarToken_toText hd
  rw [Binary.overflow_double] at htoken
  exact ⟨readDecimal_toText hd, drain_json d, fun _ hi => drain_yaml htoken hi⟩

/-- More digits than an integer of 64 bits or double precision has. -/
def lengthy : Decimal := ⟨-123456789012345678901234567890, -9⟩

theorem drain_formats_lengthy :
    exponentFits lengthy.exponent = true ∧
    (∃ d', Codec.readDecimal lengthy.toText = .ok d' ∧ d'.value = lengthy.value) ∧
    ∃ b text located s, Yaml.Builder.writeAll {} [.decimal lengthy] = (none, b) ∧
      b.text 0 = .ok text ∧ (Yaml.source text false).drain = (located, .exhausted .clean, s) ∧
      located.map (·.token) = [.number "-123456789012345678901.23456789"] := by
  have hfits : exponentFits lengthy.exponent = true := by decide
  obtain ⟨hread, -, hyaml⟩ := drain_formats hfits
  have hsmall : |lengthy.value| < 2 ^ 1024 - 2 ^ 970 := by
    have hvalue : |lengthy.value| ≤ 2 ^ 67 := by
      rw [value, lengthy]
      norm_num [abs_le]
    rw [← Binary.overflow_double]
    exact hvalue.trans_lt (Yaml.two_pow_lt_overflow (by decide))
  have htext : lengthy.toText = "-123456789012345678901.23456789" := by decide +kernel
  obtain ⟨b, text, located, s, hwrite, hrender, hdrain, htokens⟩ := hyaml 0 le_rfl
  rw [if_pos hsmall, htext] at htokens
  exact ⟨hfits, hread, b, text, located, s, hwrite, hrender, hdrain, htokens⟩

/-- Ten to the power of 309 is beyond double precision, and in YAML it is read as a string. -/
theorem drain_yaml_beyond_double :
    ∃ b text located s, Yaml.Builder.writeAll {} [.decimal ⟨1, 309⟩] = (none, b) ∧
      b.text 2 = .ok text ∧ (Yaml.source text false).drain = (located, .exhausted .clean, s) ∧
      located.map (·.token) = [.string (toText ⟨1, 309⟩)] := by
  have htoken := Yaml.scalarToken_toText (d := ⟨1, 309⟩) (by decide)
  have hlarge : ¬ |value ⟨1, 309⟩| < BinaryFormat.double.overflow := by
    have hpow : (2 : ℚ) ^ 1024 ≤ 10 ^ 309 := by
      have : (2 : Nat) ^ 1024 ≤ 10 ^ 309 := by decide +kernel
      exact_mod_cast this
    have hvalue : value ⟨1, 309⟩ = 10 ^ 309 := by
      rw [value, Int.cast_one, one_mul]
      exact zpow_natCast 10 309
    rw [hvalue, abs_of_pos (by positivity), not_lt, Binary.overflow_double]
    have hpos : (0 : ℚ) ≤ 2 ^ 970 := by positivity
    exact (sub_le_self _ hpos).trans hpow
  rw [if_neg hlarge] at htoken
  exact drain_yaml htoken (by decide)

end Decimal

end WireSchema
