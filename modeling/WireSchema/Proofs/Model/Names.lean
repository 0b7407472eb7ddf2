import Mathlib.Data.FinEnum
import Mathlib.Data.List.TakeWhile
import Mathlib.Logic.Relation
import WireSchema.Model.Class
import WireSchema.Proofs.Model.ArrayCodecs
import WireSchema.Proofs.Text.Utf8
import WireSchema.Source.Identifier

/-!
# Bytes of names

Which bytes the names of a generated file can have. The last part of a dotted name has no dot, and no
change of case brings one in; the name of a member consists of letters and digits.
-/

namespace WireSchema

/-! ## Bytes and characters -/

namespace Text

def Dotless (t : Text) : Prop := (0x2E : UInt8) ∉ t

instance (t : Text) : Decidable t.Dotless := inferInstanceAs (Decidable (_ ∉ _))

theorem Dotless.append {t u : Text} (ht : t.Dotless) (hu : u.Dotless) : Dotless (t ++ u) := by
  simpa [Dotless] using ⟨ht, hu⟩

theorem dotless_ofChars {cs : List Char} (h : '.' ∉ cs) : Dotless (ofChars cs) := by
  intro hdot
  obtain ⟨c, hc, hmem⟩ := List.mem_flatMap.mp hdot
  have hnat := toNat_of_mem_utf8 hmem (by decide)
  obtain rfl : c = '.' := Char.toNat_inj.mp (by simpa using hnat.symm)
  exact h hc

/-- The case of the first character may change. -/
theorem dotless_ofChars_cons {f : Char → Char} (hf : ∀ c, c ≠ '.' → f c ≠ '.') {c : Char}
    {rest : List Char} (h : '.' ∉ c :: rest) : Dotless (ofChars (f c :: rest)) := by
  refine dotless_ofChars (List.not_mem_cons_of_ne_of_not_mem ?_ (List.not_mem_of_not_mem_cons h))
  exact (hf c (List.ne_of_not_mem_cons h).symm).symm

theorem not_mem_chars {t : Text} (h : t.Dotless) : '.' ∉ chars t := by
  intro hdot
  obtain ⟨p, hp, hchar⟩ := List.mem_map.mp hdot
  obtain rfl : p = .char '.' := by
    cases p with
    | char c => exact congrArg _ hchar
    | stray b => cases hchar
  refine h ?_
  rw [← flatMap_bytes_pieces t]
  exact List.mem_flatMap.mpr ⟨_, hp, by decide⟩

end Text

/-! ## Case -/

/-- Every run of the table leads to capitals or to small letters, or beyond 0x80. -/
def CaseRun.Lettered (low : Nat) (run : CaseRun) : Prop :=
  low ≤ run.2.2.2 ∧ run.2.2.2 + (run.2.1 - run.1) ≤ low + 25 ∨
    0x80 ≤ run.2.2.2 ∧ run.2.2.2 + (run.2.1 - run.1) < 0x110000 ∧
      (run.2.2.2 + (run.2.1 - run.1) < 0xD800 ∨ 0xE000 ≤ run.2.2.2)

instance (low : Nat) (run : CaseRun) : Decidable (run.Lettered low) :=
  inferInstanceAs (Decidable (_ ∨ _))

theorem CaseRun.map_steps (runs : List CaseRun) (n : Nat) : map runs n = n ∨
    ∃ run ∈ runs, ∃ k, n = run.1 + k * run.2.2.1 ∧ n ≤ run.2.1 ∧
      map runs n = run.2.2.2 + k * run.2.2.1 := by
  induction runs with
  | nil => exact .inl rfl
  | cons run rest ih =>
    obtain ⟨first, last, stride, target⟩ := run
    rw [map]
    split_ifs with hfirst hlast hstride
    · exact .inl rfl
    · obtain ⟨k, hk⟩ := Nat.dvd_of_mod_eq_zero hstride
      rw [Nat.mul_comm] at hk
      exact .inr ⟨_, .head _, k, by dsimp only; omega, hlast, by dsimp only; omega⟩
    · exact .inl rfl
    · refine ih.imp_right ?_
      rintro ⟨run, hrun, h⟩
      exact ⟨run, .tail _ hrun, h⟩

theorem CaseRun.map_cases (runs : List CaseRun) (n : Nat) : map runs n = n ∨
    ∃ run ∈ runs, run.1 ≤ n ∧ n ≤ run.2.1 ∧ map runs n = n - run.1 + run.2.2.2 := by
  refine (map_steps runs n).imp_right ?_
  rintro ⟨run, hrun, k, hn, hlast, h⟩
  exact ⟨run, hrun, by omega, hlast, by omega⟩

theorem upperRuns_lettered : ∀ run ∈ upperRuns, run.Lettered 0x41 := by decide +kernel

theorem lowerRuns_lettered : ∀ run ∈ lowerRuns, run.Lettered 0x61 := by decide +kernel

theorem toNat_case {runs : List CaseRun} {low : Nat} (hruns : ∀ run ∈ runs, run.Lettered low)
    (hlow : low < 0x80) (c : Char) :
    (Char.ofNat (CaseRun.map runs c.toNat)).toNat = CaseRun.map runs c.toNat := by
  refine Text.toNat_ofNat_valid ?_
  rcases CaseRun.map_cases runs c.toNat with h | ⟨run, hrun, hfirst, hlast, h⟩
  · rw [h]
    exact c.valid
  · rw [h]
    rcases hruns run hrun with ⟨_, _⟩ | ⟨_, _, _⟩
    · exact .inl (by omega)
    · rw [Nat.isValidChar]
      omega

/-- A character that changes becomes a letter or one beyond 0x80. -/
theorem toNat_of_case {runs : List CaseRun} {low : Nat} (hruns : ∀ run ∈ runs, run.Lettered low)
    (hlow : low < 0x80) (c : Char) : Char.ofNat (CaseRun.map runs c.toNat) = c ∨
      low ≤ (Char.ofNat (CaseRun.map runs c.toNat)).toNat ∧
        (Char.ofNat (CaseRun.map runs c.toNat)).toNat ≤ low + 25 ∨
      0x80 ≤ (Char.ofNat (CaseRun.map runs c.toNat)).toNat := by
  rcases CaseRun.map_cases runs c.toNat with h | ⟨run, hrun, hfirst, hlast, h⟩
  · exact .inl (by rw [h, Char.ofNat_toNat])
  · refine .inr ?_
    rw [toNat_case hruns hlow, h]
    rcases hruns run hrun with ⟨_, _⟩ | ⟨_, _, _⟩
    · exact .inl (by omega)
    · exact .inr (by omega)

theorem upperChar_cases (c : Char) : upperChar c = c ∨
    0x41 ≤ (upperChar c).toNat ∧ (upperChar c).toNat ≤ 0x5A ∨ 0x80 ≤ (upperChar c).toNat :=
  toNat_of_case upperRuns_lettered (by decide) c

theorem lowerChar_cases (c : Char) : lowerChar c = c ∨
    0x61 ≤ (lowerChar c).toNat ∧ (lowerChar c).toNat ≤ 0x7A ∨ 0x80 ≤ (lowerChar c).toNat :=
  toNat_of_case lowerRuns_lettered (by decide) c

theorem upperChar_ne_dot {c : Char} (h : c ≠ '.') : upperChar c ≠ '.' := by
  have hdot : '.'.toNat = 0x2E := rfl
  intro heq
  rcases upperChar_cases c with hc | hc
  · exact h (hc.symm.trans heq)
  · rw [heq] at hc
    omega

theorem lowerChar_ne_dot {c : Char} (h : c ≠ '.') : lowerChar c ≠ '.' := by
  have hdot : '.'.toNat = 0x2E := rfl
  intro heq
  rcases lowerChar_cases c with hc | hc
  · exact h (hc.symm.trans heq)
  · rw [heq] at hc
    omega

/-! ## Declared names -/

namespace Names

open Text (Dotless)

theorem dotless_unexported {t : Text} (h : t.Dotless) : Dotless (unexported t) := by
  have hchars := Text.not_mem_chars h
  unfold unexported
  split
  next => exact List.not_mem_nil
  next c rest heq =>
    rw [heq] at hchars
    exact Text.dotless_ofChars_cons (fun _ => lowerChar_ne_dot) hchars

theorem dotless_lastSegment (t : Text) : Dotless (lastSegment t) := by
  unfold lastSegment Text.cutLast?
  simp only
  cases hdrop : t.reverse.dropWhile (· != 0x2E) with
  | nil =>
    intro hdot
    have hall := List.dropWhile_eq_nil_iff.mp hdrop _ (List.mem_reverse.mpr hdot)
    simp at hall
  | cons b before =>
    intro hdot
    have hmem := List.mem_takeWhile_imp (List.mem_reverse.mp hdot)
    simp at hmem

end Names

namespace Model

open Text (Dotless)

variable (m : Model)

theorem dotless_visible {t : Text} (h : t.Dotless) : Dotless (m.visible t) := by
  have hchars := Text.not_mem_chars h
  unfold visible
  split
  · exact Names.dotless_unexported h
  · split
    next => exact List.not_mem_nil
    next c rest heq =>
      rw [heq] at hchars
      exact Text.dotless_ofChars_cons (fun _ => upperChar_ne_dot) hchars

theorem dotless_baseName (id : Nat) : Dotless (m.baseName id) := by
  unfold baseName
  cases m.object? id with
  | none => exact List.not_mem_nil
  | some o => exact Names.dotless_lastSegment o.name

theorem dotless_typeName (id : Nat) : Dotless (m.typeName id) :=
  m.dotless_visible (m.dotless_baseName id)

theorem dotless_codecVar (id : Nat) : Dotless (m.codecVar id) :=
  (m.dotless_typeName id).append (by decide)

theorem dotless_encodeName (id : Nat) : Dotless (m.encodeName id) :=
  m.dotless_visible (.append (by decide) (m.dotless_baseName id))

theorem dotless_decodeName (id : Nat) : Dotless (m.decodeName id) :=
  m.dotless_visible (.append (by decide) (m.dotless_baseName id))

theorem dotless_readName (id : Nat) : Dotless (m.readName id) :=
  m.dotless_visible (.append (by decide) (m.dotless_baseName id))

theorem dotless_decodeFieldName (id : Nat) : Dotless (m.decodeFieldName id) :=
  .append (.append (by decide) (m.dotless_baseName id)) (by decide)

end Model

/-! ## Identifiers -/

theorem Names.isUtf8_of_isIdentifier {t : Text} (h : isIdentifier t = true) : t.isUtf8 = true := by
  rw [isIdentifier, Bool.and_eq_true] at h
  have hall : ∀ c ∈ Text.chars t, continuesIdentifier c = true := by
    have hmatch := h.2
    split at hmatch
    next => cases hmatch
    next c rest hchars =>
      rw [Bool.and_eq_true, List.all_eq_true] at hmatch
      rw [hchars]
      refine List.forall_mem_cons.mpr ⟨?_, hmatch.2⟩
      rw [continuesIdentifier, ← startsIdentifier, hmatch.1, Bool.true_or]
  have hreplacement : continuesIdentifier '�' = false := by decide +kernel
  rw [Text.isUtf8, List.all_eq_true]
  intro p hp
  cases p with
  | char c => rfl
  | stray b =>
    have hstray := hall _ (List.mem_map_of_mem hp)
    rw [Piece.toChar, hreplacement] at hstray
    cases hstray

theorem Class.isIdentifier_of_parse {t package serializer : Text}
    (h : Class.parse t = .ok (package, serializer)) : Names.isIdentifier serializer = true := by
  unfold Class.parse at h
  dsimp only at h
  split at h
  · cases h
  · cases h
  · cases h
  split at h
  · cases h
  split at h
  · cases h
  rename_i hname
  cases h
  simpa using hname

/-! ## Names of members -/

namespace Text

/-- May the byte stand in an identifier? -/
def inName (b : UInt8) : Bool := isDigit b || isAlpha b || b == 0x5F || 0x80 ≤ b

theorem inName_of_mem_utf8 {c : Char} {b : UInt8} (hb : b ∈ String.utf8EncodeChar c)
    (h : c.toNat < 0x80 → inName (UInt8.ofNat c.toNat) = true) : inName b = true := by
  by_cases hlow : b.toNat < 0x80
  · have hnat := toNat_of_mem_utf8 hb hlow
    rw [← eq_ofNat_byte hnat.symm]
    exact h (hnat ▸ hlow)
  · have hhigh : 0x80 ≤ b := UInt8.le_iff_toNat_le.mpr (by simpa using hlow)
    simp [inName, hhigh]

theorem all_inName_ofChars {cs : List Char}
    (h : ∀ c ∈ cs, c.toNat < 0x80 → inName (UInt8.ofNat c.toNat) = true) :
    ∀ b ∈ ofChars cs, inName b = true := by
  intro b hb
  obtain ⟨c, hc, hmem⟩ := List.mem_flatMap.mp hb
  exact inName_of_mem_utf8 hmem (h c hc)

end Text

namespace Names

theorem inName_of_isLetter {c : Char} (h : (isLetter c || isDecimalDigit c) = true)
    (hlow : c.toNat < 0x80) : Text.inName (UInt8.ofNat c.toNat) = true := by
  have hall : ∀ n < 0x80, (letterRanges.contains n || digitRanges.contains n) = true →
      Text.inName (UInt8.ofNat n) = true := by decide +kernel
  exact hall _ hlow h

theorem inName_of_upperChar {c : Char} (h : (isLetter c || isDecimalDigit c) = true)
    (hlow : (upperChar c).toNat < 0x80) : Text.inName (UInt8.ofNat (upperChar c).toNat) = true := by
  have hcapital : ∀ n < 0x80, 0x41 ≤ n ∧ n ≤ 0x5A → Text.inName (UInt8.ofNat n) = true := by
    decide
  rcases upperChar_cases c with hc | hc | hc
  · rw [hc] at hlow ⊢
    exact inName_of_isLetter h hlow
  · exact hcapital _ hlow hc
  · omega

theorem inName_capitalised (start : Bool) (cs : List Char) : ∀ c ∈ capitalised start cs,
    c.toNat < 0x80 → Text.inName (UInt8.ofNat c.toNat) = true := by
  induction cs generalizing start with
  | nil => simp [capitalised]
  | cons d rest ih =>
    rw [capitalised]
    split
    next hletter =>
      refine List.forall_mem_cons.mpr ⟨?_, ih false⟩
      cases start with
      | true => exact inName_of_upperChar hletter
      | false => exact inName_of_isLetter hletter
    next => exact ih true

theorem all_inName_exported (t : Text) : ∀ b ∈ exported t, Text.inName b = true := by
  have hall := Text.all_inName_ofChars (inName_capitalised true (Text.chars t))
  unfold exported
  split
  next => decide +kernel
  next b rest heq =>
    rw [heq] at hall
    split
    · exact List.forall_mem_cons.mpr ⟨by decide, hall⟩
    · exact hall

theorem dotless_exported (t : Text) : (exported t).Dotless := by
  intro hdot
  exact absurd (all_inName_exported t _ hdot) (by decide)

end Names

/-! ## Identifiers of array codecs -/

namespace Resolve

open Text (Dotless)

theorem dotless_codecCandidate {base : Text} (h : base.Dotless) (n : Nat) :
    Dotless (codecCandidate base n) := by
  cases n with
  | zero => exact h
  | succ n =>
    refine h.append fun hdot => ?_
    exact absurd ((Text.isDigits_ofNat (n + 2)).2 _ hdot) (by decide)

theorem Draft.dotless_of_issues {d : Draft} {f : Field} {arrays : List ArrayCodec}
    (h : d.Issues f arrays) (hd : ∀ c ∈ d.arrays, c.id.Dotless) : ∀ c ∈ arrays, c.id.Dotless := by
  unfold Draft.Issues at h
  split at h
  · exact h ▸ hd
  · rw [h.2, Draft.arrayCodec]
    split
    · exact hd
    · refine List.forall_mem_append.mpr ⟨hd, List.forall_mem_singleton.mpr ?_⟩
      exact dotless_codecCandidate
        ((Names.dotless_lastSegment d.object.name).append (Names.dotless_exported f.name)) _

theorem Draft.dotless_of_steps {d d' : Draft} (h : Draft.Steps d d')
    (hd : ∀ c ∈ d.arrays, c.id.Dotless) : ∀ c ∈ d'.arrays, c.id.Dotless := by
  induction h with
  | refl => exact hd
  | tail _ hstep ih =>
    cases hstep with
    | base id => exact ih
    | slot hgains =>
      cases hgains with
      | field _ hissues => exact dotless_of_issues hissues ih
      | wildcard => exact ih

end Resolve

theorem Model.dotless_arrays {ds : List Schema.Declaration} {opt : ModelOptions} {m : Model}
    (h : resolve ds opt = .ok m) : ∀ c ∈ m.arrays, c.id.Dotless := by
  obtain ⟨-, os, cs, hobjects, rfl⟩ := resolve_eq_ok_iff.mp h
  have hloop := Resolve.objects_induct
    (P := fun os cs => Resolve.Arena ds os ∧ ∀ c ∈ cs, c.id.Dotless) rfl hobjects
    ⟨fun i o hi => by simp at hi, by simp⟩
    fun hP hdecl hd => ⟨hP.1.snoc hdecl hd,
      Resolve.Draft.dotless_of_steps (Resolve.gathers_of_object hP.1.keyed hd).2 hP.2⟩
  exact hloop.1.2

end WireSchema
