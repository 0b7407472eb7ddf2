import Mathlib.Data.List.Find
import WireSchema.Model.Class
import WireSchema.Proofs.Model.Names
import WireSchema.Proofs.Text.Cutting
import WireSchema.Proofs.Text.Utf8
import WireSchema.Schema.Parser

/-!
# Reading with every access checked

The functions here work by position: they look for an index and cut the text there. A slice that
leaves its text, an index past the end and the first character of a name without any stop the
computation for good, which is `none`, unlike an error, which is an answer. None of this happens:
each function gives what its counterpart in the library gives, on all inputs.
-/

namespace WireSchema

/-- A computation that is either stopped by an access out of range, or gives a value or an error. -/
abbrev Checked (ε α : Type) : Type := ExceptT ε Option α

namespace Checked

variable {ε α β : Type}

/-! ## Computations that are not stopped -/

/-- The computation that is not stopped and has the given outcome. -/
def safe (x : Except ε α) : Checked ε α := ExceptT.mk (some x)

@[simp]
theorem safe_ok (a : α) : (safe (.ok a) : Checked ε α) = pure a := rfl

@[simp]
theorem safe_error (e : ε) : (safe (.error e) : Checked ε α) = throw e := rfl

@[simp]
theorem lift_some (a : α) : (liftM (some a) : Checked ε α) = pure a := rfl

theorem safe_bind {x : Except ε α} {f : α → Checked ε β} {g : α → Except ε β}
    (h : ∀ a, x = .ok a → f a = safe (g a)) : safe x >>= f = safe (x >>= g) := by
  cases x with
  | error e => rfl
  | ok a => exact h a rfl

/-- The entry of a list at a position, which must be in range. -/
def fetch (l : List α) (i : Nat) : Checked ε α := ExceptT.lift l[i]?

theorem fetch_eq {l : List α} {i : Nat} {a : α} (h : l[i]? = some a) :
    (fetch l i : Checked ε α) = pure a := by
  rw [fetch, h]
  rfl

/-! ## Slices and positions -/

/-- The bytes from position `i` up to position `j`. -/
def slice? (t : Text) (i j : Nat) : Option Text :=
  if i ≤ j ∧ j ≤ t.length then some ((t.take j).drop i) else none

/-- The first position at which `mark` occurs. -/
def index? (t mark : Text) : Option Nat :=
  (List.range (t.length + 1)).find? fun i => mark.isPrefixOf (t.drop i)

/-- The last position of a byte of the given kind. -/
def lastIndex? (p : UInt8 → Bool) (t : Text) : Option Nat :=
  (List.range t.length).reverse.find? fun i => t[i]?.any p

theorem slice?_append (t u v : Text) :
    slice? (t ++ u ++ v) t.length (t.length + u.length) = some u := by
  rw [slice?, if_pos (by simp), ← List.length_append, List.take_left, List.drop_left]

theorem slice?_take (t u : Text) : slice? (t ++ u) 0 t.length = some t := by
  simpa using slice?_append [] t u

theorem slice?_after (t : Text) (b : UInt8) (u : Text) :
    slice? (t ++ b :: u) (t.length + 1) (t ++ b :: u).length = some u := by
  simpa [Nat.add_assoc, Nat.add_comm 1] using slice?_append (t ++ [b]) u []

-- half a pair of brackets has no inside
example : slice? "[" 1 0 = none := rfl

theorem append_of_cut? {t mark before after : Text} (h : Text.cut? t mark = some (before, after)) :
    ∃ rest, t = before ++ rest := by
  induction t generalizing before with
  | nil =>
    rw [Text.cut?, Text.cutLoop] at h
    split at h
    · cases h
      exact ⟨[], rfl⟩
    · cases h
  | cons b t ih =>
    rw [Text.cut?_cons] at h
    split at h
    · cases h
      exact ⟨b :: t, rfl⟩
    · obtain ⟨p, hcut, hp⟩ := Option.map_eq_some_iff.mp h
      cases hp
      obtain ⟨rest, rfl⟩ := ih hcut
      exact ⟨rest, rfl⟩

theorem index?_eq (t mark : Text) : index? t mark = (Text.cut? t mark).map (·.1.length) := by
  induction t with
  | nil => cases mark <;> rfl
  | cons b t ih =>
    rw [Text.cut?_cons, index?, List.length_cons, List.range_succ_eq_map, List.find?_cons,
      List.drop_zero]
    cases mark.isPrefixOf (b :: t) with
    | true => rfl
    | false =>
      have hrest : ((List.range (t.length + 1)).map Nat.succ).find?
          (fun i => mark.isPrefixOf ((b :: t).drop i)) = (index? t mark).map Nat.succ :=
        List.find?_map ..
      simp [hrest, ih, Function.comp_def]

theorem lastIndex?_concat (p : UInt8 → Bool) (t : Text) (b : UInt8) :
    lastIndex? p (t ++ [b]) = if p b then some t.length else lastIndex? p t := by
  have hrest : (List.range t.length).reverse.find? (fun i => (t ++ [b])[i]?.any p) =
      lastIndex? p t := by
    refine List.find?_congr fun i hi => ?_
    rw [List.getElem?_append_left (by simpa using hi)]
  rw [lastIndex?, List.length_append, List.length_singleton, List.range_succ, List.reverse_append,
    List.reverse_singleton, List.singleton_append, List.find?_cons, hrest]
  simp only [List.getElem?_concat_length, Option.any_some]
  cases p b <;> rfl

/-- The text after the last byte of the given kind. -/
def afterLast (p : UInt8 → Bool) (t : Text) : Option Text :=
  match lastIndex? p t with
  | some i => slice? t (i + 1) t.length
  | none => some t

/-- A text as it stands around the last byte of the given kind. -/
theorem lastIndex?_cases (p : UInt8 → Bool) (t : Text) :
    (∃ before b last, t = before ++ b :: last ∧ p b = true ∧ (∀ c ∈ last, p c = false) ∧
      lastIndex? p t = some before.length) ∨ (∀ c ∈ t, p c = false) ∧ lastIndex? p t = none := by
  induction t using List.reverseRecOn with
  | nil => exact .inr ⟨by simp, rfl⟩
  | append_singleton t b ih =>
    rw [lastIndex?_concat]
    cases hb : p b with
    | true => exact .inl ⟨t, b, [], rfl, hb, by simp, rfl⟩
    | false =>
      rcases ih with ⟨before, c, last, rfl, hc, hlast, hindex⟩ | ⟨hnone, hindex⟩
      · refine .inl ⟨before, c, last ++ [b], by simp, hc, ?_, by simpa using hindex⟩
        simpa [or_imp, forall_and, hb] using hlast
      · refine .inr ⟨?_, by simpa using hindex⟩
        simpa [or_imp, forall_and, hb] using hnone

theorem takeWhile_reverse_append {p : UInt8 → Bool} {before last : Text} {b : UInt8}
    (hb : p b = true) (hlast : ∀ c ∈ last, p c = false) :
    ((before ++ b :: last).reverse.takeWhile (!p ·)).reverse = last := by
  have hrest : (last.reverse ++ b :: before.reverse).takeWhile (!p ·) = last.reverse := by
    rw [List.takeWhile_append_of_pos (by simpa using hlast)]
    simp [hb]
  rw [List.reverse_append, List.reverse_cons, List.append_assoc, List.singleton_append, hrest,
    List.reverse_reverse]

theorem afterLast_eq (p : UInt8 → Bool) (t : Text) :
    afterLast p t = some (t.reverse.takeWhile (!p ·)).reverse := by
  unfold afterLast
  rcases lastIndex?_cases p t with ⟨before, b, last, rfl, hb, hlast, hindex⟩ | ⟨hnone, hindex⟩
  · rw [hindex, takeWhile_reverse_append hb hlast]
    exact slice?_after before b last
  · have hall : t.reverse.takeWhile (!p ·) = t.reverse :=
      List.takeWhile_eq_self_iff.mpr (by simpa using hnone)
    rw [hindex, hall, List.reverse_reverse]

/-! ## Names -/

/-- The part of a dotted name after the last dot. -/
def lastSegment (t : Text) : Option Text := afterLast (· == 0x2E) t

/-- The name with its first character changed, which it must have. -/
def changeFirst (f : Char → Char) (t : Text) : Option Text := do
  let c ← (Text.chars t)[0]?
  pure (Text.ofChars ((Text.chars t).set 0 (f c)))

/-- The name with a small first letter. -/
def unexported (t : Text) : Option Text := if t.isEmpty then some t else changeFirst lowerChar t

/-- The exported identifier for a name of a schema. -/
def exported (t : Text) : Option Text := do
  let out := Text.ofChars (Names.capitalised true (Text.chars t))
  if out.isEmpty then pure "X"
  else
    let b ← out[0]?
    pure (if Text.isDigit b then "X" ++ out else out)

theorem not_mem_of_forall_beq {t : Text} {b : UInt8} (h : ∀ c ∈ t, (c == b) = false) : b ∉ t :=
  fun hb => by simpa using h b hb

theorem lastSegment_eq (t : Text) : lastSegment t = some (Names.lastSegment t) := by
  rw [lastSegment, afterLast, Names.lastSegment]
  rcases lastIndex?_cases (· == 0x2E) t with
    ⟨before, b, last, rfl, hb, hlast, hindex⟩ | ⟨hnone, hindex⟩
  · obtain rfl : b = 0x2E := by simpa using hb
    rw [hindex, Text.cutLast?_append (not_mem_of_forall_beq hlast)]
    exact slice?_after before 0x2E last
  · rw [hindex, Text.cutLast?_eq_none (not_mem_of_forall_beq hnone)]

theorem chars_eq_nil_iff {t : Text} : Text.chars t = [] ↔ t = [] := by
  rw [Text.chars, List.map_eq_nil_iff]
  constructor
  · intro hpieces
    rw [← Text.flatMap_bytes_pieces t, hpieces]
    rfl
  · rintro rfl
    exact Text.pieces_ofChars []

theorem changeFirst_eq {t : Text} {c : Char} {rest : List Char} (h : Text.chars t = c :: rest)
    (f : Char → Char) : changeFirst f t = some (Text.ofChars (f c :: rest)) := by
  rw [changeFirst, h]
  rfl

theorem unexported_eq (t : Text) : unexported t = some (Names.unexported t) := by
  rw [unexported, Names.unexported]
  cases hchars : Text.chars t with
  | nil =>
    obtain rfl := chars_eq_nil_iff.mp hchars
    rfl
  | cons c rest =>
    have hne : t ≠ [] := fun h => by simp [chars_eq_nil_iff.mpr h] at hchars
    rw [changeFirst_eq hchars, if_neg (by simpa using hne)]

theorem exported_eq (t : Text) : exported t = some (Names.exported t) := by
  unfold exported Names.exported
  cases Text.ofChars (Names.capitalised true (Text.chars t)) with
  | nil => rfl
  | cons b rest =>
    cases hb : Text.isDigit b with
    | true =>
      simp [hb]
      rfl
    | false => simp [hb]

/-! ## Classes -/

def classOf (t : Text) : Checked Failure (Text × Text) :=
  let refuse (message : Text) : Checked Failure (Text × Text) := throw (.plain message)
  let malformed := refuse ("class " ++ Text.quoted t ++ " must be of the form package.Serializer")
  match lastIndex? (· == 0x2E) t with
  | none => malformed
  | some i =>
    if i = 0 ∨ i = t.length - 1 then malformed
    else do
      let path ← slice? t 0 i
      let name ← slice? t (i + 1) t.length
      let package := Names.lowered (← afterLast (fun b => b == 0x2E || b == 0x2F) path)
      if !Names.isIdentifier package then
        refuse ("class " ++ Text.quoted t ++ ": " ++ Text.quoted package
          ++ " is not a valid package name")
      else if !Names.isIdentifier name then
        refuse ("class " ++ Text.quoted t ++ ": " ++ Text.quoted name
          ++ " is not a valid type name")
      else pure (package, name)

theorem classOf_eq (t : Text) : classOf t = safe (Class.parse t) := by
  unfold classOf Class.parse
  rcases lastIndex?_cases (· == 0x2E) t with
    ⟨before, b, last, rfl, hb, hlast, hindex⟩ | ⟨hnone, hindex⟩
  · obtain rfl : b = 0x2E := by simpa using hb
    rw [hindex, Text.cutLast?_append (not_mem_of_forall_beq hlast)]
    cases before with
    | nil => simp
    | cons c before =>
      cases last with
      | nil => simp
      | cons c' last =>
        have hmarks : (fun b : UInt8 => !(b == 0x2E || b == 0x2F)) =
            fun b => b != 0x2E && b != 0x2F := funext fun b => Bool.not_or ..
        simp only [slice?_take, slice?_after, afterLast_eq, lift_some, pure_bind, hmarks]
        rw [if_neg (by simp)]
        simp only [apply_ite safe, safe_ok, safe_error]
  · rw [hindex, Text.cutLast?_eq_none (not_mem_of_forall_beq hnone)]
    rfl

/-! ## Lines -/

/-- The text of a line before any comment, without blanks around it. -/
def uncommented (raw : Text) : Option Text := do
  let text ← match index? raw "//" with
    | some i => slice? raw 0 i
    | none => pure raw
  pure (Text.trim text)

def lineOf (raw : Text) : Option Schema.Line := do
  let text ← uncommented raw
  if text.isEmpty then pure .blank
  else if text.head? == some 0x2D then
    return .property (Text.trim (← slice? text 1 text.length))
  else if text.head? == some 0x3A then
    return .object true (Text.trim (← slice? text 1 text.length))
  else pure (.object false text)

theorem uncommented_eq (raw : Text) : uncommented raw = some (Schema.uncommented raw) := by
  unfold uncommented Schema.uncommented
  rw [index?_eq]
  cases hcut : Text.cut? raw "//" with
  | none => rfl
  | some p =>
    obtain ⟨before, after⟩ := p
    obtain ⟨rest, rfl⟩ := append_of_cut? hcut
    simp [slice?_take]

theorem lineOf_eq (raw : Text) : lineOf raw = some (Schema.Line.ofText raw) := by
  rw [lineOf, uncommented_eq, Schema.Line.ofText]
  cases Schema.uncommented raw with
  | nil => rfl
  | cons b body =>
    have hbody : slice? (b :: body) 1 (b :: body).length = some body :=
      slice?_after [] b body
    simp only [Option.bind_eq_bind, Option.bind_some, List.isEmpty_cons, List.head?_cons, hbody]
    by_cases hdash : b = 0x2D
    · subst hdash
      rfl
    by_cases hcolon : b = 0x3A
    · subst hcolon
      rfl
    · simp [hdash, hcolon]

/-! ## Properties -/

/-- Splits at the first colon outside double quotes, from position `i` on. -/
def splitAtColon (t : Text) (quoted : Bool) (i : Nat) : Option (Option (Text × Text)) :=
  if i < t.length then do
    let b ← t[i]?
    if b == 0x3A && !quoted then return some (← slice? t 0 i, ← slice? t (i + 1) t.length)
    else splitAtColon t (if b == 0x22 then !quoted else quoted) (i + 1)
  else pure none
termination_by t.length - i

/-- Does the text have `left` as its first and `right` as its last byte? -/
def enclosed (left right : UInt8) (t : Text) : Option Bool := do
  if t.length < 2 then pure false
  else if (← t[0]?) == left then return (← t[t.length - 1]?) == right
  else pure false

/-- The text between a first byte `left` and a last byte `right`. -/
def unenclosed (left right : UInt8) (t : Text) : Option (Option Text) := do
  if ← enclosed left right t then return some (← slice? t 1 (t.length - 1)) else pure none

theorem splitAtColon_eq (seen rest : Text) (quoted : Bool) :
    splitAtColon (seen.reverse ++ rest) quoted seen.length =
      some (Schema.splitAtColon quoted seen rest) := by
  induction rest generalizing seen quoted with
  | nil =>
    unfold splitAtColon
    simp [Schema.splitAtColon]
  | cons b rest ih =>
    have hat : (seen.reverse ++ b :: rest)[seen.length]? = some b := by simp
    have hleft : slice? (seen.reverse ++ b :: rest) 0 seen.length = some seen.reverse := by
      simpa using slice?_take seen.reverse (b :: rest)
    have hright := slice?_after seen.reverse b rest
    rw [List.length_reverse] at hright
    have hnext := ih (b :: seen) (if b == 0x22 then !quoted else quoted)
    rw [List.reverse_cons, List.append_assoc, List.singleton_append] at hnext
    rw [splitAtColon, if_pos (by simp), hat, Schema.splitAtColon]
    simp only [Option.bind_eq_bind, Option.bind_some, hleft, hright]
    split
    · rfl
    · exact hnext

theorem unenclosed_eq (left right : UInt8) (t : Text) :
    unenclosed left right t = some (Schema.unenclosed? left right t) := by
  unfold unenclosed enclosed
  cases t with
  | nil => rfl
  | cons b rest =>
    rcases List.eq_nil_or_concat rest with rfl | ⟨inner, last, rfl⟩
    · simp [Schema.unenclosed?]
    · have hinner : slice? (b :: (inner ++ [last])) 1 (inner.length + 1) = some inner := by
        simpa [Nat.add_comm] using slice?_append [b] inner [last]
      have hlength : ¬inner.length + 1 + 1 < 2 := by omega
      by_cases hleft : b = left
      · by_cases hright : last = right
        · subst hleft hright
          simp [Schema.unenclosed?, hinner, hlength]
        · simp [Schema.unenclosed?, hleft, hright, hlength]
      · simp [Schema.unenclosed?, hleft]

/-- Takes off one pair of brackets, if there is any; half a pair is a fault. -/
def unbracket (left right : UInt8) (fault : Schema.Fault) (t : Text) :
    Checked Schema.Fault (Bool × Text) := do
  if t.head? == some left || t.getLast? == some right then
    match ← unenclosed left right t with
    | some inner => pure (true, Text.trim inner)
    | none => throw fault
  else pure (false, t)

/-- The key and the name before the colon of a property. -/
def keyAndName (t : Text) : Checked Schema.Fault (Text × Text) := do
  let (key, name) ← match Text.cut? t "=>" with
    | none => pure (t, [])
    | some (key, name) =>
      let name := Text.trim name
      if name.isEmpty then throw .missingFieldName else pure (Text.trim key, name)
  let key := Text.trim key
  let key := (← unenclosed 0x22 0x22 key).getD key
  if key.isEmpty then throw .missingKey
  else pure (key, if name.isEmpty then key else name)

def property (line : Nat) (body : Text) : Checked Schema.Fault Schema.Property := do
  match ← splitAtColon body false 0 with
  | none => throw .noPropertyType
  | some (left, type) =>
    let (isArray, type) ← unbracket 0x5B 0x5D .arrayBrackets (Text.trim type)
    let (isDictionary, type) ← unbracket 0x7B 0x7D .dictionaryBraces type
    if type.isEmpty then throw .missingType
    else
      let (key, name) ← keyAndName (Text.trim left)
      pure { key, name, type, isArray, isDictionary, line }

theorem unbracket_eq (left right : UInt8) (fault : Schema.Fault) (t : Text) :
    unbracket left right fault t = safe (Schema.unbracket left right fault t) := by
  unfold unbracket Schema.unbracket
  rw [unenclosed_eq, lift_some, pure_bind]
  split
  · cases Schema.unenclosed? left right t <;> rfl
  · rfl

theorem keyAndName_eq (t : Text) : keyAndName t = safe (Schema.keyAndName t) := by
  unfold keyAndName Schema.keyAndName
  simp only [unenclosed_eq, lift_some, pure_bind]
  cases Text.cut? t "=>" with
  | none => exact (apply_ite safe ..).symm
  | some p =>
    simp only
    split
    · rfl
    · exact (apply_ite safe ..).symm

theorem property_eq (line : Nat) (body : Text) :
    property line body = safe (Schema.Property.parse line body) := by
  have hsplit : splitAtColon body false 0 = some (Schema.splitAtColon false [] body) :=
    splitAtColon_eq [] body false
  unfold property Schema.Property.parse
  rw [hsplit, lift_some, pure_bind]
  cases Schema.splitAtColon false [] body with
  | none => rfl
  | some p =>
    simp only [unbracket_eq, keyAndName_eq]
    refine safe_bind fun array _ => safe_bind fun dictionary _ => ?_
    split
    · rfl
    · exact safe_bind fun _ _ => rfl

/-! ## The whole text -/

def step (p : Schema.Progress) (line : Nat) (raw : Text) :
    Checked Schema.Fault Schema.Progress := do
  match ← lineOf raw with
  | .blank => pure p
  | .property body =>
    match p.current with
    | none => throw .propertyBeforeObject
    | some d =>
      let property ← property line body
      pure { p with current := some { d with properties := d.properties ++ [property] } }
  | .object isInterface body =>
    let d ← safe (Schema.Declaration.parse line isInterface body)
    pure { finished := p.close, current := some d }

/-- Takes in the lines from number `n` on. -/
def parseLines : Schema.Progress → Nat → List Text → Checked Failure (List Schema.Declaration)
  | p, _, [] => pure p.close.reverse
  | p, n, raw :: rest =>
    if Schema.lineLimit ≤ raw.length then throw (.plain "bufio.Scanner: token too long")
    else do
      let line := Schema.chomp raw
      match ← (step p n line).run with
      | .error fault => throw (.schemaSyntax n line fault.message)
      | .ok p => parseLines p (n + 1) rest

def parse (t : Text) : Checked Failure (List Schema.Declaration) :=
  parseLines {} 1 (Schema.lines t)

theorem step_eq (p : Schema.Progress) (line : Nat) (raw : Text) :
    step p line raw = safe (p.step line raw) := by
  unfold step Schema.Progress.step
  rw [lineOf_eq, lift_some, pure_bind]
  cases Schema.Line.ofText raw with
  | blank => rfl
  | property body =>
    cases p.current with
    | none => rfl
    | some d =>
      simp only [property_eq]
      exact safe_bind fun _ _ => rfl
  | object isInterface body => exact safe_bind fun _ _ => rfl

theorem parseLines_eq (p : Schema.Progress) (n : Nat) (raws : List Text) :
    parseLines p n raws = safe (Schema.parseLines p n raws) := by
  induction raws generalizing p n with
  | nil => rfl
  | cons raw raws ih =>
    unfold parseLines Schema.parseLines
    simp only [step_eq]
    split
    · rfl
    · cases p.step n (Schema.chomp raw) with
      | error fault => rfl
      | ok p => exact ih p (n + 1)

theorem parse_eq (t : Text) : parse t = safe (Schema.parse t) := parseLines_eq {} 1 (Schema.lines t)

end Checked

end WireSchema
