import WireSchema.Proofs.Json.Grammar
import WireSchema.Proofs.Text.Utf8
import WireSchema.Proofs.Token.Emission

/-!
# The lenient reader reads JSON

Every text that spells a document is read as the tokens of the document, whatever comes after it. A
number goes on for as long as its bytes may belong to one, so what comes after a number must not.
-/

namespace WireSchema.Json

theorem digits_of_spelled {s x : Text} (h : SpellsString s (0x5C :: 0x75 :: x)) :
    ∃ a b c d y, x = a :: b :: c :: d :: y ∧
      ∀ h ∈ [a, b, c, d], (Text.hexValue? h).isSome = true := by
  generalize hz : 0x5C :: 0x75 :: x = z at h
  cases h with
  | nil => cases hz
  | @plain _ _ c _ _ hs _ =>
    rcases Text.utf8_cases c with ⟨b, he, -, hn⟩ | ⟨b, tail, he, hb, -⟩
    · rw [utf8, he] at hz
      obtain rfl : 0x5C = b := (List.cons.inj hz).1
      exact absurd (Char.toNat_inj.mp hn.symm) hs
    · rw [utf8, he] at hz
      obtain rfl : 0x5C = b := (List.cons.inj hz).1
      exact absurd (by decide) hb
  | letter hb _ =>
    cases hz
    simp [escaped?] at hb
  | unit hx _ _ =>
    cases hz
    exact ⟨_, _, _, _, _, rfl, hx⟩
  | lone hx _ _ _ =>
    cases hz
    exact ⟨_, _, _, _, _, rfl, hx⟩
  | pair hx _ _ =>
    cases hz
    exact ⟨_, _, _, _, _, rfl, fun i hi => hx i (List.mem_append_left _ hi)⟩
  | stray hb _ _ =>
    cases hz
    exact absurd (by decide) hb

/-- Half of a pair stands alone, whatever comes after the string. -/
theorem pair?_of_spelled {s x : Text} (h : SpellsString s x) {high : Nat}
    (hlone : ∀ e f g h y, x = 0x5C :: 0x75 :: e :: f :: g :: h :: y →
      pair? high (unit e f g h) = none) {rest y : Text} {e f g i : UInt8}
    (hx : x ++ 0x22 :: rest = 0x5C :: 0x75 :: e :: f :: g :: i :: y) :
    pair? high (unit e f g i) = none := by
  rcases x with _ | ⟨b, _ | ⟨b', x⟩⟩
  · simp at hx
  · simp at hx
  · obtain ⟨rfl, rfl, hx⟩ : b = 0x5C ∧ b' = 0x75 ∧ x ++ 0x22 :: rest = e :: f :: g :: i :: y := by
      simpa using hx
    obtain ⟨a', b', c', d', y', rfl, -⟩ := digits_of_spelled h
    obtain ⟨rfl, rfl, rfl, rfl, -⟩ : a' = e ∧ b' = f ∧ c' = g ∧ d' = i ∧ _ := by
      simpa using hx
    exact hlone _ _ _ _ _ rfl

namespace Lenient

/-- Does the reader pass over the byte? -/
def isSkipped (b : UInt8) : Bool :=
  b == 0x20 || b == 0x09 || b == 0x0A || b == 0x0D || b == 0x2C || b == 0x3A

theorem scan_skipped {b : UInt8} (h : isSkipped b = true) (e : Bool) (x : Text) :
    scan e (b :: x) = scan e x := by
  simp only [isSkipped] at h
  rw [scan, if_pos h]

theorem scan_append {before : Text} (h : before.all isSkipped = true) (e : Bool) (x : Text) :
    scan e (before ++ x) = scan e x := by
  induction before with
  | nil => rfl
  | cons b before ih =>
    rw [List.all_cons, Bool.and_eq_true] at h
    rw [List.cons_append, scan_skipped h.1, ih h.2]

theorem all_skipped_of_blank {x : Text} (h : Blank x) : x.all isSkipped = true := by
  rw [List.all_eq_true]
  intro b hb
  rcases h b hb with rfl | rfl | rfl | rfl <;> rfl

/-! ## Strings -/

theorem scanString_quote (seen x : Text) :
    scanString seen (0x22 :: x) = (.ok seen.reverse, x, false) := by
  rw [scanString.eq_def]
  simp

theorem scanString_ascii {b : UInt8} (h0 : b ≠ 0) (hq : b ≠ 0x22) (hs : b ≠ 0x5C) (hb : b < 0x80)
    (seen x : Text) : scanString seen (b :: x) = scanString (b :: seen) x := by
  rw [scanString.eq_def]
  simp [h0, hq, hs, hb]

theorem scanString_multibyte {b : UInt8} (hb : ¬b < 0x80) {x after : Text} {c : Char}
    (hm : Text.multibyte? b x = some (c, after)) (seen : Text) :
    scanString seen (b :: x) = scanString ((utf8 c).reverse ++ seen) after := by
  have hne {d : UInt8} (hd : d < 0x80) : b ≠ d := by
    rintro rfl
    exact hb hd
  rw [scanString.eq_def]
  simp only [beq_iff_eq, hne (show 0 < 0x80 by decide), hne (show 0x22 < 0x80 by decide),
    hne (show 0x5C < 0x80 by decide), if_false, if_neg hb]
  split
  · rename_i h
    rw [hm] at h
    obtain ⟨rfl, rfl⟩ := Prod.mk.inj (Option.some.inj h)
    rfl
  · rename_i h
    simp [hm] at h

theorem scanString_stray {b : UInt8} (hb : ¬b < 0x80) {x : Text} (hm : Text.multibyte? b x = none)
    (seen : Text) : scanString seen (b :: x) = scanString ((utf8 '�').reverse ++ seen) x := by
  have hne {d : UInt8} (hd : d < 0x80) : b ≠ d := by
    rintro rfl
    exact hb hd
  rw [scanString.eq_def]
  simp only [beq_iff_eq, hne (show 0 < 0x80 by decide), hne (show 0x22 < 0x80 by decide),
    hne (show 0x5C < 0x80 by decide), if_false, if_neg hb]
  split
  · rename_i h
    simp [hm] at h
  · rfl

theorem scanString_letter {b value : UInt8} (h : escaped? b = some value) (seen x : Text) :
    scanString seen (0x5C :: b :: x) = scanString (value :: seen) x := by
  have hu : b ≠ 0x75 := by
    rintro rfl
    simp [escaped?] at h
  rw [scanString.eq_def]
  simp [hu, h]

theorem scanString_unit {x after : Text} {c : Char} (h : scanUnit? x = some (c, after))
    (seen : Text) :
    scanString seen (0x5C :: 0x75 :: x) = scanString ((utf8 c).reverse ++ seen) after := by
  rw [scanString.eq_def]
  simp only [show ((0x5C : UInt8) == 0) = false by decide,
    show ((0x5C : UInt8) == 0x22) = false by decide, BEq.rfl, Bool.false_eq_true, if_false, if_true]
  split
  · rename_i c' after' h'
    rw [h] at h'
    obtain ⟨rfl, rfl⟩ := Prod.mk.inj (Option.some.inj h')
    rfl
  · rename_i h'
    simp [h] at h'

theorem scanString_plain {c : Char} (h : 0x20 ≤ c.toNat) (hq : c ≠ '"') (hs : c ≠ '\\')
    (seen x : Text) : scanString seen (utf8 c ++ x) = scanString ((utf8 c).reverse ++ seen) x := by
  rcases Text.utf8_cases c with ⟨b, he, hb, hn⟩ | ⟨b, tail, he, hb, hm⟩
  · have hne {d : Char} (hd : c ≠ d) (h : d.toNat < 0x80) : b ≠ UInt8.ofNat d.toNat := by
      rintro rfl
      rw [Text.toNat_ofNat_byte (by omega)] at hn
      exact hd (Char.toNat_inj.mp hn.symm)
    have h0 : b ≠ 0 := by
      rintro rfl
      simp at hn
      omega
    rw [utf8, he]
    exact scanString_ascii h0 (hne hq (by decide)) (hne hs (by decide)) hb seen x
  · rw [utf8, he, List.cons_append, scanString_multibyte hb (hm x), utf8, he]

theorem scanUnit?_single {a b c d : UInt8} (h : isSurrogate (unit a b c d) = false) {x : Text}
    (hx : x ≠ []) : scanUnit? (a :: b :: c :: d :: x) = some (single (unit a b c d), x) := by
  have hp (low : Nat) : pair? (unit a b c d) low = none := by
    simp only [isSurrogate, Bool.and_eq_false_iff, decide_eq_false_iff_not] at h
    simp only [pair?, Bool.and_eq_true, decide_eq_true_eq]
    exact if_neg (by omega)
  simp only [scanUnit?, hp]
  rw [if_neg (by simpa using hx)]
  split <;> rfl

theorem scanUnit?_pair {a b c d e f g h : UInt8} {ch : Char}
    (hp : pair? (unit a b c d) (unit e f g h) = some ch) {x : Text} (hx : x ≠ []) :
    scanUnit? (a :: b :: c :: d :: 0x5C :: 0x75 :: e :: f :: g :: h :: x) = some (ch, x) := by
  simp [scanUnit?, hp, hx]

theorem scanUnit?_lone {a b c d : UInt8} {x : Text} (hx : x ≠ [])
    (h : ∀ e f g i y, x = 0x5C :: 0x75 :: e :: f :: g :: i :: y →
      pair? (unit a b c d) (unit e f g i) = none) :
    scanUnit? (a :: b :: c :: d :: x) = some (single (unit a b c d), x) := by
  simp only [scanUnit?]
  rw [if_neg (by simpa using hx)]
  split
  · rw [h _ _ _ _ _ rfl]
  · rfl

theorem scanString_spelled {s x : Text} (h : SpellsString s x) (seen rest : Text) :
    scanString seen (x ++ 0x22 :: rest) = (.ok (seen.reverse ++ s), rest, false) := by
  induction h generalizing seen with
  | nil => rw [List.nil_append, scanString_quote, List.append_nil]
  | plain h hq hs _ ih => rw [List.append_assoc, scanString_plain h hq hs, ih]; simp
  | letter h _ ih => rw [List.cons_append, List.cons_append, scanString_letter h, ih]; simp
  | unit _ h _ ih =>
    simp only [List.cons_append]
    rw [scanString_unit (scanUnit?_single h (by simp)), ih]
    simp
  | pair _ h _ ih =>
    simp only [List.cons_append]
    rw [scanString_unit (scanUnit?_pair h (by simp)), ih]
    simp
  | lone _ hs hlone h ih =>
    simp only [List.cons_append]
    rw [scanString_unit (scanUnit?_lone (by simp) fun _ _ _ _ _ => pair?_of_spelled h hlone), ih,
      single, if_pos hs]
    simp
  | stray hb h _ ih =>
    rw [List.cons_append, scanString_stray hb (Text.multibyte?_append_of_none h (by decide) rest), ih]
    simp

/-! ## Numbers -/

/-- The text goes on with nothing that could belong to a number before it. -/
def Ends (x : Text) : Prop := ∀ b ∈ x.head?, inNumber b = false

theorem takeWhile_of_ends {x : Text} (h : Ends x) :
    x.takeWhile inNumber = [] ∧ x.dropWhile inNumber = x := by
  cases x with
  | nil => exact ⟨rfl, rfl⟩
  | cons b x => simp [h b rfl]

theorem inNumber_of_isDigit {b : UInt8} (h : Text.isDigit b = true) : inNumber b = true := by
  simp [inNumber, h]

theorem inNumber_of_isDigits {x : Text} (h : IsDigits x) : ∀ b ∈ x, inNumber b = true :=
  fun b hb => inNumber_of_isDigit (h.2 b hb)

theorem inNumber_of_isFraction {x : Text} (h : IsFraction x) : ∀ b ∈ x, inNumber b = true := by
  rcases h with rfl | ⟨ds, rfl, hd⟩
  · simp
  · intro b hb
    rcases List.mem_cons.mp hb with rfl | hb
    · rfl
    · exact inNumber_of_isDigits hd b hb

theorem inNumber_of_isExponent {x : Text} (h : IsExponent x) : ∀ b ∈ x, inNumber b = true := by
  rcases h with rfl | ⟨mark, sign, ds, rfl, hm, hs, hd⟩
  · simp
  · intro b hb
    rcases List.mem_append.mp hb with hb | hb
    · rcases List.mem_cons.mp hb with rfl | hb
      · rcases hm with rfl | rfl <;> rfl
      · rcases hs with rfl | rfl | rfl
        · simp at hb
        · obtain rfl := List.mem_singleton.mp hb
          rfl
        · obtain rfl := List.mem_singleton.mp hb
          rfl
    · exact inNumber_of_isDigits hd b hb

/-- May a number begin with the byte? -/
def startsNumber (b : UInt8) : Bool := b == 0x2D || Text.isDigit b

theorem cons_of_isNumber {x : Text} (h : IsNumber x) :
    ∃ b ds, x = b :: ds ∧ startsNumber b = true ∧ ∀ d ∈ ds, inNumber d = true := by
  obtain ⟨sign, whole, fraction, exponent, rfl, hs, hw, -, hf, he⟩ := h
  have hwhole := inNumber_of_isDigits hw
  have hfraction := inNumber_of_isFraction hf
  have hexponent := inNumber_of_isExponent he
  rcases hs with rfl | rfl
  · obtain ⟨d, ds, rfl⟩ := List.exists_cons_of_ne_nil hw.1
    refine ⟨d, ds ++ fraction ++ exponent, by simp, by simp [startsNumber, hw.2 d], ?_⟩
    simp only [List.mem_append, List.mem_cons, forall_eq_or_imp] at hwhole ⊢
    rintro b ((hb | hb) | hb)
    exacts [hwhole.2 b hb, hfraction b hb, hexponent b hb]
  · refine ⟨0x2D, whole ++ fraction ++ exponent, by simp, rfl, ?_⟩
    simp only [List.mem_append]
    rintro b ((hb | hb) | hb)
    exacts [hwhole b hb, hfraction b hb, hexponent b hb]

theorem scan_number {x rest : Text} (h : IsNumber x) (hr : Ends rest) (e : Bool) :
    scan e (x ++ rest) = (.ok (.number x), rest, e) := by
  obtain ⟨b, ds, rfl, hb, hds⟩ := cons_of_isNumber h
  obtain ⟨htake, hdrop⟩ := takeWhile_of_ends hr
  have hne {c : UInt8} (hc : startsNumber c = false) : b ≠ c := by
    rintro rfl
    simp [hb] at hc
  have hskip : isSkipped b = false := by
    simp only [isSkipped, Bool.or_eq_false_iff, beq_eq_false_iff_ne]
    exact ⟨⟨⟨⟨⟨hne rfl, hne rfl⟩, hne rfl⟩, hne rfl⟩, hne rfl⟩, hne rfl⟩
  simp only [isSkipped] at hskip
  simp only [startsNumber] at hb
  rw [List.cons_append, scan, if_neg (by simp [hskip]), if_neg (by simpa using hne rfl),
    if_neg (by simpa using hne rfl), if_neg (by simpa using hne rfl),
    if_neg (by simpa using hne rfl), if_pos hb, List.takeWhile_append_of_pos hds,
    List.dropWhile_append_of_pos hds, htake, hdrop, List.append_nil]

/-! ## Tokens -/

theorem scan_string {s x : Text} (h : SpellsQuoted s x) (rest : Text) :
    scan false (x ++ rest) = (.ok (.string s), rest, false) := by
  obtain ⟨body, rfl, hs⟩ := h
  have := scanString_spelled hs [] rest
  simp only [List.reverse_nil, List.nil_append] at this
  simp [scan, Text.isDigit, this, Except.map]

theorem scan_null (rest : Text) :
    scan false (Text.ofString "null" ++ rest) = (.ok .null, rest, false) := rfl

theorem scan_bool (b : Bool) (rest : Text) :
    scan false (Text.ofBool b ++ rest) = (.ok (.bool b), rest, false) := by
  cases b <;> rfl

/-- The reader at a text, with the containers that are open there. -/
def standing (x : Text) (n : Nesting) : Source := .lenient ⟨x, false, n⟩

theorem emits_scan {x rest : Text} {e e' : Bool} {token : Token}
    (h : scan e x = (.ok token, rest, e')) (n : Nesting) :
    (Source.lenient ⟨x, e, n⟩).Emits [(n.take token).2] (.lenient ⟨rest, e', (n.take token).1⟩) := by
  have hn : (Source.lenient ⟨x, e, n⟩).next =
      (.ok ⟨(n.take token).2, -1⟩, .lenient ⟨rest, e', (n.take token).1⟩) := by
    simp [Source.next, Lenient.next, h]
  exact .cons hn (.nil _)

/-- A value may come next, and no key. -/
def AwaitsValue (n : Nesting) : Prop := n.head? ≠ some (.object true)

theorem take_of_awaitsValue {n : Nesting} (h : AwaitsValue n) (s : Text) :
    n.take (.string s) = (n.valueDone, .string s) := by
  rcases n with _ | ⟨_ | _ | _, n⟩
  case cons.object.true => exact absurd rfl h
  all_goals rfl

theorem ends_append {blank : Text} (h : Blank blank) {b : UInt8} (hb : inNumber b = false)
    (x : Text) : Ends (blank ++ b :: x) := by
  cases blank with
  | nil =>
    rintro _ ⟨⟩
    exact hb
  | cons c blank =>
    rintro _ ⟨⟩
    rcases h c (by simp) with rfl | rfl | rfl | rfl <;> rfl

/-! ## Documents -/

section Documents

variable {x rest : Text} {n : Nesting}

/-- The text of a value, after bytes that are passed over, is read as its tokens. -/
def ReadsTree (t : Tree) : Prop :=
  ∀ {before x rest : Text} {n : Nesting}, before.all isSkipped = true → t.Spells x → AwaitsValue n →
    Ends rest → (standing (before ++ (x ++ rest)) n).Emits t.tokens (standing rest n.valueDone)

/-- Further elements up to the closing bracket are read as their tokens. -/
def ReadsMoreItems (items : List Tree) : Prop :=
  ∀ {x rest : Text} {n : Nesting}, Tree.SpellsMoreItems items x →
    (standing (x ++ 0x5D :: rest) (.array :: n)).Emits (Tree.itemTokens items ++ [.endArray])
      (standing rest n.valueDone)

/-- Further members up to the closing brace are read as their tokens. -/
def ReadsMoreMembers (members : List (Text × Tree)) : Prop :=
  ∀ {x rest : Text} {n : Nesting}, Tree.SpellsMoreMembers members x →
    (standing (x ++ 0x7D :: rest) (.object true :: n)).Emits
      (Tree.memberTokens members ++ [.endObject]) (standing rest n.valueDone)

theorem ends_moreItems {items : List Tree} (h : Tree.SpellsMoreItems items x) :
    Ends (x ++ 0x5D :: rest) := by
  cases items with
  | nil => exact ends_append h rfl _
  | cons t items =>
    obtain ⟨blank, before, y, after, rfl, hb, -⟩ := h
    rw [List.append_assoc, List.cons_append]
    exact ends_append hb rfl _

theorem ends_moreMembers {members : List (Text × Tree)} (h : Tree.SpellsMoreMembers members x) :
    Ends (x ++ 0x7D :: rest) := by
  cases members with
  | nil => exact ends_append h rfl _
  | cons m members =>
    obtain ⟨blank, before, key, gap, after, y, more, rfl, hb, -⟩ := h
    rw [List.append_assoc, List.cons_append]
    exact ends_append hb rfl _

theorem emits_endArray (h : x.all isSkipped = true) :
    (standing (x ++ 0x5D :: rest) (.array :: n)).Emits [.endArray] (standing rest n.valueDone) := by
  have hs : scan false (x ++ 0x5D :: rest) = (.ok .endArray, rest, false) := scan_append h _ _
  exact emits_scan hs _

theorem emits_endObject (h : x.all isSkipped = true) :
    (standing (x ++ 0x7D :: rest) (.object true :: n)).Emits [.endObject]
      (standing rest n.valueDone) := by
  have hs : scan false (x ++ 0x7D :: rest) = (.ok .endObject, rest, false) := scan_append h _ _
  exact emits_scan hs _

theorem emits_item {t : Tree} {items : List Tree} {before y after : Text} (ht : ReadsTree t)
    (hi : ReadsMoreItems items) (hb : before.all isSkipped = true) (hy : t.Spells y)
    (ha : Tree.SpellsMoreItems items after) :
    (standing (before ++ (y ++ after) ++ 0x5D :: rest) (.array :: n)).Emits
      (Tree.itemTokens (t :: items) ++ [.endArray]) (standing rest n.valueDone) := by
  have htree : (standing (before ++ (y ++ (after ++ 0x5D :: rest))) (.array :: n)).Emits t.tokens
      (standing (after ++ 0x5D :: rest) (.array :: n)) :=
    ht hb hy (by simp [AwaitsValue]) (ends_moreItems ha)
  simpa [Tree.itemTokens, Tree.tokens] using htree.append (hi ha)

theorem emits_member {name : Text} {t : Tree} {members : List (Text × Tree)}
    {before key gap after y more : Text} (ht : ReadsTree t) (hm : ReadsMoreMembers members)
    (hb : before.all isSkipped = true) (hk : SpellsQuoted name key) (hg : Blank gap)
    (ha : Blank after) (hy : t.Spells y) (hmore : Tree.SpellsMoreMembers members more) :
    (standing (before ++ (key ++ (gap ++ 0x3A :: (after ++ (y ++ more)))) ++ 0x7D :: rest)
        (.object true :: n)).Emits
      (Tree.memberTokens ((name, t) :: members) ++ [.endObject]) (standing rest n.valueDone) := by
  have hkey : (standing (before ++ (key ++ ((gap ++ 0x3A :: after) ++ (y ++ (more ++ 0x7D :: rest)))))
      (.object true :: n)).Emits [.key name]
      (standing ((gap ++ 0x3A :: after) ++ (y ++ (more ++ 0x7D :: rest))) (.object false :: n)) :=
    emits_scan ((scan_append hb false _).trans (scan_string hk _)) (.object true :: n)
  have hgap : (gap ++ 0x3A :: after).all isSkipped = true := by
    rw [List.all_append, List.all_cons, all_skipped_of_blank hg, all_skipped_of_blank ha]
    rfl
  have htree : (standing ((gap ++ 0x3A :: after) ++ (y ++ (more ++ 0x7D :: rest)))
      (.object false :: n)).Emits t.tokens (standing (more ++ 0x7D :: rest) (.object true :: n)) :=
    ht hgap hy (by simp [AwaitsValue]) (ends_moreMembers hmore)
  simpa [Tree.memberTokens, Tree.tokens] using hkey.append (htree.append (hm hmore))

theorem readsTree_array {items : List Tree}
    (h : ∀ t rest, items = t :: rest → ReadsTree t ∧ ReadsMoreItems rest) :
    ReadsTree (.array items) := by
  rintro before _ rest n hb ⟨body, rfl, hbody⟩ - -
  have hopen : (standing (before ++ (0x5B :: (body ++ [0x5D]) ++ rest)) n).Emits [.beginArray]
      (standing (body ++ 0x5D :: rest) (.array :: n)) := by
    rw [List.cons_append, List.append_assoc]
    have hs : scan false (before ++ 0x5B :: (body ++ ([0x5D] ++ rest))) =
        (.ok .beginArray, body ++ 0x5D :: rest, false) := scan_append hb _ _
    exact emits_scan hs n
  refine hopen.append ?_
  cases items with
  | nil => exact emits_endArray (all_skipped_of_blank hbody)
  | cons t items =>
    obtain ⟨ht, hi⟩ := h t items rfl
    obtain ⟨before, y, after, rfl, hb, hy, ha⟩ := hbody
    exact emits_item ht hi (all_skipped_of_blank hb) hy ha

theorem readsTree_object {members : List (Text × Tree)}
    (h : ∀ name t rest, members = (name, t) :: rest → ReadsTree t ∧ ReadsMoreMembers rest) :
    ReadsTree (.object members) := by
  rintro before _ rest n hb ⟨body, rfl, hbody⟩ - -
  have hopen : (standing (before ++ (0x7B :: (body ++ [0x7D]) ++ rest)) n).Emits [.beginObject]
      (standing (body ++ 0x7D :: rest) (.object true :: n)) := by
    rw [List.cons_append, List.append_assoc]
    have hs : scan false (before ++ 0x7B :: (body ++ ([0x7D] ++ rest))) =
        (.ok .beginObject, body ++ 0x7D :: rest, false) := scan_append hb _ _
    exact emits_scan hs n
  refine hopen.append ?_
  cases members with
  | nil => exact emits_endObject (all_skipped_of_blank hbody)
  | cons m members =>
    obtain ⟨ht, hm⟩ := h m.1 m.2 members rfl
    obtain ⟨before, key, gap, after, y, more, rfl, hb, hk, hg, ha, hy, hmore⟩ := hbody
    exact emits_member ht hm (all_skipped_of_blank hb) hk hg ha hy hmore

theorem all_skipped_comma {blank before : Text} (hb : Blank blank) (ha : Blank before) :
    (blank ++ 0x2C :: before).all isSkipped = true := by
  rw [List.all_append, List.all_cons, all_skipped_of_blank hb, all_skipped_of_blank ha]
  rfl

theorem readsMoreItems_cons {t : Tree} {items : List Tree} (ht : ReadsTree t)
    (hi : ReadsMoreItems items) : ReadsMoreItems (t :: items) := by
  rintro _ rest n ⟨blank, before, y, after, rfl, hb, ha, hy, hmore⟩
  simpa using emits_item ht hi (all_skipped_comma hb ha) hy hmore

theorem readsMoreMembers_cons {name : Text} {t : Tree} {members : List (Text × Tree)}
    (ht : ReadsTree t) (hm : ReadsMoreMembers members) : ReadsMoreMembers ((name, t) :: members) := by
  rintro _ rest n ⟨blank, before, key, gap, after, y, more, rfl, hb, hbefore, hk, hg, ha, hy, hmore⟩
  simpa using emits_member ht hm (all_skipped_comma hb hbefore) hk hg ha hy hmore

theorem readsTree_scalar {t : Tree} (ht : t.tail = [])
    (hscan : ∀ {x rest : Text}, t.Spells x → Ends rest →
      scan false (x ++ rest) = (.ok t.head, rest, false))
    (htake : ∀ {n : Nesting}, AwaitsValue n → n.take t.head = (n.valueDone, t.head)) :
    ReadsTree t := by
  intro before x rest n hb hx hn hr
  have := emits_scan ((scan_append hb false (x ++ rest)).trans (hscan hx hr)) n
  rwa [htake hn, ← ht] at this

mutual

/-- Every text that spells a value is read as its tokens. -/
theorem readsTree : ∀ t : Tree, ReadsTree t
  | .array [] => readsTree_array (by simp)
  | .array (t :: items) => readsTree_array fun _ _ h => by
    obtain ⟨rfl, rfl⟩ := List.cons.inj h
    exact ⟨readsTree t, readsMoreItems items⟩
  | .object [] => readsTree_object (by simp)
  | .object ((name, t) :: members) => readsTree_object fun _ _ _ h => by
    obtain ⟨hm, rfl⟩ := List.cons.inj h
    obtain ⟨rfl, rfl⟩ := Prod.mk.inj hm
    exact ⟨readsTree t, readsMoreMembers members⟩
  | .null => readsTree_scalar rfl (fun h _ => h ▸ scan_null _) fun _ => rfl
  | .bool b => readsTree_scalar rfl (fun h _ => h ▸ scan_bool b _) fun _ => rfl
  | .number _ => readsTree_scalar rfl (fun h hr => h.1 ▸ scan_number h.2 hr false) fun _ => rfl
  | .string s =>
    readsTree_scalar (t := .string s) rfl (fun h _ => scan_string h _) fun hn =>
      take_of_awaitsValue hn s

theorem readsMoreItems : ∀ items : List Tree, ReadsMoreItems items
  | [] => fun h => emits_endArray (all_skipped_of_blank h)
  | t :: items => readsMoreItems_cons (readsTree t) (readsMoreItems items)

theorem readsMoreMembers : ∀ members : List (Text × Tree), ReadsMoreMembers members
  | [] => fun h => emits_endObject (all_skipped_of_blank h)
  | (_, t) :: members => readsMoreMembers_cons (readsTree t) (readsMoreMembers members)

end

end Documents

end Lenient

end WireSchema.Json
