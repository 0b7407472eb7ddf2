import Mathlib.Data.List.Infix
import Mathlib.Data.List.TakeWhile
import WireSchema.Text.Basic

/-!
# Cutting and trimming

How a text that is put together from parts comes apart again: splitting at a byte undoes joining,
cutting at a separator finds the end of a part in which the separator does not begin, and trimming
takes off the blanks around a part and nothing of the part itself.
-/

namespace WireSchema.Text

/-! ## Splitting -/

theorem splitLoop_eq (b : UInt8) (cur : Text) (parts : List Text) (t : Text) :
    splitLoop b cur parts t = parts.reverse ++ t.splitOnPPrepend (· == b) cur := by
  induction t generalizing cur parts with
  | nil => simp [splitLoop, List.splitOnPPrepend_nil]
  | cons c t ih =>
    rw [splitLoop, List.splitOnPPrepend_cons_eq_if]
    split
    · rw [ih, List.splitOnPPrepend_nil_right]
      simp
    · exact ih _ _

theorem splitOn_eq (t : Text) (b : UInt8) : splitOn t b = List.splitOn b t := by
  rw [splitOn, splitLoop_eq, List.splitOnPPrepend_nil_right]
  rfl

theorem not_mem_of_mem_splitOn {t part : Text} {b : UInt8} (h : part ∈ splitOn t b) : b ∉ part := by
  rw [splitOn_eq] at h
  induction t generalizing part with
  | nil =>
    rw [List.splitOn_nil, List.mem_singleton] at h
    simp [h]
  | cons c t ih =>
    rw [List.splitOn_cons_eq_if_modifyHead] at h
    split at h
    · rcases List.mem_cons.mp h with rfl | h
      · simp
      · exact ih h
    · rename_i hc
      obtain ⟨head, tail, hsplit⟩ := List.exists_cons_of_ne_nil (List.splitOn_ne_nil b t)
      rw [hsplit] at h ih
      rcases List.mem_cons.mp h with rfl | h
      · rw [List.mem_cons, not_or]
        exact ⟨fun hb => hc (by simp [hb]), ih List.mem_cons_self⟩
      · exact ih (List.mem_cons_of_mem head h)

/-! ## Cutting -/

theorem cutLoop_eq (sep seen t : Text) :
    cutLoop sep seen t = (cut? t sep).map fun p => (seen.reverse ++ p.1, p.2) := by
  unfold cut?
  induction t generalizing seen with
  | nil =>
    unfold cutLoop
    split <;> simp
  | cons b t ih =>
    rw [cutLoop, cutLoop]
    split
    · simp
    · rw [ih (b :: seen), ih [b], Option.map_map]
      simp [Function.comp_def]

theorem cut?_cons (sep : Text) (b : UInt8) (t : Text) : cut? (b :: t) sep =
    if sep.isPrefixOf (b :: t) then some ([], (b :: t).drop sep.length)
    else (cut? t sep).map fun p => (b :: p.1, p.2) := by
  rw [cut?, cutLoop, cutLoop_eq]
  simp

theorem cut?_eq_none_iff {sep : Text} (hsep : sep ≠ []) (t : Text) :
    cut? t sep = none ↔ ¬sep <:+: t := by
  induction t with
  | nil => simp [cut?, cutLoop, hsep]
  | cons b t ih =>
    rw [cut?_cons, List.infix_cons_iff, ← List.isPrefixOf_iff_prefix]
    split <;> simp_all

/-- A separator does not reach over a byte that it does not have. -/
theorem prefix_append_cons_iff {sep : Text} {c : UInt8} (hc : c ∉ sep) (t u : Text) :
    sep <+: t ++ c :: u ↔ sep <+: t := by
  refine ⟨fun h => ?_, fun h => h.trans (List.prefix_append _ _)⟩
  rcases List.prefix_or_prefix_of_prefix h (List.prefix_append t (c :: u)) with hsep | ⟨s, rfl⟩
  · exact hsep
  · cases s with
    | nil => simp
    | cons b s =>
      obtain ⟨rfl, -⟩ := List.cons_prefix_cons.mp ((List.prefix_append_right_inj t).mp h)
      simp at hc

theorem infix_append_cons_iff {sep : Text} {c : UInt8} (hc : c ∉ sep) (t u : Text) :
    sep <:+: t ++ c :: u ↔ sep <:+: t ∨ sep <:+: u := by
  induction t with
  | nil =>
    rw [List.nil_append, List.infix_cons_iff, ← List.nil_append (c :: u),
      prefix_append_cons_iff hc, List.infix_nil, List.prefix_nil]
  | cons b t ih =>
    rw [List.cons_append, List.infix_cons_iff, ← List.cons_append, prefix_append_cons_iff hc, ih,
      List.infix_cons_iff, or_assoc]

/-- A part in which the separator does not begin is passed over. -/
theorem cut?_append {sep t u : Text} (h : ∀ s, s ≠ [] → s <:+ t → ¬sep <+: s ++ u) :
    cut? (t ++ u) sep = (cut? u sep).map fun p => (t ++ p.1, p.2) := by
  induction t with
  | nil => simp
  | cons b t ih =>
    have hhead : ¬sep <+: b :: (t ++ u) := h (b :: t) (by simp) (List.suffix_refl _)
    rw [List.cons_append, cut?_cons, if_neg (by rwa [List.isPrefixOf_iff_prefix]),
      ih fun s hs hsuffix => h s hs (hsuffix.trans (List.suffix_cons b t)), Option.map_map]
    rfl

theorem cut?_self_append {sep : Text} (hsep : sep ≠ []) (u : Text) :
    cut? (sep ++ u) sep = some ([], u) := by
  cases sep with
  | nil => exact absurd rfl hsep
  | cons a sep =>
    rw [List.cons_append, cut?_cons, if_pos]
    · simp
    · rw [List.isPrefixOf_iff_prefix, ← List.cons_append]
      exact List.prefix_append _ _

/-- A text is cut at the first separator, if what stands before neither holds it nor runs into it. -/
theorem cut?_append_self {sep t : Text} (hsep : sep ≠ []) (ht : ¬sep <:+: t)
    (hlast : ∀ b ∈ t.getLast?, b ∉ sep) (u : Text) : cut? (t ++ (sep ++ u)) sep = some (t, u) := by
  rw [cut?_append, cut?_self_append hsep]
  · simp
  · intro s hs hsuffix hstart
    obtain ⟨r, b, rfl⟩ := List.eq_nil_or_concat s |>.resolve_left hs
    obtain ⟨v, rfl⟩ := hsuffix
    have hb : b ∉ sep := hlast b (by simp)
    rw [List.concat_eq_append, List.append_assoc, List.singleton_append,
      prefix_append_cons_iff hb] at hstart
    rw [List.concat_eq_append] at ht
    exact ht (hstart.isInfix.trans ⟨v, [b], by simp⟩)

/-- What follows the first occurrence of the separator does not matter. -/
theorem cut?_append_of_some {sep t before after : Text} (h : cut? t sep = some (before, after))
    (hsep : sep ≠ []) (u : Text) : cut? (t ++ u) sep = some (before, after ++ u) := by
  induction t generalizing before with
  | nil => simp [cut?, cutLoop, hsep] at h
  | cons b t ih =>
    rw [cut?_cons] at h
    rw [List.cons_append, cut?_cons]
    split at h
    · rename_i hp
      obtain ⟨s, hs⟩ := List.isPrefixOf_iff_prefix.mp hp
      obtain ⟨rfl, rfl⟩ := Prod.mk.inj (Option.some.inj h)
      rw [← List.cons_append, if_pos, ← hs]
      · simp
      · rw [List.isPrefixOf_iff_prefix, ← hs]
        exact ⟨s ++ u, by simp⟩
    · rename_i hp
      obtain ⟨p, hp', hbefore⟩ := Option.map_eq_some_iff.mp h
      obtain ⟨rfl, rfl⟩ := Prod.mk.inj hbefore
      -- the separator is no longer than `t`, so it cannot reach into `u` from here
      have hlength : sep.length ≤ t.length := by
        by_contra hlt
        have hnone := (cut?_eq_none_iff hsep t).mpr fun hinfix => hlt hinfix.length_le
        rw [hnone] at hp'
        cases hp'
      have hp'' : ¬sep <+: b :: (t ++ u) := fun hprefix => hp <| List.isPrefixOf_iff_prefix.mpr <|
        List.prefix_of_prefix_length_le hprefix (List.prefix_append (b :: t) u) (by simp; omega)
      rw [if_neg (by rwa [List.isPrefixOf_iff_prefix]), ih hp']
      rfl

/-- The two parts of a text that is cut, with the separator between them, are the text. -/
theorem append_of_cut? {sep t before after : Text} (h : cut? t sep = some (before, after))
    (hsep : sep ≠ []) : before ++ (sep ++ after) = t := by
  induction t generalizing before with
  | nil => simp [cut?, cutLoop, hsep] at h
  | cons b t ih =>
    rw [cut?_cons] at h
    split at h
    · rename_i hp
      obtain ⟨s, hs⟩ := List.isPrefixOf_iff_prefix.mp hp
      obtain ⟨rfl, rfl⟩ := Prod.mk.inj (Option.some.inj h)
      rw [← hs, List.drop_left, List.nil_append]
    · obtain ⟨p, hp, heq⟩ := Option.map_eq_some_iff.mp h
      obtain ⟨rfl, rfl⟩ := Prod.mk.inj heq
      rw [List.cons_append, ih hp]

theorem cutLast?_eq_none {t : Text} {b : UInt8} (h : b ∉ t) : cutLast? t b = none := by
  have hdrop : t.reverse.dropWhile (· != b) = [] := by
    rw [List.dropWhile_eq_nil_iff]
    intro c hc
    have hne : c ≠ b := fun heq => h (heq ▸ List.mem_reverse.mp hc)
    simpa using hne
  rw [cutLast?, hdrop]

theorem cutLast?_append {last : Text} {b : UInt8} (h : b ∉ last) (before : Text) :
    cutLast? (before ++ b :: last) b = some (before, last) := by
  have hlast : ∀ c ∈ last.reverse, (c != b) = true := by
    intro c hc
    have hne : c ≠ b := fun heq => h (heq ▸ List.mem_reverse.mp hc)
    simpa using hne
  rw [cutLast?, List.reverse_append, List.reverse_cons, List.append_assoc, List.singleton_append,
    List.dropWhile_append_of_pos hlast, List.takeWhile_append_of_pos hlast]
  simp

theorem dropEnd?_append (t p : Text) : dropEnd? (t ++ p) p = some t := by
  have hends : endsWith (t ++ p) p = true := by
    rw [endsWith, List.reverse_append, List.isPrefixOf_iff_prefix]
    exact List.prefix_append _ _
  rw [dropEnd?, if_pos hends, List.length_append, Nat.add_sub_cancel, List.take_left]

/-! ## Blank characters -/

theorem lt_of_isBlank {b : UInt8} (h : isBlank b = true) : b < 0x80 := by
  unfold isBlank at h
  grind

inductive IsBlankChar : Text → Prop
  | one {b : UInt8} (h : isBlank b = true) : IsBlankChar [b]
  | nextLine : IsBlankChar [0xC2, 0x85]
  | noBreak : IsBlankChar [0xC2, 0xA0]
  | ogham : IsBlankChar [0xE1, 0x9A, 0x80]
  | general {b : UInt8} (h : endsBlank b = true) : IsBlankChar [0xE2, 0x80, b]
  | mathematical : IsBlankChar [0xE2, 0x81, 0x9F]
  | ideographic : IsBlankChar [0xE3, 0x80, 0x80]

theorem dropBlank?_eq_some_iff {t r : Text} :
    dropBlank? t = some r ↔ ∃ c, IsBlankChar c ∧ t = c ++ r := by
  constructor
  · intro h
    unfold dropBlank? at h
    split at h
    · split at h
      · rename_i b _ hb
        obtain rfl := Option.some.inj h
        obtain rfl | rfl : b = 0x85 ∨ b = 0xA0 := by simpa using hb
        · exact ⟨_, .nextLine, rfl⟩
        · exact ⟨_, .noBreak, rfl⟩
      · cases h
    · cases h; exact ⟨_, .ogham, rfl⟩
    · split at h
      · rename_i hb; cases h; exact ⟨_, .general hb, rfl⟩
      · cases h
    · cases h; exact ⟨_, .mathematical, rfl⟩
    · cases h; exact ⟨_, .ideographic, rfl⟩
    · split at h
      · rename_i hb; cases h; exact ⟨_, .one hb, rfl⟩
      · cases h
    · cases h
  · rintro ⟨c, hc, rfl⟩
    cases hc with
    | one h =>
      unfold dropBlank?
      split <;> simp_all +decide
    | general h => simp [dropBlank?, h]
    | _ => rfl

theorem dropBlankRev?_eq_some_iff {t r : Text} :
    dropBlankRev? t = some r ↔ ∃ c, IsBlankChar c ∧ t = c.reverse ++ r := by
  constructor
  · intro h
    unfold dropBlankRev? dropStart? at h
    split at h
    · cases h; exact ⟨_, .nextLine, rfl⟩
    · cases h; exact ⟨_, .noBreak, rfl⟩
    · cases h; exact ⟨_, .ogham, rfl⟩
    · cases h; exact ⟨_, .mathematical, rfl⟩
    · cases h; exact ⟨_, .ideographic, rfl⟩
    · split at h
      · rename_i hb; cases h; exact ⟨_, .one hb, rfl⟩
      · split at h
        · rename_i hb
          split at h
          · rename_i hp
            obtain ⟨s, rfl⟩ := List.isPrefixOf_iff_prefix.mp hp
            cases h
            exact ⟨_, .general hb, rfl⟩
          · cases h
        · cases h
    · cases h
  · rintro ⟨c, hc, rfl⟩
    cases hc with
    | one h =>
      unfold dropBlankRev?
      split <;> simp_all +decide
    | @general b h =>
      have hb : isBlank b = false := by
        unfold endsBlank at h
        unfold isBlank
        grind
      unfold dropBlankRev?
      split <;> simp_all +decide only [List.reverse_cons, List.reverse_nil, List.nil_append,
        List.cons_append, List.cons.injEq, reduceCtorEq, false_and, and_false]
      rename_i heq
      obtain ⟨rfl, rfl⟩ := heq
      simp [dropStart?]
    | _ => rfl

theorem IsBlankChar.ne_nil {c : Text} (h : IsBlankChar c) : c ≠ [] := by cases h <;> simp

/-- Every byte of a blank character is beyond ASCII, unless it is the only one. -/
theorem IsBlankChar.bytes {c : Text} (h : IsBlankChar c) : c.length = 1 ∨ ∀ b ∈ c, 0x80 ≤ b := by
  cases h with
  | one h => exact .inl rfl
  | general h =>
    refine .inr fun b hb => ?_
    unfold endsBlank at h
    simp only [List.mem_cons, List.not_mem_nil, or_false] at hb
    grind
  | _ => exact .inr (by simp)

/-- Bytes beyond ASCII at the start of two texts, of which the second starts with ASCII, all stand in
the first. -/
theorem prefix_of_append_eq {c t u r : Text} (hc : c.length = 1 ∨ ∀ b ∈ c, 0x80 ≤ b) (hne : t ≠ [])
    (hu : ∀ b ∈ u.head?, b < 0x80) (h : t ++ u = c ++ r) : ∃ s, t = c ++ s := by
  rcases List.append_eq_append_iff.mp h with ⟨c', rfl, hu'⟩ | ⟨s, hs, -⟩
  · cases c' with
    | nil => exact ⟨[], by simp⟩
    | cons b c' =>
      exfalso
      rcases hc with hone | hbytes
      · apply hne
        rw [List.length_append, List.length_cons] at hone
        exact List.length_eq_zero_iff.mp (by omega)
      · have hlt := hu b (by simp [hu'])
        have hle := hbytes b (by simp)
        exact absurd hlt (UInt8.not_lt.mpr hle)
  · exact ⟨s, hs⟩

/-! ## Trimming -/

section Trimming

variable {t u : Text}

/-- No blank character stands at the start. -/
def FrontSolid (t : Text) : Prop := dropBlank? t = none

/-- No blank character stands at the end. -/
def BackSolid (t : Text) : Prop := dropBlankRev? t.reverse = none

theorem frontSolid_iff : FrontSolid t ↔ ∀ c r, IsBlankChar c → t ≠ c ++ r := by
  rw [FrontSolid, Option.eq_none_iff_forall_ne_some]
  simp only [ne_eq, dropBlank?_eq_some_iff, not_exists, not_and]
  exact ⟨fun h c r hc => h r c hc, fun h r c hc => h c r hc⟩

theorem backSolid_iff : BackSolid t ↔ ∀ c r, IsBlankChar c → t ≠ r ++ c := by
  rw [BackSolid, Option.eq_none_iff_forall_ne_some]
  simp only [ne_eq, dropBlankRev?_eq_some_iff, not_exists, not_and, List.reverse_eq_iff,
    List.reverse_append, List.reverse_reverse]
  exact ⟨fun h c r hc => by simpa using h r.reverse c hc, fun h r c hc => h c r.reverse hc⟩

theorem FrontSolid.append (h : FrontSolid t) (hne : t ≠ []) (hu : ∀ b ∈ u.head?, b < 0x80) :
    FrontSolid (t ++ u) := by
  rw [frontSolid_iff] at h ⊢
  intro c r hc heq
  obtain ⟨s, hs⟩ := prefix_of_append_eq hc.bytes hne hu heq
  exact h c s hc hs

theorem BackSolid.append (h : BackSolid u) (hne : u ≠ []) (ht : ∀ b ∈ t.getLast?, b < 0x80) :
    BackSolid (t ++ u) := by
  rw [backSolid_iff] at h ⊢
  intro c r hc heq
  have heq' : u.reverse ++ t.reverse = c.reverse ++ r.reverse := by
    rw [← List.reverse_append, ← List.reverse_append, heq]
  obtain ⟨s, hs⟩ := prefix_of_append_eq (by simpa using hc.bytes) (by simpa using hne)
    (by simpa using ht) heq'
  exact h c s.reverse hc (by rw [← List.reverse_reverse u, hs]; simp)

theorem frontSolid_cons {b : UInt8} (hb : b < 0x80) (hblank : isBlank b = false) (t : Text) :
    FrontSolid (b :: t) := by
  unfold FrontSolid dropBlank?
  split <;> simp_all +decide

theorem backSolid_concat {b : UInt8} (hb : b < 0x80) (hblank : isBlank b = false) (t : Text) :
    BackSolid (t ++ [b]) := by
  have hends : endsBlank b = false := by
    unfold endsBlank
    grind
  unfold BackSolid dropBlankRev?
  rw [List.reverse_append]
  split <;> simp_all +decide

theorem trimStart_of_frontSolid (h : FrontSolid t) : trimStart t = t := by
  rw [trimStart]
  split
  · rename_i hr
    rw [FrontSolid, hr] at h
    cases h
  · rfl

theorem trimStart_blankChar {c : Text} (hc : IsBlankChar c) (t : Text) :
    trimStart (c ++ t) = trimStart t := by
  have hdrop : dropBlank? (c ++ t) = some t := dropBlank?_eq_some_iff.mpr ⟨c, hc, rfl⟩
  rw [trimStart]
  split
  · rename_i hr
    rw [hdrop] at hr
    rw [Option.some.inj hr]
  · rename_i hr
    rw [hdrop] at hr
    cases hr

theorem trimEndRev_of_backSolid (h : BackSolid t) : trimEndRev t.reverse = t.reverse := by
  rw [trimEndRev]
  split
  · rename_i hr
    rw [BackSolid, hr] at h
    cases h
  · rfl

theorem trimEndRev_blankChar {c : Text} (hc : IsBlankChar c) (t : Text) :
    trimEndRev (c.reverse ++ t) = trimEndRev t := by
  have hdrop : dropBlankRev? (c.reverse ++ t) = some t :=
    dropBlankRev?_eq_some_iff.mpr ⟨c, hc, rfl⟩
  rw [trimEndRev]
  split
  · rename_i hr
    rw [hdrop] at hr
    rw [Option.some.inj hr]
  · rename_i hr
    rw [hdrop] at hr
    cases hr

theorem suffix_trimStart (t : Text) : trimStart t <:+ t := by
  induction t using trimStart.induct with
  | case1 t r hr ih =>
    obtain ⟨c, hc, rfl⟩ := dropBlank?_eq_some_iff.mp hr
    rw [trimStart_blankChar hc]
    exact ih.trans (List.suffix_append c r)
  | case2 t hnone =>
    rw [trimStart_of_frontSolid hnone]

theorem suffix_trimEndRev (t : Text) : trimEndRev t <:+ t := by
  induction t using trimEndRev.induct with
  | case1 t r hr ih =>
    obtain ⟨c, hc, rfl⟩ := dropBlankRev?_eq_some_iff.mp hr
    rw [trimEndRev_blankChar hc]
    exact ih.trans (List.suffix_append _ r)
  | case2 t hnone =>
    rw [← List.reverse_reverse t] at hnone ⊢
    rw [trimEndRev_of_backSolid hnone]

theorem frontSolid_of_trimStart (h : trimStart t = t) : FrontSolid t := by
  rw [frontSolid_iff]
  rintro c r hc rfl
  rw [trimStart_blankChar hc] at h
  have hlength := (suffix_trimStart r).length_le
  rw [h, List.length_append] at hlength
  have hpos := List.length_pos_iff.mpr hc.ne_nil
  omega

theorem backSolid_of_trimEndRev (h : trimEndRev t.reverse = t.reverse) : BackSolid t := by
  rw [backSolid_iff]
  rintro c r hc rfl
  rw [List.reverse_append, trimEndRev_blankChar hc] at h
  have hlength := (suffix_trimEndRev r.reverse).length_le
  rw [h, List.length_append, List.length_reverse] at hlength
  have hpos := List.length_pos_iff.mpr hc.ne_nil
  omega

/-- Trimming leaves exactly those texts alone that have no blank at either end. -/
theorem trim_eq_self_iff : trim t = t ↔ FrontSolid t ∧ BackSolid t := by
  constructor
  · intro h
    have hlength : (trim t).length ≤ (trimStart t).length := by
      simpa [trim] using (suffix_trimEndRev (trimStart t).reverse).length_le
    rw [h] at hlength
    have hstart : trimStart t = t := (suffix_trimStart t).eq_of_length_le hlength
    refine ⟨frontSolid_of_trimStart hstart, backSolid_of_trimEndRev ?_⟩
    rw [trim, hstart, List.reverse_eq_iff] at h
    exact h
  · rintro ⟨hfront, hback⟩
    rw [trim, trimStart_of_frontSolid hfront, trimEndRev_of_backSolid hback, List.reverse_reverse]

theorem mem_trim {b : UInt8} (hb : b < 0x80) (hblank : isBlank b = false) (h : b ∈ t) :
    b ∈ trim t := by
  have hchar : ∀ c, IsBlankChar c → b ∉ c := by
    intro c hc hmem
    rcases hc.bytes with hone | hbytes
    · cases hc with
      | one hc =>
        obtain rfl := List.mem_singleton.mp hmem
        rw [hc] at hblank
        cases hblank
      | _ => simp at hone
    · exact absurd hb (UInt8.not_lt.mpr (hbytes b hmem))
  have hstart : b ∈ trimStart t := by
    induction t using trimStart.induct with
    | case1 t r hr ih =>
      obtain ⟨c, hc, rfl⟩ := dropBlank?_eq_some_iff.mp hr
      rw [trimStart_blankChar hc]
      exact ih ((List.mem_append.mp h).resolve_left (hchar c hc))
    | case2 t hnone => rwa [trimStart_of_frontSolid hnone]
  have hend : ∀ u : Text, b ∈ u → b ∈ trimEndRev u := by
    intro u hu
    induction u using trimEndRev.induct with
    | case1 u r hr ih =>
      obtain ⟨c, hc, rfl⟩ := dropBlankRev?_eq_some_iff.mp hr
      rw [trimEndRev_blankChar hc]
      refine ih ((List.mem_append.mp hu).resolve_left fun hmem => ?_)
      exact hchar c hc (List.mem_reverse.mp hmem)
    | case2 u hnone =>
      rw [← List.reverse_reverse u] at hnone hu ⊢
      rwa [trimEndRev_of_backSolid hnone]
  exact List.mem_reverse.mpr (hend _ (List.mem_reverse.mpr hstart))

theorem prefix_trim (h : FrontSolid t) : trim t <+: t := by
  rw [← List.reverse_suffix, trim, List.reverse_reverse, trimStart_of_frontSolid h]
  exact suffix_trimEndRev t.reverse

theorem trim_blanks_append {g : Text} (hg : ∀ b ∈ g, isBlank b = true) (t : Text) :
    trim (g ++ t) = trim t := by
  induction g with
  | nil => rfl
  | cons b g ih =>
    rw [← ih fun b' hb' => hg b' (List.mem_cons_of_mem b hb'), trim, trim,
      show b :: g ++ t = [b] ++ (g ++ t) from rfl,
      trimStart_blankChar (.one (hg b List.mem_cons_self))]

theorem trimStart_concat {b : UInt8} (hb : isBlank b = true) (t : Text) :
    trimStart (t ++ [b]) = if trimStart t = [] then [] else trimStart t ++ [b] := by
  induction t using trimStart.induct with
  | case1 t r hr ih =>
    obtain ⟨c, hc, rfl⟩ := dropBlank?_eq_some_iff.mp hr
    rw [List.append_assoc, trimStart_blankChar hc, trimStart_blankChar hc, ih]
  | case2 t hnone =>
    rw [trimStart_of_frontSolid hnone]
    by_cases hne : t = []
    · rw [if_pos hne, hne, List.nil_append]
      exact (trimStart_blankChar (.one hb) []).trans (trimStart_of_frontSolid rfl)
    · rw [if_neg hne]
      exact trimStart_of_frontSolid
        (FrontSolid.append hnone hne (by simpa using lt_of_isBlank hb))

theorem trim_concat {b : UInt8} (hb : isBlank b = true) (t : Text) : trim (t ++ [b]) = trim t := by
  rw [trim, trim, trimStart_concat hb]
  split
  · rename_i h
    rw [h]
  · rw [List.reverse_append]
    exact congrArg _ (trimEndRev_blankChar (.one hb) _)

theorem trim_append_blanks {g : Text} (hg : ∀ b ∈ g, isBlank b = true) (t : Text) :
    trim (t ++ g) = trim t := by
  induction g generalizing t with
  | nil => rw [List.append_nil]
  | cons b g ih =>
    rw [show t ++ b :: g = t ++ [b] ++ g by simp, ih fun b' hb' => hg b' (List.mem_cons_of_mem b hb'),
      trim_concat (hg b List.mem_cons_self)]

theorem trim_padded {g g' : Text} (hg : ∀ b ∈ g, isBlank b = true) (hg' : ∀ b ∈ g', isBlank b = true)
    (hfront : FrontSolid t) (hback : BackSolid t) : trim (g ++ t ++ g') = t := by
  rw [trim_append_blanks hg', trim_blanks_append hg, trim_eq_self_iff.mpr ⟨hfront, hback⟩]

theorem trim_blanks {g : Text} (hg : ∀ b ∈ g, isBlank b = true) : trim g = [] := by
  rw [← List.append_nil g, trim_blanks_append hg]
  exact trim_eq_self_iff.mpr ⟨rfl, rfl⟩

end Trimming

end WireSchema.Text
