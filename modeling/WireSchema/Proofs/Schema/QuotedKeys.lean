import WireSchema.Proofs.Schema.RoundTrip

/-!
# Quoted keys

The key of a property may stand between quotes. Quotes keep a colon in the key from ending it, but not
an arrow: the line is cut at its first arrow, wherever that stands. So a quoted key is read as it is
written exactly if it has no arrow.
-/

namespace WireSchema.Schema

/-! ## One more property -/

/-- Nothing is finished before something is under way. -/
def Progress.InOrder (p : Progress) : Prop := p.current = none → p.finished = []

theorem Progress.InOrder.step {p q : Progress} (hp : p.InOrder) {n : Nat} {raw : Text}
    (h : p.step n raw = .ok q) : q.InOrder := by
  unfold Progress.step at h
  split at h
  · cases h
    exact hp
  · rename_i body _
    split at h
    · cases h
    · cases hproperty : Property.parse n body with
      | error fault =>
        rw [hproperty] at h
        cases h
      | ok property =>
        rw [hproperty] at h
        cases h
        intro hnone
        cases hnone
  · rename_i isInterface body _
    cases hobject : Declaration.parse n isInterface body with
    | error fault =>
      rw [hobject] at h
      cases h
    | ok d =>
      rw [hobject] at h
      cases h
      intro hnone
      cases hnone

theorem Progress.InOrder.takeLine {p q : Progress} (hp : p.InOrder) {n : Nat} {raw : Text}
    (h : p.takeLine n raw = .ok q) : q.InOrder := by
  unfold Progress.takeLine at h
  split at h
  · cases h
  · cases hstep : p.step n (chomp raw) with
    | error fault =>
      rw [hstep] at h
      cases h
    | ok q' =>
      rw [hstep] at h
      cases h
      exact hp.step hstep

section OneMore

variable {line body : Text} (hline : Line.ofText line = .property body)
  (hlength : line.length < lineLimit) {ds : List Declaration} {d : Declaration} {q : Property}
include hline hlength

/-- The line of a property adds it to the object under way. -/
theorem parseLines_concat_property {ls : List Text} {p : Progress} (hp : p.InOrder) {n : Nat}
    (h : parseLines p n ls = .ok (ds ++ [d]))
    (hq : Property.parse (n + ls.length) body = .ok q) :
    parseLines p n (ls ++ [line]) = .ok (ds ++ [{ d with properties := d.properties ++ [q] }]) := by
  induction ls generalizing p n with
  | nil =>
    have hclose : p.close = d :: ds.reverse := by
      have hreverse := Except.ok.inj h
      rw [List.reverse_eq_iff] at hreverse
      simpa using hreverse
    obtain ⟨finished, current⟩ := p
    cases current with
    | none =>
      have hempty : finished = [] := hp rfl
      rw [Progress.close, hempty] at hclose
      cases hclose
    | some d' =>
      obtain ⟨rfl, rfl⟩ := List.cons.inj hclose
      have hstep : Progress.step { finished := ds.reverse, current := some d' } n line =
          .ok { finished := ds.reverse
                current := some { d' with properties := d'.properties ++ [q] } } := by
        rw [Progress.step, hline]
        simp only [show Property.parse n body = .ok q from hq]
        rfl
      rw [List.nil_append, parseLines_cons, Progress.takeLine_of_step hlength hstep]
      show Except.ok (List.reverse _) = _
      simp [Progress.close]
  | cons raw ls ih =>
    rw [parseLines_cons] at h
    rw [List.cons_append, parseLines_cons]
    cases htake : p.takeLine n raw with
    | error f =>
      rw [htake] at h
      cases h
    | ok p' =>
      rw [htake] at h
      refine ih (hp.takeLine htake) h ?_
      rw [List.length_cons] at hq
      rwa [Nat.add_assoc, Nat.add_comm 1]

/-- After a text in which an object is under way, the line of a property adds it to that object. -/
theorem parse_append_property {before : Text} (hbefore : parse before = .ok (ds ++ [d]))
    (hnewline : 0x0A ∉ line) (hq : Property.parse (before.count 0x0A + 2) body = .ok q) :
    parse (before ++ 0x0A :: line) =
      .ok (ds ++ [{ d with properties := d.properties ++ [q] }]) := by
  have hne : line ≠ [] := by
    rintro rfl
    rw [show Line.ofText [] = .blank from ofText_idle ⟨⟨[], by simp⟩, none⟩] at hline
    cases hline
  have hlines : lines line = [line] := by
    have hsplit : Text.splitOn line 0x0A = [line] := by
      rw [Text.splitOn_eq, List.splitOn_eq_singleton hnewline]
    simp [lines, hsplit, hne]
  have hsplit : parseLines {} 1 (Text.splitOn before 0x0A) = .ok (ds ++ [d]) := by
    rw [← hbefore, ← parse_concat_newline, parse, lines_append_newline]
    exact congrArg (parseLines {} 1) (List.append_nil _).symm
  rw [parse, lines_append_newline, hlines]
  refine parseLines_concat_property hline hlength (fun _ => rfl) hsplit ?_
  rw [length_splitOn, Nat.add_comm 1]
  exact hq

end OneMore

/-! ## Arrows in keys -/

theorem exists_trim_cons_quote {t : Text} (h : 0x22 ∉ t) :
    ∃ u, Text.trim (0x22 :: t) = 0x22 :: u ∧ 0x22 ∉ u := by
  have hquote : (0x22 : UInt8) ∈ Text.trim (0x22 :: t) :=
    Text.mem_trim (by decide) rfl List.mem_cons_self
  have hstart : Text.trim (0x22 :: t) <+: 0x22 :: t :=
    Text.prefix_trim (Text.frontSolid_cons (by decide) rfl t)
  obtain ⟨b, u, hu⟩ := List.exists_cons_of_ne_nil (List.ne_nil_of_mem hquote)
  rw [hu, List.cons_prefix_cons] at hstart
  obtain ⟨rfl, hstart⟩ := hstart
  exact ⟨u, hu, fun hmem => h (hstart.subset hmem)⟩

namespace Property

variable {p : Property} (gap : Nat → Gap)

theorem Quotable.keyAndName_of_arrow (hp : p.Quotable) (harrow : Text.ofString "=>" <:+: p.key) :
    ∃ key name, Schema.keyAndName
      (p.writtenKey ++ (gap 2).text ++ Text.ofString "=>" ++ (gap 3).text ++ p.name) =
        .ok (key, name) ∧ 0x22 ∈ key := by
  obtain ⟨a, b, hkey⟩ : ∃ a b, Text.cut? p.key "=>" = some (a, b) := by
    cases hcut : Text.cut? p.key "=>" with
    | none => exact absurd harrow ((Text.cut?_eq_none_iff (by decide) _).mp hcut)
    | some parts => exact ⟨parts.1, parts.2, rfl⟩
  have hquote : 0x22 ∉ a := by
    intro hmem
    refine (hp.key 0x22 ?_).2 rfl
    rw [← Text.append_of_cut? hkey (by decide)]
    exact List.mem_append_left _ hmem
  generalize hrest : 0x22 :: ((gap 2).text ++ (Text.ofString "=>" ++ ((gap 3).text ++ p.name))) = rest
  have hcut : Text.cut? (p.writtenKey ++ (gap 2).text ++ Text.ofString "=>" ++ (gap 3).text ++ p.name)
      "=>" = some (0x22 :: a, b ++ rest) := by
    have hleft : p.writtenKey ++ (gap 2).text ++ Text.ofString "=>" ++ (gap 3).text ++ p.name =
        0x22 :: (p.key ++ rest) := by
      simp [writtenKey, ← hrest]
    have hnot : List.isPrefixOf (Text.ofString "=>") (0x22 :: (p.key ++ rest)) = false := rfl
    rw [hleft, Text.cut?_cons, hnot, Text.cut?_append_of_some hkey (by decide)]
    rfl
  have hname : Text.trim (b ++ rest) ≠ [] := by
    refine List.ne_nil_of_mem (Text.mem_trim (b := 0x22) (by decide) rfl ?_)
    rw [← hrest]
    exact List.mem_append_right _ List.mem_cons_self
  obtain ⟨u, htrim, hu⟩ := exists_trim_cons_quote hquote
  obtain ⟨v, htrim', hv⟩ := exists_trim_cons_quote hu
  have hunquoted : unenclosed? 0x22 0x22 (0x22 :: v) = none := by
    have hlast : v.getLast? ≠ some 0x22 := fun h => hv (List.mem_of_getLast? h)
    simp [unenclosed?, hlast]
  refine ⟨0x22 :: v, Text.trim (b ++ rest), ?_, List.mem_cons_self⟩
  unfold Schema.keyAndName
  simp only [hcut, htrim, htrim', hunquoted, List.isEmpty_iff, hname, if_false, pure_bind,
    Option.getD_none, reduceCtorEq]
  rfl

/-- A property with a quoted key is always read: as it is written, if its key has no arrow, and with
another key otherwise. -/
theorem Quotable.exists_parse (hp : p.Quotable) (n : Nat) :
    ∃ q, Property.parse n (p.writtenBody gap) = .ok q ∧
      (¬Text.ofString "=>" <:+: p.key → q = { p with line := n }) ∧
      (Text.ofString "=>" <:+: p.key → q.key ≠ p.key) := by
  by_cases harrow : Text.ofString "=>" <:+: p.key
  · obtain ⟨key, name, hread, hquote⟩ := hp.keyAndName_of_arrow gap harrow
    refine ⟨_, parse_of_keyAndName gap hp hread n, fun hnone => absurd harrow hnone, fun _ hkey => ?_⟩
    have heq : key = p.key := hkey
    exact (hp.key 0x22 (heq ▸ hquote)).2 rfl
  · exact ⟨_, parse_of_keyAndName gap hp (hp.keyAndName gap harrow) n, fun _ => rfl,
      fun hsome => absurd hsome harrow⟩

end Property

/-- **Quoted keys.** Take a text in which an object is under way, and a line after it that declares a
property with a quoted key, in any layout. The line adds a property to the object. This has the key, the
name and the type that are written if the key has no arrow, and it has another key otherwise. -/
theorem parse_quoted_key {before : Text} {ds : List Declaration} {d : Declaration}
    (hbefore : parse before = .ok (ds ++ [d])) {p : Property} (hp : p.Quotable) (gap : Nat → Gap)
    (g : Gap) (e : LineEnd)
    (hlength : (g.text ++ p.written gap ++ e.written).length < lineLimit) :
    ∃ q, parse (before ++ 0x0A :: (g.text ++ p.written gap ++ e.written)) =
        .ok (ds ++ [{ d with properties := d.properties ++ [q] }]) ∧
      (¬Text.ofString "=>" <:+: p.key → q = { p with line := before.count 0x0A + 2 }) ∧
      (Text.ofString "=>" <:+: p.key → q.key ≠ p.key) := by
  obtain ⟨q, hq, hkeys⟩ := hp.exists_parse gap (before.count 0x0A + 2)
  have hnewline : 0x0A ∉ g.text ++ p.written gap ++ e.written := by
    simp only [List.mem_append, not_or]
    exact ⟨⟨g.newline_not_mem, Property.newline_not_mem gap hp⟩, e.newline_not_mem⟩
  exact ⟨q, parse_append_property (Property.ofText_line gap hp g e) hlength hbefore hnewline hq, hkeys⟩

theorem Gap.blank_nil : ∀ b ∈ ([] : Text), b = 0x20 ∨ b = 0x09 := List.forall_mem_nil _

theorem Gap.blank_space : ∀ b ∈ ([0x20] : Text), b = 0x20 ∨ b = 0x09 :=
  List.forall_mem_singleton.mpr (.inl rfl)

def singleGap : Nat → Gap
  | 4 => ⟨[], Gap.blank_nil⟩
  | _ => ⟨[0x20], Gap.blank_space⟩

/-- A key with all the marks but an arrow, and a blank at its end. -/
def markedKey : Property := { key := ":a, b = > c/d- ", name := "Mark", type := "int" }

theorem parse_quoted_key_markedKey :
    parse "Item" = .ok ([] ++ [{ name := "Item", line := 1 }]) ∧ markedKey.Quotable ∧
      ¬Text.ofString "=>" <:+: markedKey.key ∧
      parse "Item\n- \":a, b = > c/d- \" => Mark: int" =
        .ok [{ name := "Item", line := 1, properties := [{ markedKey with line := 2 }] }] := by
  have hbefore : parse "Item" = .ok ([] ++ [{ name := "Item", line := 1 }]) := by decide +kernel
  have hkey : markedKey.Quotable := by decide +kernel
  have harrow : ¬Text.ofString "=>" <:+: markedKey.key := by decide +kernel
  obtain ⟨q, hparse, hq, -⟩ := parse_quoted_key hbefore hkey singleGap ⟨[], Gap.blank_nil⟩
    (.plain ⟨[], Gap.blank_nil⟩) (by decide +kernel)
  rw [hq harrow] at hparse
  exact ⟨hbefore, hkey, harrow, hparse⟩

/-- A key with an arrow is cut there, and the rest of the line up to the colon is taken for the name. -/
theorem parse_key_with_arrow :
    ({ key := "a=>b", name := "Name", type := "int" } : Property).Quotable ∧
      parse "Item\n- \"a=>b\" => Name: int" =
        .ok [{ name := "Item", line := 1, properties :=
          [{ key := "\"a", name := "b\" => Name", type := "int", line := 2 }] }] := by
  decide +kernel

end WireSchema.Schema
