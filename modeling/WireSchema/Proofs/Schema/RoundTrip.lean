import WireSchema.Proofs.Schema.Rendering

/-!
# Reading back what is written

The lines of a layout are taken in one after the other: lines without meaning leave the progress as
it is, the line of an object starts it and the lines of properties add to it. So the text of
declarations is read as these declarations, each with the number of its line.
-/

namespace WireSchema.Schema

/-! ## All lines -/

theorem Progress.takeLine_of_step {p q : Progress} {n : Nat} {raw : Text}
    (hlength : raw.length < lineLimit) (h : p.step n raw = .ok q) : p.takeLine n raw = .ok q := by
  have hchomp : p.step n (chomp raw) = p.step n raw := by rw [step, ofText_chomp, step]
  rw [takeLine, if_neg (Nat.not_le.mpr hlength), hchomp, h]
  rfl

theorem parseLines_idle {is : List IdleLine} {rest : List Text}
    (hlength : ∀ t ∈ is.map IdleLine.written, t.length < lineLimit) (p : Progress) (n : Nat) :
    parseLines p n (is.map IdleLine.written ++ rest) = parseLines p (n + is.length) rest := by
  induction is generalizing n with
  | nil => rfl
  | cons i is ih =>
    have hstep : p.step n i.written = .ok p := by rw [Progress.step, ofText_idle]
    rw [List.map_cons, List.cons_append, parseLines_cons,
      Progress.takeLine_of_step (hlength _ List.mem_cons_self) hstep]
    have hrest := ih (fun t ht => hlength t (List.mem_cons_of_mem _ ht)) (n + 1)
    rw [Nat.add_right_comm, Nat.add_assoc] at hrest
    exact hrest

namespace Layout

variable (l : Layout)

theorem start_succ (k : Nat) : l.start (k + 1) = l.number k + 1 := by
  simp only [start, number, List.range_succ, List.flatMap_append, List.length_append,
    List.flatMap_singleton]
  omega

theorem getElem?_linesFrom {rs : List Row} {j : Nat} {r : Row} (h : rs[j]? = some r) (k : Nat) :
    l.start k ≤ l.number (k + j) ∧
      (l.linesFrom k rs)[l.number (k + j) - l.start k]? = some (l.line (k + j) r) := by
  induction rs generalizing j k with
  | nil => simp at h
  | cons r' rs ih =>
    rw [linesFrom]
    cases j with
    | zero =>
      obtain rfl : r' = r := by simpa using h
      have hnumber : l.number k - l.start k = (l.idle k).length := by simp [number]
      rw [Nat.add_zero, hnumber, List.getElem?_append_right (by simp)]
      simp [number]
    | succ j =>
      rw [List.getElem?_cons_succ] at h
      obtain ⟨hle, hget⟩ := ih h (k + 1)
      rw [Nat.add_right_comm, Nat.add_assoc] at hle hget
      rw [start_succ] at hle hget
      have hnumber : l.number k = l.start k + (l.idle k).length := rfl
      refine ⟨by omega, ?_⟩
      have hindex : l.number (k + (j + 1)) - l.start k - (l.idle k).length =
          l.number (k + (j + 1)) - (l.number k + 1) + 1 := by omega
      rw [List.getElem?_append_right (by simp; omega), List.length_map, hindex,
        List.getElem?_cons_succ, hget]

theorem parseLines_row {k : Nat} {r : Row} {rest : List Row}
    (hlength : ∀ t ∈ l.linesFrom k (r :: rest), t.length < lineLimit) {p q : Progress}
    (h : p.step (l.number k) (l.line k r) = .ok q) :
    parseLines p (l.start k) (l.linesFrom k (r :: rest)) =
      parseLines q (l.start (k + 1)) (l.linesFrom (k + 1) rest) := by
  rw [linesFrom] at hlength ⊢
  rw [parseLines_idle fun t ht => hlength t (List.mem_append_left _ ht), ← number, parseLines_cons,
    Progress.takeLine_of_step (hlength _ (by simp)) h, start_succ]
  rfl

theorem mem_linesFrom_cons {k : Nat} {r : Row} {rest : List Row} {t : Text}
    (h : t ∈ l.linesFrom (k + 1) rest) : t ∈ l.linesFrom k (r :: rest) := by
  rw [linesFrom]
  exact List.mem_append_right _ (List.mem_cons_of_mem _ h)

theorem mem_linesFrom_append {k : Nat} {rs rest : List Row} {t : Text}
    (h : t ∈ l.linesFrom (k + rs.length) rest) : t ∈ l.linesFrom k (rs ++ rest) := by
  induction rs generalizing k with
  | nil => exact h
  | cons r rs ih =>
    refine l.mem_linesFrom_cons (ih ?_)
    rwa [Nat.add_assoc, Nat.add_comm 1]

/-- The lines of properties add them to the object under way. -/
theorem parseLines_properties {ps : List Property} (hps : ∀ p ∈ ps, p.Writable) {rest : List Row}
    {k : Nat} (hlength : ∀ t ∈ l.linesFrom k (ps.map .property ++ rest), t.length < lineLimit)
    (finished : List Declaration) (d : Declaration) :
    parseLines { finished, current := some d } (l.start k)
        (l.linesFrom k (ps.map .property ++ rest)) =
      parseLines
        { finished, current :=
            some { d with properties := d.properties ++ l.numberProperties k ps } }
        (l.start (k + ps.length)) (l.linesFrom (k + ps.length) rest) := by
  induction ps generalizing k d with
  | nil => simp [numberProperties]
  | cons p ps ih =>
    have hp := hps p List.mem_cons_self
    have hstep : Progress.step { finished, current := some d } (l.number k)
        (l.line k (.property p)) =
          .ok { finished, current :=
            some { d with properties := d.properties ++ [{ p with line := l.number k }] } } := by
      rw [Progress.step, line, Row.written, Property.ofText_line _ hp.quotable]
      simp only [Property.parse_writtenBody _ hp]
      rfl
    rw [List.map_cons, List.cons_append] at hlength ⊢
    rw [l.parseLines_row hlength hstep, ih (fun q hq => hps q (List.mem_cons_of_mem p hq))
      fun t ht => hlength t (l.mem_linesFrom_cons ht)]
    simp [numberProperties, Nat.add_comm, Nat.add_left_comm]

/-- The lines of declarations are read as these declarations, after those that are there already. -/
theorem parseLines_rows {ds : List Declaration} (hds : ∀ d ∈ ds, d.Writable) {k : Nat}
    (hlength : ∀ t ∈ l.linesFrom k (rows ds), t.length < lineLimit) (p : Progress) :
    parseLines p (l.start k) (l.linesFrom k (rows ds)) =
      .ok (p.close.reverse ++ l.numberFrom k ds) := by
  induction ds generalizing k p with
  | nil =>
    rw [numberFrom, List.append_nil, rows, List.flatMap_nil, linesFrom,
      ← List.append_nil (List.map _ _), parseLines_idle hlength, parseLines]
  | cons d ds ih =>
    have hd := hds d List.mem_cons_self
    have hstep : p.step (l.number k) (l.line k (.object d)) =
        .ok { finished := p.close, current :=
          some { d with line := l.number k, properties := [] } } := by
      rw [Progress.step, line, Row.written, Declaration.ofText_line _ hd]
      simp only [Declaration.parse_writtenBody _ hd]
      rfl
    have hrows : rows (d :: ds) = .object d :: (d.properties.map .property ++ rows ds) := by
      simp [rows]
    rw [hrows] at hlength ⊢
    have hrest : ∀ t ∈ l.linesFrom (k + 1) (d.properties.map .property ++ rows ds),
        t.length < lineLimit := fun t ht => hlength t (l.mem_linesFrom_cons ht)
    rw [l.parseLines_row hlength hstep, l.parseLines_properties hd.properties hrest,
      ih fun e he => hds e (List.mem_cons_of_mem d he)]
    · simp [Progress.close, numberFrom]
    · intro t ht
      refine hrest t (l.mem_linesFrom_append ?_)
      rwa [List.length_map]

end Layout

/-! ## The whole text -/

/-- A line break at the very end does not matter. -/
theorem parse_concat_newline (t : Text) : parse (t ++ [0x0A]) = parse t := by
  have hempty : ∀ ls : List Text, ∀ p n, parseLines p n (ls ++ [[]]) = parseLines p n ls := by
    intro ls
    induction ls with
    | nil =>
      intro p n
      have hstep : p.step n [] = .ok p := by
        rw [Progress.step, show Line.ofText [] = .blank from ofText_idle ⟨⟨[], by simp⟩, none⟩]
      rw [List.nil_append, parseLines_cons, Progress.takeLine_of_step (by decide) hstep]
      rfl
    | cons raw rest ih =>
      intro p n
      rw [List.cons_append, parseLines_cons, parseLines_cons]
      simp only [ih]
  have hlines : lines (t ++ [0x0A]) = Text.splitOn t 0x0A := by
    rw [lines_append_newline]
    exact List.append_nil _
  rw [parse, parse, hlines, lines]
  split
  · rename_i hlast
    obtain ⟨ls, hls⟩ := List.getLast?_eq_some_iff.mp (beq_iff_eq.mp hlast)
    rw [hls, List.dropLast_concat, hempty]
  · rfl

theorem parse_join {ls : List Text} (h : ∀ t ∈ ls, 0x0A ∉ t) :
    parse (Text.join "\n" ls) = parseLines {} 1 ls := by
  by_cases hne : ls = []
  · subst hne
    rfl
  · have hsplit : Text.splitOn (Text.join "\n" ls) 0x0A = ls := by
      rw [Text.splitOn_eq]
      exact List.splitOn_intercalate 0x0A h hne
    rw [← parse_concat_newline, parse, lines_append_newline, hsplit]
    exact congrArg _ (List.append_nil ls)

section NoBreak

variable (gap : Nat → Gap)

theorem Gap.newline_not_mem (g : Gap) : 0x0A ∉ g.text := by
  intro h
  rcases g.blank _ h with h | h <;> cases h

theorem Unmarked.newline_not_mem {t : Text} (h : Unmarked t) : 0x0A ∉ t :=
  fun hb => (h.bytes _ hb).1 rfl

theorem LineEnd.newline_not_mem (e : LineEnd) : 0x0A ∉ e.written := by
  cases e with
  | plain g => exact g.newline_not_mem
  | remark g apart r => simp [written, Remark.written, g.newline_not_mem, r.oneLine]; decide

theorem IdleLine.newline_not_mem (i : IdleLine) : 0x0A ∉ i.written := by
  obtain ⟨g, r⟩ := i
  cases r with
  | none => simp [written, g.newline_not_mem]
  | some r => simp [written, Remark.written, g.newline_not_mem, r.oneLine]; decide

theorem newline_not_mem_bracketed {t : Text} (h : 0x0A ∉ t) (isBracketed : Bool)
    {left right : UInt8} (hleft : left ≠ 0x0A) (hright : right ≠ 0x0A) (g g' : Gap) :
    0x0A ∉ bracketed isBracketed left right g g' t := by
  cases isBracketed with
  | true => simp [bracketed, g.newline_not_mem, g'.newline_not_mem, h, hleft.symm, hright.symm]
  | false => exact h

theorem Property.newline_not_mem {p : Property} (hp : p.Quotable) : 0x0A ∉ p.written gap := by
  have hkey : 0x0A ∉ p.key := fun hb => (hp.key _ hb).1 rfl
  have htype : 0x0A ∉ p.writtenType gap :=
    newline_not_mem_bracketed
      (newline_not_mem_bracketed hp.type.newline_not_mem _ (by decide) (by decide) _ _) _ (by decide)
      (by decide) _ _
  have harrow : 0x0A ∉ Text.ofString "=>" := by decide
  simp [written, writtenBody, writtenKey, Gap.newline_not_mem, hkey, hp.name.newline_not_mem,
    htype, harrow]

theorem newline_not_mem_bases {bases : List Text} (h : ∀ base ∈ bases, Word base) (i : Nat) :
    0x0A ∉ writtenBases gap i bases := by
  fun_induction writtenBases gap i bases with
  | case1 => simp
  | case2 i base => simp [Gap.newline_not_mem, (h base (by simp)).newline_not_mem]
  | case3 i base rest hrest ih =>
    simp [Gap.newline_not_mem, (h base (by simp)).newline_not_mem,
      ih fun b hb => h b (List.mem_cons_of_mem base hb)]

theorem Declaration.newline_not_mem {d : Declaration} (hd : d.Writable) : 0x0A ∉ d.written gap := by
  have hbody : 0x0A ∉ d.writtenBody gap := by
    unfold writtenBody
    split <;> simp [Gap.newline_not_mem, hd.name.newline_not_mem, newline_not_mem_bases gap hd.bases]
  unfold written
  split <;> simp [Gap.newline_not_mem, hbody]

/-- A row whose parts can be written. -/
def Row.Writable : Row → Prop
  | .object d => d.Writable
  | .property p => p.Writable

theorem writable_rows {ds : List Declaration} (hds : ∀ d ∈ ds, d.Writable) :
    ∀ r ∈ rows ds, r.Writable := by
  intro r hr
  obtain ⟨d, hd, hr⟩ := List.mem_flatMap.mp hr
  rcases List.mem_cons.mp hr with rfl | hr
  · exact hds d hd
  · obtain ⟨p, hp, rfl⟩ := List.mem_map.mp hr
    exact (hds d hd).properties p hp

theorem Layout.newline_not_mem (l : Layout) {rs : List Row} (hrs : ∀ r ∈ rs, r.Writable) {k : Nat} :
    ∀ t ∈ l.linesFrom k rs, 0x0A ∉ t := by
  have hidle : ∀ k, ∀ t ∈ (l.idle k).map IdleLine.written, 0x0A ∉ t := by
    intro k t ht
    obtain ⟨i, -, rfl⟩ := List.mem_map.mp ht
    exact i.newline_not_mem
  induction rs generalizing k with
  | nil => exact hidle k
  | cons r rs ih =>
    intro t ht
    rw [linesFrom, List.mem_append, List.mem_cons] at ht
    rcases ht with ht | rfl | ht
    · exact hidle k t ht
    · have hrow : 0x0A ∉ r.written (l.gap k) := by
        have hr := hrs r List.mem_cons_self
        cases r with
        | object d => exact Declaration.newline_not_mem _ hr
        | property p => exact Property.newline_not_mem _ (Property.Writable.quotable hr)
      simp [line, Gap.newline_not_mem, LineEnd.newline_not_mem, hrow]
    · exact ih (fun r hr => hrs r (List.mem_cons_of_mem _ hr)) t ht

end NoBreak

theorem Layout.getElem?_splitOn_render (l : Layout) {ds : List Declaration}
    (hds : ∀ d ∈ ds, d.Writable) {k : Nat} {r : Row} (hr : (rows ds)[k]? = some r) :
    (Text.splitOn (l.render ds) 0x0A)[l.number k - 1]? = some (l.line k r) := by
  have hget := (l.getElem?_linesFrom hr 0).2
  rw [Nat.zero_add, show l.start 0 = 1 from rfl] at hget
  have hne : l.linesFrom 0 (rows ds) ≠ [] := by
    intro hnil
    simp [hnil] at hget
  have hjoin : List.splitOn 0x0A (Text.join "\n" (l.linesFrom 0 (rows ds))) =
      l.linesFrom 0 (rows ds) :=
    List.splitOn_intercalate 0x0A (l.newline_not_mem (writable_rows hds)) hne
  rw [Text.splitOn_eq, render]
  cases l.isClosed with
  | true =>
    obtain ⟨hlt, -⟩ := List.getElem?_eq_some_iff.mp hget
    rw [if_pos rfl, List.splitOn_append_cons_self, hjoin, List.getElem?_append_left hlt, hget]
  | false => rwa [if_neg Bool.false_ne_true, List.append_nil, hjoin]

/-- Declarations that are written in any layout are read back in order, each object and property with
the number of the line on which it stands. -/
theorem parse_render (l : Layout) {ds : List Declaration} (hds : ∀ d ∈ ds, d.Writable)
    (hlength : ∀ t ∈ l.linesFrom 0 (rows ds), t.length < lineLimit) :
    parse (l.render ds) = .ok (l.numberFrom 0 ds) ∧
      ∀ k r, (rows ds)[k]? = some r →
        (Text.splitOn (l.render ds) 0x0A)[l.number k - 1]? = some (l.line k r) := by
  refine ⟨?_, fun k r hr => l.getElem?_splitOn_render hds hr⟩
  have hrender : parse (l.render ds) = parse (Text.join "\n" (l.linesFrom 0 (rows ds))) := by
    unfold Layout.render
    cases l.isClosed with
    | true => exact parse_concat_newline _
    | false => exact congrArg parse (List.append_nil _)
  rw [hrender, parse_join (l.newline_not_mem (writable_rows hds))]
  exact l.parseLines_rows hds hlength {}

/-- A layout with tabs, remarks and lines without meaning. -/
def looseLayout : Layout where
  gap line place := if (line + place) % 2 = 0 then ⟨[0x20, 0x09], by simp⟩ else ⟨[], by simp⟩
  ending line :=
    if line = 1 then .plain ⟨[0x20], by simp⟩
    else .remark ⟨[0x09], by simp⟩ (by decide) ⟨Text.ofString "/ \"a\" => b: c", by decide⟩
  idle line :=
    if line = 1 then []
    else [⟨⟨[], by simp⟩, none⟩, ⟨⟨[0x20], by simp⟩, some ⟨[0x2D], by decide⟩⟩]
  isClosed := false

/-- An interface and an object with two bases, whose properties have arrays, dictionaries and a key with
blanks at its ends. -/
def looseDeclarations : List Declaration :=
  [{ name := "Tagged", isInterface := true, properties :=
      [{ key := " tag/", name := "T=", type := "string" }] },
    { name := "Item", bases := ["Tagged", "a.B"], properties :=
      [{ key := "*", name := "Rest", type := "long", isArray := true, isDictionary := true }] }]

theorem parse_render_loose :
    (∀ d ∈ looseDeclarations, d.Writable) ∧
    (∀ t ∈ looseLayout.linesFrom 0 (rows looseDeclarations), t.length < lineLimit) ∧
    parse (looseLayout.render looseDeclarations) =
      .ok [{ name := "Tagged", isInterface := true, line := 3, properties :=
          [{ key := " tag/", name := "T=", type := "string", line := 4 }] },
        { name := "Item", bases := ["Tagged", "a.B"], line := 7, properties :=
          [{ key := "*", name := "Rest", type := "long", isArray := true, isDictionary := true,
             line := 10 }] }] := by
  have hds : ∀ d ∈ looseDeclarations, d.Writable := by decide +kernel
  have hlength : ∀ t ∈ looseLayout.linesFrom 0 (rows looseDeclarations), t.length < lineLimit := by
    decide +kernel
  exact ⟨hds, hlength, (parse_render looseLayout hds hlength).1⟩

end WireSchema.Schema
