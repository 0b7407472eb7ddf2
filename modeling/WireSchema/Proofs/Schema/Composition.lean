import WireSchema.Proofs.Text.Cutting
import WireSchema.Schema.Parser

/-!
# Reading schemas one after another

A schema text that is put after another one is read as if it stood alone, with its lines counted on,
provided that it does not go on with the properties of the last object before it. `Progress.moved`
relates the two readings; one line keeps it, so all lines do.
-/

namespace WireSchema

def Failure.shifted (k : Nat) : Failure → Failure
  | .schemaSyntax line text reason => .schemaSyntax (line + k) text reason
  | f => f

namespace Schema

def Property.shifted (k : Nat) (p : Property) : Property := { p with line := p.line + k }

def Declaration.shifted (k : Nat) (d : Declaration) : Declaration :=
  { d with line := d.line + k, properties := d.properties.map (·.shifted k) }

/-! ## Lines -/

/-- A carriage return at the end of a line does not matter. -/
theorem uncommented_concat (t : Text) : uncommented (t ++ [0x0D]) = uncommented t := by
  unfold uncommented
  cases hcut : Text.cut? t "//" with
  | some parts =>
    obtain ⟨before, after⟩ := parts
    rw [Text.cut?_append_of_some hcut (by decide)]
  | none =>
    have hnone : Text.cut? (t ++ [0x0D]) "//" = none := by
      rw [Text.cut?_eq_none_iff (by decide)] at hcut ⊢
      rw [Text.infix_append_cons_iff (by decide)]
      simpa [Text.ofString] using hcut
    rw [hnone]
    exact Text.trim_concat rfl t

theorem uncommented_chomp (raw : Text) : uncommented (chomp raw) = uncommented raw := by
  unfold chomp Text.dropEnd?
  split
  · rename_i h
    rw [Text.endsWith, List.isPrefixOf_iff_prefix, List.reverse_prefix] at h
    obtain ⟨t, rfl⟩ := h
    have hreturn : Text.ofString "\r" = [0x0D] := rfl
    rw [hreturn, uncommented_concat]
    simp
  · rfl

theorem lines_append_newline (t u : Text) : lines (t ++ 0x0A :: u) = Text.splitOn t 0x0A ++ lines u := by
  have hne : Text.splitOn u 0x0A ≠ [] := by
    rw [Text.splitOn_eq]
    exact List.splitOn_ne_nil _ _
  unfold lines
  dsimp only
  rw [Text.splitOn_eq, List.splitOn_append_cons_self, ← Text.splitOn_eq, ← Text.splitOn_eq,
    List.getLast?_append_of_ne_nil _ hne]
  split
  · rw [List.dropLast_append_of_ne_nil hne]
  · rfl

theorem length_splitOn (t : Text) (b : UInt8) : (Text.splitOn t b).length = t.count b + 1 := by
  rw [Text.splitOn_eq]
  induction t with
  | nil => rfl
  | cons c t ih =>
    rw [List.splitOn_cons_eq_if_modifyHead, List.count_cons]
    split <;> simp_all

/-! ## Steps -/

theorem Property.parse_shifted (n k : Nat) (body : Text) :
    Property.parse (n + k) body = (Property.parse n body).map (·.shifted k) := by
  unfold Property.parse
  split
  · rfl
  · simp only [bind, Except.bind]
    split
    · rfl
    · split
      · rfl
      · split
        · rfl
        · split <;> rfl

theorem Declaration.parse_shifted (n k : Nat) (isInterface : Bool) (body : Text) :
    Declaration.parse (n + k) isInterface body =
      (Declaration.parse n isInterface body).map (·.shifted k) := by
  unfold Declaration.parse
  simp only [bind, Except.bind]
  split
  · split
    · rfl
    · simp only [pure, Except.pure]
      split <;> rfl
  · simp only [pure, Except.pure]
    split <;> rfl

/-! ## Progress -/

namespace Progress

/-- Progress in a later text: its lines are counted on by `k`, and the declarations `ds` are there
already. -/
def moved (ds : List Declaration) (k : Nat) (p : Progress) : Progress where
  finished := p.finished.map (·.shifted k) ++ ds
  current := p.current.map (·.shifted k)

theorem close_moved (ds : List Declaration) (k : Nat) (p : Progress) :
    (p.moved ds k).close = p.close.map (·.shifted k) ++ ds := by
  unfold close moved
  cases p.current <;> rfl

theorem step_moved (ds : List Declaration) (k n : Nat) (p : Progress) (raw : Text) :
    (p.moved ds k).step (n + k) raw = (p.step n raw).map (moved ds k) := by
  unfold step
  cases Line.ofText raw with
  | blank => rfl
  | property body =>
    obtain ⟨finished, current⟩ := p
    cases current with
    | none => rfl
    | some d =>
      simp only [moved, Option.map_some, Property.parse_shifted]
      cases Property.parse n body with
      | error fault => rfl
      | ok property => simp [Except.map, bind, Except.bind, pure, Except.pure, moved,
          Declaration.shifted]
  | object isInterface body =>
    simp only [Declaration.parse_shifted, close_moved]
    cases Declaration.parse n isInterface body with
    | error fault => rfl
    | ok d => rfl

/-- Takes in a line with its number, if it is not too long. -/
def takeLine (p : Progress) (n : Nat) (raw : Text) : Except Failure Progress :=
  if lineLimit ≤ raw.length then .error (.plain "bufio.Scanner: token too long")
  else (p.step n (chomp raw)).mapError fun fault => .schemaSyntax n (chomp raw) fault.message

theorem takeLine_moved (ds : List Declaration) (k n : Nat) (p : Progress) (raw : Text) :
    (p.moved ds k).takeLine (n + k) raw =
      ((p.takeLine n raw).mapError (·.shifted k)).map (moved ds k) := by
  unfold takeLine
  split
  · rfl
  · rw [step_moved]
    cases p.step n (chomp raw) with
    | error fault => simp [Except.map, Except.mapError, Failure.shifted]
    | ok q => rfl

end Progress

theorem parseLines_cons (p : Progress) (n : Nat) (raw : Text) (rest : List Text) :
    parseLines p n (raw :: rest) = p.takeLine n raw >>= fun q => parseLines q (n + 1) rest := by
  rw [parseLines, Progress.takeLine]
  split
  · rfl
  · dsimp only
    cases p.step n (chomp raw) <;> rfl

/-- The declarations of a text after `ds`, which stand last first, with lines counted on by `k`. -/
def follow (ds : List Declaration) (k : Nat) (r : Except Failure (List Declaration)) :
    Except Failure (List Declaration) :=
  (r.mapError (·.shifted k)).map fun more => ds.reverse ++ more.map (·.shifted k)

theorem parseLines_moved (ds : List Declaration) (k n : Nat) (p : Progress) (ls : List Text) :
    parseLines (p.moved ds k) (n + k) ls = follow ds k (parseLines p n ls) := by
  induction ls generalizing p n with
  | nil => simp [parseLines, follow, Progress.close_moved, Except.mapError, Except.map]
  | cons raw rest ih =>
    rw [parseLines_cons, parseLines_cons, Progress.takeLine_moved]
    cases p.takeLine n raw with
    | error f => rfl
    | ok q =>
      rw [Nat.add_right_comm]
      exact ih (n + 1) q

/-! ## The first line that counts -/

/-- Is the first line that holds anything, if there is one, no property? -/
def startsAnew (ls : List Text) : Bool :=
  ((ls.map uncommented).find? fun t => !t.isEmpty).all fun t => t.head? != some 0x2D

theorem ofText_chomp (raw : Text) : Line.ofText (chomp raw) = Line.ofText raw := by
  rw [Line.ofText, uncommented_chomp]
  rfl

theorem startsAnew_cons (raw : Text) (rest : List Text) (h : startsAnew (raw :: rest) = true) :
    (Line.ofText raw = .blank ∧ startsAnew rest = true) ∨
      ∃ isInterface body, Line.ofText raw = .object isInterface body := by
  rw [startsAnew, List.map_cons, List.find?_cons] at h
  unfold Line.ofText
  split
  · rename_i hempty
    rw [hempty] at h
    exact .inl ⟨rfl, h⟩
  · rename_i hdash
    rw [hdash] at h
    simp at h
  · exact .inr ⟨_, _, rfl⟩
  · exact .inr ⟨_, _, rfl⟩

theorem parseLines_startsAnew {ls : List Text} (h : startsAnew ls = true) (k n : Nat)
    (q : Progress) : parseLines q (n + k) ls = follow q.close k (parseLines {} n ls) := by
  induction ls generalizing n with
  | nil => simp [parseLines, follow, Progress.close, Except.mapError, Except.map]
  | cons raw rest ih =>
    rw [parseLines_cons, parseLines_cons, Progress.takeLine, Progress.takeLine]
    split
    · rfl
    · rcases startsAnew_cons raw rest h with ⟨hblank, hrest⟩ | ⟨isInterface, body, hobject⟩
      · simp only [Progress.step, ofText_chomp, hblank]
        have hih := ih hrest (n + 1)
        rw [Nat.add_right_comm] at hih
        exact hih
      · -- from a header on, all that matters of `q` is what it closes
        simp only [Progress.step, ofText_chomp, hobject, Declaration.parse_shifted]
        cases Declaration.parse n isInterface body with
        | error fault => simp [follow, Except.map, Except.mapError, Failure.shifted, bind,
            Except.bind]
        | ok d =>
          have hmoved := parseLines_moved q.close k (n + 1) { current := some d } rest
          rw [Nat.add_right_comm] at hmoved
          exact hmoved

/-! ## Whole texts -/

theorem lines_append {s : Text} (h : s.getLast? = some 0x0A) (t : Text) :
    lines (s ++ t) = lines s ++ lines t ∧ (lines s).length = s.count 0x0A := by
  obtain ⟨u, rfl⟩ := List.getLast?_eq_some_iff.mp h
  have hs : lines (u ++ [0x0A]) = Text.splitOn u 0x0A := by
    rw [lines_append_newline]
    exact List.append_nil _
  rw [List.append_assoc, List.singleton_append, lines_append_newline, hs, length_splitOn]
  simp

theorem parseLines_append {ls₂ : List Text} (h : startsAnew ls₂ = true) (p : Progress) (n : Nat)
    (ls₁ : List Text) :
    parseLines p (n + 1) (ls₁ ++ ls₂) =
      parseLines p (n + 1) ls₁ >>= fun ds =>
        follow ds.reverse (n + ls₁.length) (parseLines {} 1 ls₂) := by
  induction ls₁ generalizing p n with
  | nil =>
    rw [List.nil_append, Nat.add_comm n 1, parseLines_startsAnew h]
    simp [parseLines, bind, Except.bind]
  | cons raw rest ih =>
    have hlength : n + (raw :: rest).length = n + 1 + rest.length := by
      rw [List.length_cons]
      omega
    rw [List.cons_append, parseLines_cons, parseLines_cons, bind_assoc, hlength]
    congr 1
    funext q
    exact ih q (n + 1)

/-- Two schema texts one after the other, of which the first ends in a line break and the second starts
anew, are read as each is read alone. The first failure is the failure of the whole; the line of one in
the second text is counted on by the lines before. Otherwise the declarations follow each other, with
the lines of the later ones counted on likewise. Declarations are given only if neither text fails. -/
theorem parse_append {s₁ s₂ : Text} (h₁ : s₁.getLast? = some 0x0A)
    (h₂ : startsAnew (lines s₂) = true) :
    (∀ f, parse s₁ = .error f → parse (s₁ ++ s₂) = .error f) ∧
    (∀ ds₁ f, parse s₁ = .ok ds₁ → parse s₂ = .error f →
      parse (s₁ ++ s₂) = .error (f.shifted (s₁.count 0x0A))) ∧
    (∀ ds₁ ds₂, parse s₁ = .ok ds₁ → parse s₂ = .ok ds₂ →
      parse (s₁ ++ s₂) = .ok (ds₁ ++ ds₂.map (·.shifted (s₁.count 0x0A)))) ∧
    ∀ ds, parse (s₁ ++ s₂) = .ok ds →
      (∃ ds₁, parse s₁ = .ok ds₁) ∧ ∃ ds₂, parse s₂ = .ok ds₂ := by
  obtain ⟨hlines, hlength⟩ := lines_append h₁ s₂
  have hparse : parse (s₁ ++ s₂) =
      parse s₁ >>= fun ds => follow ds.reverse (s₁.count 0x0A) (parse s₂) := by
    rw [parse, hlines, parseLines_append h₂, hlength]
    simp only [Nat.zero_add]
    rfl
  rw [hparse]
  refine ⟨?_, ?_, ?_, ?_⟩
  · intro f hf
    rw [hf]
    rfl
  · intro ds₁ f hds₁ hf
    rw [hds₁, hf]
    rfl
  · intro ds₁ ds₂ hds₁ hds₂
    rw [hds₁, hds₂]
    simp [follow, bind, Except.bind, Except.mapError, Except.map]
  · intro ds hds
    cases hds₁ : parse s₁ with
    | error f =>
      rw [hds₁] at hds
      cases hds
    | ok ds₁ =>
      cases hds₂ : parse s₂ with
      | error f =>
        rw [hds₁, hds₂] at hds
        cases hds
      | ok ds₂ => exact ⟨⟨ds₁, rfl⟩, ds₂, rfl⟩

/-- A text with a remark and an empty line at its end. -/
def itemText : Text := "Item\n- \"id\" => Id: long // key\n\n"

/-- A text that starts with a remark and fails in its third line. -/
def brokenText : Text := "// more\n:Tagged\n- tag string\n"

/-- The failure in the third line of the second text is one in the sixth line of both. -/
theorem parse_append_brokenText :
    itemText.getLast? = some 0x0A ∧ startsAnew (lines brokenText) = true ∧
      parse itemText = .ok [{ name := "Item", line := 1, properties :=
        [{ key := "id", name := "Id", type := "long", line := 2 }] }] ∧
      parse brokenText = .error (.schemaSyntax 3 "- tag string" "unable to parse property type") ∧
      parse (itemText ++ brokenText) =
        .error (.schemaSyntax 6 "- tag string" "unable to parse property type") := by
  have hlast : itemText.getLast? = some 0x0A := by decide +kernel
  have hanew : startsAnew (lines brokenText) = true := by decide +kernel
  have hitem : parse itemText = .ok [{ name := "Item", line := 1, properties :=
      [{ key := "id", name := "Id", type := "long", line := 2 }] }] := by decide +kernel
  have hbroken : parse brokenText =
      .error (.schemaSyntax 3 "- tag string" "unable to parse property type") := by decide +kernel
  have hcount : itemText.count 0x0A = 3 := by decide +kernel
  have hfails := (parse_append hlast hanew).2.1 _ _ hitem hbroken
  rw [hcount] at hfails
  exact ⟨hlast, hanew, hitem, hbroken, hfails⟩

end Schema

end WireSchema
