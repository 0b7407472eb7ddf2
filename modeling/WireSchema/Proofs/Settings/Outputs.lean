import WireSchema.Proofs.Lists
import WireSchema.Proofs.Workspace.Places
import WireSchema.Settings.Load

/-!
# Outputs of targets

The settings of a project are refused when two targets have one output. Outputs are compared as they
stand once they are seen from the directory of the settings, which brings relative paths to their
shortest form and leaves absolute ones as they are written. So two targets of accepted settings write
to one place only through an absolute path that is longer than it need be.
-/

namespace WireSchema

/-! ## Shortest paths -/

namespace Path

/-- A part leaves the parts before it alone, takes the last one back, or is added to them. -/
theorem step_cases (rooted : Bool) (acc : List Text) (part : Text) :
    step rooted acc part = acc ∨ step rooted acc part = acc.tail ∨
      step rooted acc part = part :: acc := by
  unfold step
  split
  · exact .inl rfl
  · split
    · cases acc with
      | nil => cases rooted <;> simp
      | cons last rest =>
        dsimp only
        split
        · exact .inr (.inr rfl)
        · exact .inr (.inl rfl)
    · exact .inr (.inr rfl)

/-- Parts, last first, each of which is added to those before it. -/
inductive Stands (rooted : Bool) : List Text → Prop
  | nil : Stands rooted []
  | cons {acc : List Text} {part : Text} (hacc : Stands rooted acc)
      (hstep : step rooted acc part = part :: acc) : Stands rooted (part :: acc)

theorem Stands.step {rooted : Bool} {acc : List Text} (h : Stands rooted acc) (part : Text) :
    Stands rooted (step rooted acc part) := by
  rcases step_cases rooted acc part with hstep | hstep | hstep
  · rwa [hstep]
  · rw [hstep]
    cases h with
    | nil => exact .nil
    | cons hacc => exact hacc
  · rw [hstep]
    exact .cons h hstep

theorem Stands.foldl {rooted : Bool} {acc : List Text} (h : Stands rooted acc) (names : List Text) :
    Stands rooted (names.foldl (Path.step rooted) acc) := by
  induction names generalizing acc with
  | nil => exact h
  | cons name names ih => exact ih (h.step name)

theorem Stands.foldl_reverse {rooted : Bool} {acc : List Text} (h : Stands rooted acc) :
    acc.reverse.foldl (Path.step rooted) [] = acc := by
  induction h with
  | nil => rfl
  | cons hacc hstep ih => rw [List.reverse_cons, List.foldl_concat, ih, hstep]

theorem foldl_parts (p : Text) : (parts p).foldl (step (isAbsolute p)) [] = (parts p).reverse := by
  have hstart : Stands (isAbsolute p) [] := .nil
  have hstands := hstart.foldl (Text.splitOn p 0x2F)
  rw [parts, hstands.foldl_reverse, List.reverse_reverse]

theorem foldl_splitOn_join {names : List Text} (h : ∀ q ∈ names, IsPart q) (rooted : Bool) :
    (Text.splitOn (Text.join "/" names) 0x2F).foldl (step rooted) [] =
      names.foldl (step rooted) [] := by
  by_cases hne : names = []
  · subst hne
    rfl
  · have hsplit : List.splitOn 0x2F (Text.join "/" names) = names :=
      List.splitOn_intercalate 0x2F (fun q hq => (h q hq).slash) hne
    rw [Text.splitOn_eq, hsplit]

theorem isAbsolute_join {names : List Text} (h : ∀ q ∈ names, IsPart q) :
    isAbsolute (Text.join "/" names) = false := by
  cases names with
  | nil => rfl
  | cons name names =>
    obtain ⟨b, rest, hname⟩ := List.exists_cons_of_ne_nil (h name (by simp)).ne_nil
    have hb : b ≠ 0x2F := by
      rintro rfl
      exact (h name (by simp)).slash (by simp [hname])
    cases names <;> simp [isAbsolute, Text.join, hname, hb]

theorem join_eq_nil {names : List Text} (h : ∀ q ∈ names, IsPart q)
    (hjoin : Text.join "/" names = []) : names = [] := by
  cases names with
  | nil => rfl
  | cons name names =>
    have hne := (h name (by simp)).ne_nil
    cases names <;> simp [Text.join, hne] at hjoin

def ofParts (rooted : Bool) (names : List Text) : Text :=
  if rooted then "/" ++ Text.join "/" names
  else if (Text.join "/" names).isEmpty then "." else Text.join "/" names

theorem clean_eq (p : Text) : clean p = ofParts (isAbsolute p) (parts p) := rfl

theorem clean_ne_nil (p : Text) : clean p ≠ [] := by
  rw [clean_eq, ofParts]
  split
  · exact List.cons_ne_nil _ _
  · split
    · exact List.cons_ne_nil _ _
    · rename_i h
      rwa [List.isEmpty_iff] at h

theorem isAbsolute_clean (p : Text) : isAbsolute (clean p) = isAbsolute p := by
  rw [clean_eq, ofParts]
  cases isAbsolute p with
  | true => rfl
  | false =>
    rw [if_neg Bool.false_ne_true]
    split
    · rfl
    · exact isAbsolute_join (isPart_parts p)

theorem parts_clean (p : Text) : parts (clean p) = parts p := by
  have hparts := isPart_parts p
  have hfold := (foldl_splitOn_join hparts (isAbsolute p)).trans (foldl_parts p)
  rw [parts, isAbsolute_clean, List.reverse_eq_iff, ← hfold]
  cases habsolute : isAbsolute p with
  | true =>
    have hclean : clean p = [] ++ 0x2F :: Text.join "/" (parts p) := by
      rw [clean_eq, ofParts, habsolute]
      rfl
    rw [hclean, Text.splitOn_eq, List.splitOn_append_cons_self, List.foldl_append,
      Text.splitOn_eq]
    rfl
  | false =>
    rw [clean_eq, ofParts, habsolute, if_neg Bool.false_ne_true]
    split
    · rename_i hempty
      rw [join_eq_nil hparts (List.isEmpty_iff.mp hempty)]
      rfl
    · rfl

/-- A shortest path cannot be made shorter. -/
theorem clean_clean (p : Text) : clean (clean p) = clean p := by
  rw [clean_eq (clean p), isAbsolute_clean, parts_clean, clean_eq]

theorem clean_eq_clean_iff {p q : Text} : clean p = clean q ↔ Place.ofPath p = Place.ofPath q := by
  constructor
  · intro h
    have habsolute : isAbsolute p = isAbsolute q := by
      rw [← isAbsolute_clean p, h, isAbsolute_clean]
    rw [Place.ofPath, Place.ofPath, h, habsolute]
  · intro h
    rw [Place.ofPath_eq, Place.ofPath_eq, Place.start, Place.start] at h
    -- no part is a slash, so the place tells where the path starts
    have hslash : ∀ r : Text, Text.ofString "/" ∉ parts r := by
      intro r hr
      exact (isPart_parts r _ hr).slash (by decide)
    rw [clean_eq, clean_eq]
    cases hp : isAbsolute p <;> cases hq : isAbsolute q <;> simp only [hp, hq, if_true,
      Bool.false_eq_true, if_false, List.nil_append, List.cons_append] at h
    · rw [h]
    · exact absurd (h ▸ List.mem_cons_self) (hslash p)
    · exact absurd (h ▸ List.mem_cons_self) (hslash q)
    · rw [(List.cons.inj h).2]

theorem clean_join {dir p : Text} (h : p ≠ []) : clean (join dir p) = join dir p := by
  unfold join
  split
  · rw [if_neg (by rwa [List.isEmpty_iff])]
    exact clean_clean p
  · exact clean_clean _

end Path

namespace Settings

/-! ## Targets that are accepted -/

theorem located_ne_nil {dir p : Text} (h : p ≠ []) : located dir p ≠ [] := by
  unfold located
  split
  · exact h
  · rw [← Path.clean_join h]
    exact Path.clean_ne_nil _

/-- An output that is relative, or absolute and in its shortest form. -/
def Plain (p : Text) : Prop := Path.isAbsolute p = true → Path.clean p = p

theorem clean_located {dir p : Text} (hne : p ≠ []) (hplain : Plain p) :
    Path.clean (located dir p) = located dir p := by
  have hempty : p.isEmpty = false := by rwa [List.isEmpty_eq_false_iff]
  rw [located, hempty, Bool.false_or]
  split
  · rename_i habsolute
    exact hplain habsolute
  · exact Path.clean_join hne

/-- The input, the class and the access of a target are in order. -/
@[mk_iff]
structure Sound (t : CompileTarget) : Prop where
  input : t.input ≠ []
  className : ∃ c, Class.parse t.className = .ok c
  access : ∃ a, Access.parse t.access = .ok a

def Apart (t u : CompileTarget) : Prop := t.output = u.output → t.output = []

theorem Apart.symm {t u : CompileTarget} (h : Apart t u) : Apart u t :=
  fun heq => heq.trans (h heq.symm)

theorem checkTargets_cons {i : Nat} {outputs : List (Text × Nat)} {t : CompileTarget}
    {rest : List CompileTarget} :
    checkTargets i outputs (t :: rest) = .ok () ↔ Sound t ∧
      if t.output = [] then checkTargets (i + 1) outputs rest = .ok ()
      else t.output ∉ outputs.map (·.1) ∧
        checkTargets (i + 1) ((t.output, i) :: outputs) rest = .ok () := by
  rw [checkTargets, sound_iff]
  split
  · rename_i hinput
    simp [List.isEmpty_iff.mp hinput, bind, Except.bind]
  · rename_i hinput
    rw [List.isEmpty_iff] at hinput
    simp only [bind_eq_ok_iff, mapError_eq_ok_iff, List.isEmpty_iff, exists_and_right, hinput, ne_eq,
      not_false_eq_true, true_and, and_assoc]
    refine and_congr_right fun _ => and_congr_right fun _ => ?_
    split
    · rfl
    · split
      · rename_i j hlookup
        obtain ⟨before, after, rfl, -⟩ := List.lookup_eq_some_iff.mp hlookup
        simp
      · rename_i hlookup
        refine (and_iff_right ?_).symm
        intro hmem
        obtain ⟨x, hx, heq⟩ := List.mem_map.mp hmem
        exact bne_iff_ne.mp (List.lookup_eq_none_iff.mp hlookup x hx) heq.symm

theorem checkTargets_eq_ok_iff {i : Nat} {outputs : List (Text × Nat)} {ts : List CompileTarget} :
    checkTargets i outputs ts = .ok () ↔ (∀ t ∈ ts, Sound t) ∧ ts.Pairwise Apart ∧
      ∀ t ∈ ts, t.output ∈ outputs.map (·.1) → t.output = [] := by
  induction ts generalizing i outputs with
  | nil => simp [checkTargets]
  | cons t rest ih =>
    rw [checkTargets_cons, List.forall_mem_cons, List.forall_mem_cons, List.pairwise_cons, and_assoc]
    refine and_congr_right fun _ => ?_
    split
    · rename_i hempty
      have hapart : ∀ u ∈ rest, Apart t u := fun u _ _ => hempty
      rw [ih, and_iff_right hapart, and_iff_right fun _ => hempty]
    · rename_i hne
      have hnew : (t.output ∈ outputs.map (·.1) → t.output = []) ↔ t.output ∉ outputs.map (·.1) :=
        ⟨fun h hmem => hne (h hmem), fun h hmem => absurd hmem h⟩
      have hrest : (∀ u ∈ rest, u.output ∈ t.output :: outputs.map (·.1) → u.output = []) ↔
          (∀ u ∈ rest, Apart t u) ∧ ∀ u ∈ rest, u.output ∈ outputs.map (·.1) → u.output = [] := by
        rw [← forall₂_and]
        refine forall₂_congr fun u _ => ?_
        rw [List.mem_cons, or_imp]
        refine and_congr_left fun _ => ⟨fun h heq => heq.trans (h heq.symm), fun h heq => ?_⟩
        exact heq.trans (h heq.symm)
      rw [ih, List.map_cons, hrest, hnew]
      tauto

theorem checkTargets_of_check {s : Settings} (h : s.check = .ok ()) :
    checkTargets 0 [] s.targets = .ok () := by
  obtain ⟨_, -, h⟩ := bind_eq_ok_iff.mp h
  cases hformat : formats.contains s.format with
  | false =>
    rw [hformat] at h
    cases h
  | true =>
    rw [hformat] at h
    cases htargets : s.targets.isEmpty with
    | true =>
      rw [htargets] at h
      cases h
    | false =>
      rw [htargets] at h
      exact h

/-! ## Outputs of accepted settings -/

/-- Where two targets stand in accepted settings, their outputs differ if both have one. -/
theorem output_ne_of_check {s : Settings} (h : s.check = .ok ()) {i j : Nat} (hij : i ≠ j)
    {t u : CompileTarget} (hi : s.targets[i]? = some t) (hj : s.targets[j]? = some u)
    (ht : t.output ≠ []) : t.output ≠ u.output := by
  obtain ⟨-, hapart, -⟩ := checkTargets_eq_ok_iff.mp (checkTargets_of_check h)
  rw [List.pairwise_iff_getElem] at hapart
  obtain ⟨hilt, rfl⟩ := List.getElem?_eq_some_iff.mp hi
  obtain ⟨hjlt, rfl⟩ := List.getElem?_eq_some_iff.mp hj
  intro heq
  rcases Nat.lt_or_gt_of_ne hij with hlt | hlt
  · exact ht (hapart i j hilt hjlt hlt heq)
  · exact ht ((hapart j i hjlt hilt hlt).symm heq)

/-- **Targets write different files.** Of settings that are accepted once they are seen from a directory,
take two targets with outputs, each relative or in its shortest form. Then the outputs have different
shortest forms, and lead to different places. -/
theorem outputs_apart {s : Settings} {dir : Text} (h : (s.completed dir).check = .ok ()) {i j : Nat}
    (hij : i ≠ j) {t u : CompileTarget} (hi : s.targets[i]? = some t) (hj : s.targets[j]? = some u)
    (ht : t.output ≠ []) (hu : u.output ≠ []) (htplain : Plain t.output)
    (huplain : Plain u.output) :
    Path.clean (located dir t.output) ≠ Path.clean (located dir u.output) ∧
      Place.ofPath (located dir t.output) ≠ Place.ofPath (located dir u.output) := by
  have hcompleted {k : Nat} {v : CompileTarget} (hk : s.targets[k]? = some v) :
      (s.completed dir).targets[k]? =
        some { v with input := located dir v.input, output := located dir v.output } := by
    simp [completed, hk]
  have hne : located dir t.output ≠ located dir u.output :=
    output_ne_of_check h hij (hcompleted hi) (hcompleted hj) (located_ne_nil ht)
  have hclean : Path.clean (located dir t.output) ≠ Path.clean (located dir u.output) := by
    rwa [clean_located ht htplain, clean_located hu huplain]
  exact ⟨hclean, fun hplace => hclean (Path.clean_eq_clean_iff.mpr hplace)⟩

/-- Two outputs in a directory above that of the settings, one of them by its absolute path. -/
def neighbours : Settings where
  targets :=
    [{ input := "a.schema", output := "gen//../../x.go", className := "shop.Codec" },
      { input := "b.schema", className := "shop.Codec" },
      { input := "b.schema", output := "/x.gox", className := "shop.Codec", access := "internal" }]

theorem outputs_apart_neighbours :
    (neighbours.completed "/w").check = .ok () ∧ Plain "gen//../../x.go" ∧ Plain "/x.gox" ∧
      Path.clean (located "/w" "gen//../../x.go") ≠ Path.clean (located "/w" "/x.gox") ∧
      Place.ofPath (located "/w" "gen//../../x.go") ≠ Place.ofPath (located "/w" "/x.gox") := by
  have hcheck : (neighbours.completed "/w").check = .ok () := by decide +kernel
  have hrelative : Plain "gen//../../x.go" := by
    intro habsolute
    cases habsolute
  have habsolute : Plain "/x.gox" := fun _ => by decide +kernel
  exact ⟨hcheck, hrelative, habsolute, outputs_apart hcheck (i := 0) (j := 2) (by decide) rfl rfl
    (by decide) (by decide) hrelative habsolute⟩

/-- Two targets with one output, which the second writes with a part that says nothing. -/
def aliased : Settings where
  targets :=
    [{ input := "a.schema", output := "/w/x.go", className := "shop.Codec" },
      { input := "b.schema", output := "/w/./x.go", className := "shop.Codec" }]

/-- Settings are accepted although two targets write one file. -/
theorem aliased_accepted :
    (aliased.completed "/w").check = .ok () ∧ ∃ t u : CompileTarget,
      (aliased.completed "/w").targets = [t, u] ∧ t.output ≠ [] ∧ u.output ≠ [] ∧
      Path.clean t.output = Path.clean u.output ∧
      Place.ofPath t.output = Place.ofPath u.output := by
  refine ⟨by decide +kernel, _, _, rfl, ?_⟩
  decide +kernel

end Settings

end WireSchema
