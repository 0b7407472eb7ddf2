import WireSchema.Proofs.Text.Cutting
import WireSchema.Workspace

/-!
# Places and files

A path that leads anywhere leads to the place that its text names, and goes on doing so when files and
directories are added. What is written to a place can be read there, and files at other places stay as
they are.
-/

namespace WireSchema

/-! ## Places by name -/

namespace Place

def go (p : Place) (name : Text) : Place :=
  if name == "" || name == "." then p else if name == ".." then p.parent else p ++ [name]

def start (path : Text) : Place := if Path.isAbsolute path then [Text.ofString "/"] else []

end Place

namespace Path

structure IsPart (part : Text) : Prop where
  slash : 0x2F ∉ part
  ne_nil : part ≠ []
  ne_dot : part ≠ Text.ofString "."

theorem isPart_step {rooted : Bool} {parts : List Text} {part : Text}
    (hparts : ∀ q ∈ parts, IsPart q) (hpart : 0x2F ∉ part) :
    ∀ q ∈ step rooted parts part, IsPart q := by
  unfold step
  split
  · exact hparts
  · rename_i hname
    have hpart' : IsPart part := by
      simp only [Bool.or_eq_true, beq_iff_eq, not_or] at hname
      exact ⟨hpart, hname.1, hname.2⟩
    have hcons : ∀ q ∈ part :: parts, IsPart q := by
      intro q hq
      rcases List.mem_cons.mp hq with rfl | hq
      · exact hpart'
      · exact hparts q hq
    split
    · split
      · rename_i last rest
        split
        · exact hcons
        · exact fun q hq => hparts q (List.mem_cons_of_mem last hq)
      · split
        · simp
        · simpa using hpart'
    · exact hcons

/-- The parts of the shortest path with the same meaning. -/
def parts (path : Text) : List Text :=
  ((Text.splitOn path 0x2F).foldl (step (isAbsolute path)) []).reverse

theorem isPart_parts (path : Text) : ∀ q ∈ parts path, IsPart q := by
  have hfold : ∀ (names acc : List Text), (∀ name ∈ names, 0x2F ∉ name) → (∀ q ∈ acc, IsPart q) →
      ∀ q ∈ names.foldl (step (isAbsolute path)) acc, IsPart q := by
    intro names
    induction names with
    | nil => exact fun acc _ hacc => hacc
    | cons name names ih =>
      intro acc hnames hacc
      exact ih _ (fun n hn => hnames n (List.mem_cons_of_mem name hn))
        (isPart_step hacc (hnames name List.mem_cons_self))
  intro q hq
  refine hfold (Text.splitOn path 0x2F) [] (fun _ => Text.not_mem_of_mem_splitOn) (by simp) q ?_
  exact List.mem_reverse.mp hq

end Path

namespace Place

theorem filter_splitOn_join {names : List Text} (h : ∀ q ∈ names, Path.IsPart q) :
    (Text.splitOn (Text.join "/" names) 0x2F).filter
      (fun (name : Text) => name != "" && name != ".") = names := by
  by_cases hne : names = []
  · subst hne
    rfl
  · have hsplit : List.splitOn 0x2F (Text.join "/" names) = names :=
      List.splitOn_intercalate 0x2F (fun q hq => (h q hq).slash) hne
    rw [Text.splitOn_eq, hsplit, List.filter_eq_self]
    intro q hq
    simp only [Bool.and_eq_true, bne_iff_ne]
    exact ⟨(h q hq).ne_nil, (h q hq).ne_dot⟩

theorem ofPath_eq (path : Text) : ofPath path = start path ++ Path.parts path := by
  have hfilter := filter_splitOn_join (Path.isPart_parts path)
  unfold ofPath start
  dsimp only
  have hclean : (Text.splitOn (Path.clean path) 0x2F).filter
      (fun (name : Text) => name != "" && name != ".") = Path.parts path := by
    unfold Path.clean
    dsimp only
    rw [← Path.parts]
    split
    · have hslash : Text.ofString "/" ++ Text.join "/" (Path.parts path) =
          [] ++ 0x2F :: Text.join "/" (Path.parts path) := rfl
      rw [hslash, Text.splitOn_eq, List.splitOn_append_cons_self, ← Text.splitOn_eq (Text.join _ _),
        List.filter_append, hfilter]
      rfl
    · split
      · rename_i hempty
        rw [List.isEmpty_iff.mp hempty] at hfilter
        rw [← hfilter]
        rfl
      · exact hfilter
  rw [hclean]
  split <;> rfl

theorem go_eq {path : Text} {acc : List Text} (hacc : ∀ q ∈ acc, Path.IsPart q) (name : Text) :
    go (start path ++ acc.reverse) name =
      start path ++ (Path.step (Path.isAbsolute path) acc name).reverse := by
  unfold go Path.step
  split
  · rfl
  · split
    · rename_i hup
      cases acc with
      | nil =>
        unfold start
        rw [eq_of_beq hup]
        cases Path.isAbsolute path <;> rfl
      | cons last rest =>
        have hslash : last ≠ Text.ofString "/" := by
          intro h
          exact (hacc last List.mem_cons_self).slash (h ▸ by decide)
        rw [parent, List.reverse_cons, ← List.append_assoc, List.getLast?_concat]
        simp only [beq_iff_eq, hslash, if_false]
        split
        · simp [eq_of_beq hup]
        · simp
    · simp

theorem foldl_go (path : Text) :
    (Text.splitOn path 0x2F).foldl go (start path) = ofPath path := by
  have hfold : ∀ (names acc : List Text), (∀ name ∈ names, 0x2F ∉ name) →
      (∀ q ∈ acc, Path.IsPart q) → names.foldl go (start path ++ acc.reverse) =
        start path ++ (names.foldl (Path.step (Path.isAbsolute path)) acc).reverse := by
    intro names
    induction names with
    | nil => exact fun acc _ _ => rfl
    | cons name names ih =>
      intro acc hnames hacc
      rw [List.foldl_cons, List.foldl_cons, go_eq hacc]
      exact ih _ (fun n hn => hnames n (List.mem_cons_of_mem name hn))
        (Path.isPart_step hacc (hnames name List.mem_cons_self))
  have h := hfold (Text.splitOn path 0x2F) [] (fun _ => Text.not_mem_of_mem_splitOn) (by simp)
  rw [List.reverse_nil, List.append_nil] at h
  rw [h, ofPath_eq, Path.parts]

end Place

namespace Workspace

variable {w w' : Workspace}

theorem eq_foldl_of_follow {p q : Place} {names : List Text} (h : w.follow p names = .ok q) :
    q = names.foldl Place.go p := by
  fun_induction follow w p names with
  | case1 => exact (Except.ok.inj h).symm
  | case2 => cases h
  | case3 => cases h
  | case4 p name rest _ _ hstay ih =>
    rw [List.foldl_cons, Place.go, if_pos hstay]
    exact ih h
  | case5 p name rest _ _ hstay hup ih =>
    rw [List.foldl_cons, Place.go, if_neg hstay, if_pos hup]
    exact ih h
  | case6 p name rest _ _ hstay hup ih =>
    rw [List.foldl_cons, Place.go, if_neg hstay, if_neg hup]
    exact ih h

theorem eq_ofPath_of_locate {path : Text} {p : Place} (h : w.locate path = .ok p) :
    p = Place.ofPath path := by
  unfold locate at h
  split at h
  · cases h
  split at h
  · cases h
  split at h
  · cases h
  · rw [← Place.foldl_go]
    exact eq_foldl_of_follow h

/-! ## Adding to a workspace -/

/-- What is a directory stays one. -/
def Extends (w w' : Workspace) : Prop := ∀ p, w.isDirectory p = true → w'.isDirectory p = true

theorem Extends.refl (w : Workspace) : w.Extends w := fun _ h => h

theorem Extends.trans {w'' : Workspace} (h : w.Extends w') (h' : w'.Extends w'') : w.Extends w'' :=
  fun p hp => h' p (h p hp)

theorem follow_of_extends (hext : w.Extends w') {p q : Place} {names : List Text}
    (h : w.follow p names = .ok q) : w'.follow p names = .ok q := by
  fun_induction follow w p names with
  | case1 => exact h
  | case2 => cases h
  | case3 => cases h
  | case4 p name rest hdir hlong hstay ih =>
    have hdir' := hext p (by simpa using hdir)
    rw [follow, hdir', if_neg (by simp), if_neg hlong, if_pos hstay]
    exact ih h
  | case5 p name rest hdir hlong hstay hup ih =>
    have hdir' := hext p (by simpa using hdir)
    rw [follow, hdir', if_neg (by simp), if_neg hlong, if_neg hstay, if_pos hup]
    exact ih h
  | case6 p name rest hdir hlong hstay hup ih =>
    have hdir' := hext p (by simpa using hdir)
    rw [follow, hdir', if_neg (by simp), if_neg hlong, if_neg hstay, if_neg hup]
    exact ih h

theorem locate_of_extends (hext : w.Extends w') {path : Text} {p : Place}
    (h : w.locate path = .ok p) : w'.locate path = .ok p := by
  unfold locate at h ⊢
  split at h
  · cases h
  rename_i hempty
  split at h
  · cases h
  rename_i hzero
  split at h
  · cases h
  rename_i hlong
  rw [if_neg hempty, if_neg hzero, if_neg hlong]
  exact follow_of_extends hext h

theorem read_eq_ok_iff {path t : Text} :
    w.read path = .ok t ↔
      w.locate path = .ok (Place.ofPath path) ∧ w.fileAt? (Place.ofPath path) = some t := by
  unfold read
  cases hlocate : w.locate path with
  | error fault => simp
  | ok p =>
    obtain rfl := eq_ofPath_of_locate hlocate
    cases hfile : w.fileAt? (Place.ofPath path) with
    | some u => simp [hfile]
    | none =>
      simp only [hfile]
      split <;> simp

/-- What can be read can still be read when directories are added and its file stays. -/
theorem read_of_extends (hext : w.Extends w') {path t : Text} (h : w.read path = .ok t)
    (hfile : w'.fileAt? (Place.ofPath path) = w.fileAt? (Place.ofPath path)) :
    w'.read path = .ok t := by
  rw [read_eq_ok_iff] at h ⊢
  exact ⟨locate_of_extends hext h.1, hfile.trans h.2⟩

/-! ## Making directories and writing files -/

theorem makeEach_spec {start : Place} {names : List Text} (h : w.makeEach start names = .ok w') :
    w'.files = w.files ∧ w.Extends w' := by
  fun_induction makeEach w start names with
  | case1 =>
    obtain rfl := Except.ok.inj h
    exact ⟨rfl, .refl _⟩
  | case2 => cases h
  | case3 => cases h
  | case4 w start name rest p _ _ _ ih => exact ih h
  | case5 w start name rest p _ _ _ ih =>
    obtain ⟨hfiles, hext⟩ := ih h
    refine ⟨hfiles, Extends.trans (fun q hq => ?_) hext⟩
    unfold isDirectory at hq ⊢
    simp only [List.contains_cons, Bool.or_eq_true] at hq ⊢
    tauto

theorem makeDirectory_spec {path : Text} (h : w.makeDirectory path = .ok w') :
    w'.files = w.files ∧ w.Extends w' := by
  unfold makeDirectory at h
  split at h
  · exact makeEach_spec h
  · exact makeEach_spec h

theorem lookup_setFile (p q : Place) (t : Text) (files : List (Place × Text)) :
    (setFile p t files).lookup q = if q = p then some t else files.lookup q := by
  induction files with
  | nil =>
    by_cases h : q = p
    · simp [setFile, h]
    · simp [setFile, List.lookup_cons, h, beq_false_of_ne h]
  | cons f files ih =>
    obtain ⟨r, u⟩ := f
    unfold setFile
    split
    · rename_i hr
      obtain rfl : r = p := eq_of_beq hr
      by_cases h : q = r
      · simp [h]
      · simp [List.lookup_cons, h, beq_false_of_ne h]
    · rename_i hr
      by_cases h : q = r
      · subst h
        have hq : q ≠ p := fun hq => hr (beq_iff_eq.mpr hq)
        simp [hq]
      · simp [List.lookup_cons, beq_false_of_ne h, ih]

theorem any_setFile (p : Place) (t : Text) {files : List (Place × Text)} {f : Place → Bool}
    (h : files.any (fun e => f e.1) = true) : (setFile p t files).any (fun e => f e.1) = true := by
  induction files with
  | nil => simp at h
  | cons e files ih =>
    unfold setFile
    rw [List.any_cons, Bool.or_eq_true] at h
    split
    · rename_i he
      rw [eq_of_beq he] at h
      simpa using h
    · rw [List.any_cons, Bool.or_eq_true]
      exact h.imp id ih

theorem write_spec {path t : Text} (h : w.write path t = .ok w') :
    w'.read path = .ok t ∧ w.Extends w' ∧
      ∀ p, p ≠ Place.ofPath path → w'.fileAt? p = w.fileAt? p := by
  unfold write at h
  split at h
  · cases h
  rename_i p hlocate
  obtain rfl := eq_ofPath_of_locate hlocate
  split at h
  · cases h
  split at h
  · cases h
  obtain rfl := Except.ok.inj h
  have hext : w.Extends { w with files := setFile (Place.ofPath path) t w.files } := by
    intro q hq
    unfold isDirectory at hq ⊢
    simp only [Bool.or_eq_true] at hq ⊢
    exact hq.imp id (any_setFile (f := fun r => q.isPrefixOf r && decide (q.length < r.length)) _ _)
  refine ⟨?_, hext, fun p hp => ?_⟩
  · rw [read_eq_ok_iff]
    exact ⟨locate_of_extends hext hlocate, by simp [fileAt?, lookup_setFile]⟩
  · simp [fileAt?, lookup_setFile, hp]

end Workspace

end WireSchema
