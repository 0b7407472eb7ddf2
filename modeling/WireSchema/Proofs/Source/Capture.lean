import WireSchema.Path
import WireSchema.Proofs.Model.Names
import WireSchema.Proofs.Source.Implementors

/-!
# Captured names

Generated code uses names that its file does not declare: the packages it imports, and identifiers
that every Go file has from the start. A declaration of the package that takes such a name captures
it. Only package-only access lets that happen, since the names of a file otherwise begin with a
capital, and then exactly if the serializer or a data type is named like one of them up to its first
letter.
-/

namespace WireSchema

/-! ## First letters -/

/-- The letters whose small form is the given small letter: the letter itself and its capital, and for
`i` and `k` one more, which is the capital with a dot and the sign for Kelvin. -/
def initials (x : Char) : List Char :=
  x :: upperChar x :: (if x = 'i' then ['\u0130'] else if x = 'k' then ['\u212A'] else [])

theorem lowerRuns_ascii : ∀ run ∈ lowerRuns, run.2.2.2 < 0x80 →
    run = (0x41, 0x5A, 1, 0x61) ∨ run = (0x130, 0x130, 1, 0x69) ∨ run = (0x212A, 0x212A, 1, 0x6B) := by
  decide +kernel

theorem toNat_of_isLower {x : Char} (h : x.isLower = true) : 0x61 ≤ x.toNat ∧ x.toNat ≤ 0x7A := by
  have hvalue : (decide (x.val ≥ 'a'.val) && decide (x.val ≤ 'z'.val)) = true := h
  simpa [UInt32.le_iff_toNat_le] using hvalue

/-- A fact about each small letter is one about 26 numbers. -/
theorem forall_isLower {P : Char → Prop} (h : ∀ n < 26, P (Char.ofNat (n + 0x61))) {x : Char}
    (hx : x.isLower = true) : P x := by
  obtain ⟨hlow, hhigh⟩ := toNat_of_isLower hx
  have hP := h (x.toNat - 0x61) (by omega)
  rwa [Nat.sub_add_cancel hlow, Char.ofNat_toNat] at hP

theorem toNat_upperChar {x : Char} (h : x.isLower = true) : (upperChar x).toNat + 0x20 = x.toNat :=
  forall_isLower (P := fun x => (upperChar x).toNat + 0x20 = x.toNat) (by decide) h

theorem isLower_upperChar (c : Char) : (upperChar c).isLower = false := by
  by_contra hlower
  rw [Bool.not_eq_false] at hlower
  obtain ⟨hlow, hhigh⟩ := toNat_of_isLower hlower
  rcases upperChar_cases c with hc | hc | hc
  · rw [hc] at hlower
    have := toNat_upperChar hlower
    rw [hc] at this
    omega
  · omega
  · omega

theorem map_of_lowerChar {c x : Char} (hx : x.isLower = true) (h : lowerChar c = x) :
    CaseRun.map lowerRuns c.toNat = x.toNat := by
  by_cases hvalid : (CaseRun.map lowerRuns c.toNat).isValidChar
  · rw [← Text.toNat_ofNat_valid hvalid]
    exact congrArg Char.toNat h
  · have hzero : lowerChar c = '\x00' := by
      rw [lowerChar, Char.ofNat, dif_neg hvalid]
      rfl
    rw [← h, hzero] at hx
    exact absurd hx (by decide)

theorem mem_initials_of_lowerChar {c x : Char} (hx : x.isLower = true) (h : lowerChar c = x) :
    c ∈ initials x := by
  obtain ⟨hlow, hhigh⟩ := toNat_of_isLower hx
  have hmap := map_of_lowerChar hx h
  rcases CaseRun.map_cases lowerRuns c.toNat with hsame | ⟨run, hrun, hfirst, hlast, hrunmap⟩
  · rw [hsame] at hmap
    rw [Char.toNat_inj.mp hmap]
    exact .head _
  -- only three runs of the table lead to ASCII
  rcases lowerRuns_ascii run hrun (by omega) with rfl | rfl | rfl <;>
    dsimp only at hfirst hlast hrunmap
  · have hupper := toNat_upperChar hx
    rw [show c = upperChar x from Char.toNat_inj.mp (by omega)]
    exact .tail _ (.head _)
  · rw [show x = 'i' from Char.toNat_inj.mp (by simp; omega),
      show c = '\u0130' from Char.toNat_inj.mp (by simp; omega)]
    decide
  · rw [show x = 'k' from Char.toNat_inj.mp (by simp; omega),
      show c = '\u212A' from Char.toNat_inj.mp (by simp; omega)]
    decide

theorem lowerChar_of_mem_initials {c x : Char} (hx : x.isLower = true) (h : c ∈ initials x) :
    lowerChar c = x := by
  have hsmall : lowerChar x = x := forall_isLower (P := fun x => lowerChar x = x) (by decide) hx
  have hcapital : lowerChar (upperChar x) = x :=
    forall_isLower (P := fun x => lowerChar (upperChar x) = x) (by decide) hx
  rw [initials, List.mem_cons, List.mem_cons] at h
  rcases h with rfl | rfl | h
  · exact hsmall
  · exact hcapital
  · split_ifs at h with hi hk
    · rw [hi, List.mem_singleton.mp h]
      decide
    · rw [hk, List.mem_singleton.mp h]
      decide
    · cases h

theorem lowerChar_eq_iff {c x : Char} (hx : x.isLower = true) : lowerChar c = x ↔ c ∈ initials x :=
  ⟨mem_initials_of_lowerChar hx, lowerChar_of_mem_initials hx⟩

namespace Names

/-- The identifiers that become the given name when their first letter is made small. -/
def respellings (name : Text) : List Text :=
  match Text.chars name with
  | [] => []
  | x :: rest => (initials x).map fun c => Text.ofChars (c :: rest)

theorem respellings_ofChars (x : Char) (rest : List Char) :
    respellings (Text.ofChars (x :: rest)) = (initials x).map fun c => Text.ofChars (c :: rest) := by
  simp only [respellings, Text.chars_ofChars]

/-- The name is encoded text that begins with a small letter from `a` to `z`. -/
def BeginsSmall (name : Text) : Prop :=
  ∃ x rest, x.isLower = true ∧ name = Text.ofChars (x :: rest)

theorem beginsSmall_ofString {s : String} (h : s.toList.head?.any Char.isLower = true) :
    BeginsSmall s := by
  cases hs : s.toList with
  | nil => simp [hs] at h
  | cons x rest => exact ⟨x, rest, by simpa [hs] using h, congrArg Text.ofChars hs⟩

theorem exists_of_isIdentifier {t : Text} (h : isIdentifier t = true) :
    ∃ c rest, t = Text.ofChars (c :: rest) := by
  obtain ⟨cs, rfl⟩ := Text.isUtf8_iff.mp (isUtf8_of_isIdentifier h)
  cases cs with
  | nil => simp [isIdentifier, Text.chars_ofChars] at h
  | cons c rest => exact ⟨c, rest, rfl⟩

variable {t name : Text}

theorem unexported_eq_iff (ht : isIdentifier t = true) (hname : BeginsSmall name) :
    unexported t = name ↔ t ∈ respellings name := by
  obtain ⟨c, rest, rfl⟩ := exists_of_isIdentifier ht
  obtain ⟨x, tail, hx, rfl⟩ := hname
  have hleft : unexported (Text.ofChars (c :: rest)) = Text.ofChars (lowerChar c :: rest) := by
    simp only [unexported, Text.chars_ofChars]
  rw [hleft, respellings_ofChars, Text.ofChars_injective.eq_iff, List.cons.injEq,
    lowerChar_eq_iff hx, List.mem_map]
  constructor
  · rintro ⟨hc, rfl⟩
    exact ⟨c, hc, rfl⟩
  · rintro ⟨d, hd, heq⟩
    obtain ⟨rfl, rfl⟩ := List.cons.inj (Text.ofChars_injective heq)
    exact ⟨hd, rfl⟩

theorem visible_eq_iff (m : Model) (ht : isIdentifier t = true) (hname : BeginsSmall name) :
    m.visible t = name ↔ m.access = .packageOnly ∧ t ∈ respellings name := by
  unfold Model.visible
  cases m.access with
  | packageOnly => simp [unexported_eq_iff ht hname]
  | anyone =>
    obtain ⟨c, rest, rfl⟩ := exists_of_isIdentifier ht
    obtain ⟨x, tail, hx, rfl⟩ := hname
    simp only [Text.chars_ofChars, Text.ofChars_injective.eq_iff, List.cons.injEq, reduceCtorEq,
      false_and, iff_false]
    rintro ⟨rfl, -⟩
    rw [isLower_upperChar] at hx
    cases hx

end Names

namespace Source

/-! ## Declared names -/

section Declared

variable {ds : List Schema.Declaration} {opt : ModelOptions} {m : Model}

theorem baseName_of_resolve (h : Model.resolve ds opt = .ok m) {o : Object} (ho : o ∈ m.objects) :
    m.baseName o.id = o.typeName := by
  obtain ⟨i, hi⟩ := List.mem_iff_getElem?.mp ho
  rw [Model.baseName, Model.object?, Model.id_eq_of_resolve h hi, hi]
  rfl

theorem mem_typeNames_iff (h : Model.resolve ds opt = .ok m) {name : Text}
    (hname : Names.BeginsSmall name) :
    name ∈ m.objects.map (fun o => m.typeName o.id) ↔
      m.access = .packageOnly ∧ ∃ d ∈ ds, Names.lastSegment d.name ∈ Names.respellings name := by
  have htypes : m.objects.map (fun o => m.typeName o.id) =
      ds.map fun d => m.visible (Names.lastSegment d.name) := by
    have hmap := congrArg (List.map m.visible) (Model.map_typeName_of_resolve h)
    rw [List.map_map, List.map_map] at hmap
    refine Eq.trans (List.map_congr_left fun o ho => ?_) hmap
    exact congrArg m.visible (baseName_of_resolve h ho)
  rw [htypes, List.mem_map]
  constructor
  · rintro ⟨d, hd, heq⟩
    obtain ⟨haccess, hmem⟩ :=
      (Names.visible_eq_iff m ((Model.names_of_resolve h).1 d hd) hname).mp heq
    exact ⟨haccess, d, hd, hmem⟩
  · rintro ⟨haccess, d, hd, hmem⟩
    exact ⟨d, hd, (Names.visible_eq_iff m ((Model.names_of_resolve h).1 d hd) hname).mpr
      ⟨haccess, hmem⟩⟩

theorem mem_packageNames_iff (h : Model.resolve ds opt = .ok m)
    (hserializer : Names.isIdentifier opt.serializer = true) {name : Text}
    (hname : Names.BeginsSmall name) (hcodec : ¬("Codec" : Text) <:+ name) :
    name ∈ packageNames (decls m) ↔ opt.access = .packageOnly ∧
      (opt.serializer ∈ Names.respellings name ∨
        opt.makeTypes = true ∧ ∃ d ∈ ds, Names.lastSegment d.name ∈ Names.respellings name) := by
  have hown : m.serializer = opt.serializer ∧ m.access = opt.access := by
    obtain ⟨-, os, cs, -, rfl⟩ := Model.resolve_eq_ok_iff.mp h
    exact ⟨rfl, rfl⟩
  have hvar (o : Object) : name ≠ m.codecVar o.id := by
    rintro rfl
    exact hcodec (List.suffix_append _ _)
  have htypes : name ∈ (m.aggregates.filterMap m.object?).flatMap (fun o => [m.typeName o.id]) ↔
      opt.makeTypes = true ∧ name ∈ m.objects.map fun o => m.typeName o.id := by
    rw [← List.map_eq_flatMap]
    cases hmake : opt.makeTypes with
    | true => simp [aggregated_of_makeTypes h hmake]
    | false =>
      have hnone : m.aggregates = [] := by
        obtain ⟨-, os, cs, -, rfl⟩ := Model.resolve_eq_ok_iff.mp h
        simp [hmake]
      simp [hnone]
  rw [packageNames_decls, List.mem_cons, List.mem_append, htypes, mem_typeNames_iff h hname,
    ← List.map_eq_flatMap, List.mem_map, eq_comm, Model.serializerName,
    Names.visible_eq_iff m (hown.1 ▸ hserializer) hname, hown.1, hown.2]
  constructor
  · rintro (⟨haccess, hmem⟩ | ⟨hmake, haccess, hd⟩ | ⟨o, -, heq⟩)
    · exact ⟨haccess, .inl hmem⟩
    · exact ⟨haccess, .inr ⟨hmake, hd⟩⟩
    · exact absurd heq.symm (hvar o)
  · rintro ⟨haccess, hmem | ⟨hmake, hd⟩⟩
    · exact .inl ⟨haccess, hmem⟩
    · exact .inr (.inl ⟨hmake, haccess, hd⟩)

end Declared

/-! ## Names that a file relies on -/

/-- The identifiers of generated code that every file has from the start. -/
def predeclared : List String :=
  ["error", "nil", "new", "append", "bool", "int32", "int64", "float32", "float64", "string"]

/-- The names that the code of a file uses and that it does not declare: the packages that it imports,
which are named by the last part of their paths, and the predeclared identifiers. -/
def File.relied (f : File) : List Text := f.imports.map Path.base ++ predeclared.map Text.ofString

theorem exists_of_relied {m : Model} {source name : Text} (h : name ∈ (file m source).relied) :
    ∃ s ∈ "codecgen" :: "decimal" :: predeclared, name = Text.ofString s := by
  have hruntime : Path.base "github.com/reoring/codecgen" = "codecgen" := by decide
  have hdecimal : Path.base "github.com/shopspring/decimal" = "decimal" := by decide
  rcases List.mem_append.mp h with h | h
  · obtain ⟨path, hpath, rfl⟩ := List.mem_map.mp h
    simp only [file, imports, List.mem_append, List.mem_ite_nil_right, List.mem_singleton] at hpath
    rcases hpath with ⟨-, rfl⟩ | ⟨-, rfl⟩
    · exact ⟨_, .head _, hruntime⟩
    · exact ⟨_, .tail _ (.head _), hdecimal⟩
  · obtain ⟨s, hs, rfl⟩ := List.mem_map.mp h
    exact ⟨s, .tail _ (.tail _ hs), rfl⟩

theorem beginsSmall_of_relied {m : Model} {source name : Text}
    (h : name ∈ (file m source).relied) :
    Names.BeginsSmall name ∧ ¬("Codec" : Text) <:+ name := by
  have hall : ∀ s ∈ "codecgen" :: "decimal" :: predeclared,
      s.toList.head?.any Char.isLower = true ∧ ¬("Codec" : Text) <:+ Text.ofString s := by
    decide
  obtain ⟨s, hs, rfl⟩ := exists_of_relied h
  obtain ⟨hsmall, hcodec⟩ := hall s hs
  exact ⟨Names.beginsSmall_ofString hsmall, hcodec⟩

/-- **Which names are captured.** A compiled file declares a name that its code relies on exactly if
access is package-only and the name belongs, up to its first letter, to the serializer or, where data
types are made, to an object of the schema. -/
theorem captured_of_compile {schema code : Text} {opt : CompileOptions} {log : List Log.Event}
    (h : compile schema opt = (log, .ok code)) :
    ∃ options ds m package, Class.parse opt.qualifiedName = .ok (options.package, options.serializer) ∧
      Access.parse opt.access = .ok options.access ∧ options.makeTypes = opt.makeTypes ∧
      Schema.parse schema = .ok ds ∧ Model.resolve ds options = .ok m ∧
      ({ file m opt.source with package } : File).render = code ∧
      ∀ name ∈ (file m opt.source).relied,
        (name ∈ packageNames (file m opt.source).decls ↔ options.access = .packageOnly ∧
          (options.serializer ∈ Names.respellings name ∨
            opt.makeTypes = true ∧
              ∃ d ∈ ds, Names.lastSegment d.name ∈ Names.respellings name)) := by
  obtain ⟨name, serializer, access, ds, m, hclass, haccess, hparse, hresolve, hgenerate⟩ :=
    compile_eq_ok_iff.mp ⟨log, h⟩
  obtain ⟨-, package, hrender⟩ := exists_of_generate hgenerate
  refine ⟨_, ds, m, package, hclass, haccess, rfl, hparse, hresolve, hrender, ?_⟩
  intro name hname
  obtain ⟨hsmall, hcodec⟩ := beginsSmall_of_relied hname
  exact mem_packageNames_iff hresolve (Class.isIdentifier_of_parse hclass) hsmall hcodec

/-! ## A type named error -/

/-- An object named as the type of errors is, but for the capital. -/
def faultText : Text := "Error\n- code: int\n"

def faultOptions : CompileOptions :=
  { qualifiedName := "shop.Codec", access := "internal", makeTypes := true }

/-- What `faultText` declares. -/
def faultSchema : List Schema.Declaration :=
  [{ name := "Error"
     properties := [{ key := "code", name := "code", type := "int", line := 2 }], line := 1 }]

def faults : Model where
  package := "shop"
  serializer := "Codec"
  access := .packageOnly
  objects := [⟨0, "Error", false, [⟨"code", "code", .single (.scalar .int32), 0⟩], none, []⟩]
  arrays := []
  aggregates := [0]

/-- The object is a spelling of `error`, and neither it nor the serializer is one of `string`. -/
theorem respelled_fault : Names.lastSegment "Error" ∈ Names.respellings "error" ∧
    Names.lastSegment "Error" ∉ Names.respellings "string" ∧
    ("Codec" : Text) ∉ Names.respellings "string" := by
  have herror : Names.respellings "error" =
      (initials 'e').map fun c => Text.ofChars (c :: "rror".toList) :=
    Names.respellings_ofChars _ _
  have hstring : Names.respellings "string" =
      (initials 's').map fun c => Text.ofChars (c :: "tring".toList) :=
    Names.respellings_ofChars _ _
  rw [herror, hstring]
  decide

/-- The stages of a compilation of `faultText`, up to the code. -/
theorem stages_faultText : Class.parse faultOptions.qualifiedName = .ok ("shop", "Codec") ∧
    Access.parse faultOptions.access = .ok .packageOnly ∧ Schema.parse faultText = .ok faultSchema ∧
    Model.resolve faultSchema
      { package := "shop", serializer := "Codec", access := .packageOnly, makeTypes := true } =
      .ok faults ∧
    (generate faults []).isOk = true := by
  have hnames : Resolve.checkNames [] faultSchema = .ok () := by decide +kernel
  have hobjects : Resolve.objects faultSchema [] [] faultSchema =
      .ok (faults.objects, faults.arrays) := by
    decide +kernel
  refine ⟨by decide +kernel, by decide +kernel, by decide +kernel,
    Model.resolve_eq_ok_iff.mpr ⟨hnames, _, _, hobjects, rfl⟩, ?_⟩
  exact isOk_generate rfl (by decide +kernel) (by decide +kernel) (by decide +kernel)

theorem compile_faultText :
    ∃ log code, compile faultText faultOptions = (log, .ok code) ∧
      generate faults [] = .ok code := by
  obtain ⟨hclass, haccess, hparse, hresolve, hgenerate⟩ := stages_faultText
  exact exists_compile hclass haccess hparse hresolve hgenerate

/-- The type of errors is captured, and that of strings is not. -/
theorem captured_of_compile_faultText :
    ∃ log code, compile faultText faultOptions = (log, .ok code) ∧
      ∃ options m package, Model.resolve faultSchema options = .ok m ∧
        ({ file m faultOptions.source with package } : File).render = code ∧
        ("error" : Text) ∈ (file m faultOptions.source).relied ∧
        ("error" : Text) ∈ packageNames (file m faultOptions.source).decls ∧
        ("string" : Text) ∈ (file m faultOptions.source).relied ∧
        ("string" : Text) ∉ packageNames (file m faultOptions.source).decls := by
  obtain ⟨log, code, hcompile, -⟩ := compile_faultText
  obtain ⟨hcodec, hinternal, hfaults, -, -⟩ := stages_faultText
  obtain ⟨options, ds, m, package, hclass, haccess, hmake, hparse, hresolve, hrender, hall⟩ :=
    captured_of_compile hcompile
  obtain rfl : faultSchema = ds := Except.ok.inj (hfaults.symm.trans hparse)
  have hserializer : options.serializer = "Codec" :=
    congrArg Prod.snd (Except.ok.inj (hclass.symm.trans hcodec))
  have herror : ("error" : Text) ∈ (file m faultOptions.source).relied :=
    List.mem_append_right _ (by decide)
  have hstring : ("string" : Text) ∈ (file m faultOptions.source).relied :=
    List.mem_append_right _ (by decide)
  refine ⟨log, code, hcompile, options, m, package, hresolve, hrender, herror, ?_, hstring, ?_⟩
  · exact (hall _ herror).mpr
      ⟨Except.ok.inj (haccess.symm.trans hinternal), .inr ⟨rfl, _, .head _, respelled_fault.1⟩⟩
  · rw [hall _ hstring, hserializer]
    rintro ⟨-, hmem | ⟨-, d, hd, hmem⟩⟩
    · exact respelled_fault.2.2 hmem
    · rw [List.mem_singleton.mp hd] at hmem
      exact respelled_fault.2.1 hmem

/-- The file for an object named `Error` compiles, and declares a type `error` of its own. -/
theorem fault_captures_error :
    ∃ log code package, compile faultText faultOptions = (log, .ok code) ∧
      ({ file faults [] with package } : File).render = code ∧
      ("error" : Text) ∈ (file faults []).relied ∧
      ("error" : Text) ∈ packageNames (file faults []).decls := by
  obtain ⟨log, code, hcompile, hgenerate⟩ := compile_faultText
  obtain ⟨hclass, -, -, hresolve, -⟩ := stages_faultText
  obtain ⟨-, package, hrender⟩ := exists_of_generate hgenerate
  have herror : ("error" : Text) ∈ (file faults []).relied := List.mem_append_right _ (by decide)
  obtain ⟨hsmall, hcodec⟩ := beginsSmall_of_relied herror
  refine ⟨log, code, package, hcompile, hrender, herror, ?_⟩
  exact (mem_packageNames_iff hresolve (Class.isIdentifier_of_parse hclass) hsmall hcodec).mpr
    ⟨rfl, .inr ⟨rfl, _, .head _, respelled_fault.1⟩⟩

end Source

end WireSchema
