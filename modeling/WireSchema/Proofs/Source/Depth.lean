import WireSchema.Source.Code
import WireSchema.Source.Layout

/-!
# The depth of lines

Calls of the code writer are balanced if blocks are opened and closed in pairs and labels stand only
in blocks. Then every line is written at a depth that fits it: no label outside every block, none too
many blocks closed, and the text ends at the depth it starts with. Calls that follow the tree of a
declaration are balanced.
-/

namespace WireSchema

namespace Layout

/-! ## Steps and depths -/

/-- The depth after a step at depth `d`. A block can be closed, and a label can stand, only within a
block. -/
def Step.next? (d : Nat) : Step → Option Nat
  | .line _ | .blank | .comment _ => some d
  | .open _ => some (d + 1)
  | .close _ => if d = 0 then none else some (d - 1)
  | .case _ | .default => if d = 0 then none else some d

/-- The depth after steps from depth `d` on. -/
def descend? (d : Nat) (steps : List Step) : Option Nat := steps.foldlM Step.next? d

theorem descend?_append (d : Nat) (s s' : List Step) :
    descend? d (s ++ s') = (descend? d s).bind fun d' => descend? d' s' := by
  unfold descend?
  rw [List.foldlM_append]
  rfl

theorem descend?_cons (d : Nat) (s : Step) (rest : List Step) :
    descend? d (s :: rest) = (s.next? d).bind fun d' => descend? d' rest := rfl

theorem line_spec {l : Layout} (t : Text) (h : 0 ≤ l.depth) :
    ∃ l', l.line t = .ok l' ∧ l'.depth = l.depth ∧ l'.text ≠ [] := by
  have hbreak : Text.ofString "\n" ≠ [] := by decide
  unfold line
  split
  · exact ⟨_, rfl, rfl, by simp [text, hbreak]⟩
  · rw [if_neg (Int.not_lt.mpr h)]
    exact ⟨_, rfl, rfl, by simp [text, hbreak]⟩

theorem label_spec {l : Layout} (t : Text) (h : 1 ≤ l.depth) :
    ∃ l', (do pure ((← (l.indent (-1)).line t).indent 1) : Except Layout Layout) = .ok l' ∧
      l'.depth = l.depth ∧ l'.text ≠ [] := by
  obtain ⟨l', hl', hdepth, htext⟩ := line_spec t (l := l.indent (-1)) (by simp [indent]; omega)
  refine ⟨l'.indent 1, ?_, ?_, htext⟩
  · rw [hl']
    rfl
  · simp only [indent] at hdepth ⊢
    omega

theorem apply_of_next? {l : Layout} {d d' : Nat} {s : Step} (hl : l.depth = d)
    (h : s.next? d = some d') : ∃ l', l.apply s = .ok l' ∧ l'.depth = d' ∧ l'.text ≠ [] := by
  have hline : ∀ t, s.next? d = some d → (∀ m : Layout, m.apply s = m.line t) →
      ∃ l', l.apply s = .ok l' ∧ l'.depth = d' ∧ l'.text ≠ [] := by
    intro t hsame happly
    obtain rfl : d = d' := by simpa [hsame] using h
    obtain ⟨l', hl', hdepth, htext⟩ := line_spec t (l := l) (by omega)
    exact ⟨l', (happly l).trans hl', hdepth.trans hl, htext⟩
  cases s with
  | line t => exact hline t rfl fun _ => rfl
  | blank => exact hline [] rfl fun _ => rfl
  | comment t => exact hline _ rfl fun _ => rfl
  | «open» head =>
    obtain rfl : d + 1 = d' := Option.some.inj h
    obtain ⟨l', hl', hdepth, htext⟩ := line_spec (head ++ " \x7b") (l := l) (by omega)
    refine ⟨l'.indent 1, ?_, ?_, htext⟩
    · rw [apply, hl']
      rfl
    · simp [indent, hdepth, hl]
  | close tail =>
    rw [Step.next?] at h
    split at h
    · cases h
    · obtain rfl := Option.some.inj h
      obtain ⟨l', hl', hdepth, htext⟩ :=
        line_spec ("\x7d" ++ tail) (l := l.indent (-1)) (by simp [indent]; omega)
      refine ⟨l', ?_, ?_, htext⟩
      · rw [apply, if_pos (by omega), hl']
      · simp [hdepth, indent, hl]
        omega
  | case label =>
    rw [Step.next?] at h
    split at h
    · cases h
    · obtain rfl := Option.some.inj h
      rw [← hl]
      exact label_spec _ (by omega)
  | default =>
    rw [Step.next?] at h
    split at h
    · cases h
    · obtain rfl := Option.some.inj h
      rw [← hl]
      exact label_spec _ (by omega)

/-- Steps that have a next depth throughout can be carried out, and lead there. -/
theorem run_of_descend? {l : Layout} {d d' : Nat} {steps : List Step} (hl : l.depth = d)
    (h : descend? d steps = some d') :
    ∃ l', l.run steps = .ok l' ∧ l'.depth = d' ∧ (steps ≠ [] → l'.text ≠ []) := by
  induction steps generalizing l d with
  | nil =>
    obtain rfl : d = d' := by simpa [descend?] using h
    exact ⟨l, rfl, hl, fun h => absurd rfl h⟩
  | cons s steps ih =>
    obtain ⟨e, he, hrest⟩ := Option.bind_eq_some_iff.mp h
    obtain ⟨m, hm, hdepth, htext⟩ := apply_of_next? hl he
    obtain ⟨l', hl', hdepth', htext'⟩ := ih hdepth hrest
    refine ⟨l', ?_, hdepth', fun _ => ?_⟩
    · rw [run, List.foldlM_cons, hm]
      exact hl'
    · cases steps with
      | nil =>
        obtain rfl := Except.ok.inj hl'
        exact htext
      | cons s' steps => exact htext' (by simp)

/-- Steps that go from any depth back to it. -/
def Balanced (steps : List Step) : Prop := ∀ d, descend? d steps = some d

namespace Balanced

variable {s s' : List Step}

theorem nil : Balanced [] := fun _ => rfl

theorem append (h : Balanced s) (h' : Balanced s') : Balanced (s ++ s') := by
  intro d
  rw [descend?_append, h d]
  exact h' d

theorem cons {step : Step} (hstep : ∀ d, step.next? d = some d) (h : Balanced s) :
    Balanced (step :: s) := by
  intro d
  rw [descend?_cons, hstep d]
  exact h d

theorem map {α : Type} {f : α → Step} (h : ∀ a d, (f a).next? d = some d) (as : List α) :
    Balanced (as.map f) := by
  induction as with
  | nil => exact nil
  | cons a as ih => exact cons (h a) ih

theorem flatMap {α : Type} {f : α → List Step} (h : ∀ a, Balanced (f a)) (as : List α) :
    Balanced (as.flatMap f) := by
  induction as with
  | nil => exact nil
  | cons a as ih => exact (h a).append ih

/-- A block goes back to the depth where it was opened, if its body stays within it. -/
theorem block (head : Text) (h : ∀ d, descend? (d + 1) s = some (d + 1)) (tail : Text) :
    Balanced (.open head :: (s ++ [.close tail])) := by
  intro d
  rw [descend?_cons, Step.next?, Option.bind_some, descend?_append, h d]
  rfl

end Balanced

def Step.leastDepth : Step → Nat
  | .line _ | .blank | .comment _ | .open _ => 0
  | .close _ | .case _ | .default => 1

theorem Step.leastDepth_le {s : Step} {d d' : Nat} (h : s.next? d = some d') :
    s.leastDepth ≤ d := by
  cases s with
  | line _ | blank | comment _ | «open» _ => exact Nat.zero_le d
  | close _ | case _ | default =>
    rw [next?] at h
    split at h
    · cases h
    · exact Nat.one_le_iff_ne_zero.mpr ‹_›

/-- Every step has a place at the depth that it is reached with, and the last one leads back to where
the layout starts. -/
structure Placed (steps : List Step) : Prop where
  step : ∀ before s after, steps = before ++ s :: after →
    ∃ l, run {} before = .ok l ∧ s.leastDepth ≤ l.depth
  final : ∃ l, run {} steps = .ok l ∧ l.depth = 0

theorem Balanced.placed {steps : List Step} (h : Balanced steps) : Placed steps where
  step := by
    rintro before s after rfl
    have hall := h 0
    rw [descend?_append] at hall
    obtain ⟨d, hd, hrest⟩ := Option.bind_eq_some_iff.mp hall
    obtain ⟨d', hd', -⟩ := Option.bind_eq_some_iff.mp hrest
    obtain ⟨l, hl, hdepth, -⟩ := run_of_descend? (l := {}) rfl hd
    refine ⟨l, hl, ?_⟩
    rw [hdepth]
    exact Int.ofNat_le.mpr (Step.leastDepth_le hd')
  final := by
    obtain ⟨l, hl, hdepth, -⟩ := run_of_descend? (l := {}) rfl (h 0)
    exact ⟨l, hl, hdepth⟩

end Layout

namespace Source

open Layout (Step Balanced descend? descend?_append descend?_cons)

/-! ## Declarations -/

mutual

def Stmt.calls : Stmt → List Step
  | .line code => [.line code.text]
  | .block head body => .open head.text :: (stmtsCalls body ++ [.close []])
  | .switch head clauses => .open head.text :: (clausesCalls clauses ++ [.close []])

def stmtsCalls : List Stmt → List Step
  | [] => []
  | s :: rest => s.calls ++ stmtsCalls rest

def Clause.calls : Clause → List Step
  | .case label body => .case label.text :: stmtsCalls body
  | .default body => .default :: stmtsCalls body

def clausesCalls : List Clause → List Step
  | [] => []
  | c :: rest => c.calls ++ clausesCalls rest

end

/-- The calls that write a declaration, a blank line first. -/
def Decl.calls : Decl → List Step
  | .marker doc name =>
    .blank :: (doc.map .comment ++ [.line ("type " ++ name ++ " struct\x7b\x7d")])
  | .interface doc name methods =>
    .blank :: (doc.map .comment ++ .open ("type " ++ name ++ " interface")
      :: ((methods.map fun f => .line (f.name ++ "() " ++ f.type.text)) ++ [.close []]))
  | .struct doc name fields =>
    -- the one comment that is written as a line
    .blank :: ((doc.map fun l => .line ("// " ++ l)) ++ .open ("type " ++ name ++ " struct")
      :: ((fields.map fun f => .line (f.name ++ " " ++ f.type.text)) ++ [.close []]))
  | .getter receiver name result field =>
    [.blank, .line ("func (v *" ++ receiver ++ ") " ++ name ++ "() " ++ result.text
      ++ " \x7b return v." ++ field ++ " \x7d")]
  | .variable doc name value members =>
    .blank :: (doc.map .comment ++ .open ("var " ++ name ++ " " ++ value.text)
      :: ((members.map fun c => .line c.text) ++ [.close []]))
  | .method doc receiver name signature body =>
    .blank :: (doc.map .comment ++ .open ("func (s " ++ receiver ++ ") " ++ name ++ signature.text)
      :: (stmtsCalls body ++ [.close []]))

mutual

theorem Stmt.balanced_calls : ∀ s : Stmt, Balanced s.calls
  | .line _ => fun _ => rfl
  | .block _ body => .block _ (fun d => balanced_stmtsCalls body (d + 1)) _
  | .switch _ clauses => .block _ (descend?_clausesCalls clauses) _

theorem balanced_stmtsCalls : ∀ l : List Stmt, Balanced (stmtsCalls l)
  | [] => .nil
  | s :: rest => s.balanced_calls.append (balanced_stmtsCalls rest)

theorem Clause.descend?_calls : ∀ (c : Clause) (d : Nat), descend? (d + 1) c.calls = some (d + 1)
  | .case label body, d => by
    rw [Clause.calls, descend?_cons]
    exact balanced_stmtsCalls body (d + 1)
  | .default body, d => by
    rw [Clause.calls, descend?_cons]
    exact balanced_stmtsCalls body (d + 1)

/-- The labels of clauses stand within the block of their switch. -/
theorem descend?_clausesCalls : ∀ (l : List Clause) (d : Nat),
    descend? (d + 1) (clausesCalls l) = some (d + 1)
  | [], _ => rfl
  | c :: rest, d => by
    rw [clausesCalls, descend?_append, c.descend?_calls d]
    exact descend?_clausesCalls rest d

end

theorem Decl.balanced_calls (d : Decl) : Balanced d.calls := by
  have hcomments : ∀ doc : List Text, Balanced (doc.map .comment) :=
    .map fun _ _ => rfl
  have hblock : ∀ {before : List Step} {head : Text} {body : List Step}, Balanced before →
      Balanced body → Balanced (.blank :: (before ++ .open head :: (body ++ [.close []]))) := by
    intro before head body hbefore hbody
    exact .cons (fun _ => rfl) (hbefore.append (.block head (fun d => hbody (d + 1)) []))
  cases d with
  | marker doc name => exact .cons (fun _ => rfl) ((hcomments doc).append fun _ => rfl)
  | interface doc name methods => exact hblock (hcomments doc) (.map (fun _ _ => rfl) methods)
  | struct doc name fields =>
    exact hblock (.map (fun _ _ => rfl) doc) (.map (fun _ _ => rfl) fields)
  | getter receiver name result field => exact fun _ => rfl
  | «variable» doc name value members =>
    exact hblock (hcomments doc) (.map (fun _ _ => rfl) members)
  | method doc receiver name signature body => exact hblock (hcomments doc) (balanced_stmtsCalls body)

end Source

end WireSchema
