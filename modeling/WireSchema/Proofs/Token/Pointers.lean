import WireSchema.Proofs.Text.Cutting
import WireSchema.Token.Pointer

/-!
# Reading pointers

The text of a pointer names the keys and indices that lead to a place: split at the slashes, with the
escapes undone, it gives them back. So no two pointers have the same text, but for the pointer to the
whole document, whose text is that of the pointer to a member with the empty key.
-/

namespace WireSchema.Pointer

/-- The text with every `~` before the mark, and the mark, replaced by a byte. -/
def unmark (mark value : UInt8) : Text → Text
  | [] => []
  | [b] => [b]
  | b :: c :: rest =>
    if b = 0x7E ∧ c = mark then value :: unmark mark value rest
    else b :: unmark mark value (c :: rest)

/-- The key or index that stands in a pointer: first every `~1` becomes a slash, then every `~0` a
tilde. -/
def unescape (t : Text) : Text := unmark 0x30 0x7E (unmark 0x31 0x2F t)

/-- The keys and indices that the text of a pointer names, outermost first. -/
def names (x : Text) : List Text := (Text.splitOn x 0x2F).tail.map unescape

/-! ## Escapes -/

theorem unmark_cons {b : UInt8} (hb : b ≠ 0x7E) (mark value : UInt8) (t : Text) :
    unmark mark value (b :: t) = b :: unmark mark value t := by
  cases t with
  | nil => rfl
  | cons c t => rw [unmark, if_neg (fun h => hb h.1)]

theorem unmark_marked (mark value : UInt8) (t : Text) :
    unmark mark value (0x7E :: mark :: t) = value :: unmark mark value t := by
  rw [unmark, if_pos ⟨rfl, rfl⟩]

theorem unmark_unmarked {mark c : UInt8} (hc : c ≠ mark) (value : UInt8) (t : Text) :
    unmark mark value (0x7E :: c :: t) = 0x7E :: unmark mark value (c :: t) := by
  rw [unmark, if_neg (fun h => hc h.2)]

theorem escape_cons (b : UInt8) (t : Text) :
    escape (b :: t) =
      (if b == 0x7E then [0x7E, 0x30] else if b == 0x2F then [0x7E, 0x31] else [b]) ++ escape t :=
  rfl

/-- The slashes are undone first, and the tildes stay escaped. -/
theorem unmark_escape (t : Text) :
    unmark 0x31 0x2F (escape t) = t.flatMap fun b => if b = 0x7E then [0x7E, 0x30] else [b] := by
  induction t with
  | nil => rfl
  | cons b t ih =>
    rw [escape_cons, List.flatMap_cons, ← ih]
    by_cases htilde : b = 0x7E
    · simp only [htilde, beq_self_eq_true, if_true, List.cons_append, List.nil_append]
      rw [unmark_unmarked (by decide), unmark_cons (by decide)]
    by_cases hslash : b = 0x2F
    · subst hslash
      exact unmark_marked 0x31 0x2F (escape t)
    · simp only [beq_iff_eq, htilde, hslash, if_false, List.cons_append, List.nil_append]
      exact unmark_cons htilde _ _ _

theorem unescape_escape (t : Text) : unescape (escape t) = t := by
  rw [unescape, unmark_escape]
  induction t with
  | nil => rfl
  | cons b t ih =>
    rw [List.flatMap_cons]
    by_cases htilde : b = 0x7E
    · simp only [htilde, if_true, List.cons_append, List.nil_append]
      rw [unmark_marked, ih]
    · simp only [htilde, if_false, List.cons_append, List.nil_append]
      rw [unmark_cons htilde, ih]

theorem slash_not_mem_escape (t : Text) : 0x2F ∉ escape t := by
  induction t with
  | nil => simp [escape]
  | cons b t ih =>
    rw [escape_cons, List.mem_append, not_or]
    refine ⟨?_, ih⟩
    split_ifs with htilde hslash
    · decide
    · decide
    · rw [List.mem_singleton]
      exact fun h => hslash (by rw [← h]; rfl)

/-! ## Parts -/

theorem intercalate_cons_eq_flatMap (a : Text) (parts : List Text) :
    [0x2F].intercalate (a :: parts) = a ++ parts.flatMap fun t => 0x2F :: t := by
  induction parts generalizing a with
  | nil => simp
  | cons t parts ih =>
    rw [List.intercalate_cons_cons, ih, List.flatMap_cons]
    simp

/-- The text of a pointer, but for the pointer to the whole document, names what leads to its
place. -/
theorem names_text {p : Pointer} (hp : p ≠ []) : names p.text = p.reverse := by
  have htext : p.text = [0x2F].intercalate ([] :: p.reverse.map escape) := by
    rw [intercalate_cons_eq_flatMap, List.flatMap_map]
    cases p with
    | nil => exact absurd rfl hp
    | cons t p => rfl
  have hparts : ∀ part ∈ [] :: p.reverse.map escape, (0x2F : UInt8) ∉ part := by
    intro part hpart
    rcases List.mem_cons.mp hpart with rfl | hpart
    · exact List.not_mem_nil
    · obtain ⟨t, -, rfl⟩ := List.mem_map.mp hpart
      exact slash_not_mem_escape t
  rw [names, Text.splitOn_eq, htext, List.splitOn_intercalate 0x2F hparts (List.cons_ne_nil _ _),
    List.tail_cons, List.map_map]
  exact List.map_id'' unescape_escape _

end WireSchema.Pointer
