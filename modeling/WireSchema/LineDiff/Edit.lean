/-!
# Edit scripts

A script turns one sequence into another: it keeps, deletes and inserts runs of elements. Scripts
are brought into a form in which runs of one kind are never split and edits lie as far to the front
as they can.
-/

namespace WireSchema.LineDiff

/-- What is done with a run of elements. -/
inductive EditKind where
  | keep
  | delete
  | insert
  deriving DecidableEq, Repr

/-- One step of a script. -/
structure Edit (α : Type) where
  kind : EditKind
  items : List α
  deriving Repr

variable {α : Type} [BEq α]

/-- How many elements two sequences share at their start. -/
def commonStart : List α → List α → Nat
  | a :: as, b :: bs => if a == b then commonStart as bs + 1 else 0
  | _, _ => 0

/-- How many elements two sequences share at their end. -/
def commonEnd (as bs : List α) : Nat := commonStart as.reverse bs.reverse

/-- The sequence without its last `n` elements. -/
def dropEnd (as : List α) (n : Nat) : List α := as.take (as.length - n)

/-- Edits that were seen since the last run that was kept. -/
structure Pending (α : Type) where
  deletions : Nat := 0
  insertions : Nat := 0
  deleted : List α := []
  inserted : List α := []

/-- Adds to the run that is kept at the head of the script so far, which is last first. -/
def keepAlso (items : List α) : List (Edit α) → List (Edit α)
  | [] => [⟨.keep, items⟩]
  | e :: rest =>
    if e.kind == .keep then ⟨.keep, e.items ++ items⟩ :: rest else ⟨.keep, items⟩ :: e :: rest

/-- Closes a group of several edits before a run that is kept: what the deleted and the inserted
elements share at either end is kept, and each kind of edit becomes one. -/
def closeGroup (done : List (Edit α)) (p : Pending α) (kept : List α) : List (Edit α) :=
  let both := p.deletions != 0 && p.insertions != 0
  let n := if both then commonStart p.inserted p.deleted else 0
  let done := if n == 0 then done else keepAlso (p.inserted.take n) done
  let deleted := p.deleted.drop n
  let inserted := p.inserted.drop n
  let m := if both then commonEnd inserted deleted else 0
  let kept := inserted.drop (inserted.length - m) ++ kept
  let done := if p.deletions == 0 then done else ⟨.delete, dropEnd deleted m⟩ :: done
  let done := if p.insertions == 0 then done else ⟨.insert, dropEnd inserted m⟩ :: done
  ⟨.keep, kept⟩ :: done

/-- Joins neighbouring steps of one kind; `done` holds the script so far, last first, and `p` the
edits since the last run that was kept. A single edit stays as it is. -/
def joinLoop (done : List (Edit α)) (p : Pending α) : List (Edit α) → List (Edit α)
  | [] => done
  | e :: rest =>
    match e.kind with
    | .delete =>
      joinLoop done
        { p with deletions := p.deletions + 1, deleted := p.deleted ++ e.items } rest
    | .insert =>
      joinLoop done
        { p with insertions := p.insertions + 1, inserted := p.inserted ++ e.items } rest
    | .keep =>
      let done :=
        if 1 < p.deletions + p.insertions then closeGroup done p e.items
        else if p.deletions == 1 then e :: ⟨.delete, p.deleted⟩ :: done
        else if p.insertions == 1 then e :: ⟨.insert, p.inserted⟩ :: done
        else keepAlso e.items done
      joinLoop done {} rest

/-- The script with neighbouring steps of one kind joined. -/
def joined (script : List (Edit α)) : List (Edit α) :=
  match joinLoop [] {} (script ++ [⟨.keep, []⟩]) with
  | e :: rest => if e.items.isEmpty then rest.reverse else (e :: rest).reverse
  | [] => []

/-- Moves single edits between two kept runs over one of them where they can be, so that the runs
become one. `done` holds what was passed, last first; the result says whether anything moved. -/
def shiftLoop : (fuel : Nat) → Bool → List (Edit α) → List (Edit α) → Bool × List (Edit α)
  | 0, moved, done, rest => (moved, done.reverse ++ rest)
  | fuel + 1, moved, done, rest =>
    match done, rest with
    | before :: earlier, e :: after :: rest =>
      if before.kind == .keep && after.kind == .keep then
        -- the edit moves to the front if it ends like the run before it, else to the back
        if before.items.isSuffixOf e.items then
          let e' : Edit α := ⟨e.kind, before.items ++ dropEnd e.items before.items.length⟩
          let after' : Edit α := ⟨.keep, before.items ++ after.items⟩
          shiftLoop fuel true (after' :: e' :: earlier) rest
        else if after.items.isPrefixOf e.items then
          let before' : Edit α := ⟨.keep, before.items ++ after.items⟩
          let e' : Edit α := ⟨e.kind, e.items.drop after.items.length ++ after.items⟩
          shiftLoop fuel true (e' :: before' :: earlier) rest
        else shiftLoop fuel moved (e :: done) (after :: rest)
      else shiftLoop fuel moved (e :: done) (after :: rest)
    | _, rest => (moved, done.reverse ++ rest)

/-- The script in its final form: joined, and shifted until nothing moves. -/
def tidied : (fuel : Nat) → List (Edit α) → List (Edit α)
  | 0, script => joined script
  | fuel + 1, script =>
    let script := joined script
    match script with
    | [] => []
    | first :: rest =>
      let (moved, script) := shiftLoop script.length false [first] rest
      if moved then tidied fuel script else script

/-- The script in its final form. -/
def tidy (script : List (Edit α)) : List (Edit α) := tidied script.length script

end WireSchema.LineDiff
