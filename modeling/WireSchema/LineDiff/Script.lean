import WireSchema.LineDiff.Edit
import WireSchema.LineDiff.Meeting

/-!
# Finding edit scripts

A script for two sequences. What they share at their ends is set aside; a long run that they share
in the middle, or else the point where walks from both ends meet, divides the rest in two.
-/

namespace WireSchema.LineDiff

variable {α : Type} [BEq α]

/-- The first place, counted from `i`, at which a pattern stands in a sequence. -/
def find? (pattern : List α) (i : Nat) : List α → Option Nat
  | [] => if pattern.isEmpty then some i else none
  | a :: rest => if pattern.isPrefixOf (a :: rest) then some i else find? pattern (i + 1) rest

/-- Two sequences divided at a run that they share: what stands before and after it in each. -/
structure Division (α : Type) where
  before₁ : List α
  after₁ : List α
  before₂ : List α
  after₂ : List α
  common : List α

/-- The longest run around place `i` of the long sequence that also stands in the short one; a quarter
of the long sequence from `i` on must be part of it. -/
def sharedRun (long short : List α) (i : Nat) : Option (Division α) :=
  let seed := (long.drop i).take (long.length / 4)
  let candidate (j : Nat) : Division α :=
    let ahead := commonStart (long.drop i) (short.drop j)
    let behind := commonEnd (long.take i) (short.take j)
    { before₁ := long.take (i - behind), after₁ := long.drop (i + ahead)
      before₂ := short.take (j - behind), after₂ := short.drop (j + ahead)
      common := (short.drop (j - behind)).take (behind + ahead) }
  let places := (List.range short.length).filter fun j => seed.isPrefixOf (short.drop j)
  let longer (best : Option (Division α)) (j : Nat) : Option (Division α) :=
    let c := candidate j
    match best with
    | none => if c.common.isEmpty then none else some c
    | some b => if b.common.length < c.common.length then some c else some b
  match places.foldl longer none with
  | none => none
  | some b => if b.common.length * 2 < long.length then none else some b

/-- A run that two sequences share and that is at least half as long as the longer one. -/
def halfMatch (long short : List α) : Option (Division α) :=
  let n := long.length
  if n < 4 || short.length * 2 < n then none
  else
    match sharedRun long short ((n + 3) / 4), sharedRun long short ((n + 1) / 2) with
    | none, second => second
    | first, none => first
    | some a, some b => if b.common.length < a.common.length then some a else some b

/-- The division seen from the other sequence. -/
def Division.flip (d : Division α) : Division α :=
  { before₁ := d.before₂, after₁ := d.after₂, before₂ := d.before₁, after₂ := d.after₁
    common := d.common }

mutual

def script (as bs : List α) : (fuel : Nat) → List (Edit α)
  | 0 => [⟨.delete, as⟩, ⟨.insert, bs⟩]
  | fuel + 1 =>
    if as == bs then (if as.isEmpty then [] else [⟨.keep, as⟩])
    else
      let n := commonStart as bs
      let start := as.take n
      let as := as.drop n
      let bs := bs.drop n
      let m := commonEnd as bs
      let tail := as.drop (as.length - m)
      let middle := scriptApart (dropEnd as m) (dropEnd bs m) fuel
      tidy ((if start.isEmpty then [] else [⟨.keep, start⟩]) ++ middle
        ++ (if tail.isEmpty then [] else [⟨.keep, tail⟩]))

/-- A script for sequences that differ at both ends. -/
def scriptApart (as bs : List α) : (fuel : Nat) → List (Edit α)
  | 0 => [⟨.delete, as⟩, ⟨.insert, bs⟩]
  | fuel + 1 =>
    if as.isEmpty then [⟨.insert, bs⟩]
    else if bs.isEmpty then [⟨.delete, as⟩]
    else
      let shrinks := bs.length < as.length
      let long := if shrinks then as else bs
      let short := if shrinks then bs else as
      let kind : EditKind := if shrinks then .delete else .insert
      match find? short 0 long with
      | some i =>
        [⟨kind, long.take i⟩, ⟨.keep, short⟩, ⟨kind, long.drop (i + short.length)⟩]
      | none =>
        -- a single element that does not occur in the other sequence is shared with none of it
        if short.length == 1 then [⟨.delete, as⟩, ⟨.insert, bs⟩]
        else
          match halfMatch long short with
          | some d =>
            let d := if shrinks then d else d.flip
            script d.before₁ d.before₂ fuel ++ [⟨.keep, d.common⟩] ++ script d.after₁ d.after₂ fuel
          | none =>
            match meeting? as.toArray bs.toArray with
            | some (x, y) =>
              script (as.take x) (bs.take y) fuel ++ script (as.drop x) (bs.drop y) fuel
            | none => [⟨.delete, as⟩, ⟨.insert, bs⟩]

end

def diff (as bs : List α) : List (Edit α) := script as bs (2 * (as.length + bs.length) + 2)

end WireSchema.LineDiff
