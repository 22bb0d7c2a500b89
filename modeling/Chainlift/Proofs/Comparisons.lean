import Chainlift.Guard.Coalesce
import Chainlift.Proofs.Path

/-!
# Tests as they are written

A guard compares a variable, or what a temporary is assigned, loosely with `null` or `undefined`, or strictly with the one and
then again with the other (`GuardTest`). The literal may stand on either side, and `undefined` has several spellings
(`Comparand`). The comparisons of several guards are joined by `||`, or negated by `&&`, nested in any way (`Tree.Nests`).

However they are written, a comparison is read as the null check it is (`NullCheck.of?_against`) and a nest of them as a row
(`Decision.choose_or`, `Tree.Nests.alternatives`).
-/

namespace Chainlift

open Tree

/-! ## Comparisons -/

namespace Missing

def other : Missing → Missing
  | .null => .undefined
  | .undefined => .null

/-- The expression is a way to write it. -/
def isWritten (m : Missing) (t : Tree) : Bool :=
  match m with
  | .null => t.isNull
  | .undefined => t.isUndefined

end Missing

/-- The equality operators. -/
def BinaryOp.equality : (strict negated : Bool) → BinaryOp
  | false, false => .eq
  | false, true => .ne
  | true, false => .strictEq
  | true, true => .strictNe

/-- A way to write `null` or `undefined` on one side of a comparison. -/
structure Comparand (m : Missing) where
  literal : Tree
  isWritten : m.isWritten literal = true
  onLeft : Bool

namespace Comparand

/-- `null` -/
def ofNull (onLeft : Bool) : Comparand .null := ⟨.null, rfl, onLeft⟩

/-- `void 0` -/
def ofVoid (onLeft : Bool) : Comparand .undefined := ⟨.unary .void (.number .zero), rfl, onLeft⟩

variable {m : Missing}

/-- The expression, compared. -/
def against (c : Comparand m) (op : BinaryOp) (t : Tree) : Tree :=
  if c.onLeft then .binary op c.literal t else .binary op t c.literal

theorem isBranching_against (c : Comparand m) (op : BinaryOp) (t : Tree) : (c.against op t).isBranching = false := by
  unfold against
  split <;> rfl

theorem negated_against (c : Comparand m) (strict : Bool) (t : Tree) :
    (c.against (.equality strict true) t).negated = c.against (.equality strict false) t := by
  unfold against
  cases c.onLeft <;> cases strict <;> rfl

theorem isNullish_literal (c : Comparand m) : c.literal.isNullish = true := by
  have h := c.isWritten
  unfold Missing.isWritten at h
  cases m with
  | null => simp only at h; simp [isNullish, h]
  | undefined => simp only at h; simp [isNullish, h]

theorem compared_literal (c : Comparand m) : (if c.literal.isNull then Missing.null else .undefined) = m := by
  have h := c.isWritten
  unfold Missing.isWritten at h
  cases m with
  | null => exact if_pos h
  | undefined =>
    refine if_neg fun hnull => ?_
    unfold isNull at hnull
    split at hnull
    · rename_i heq
      rw [heq] at h
      exact absurd h (by decide)
    · exact absurd hnull (by simp)

end Comparand

namespace NullCheck

theorem isNullish_of_isCheckable {t : Tree} (h : isCheckable t = true) : t.isNullish = false := by
  rw [Bool.eq_false_iff]
  intro hn
  rcases Bool.or_eq_true_iff.1 hn with hn | hn
  · unfold isNull at hn
    split at hn
    · exact absurd h (by decide)
    · exact absurd hn (by simp)
  · unfold isUndefined at hn
    split at hn
    · exact absurd h (by simp [isCheckable, isAccess, object?, assignment?])
    · rw [beq_iff_eq] at hn
      rw [hn] at h
      exact absurd h (by decide)
    · exact absurd hn (by simp)

/-- A comparison is read as the check it is, whichever side the literal is on. -/
theorem of?_against {m : Missing} (c : Comparand m) {t : Tree} (h : isCheckable t = true) (strict negated : Bool) :
    of? (c.against (.equality strict negated) t) = some ⟨t, m, strict, negated⟩ := by
  have hk : kind? (.equality strict negated) = some (strict, negated) := by
    cases strict <;> cases negated <;> rfl
  have hsides : ∀ a b, (a, b) = (t, c.literal) ∨ (a, b) = (c.literal, t) → sides? a b = some (t, c.literal) := by
    rintro a b (hab | hab)
    · obtain ⟨rfl, rfl⟩ := Prod.mk.inj hab
      rw [sides?, if_pos c.isNullish_literal]
    · obtain ⟨rfl, rfl⟩ := Prod.mk.inj hab
      rw [sides?, if_neg (by simp [isNullish_of_isCheckable h]), if_pos c.isNullish_literal]
  have hof : ∀ a b, sides? a b = some (t, c.literal) →
      of? (.binary (.equality strict negated) a b) = some ⟨t, m, strict, negated⟩ := by
    intro a b hab
    simp only [of?, hk, hab, Option.bind_eq_bind, Option.bind_some, h, if_true, c.compared_literal]
  unfold Comparand.against
  split
  · exact hof _ _ (hsides _ _ (.inr rfl))
  · exact hof _ _ (hsides _ _ (.inl rfl))

end NullCheck

/-! ## Guards -/

/-- How a guard tests: loosely, or strictly for the one and then for the other. -/
inductive GuardTest where
  | loose {m : Missing} (c : Comparand m)
  | strict {m : Missing} (first : Comparand m) (second : Comparand m.other)

namespace GuardTest

/-- The comparisons of a guard: one of what is `checked`, and in a strict pair one of what is checked `again`. -/
def conditions (negated : Bool) (checked again : Tree) : GuardTest → List Tree
  | .loose c => [c.against (.equality false negated) checked]
  | .strict first second => [first.against (.equality true negated) checked, second.against (.equality true negated) again]

def isStrict : GuardTest → Bool
  | .loose _ => false
  | .strict .. => true

/-- A strict pair that begins with `null`. -/
def isNullFirst : GuardTest → Bool
  | .strict (m := .undefined) .. => false
  | _ => true

variable (g : GuardTest) (checked again : Tree)

theorem isBranching_conditions (negated : Bool) : ∀ t ∈ g.conditions negated checked again, t.isBranching = false := by
  cases g with
  | loose c => simp [conditions, c.isBranching_against]
  | strict first second => simp [conditions, first.isBranching_against, second.isBranching_against]

theorem negated_conditions : (g.conditions true checked again).map Tree.negated = g.conditions false checked again := by
  cases g with
  | loose c => simp [conditions, c.negated_against]
  | strict first second => simp [conditions, first.negated_against, second.negated_against]

end GuardTest

/-! ## Nests -/

/-- The expressions are joined by the operator, in this order. -/
inductive Tree.Nests (op : LogicalOp) : List Tree → Tree → Prop where
  | leaf (t : Tree) : Nests op [t] t
  | node {ts us : List Tree} {a b : Tree} (left : Nests op ts a) (right : Nests op us b) : Nests op (ts ++ us) (.logical op a b)

namespace Decision

/-- A choice by a condition that is not split. -/
theorem choose_of_isBranching {t : Tree} (h : t.isBranching = false) (yes no : Decision) :
    choose t (some yes) (some no) = .test t yes no := by
  unfold choose
  split
  · exact absurd h (by simp [isBranching, form])
  · exact absurd h (by simp [isBranching, form])
  · rfl

/-- Joined by `||`, each condition is tested where those before it fail. -/
theorem choose_or {ts : List Tree} {t : Tree} (h : Nests .or ts t) (hts : ∀ u ∈ ts, u.isBranching = false) (yes no : Decision) :
    choose t (some yes) (some no) = ts.foldr (fun c rest => .test c yes rest) no := by
  induction h generalizing no with
  | leaf t => exact choose_of_isBranching (hts t (by simp)) yes no
  | node left right ihl ihr =>
    rw [choose, ihr (fun u hu => hts u (by simp [hu])), ihl (fun u hu => hts u (by simp [hu])), List.foldr_append]

/-- Joined by `&&`, each condition is tested where those before it hold. -/
theorem choose_and {ts : List Tree} {t : Tree} (h : Nests .and ts t) (hts : ∀ u ∈ ts, u.isBranching = false) (yes no : Decision) :
    choose t (some yes) (some no) = ts.foldr (fun c rest => .test c rest no) yes := by
  induction h generalizing yes with
  | leaf t => exact choose_of_isBranching (hts t (by simp)) yes no
  | node left right ihl ihr =>
    rw [choose, ihr (fun u hu => hts u (by simp [hu])), ihl (fun u hu => hts u (by simp [hu])), List.foldr_append]

/-- Negated, a row of the second kind is one of the first kind. -/
theorem negated_row (ts : List Tree) (yes no : Decision) : (ts.foldr (fun c rest => .test c rest no) yes).negated =
    (ts.map Tree.negated).foldr (fun c rest => .test c no.negated rest) yes.negated := by
  induction ts with
  | nil => rfl
  | cons t ts ih => rw [List.foldr_cons, negated, ih, List.map_cons, List.foldr_cons]

end Decision

/-- The operands of a nest of `||` are those that were joined. -/
theorem Tree.Nests.alternatives {ts : List Tree} {t : Tree} (h : Nests .or ts t)
    (hts : ∀ u ∈ ts, u.isBranching = false) : t.alternatives = ts := by
  induction h with
  | leaf t =>
    have ht := hts t (by simp)
    unfold Tree.alternatives
    split
    · exact absurd ht (by simp [isBranching, form])
    · rfl
  | node left right ihl ihr =>
    rw [Tree.alternatives, ihl fun u hu => hts u (by simp [hu]), ihr fun u hu => hts u (by simp [hu])]

end Chainlift
