import Chainlift.Proofs.Choice
import Chainlift.Proofs.Folding
import Chainlift.Proofs.Path

/-!
# The marks of a decision

A marked leaf refers to the condition above it. In a decision that was negated the leaves are as they were before, so a mark no
longer fits its place. With strict leaves such decisions can still be read: the only leaf that could be marked then is the
last one, whose value is a comparison, and nothing is made of a comparison behind guards (`Decision.lastLeaf_unmarked`,
`Decision.isUnmarked_of_construct`).
-/

namespace Chainlift

namespace Decision

/-- No leaf has a mark: every value is evaluated where it stands. -/
def isUnmarked : Decision → Bool
  | .leaf _ stop => stop.isNone
  | .test _ yes no => yes.isUnmarked && no.isUnmarked

/-- How a mark has to fit a condition: the value, changed by `change`, is the condition, and the mark is that of the branch. -/
structure Marking where
  change : Tree → Tree
  onYes : Stop
  onNo : Stop

/-- A decision as it is built, and one that was negated. -/
def Marking.built : Marking := ⟨id, .truthy, .falsy⟩

def Marking.turned : Marking := ⟨Tree.negated, .falsy, .truthy⟩

/-- Every mark fits the condition above it; `above` says which marks fit at the root. -/
def Fits (m : Marking) : Decision → (above : Tree → Stop → Prop) → Prop
  | .leaf _ none, _ => True
  | .leaf value (some stop), above => above value stop
  | .test condition yes no, _ =>
    yes.Fits m (fun value stop => m.change value = condition ∧ stop = m.onYes) ∧
    no.Fits m (fun value stop => m.change value = condition ∧ stop = m.onNo)

/-- The marks in a choice fit, whatever stands above it, if that is so of its branches. -/
theorem fits_choose (condition : Tree) (yes no : Option Decision)
    (hyes : ∀ d ∈ yes, ∀ above, d.Fits .built above) (hno : ∀ d ∈ no, ∀ above, d.Fits .built above)
    (above : Tree → Stop → Prop) : (choose condition yes no).Fits .built above := by
  fun_induction choose condition yes no generalizing above with
  | case1 yes no p q ihq ihp => exact ihp (by simpa using ihq hyes hno) hno above
  | case2 yes no p q ihq ihp => exact ihp hyes (by simpa using ihq hyes hno) above
  | case3 yes no c =>
    refine ⟨?_, ?_⟩
    · cases yes with
      | none => exact ⟨rfl, rfl⟩
      | some d => exact hyes d rfl _
    · cases no with
      | none => exact ⟨rfl, rfl⟩
      | some d => exact hno d rfl _

theorem fits_ofValue (t : Tree) (above : Tree → Stop → Prop) : (ofValue t).Fits .built above := by
  fun_induction ofValue t generalizing above with
  | case1 c yes no ihy ihn => exact fits_choose c _ _ (by simpa using ihy) (by simpa using ihn) above
  | case2 p q ih => exact fits_choose p _ _ (by simpa using ih) (by simp) above
  | case3 p q ih => exact fits_choose p _ _ (by simp) (by simpa using ih) above
  | case4 => trivial

theorem fits_negated {d : Decision} {above above' : Tree → Stop → Prop} (h : d.Fits .built above)
    (ha : ∀ value stop, above value stop → above' value stop) : d.negated.Fits .turned above' := by
  induction d generalizing above above' with
  | leaf value stop =>
    cases stop with
    | none => trivial
    | some stop => exact ha value stop h
  | test condition yes no ihy ihn =>
    exact ⟨ihn h.2 fun value stop hm => ⟨congrArg Tree.negated hm.1, hm.2⟩,
      ihy h.1 fun value stop hm => ⟨congrArg Tree.negated hm.1, hm.2⟩⟩

/-- A mark at the last leaf of a decision with guards belongs to a null check. Below a guard there may be none left, but then
there are no alternatives either, and the condition above is a null check. -/
theorem isSome_of_lastLeaf {m : Marking} {a : Acceptance} {d : Decision} {awaited : Option Tree} {c : Constructed}
    (h : d.construct a awaited = some c) {above : Tree → Stop → Prop} (hf : d.Fits m above)
    (hg : d.guardsFrom awaited.isSome ≠ [] ∨ d.alternativesFrom awaited.isSome = [] ∧
      ∀ value stop, above value stop → (NullCheck.of? (m.change value)).isSome = true)
    (hlast : d.lastLeaf.2.isSome = true) : (NullCheck.of? (m.change d.guarded)).isSome = true := by
  fun_induction construct a d awaited generalizing c above with
  | case1 value stop =>
    cases stop with
    | none => exact absurd hlast (by simp [lastLeaf])
    | some stop =>
      rcases hg with hg | hg
      · exact absurd rfl hg
      · exact hg.2 value stop hf
  | case2 => exact absurd h (by simp)
  | case3 condition yes no token ih =>
    obtain ⟨k, hk, h⟩ := Option.bind_eq_some_iff.1 h
    split at h
    · refine ih h hf.2 (hg.imp_right fun hg => ⟨hg.1, fun value stop hm => ?_⟩) hlast
      rw [hm.1, hk]
      rfl
    · exact absurd h (by simp)
  | case4 condition yes no k hk hyes ih =>
    obtain ⟨rest, hrest, h⟩ := Option.bind_eq_some_iff.1 h
    obtain ⟨x, _, hx⟩ := construct_eq hrest
    rw [isSome_awaited] at hx
    refine ih hrest hf.2 (.inr ⟨?_, fun value stop hm => ?_⟩) hlast
    · rw [isSome_awaited]
      exact alternativesFrom_of_addGuard (hx ▸ h)
    · rw [hm.1, (Option.filter_eq_some_iff.1 hk).1]
      rfl
  | case5 => exact absurd h (by simp)
  | case6 condition yes no hk hyes ih =>
    obtain ⟨rest, hrest, h⟩ := Option.bind_eq_some_iff.1 h
    refine ih hrest hf.2 (.inl ?_) hlast
    rcases hg with hg | hg
    · simpa only [guardsFrom, Option.isSome_none, hk] using hg
    · exact absurd hg.1 (by simp [alternativesFrom, hk])
  | case7 => exact absurd h (by simp)

/-- With strict leaves a decision that was negated has no marks but perhaps at the last leaf. -/
theorem isUnmarked_of_construct {a : Acceptance} (hl : a.loose = false) (hy : a.yields = .undefined) {d : Decision}
    {awaited : Option Tree} {c : Constructed} (h : d.construct a awaited = some c) {above : Tree → Stop → Prop}
    (hf : d.Fits .turned above) (hlast : d.lastLeaf.2 = none) : d.isUnmarked = true := by
  have haccepts : ∀ d : Decision, a.accepts d = true → d.isUnmarked = true := by
    intro d hd
    unfold Acceptance.accepts at hd
    cases d with
    | test => exact absurd hd (by simp)
    | leaf value stop => cases stop with
      | none => rfl
      | some stop => cases stop <;> simp [hl, hy] at hd
  fun_induction construct a d awaited generalizing c above with
  | case1 value stop =>
    obtain rfl : stop = none := hlast
    rfl
  | case2 => exact absurd h (by simp)
  | case3 condition yes no token ih =>
    obtain ⟨k, hk, h⟩ := Option.bind_eq_some_iff.1 h
    split at h
    · rename_i hc
      rw [Bool.and_eq_true] at hc
      rw [isUnmarked, haccepts yes hc.2, ih h hf.2 hlast]
      rfl
    · exact absurd h (by simp)
  | case4 condition yes no k hk hyes ih =>
    obtain ⟨rest, hrest, h⟩ := Option.bind_eq_some_iff.1 h
    rw [isUnmarked, haccepts yes hyes, ih hrest hf.2 hlast]
    rfl
  | case5 => exact absurd h (by simp)
  | case6 condition yes no hk hyes ih =>
    -- An alternative needs a mark that a negated decision does not have there.
    unfold isStopAt at hyes
    split at hyes
    · exact absurd hf.1.2 (by simp [Marking.turned])
    · exact absurd hyes (by simp)
  | case7 => exact absurd h (by simp)

end Decision

/-! ## Values of which nothing is made -/

namespace Tree

theorem form_of_check {t : Tree} (h : (NullCheck.of? t).isSome = true) : ∃ op, t.form = .binary op := by
  unfold NullCheck.of? at h
  split at h
  · exact ⟨_, rfl⟩
  · exact absurd h (by simp)

/-- The ways in which a condition is negated. -/
theorem negated_induct {motive : Tree → Tree → Prop}
    (turned : ∀ op op' a b, op.opposite? = some op' → motive (.binary op a b) (.binary op' a b))
    (put : ∀ t, motive t (.not t)) (taken : ∀ t, motive (.not t) t)
    (and : ∀ a b, motive a a.negated → motive b b.negated → motive (.logical .and a b) (.logical .or a.negated b.negated))
    (or : ∀ a b, motive a a.negated → motive b b.negated → motive (.logical .or a b) (.logical .and a.negated b.negated))
    (t : Tree) : motive t t.negated := by
  fun_induction Tree.negated t with
  | case1 op a b op' h => exact turned op op' a b h
  | case2 op a b h => exact put _
  | case3 t => exact taken t
  | case4 a b iha ihb => exact and a b iha ihb
  | case5 a b iha ihb => exact or a b iha ihb
  | case6 t => exact put t

/-- What is a null check, or becomes one when it is negated, is a comparison or begins with `!`. -/
theorem form_of_negated_check {t : Tree} (h : (NullCheck.of? t.negated).isSome = true) :
    (∃ op, t.form = .binary op) ∨ t.form = .unary .not := by
  obtain ⟨op, hop⟩ := form_of_check h
  unfold negated at hop
  split at hop
  · exact .inl ⟨_, rfl⟩
  · exact .inr rfl
  all_goals exact absurd hop (by simp [form, Tree.not])

/-- Nothing is found in a comparison or under `!`. -/
theorem rewrite_of_form {t : Tree} (token : Tree) (target : Option Tree)
    (h : (∃ op, t.form = .binary op) ∨ t.form = .unary .not) : (t.rewrite token target).matched = false := by
  obtain ⟨f, ps⟩ := t
  rcases h with ⟨op, rfl⟩ | rfl
  · simp only [rewrite, opened, Substitution.onSpine]
  · match ps with
    | [] | _ :: _ :: _ => rfl
    | [t] =>
      simp only [rewrite, opened]
      rw [Substitution.onSpine.eq_def]
      simp

end Tree

namespace Constructed

/-- No guard can protect a comparison. -/
theorem ofGuards_of_check {cs : List NullCheck} {value : Tree} {x : Constructed}
    (hv : (∃ op, value.form = .binary op) ∨ value.form = .unary .not) (h : ofGuards cs value = some x) : cs = [] := by
  induction cs generalizing x with
  | nil => rfl
  | cons c cs ih =>
    obtain ⟨rest, hrest, h⟩ := Option.bind_eq_some_iff.1 h
    obtain rfl := ih hrest
    obtain rfl := Option.some.inj hrest
    have hf : (ofLeaf value).expr.form = value.form := by
      refine Tree.form_foldEach ?_ _
      rcases hv with ⟨op, hv⟩ | hv <;> simp [Tree.isFoldable, hv]
    have := Tree.rewrite_of_form c.token (some c.target) (t := (ofLeaf value).expr) (by rw [hf]; exact hv)
    simp only [addGuard, this, Bool.false_eq_true, if_false] at h
    exact absurd h (by simp)

end Constructed

namespace Decision

open Constructed

/-- The last leaf of a decision of which a guard was made has no mark. -/
theorem lastLeaf_unmarked {m : Marking} (hm : m = .built ∨ m = .turned) {a : Acceptance} {d : Decision} {c x : Constructed}
    (h : d.construct a none = some c) {above : Tree → Stop → Prop} (hf : d.Fits m above) (hg : d.guards ≠ [])
    (hx : ofGuards d.guards d.guarded = some x) : d.lastLeaf.2 = none := by
  cases hlast : d.lastLeaf.2 with
  | none => rfl
  | some stop =>
    have hs := isSome_of_lastLeaf h hf (.inl hg) (by rw [hlast]; rfl)
    refine absurd (ofGuards_of_check ?_ hx) hg
    rcases hm with rfl | rfl
    · exact .inl (Tree.form_of_check hs)
    · exact Tree.form_of_negated_check hs

/-- The decision that is read for an expression, built or turned, ends in an unmarked leaf if a guard was made of it. -/
theorem lastLeaf_decision {t : Tree} {o : Options} {c x : Constructed} (hc : t.decision.build o = some c)
    (hg : t.decision.guards ≠ []) (hx : ofGuards t.decision.guards t.decision.guarded = some x) :
    t.decision.lastLeaf.2 = none := by
  have hfits := fits_ofValue t fun _ _ => False
  by_cases hneg : (ofValue t).root.isNotNullCheck = true
  · have hd : t.decision = (ofValue t).negated := by simp only [Tree.decision, oriented, hneg, if_true]
    exact lastLeaf_unmarked (.inr rfl) hc (hd ▸ fits_negated hfits fun _ _ h => h) hg hx
  · have hd : t.decision = ofValue t := by simp only [Tree.decision, oriented, hneg, Bool.false_eq_true, if_false]
    exact lastLeaf_unmarked (.inl rfl) hc (hd ▸ hfits) hg hx

end Decision

end Chainlift
