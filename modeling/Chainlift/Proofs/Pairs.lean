import Chainlift.Proofs.Merging

/-!
# Strict pairs

A strict comparison with `null` is half a guard. The comparison with `undefined` that follows it is the other half, and a link is
made of the two (`StrictPair`). So the link does what one loose comparison would do: the decision in which each pair is a single
loose test is made into the same chain (`Decision.construct_merged`). It also goes on past its guards in the same states and with
the same effects, if the second halves assign nothing and what is checked may be evaluated twice (`Decision.build_pairs`).

A second half is known by its token. That of an assignment is the variable, whatever it is assigned; so the second half may assign
the variable anew, and the pair may compare two values (`Decision.build_pairs_false`).
-/

namespace Chainlift

open Tree

/-! ## Pairs -/

/-- The halves of a strict guard: a comparison with `null`, and the null check after it. -/
structure StrictPair where
  first : NullCheck
  second : NullCheck
  deriving DecidableEq, Repr

/-- The first half of a strict guard, if the condition is one. -/
def Tree.firstHalf? (condition : Tree) : Option NullCheck :=
  ((NullCheck.of? condition).filter NullCheck.begins).filter NullCheck.strict

/-- The loose check of the same operand. -/
def NullCheck.loosened (c : NullCheck) : NullCheck := ⟨c.operand, .null, false, false⟩

@[simp] theorem NullCheck.operand_loosened (c : NullCheck) : c.loosened.operand = c.operand := rfl

/-- The condition that is the loose check of the same operand. -/
def NullCheck.loosely (c : NullCheck) : Tree := .binary .eq c.operand .null

namespace Decision

/-- The strict guards along the failing conditions. After a `first` half the second one is due. -/
def pairs : Decision → (first : Option NullCheck) → List StrictPair
  | .leaf .., _ => []
  | .test condition _ no, some first => ((NullCheck.of? condition).map (⟨first, ·⟩)).toList ++ no.pairs none
  | .test condition _ no, none => no.pairs condition.firstHalf?

/-- The decision in which each strict guard is one loose test. The second half goes when the pair is `halved`. -/
def merged : Decision → (halved : Bool) → Decision
  | .leaf value stop, _ => .leaf value stop
  | .test _ _ no, true => no.merged false
  | .test condition yes no, false =>
    match condition.firstHalf? with
    | some c => .test c.loosely yes (no.merged true)
    | none => .test condition yes (no.merged false)

end Decision

/-- Whether evaluation gets past all tests of a decision, to its last leaf. -/
def Conditions.exhausts {m : Type → Type} [Monad m] {α : Type} (C : Conditions m α) : Decision → m Bool
  | .leaf .. => pure true
  | .test condition _ no => do
    let holds ← C.truth condition
    if holds then pure false else exhausts C no

/-! ## The chain of the merged decision -/

/-- A condition that is a first half compares its operand with `null`. -/
theorem Tree.of_firstHalf? {condition : Tree} {c : NullCheck} (h : condition.firstHalf? = some c) :
    NullCheck.of? condition = some c ∧ c.strict = true ∧ c.negated = false ∧ c.compared = .null := by
  obtain ⟨h, hstrict⟩ := Option.filter_eq_some_iff.1 h
  obtain ⟨hof, hb⟩ := Option.filter_eq_some_iff.1 h
  simp only [NullCheck.begins, hstrict, Bool.not_true, Bool.false_or, Bool.and_eq_true, Bool.not_eq_true', beq_iff_eq] at hb
  exact ⟨hof, hstrict, hb⟩

namespace Decision

/-- What is read of a test: a guard, which its second half completes if it is a first half, or an alternative. -/
theorem construct_test {a : Acceptance} {condition : Tree} {yes no : Decision} {x : Constructed}
    (h : (test condition yes no).construct a none = some x) :
    ∃ rest, no.construct a (condition.firstHalf?.map NullCheck.token) = some rest ∧
      ((∃ c, (NullCheck.of? condition).filter NullCheck.begins = some c ∧ a.accepts yes = true ∧ Constructed.addGuard c rest = some x) ∨
        ((NullCheck.of? condition).filter NullCheck.begins = none ∧ yes.isStopAt condition = true ∧
          rest.addAlternative condition = x)) := by
  rw [construct] at h
  rw [firstHalf?]
  cases hc : (NullCheck.of? condition).filter NullCheck.begins with
  | some c =>
    rw [hc] at h
    simp only at h
    split at h
    · rename_i hyes
      obtain ⟨rest, hrest, h⟩ := Option.bind_eq_some_iff.1 h
      refine ⟨rest, ?_, .inl ⟨c, rfl, hyes, h⟩⟩
      rw [Option.filter_some]
      cases hstrict : c.strict <;> rw [hstrict] at hrest <;> exact hrest
    · exact absurd h (by simp)
  | none =>
    rw [hc] at h
    simp only at h
    split at h
    · rename_i hyes
      obtain ⟨rest, hrest, h⟩ := Option.bind_eq_some_iff.1 h
      exact ⟨rest, hrest, .inr ⟨rfl, hyes, Option.some.inj h⟩⟩
    · exact absurd h (by simp)

/-- What is read of the test after a first half: its second half. -/
theorem construct_awaited {a : Acceptance} {token condition : Tree} {yes no : Decision} {x : Constructed}
    (h : (test condition yes no).construct a (some token) = some x) :
    ∃ c, NullCheck.of? condition = some c ∧ c.completes token = true ∧ no.construct a none = some x := by
  rw [construct] at h
  obtain ⟨c, hc, h⟩ := Option.bind_eq_some_iff.1 h
  split at h
  · rename_i hcompletes
    rw [Bool.and_eq_true] at hcompletes
    exact ⟨c, hc, hcompletes.1, h⟩
  · exact absurd h (by simp)

end Decision

namespace NullCheck

theorem of?_loosely {t : Tree} {c : NullCheck} (h : of? t = some c) : of? c.loosely = some c.loosened := by
  obtain ⟨-, -, -, -, -, -, hcheck⟩ := sides_of_check h
  simp [loosely, loosened, of?, kind?, sides?, isNullish, isNull, hcheck]

/-- What is checked and not assigned, and has the same text as a variable, is this variable. -/
theorem eq_reference_of_same {t : Tree} {name : String} (hc : isCheckable t = true) (ha : t.assignment? = none)
    (h : t.same (.reference name) = true) : t = .reference name ∧ name ≠ "undefined" := by
  have hform := form_same h
  unfold isCheckable at hc
  split at hc
  · rename_i n
    obtain rfl : n = name := Form.reference.inj hform
    exact ⟨rfl, by simpa using hc⟩
  · exact absurd hform (by simp [uncommented, form])
  · rw [ha] at hc
    obtain ⟨o, ho⟩ := Option.isSome_iff_exists.1 (show _ = true by simpa [isAccess] using hc)
    obtain ⟨l, hl, -⟩ := exists_onto_of_object? ho
    rw [hl] at hform
    cases l <;> exact absurd hform (by simp [uncommented, form, Layer.onto])

/-- A link is made of what is checked, however that is compared. -/
theorem addGuard_congr {c c' : NullCheck} (h : c.operand = c'.operand) : Constructed.addGuard c = Constructed.addGuard c' := by
  obtain ⟨operand, _, _, _⟩ := c
  obtain ⟨_, _, _, _⟩ := c'
  obtain rfl : operand = _ := h
  rfl

end NullCheck

namespace Decision

theorem lastLeaf_merged (d : Decision) (halved : Bool) : (d.merged halved).lastLeaf = d.lastLeaf := by
  induction d generalizing halved with
  | leaf => rfl
  | test condition yes no _ ih =>
    cases halved with
    | true => exact ih false
    | false =>
      unfold merged
      split
      · exact ih true
      · exact ih false

/-- Of each pair one loose test is enough for the chain. -/
theorem construct_merged {a : Acceptance} {d : Decision} (first : Option NullCheck) {x : Constructed}
    (h : d.construct a (first.map NullCheck.token) = some x) : (d.merged first.isSome).construct a none = some x := by
  induction d generalizing first x with
  | leaf value stop =>
    cases first with
    | none => exact h
    | some first => exact absurd h (by simp [construct])
  | test condition yes no _ ih =>
    cases first with
    | some first =>
      obtain ⟨c, -, -, hno⟩ := construct_awaited h
      exact ih none hno
    | none =>
      obtain ⟨rest, hrest, hx⟩ := construct_test h
      have hmerged := ih _ hrest
      rw [Option.isSome_none, merged]
      cases hfirst : condition.firstHalf? with
      | some c =>
        rw [hfirst] at hmerged
        obtain ⟨hbegins, -⟩ := Option.filter_eq_some_iff.1 hfirst
        obtain ⟨hof, hstrict, -⟩ := of_firstHalf? hfirst
        rcases hx with ⟨c', hc', hyes, hx⟩ | ⟨hnone, -⟩
        · obtain rfl : c = c' := Option.some.inj (hbegins.symm.trans hc')
          refine (construct_begins hyes (NullCheck.of?_loosely hof) rfl).trans ?_
          exact Option.bind_eq_some_iff.2 ⟨rest, hmerged, (congrFun (NullCheck.addGuard_congr rfl) rest).trans hx⟩
        · exact absurd (hnone.symm.trans hbegins) (by simp)
      | none =>
        rw [hfirst] at hmerged
        rcases hx with ⟨c, hc, hyes, hx⟩ | ⟨hnone, hyes, rfl⟩
        · have hstrict : c.strict = false := by simpa [firstHalf?, hc] using hfirst
          obtain ⟨hof, hb⟩ := Option.filter_eq_some_iff.1 hc
          refine (construct_begins hyes hof hb).trans ?_
          rw [hstrict]
          exact Option.bind_eq_some_iff.2 ⟨rest, hmerged, hx⟩
        · rw [construct, hnone]
          simp only [hyes, if_true]
          exact Option.bind_eq_some_iff.2 ⟨rest, hmerged, rfl⟩

/-- What is matched as a pair is a comparison with `undefined` that has the token of the first half. -/
theorem completes_of_construct {a : Acceptance} {d : Decision} (first : Option NullCheck) {x : Constructed}
    (h : d.construct a (first.map NullCheck.token) = some x) : ∀ p ∈ d.pairs first, p.second.completes p.first.token = true ∧
      ∃ condition, NullCheck.of? condition = some p.second := by
  induction d generalizing first x with
  | leaf value stop => exact fun p hp => absurd hp (by simp [pairs])
  | test condition yes no _ ih =>
    cases first with
    | some first =>
      obtain ⟨c, hc, hcompletes, hno⟩ := construct_awaited h
      simp only [pairs, hc, Option.map_some, Option.toList_some, List.singleton_append, List.mem_cons, forall_eq_or_imp]
      exact ⟨⟨hcompletes, condition, hc⟩, ih none hno⟩
    | none =>
      obtain ⟨rest, hrest, -⟩ := construct_test h
      exact ih _ hrest

end Decision

/-! ## Evaluating the second half -/

namespace Host

variable {W : Type} (H : Host W)

theorem eval_reference {name : String} (h : name ≠ "undefined") : H.eval (.reference name) = H.readVariable name := by
  refine (H.eval_of_settle (H.refer_node rfl)).trans ?_
  rw [if_neg (by simpa using h)]

theorem eval_assign (name : String) (t : Tree) : H.eval (.assign .plain (.reference name) t) = (do
    let v ← H.eval t
    assign name v
    pure v) := by
  have hrefer : H.refer (.assign .plain (.reference name) t) = (do
      let v ← H.reach (H.piece t)
      assign name (v.getD .undefined)
      pure (v.map .value)) := H.refer_node rfl
  simp only [eval, valueOf, bind_assoc, pure_bind]
  rw [reach, piece, hrefer]
  simp only [bind_assoc, pure_bind]
  refine bind_congr fun v => bind_congr fun _ => ?_
  cases v <;> rfl

/-- A variable that has been given a value has it. -/
theorem eval_assigned {name : String} (hn : name ≠ "undefined") {t : Tree} {v : Value} {s s' : Scene W}
    (h : H.eval (.assign .plain (.reference name) t) s = (.ok v, s')) : H.eval (.reference name) s' = (.ok v, s') := by
  rw [eval_assign] at h
  rw [H.eval_reference hn]
  rcases ht : H.eval t s with ⟨_ | w, s₁⟩
  · rw [Eval.bind_error ht] at h
    exact absurd (Prod.mk.inj h).1 (by simp)
  · rw [Eval.bind_ok ht] at h
    obtain ⟨hv, hs⟩ := Prod.mk.inj h
    have hv := Except.ok.inj hv
    rw [← hs, ← hv]
    simp [readVariable, look]

/-- A null check that is not negated holds where it finds its operand missing. -/
theorem truth_of_check {t : Tree} {c : NullCheck} (h : NullCheck.of? t = some c) (hn : c.negated = false) :
    H.conditions.truth t = (do
      let v ← H.eval c.operand
      pure (c.finds v)) := by
  rw [truth_conditions, H.eval_check h]
  simp only [bind_assoc, pure_bind, hn, Bool.bne_false]
  rfl

end Host

namespace StrictPair

/-- The second half assigns nothing, and what is checked does nothing when it is evaluated once more: it is a variable that the first
half assigns, or it is harmless. -/
structure Rechecks (p : StrictPair) : Prop where
  unassigned : p.second.temporary? = none
  harmless : p.first.temporary? = none → p.first.operand.isHarmless = true

instance (p : StrictPair) : Decidable p.Rechecks :=
  decidable_of_iff (p.second.temporary? = none ∧ (p.first.temporary? = none → p.first.operand.isHarmless = true))
    ⟨fun h => ⟨h.1, h.2⟩, fun h => ⟨h.unassigned, h.harmless⟩⟩

/-- Both halves test one value: the second one compares the token itself with `undefined`, and where the first one has found a
value, evaluating its operand gives that value and does nothing. -/
structure TestsOneValue {W : Type} (H : Host W) (p : StrictPair) : Prop where
  negated : p.second.negated = false
  compared : p.second.compared = .undefined
  unassigned : p.second.temporary? = none
  operand : p.second.operand.same p.first.token = true
  value : ∀ s v s', H.eval p.first.operand s = (.ok v, s') → H.eval p.second.operand s' = (.ok v, s')

variable {W : Type} {H : Host W} {p : StrictPair}

theorem Rechecks.testsOneValue (h : p.Rechecks) (hH : H.IsQuiet) (hp : p.second.completes p.first.token = true) {condition : Tree}
    (hc : NullCheck.of? condition = some p.second) : p.TestsOneValue H := by
  simp only [NullCheck.completes, Bool.and_eq_true, Bool.not_eq_true', beq_iff_eq] at hp
  obtain ⟨⟨hneg, hcompared⟩, hsame⟩ := hp
  have hunassigned : p.second.operand.assignment? = none := Option.map_eq_none_iff.1 h.unassigned
  have htoken : p.second.token = p.second.operand := by rw [NullCheck.token, hunassigned]
  rw [htoken] at hsame
  refine ⟨hneg, hcompared, h.unassigned, hsame, fun s v s' hv => ?_⟩
  cases ha : p.first.operand.assignment? with
  | none =>
    have hharmless := h.harmless (by rw [NullCheck.temporary?, ha, Option.map_none])
    rw [NullCheck.token, ha] at hsame
    have heval : H.eval p.second.operand = H.eval p.first.operand := by
      rw [Host.eval, Host.eval, Host.piece_same hharmless hsame]
    have hs := hH.eval hharmless s
    rw [hv] at hs
    obtain rfl : s' = s := hs
    rw [heval]
    exact hv
  | some assigned =>
    obtain ⟨name, value⟩ := assigned
    rw [NullCheck.token, ha] at hsame
    obtain ⟨-, -, -, -, -, hcheckable⟩ := NullCheck.operand_mem hc
    obtain ⟨hoperand, hn⟩ := NullCheck.eq_reference_of_same hcheckable hunassigned hsame
    rw [eq_of_assignment? ha] at hv
    rw [hoperand]
    exact H.eval_assigned hn hv

end StrictPair

/-! ## Going past the guards -/

namespace Conditions

variable {W : Type} (H : Host W)

theorem exhausts_test (condition : Tree) (yes no : Decision) : H.conditions.exhausts (.test condition yes no) = (do
    let holds ← H.conditions.truth condition
    if holds then pure false else H.conditions.exhausts no) := rfl

/-- Evaluation gets past a null check where it does not find its operand missing. -/
theorem exhausts_check {condition : Tree} {c : NullCheck} (h : NullCheck.of? condition = some c) (hn : c.negated = false)
    (yes no : Decision) : H.conditions.exhausts (.test condition yes no) = (do
      let v ← H.eval c.operand
      if c.finds v then pure false else H.conditions.exhausts no) := by
  rw [exhausts_test, H.truth_of_check h hn]
  simp only [bind_assoc, pure_bind]

end Conditions

namespace Decision

variable {W : Type} {H : Host W}

/-- Evaluation gets past the pairs of a decision as it gets past a loose test of each. In the middle of a pair the value of the first
half is known, and is not `null`. -/
theorem exhausts_merged {a : Acceptance} {d : Decision} (first : Option NullCheck) {x : Constructed}
    (h : d.construct a (first.map NullCheck.token) = some x) (hp : ∀ p ∈ d.pairs first, p.TestsOneValue H) (v : Value) (s : Scene W)
    (hv : ∀ c ∈ first, v ≠ .null ∧ ∃ s₀, H.eval c.operand s₀ = (.ok v, s)) :
    H.conditions.exhausts d s =
      if first.isSome && v.isNullish then (.ok false, s) else H.conditions.exhausts (d.merged first.isSome) s := by
  induction d generalizing first x v s with
  | leaf value stop =>
    cases first with
    | none => rfl
    | some first => exact absurd h (by simp [construct])
  | test condition yes no _ ih =>
    cases first with
    | some first =>
      obtain ⟨c, hc, -, hno⟩ := construct_awaited h
      simp only [pairs, hc, Option.map_some, Option.toList_some, List.singleton_append, List.mem_cons, forall_eq_or_imp] at hp
      obtain ⟨hnull, s₀, hfirst⟩ := hv first rfl
      rw [Conditions.exhausts_check H hc hp.1.negated, Eval.bind_ok (hp.1.value s₀ v s hfirst),
        NullCheck.finds_undefined hp.1.compared hnull]
      cases v.isNullish with
      | true => rfl
      | false => exact ih none hno hp.2 v s (by simp)
    | none =>
      obtain ⟨rest, hrest, -⟩ := construct_test h
      rw [pairs] at hp
      rw [Option.isSome_none, merged]
      simp only [Bool.false_and, Bool.false_eq_true, if_false]
      cases hfirst : condition.firstHalf? with
      | some c =>
        rw [hfirst] at hrest hp
        obtain ⟨hof, hstrict, hneg, hnull⟩ := of_firstHalf? hfirst
        simp only
        rw [Conditions.exhausts_check H hof hneg, Conditions.exhausts_check H (NullCheck.of?_loosely hof) rfl,
          NullCheck.operand_loosened]
        rcases hc : H.eval c.operand s with ⟨_ | w, s'⟩
        · rw [Eval.bind_error hc, Eval.bind_error hc]
        · rw [Eval.bind_ok hc, Eval.bind_ok hc]
          have hloosely : c.loosened.finds w = w.isNullish := rfl
          have hfinds : c.finds w = (w == .null) := by simp [NullCheck.finds, hstrict, hnull, Missing.value]
          rw [hloosely, hfinds]
          by_cases hw : w = .null
          · subst hw
            rfl
          · rw [if_neg (by simpa using hw), ih _ hrest hp w s' fun _ hsome => ⟨hw, s, Option.some.inj hsome ▸ hc⟩]
            cases w.isNullish <;> rfl
      | none =>
        rw [hfirst] at hrest hp
        simp only
        rw [Conditions.exhausts_test, Conditions.exhausts_test]
        rcases hc : H.conditions.truth condition s with ⟨_ | holds, s'⟩
        · rw [Eval.bind_error hc, Eval.bind_error hc]
        · rw [Eval.bind_ok hc, Eval.bind_ok hc]
          cases holds with
          | true => rfl
          | false => exact ih none hrest hp .undefined s' (by simp)

end Decision

/-- A strict pair tests one value. For every decision that is made into a chain, with any options: if the second half of each strict
guard assigns nothing, and what is checked does nothing when it is evaluated again, then both halves test the same value in
every state. The chain is made as well of the decision in which one loose test stands for each pair; and evaluation gets past the
tests of the one exactly when it gets past those of the other, with the same effects, or throws the same. -/
theorem Decision.build_pairs {W : Type} (H : Host W) (hH : H.IsQuiet) {d : Decision} {o : Options} {x : Constructed}
    (h : d.build o = some x) (hd : ∀ p ∈ d.pairs none, p.Rechecks) :
    (∀ p ∈ d.pairs none, p.TestsOneValue H) ∧ (d.merged false).build o = some x ∧
      H.conditions.exhausts d = H.conditions.exhausts (d.merged false) := by
  have hpairs : ∀ p ∈ d.pairs none, p.TestsOneValue H := by
    intro p hp
    obtain ⟨hcompletes, condition, hc⟩ := completes_of_construct none h p hp
    exact (hd p hp).testsOneValue hH hcompletes hc
  refine ⟨hpairs, ?_, funext fun s => exhausts_merged none h hpairs .undefined s (by simp)⟩
  have hacceptance : Acceptance.ofDecision (d.merged false) o = .ofDecision d o := by
    simp only [Acceptance.ofDecision, lastLeaf_merged]
  rw [build, hacceptance]
  exact construct_merged none h

/-! ## Examples -/

namespace PairsWitness

open EffectsWitness

def temporary : Tree := .reference "t"

/-- `(t = a.b) === null || t === void 0 || t.c === null || void 0 === t.c ? void 0 : t.c.d` -/
def paired : Tree :=
  .conditional
    (.logical .or
      (.logical .or
        (.logical .or
          (.binary .strictEq (.assign .plain temporary (.member (.reference "a") "b" false)) .null)
          (.binary .strictEq temporary undefined))
        (.binary .strictEq (.member temporary "c" false) .null))
      (.binary .strictEq undefined (.member temporary "c" false)))
    undefined
    (.member (.member temporary "c" false) "d" false)

/-- `a.b?.c?.d` -/
def linked : Tree := .chain (.member (.member (.member (.reference "a") "b" false) "c" true) "d" true)

/-- `(t = x) === null || (t = y) === void 0 ? void 0 : t.b` -/
def reassigned : Tree :=
  .conditional
    (.logical .or
      (.binary .strictEq (.assign .plain temporary (.reference "x")) .null)
      (.binary .strictEq (.assign .plain temporary (.reference "y")) undefined))
    undefined
    (.member temporary "b" false)

/-- `x?.b` -/
def shortened : Tree := .chain (.member (.reference "x") "b" true)

/-- `y` is `undefined`, and no other variable is. -/
def scene : Scene Unit := ⟨⟨fun name => some (if name = "y" then .undefined else .other 0), ()⟩, []⟩

end PairsWitness

open PairsWitness

/-- A temporary that is assigned, and a member access that is read twice. -/
theorem Decision.build_pairs_paired :
    paired.decision.build {} = some ⟨linked, true, ["t"]⟩ ∧ (Host.constant (.other 0)).IsQuiet ∧
      (paired.decision.pairs none).length = 2 ∧ (∀ p ∈ paired.decision.pairs none, p.Rechecks) ∧
      (∀ p ∈ paired.decision.pairs none, p.TestsOneValue (Host.constant (.other 0))) ∧
      (paired.decision.merged false).build {} = some ⟨linked, true, ["t"]⟩ ∧
      (Host.constant (.other 0)).conditions.exhausts paired.decision =
        (Host.constant (.other 0)).conditions.exhausts (paired.decision.merged false) := by
  have hbuild : paired.decision.build {} = some ⟨linked, true, ["t"]⟩ := rfl
  have hrechecks : ∀ p ∈ paired.decision.pairs none, p.Rechecks := by decide
  exact ⟨hbuild, Host.constant_isQuiet _, rfl, hrechecks, Decision.build_pairs _ (Host.constant_isQuiet _) hbuild hrechecks⟩

/-- A second half that assigns may test another value: `(t = x) === null || (t = y) === void 0 ? void 0 : t.b` becomes `x?.b`, though
evaluation ends where `y` is `undefined`. -/
theorem Decision.build_pairs_false : ¬ ∀ (W : Type) (H : Host W), H.IsQuiet → ∀ (d : Decision) (o : Options) (x : Constructed),
    d.build o = some x → (∀ p ∈ d.pairs none, p.TestsOneValue H) ∧
      H.conditions.exhausts d = H.conditions.exhausts (d.merged false) := by
  intro h
  have hbuild : reassigned.decision.build {} = some ⟨shortened, true, ["t"]⟩ := rfl
  obtain ⟨-, hexhausts⟩ := h Unit (.constant (.other 0)) (Host.constant_isQuiet _) _ _ _ hbuild
  have hends : ((Host.constant (.other 0)).conditions.exhausts reassigned.decision scene).1 = .ok false := rfl
  have hgoes : ((Host.constant (.other 0)).conditions.exhausts (reassigned.decision.merged false) scene).1 = .ok true := rfl
  rw [hexhausts, hgoes] at hends
  exact absurd hends (by simp)

end Chainlift
