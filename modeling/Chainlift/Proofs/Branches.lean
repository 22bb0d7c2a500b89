import Chainlift.Proofs.Rows

/-!
# One branch of a decision

A branch of a decision goes through each part of the expression at most once. So a variable that the expression assigns once is
assigned once on a branch (`Decision.assigns_le_weight`), and the second half of a strict pair cannot assign the token of the
first: it checks the token itself (`Decision.isPaired`).
-/

namespace Chainlift

open Tree NullCheck

namespace NullCheck

theorem assignmentCount_operand_le {t : Tree} {c : NullCheck} (h : of? t = some c) (m : String) :
    c.operand.assignmentCount m ≤ t.assignmentCount m := by
  obtain ⟨op, a, b, rfl, hab | hab, -⟩ := operand_mem h <;> rw [hab, assignmentCount_node rfl] <;> simp <;> omega

end NullCheck

/-- What a condition checks is plain, if it is a null check. -/
def Tree.ChecksPlain (t : Tree) : Prop := ∀ c, of? t = some c → Plain true c.operand

namespace Tree.Plain

theorem checksPlain {t : Tree} (h : Plain false t) : t.ChecksPlain := by
  intro c hc
  obtain ⟨op, a, b, rfl, hab, -⟩ := operand_mem hc
  cases h with
  | compare h ha hb =>
    rcases hab with hab | hab
    · rw [hab]
      exact ha
    · rw [hab]
      exact hb

theorem checksPlain_negated {t : Tree} (h : Plain false t) : t.negated.ChecksPlain := by
  intro c hc
  obtain ⟨op, a, b, hn, hab, -⟩ := operand_mem hc
  unfold negated at hn
  split at hn
  · cases h with
    | compare h ha hb =>
      split at hn
      · obtain ⟨-, rfl, rfl⟩ : _ ∧ _ ∧ _ := by simpa using hn
        rcases hab with hab | hab
        · rw [hab]
          exact ha
        · rw [hab]
          exact hb
      · exact absurd hn (by simp [Tree.not])
  · cases h
  all_goals exact absurd hn (by simp [Tree.not])

end Tree.Plain

theorem Tree.Plain.of_operand {t : Tree} (h : Plain true t) (ha : t.assignment? = none) : Plain false t := by
  cases h with
  | operand h => exact h
  | assign => exact absurd ha (by simp [assignment?])

namespace Decision

/-- Conditions and values with a property each. -/
def Consists (P Q : Tree → Prop) : Decision → Prop
  | .leaf value _ => Q value
  | .test condition yes no => P condition ∧ yes.Consists P Q ∧ no.Consists P Q

/-- A property that a choice hands down to what it chooses by and between. -/
structure HandsDown (P : Tree → Prop) : Prop where
  logical : ∀ op a b, P (.logical op a b) → P a ∧ P b
  conditional : ∀ c yes no, P (.conditional c yes no) → P c ∧ P yes ∧ P no

theorem consists_choose {P : Tree → Prop} (hP : HandsDown P) {condition : Tree} (hc : P condition) {yes no : Option Decision}
    (hyes : ∀ d ∈ yes, d.Consists P P) (hno : ∀ d ∈ no, d.Consists P P) : (choose condition yes no).Consists P P := by
  fun_induction choose condition yes no with
  | case1 yes no p q ihq ihp =>
    obtain ⟨hp, hq⟩ := hP.logical _ p q hc
    exact ihp hp (by simpa using ihq hq hyes hno) hno
  | case2 yes no p q ihq ihp =>
    obtain ⟨hp, hq⟩ := hP.logical _ p q hc
    exact ihp hp hyes (by simpa using ihq hq hyes hno)
  | case3 yes no c =>
    refine ⟨hc, ?_, ?_⟩
    · cases yes with
      | none => exact hc
      | some d => exact hyes d rfl
    · cases no with
      | none => exact hc
      | some d => exact hno d rfl

theorem consists_ofValue {P : Tree → Prop} (hP : HandsDown P) {t : Tree} (h : P t) : (ofValue t).Consists P P := by
  fun_induction ofValue t with
  | case1 c yes no ihy ihn =>
    obtain ⟨hc, hy, hn⟩ := hP.conditional c yes no h
    exact consists_choose hP hc (by simpa using ihy hy) (by simpa using ihn hn)
  | case2 p q ih =>
    obtain ⟨hp, hq⟩ := hP.logical _ p q h
    exact consists_choose hP hp (by simpa using ih hq) (by simp)
  | case3 p q ih =>
    obtain ⟨hp, hq⟩ := hP.logical _ p q h
    exact consists_choose hP hp (by simp) (by simpa using ih hq)
  | case4 => exact h

theorem handsDown_plain : HandsDown (Plain false) where
  logical op a b h := by
    cases h with
    | logical op ha hb => exact ⟨ha, hb⟩
  conditional c yes no h := by
    cases h with
    | conditional hc hy hn => exact ⟨hc, hy, hn⟩

theorem Consists.mono {P P' Q : Tree → Prop} {d : Decision} (h : d.Consists P Q) (hp : ∀ t, P t → P' t) : d.Consists P' Q := by
  induction d with
  | leaf value stop => exact h
  | test condition yes no ihy ihn => exact ⟨hp _ h.1, ihy h.2.1, ihn h.2.2⟩

theorem Consists.negated {P P' Q : Tree → Prop} {d : Decision} (h : d.Consists P Q) (hp : ∀ t, P t → P' t.negated) :
    d.negated.Consists P' Q := by
  induction d with
  | leaf value stop => exact h
  | test condition yes no ihy ihn => exact ⟨hp _ h.1, ihn h.2.2, ihy h.2.1⟩

/-- The decision that is read for a plain expression checks plain operands, and its values are plain. -/
theorem consists_decision {t : Tree} (h : Plain false t) : t.decision.Consists ChecksPlain (Plain false) := by
  have hd := consists_ofValue handsDown_plain h
  unfold Tree.decision oriented
  split
  · exact hd.negated fun _ ht => ht.checksPlain_negated
  · exact hd.mono fun _ ht => ht.checksPlain

theorem Consists.guarded {P Q : Tree → Prop} {d : Decision} (h : d.Consists P Q) : Q d.guarded := by
  induction d with
  | leaf value stop => exact h
  | test condition yes no ihy ihn => exact ihn h.2.2

/-- The alternatives are conditions. -/
theorem Consists.of_mem_alternativesFrom {P Q : Tree → Prop} {d : Decision} (h : d.Consists P Q) {halved : Bool} {c : Tree}
    (hc : c ∈ d.alternativesFrom halved) : P c := by
  induction d generalizing halved with
  | leaf => simp [alternativesFrom] at hc
  | test condition yes no ihy ihn =>
    cases halved with
    | true => exact ihn h.2.2 hc
    | false =>
      simp only [alternativesFrom] at hc
      split at hc
      · exact absurd hc (by simp)
      · rw [List.mem_cons] at hc
        rcases hc with rfl | hc
        · exact h.1
        · exact ihn h.2.2 hc

/-- Every guard comes from a condition. -/
theorem Consists.of_mem_guardsFrom {P Q : Tree → Prop} {d : Decision} (h : d.Consists P Q) {halved : Bool} {c : NullCheck}
    (hc : c ∈ d.guardsFrom halved) : ∃ condition, P condition ∧ NullCheck.of? condition = some c := by
  induction d generalizing halved with
  | leaf => simp [guardsFrom] at hc
  | test condition yes no ihy ihn =>
    cases halved with
    | true => exact ihn h.2.2 hc
    | false =>
      simp only [guardsFrom] at hc
      split at hc
      · rename_i k hk
        rw [List.mem_cons] at hc
        rcases hc with rfl | hc
        · exact ⟨condition, h.1, (Option.filter_eq_some_iff.1 hk).1⟩
        · exact ihn h.2.2 hc
      · exact ihn h.2.2 hc

/-- How often a branch assigns a variable at most. A marked leaf is not evaluated again. -/
def weight (name : String) : Decision → Nat
  | .leaf value none => value.assignmentCount name
  | .leaf _ (some _) => 0
  | .test condition yes no => condition.assignmentCount name + max (yes.weight name) (no.weight name)

theorem weight_choose (name : String) (condition : Tree) (yes no : Option Decision) :
    (choose condition yes no).weight name ≤ condition.assignmentCount name +
      max ((yes.map (weight name)).getD 0) ((no.map (weight name)).getD 0) := by
  fun_induction choose condition yes no with
  | case1 yes no p q ihq ihp =>
    rw [assignmentCount_node rfl]
    simp only [Option.map_some, Option.getD_some] at ihp
    simp [ownAssignments]
    omega
  | case2 yes no p q ihq ihp =>
    rw [assignmentCount_node rfl]
    simp only [Option.map_some, Option.getD_some] at ihp
    simp [ownAssignments]
    omega
  | case3 yes no c => cases yes <;> cases no <;> simp [weight]

theorem weight_ofValue (name : String) (t : Tree) : (ofValue t).weight name ≤ t.assignmentCount name := by
  fun_induction ofValue t with
  | case1 c yes no ihy ihn =>
    have := weight_choose name c (some (ofValue yes)) (some (ofValue no))
    rw [assignmentCount_node rfl]
    simp [ownAssignments] at this ⊢
    omega
  | case2 p q ih =>
    have := weight_choose name p (some (ofValue q)) none
    rw [assignmentCount_node rfl]
    simp [ownAssignments] at this ⊢
    omega
  | case3 p q ih =>
    have := weight_choose name p none (some (ofValue q))
    rw [assignmentCount_node rfl]
    simp [ownAssignments] at this ⊢
    omega
  | case4 => exact Nat.le_refl _

theorem assignmentCount_negated (name : String) (t : Tree) : t.negated.assignmentCount name = t.assignmentCount name := by
  have hnot : ∀ t : Tree, t.not.assignmentCount name = t.assignmentCount name := by
    intro t
    rw [Tree.not, assignmentCount_node rfl]
    simp [ownAssignments]
  fun_induction Tree.negated t with
  | case1 op a b op' h => rw [assignmentCount_node rfl, assignmentCount_node rfl]; rfl
  | case3 t => exact (hnot t).symm
  | case4 a b iha ihb =>
    rw [assignmentCount_node rfl, assignmentCount_node rfl]
    simp [ownAssignments, iha, ihb]
  | case5 a b iha ihb =>
    rw [assignmentCount_node rfl, assignmentCount_node rfl]
    simp [ownAssignments, iha, ihb]
  | _ => exact hnot _

theorem weight_negated (name : String) (d : Decision) : d.negated.weight name = d.weight name := by
  induction d with
  | leaf => rfl
  | test condition yes no ihy ihn =>
    rw [negated, weight, weight, ihy, ihn, assignmentCount_negated, Nat.max_comm]

theorem weight_decision (name : String) (t : Tree) : t.decision.weight name ≤ t.assignmentCount name := by
  unfold Tree.decision oriented
  split
  · rw [weight_negated]
    exact weight_ofValue name t
  · exact weight_ofValue name t

/-- What guards and their value assign is not more than what a branch does. -/
theorem assigns_le_weight (name : String) (d : Decision) (halved : Bool) (hlast : d.lastLeaf.2 = none) :
    assigns (d.guardsFrom halved) d.guarded name ≤ d.weight name := by
  induction d generalizing halved with
  | leaf value stop =>
    obtain rfl : stop = none := hlast
    simp [guardsFrom, assigns, weight, guarded, lastLeaf]
  | test condition yes no ihy ihn =>
    have hno := ihn false hlast
    cases halved with
    | true =>
      simp only [guardsFrom, weight]
      show assigns _ no.guarded name ≤ _
      omega
    | false =>
      simp only [guardsFrom, weight]
      show assigns _ no.guarded name ≤ _
      split
      · rename_i k hk
        have hk := assignmentCount_operand_le (Option.filter_eq_some_iff.1 hk).1 name
        have hno := ihn k.strict hlast
        simp only [assigns, List.map_cons, List.sum_cons] at hno ⊢
        omega
      · omega

/-- The second half of a strict pair checks the token of the first, which it cannot assign. -/
theorem isPaired {Q : Tree → Prop} {d : Decision} {awaited : Option Tree} (hc : d.Consists ChecksPlain Q)
    (htoken : ∀ token ∈ awaited, token.isName = true ∧ ∀ n, token = .reference n → d.weight n = 0)
    (hg : ∀ g ∈ d.guardsFrom awaited.isSome, g.token.isName = true ∧
      ∀ n, g.token = .reference n → d.weight n ≤ g.temporary?.toList.length) : d.IsPaired awaited := by
  induction d generalizing awaited with
  | leaf => cases awaited <;> trivial
  | test condition yes no ihy ihn =>
    have hle : ∀ n, no.weight n ≤ (test condition yes no).weight n := by
      intro n
      simp only [weight]
      omega
    have hrest : ∀ {gs : List NullCheck}, (∀ g ∈ gs, g.token.isName = true ∧
        ∀ n, g.token = .reference n → (test condition yes no).weight n ≤ g.temporary?.toList.length) →
        ∀ g ∈ gs, g.token.isName = true ∧ ∀ n, g.token = .reference n → no.weight n ≤ g.temporary?.toList.length :=
      fun hgs g hmem => ⟨(hgs g hmem).1, fun n hn => (hle n).trans ((hgs g hmem).2 n hn)⟩
    cases awaited with
    | some token =>
      obtain ⟨hname, hzero⟩ := htoken token rfl
      refine ⟨fun c hc' hsame => ?_, ihn hc.2.2 (by simp) (hrest hg)⟩
      cases hop : c.temporary? with
      | none =>
        have ha : c.operand.assignment? = none := Option.map_eq_none_iff.1 hop
        have hto : c.token = c.operand := by simp only [NullCheck.token, ha]
        rw [hto] at hsame
        exact ((hc.1 c hc').of_operand ha).eq_of_same hname hsame
      | some n =>
        -- The condition would assign the token, which no branch does.
        rw [(eq_of_temporary? hop).2] at hsame
        have hw := hzero n ((Plain.reference n).eq_of_same hname hsame).symm
        have hle := assignmentCount_operand_le hc' n
        rw [assignmentCount_temporary? hop] at hle
        simp only [weight] at hw
        omega
    | none =>
      simp only [IsPaired]
      simp only [guardsFrom, Option.isSome_none] at hg
      split
      · rename_i k hk
        simp only [hk, List.mem_cons, forall_eq_or_imp] at hg
        have hoperand := assignmentCount_operand_le (Option.filter_eq_some_iff.1 hk).1
        refine ihn hc.2.2 (fun token ht => ?_) ?_
        · obtain rfl : k.token = token := by
            split at ht
            · simpa using ht
            · exact absurd ht (by simp)
          refine ⟨hg.1.1, fun n hn => ?_⟩
          -- The guard may assign its token once, and has done so.
          have hw := hg.1.2 n hn
          simp only [weight] at hw
          have htemp := length_temporary?_le hn
          have hoperand := hoperand n
          omega
        · rw [isSome_awaited]
          exact hrest hg.2
      · rename_i hk
        simp only [hk] at hg
        exact ihn hc.2.2 (by simp) (hrest hg)

end Decision

end Chainlift
