import Chainlift.Proofs.Links

/-!
# Rows of guards on plain expressions

What a row of guards makes of a plain expression does what the guards and the expression do, up to the variables that are
reported as consumed (`Constructed.close_ofGuards`). On the way from the last guard to the first, an expression is plain until
a temporary is kept in it because it is read elsewhere; then it has no base for another link, and no further guard succeeds.
-/

namespace Chainlift

open Tree Eval

namespace Tree

theorem isName_iff {t : Tree} : t.isName = true ↔ t = .this ∨ ∃ name, t = .reference name := by
  unfold isName
  split <;> simp_all

theorem Plain.of_isName {t : Tree} (h : t.isName = true) : Plain false t := by
  obtain rfl | ⟨name, rfl⟩ := isName_iff.1 h
  · exact .this
  · exact .reference name

theorem assignmentCount_isName {t : Tree} (h : t.isName = true) (m : String) : t.assignmentCount m = 0 := by
  obtain rfl | ⟨name, rfl⟩ := isName_iff.1 h <;> rfl

theorem isMethodAccess_isName {t : Tree} (h : t.isName = true) : t.isMethodAccess = false := by
  obtain rfl | ⟨name, rfl⟩ := isName_iff.1 h <;> rfl

/-- Under its layers the expression assigns the variable, which is also read in it. -/
def IsKept (name : String) (t : Tree) : Prop :=
  ∃ v ls, t = .chain ((assign .plain (.reference name) v).along ls) ∧ name ≠ "undefined" ∧ Plain false v ∧
    (∀ l ∈ ls, ∀ p ∈ l.1.parts, Plain false p) ∧ ((assign .plain (.reference name) v).along ls).isDirect = true ∧
    t.assignmentCount name < t.uses name

/-- What links make of a plain expression: it is plain still, or one of the variables is kept in it. -/
def IsLinked (names : List String) (t : Tree) : Prop :=
  (Plain false t ∧ t.isDirect = true) ∨ ∃ name ∈ names, t.IsKept name

theorem isDirect_closed (t : Tree) : t.closed.isDirect = t.isDirect := by
  unfold closed
  split <;> rfl

theorem isDirect_opened {t : Tree} (h : t.isDirect = true) : t.opened.isDirect = true := by
  unfold opened
  split
  · rfl
  · exact h
  · exact h

end Tree

namespace Tree.IsLinked

theorem foldCalls_eq {names : List String} {t : Tree} (h : t.IsLinked names) (name : String) : t.foldCalls name = t := by
  rcases h with h | ⟨kept, -, v, ls, rfl, hn, hv, hl, hd, -⟩
  · exact h.1.foldCalls_eq name
  · rw [foldCalls_node rfl, List.map_cons, List.map_nil, foldCalls_along ?_ (fun l h p hp => (hl l h p hp).foldCalls_eq name) hd]
    · exact foldCall_of_form rfl
    · exact (Plain.assign hn hv).foldCalls_eq name

end Tree.IsLinked

variable {W : Type} {M : Machine W}

theorem Tree.IsLinked.mono {names names' : List String} {t : Tree} (h : t.IsLinked names) (hn : names ⊆ names') :
    t.IsLinked names' :=
  h.imp_right fun ⟨name, hmem, hk⟩ => ⟨name, hn hmem, hk⟩

/-- Unwrapping a variable that is not read leaves links as they are. -/
theorem Tree.IsLinked.unwrap {names : List String} {t : Tree} (h : t.IsLinked names) {name : String} (hu : t.Unread name) :
    (t.unwrap name).IsLinked names ∧ (∀ m, (t.unwrap name).assignmentCount m ≤ t.assignmentCount m) ∧
      (M.Ignores name → Close [name] (M.eval t) (M.eval (t.unwrap name))) := by
  rcases h with h | ⟨kept, hk, v, ls, rfl, hn, hv, hl, hd, hread⟩
  · refine ⟨.inl ⟨h.1.unwrap name, ?_⟩, fun m => h.1.assignmentCount_unwrap_le m name, fun hM => ?_⟩
    · rw [h.1.isDirect_unwrap name rfl]
      exact h.2
    · exact (Machine.idle_unwrap hM h.1 hu).1.close
  · have hne : kept ≠ name := by
      rintro rfl
      exact absurd hu (Nat.ne_of_gt hread)
    let ls' := ls.map fun l => (l.1.unwrap name, l.2)
    have hunwrap : (Tree.chain ((Tree.assign .plain (.reference kept) v).along ls)).unwrap name =
        .chain ((Tree.assign .plain (.reference kept) (v.unwrap name)).along ls') := by
      rw [unwrap_node rfl (by simp), List.map_cons, List.map_nil, unwrap_along, unwrap_assign, if_neg hne]
    have hassign : Plain true (.assign .plain (.reference kept) v) := .assign hn hv
    have hcount : ∀ m, ((Tree.chain ((Tree.assign .plain (.reference kept) v).along ls)).unwrap name).assignmentCount m ≤
        (Tree.chain ((Tree.assign .plain (.reference kept) v).along ls)).assignmentCount m := by
      intro m
      have : (((Tree.assign .plain (.reference kept) v).along ls).unwrap name).assignmentCount m ≤
          ((Tree.assign .plain (.reference kept) v).along ls).assignmentCount m :=
        assignmentCount_unwrap_along_le (hassign.assignmentCount_unwrap_le m name)
          fun l h p hp => (hl l h p hp).assignmentCount_unwrap_le m name
      rw [unwrap_node rfl (by simp), assignmentCount_node rfl, assignmentCount_node rfl]
      simpa [ownAssignments] using this
    refine ⟨.inr ⟨kept, hk, ?_⟩, hcount, fun hM => ?_⟩
    · refine ⟨v.unwrap name, ls', hunwrap, hn, hv.unwrap name, ?_, ?_, ?_⟩
      · simp only [ls', List.mem_map]
        rintro l ⟨l, h, rfl⟩ p hp
        rw [Layer.parts_unwrap, List.mem_map] at hp
        obtain ⟨p, hp, rfl⟩ := hp
        exact (hl l h p hp).unwrap name
      · exact isDirect_unwrap_along name (fun _ => rfl) (by simp [isMethodAccess]) hd
      · rw [uses_unwrap hne]
        exact Nat.lt_of_le_of_lt (hcount kept) hread
    · have hu := unread_along (unread_node rfl rfl hu _ (List.mem_singleton_self _))
      have hbase := (Machine.idle_unwrap hM hassign hu.1).1
      rw [unwrap_assign, if_neg hne] at hbase
      rw [hunwrap, Machine.eval_chain, Machine.eval_chain]
      refine Idle.close (Machine.idle_eval hM ?_)
      rw [Machine.refer_along, Machine.refer_along, Machine.refer_assign, Machine.refer_assign]
      exact (hbase.bind fun w => Machine.idle_some _).bind fun p =>
        Machine.idle_follow hM (fun l h p hp => ⟨hl l h p hp, hu.2 l h p hp⟩) p

/-- Folding variables leaves links as they are. -/
theorem Tree.IsLinked.foldEach {names : List String} {t : Tree} (h : t.IsLinked names) (folded : List String)
    (hM : ∀ n ∈ folded, M.Ignores n) :
    (t.foldEach folded).1.IsLinked names ∧ (∀ m, (t.foldEach folded).1.assignmentCount m ≤ t.assignmentCount m) ∧
      Close (t.foldEach folded).2 (M.eval t) (M.eval (t.foldEach folded).1) := by
  induction folded generalizing t with
  | nil => exact ⟨h, fun m => Nat.le_refl _, close_refl _ _⟩
  | cons name folded ih =>
    simp only [List.mem_cons, forall_eq_or_imp] at hM
    unfold Tree.foldEach
    by_cases hu : t.Unread name
    · have hfold : t.fold name = t.unwrap name := by
        simp only [Tree.fold, h.foldCalls_eq, beq_iff_eq]
        exact if_pos hu
      obtain ⟨hl, hcount, hclose⟩ := h.unwrap (M := M) hu
      simp only [hfold]
      split
      · obtain ⟨hl', hcount', hclose'⟩ := ih hl hM.2
        exact ⟨hl', fun m => (hcount' m).trans (hcount m), (hclose hM.1).trans hclose'⟩
      · exact ih h hM.2
    · have hfold : t.fold name = t := by
        simp only [Tree.fold, h.foldCalls_eq, beq_iff_eq]
        exact if_neg hu
      have huses : (t.uses name == 0) = false := by
        have := assignmentCount_le_uses name t
        simp only [Unread] at hu
        simp only [beq_eq_false_iff_ne, ne_eq]
        omega
      simp only [hfold, huses, Bool.false_eq_true, if_false]
      exact ih h hM.2

/-! ## Rows of guards -/

namespace NullCheck

/-- How often a variable is assigned in the operands of guards and in what they protect. -/
def assigns (cs : List NullCheck) (value : Tree) (name : String) : Nat :=
  (cs.map (·.operand.assignmentCount name)).sum + value.assignmentCount name

theorem assigns_cons (c : NullCheck) (cs : List NullCheck) (value : Tree) (name : String) :
    assigns (c :: cs) value name = c.operand.assignmentCount name + assigns cs value name := by
  simp [assigns, Nat.add_assoc]

theorem le_assigns {cs : List NullCheck} {c : NullCheck} (h : c ∈ cs) (value : Tree) (name : String) :
    c.operand.assignmentCount name ≤ assigns cs value name := by
  have := List.single_le_sum (fun _ _ => Nat.zero_le _) _ (List.mem_map_of_mem (f := fun c : NullCheck => c.operand.assignmentCount name) h)
  unfold assigns
  omega

theorem eq_of_temporary? {c : NullCheck} {name : String} (h : c.temporary? = some name) :
    c.operand = .assign .plain (.reference name) c.target ∧ c.token = .reference name := by
  obtain ⟨⟨n, v⟩, ha, rfl⟩ := Option.map_eq_some_iff.1 h
  simp only [target, token, ha]
  exact ⟨eq_of_assignment? ha, trivial⟩

theorem assignmentCount_temporary? {c : NullCheck} {name : String} (h : c.temporary? = some name) :
    c.operand.assignmentCount name = c.target.assignmentCount name + 1 := by
  rw [(eq_of_temporary? h).1, assignmentCount_assign, List.count_singleton_self, Nat.add_comm]

/-- A token that is a temporary is assigned by its guard. -/
theorem length_temporary?_le {c : NullCheck} {name : String} (h : c.token = .reference name) :
    c.temporary?.toList.length ≤ c.operand.assignmentCount name := by
  cases htemp : c.temporary? with
  | none => exact Nat.zero_le _
  | some n =>
    obtain rfl : n = name := by simpa [(eq_of_temporary? htemp).2] using h
    rw [assignmentCount_temporary? htemp]
    exact Nat.le_add_left 1 _

theorem IsSimple.of_temporary? {c : NullCheck} (h : c.IsSimple) {name : String} (hn : c.temporary? = some name) :
    name ≠ "undefined" ∧ Plain false c.target := by
  have hop := (eq_of_temporary? hn).1
  cases h with
  | this h => exact absurd (h.symm.trans hop) (by simp)
  | «variable» n h hn => exact absurd (h.symm.trans hop) (by simp)
  | assign n v h hundefined hv =>
    obtain ⟨rfl, rfl⟩ : n = name ∧ v = c.target := by simpa using h.symm.trans hop
    exact ⟨hundefined, hv⟩

theorem IsSimple.isName_token {c : NullCheck} (h : c.IsSimple) : c.token.isName = true := by
  cases h with
  | this h => simp [token, h, assignment?, isName]
  | «variable» name h hn => simp [token, h, assignment?, isName]
  | assign name v h hn hv => simp [token, h, assignment?, isName]

/-- An operand is put under a layer as it is. -/
theorem IsSimple.under_operand {c : NullCheck} (h : c.IsSimple) (token : Tree) (l : Layer) :
    Substitution.under ⟨token, some c.operand⟩ l = c.operand := by
  cases h with
  | this h => rw [h]; cases l <;> rfl
  | «variable» name h hn => rw [h]; cases l <;> rfl
  | assign name v h hn hv => rw [h]; cases l <;> rfl

end NullCheck

namespace Tree

theorem along_ne_nonNull {t : Tree} (h : ∀ u, t ≠ .nonNull u) (ls : List (Layer × Bool)) (u : Tree) :
    t.along ls ≠ .nonNull u := by
  induction ls generalizing t with
  | nil => exact h u
  | cons l ls ih => exact ih (by rcases l with ⟨_ | _ | _ | _, link⟩ <;> simp [Layer.onto])

theorem opened_chain {t : Tree} (h : ∀ u, t ≠ .nonNull u) : (Tree.chain t).opened = t := by
  unfold opened
  split
  · rename_i heq
    exact absurd (List.cons.inj (Tree.node.inj heq).2).1 (h _)
  · rename_i heq
    exact (List.cons.inj (Tree.node.inj heq).2).1.symm
  · rename_i hne
    exact absurd rfl (hne t)

/-- Where a variable is kept, no other token is found. -/
theorem IsKept.rewrite_matched {name : String} {t : Tree} (h : t.IsKept name) {token : Tree} (hs : token.isName = true)
    (hne : token ≠ .reference name) (target : Option Tree) : (t.rewrite token target).matched = false := by
  obtain ⟨v, ls, rfl, hn, hv, hl, hd, -⟩ := h
  have htoken : (reference name).same token = false := by
    cases hsame : (reference name).same token with
    | false => rfl
    | true => exact absurd ((Plain.reference name).eq_of_same hs hsame).symm hne
  have hassign : Substitution.onSpine ⟨token, target⟩ (.assign .plain (.reference name) v) =
      ⟨.assign .plain (.reference name) v, false⟩ := by
    simp [Substitution.onSpine, Substitution.onAssignment, Substitution.isTokenTarget, Substitution.isToken, htoken]
  have hbase : Substitution.isToken ⟨token, target⟩ (.assign .plain (.reference name) v) = false :=
    Substitution.isToken_of_form hs (by simp [form]) (by simp [form]) (by simp [form])
  show (Substitution.onSpine ⟨token, target⟩ (Tree.opened _)).matched = false
  rw [opened_chain (along_ne_nonNull (by simp) ls), Substitution.onSpine_along hs hbase (fun _ _ => rfl) hd, hassign]

end Tree

namespace Tree

/-- A new base under a link is as direct as the token was. -/
theorem isDirect_relink {t u : Tree} {l : Layer} {link : Bool} {ls : List (Layer × Bool)} (hu : u.isDirect = true)
    (hm : ∀ args, l = .call args → u.isMethodAccess = false) (h : (t.along ((l, link) :: ls)).isDirect = true) :
    (u.along ((l, true) :: ls)).isDirect = true := by
  have hid : ((l.onto true u).along (ls.map fun l => (id l.1, l.2))).isDirect = true :=
    isDirect_along (t := l.onto link t) (fun _ _ _ => ⟨rfl, rfl⟩) ?_ ?_ h
  · show ((l.onto true u).along ls).isDirect = true
    simpa using hid
  · intro _
    cases l with
    | call args => simp [Layer.onto, isDirect, hu, hm args rfl]
    | _ => exact hu
  · cases l <;> simp [Layer.onto, isMethodAccess]

/-- What takes the place of the token is the target in another guise. -/
theorem Plain.under {token v : Tree} (hs : token.isName = true) (hv : Plain false v) (hd : v.isDirect = true) (l : Layer) :
    Plain false (Substitution.under ⟨token, some v⟩ l) ∧ (Substitution.under ⟨token, some v⟩ l).isDirect = true ∧
      (∀ args, l = .call args → (Substitution.under ⟨token, some v⟩ l).isMethodAccess = false) ∧
      ∀ m, (Substitution.under ⟨token, some v⟩ l).uses m = v.uses m ∧
        (Substitution.under ⟨token, some v⟩ l).assignmentCount m = v.assignmentCount m := by
  cases l with
  | call args =>
    rw [Substitution.under_call hs]
    split
    · rename_i hm
      exact ⟨.unbound hm hv, rfl, fun _ _ => rfl, count_unbound v⟩
    · rename_i hm
      refine ⟨hv, hd, fun _ _ => ?_, fun m => ⟨rfl, rfl⟩⟩
      unfold isMethodAccess
      split
      · exact absurd rfl hm
      · rfl
  | _ => exact ⟨hv.opened, isDirect_opened hd, by simp, count_opened v⟩

end Tree

namespace Constructed

open NullCheck

/-- A guard and the expression it goes on with: the link is put in the first layer over the token. -/
theorem rewrite_guard {c : NullCheck} (hc : c.IsSimple) {t : Tree} (h : Plain false t) (hd : t.isDirect = true)
    (hm : (t.rewrite c.token (some c.target)).matched = true) :
    ∃ l link ls, t.opened = c.token.along ((l, link) :: ls) ∧ ∀ target,
      (t.rewrite c.token (some target)).expr = ((Substitution.under ⟨c.token, some target⟩ l).along ((l, true) :: ls)).closed := by
  obtain ⟨l, link, ls, ht, hexpr⟩ := Substitution.onSpine_matched hc.isName_token h.opened (isDirect_opened hd) hm
  exact ⟨l, link, ls, ht, fun target => congrArg Tree.closed (hexpr (some target))⟩

/-- Folding what a guard has made. -/
theorem foldAssigned_linked {names : List String} {t : Tree} (h : t.IsLinked names)
    (hM : ∀ n, 0 < t.assignmentCount n → M.Ignores n) :
    t.foldAssigned.1.IsLinked names ∧ (∀ m, t.foldAssigned.1.assignmentCount m ≤ t.assignmentCount m) ∧
      Close t.foldAssigned.2 (M.eval t) (M.eval t.foldAssigned.1) := by
  refine h.foldEach _ fun n hn => hM n ?_
  unfold Tree.assigned at hn
  exact List.count_pos_iff.2 (List.mem_eraseDups.1 hn)

section

variable {c : NullCheck} (hc : c.IsSimple) {t : Tree} {l : Layer} {link : Bool} {ls : List (Layer × Bool)}
  (ht : t.opened = c.token.along ((l, link) :: ls))

include hc ht

/-- Over a new base is assigned what the base assigns, and what was assigned over the token. -/
theorem assignmentCount_relinked (u : Tree) (m : String) :
    (u.along ((l, true) :: ls)).closed.assignmentCount m = u.assignmentCount m + t.assignmentCount m := by
  rw [assignmentCount_closed, ← (count_opened t m).2, ht, assignmentCount_along, assignmentCount_along,
    assignmentCount_isName hc.isName_token]
  simp

theorem guard_eq_relinked : M.guard c.operand (M.eval t) = M.eval (c.operand.along ((l, true) :: ls)).closed := by
  rw [← M.eval_opened t, ht, ← Machine.eval_link hc, M.eval_closed]

/-- A temporary that is still read is kept under the layers. -/
theorem isKept_relinked (hd : t.isDirect = true) (hparts : ∀ k ∈ (l, true) :: ls, ∀ p ∈ k.1.parts, Plain false p)
    {name : String} (hn : c.temporary? = some name) (hone : c.target.assignmentCount name = 0 ∧ t.assignmentCount name = 0)
    (hread : 0 < c.target.uses name + (((l, true) :: ls).map fun k => (k.1.parts.map (·.uses name)).sum).sum) :
    (c.operand.along ((l, true) :: ls)).closed.IsKept name := by
  obtain ⟨hundefined, hv⟩ := hc.of_temporary? hn
  have hop := (eq_of_temporary? hn).1
  have hd := isDirect_opened hd
  rw [ht] at hd
  have hcount : (c.operand.along ((l, true) :: ls)).closed.assignmentCount name = 1 := by
    rw [assignmentCount_relinked hc ht, assignmentCount_temporary? hn, hone.1, hone.2]
  have huses : (c.operand.along ((l, true) :: ls)).closed.uses name =
      1 + c.target.uses name + (((l, true) :: ls).map fun k => (k.1.parts.map (·.uses name)).sum).sum := by
    rw [uses_closed, uses_along, hop, uses_assign, List.count_singleton_self]
  refine ⟨c.target, (l, true) :: ls, ?_, hundefined, hv, hparts, ?_, ?_⟩
  · rw [hop]
    exact closed_along _ _ _
  · exact isDirect_relink rfl (fun _ _ => rfl) hd
  · omega

end

/-- A guard on an expression that is plain still: what it makes of it, before folding. -/
theorem link_of_guard {c : NullCheck} (hc : c.IsSimple) (htarget : c.target.isDirect = true) {t : Tree}
    (h : Plain false t) (hd : t.isDirect = true) (hm : (t.rewrite c.token (some c.target)).matched = true)
    (hone : ∀ n ∈ c.temporary?, c.target.assignmentCount n = 0 ∧ t.assignmentCount n = 0)
    (hM : ∀ n ∈ c.temporary?, M.Ignores n) :
    (c.relink t).IsLinked c.temporary?.toList ∧
      (∀ m, (c.relink t).assignmentCount m ≤ c.operand.assignmentCount m + t.assignmentCount m) ∧
      Close c.temporary?.toList (M.guard c.operand (M.eval t)) (M.eval (c.relink t)) := by
  obtain ⟨l, link, ls, ht, hexpr⟩ := rewrite_guard hc h hd hm
  have hd' := isDirect_opened hd
  have hp := h.opened
  rw [ht] at hd' hp
  have hparts : ∀ k ∈ (l, true) :: ls, ∀ p ∈ k.1.parts, Plain false p := by
    simpa only [List.mem_cons, forall_eq_or_imp] using hp.of_along.2
  have hcount := fun u m => (assignmentCount_relinked hc ht u m).le
  unfold NullCheck.relink
  cases htemp : c.temporary? with
  | none =>
    have ha : c.operand.assignment? = none := Option.map_eq_none_iff.1 htemp
    have hto : c.target = c.operand := by simp only [NullCheck.target, ha]
    have hname : c.operand.isName = true := by simpa only [NullCheck.token, ha] using hc.isName_token
    simp only [Option.any_none, Bool.false_eq_true, if_false, hto, hexpr, hc.under_operand]
    refine ⟨.inl ⟨((Plain.of_isName hname).along hparts).closed, ?_⟩, hcount _, ?_⟩
    · rw [isDirect_closed]
      exact isDirect_relink (hto ▸ htarget) (fun _ _ => isMethodAccess_isName hname) hd'
    · rw [guard_eq_relinked hc ht]
      exact close_refl _ _
  | some name =>
    have hop := (eq_of_temporary? htemp).1
    obtain ⟨hp, hdirect, hmethod, hcounts⟩ := Plain.under hc.isName_token (hc.of_temporary? htemp).2 htarget l
    simp only [Option.any_some, decide_eq_true_eq, hexpr c.target, uses_closed, uses_along, (hcounts name).1]
    split
    · rename_i hread
      rw [hexpr, hc.under_operand]
      refine ⟨.inr ⟨name, List.mem_singleton_self _, ?_⟩, hcount _, ?_⟩
      · exact isKept_relinked hc ht hd hparts htemp (hone name htemp) hread
      · rw [guard_eq_relinked hc ht]
        exact close_refl _ _
    · rename_i hread
      rw [hexpr]
      have hsum : (((l, true) :: ls).map fun k => (k.1.parts.map (·.uses name)).sum).sum = 0 := by omega
      refine ⟨.inl ⟨(hp.along hparts).closed, ?_⟩, fun m => ?_, ?_⟩
      · rw [isDirect_closed]
        exact isDirect_relink hdirect hmethod hd'
      · refine (hcount _ m).trans (Nat.add_le_add_right ?_ _)
        rw [(hcounts m).2, hop, assignmentCount_assign]
        exact Nat.le_add_left _ _
      · rw [guard_eq_relinked hc ht, M.eval_closed, M.eval_closed, hop]
        refine Machine.close_target (hM name htemp) hc.isName_token (hc.of_temporary? htemp).2
          fun k hk p hmem => ⟨hparts k hk p hmem, ?_⟩
        have hk := List.sum_eq_zero_iff.1 hsum _ (List.mem_map_of_mem hk)
        exact List.sum_eq_zero_iff.1 hk _ (List.mem_map_of_mem hmem)

/-- A variable that is kept is assigned by a later guard, so it is not this guard's token. Where the token is found, nothing is kept. -/
theorem plain_of_matched {c : NullCheck} {cs : List NullCheck} {value t : Tree} (hl : t.IsLinked (cs.filterMap (·.temporary?)))
    (hname : c.token.isName = true) (hone : ∀ n, c.token = .reference n → assigns (c :: cs) value n ≤ c.temporary?.toList.length)
    (hm : (t.rewrite c.token (some c.target)).matched = true) : Plain false t ∧ t.isDirect = true := by
  rcases hl with hl | ⟨name, hmem, hkept⟩
  · exact hl
  · obtain ⟨c', hc', htemp⟩ := List.mem_filterMap.1 hmem
    have hpos := le_assigns hc' value name
    rw [assignmentCount_temporary? htemp] at hpos
    refine absurd (hkept.rewrite_matched hname ?_ (some c.target)) (by simp [hm])
    intro htoken
    have htotal := hone name htoken
    rw [assigns_cons] at htotal
    have := length_temporary?_le htoken
    omega

/-- A row of guards on a plain value: what is made of it does what the guards do, up to the variables that have gone. -/
theorem close_ofGuards {cs : List NullCheck} {value : Tree} {x : Constructed} (h : ofGuards cs value = some x)
    (hv : Plain false value) (hd : value.isDirect = true) (hs : ∀ c ∈ cs, c.IsSimple) (ht : ∀ c ∈ cs, c.target.isDirect = true)
    (hone : ∀ c ∈ cs, ∀ n, c.token = .reference n → assigns cs value n ≤ c.temporary?.toList.length)
    (hM : ∀ n, 0 < assigns cs value n → M.Ignores n) :
    x.expr.IsLinked (cs.filterMap (·.temporary?)) ∧ (∀ m, x.expr.assignmentCount m ≤ assigns cs value m) ∧
      Close x.consumed (M.runGuards cs (M.eval value)) (M.eval x.expr) := by
  induction cs generalizing x with
  | nil =>
    obtain rfl := Option.some.inj h
    have hl : value.IsLinked [] := .inl ⟨hv, hd⟩
    obtain ⟨hl, hcount, hclose⟩ := foldAssigned_linked (M := M) hl fun n hn => hM n (by simpa [assigns] using hn)
    exact ⟨hl, fun m => (hcount m).trans (by simp [assigns]), hclose⟩
  | cons c cs ih =>
    obtain ⟨rest, hrest, h⟩ := Option.bind_eq_some_iff.1 h
    simp only [List.mem_cons, forall_eq_or_imp] at hs ht hone
    have hmono := assigns_cons c cs value
    obtain ⟨hl, hcount, hclose⟩ := ih hrest hs.2 ht.2
      (fun c' hc' n hn => by have := hone.2 c' hc' n hn; rw [hmono] at this; omega)
      (fun n hn => hM n (by rw [hmono]; omega))
    obtain ⟨hm, rfl⟩ := addGuard_eq_some.1 h
    have hplain := plain_of_matched hl hs.1.isName_token hone.1 hm
    have hone' : ∀ n ∈ c.temporary?, c.target.assignmentCount n = 0 ∧ rest.expr.assignmentCount n = 0 := by
      intro n hn
      have htotal := hone.1 n (eq_of_temporary? hn).2
      have hrest := hcount n
      rw [hmono, assignmentCount_temporary? hn, Option.mem_def.1 hn] at htotal
      simp only [Option.toList_some, List.length_singleton] at htotal
      omega
    have hM' : ∀ n ∈ c.temporary?, M.Ignores n := by
      intro n hn
      refine hM n ?_
      rw [hmono, assignmentCount_temporary? hn]
      omega
    obtain ⟨hlinked, hcount', hclose'⟩ := link_of_guard hs.1 ht.1 hplain.1 hplain.2 hm hone' hM'
    obtain ⟨hf, hfcount, hfclose⟩ := foldAssigned_linked (M := M) hlinked fun n hn => hM n (by
      have := hcount' n
      have := hcount n
      rw [hmono]
      omega)
    refine ⟨hf.mono ?_, fun m => (hfcount m).trans ?_, ?_⟩
    · intro n hn
      rw [Option.mem_toList] at hn
      exact List.mem_filterMap.2 ⟨c, List.mem_cons_self, hn⟩
    · have := hcount' m
      have := hcount m
      rw [hmono]
      omega
    · rw [List.append_assoc]
      refine Close.trans ?_ (hclose'.trans hfclose)
      refine Close.bind _ fun v => ?_
      split
      · exact close_refl _ _
      · exact hclose

end Constructed

end Chainlift
