import Chainlift.Proofs.Agreement
import Chainlift.Proofs.Folding
import Chainlift.Proofs.Layers

/-!
# Plain expressions

The fragment in which transpilers write guards: names, `this`, literals, accesses, calls, choices, comparisons and chains. Only an
operand of a comparison may assign a variable, and it is the value of that operand that counts. A variable that is not read in
a plain expression can be folded into the values that are assigned to it, and nobody notices (`Machine.idle_unwrap`).
-/

namespace Chainlift

namespace Tree

/-- A member access, or a chain that is one: as a callee it passes its object on. -/
def isMember (t : Tree) : Bool :=
  match t with
  | .chain t => t.isAccess
  | t => t.isAccess

/-- An expression of the fragment; as an `operand` of a comparison it may also be an assignment. -/
inductive Plain : (operand : Bool) → Tree → Prop where
  | reference (name : String) : Plain false (.reference name)
  | this : Plain false .this
  | literal {f : Form} (h : (Tree.node f []).isLiteral = true) : Plain false (.node f [])
  | void {t : Tree} (h : t.isLiteral = true) : Plain false t → Plain false (.unary .void t)
  | member {object : Tree} (name : String) (link : Bool) : Plain false object → Plain false (.member object name link)
  | privateMember {object : Tree} (name : String) (link : Bool) :
    Plain false object → Plain false (.privateMember object name link)
  | index {object key : Tree} (link : Bool) : Plain false object → Plain false key → Plain false (.index object key link)
  | call {callee : Tree} {args : List Tree} (link : Bool) :
    Plain false callee → (∀ a ∈ args, Plain false a) → Plain false (.call callee args link)
  | logical {a b : Tree} (op : LogicalOp) : Plain false a → Plain false b → Plain false (.logical op a b)
  | conditional {c yes no : Tree} : Plain false c → Plain false yes → Plain false no → Plain false (.conditional c yes no)
  | compare {op : BinaryOp} {a b : Tree} (h : (NullCheck.kind? op).isSome = true) :
    Plain true a → Plain true b → Plain false (.binary op a b)
  | chain {t : Tree} (h : t.isLayered = true) : Plain false t → Plain false (.chain t)
  | unbound {t : Tree} (h : t.isMember = true) : Plain false t → Plain false (.sequence [.number .zero, t])
  | operand {t : Tree} : Plain false t → Plain true t
  | assign {v : Tree} {name : String} (h : name ≠ "undefined") : Plain false v → Plain true (.assign .plain (.reference name) v)

namespace Plain

theorem form_literal {f : Form} (h : (Tree.node f []).isLiteral = true) :
    f.isFunction = false ∧ f ≠ .assign .plain ∧ (Tree.node f []).isFoldable = false := by
  cases f <;> first | exact ⟨rfl, by simp, rfl⟩ | exact absurd h (by simp [isLiteral, form])

/-- Only operands are assignments. -/
theorem assignment?_eq {t : Tree} (h : Plain false t) : t.assignment? = none := by
  cases h with
  | literal h =>
    unfold assignment?
    split
    · rename_i heq
      exact absurd (Tree.node.inj heq).2 (by simp)
    · rfl
  | _ => rfl

theorem of_object? {t o : Tree} (h : Plain false t) (ho : t.object? = some o) : Plain false o := by
  cases h <;> simp_all [object?]

/-- In a plain expression no call is folded. -/
theorem foldCalls_eq {operand : Bool} {t : Tree} (h : Plain operand t) (name : String) : t.foldCalls name = t := by
  induction h with
  | literal h =>
    rw [foldCalls_node (form_literal h).1]
    exact foldCall_of_form (form_literal h).2.2
  | @call callee args link hc hargs ihc ihargs =>
    have ha : args.map (foldCalls name) = args := by
      simpa using List.map_congr_left (g := id) ihargs
    rw [foldCalls_node rfl, List.map_cons, ihc, ha]
    refine foldCall_eq fun o ho => ?_
    obtain ⟨f, hf, ho⟩ := Option.bind_eq_some_iff.1 ho
    exact ((hc.of_object? hf).of_object? ho).assignment?_eq
  | operand h ih => exact ih
  | _ => simp [foldCalls, foldCallsAll, foldCall, Form.isFunction, *]

theorem isAccess_unwrap {t : Tree} (h : t.isAccess = true) (name : String) : (t.unwrap name).isAccess = true := by
  unfold isAccess object? at h
  split at h
  · rw [unwrap_node rfl (by simp)]
    rfl
  · rw [unwrap_node rfl (by simp)]
    rfl
  · rw [unwrap_node rfl (by simp)]
    rfl
  · exact absurd h (by simp)

theorem isMember_unwrap {t : Tree} (h : t.isMember = true) (name : String) : (t.unwrap name).isMember = true := by
  unfold isMember at h
  split at h
  · rw [unwrap_node rfl (by simp)]
    exact isAccess_unwrap h name
  · have := isAccess_unwrap h name
    unfold isMember
    split
    · rename_i heq
      rw [heq] at this
      exact absurd this (by simp [isAccess, object?])
    · exact this

theorem isLayered_unwrap {t : Tree} (h : t.isLayered = true) (name : String) : (t.unwrap name).isLayered = true := by
  unfold isLayered at h
  split at h <;> first | (rw [unwrap_node rfl (by simp)]; rfl) | exact absurd h (by simp)

theorem isLiteral_unwrap {t : Tree} (h : t.isLiteral = true) (name : String) : (t.unwrap name).isLiteral = true := by
  have hf : t.isFoldable = false := by
    obtain ⟨f, ps⟩ := t
    cases f <;> first | rfl | exact absurd h (by simp [isLiteral, form])
  unfold isLiteral
  rw [form_unwrap hf]
  exact h

/-- Plain expressions stay plain. -/
theorem unwrap {operand : Bool} {t : Tree} (h : Plain operand t) (name : String) : Plain operand (t.unwrap name) := by
  induction h with
  | literal h =>
    rw [unwrap_node (form_literal h).1 (form_literal h).2.1]
    exact .literal h
  | void h ht ih =>
    rw [unwrap_node rfl (by simp)]
    exact .void (isLiteral_unwrap h name) ih
  | @call callee args link hc hargs ihc ihargs =>
    rw [unwrap_node rfl (by simp)]
    exact .call link ihc (by simpa using ihargs)
  | chain h ht ih =>
    rw [unwrap_node rfl (by simp)]
    exact .chain (isLayered_unwrap h name) ih
  | unbound h ht ih =>
    rw [unwrap_node rfl (by simp)]
    simp only [List.map_cons, List.map_nil]
    rw [unwrap_node rfl (by simp)]
    exact .unbound (isMember_unwrap h name) ih
  | operand h ih => exact .operand ih
  | assign h hv ih =>
    rw [unwrap_assign]
    split
    · exact .operand ih
    · exact .assign h ih
  | _ =>
    rw [unwrap_node rfl (by simp)]
    constructor <;> assumption

/-- Unwrapping assigns no variable more often. -/
theorem assignmentCount_unwrap_le {operand : Bool} {t : Tree} (h : Plain operand t) (m name : String) :
    (t.unwrap name).assignmentCount m ≤ t.assignmentCount m := by
  have node : ∀ (f : Form) (ps : List Tree), f.isFunction = false → f ≠ .assign .plain →
      (∀ p ∈ ps, (p.unwrap name).assignmentCount m ≤ p.assignmentCount m) →
      ((Tree.node f ps).unwrap name).assignmentCount m ≤ (Tree.node f ps).assignmentCount m := by
    intro f ps hf ha hps
    rw [unwrap_node hf ha, assignmentCount_node hf, assignmentCount_node hf, ownAssignments_eq ha, ownAssignments_eq ha,
      List.map_map]
    exact Nat.add_le_add_left (List.sum_le_sum hps) _
  induction h with
  | literal h => exact node _ _ (form_literal h).1 (form_literal h).2.1 (by simp)
  | call link hc hargs ihc ihargs => exact node _ _ rfl (by simp) (by simpa using ⟨ihc, ihargs⟩)
  | unbound h ht ih => exact node _ _ rfl (by simp) (by simpa using ⟨node _ _ rfl (by simp) (by simp), ih⟩)
  | operand h ih => exact ih
  | assign h hv ih =>
    rw [unwrap_assign, assignmentCount_assign]
    split
    · omega
    · rw [assignmentCount_assign]
      omega
  | _ => exact node _ _ rfl (by simp) (by simp [*])

/-! ## Layers -/

theorem opened {t : Tree} (h : Plain false t) : Plain false t.opened := by
  unfold Tree.opened
  split
  · exact h
  · cases h
    assumption
  · exact h

theorem closed {t : Tree} (h : Plain false t) : Plain false t.closed := by
  unfold Tree.closed
  split
  · rename_i hl
    refine .chain ?_ h
    cases h <;> first | rfl | exact absurd hl (by simp [hasLink])
  · exact h

theorem base {t : Tree} (h : Plain false t) : Plain false t.base := by
  fun_induction Tree.base t with
  | case5 t h1 h2 h3 h4 => exact h
  | _ =>
    rename_i ih
    cases h
    exact ih (by assumption)

theorem onto {t : Tree} (h : Plain false t) (l : Layer) (hl : ∀ p ∈ l.parts, Plain false p) (link : Bool) :
    Plain false (l.onto link t) := by
  cases l with
  | member name => exact .member name link h
  | privateMember name => exact .privateMember name link h
  | index key => exact .index link h (hl key (by simp [Layer.parts]))
  | call args => exact .call link h hl

theorem along {t : Tree} (h : Plain false t) {ls : List (Layer × Bool)} (hl : ∀ l ∈ ls, ∀ p ∈ l.1.parts, Plain false p) :
    Plain false (t.along ls) := by
  induction ls generalizing t with
  | nil => exact h
  | cons l ls ih =>
    simp only [List.mem_cons, forall_eq_or_imp] at hl
    exact ih (h.onto l.1 hl.1 l.2) hl.2

theorem of_onto {t : Tree} {l : Layer} {link : Bool} (h : Plain false (l.onto link t)) :
    Plain false t ∧ ∀ p ∈ l.parts, Plain false p := by
  cases l <;> cases h <;> simp_all [Layer.parts]

theorem of_along {t : Tree} {ls : List (Layer × Bool)} (h : Plain false (t.along ls)) :
    Plain false t ∧ ∀ l ∈ ls, ∀ p ∈ l.1.parts, Plain false p := by
  induction ls generalizing t with
  | nil => exact ⟨h, by simp⟩
  | cons l ls ih =>
    obtain ⟨ht, hls⟩ := ih h
    obtain ⟨ht, hl⟩ := ht.of_onto
    exact ⟨ht, List.forall_mem_cons.2 ⟨hl, hls⟩⟩

/-- A plain expression that is the token up to comments is the token. -/
theorem eq_of_same {t token : Tree} (h : Plain false t) (hn : token.isName = true) (hs : t.same token = true) : t = token := by
  unfold isName at hn
  simp only [same, decide_eq_true_eq] at hs
  split at hn
  · cases h <;> simp_all [bare, isLiteral, form]
  · cases h <;> simp_all [bare, isLiteral, form]
  · exact absurd hn (by simp)

end Plain

theorem isMethodAccess_unwrap {t : Tree} (h : Plain false t) (name : String) :
    (t.unwrap name).isMethodAccess = t.isMethodAccess := by
  cases h with
  | literal h =>
    rw [unwrap_node (Plain.form_literal h).1 (Plain.form_literal h).2.1]
    rfl
  | _ =>
    rw [unwrap_node rfl (by simp)]
    rfl

theorem Plain.isDirect_unwrap {operand : Bool} {t : Tree} (h : Plain operand t) (name : String) :
    operand = false → (t.unwrap name).isDirect = t.isDirect := by
  induction h with
  | literal h =>
    rw [unwrap_node (form_literal h).1 (form_literal h).2.1]
    exact fun _ => rfl
  | call link hc hargs ihc ihargs =>
    intro _
    rw [unwrap_node rfl (by simp), List.map_cons]
    simp only [isDirect, isMethodAccess_unwrap hc, ihc]
  | operand h ih => simp
  | assign h hv ih => simp
  | _ =>
    intro _
    rw [unwrap_node rfl (by simp)]
    simp_all [isDirect]

theorem Plain.ne_spread {t : Tree} (h : Plain false t) (u : Tree) : t ≠ .spread u := by
  rintro rfl
  cases h

end Tree

/-! ## Evaluation -/

namespace Machine

open Eval Tree

variable {W : Type} {M : Machine W} {name : String}

theorem valuesOf_cons {t : Tree} (h : ∀ u, t ≠ .spread u) (ts : List Tree) : M.valuesOf (t :: ts) = (do
    let v ← M.eval t
    let ws ← M.valuesOf ts
    pure (v :: ws)) := by
  rw [valuesOf, eval, bind_assoc]
  exact h

theorem idle_eval (hM : M.Ignores name) {t u : Tree} (h : Idle name (M.refer t) (M.refer u)) :
    Idle name (M.eval t) (M.eval u) :=
  h.bind fun p => idle_value hM p

theorem idle_some (p : Referent) : Idle name (pure (some p) : Eval W (Option Referent)) (pure (some p)) := idle_pure name _

theorem idle_valuesOf {ts : List Tree} (hp : ∀ t ∈ ts, Plain false t)
    (h : ∀ t ∈ ts, Idle name (M.eval t) (M.eval (t.unwrap name))) :
    Idle name (M.valuesOf ts) (M.valuesOf (ts.map (Tree.unwrap name))) := by
  induction ts with
  | nil => exact idle_pure name _
  | cons t ts ih =>
    simp only [List.mem_cons, forall_eq_or_imp] at hp h
    rw [List.map_cons, valuesOf_cons hp.1.ne_spread, valuesOf_cons (hp.1.unwrap name).ne_spread]
    exact h.1.bind fun v => (ih hp.2 h.2).bind fun ws => idle_pure name _

/-- A variable that is not read in a plain expression can be unwrapped in it. An operand may assign the variable; then it is the
value that stays. -/
theorem idle_unwrap (hM : M.Ignores name) {operand : Bool} {t : Tree} (h : Plain operand t) (hu : t.Unread name) :
    Idle name (M.eval t) (M.eval (t.unwrap name)) ∧ (operand = false → Idle name (M.refer t) (M.refer (t.unwrap name))) := by
  have both : ∀ {t : Tree}, Idle name (M.refer t) (M.refer (t.unwrap name)) →
      Idle name (M.eval t) (M.eval (t.unwrap name)) ∧ (false = false → Idle name (M.refer t) (M.refer (t.unwrap name))) :=
    fun h => ⟨idle_eval hM h, fun _ => h⟩
  induction h with
  | reference m =>
    apply both
    have hm : m ≠ name := by
      rintro rfl
      exact not_unread_reference _ hu
    rw [unwrap_node rfl (by simp), List.map_nil, refer]
    exact idle_ite _ (idle_some _) ((idle_readVariable hm).bind fun v => idle_some _)
  | this =>
    apply both
    rw [unwrap_node rfl (by simp), List.map_nil, refer]
    exact idle_some _
  | literal h =>
    apply both
    obtain ⟨v, hv⟩ := M.refer_isLiteral h
    rw [unwrap_node (Plain.form_literal h).1 (Plain.form_literal h).2.1, List.map_nil, hv]
    exact idle_some _
  | void h ht ih =>
    apply both
    have hu := unread_node rfl rfl hu
    rw [unwrap_node rfl (by simp), List.map_cons, List.map_nil, refer, refer]
    exact ((ih (hu _ (by simp))).2 rfl).bind fun p => (idle_value hM p).bind fun v => idle_some _
  | member m link ho ih | privateMember m link ho ih =>
    apply both
    have hu := unread_node rfl rfl hu
    rw [unwrap_node rfl (by simp), List.map_cons, List.map_nil, refer, refer]
    exact ((ih (hu _ (by simp))).2 rfl).bind fun p => idle_step hM (fun _ v => idle_some _) link p
  | index link ho hk iho ihk =>
    apply both
    have hu := unread_node rfl rfl hu
    rw [unwrap_node rfl (by simp), List.map_cons, List.map_cons, List.map_nil, refer, refer]
    refine ((iho (hu _ (by simp))).2 rfl).bind fun p => idle_step hM (fun _ v => ?_) link p
    exact ((ihk (hu _ (by simp))).2 rfl).bind fun k => (idle_value hM k).bind fun k => idle_some _
  | call link hc hargs ihc ihargs =>
    apply both
    have hu := unread_node rfl rfl hu
    rw [unwrap_node rfl (by simp), List.map_cons, refer, refer]
    refine ((ihc (hu _ (by simp))).2 rfl).bind fun p => idle_step hM (fun p f => ?_) link p
    refine (idle_valuesOf hargs fun a ha => (ihargs a ha (hu a (by simp [ha]))).1).bind fun vs => ?_
    exact (idle_perform (hM.call f p.receiver vs) _).bind fun r => idle_some _
  | logical op ha hb iha ihb =>
    apply both
    have hu := unread_node rfl rfl hu
    rw [unwrap_node rfl (by simp), List.map_cons, List.map_cons, List.map_nil, refer, refer]
    refine ((iha (hu _ (by simp))).2 rfl).bind fun p => (idle_value hM p).bind fun v => ?_
    refine idle_ite _ ?_ (idle_some _)
    exact ((ihb (hu _ (by simp))).2 rfl).bind fun q => (idle_value hM q).bind fun w => idle_some _
  | conditional hc hy hn ihc ihy ihn =>
    apply both
    have hu := unread_node rfl rfl hu
    rw [unwrap_node rfl (by simp), List.map_cons, List.map_cons, List.map_cons, List.map_nil, refer, refer]
    refine ((ihc (hu _ (by simp))).2 rfl).bind fun p => (idle_value hM p).bind fun v => ?_
    have last := fun q => (idle_value hM q).bind fun w => idle_some (.value w)
    exact idle_ite _ (((ihy (hu _ (by simp))).2 rfl).bind last) (((ihn (hu _ (by simp))).2 rfl).bind last)
  | compare h ha hb iha ihb =>
    apply both
    have hu := unread_node rfl rfl hu
    obtain ⟨⟨strict, negated⟩, hk⟩ := Option.isSome_iff_exists.1 h
    rw [unwrap_node rfl (by simp), List.map_cons, List.map_cons, List.map_nil, refer_comparison M hk, refer_comparison M hk]
    refine (iha (hu _ (by simp))).1.bind fun v => (ihb (hu _ (by simp))).1.bind fun w => ?_
    exact (idle_compare hM strict v w).bind fun r => idle_some _
  | chain h ht ih =>
    apply both
    have hu := unread_node rfl rfl hu
    rw [unwrap_node rfl (by simp), List.map_cons, List.map_nil, refer, refer]
    exact ((ih (hu _ (by simp))).2 rfl).bind fun p => idle_some _
  | unbound h ht ih =>
    apply both
    have hu := unread_node rfl rfl hu
    have hzero : Plain false (.number .zero) := .literal rfl
    rw [unwrap_node rfl (by simp), refer, refer]
    refine (idle_valuesOf (by simpa using ⟨hzero, ht⟩) ?_).bind fun vs => idle_some _
    simp only [List.mem_cons, List.not_mem_nil, or_false, forall_eq_or_imp, forall_eq]
    refine ⟨?_, (ih (hu _ (by simp))).1⟩
    obtain ⟨v, hv⟩ := M.refer_isLiteral (t := .number .zero) rfl
    rw [unwrap_node rfl (by simp), List.map_nil, eval, hv]
    exact idle_pure name _
  | operand h ih => exact ⟨(ih hu).1, fun h => absurd h (by simp)⟩
  | @assign v n h hv ih =>
    refine ⟨?_, fun h => absurd h (by simp)⟩
    have hv := (ih (unread_assign hu)).1
    rw [unwrap_assign, eval_assign]
    split
    · rename_i hn
      subst hn
      rw [← bind_pure (M.eval (v.unwrap n))]
      exact hv.bind fun w => idle_dropped (idle_pure n w) w
    · rw [eval_assign]
      exact hv.bind fun w => (idle_setVariable n w).bind fun _ => idle_pure name w

end Machine

end Chainlift
