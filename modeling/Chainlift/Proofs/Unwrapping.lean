import Chainlift.Proofs.Places
import Chainlift.Proofs.Unread

/-!
# Unwrapping assignments of any kind

A variable that is not read can be unwrapped anywhere but where a place is taken: the values are the same, and everything that
is noticed happens in the same order, whatever stands around the assignments. What a machine does with forms that are not opened
here is up to it; it has to make the meaning of an expression from those of its parts (`Machine.Composes`).

So folding leaves the meaning of an expression if no call of a method of an assigned variable is made direct and no place is
exposed (`Machine.eval_foldAssigned`). Without the latter it does not: `(n = a.b)(x)` calls without an object, and `a.b(x)` on `a`
(`Machine.eval_foldAssigned_false`).
-/

namespace Chainlift

open Eval Tree

namespace Machine

variable {W : Type} (M : Machine W)

/-! ## Parts of the same meaning -/

/-- The expressions are taken as places that come to the same. -/
def SamePlace (name : String) (strict : Bool) (t u : Tree) : Prop :=
  t.form.isExpression = true → Idle name (M.refer t) (M.refer u) ∧ (strict = true → t.place? [] true = u.place? [] true)

/-- What is put together from the trees has the same meaning. Expressions have the same value; the other trees are made in the
same way from parts that match. -/
inductive Matches (name : String) : Tree → Tree → Prop
  | expression {t u : Tree} (ht : t.form.isExpression = true) (hu : u.form.isExpression = true)
      (h : Idle name (M.openValue t) (M.openValue u)) : Matches name t u
  | made {f : Form} {ps : List Tree} (g : Tree → Tree) (hf : f.isExpression = false) (h : ∀ p ∈ ps, Matches name p (g p))
      (htaken : ∀ p ∈ f.taken ps, M.SamePlace name f.takesVariables p (g p)) : Matches name (.node f ps) (.node f (ps.map g))

/-- The machine overlooks the variable, and what it does with an expression that is not opened here depends on the meaning of the
parts. -/
structure Composes (name : String) : Prop extends M.Overlooks name where
  compose : ∀ (f : Form) (ps : List Tree) (g : Tree → Tree), f.isFunction = false → (node f ps).Unread name →
    (∀ p ∈ ps, M.Matches name p (g p)) → (∀ p ∈ f.taken ps, M.SamePlace name f.takesVariables p (g p)) →
    Idle name (M.other (.node f ps)) (M.other (.node f (ps.map g)))

/-! ## Unwrapping one variable -/

/-- What unwrapping the variable keeps of the meaning of an expression, or of a part of one. -/
structure Unwraps (name : String) (t u : Tree) : Prop extends M.SameValue (State.Agree [name]) t u where
  refer : t.place? [name] false = t.place? [] false → Idle name (M.refer t) (M.refer u)
  form : M.Matches name t u

section Unwrapping

variable {M} {name : String}

theorem Unwraps.of_openValue {t u : Tree} (h : Idle name (M.openValue t) (M.openValue u)) (ht : t.form.isExpression = true)
    (hu : u.form.isExpression = true)
    (hrefer : t.place? [name] false = t.place? [] false → Idle name (M.refer t) (M.refer u)) : M.Unwraps name t u where
  openValue := h
  valuesOf := by
    rw [valuesOf_single M (ne_spread ht), valuesOf_single M (ne_spread hu)]
    exact (alike_eval h).bind fun v => idle_pure name _
  refer := hrefer
  form := .expression ht hu h

theorem Unwraps.of_refer (hM : M.Overlooks name) {t u : Tree} (h : Idle name (M.refer t) (M.refer u))
    (ht : t.form.isExpression = true) (hu : u.form.isExpression = true) : M.Unwraps name t u :=
  .of_openValue (h.bind fun p => alike_fetch hM.respects p) ht hu fun _ => h

theorem Unwraps.chain {t u : Tree} (h : M.Unwraps name t u) : M.Unwraps name (.chain t) (.chain u) := by
  refine .of_openValue ?_ rfl rfl fun hplace => ?_
  · rw [openValue_chain, openValue_chain]
    exact h.openValue.bind fun v => idle_pure name _
  · rw [Machine.refer, Machine.refer]
    exact (h.refer hplace).bind fun p => idle_some _

theorem Unwraps.nonNull {t u : Tree} (h : M.Unwraps name t u) : M.Unwraps name (.nonNull t) (.nonNull u) := by
  have hrefer : ∀ t : Tree, M.refer (.nonNull t) = M.refer t := fun t => by rw [Machine.refer]
  refine .of_openValue ?_ rfl rfl fun hplace => ?_
  · rw [Machine.openValue, Machine.openValue, hrefer, hrefer]
    exact h.openValue
  · rw [hrefer, hrefer]
    exact h.refer hplace

/-- The values of a part that is no expression. -/
theorem idle_valuesOf_node (hM : M.Overlooks name) {f : Form} {ps : List Tree} {g : Tree → Tree}
    (h : Idle name (M.refer (node f ps)) (M.refer (node f (ps.map g))))
    (hps : ∀ p ∈ ps, Idle name (M.openValue p) (M.openValue (g p))) :
    Idle name (M.valuesOf [node f ps]) (M.valuesOf [node f (ps.map g)]) := by
  by_cases hspread : ∃ u, node f ps = .spread u
  · obtain ⟨u, heq⟩ := hspread
    obtain ⟨rfl, rfl⟩ := node.inj heq
    rw [List.map_cons, List.map_nil, valuesOf_spread, valuesOf_spread]
    exact (alike_eval (hps u (by simp))).bind fun v => idle_perform (hM.iterate v) _
  · have hne : ∀ u, node f ps ≠ .spread u := fun u heq => hspread ⟨u, heq⟩
    have hne' : ∀ u, node f (ps.map g) ≠ .spread u := by
      intro u heq
      obtain ⟨rfl, hps⟩ := node.inj heq
      obtain ⟨v, rfl, -⟩ := List.map_eq_singleton_iff.1 hps
      exact hne v rfl
    rw [valuesOf_single M hne, valuesOf_single M hne']
    exact (h.bind fun p => idle_value hM.toIgnores p).bind fun v => idle_pure name _

/-- An assignment to the variable comes to what its value comes to, where no place is taken. -/
theorem unwraps_assign {v : Tree} (ht : (Tree.assign .plain (.reference name) v).everywhere assignsValue = true)
    (h : M.Unwraps name v (v.unwrap name)) :
    M.Unwraps name (.assign .plain (.reference name) v) ((Tree.assign .plain (.reference name) v).unwrap name) := by
  obtain ⟨hown, hparts⟩ := (everywhere_node rfl).1 ht
  have hv := hparts v (by simp)
  obtain ⟨_, _, hlist, -, hexpression, hlink⟩ := exists_of_assignsValue hown
  obtain ⟨-, rfl⟩ : _ ∧ v = _ := by simpa using hlist
  have heval := alike_eval h.openValue
  have hexpression' := isExpression_unwrap (n := name) hv hexpression
  have hrefer : M.refer (.assign .plain (.reference name) v) = (do
      let w ← M.eval v
      setVariable name w
      pure (some (.value w))) := by
    rw [refer, refer_eval]
  have hopen := M.openValue_of_hasLink (hasLink_unwrap (n := name) hv hlink)
  rw [unwrap_assign, if_pos rfl]
  have hvalue : Idle name (M.openValue (.assign .plain (.reference name) v)) (M.openValue (v.unwrap name)) := by
    rw [hopen, openValue, hrefer]
    simp only [bind_assoc, pure_bind]
    exact heval.bind fun w => idle_dropped (idle_pure name (some w)) w
  refine .of_openValue hvalue rfl hexpression' fun hplace => ?_
  have hnone : (v.unwrap name).place? [] false = none := by
    cases hplace' : (v.unwrap name).place? [] false with
    | none => rfl
    | some g =>
      have hnamed := place?_mono (List.nil_subset [name]) hplace'
      rw [place?_unwrap (by simp) false hv] at hnamed
      simp [place?, asVariable?, hnamed] at hplace
  rw [refer_of_place? M hnone, hopen, hrefer]
  simp only [bind_assoc, pure_bind]
  exact heval.bind fun w => idle_dropped (idle_some (.value w)) w

theorem isOpened_map {f : Form} {ps : List Tree} {g : Tree → Tree}
    (htarget : f = .assign .plain → ∀ p ∈ ps.head?, (g p).asVariable? = p.asVariable? ∧ (g p).isAccess = p.isAccess) :
    f.isOpened (ps.map g) = f.isOpened ps := by
  rcases ps with _ | ⟨p, _ | ⟨q, _ | ⟨r, _ | ⟨r', ps⟩⟩⟩⟩
  · rfl
  · cases f with
    | unary op => cases op <;> rfl
    | assign op => cases op <;> rfl
    | _ => rfl
  · by_cases hf : f = .assign .plain
    · subst hf
      obtain ⟨hv, ha⟩ := htarget rfl p rfl
      simp [Form.isOpened, hv, ha]
    · cases f with
      | assign op => cases op <;> first | rfl | exact absurd rfl hf
      | unary op => cases op <;> rfl
      | _ => rfl
  · cases f with
    | unary op => cases op <;> rfl
    | assign op => cases op <;> rfl
    | _ => rfl
  · cases f with
    | unary op => cases op <;> rfl
    | assign op => cases op <;> rfl
    | _ => rfl

theorem exists_of_isOpened {f : Form} {ps : List Tree} (h : f.isOpened ps = true) (hf : f = .chain ∨ f = .nonNull) :
    ∃ t, ps = [t] := by
  unfold Form.isOpened at h
  split at h <;> simp_all

theorem isExpression_of_isOpened {f : Form} {ps : List Tree} (h : f.isOpened ps = true) : f.isExpression = true := by
  unfold Form.isOpened at h
  split at h
  all_goals first | rfl | exact absurd h (by simp)

/-- The parts that a form takes as places keep them. -/
theorem samePlace_of_keepsPlaces {f : Form} {ps : List Tree} (hk : keepsPlaces [name] f ps = true)
    (ht : ∀ p ∈ ps, p.everywhere assignsValue = true) (h : ∀ p ∈ ps, M.Unwraps name p (p.unwrap name)) :
    ∀ p ∈ f.taken ps, Idle name (M.refer p) (M.refer (p.unwrap name)) ∧ M.SamePlace name f.takesVariables p (p.unwrap name) := by
  intro p hp
  have hmem := Form.mem_of_mem_taken hp
  have hplace : p.place? [name] f.takesVariables = p.place? [] f.takesVariables := by
    simpa using List.all_eq_true.1 hk p hp
  have hrefer : Idle name (M.refer p) (M.refer (p.unwrap name)) := by
    refine (h p hmem).refer ?_
    cases hstrict : f.takesVariables with
    | false => rwa [hstrict] at hplace
    | true =>
      rw [hstrict] at hplace
      rw [place?_false, place?_false, hplace]
  refine ⟨hrefer, fun _ => ⟨hrefer, fun hstrict => ?_⟩⟩
  rw [hstrict] at hplace
  exact (place?_eq_unwrap (by simp) (ht p hmem) hplace).symm

theorem isAccess_map (f : Form) (ps : List Tree) (g : Tree → Tree) : (node f (ps.map g)).isAccess = (node f ps).isAccess := by
  rcases ps with _ | ⟨p, _ | ⟨q, _ | ⟨r, ps⟩⟩⟩ <;> cases f <;> rfl

/-- In the target of an assignment that stays, a property stays one. -/
theorem isAccess_target {ps : List Tree} (hnode : assignsValue (.assign .plain) ps = true)
    (hps : ∀ p ∈ ps, p.everywhere assignsValue = true) : ∀ p ∈ ps.head?, (p.unwrap name).isAccess = p.isAccess := by
  obtain ⟨target, v, rfl, htarget, -, -⟩ := exists_of_assignsValue hnode
  intro p hp
  obtain rfl : target = p := by simpa using hp
  obtain ⟨f, qs⟩ := target
  rcases unwrap_cases (n := name) (hps (node f qs) (by simp)) with ⟨w, heq⟩ | ⟨-, hself⟩ | ⟨-, hnode⟩
  · rw [heq] at htarget
    exact absurd htarget (by simp [assignment?])
  · rw [hself]
  · rw [hnode, isAccess_map]

section

variable {f : Form} {ps : List Tree} (hu : (node f ps).Unread name) (hparts : ∀ p ∈ ps, M.Unwraps name p (p.unwrap name))
  (htaken : ∀ p ∈ f.taken ps, Idle name (M.refer p) (M.refer (p.unwrap name)) ∧ M.SamePlace name f.takesVariables p (p.unwrap name))
  (htarget : f = .assign .plain → ∀ p ∈ ps.head?,
    (p.unwrap name).asVariable? = p.asVariable? ∧ (p.unwrap name).isAccess = p.isAccess)

include hu hparts htaken htarget

/-- A form that is opened here goes on with what its parts come to. -/
theorem unwraps_opened (hM : M.Overlooks name) (hopened : f.isOpened ps = true) :
    M.Unwraps name (node f ps) (node f (ps.map (unwrap name))) := by
  by_cases hthrough : f = .chain ∨ f = .nonNull
  · obtain ⟨t, rfl⟩ := exists_of_isOpened hopened hthrough
    rcases hthrough with rfl | rfl
    · exact (hparts t (by simp)).chain
    · exact (hparts t (by simp)).nonNull
  have hexpression := isExpression_of_isOpened hopened
  refine .of_refer hM (alike_opened hM.respects hopened ?_ ?_ ?_ ?_ htarget) hexpression hexpression
  · rintro m rfl
    exact idle_readVariable fun heq => hu.form_ne (heq ▸ rfl)
  · exact fun h => absurd h hthrough
  · exact fun p hp => (hparts p (f.evaluated_subset ps hp)).toSameValue
  · exact fun p hp _ => (htaken p hp).1

/-- With another form the machine does what it does with parts of the same meaning. -/
theorem unwraps_unopened (hM : M.Composes name) (hf : f.isFunction = false) (hopened : f.isOpened ps = false) :
    M.Unwraps name (node f ps) (node f (ps.map (unwrap name))) := by
  have hplaces := fun p hp => (htaken p hp).2
  have hother := hM.compose f ps (unwrap name) hf hu (fun p hp => (hparts p hp).form) hplaces
  have hrefer : Idle name (M.refer (node f ps)) (M.refer (node f (ps.map (unwrap name)))) := by
    rw [refer_of_not_isOpened M hopened, refer_of_not_isOpened M ((isOpened_map htarget).trans hopened)]
    refine Idle.bind ?_ fun v => idle_some _
    have hliteral : (node f (ps.map (unwrap name))).literal? = (node f ps).literal? := rfl
    unfold unopened
    rw [hliteral]
    split
    · exact idle_pure name _
    · exact hother
  by_cases hexpression : f.isExpression = true
  · exact .of_refer hM.toOverlooks hrefer hexpression hexpression
  have hmatches : M.Matches name (node f ps) (node f (ps.map (unwrap name))) :=
    .made (unwrap name) (by simpa using hexpression) (fun p hp => (hparts p hp).form) hplaces
  have hvalues := idle_valuesOf_node hM.toOverlooks hrefer fun p hp => (hparts p hp).openValue
  exact ⟨⟨hrefer.bind fun p => alike_fetch hM.respects p, hvalues⟩, fun _ => hrefer, hmatches⟩

end

theorem unwraps (hM : M.Composes name) {t : Tree} (ht : t.everywhere assignsValue = true)
    (hk : t.everywhere (keepsPlaces [name]) = true) (hu : t.Unread name) : M.Unwraps name t (t.unwrap name) := by
  induction t with
  | node f ps ih =>
    by_cases hassign : ∃ v, node f ps = .assign .plain (.reference name) v
    · obtain ⟨v, heq⟩ := hassign
      obtain ⟨rfl, rfl⟩ := node.inj heq
      have hv := ih v (by simp) (everywhere_parts rfl ht v (by simp)) (everywhere_parts rfl hk v (by simp)) (unread_assign hu)
      exact unwraps_assign ht hv
    rcases unwrap_cases (n := name) ht with hassign' | ⟨hf, hself⟩ | ⟨hf, hnode⟩
    · exact absurd hassign' hassign
    · rw [hself]
      have hexpression : f.isExpression = true := by
        unfold Form.isFunction at hf
        split at hf
        all_goals first | rfl | exact absurd hf (by simp)
      exact .of_refer hM.toOverlooks (idle_of_unread hM.toOverlooks hu) hexpression hexpression
    · obtain ⟨hown, hps⟩ := (everywhere_node hf).1 ht
      obtain ⟨hkown, hkps⟩ := (everywhere_node hf).1 hk
      have ho : name ∉ ownAssignments f ps := by
        intro hmem
        unfold ownAssignments at hmem
        split at hmem
        · obtain ⟨_, v, hlist, -, -, -⟩ := exists_of_assignsValue hown
          obtain ⟨rfl, rfl⟩ := List.cons.inj hlist
          rw [List.mem_singleton.1 hmem] at hassign
          exact hassign ⟨v, rfl⟩
        · exact absurd hmem (by simp)
      have hparts : ∀ p ∈ ps, M.Unwraps name p (p.unwrap name) := fun p hp =>
        ih p hp (hps p hp) (hkps p hp) (unread_parts hf ho hu p hp)
      have htaken := samePlace_of_keepsPlaces hkown hps hparts
      have htarget : f = .assign .plain → ∀ p ∈ ps.head?,
          (p.unwrap name).asVariable? = p.asVariable? ∧ (p.unwrap name).isAccess = p.isAccess := by
        rintro rfl p hp
        exact ⟨asVariable?_target hown hps p hp, isAccess_target hown hps p hp⟩
      rw [hnode]
      by_cases hopened : f.isOpened ps = true
      · exact unwraps_opened hu hparts htaken htarget hM.toOverlooks hopened
      · exact unwraps_unopened hu hparts htaken htarget hM hf (by simpa using hopened)

/-- Unwrapping a variable that is not read changes nothing but its value. -/
theorem close_unwrap (hM : M.Composes name) {names : List String} (hn : name ∈ names) {t : Tree}
    (ht : t.everywhere (allowsUnwrap names) = true) (hu : t.Unread name) :
    Close [name] (M.eval t) (M.eval (t.unwrap name)) := by
  have hsub : [name] ⊆ names := by simpa using hn
  have hkept := everywhere_mono (fun f ps => allowsUnwrap_mono hsub) ht
  have hvalues : t.everywhere assignsValue = true := everywhere_mono (by simp +contextual [allowsUnwrap]) hkept
  have hplaces : t.everywhere (keepsPlaces [name]) = true := everywhere_mono (by simp +contextual [allowsUnwrap]) hkept
  exact Idle.close (alike_eval (unwraps hM hvalues hplaces hu).openValue)

end Unwrapping

end Machine

/-! ## Folding -/

namespace Tree

variable {name : String} {t : Tree}

/-- If a variable is folded, it was not read. -/
theorem fold_of_callsUnassigned (h : t.everywhere callsUnassigned = true) (hu : (t.fold name).uses name = 0) :
    t.fold name = t.unwrap name ∧ t.Unread name := by
  rw [fold, foldCalls_of_callsUnassigned h] at hu ⊢
  split at hu
  · rename_i heq
    rw [if_pos heq]
    exact ⟨rfl, beq_iff_eq.1 heq⟩
  · rename_i hne
    exact absurd (beq_iff_eq.2 (Unread.of_uses hu)) hne

/-- The first variable is unwrapped, or it is skipped. -/
theorem foldEach_cases (name : String) (names : List String) (h : t.everywhere callsUnassigned = true) :
    ((t.unwrap name).uses name = 0 ∧ t.Unread name ∧
      t.foldEach (name :: names) = (((t.unwrap name).foldEach names).1, name :: ((t.unwrap name).foldEach names).2)) ∨
    t.foldEach (name :: names) = t.foldEach names := by
  rw [foldEach]
  by_cases hu : (t.fold name).uses name = 0
  · obtain ⟨hfold, hunread⟩ := fold_of_callsUnassigned h hu
    rw [if_pos (beq_iff_eq.2 hu), hfold]
    exact .inl ⟨hfold ▸ hu, hunread, rfl⟩
  · rw [if_neg (by simpa using hu)]
    exact .inr rfl

theorem callsUnassigned_of_allowsUnwrap {names : List String} (h : t.everywhere (allowsUnwrap names) = true) :
    t.everywhere callsUnassigned = true := everywhere_mono (by simp +contextual [allowsUnwrap]) h

theorem uses_foldEach {names : List String} (h : t.everywhere (allowsUnwrap (t.foldEach names).2) = true) {m : String}
    (hm : t.uses m = 0) : (t.foldEach names).1.uses m = 0 := by
  induction names generalizing t with
  | nil => exact hm
  | cons name names ih =>
    rcases foldEach_cases name names (callsUnassigned_of_allowsUnwrap h) with ⟨-, -, heq⟩ | heq
    · rw [heq] at h ⊢
      refine ih (everywhere_mono (fun f ps => allowsUnwrap_mono (List.subset_cons_self name _)) (everywhere_unwrap (by simp) h)) ?_
      by_cases hne : m = name
      · rw [hne] at hm ⊢
        rwa [unwrap_of_uses hm]
      · rw [uses_unwrap hne, hm]
    · rw [heq] at h ⊢
      exact ih h hm

end Tree

namespace Machine

variable {W : Type} {M : Machine W}

/-- One variable after the other is unwrapped. What allows it is kept. -/
theorem close_foldEach {names : List String} {t : Tree} (hM : ∀ name ∈ (t.foldEach names).2, M.Composes name)
    (ht : t.everywhere (allowsUnwrap (t.foldEach names).2) = true) :
    Close (t.foldEach names).2 (M.eval t) (M.eval (t.foldEach names).1) ∧
      ∀ name ∈ (t.foldEach names).2, (t.foldEach names).1.uses name = 0 := by
  induction names generalizing t with
  | nil => exact ⟨close_refl _ _, by simp [foldEach]⟩
  | cons name names ih =>
    rcases foldEach_cases name names (callsUnassigned_of_allowsUnwrap ht) with ⟨hu, hunread, heq⟩ | heq
    · rw [heq] at hM ht ⊢
      have hfirst := close_unwrap (hM name (by simp)) (by simp) ht hunread
      have hkept := everywhere_mono (fun f ps => allowsUnwrap_mono (List.subset_cons_self name _))
        (everywhere_unwrap List.mem_cons_self ht)
      obtain ⟨hrest, huses⟩ := ih (fun n hn => hM n (by simp [hn])) hkept
      refine ⟨hfirst.trans hrest, fun n hn => ?_⟩
      rcases List.mem_cons.1 hn with rfl | hn
      · exact uses_foldEach hkept hu
      · exact huses n hn
    · rw [heq] at hM ht ⊢
      exact ih hM ht

/-- Folding the assigned variables of an expression without calls of methods of such variables leaves its completion and everything
that is noticed, in their order, and all variables but the folded ones, which are not used any more. Wherever a place is taken,
the expression must be a place already or none after the folding. -/
theorem eval_foldAssigned {e : Tree} (hM : ∀ name ∈ e.foldAssigned.2, M.Composes name)
    (hvalues : e.everywhere assignsValue = true) (hcalls : e.everywhere callsUnassigned = true)
    (hplaces : e.everywhere (keepsPlaces e.foldAssigned.2) = true) :
    (∀ s, (M.eval e s).1 = (M.eval e.foldAssigned.1 s).1 ∧
      State.Agree e.foldAssigned.2 (M.eval e s).2 (M.eval e.foldAssigned.1 s).2) ∧
    ∀ name ∈ e.foldAssigned.2, e.foldAssigned.1.uses name = 0 :=
  close_foldEach hM (everywhere_and.2 ⟨everywhere_and.2 ⟨hvalues, hplaces⟩, hcalls⟩)

theorem constant_composes (v : Value) (name : String) : (constant v).Composes name where
  toOverlooks := constant_overlooks v name
  compose _ _ _ _ _ _ _ := idle_pure name v

namespace FoldingWitness

/-- `(n = a)[m = k](typeof (l = b.c), delete (n = d).e)` -/
def folded : Tree :=
  .call (.index (.assign .plain (.reference "n") (.reference "a")) (.assign .plain (.reference "m") (.reference "k")) false)
    [.unary .void (.assign .plain (.reference "l") (.member (.reference "b") "c" false)),
      .unary .delete (.member (.assign .plain (.reference "n") (.reference "d")) "e" false)] false

/-- `(n = a.b)(x)` -/
def unbound : Tree :=
  .call (.assign .plain (.reference "n") (.member (.reference "a") "b" false)) [.reference "x"] false

end FoldingWitness

open FoldingWitness in
theorem eval_foldAssigned_method : folded.foldAssigned.2 = ["n", "m", "l"] ∧
    (∀ s, ((constant .null).eval folded s).1 = ((constant .null).eval folded.foldAssigned.1 s).1 ∧
      State.Agree folded.foldAssigned.2 ((constant .null).eval folded s).2 ((constant .null).eval folded.foldAssigned.1 s).2) ∧
    ∀ name ∈ folded.foldAssigned.2, folded.foldAssigned.1.uses name = 0 :=
  ⟨by decide, eval_foldAssigned (fun name _ => constant_composes .null name) (by decide) (by decide) (by decide)⟩

open FoldingWitness in
/-- With the place of a property exposed, a call is made on its object. -/
theorem eval_foldAssigned_false : unbound.everywhere callsUnassigned = true ∧ unbound.foldAssigned.2 = ["n"] ∧
    ((constant .null).eval unbound State.initial).2.trace =
      [.read (.other 0) (.name "b"), .call .null .undefined [.other 0]] ∧
    ((constant .null).eval unbound.foldAssigned.1 State.initial).2.trace =
      [.read (.other 0) (.name "b"), .call .null (.other 0) [.other 0]] :=
  ⟨by decide, by decide, rfl, rfl⟩

end Machine

end Chainlift
