import Chainlift.Proofs.Agreement
import Chainlift.Proofs.Folding

/-!
# Evaluating parts of the same meaning

The forms that a machine opens are taken apart here once and for all. If every operation respects a relation between states, then
what is made of parts that evaluate alike evaluates alike (`Machine.alike_opened`). So an expression respects the relation if what
it reads and what is left to the machine do (`Machine.RespectsIn.refer`). A form gets the values of most of its parts; some it
takes as the places that they are (`Form.taken`), and a variable that is assigned is not evaluated at all (`Form.evaluated`).
-/

namespace Chainlift

open Eval Tree

namespace Form

/-- The machine knows what to do with the parts of an expression of the form. -/
def isOpened : Form → List Tree → Bool
  | .reference _, [] | .this, [] => true
  | .member .., [_] | .privateMember .., [_] | .index _, [_, _] | .call _, _ :: _ => true
  | .chain, [_] | .nonNull, [_] | .unary .delete, [_] | .unary .void, [_] | .unary .not, [_] => true
  | .binary op, [_, _] => (NullCheck.kind? op).isSome
  | .logical _, [_, _] | .conditional, [_, _, _] | .sequence, _ => true
  | .assign .plain, [target, _] => target.asVariable?.isSome || target.isAccess
  | _, _ => false

/-- The parts that the form takes as the places that they are. -/
def taken (f : Form) (ps : List Tree) : List Tree :=
  match f with
  | .call _ | .tagged | .unary .delete | .unary .typeOf | .update .. | .assign _ => ps.take 1
  | .forInStmt | .forOfStmt _ | .targetName | .withDefault | .rest => ps.take 1
  | .arrayTarget => ps
  | .targetProperty => ps.drop 1
  | _ => []

/-- The parts that are evaluated. -/
def evaluated : Form → List Tree → List Tree
  | .assign .plain, .reference _ :: ps => ps
  | _, ps => ps

theorem evaluated_subset (f : Form) (ps : List Tree) : f.evaluated ps ⊆ ps := by
  unfold evaluated
  split
  · exact List.subset_cons_self _ _
  · exact List.Subset.refl _

end Form

namespace Machine

variable {W : Type} (M : Machine W)

/-! ## Open values -/

/-- The value of a referent, if there is one. -/
def fetch : Option Referent → Eval W (Option Value)
  | none => pure none
  | some p => do
    let v ← M.get p
    pure (some v)

/-- The value of an open expression; there is none if the chain ends early. -/
def openValue (t : Tree) : Eval W (Option Value) := do
  let p ← M.refer t
  M.fetch p

/-- Go on with a value. A link ends the chain at a nullish one. -/
def onto (link : Bool) (go : Value → Eval W (Option Referent)) : Option Value → Eval W (Option Referent)
  | none => pure none
  | some v => if link && v.isNullish then pure none else go v

theorem value_eq_fetch (p : Option Referent) : M.value p = (do
    let v ← M.fetch p
    pure (v.getD .undefined)) := by
  cases p with
  | none => simp [value, fetch]
  | some p => simp [value, fetch]

theorem refer_eval {α : Type} (t : Tree) (go : Value → Eval W α) : (do
    let p ← M.refer t
    let v ← M.value p
    go v) = M.eval t >>= go := by
  simp only [eval, bind_assoc]

theorem eval_eq_openValue (t : Tree) : M.eval t = (do
    let v ← M.openValue t
    pure (v.getD .undefined)) := by
  simp only [eval, openValue, value_eq_fetch, bind_assoc]

theorem refer_step (t : Tree) (link : Bool) (go : Value → Eval W (Option Referent)) :
    (M.refer t >>= M.step link fun _ v => go v) = M.openValue t >>= onto link go := by
  simp only [openValue, bind_assoc]
  refine bind_congr fun p => ?_
  cases p with
  | none => simp [step, fetch, onto]
  | some p => simp [step, fetch, onto]

theorem openValue_chain (t : Tree) : M.openValue (.chain t) = (do
    let v ← M.openValue t
    pure (some (v.getD .undefined))) := by
  simp only [openValue, refer, bind_assoc, pure_bind]
  refine bind_congr fun p => ?_
  cases p with
  | none => simp [fetch, get]
  | some p => simp [fetch]

theorem valuesOf_single {t : Tree} (h : ∀ u, t ≠ .spread u) : M.valuesOf [t] = (do
    let v ← M.eval t
    pure [v]) := by
  rw [valuesOf, refer_eval]
  · simp only [valuesOf, pure_bind]
  · exact h

theorem valuesOf_spread (t : Tree) : M.valuesOf [.spread t] = (do
    let v ← M.eval t
    perform (.iterate v) (M.iterate v)) := by
  rw [valuesOf, refer_eval]
  simp only [valuesOf, pure_bind, List.append_nil, bind_pure]

theorem valuesOf_cons_eq (t : Tree) (ts : List Tree) : M.valuesOf (t :: ts) = (do
    let vs ← M.valuesOf [t]
    let ws ← M.valuesOf ts
    pure (vs ++ ws)) := by
  by_cases h : ∃ u, t = .spread u
  · obtain ⟨u, rfl⟩ := h
    simp only [valuesOf, bind_assoc, pure_bind, List.append_nil]
  · have h : ∀ u, t ≠ .spread u := fun u heq => h ⟨u, heq⟩
    rw [valuesOf_single M h, valuesOf, refer_eval]
    · simp only [bind_assoc, pure_bind, List.singleton_append]
    · exact h

theorem refer_assign_isAccess {target : Tree} (h : target.isAccess = true) (t : Tree) :
    M.refer (.assign .plain target t) = (do
      let q ← M.refer target
      let v ← M.eval t
      M.set v (q.getD (.value .undefined))
      pure (some (.value v))) := by
  have hname : ∀ n, target ≠ .reference n := by
    rintro n rfl
    exact absurd h (by simp [isAccess, object?])
  rw [refer.eq_16 _ _ _ hname, if_pos h]
  simp only [eval, bind_assoc]

/-! ## Expressions that are not opened -/

/-- The value of a literal, or of an expression that is left to the machine. -/
def unopened (t : Tree) : Eval W Value :=
  match t.literal? with
  | some v => pure v
  | none => M.other t

theorem refer_of_not_isOpened {f : Form} {ps : List Tree} (h : f.isOpened ps = false) : M.refer (.node f ps) = (do
    let v ← M.unopened (.node f ps)
    pure (some (.value v))) := by
  rw [refer.eq_def]
  split
  case h_12 heq =>
    obtain ⟨rfl, rfl⟩ := Tree.node.inj heq
    split
    · rename_i hk
      exact absurd h (by simp [Form.isOpened, hk])
    · rfl
  case h_16 target v _ heq =>
    obtain ⟨rfl, rfl⟩ := Tree.node.inj heq
    split
    · rename_i ha
      exact absurd h (by simp [Form.isOpened, ha])
    · rfl
  case h_18 =>
    unfold unopened
    cases (node f ps).literal? with
    | some v => simp only [pure_bind]
    | none => rfl
  all_goals
    rename_i heq
    obtain ⟨rfl, rfl⟩ := Tree.node.inj heq
    exact absurd h (by simp [Form.isOpened, asVariable?])

/-! ## Evaluating alike -/

/-- No operation of the machine sees the difference between related states. -/
structure Respects (R : State W → State W → Prop) : Prop where
  read : ∀ object key, Alike R (perform (.read object key) (M.read object key)) (perform (.read object key) (M.read object key))
  write : ∀ object key v,
    Alike R (perform (.write object key v) (M.write object key v)) (perform (.write object key v) (M.write object key v))
  remove : ∀ object key,
    Alike R (perform (.remove object key) (M.remove object key)) (perform (.remove object key) (M.remove object key))
  call : ∀ function receiver args, Alike R (perform (.call function receiver args) (M.call function receiver args))
    (perform (.call function receiver args) (M.call function receiver args))
  iterate : ∀ v, Alike R (perform (.iterate v) (M.iterate v)) (perform (.iterate v) (M.iterate v))
  looselyEqual : ∀ a b, Alike R (perform (.compare a b) (M.looselyEqual a b)) (perform (.compare a b) (M.looselyEqual a b))
  setVariable : ∀ name v, Alike R (setVariable name v) (setVariable name v)

/-- The parts have the same values, also in a list. -/
structure SameValue (R : State W → State W → Prop) (t u : Tree) : Prop where
  openValue : Alike R (M.openValue t) (M.openValue u)
  valuesOf : Alike R (M.valuesOf [t]) (M.valuesOf [u])

variable {M} {R : State W → State W → Prop}

theorem alike_eval {t u : Tree} (h : Alike R (M.openValue t) (M.openValue u)) : Alike R (M.eval t) (M.eval u) := by
  rw [eval_eq_openValue, eval_eq_openValue]
  exact h.bind fun v => alike_pure _

theorem alike_onto {t u : Tree} (h : Alike R (M.openValue t) (M.openValue u)) (link : Bool)
    {go go' : Value → Eval W (Option Referent)} (hgo : ∀ v, Alike R (go v) (go' v)) :
    Alike R (M.refer t >>= M.step link fun _ v => go v) (M.refer u >>= M.step link fun _ v => go' v) := by
  rw [refer_step, refer_step]
  refine h.bind fun v => ?_
  cases v with
  | none => exact alike_pure _
  | some v => exact alike_ite _ (alike_pure _) (hgo v)

theorem alike_valuesOf {ts : List Tree} {g : Tree → Tree} (h : ∀ t ∈ ts, Alike R (M.valuesOf [t]) (M.valuesOf [g t])) :
    Alike R (M.valuesOf ts) (M.valuesOf (ts.map g)) := by
  induction ts with
  | nil => exact alike_pure _
  | cons t ts ih =>
    simp only [List.mem_cons, forall_eq_or_imp] at h
    rw [List.map_cons, valuesOf_cons_eq, valuesOf_cons_eq M (g t)]
    exact h.1.bind fun vs => (ih h.2).bind fun ws => alike_pure _

section

variable (hR : M.Respects R)

include hR

theorem alike_get (p : Referent) : Alike R (M.get p) (M.get p) := by
  cases p with
  | value v => exact alike_pure v
  | property object key => exact alike_ite _ (alike_throw _) (hR.read object key)

theorem alike_fetch (p : Option Referent) : Alike R (M.fetch p) (M.fetch p) := by
  cases p with
  | none => exact alike_pure _
  | some p => exact (alike_get hR p).bind fun v => alike_pure _

theorem alike_set (v : Value) (p : Referent) : Alike R (M.set v p) (M.set v p) := by
  cases p with
  | value => exact alike_throw _
  | property object key => exact alike_ite _ (alike_throw _) (hR.write object key v)

theorem alike_delete (p : Referent) : Alike R (M.delete p) (M.delete p) := by
  cases p with
  | value => exact alike_pure _
  | property object key =>
    exact alike_ite _ (alike_throw _) ((hR.remove object key).bind fun b => alike_pure _)

theorem alike_compare (strict : Bool) (a b : Value) : Alike R (M.compare strict a b) (M.compare strict a b) :=
  alike_ite _ (alike_pure _) (alike_ite _ (alike_pure _) (hR.looselyEqual a b))

theorem alike_step {go go' : Referent → Value → Eval W (Option Referent)} (hgo : ∀ p v, Alike R (go p v) (go' p v))
    (link : Bool) (p : Option Referent) : Alike R (M.step link go p) (M.step link go' p) := by
  cases p with
  | none => exact alike_pure _
  | some p => exact (alike_get hR p).bind fun v => alike_ite _ (alike_pure _) (hgo p v)

theorem sameValue_of_refer {t : Tree}
    (h : Alike R (M.refer t) (M.refer t) ∧ ∀ u, t = .spread u → Alike R (M.refer u) (M.refer u)) : M.SameValue R t t := by
  have hvalue : ∀ {t : Tree}, Alike R (M.refer t) (M.refer t) → Alike R (M.openValue t) (M.openValue t) :=
    fun h => h.bind fun p => alike_fetch hR p
  refine ⟨hvalue h.1, ?_⟩
  by_cases hs : ∃ u, t = .spread u
  · obtain ⟨u, rfl⟩ := hs
    rw [valuesOf_spread]
    exact (alike_eval (hvalue (h.2 u rfl))).bind fun v => hR.iterate v
  · rw [valuesOf_single M fun u heq => hs ⟨u, heq⟩]
    exact (alike_eval (hvalue h.1)).bind fun v => alike_pure _

/-- An assignment takes a property as the place that it is; a variable is only set. -/
theorem alike_assign {target target' t t' : Tree} (ho : target.asVariable?.isSome = true ∨ target.isAccess = true)
    (hv : target'.asVariable? = target.asVariable?) (ha : target'.isAccess = target.isAccess)
    (heval : t ∈ Form.evaluated (.assign .plain) [target, t] → Alike R (M.eval t) (M.eval t'))
    (htaken : target ∈ Form.evaluated (.assign .plain) [target, t] → Alike R (M.refer target) (M.refer target')) :
    Alike R (M.refer (.assign .plain target t)) (M.refer (.assign .plain target' t')) := by
  have hsome : ∀ p : Referent, Alike R (pure (some p) : Eval W (Option Referent)) (pure (some p)) := fun p => alike_pure _
  rcases ho with ho | ho
  · obtain ⟨n, hn⟩ := Option.isSome_iff_exists.1 ho
    rw [hn] at hv
    rw [eq_of_asVariable? hn] at heval ⊢
    rw [eq_of_asVariable? hv, refer, refer, refer_eval, refer_eval]
    exact (heval (by simp [Form.evaluated])).bind fun v => (hR.setVariable n v).bind fun _ => hsome _
  · have hall : Form.evaluated (.assign .plain) [target, t] = [target, t] := by
      unfold Form.evaluated
      split
      · rename_i heq
        obtain ⟨rfl, -⟩ := List.cons.inj heq
        exact absurd ho (by simp [isAccess, object?])
      · rfl
    rw [hall] at htaken heval
    rw [refer_assign_isAccess M ho, refer_assign_isAccess M (ha.trans ho)]
    refine (htaken (by simp)).bind fun q => (heval (by simp)).bind fun v => ?_
    exact (alike_set hR v _).bind fun _ => hsome _

/-- What is made of parts of the same meaning has the same meaning, in a form that the machine opens. -/
theorem alike_opened {f : Form} {ps : List Tree} {g : Tree → Tree} (ho : f.isOpened ps = true)
    (hread : ∀ name, f = .reference name → Alike R (M.readVariable name) (M.readVariable name))
    (hthrough : f = .chain ∨ f = .nonNull → ∀ p ∈ ps, Alike R (M.refer p) (M.refer (g p)))
    (hparts : ∀ p ∈ f.evaluated ps, M.SameValue R p (g p))
    (htaken : ∀ p ∈ f.taken ps, p ∈ f.evaluated ps → Alike R (M.refer p) (M.refer (g p)))
    (htarget : f = .assign .plain → ∀ p ∈ ps.head?, (g p).asVariable? = p.asVariable? ∧ (g p).isAccess = p.isAccess) :
    Alike R (M.refer (node f ps)) (M.refer (node f (ps.map g))) := by
  have hsome : ∀ p : Referent, Alike R (pure (some p) : Eval W (Option Referent)) (pure (some p)) := fun p => alike_pure _
  have hvalue := fun p hp => (hparts p hp).openValue
  have heval := fun p hp => alike_eval (hvalue p hp)
  unfold Form.isOpened at ho
  split at ho
  · rename_i name
    rw [List.map_nil, refer]
    exact alike_ite _ (hsome _) ((hread name rfl).bind fun v => hsome _)
  · rw [List.map_nil, refer]
    exact hsome _
  · rename_i word link object
    simp only [List.map_cons, List.map_nil, refer]
    exact alike_onto (hvalue object (by simp [Form.evaluated])) link fun v => hsome _
  · rename_i word link object
    simp only [List.map_cons, List.map_nil, refer]
    exact alike_onto (hvalue object (by simp [Form.evaluated])) link fun v => hsome _
  · rename_i link object key
    simp only [List.map_cons, List.map_nil, refer, refer_eval]
    exact alike_onto (hvalue object (by simp [Form.evaluated])) link fun v =>
      (heval key (by simp [Form.evaluated])).bind fun k => hsome _
  · rename_i link callee args
    simp only [List.map_cons, refer]
    refine (htaken callee (by simp [Form.taken]) (by simp [Form.evaluated])).bind fun p => alike_step hR (fun p v => ?_) link p
    refine (alike_valuesOf fun a ha => (hparts a (by simp [Form.evaluated, ha])).valuesOf).bind fun vs => ?_
    exact (hR.call v p.receiver vs).bind fun r => hsome _
  · rename_i t
    simp only [List.map_cons, List.map_nil, refer]
    exact (hthrough (.inl rfl) t (by simp)).bind fun p => hsome _
  · rename_i t
    simp only [List.map_cons, List.map_nil, refer]
    exact hthrough (.inr rfl) t (by simp)
  · rename_i t
    simp only [List.map_cons, List.map_nil, refer]
    exact (htaken t (by simp [Form.taken]) (by simp [Form.evaluated])).bind fun p =>
      (alike_delete hR _).bind fun v => hsome _
  · rename_i t
    simp only [List.map_cons, List.map_nil, refer, refer_eval]
    exact (heval t (by simp [Form.evaluated])).bind fun v => hsome _
  · rename_i t
    simp only [List.map_cons, List.map_nil, refer, refer_eval]
    exact (heval t (by simp [Form.evaluated])).bind fun v => hsome _
  · rename_i op a b
    obtain ⟨⟨strict, negated⟩, hk⟩ := Option.isSome_iff_exists.1 ho
    simp only [List.map_cons, List.map_nil, refer_comparison M hk]
    refine (heval a (by simp [Form.evaluated])).bind fun v => (heval b (by simp [Form.evaluated])).bind fun w => ?_
    exact (alike_compare hR strict v w).bind fun r => hsome _
  · rename_i op a b
    simp only [List.map_cons, List.map_nil, refer, refer_eval]
    refine (heval a (by simp [Form.evaluated])).bind fun v => alike_ite _ ?_ (hsome _)
    exact (heval b (by simp [Form.evaluated])).bind fun w => hsome _
  · rename_i c yes no
    simp only [List.map_cons, List.map_nil, refer, refer_eval]
    have hlast := fun v : Value => hsome (.value v)
    have hyes := heval yes (by simp [Form.evaluated])
    have hno := heval no (by simp [Form.evaluated])
    exact (heval c (by simp [Form.evaluated])).bind fun v => alike_ite _ (hyes.bind hlast) (hno.bind hlast)
  · rename_i ps
    simp only [refer]
    exact (alike_valuesOf fun p hp => (hparts p hp).valuesOf).bind fun vs => hsome _
  · rename_i target t
    obtain ⟨hv, ha⟩ := htarget rfl target rfl
    exact alike_assign hR (by simpa using ho) hv ha (heval t) (htaken target (by simp [Form.taken]))
  · exact absurd ho (by simp)

end

/-- The relation is respected by what the machine does with expressions that have the property: by its operations, the variables
that are read in such expressions, and by what is left to the machine. -/
structure RespectsIn (M : Machine W) (R : State W → State W → Prop) (P : Tree → Prop) : Prop extends M.Respects R where
  parts : ∀ f ps, f.isOpened ps = true ∨ f = .spread → P (node f ps) → ∀ p ∈ f.evaluated ps, P p
  readVariable : ∀ name, P (.reference name) → Alike R (M.readVariable name) (M.readVariable name)
  other : ∀ t, P t → Alike R (M.other t) (M.other t)

section

variable {P : Tree → Prop} (hR : M.RespectsIn R P)

include hR

/-- In a list the part of a spread part is evaluated, so it is kept track of too. -/
theorem RespectsIn.refer_and_spread {t : Tree} (h : P t) :
    Alike R (M.refer t) (M.refer t) ∧ ∀ u, t = .spread u → Alike R (M.refer u) (M.refer u) := by
  induction t with
  | node f ps ih =>
    by_cases ho : f.isOpened ps = true
    · have hp := fun p hp => ih p (f.evaluated_subset ps hp) (hR.parts f ps (.inl ho) h p hp)
      have hsame : ∀ p ∈ f.evaluated ps, M.SameValue R p p := fun p hmem => sameValue_of_refer hR.toRespects (hp p hmem)
      have hself := alike_opened hR.toRespects (g := id) ho (fun name heq => ?_) (fun hthrough p hmem => ?_) hsame
        (fun p _ hmem => (hp p hmem).1) fun _ p _ => ⟨rfl, rfl⟩
      · rw [List.map_id] at hself
        refine ⟨hself, fun u heq => ?_⟩
        obtain ⟨rfl, rfl⟩ := Tree.node.inj heq
        exact absurd ho (by simp [Form.isOpened])
      · subst heq
        obtain rfl : ps = [] := by
          cases ps with
          | nil => rfl
          | cons p ps => exact absurd ho (by simp [Form.isOpened])
        exact hR.readVariable name h
      · have hall : f.evaluated ps = ps := by
          rcases hthrough with rfl | rfl <;> rfl
        exact (hp p (hall.symm ▸ hmem)).1
    · rw [refer_of_not_isOpened M (by simpa using ho)]
      refine ⟨?_, fun u heq => ?_⟩
      · refine Alike.bind ?_ fun v => alike_pure _
        unfold unopened
        split
        · exact alike_pure _
        · exact hR.other _ h
      · obtain ⟨rfl, rfl⟩ := Tree.node.inj heq
        exact (ih u (by simp) (hR.parts .spread [u] (.inr rfl) h u (by simp [Form.evaluated]))).1

theorem RespectsIn.refer {t : Tree} (h : P t) : Alike R (M.refer t) (M.refer t) := (hR.refer_and_spread h).1

theorem RespectsIn.eval {t : Tree} (h : P t) : Alike R (M.eval t) (M.eval t) :=
  alike_eval ((hR.refer h).bind fun p => alike_fetch hR.toRespects p)

theorem RespectsIn.valuesOf {ts : List Tree} (h : ∀ t ∈ ts, P t) : Alike R (M.valuesOf ts) (M.valuesOf ts) := by
  have hlist := alike_valuesOf (g := id) fun t ht => (sameValue_of_refer hR.toRespects (hR.refer_and_spread (h t ht))).valuesOf
  rwa [List.map_id] at hlist

end

end Machine

end Chainlift
