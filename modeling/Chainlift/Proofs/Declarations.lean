import Chainlift.Proofs.Composition
import Chainlift.Proofs.Moments
import Chainlift.Proofs.Progress
import Chainlift.Proofs.Nesting

/-!
# What expressions declare

Grammar has declarations in statements only: what stands in an expression declares nothing for the scope around it, and no part
of an operation is a pattern (`Tree.IsOrderly`). So whatever a sweep does to the expressions of a scope, and to the scopes in
it, the scope declares the same names afterwards, in the same places (`Tree.DeclaresAlike`).
-/

namespace Chainlift

open Tree

/-! ## Orderly trees -/

namespace Form

/-- A pattern, a part of one, or what takes a pattern: names that are introduced stand in it. -/
def isPattern : Form → Bool
  | .binding _ | .parameters | .parameter _ | .arrayPattern | .objectPattern | .patternProperty _ | .withDefault | .rest => true
  | .declarator => true
  | _ => false

/-- The node declares variables, or a function, in the scope around it. -/
def declares : Form → Bool
  | .declarator | .function true .. => true
  | _ => false

def isDeclaration : Form → Bool
  | .declaration _ => true
  | _ => false

/-- Declarations can stand in it, but pruning does not look for them there. -/
def conceals : Form → Bool
  | .body _ | .withStmt | .exportDecl | .exportDefault => true
  | _ => false

/-- Declarations can stand among the parts. -/
def holdsDeclarations (f : Form) : Bool := holdsStatements f || f.isDeclaration || f.opensScope || f.conceals

end Form

namespace Tree

mutual

/-- The tree declares no variable and no function in the scope around it. -/
def declaresNothing : Tree → Bool
  | .node f ps => !f.declares && (f.opensScope || allDeclareNothing ps)

def allDeclareNothing : List Tree → Bool
  | [] => true
  | t :: ts => t.declaresNothing && allDeclareNothing ts

end

theorem declaresNothing_node {f : Form} {ps : List Tree} : (node f ps).declaresNothing = true ↔
    f.declares = false ∧ (f.opensScope = false → ∀ p ∈ ps, p.declaresNothing = true) := by
  have hall : allDeclareNothing ps = true ↔ ∀ p ∈ ps, p.declaresNothing = true := by
    induction ps with
    | nil => simp [allDeclareNothing]
    | cons p ps ih => simp [allDeclareNothing, ih]
  rw [declaresNothing, Bool.and_eq_true, Bool.not_eq_true', Bool.or_eq_true, hall]
  cases f.opensScope <;> simp

/-- The part can stand in a node of that form: declarators make up declarations and stand nowhere else, where no declaration is
expected nothing is declared, and an operation is not made on patterns. -/
def fits (f : Form) (p : Tree) : Bool :=
  (p.form == .declarator) == f.isDeclaration && (f.holdsDeclarations || p.declaresNothing) && !(f.isOperation && p.form.isPattern)

/-- Every part of every node can stand there. -/
def IsOrderly (t : Tree) : Prop := ∀ u ∈ t.nodes, ∀ p ∈ u.parts, fits u.form p = true

instance (t : Tree) : Decidable t.IsOrderly := inferInstanceAs (Decidable (∀ u ∈ t.nodes, ∀ p ∈ u.parts, fits u.form p = true))

theorem fits_iff {f : Form} {p : Tree} : fits f p = true ↔
    (p.form = .declarator ↔ f.isDeclaration = true) ∧ (f.holdsDeclarations = false → p.declaresNothing = true) ∧
      (f.isOperation = true → p.form.isPattern = false) := by
  have hform : ((p.form == .declarator) == f.isDeclaration) = true ↔ (p.form = .declarator ↔ f.isDeclaration = true) := by
    rw [← beq_iff_eq (a := p.form)]
    cases p.form == .declarator <;> cases f.isDeclaration <;> simp
  rw [fits, Bool.and_eq_true, Bool.and_eq_true, hform, and_assoc]
  cases f.holdsDeclarations <;> cases f.isOperation <;> simp

theorem isOrderly_node {f : Form} {ps : List Tree} :
    (node f ps).IsOrderly ↔ ∀ p ∈ ps, fits f p = true ∧ p.IsOrderly := forall_nodes_node.trans forall₂_and.symm

/-- Where no declaration is expected there is none. -/
theorem IsOrderly.declaresNothing {f : Form} {ps : List Tree} (h : (node f ps).IsOrderly) (hf : f.holdsDeclarations = false)
    (hd : f.declares = false) : (node f ps).declaresNothing = true :=
  declaresNothing_node.2 ⟨hd, fun _ p hp => (fits_iff.1 (isOrderly_node.1 h p hp).1).2.1 hf⟩

/-! ## Trees that declare nothing -/

theorem declared_of_declaresNothing {t : Tree} (h : t.declaresNothing = true) :
    t.declaredVariables = [] ∧ t.declaredFunctions = [] := by
  induction t with
  | node f ps ih =>
    obtain ⟨hd, hps⟩ := declaresNothing_node.1 h
    have hfunctions : ownFunctions f ps = [] := by
      unfold ownFunctions
      split
      · exact absurd hd (by simp [Form.declares])
      · rfl
    have hvariables : ownVariables f ps = [] := by
      unfold ownVariables
      split
      · exact absurd hd (by simp [Form.declares])
      · rfl
    have hall : ∀ ts : List Tree, (∀ p ∈ ts, p.declaredVariables = [] ∧ p.declaredFunctions = []) →
        declaredVariablesAll ts = [] ∧ declaredFunctionsAll ts = [] := by
      intro ts
      induction ts with
      | nil => exact fun _ => ⟨rfl, rfl⟩
      | cons t ts ih =>
        intro h
        simp only [List.mem_cons, forall_eq_or_imp] at h
        simp [declaredVariablesAll, declaredFunctionsAll, h.1, ih h.2]
    rw [declaredVariables, declaredFunctions, hfunctions, hvariables]
    cases hs : f.opensScope with
    | true => simp
    | false => simpa using hall ps fun p hp => ih p hp (hps hs p hp)

theorem boundNames_of_isPattern {t : Tree} (h : t.form.isPattern = false) : t.boundNames = [] := by
  unfold boundNames
  split <;> first | rfl | exact absurd h (by simp [form, Form.isPattern])

end Tree

/-! ## What is exposed -/


namespace Tree

mutual

/-- The nodes of a tree that stand in no nested function, static block, export or `with`, and in no head of a loop over
something. -/
def exposed : Tree → List Tree
  | .node f ps => .node f ps :: if f.opensScope || f.conceals then [] else exposedParts (hasFixedHead f) ps

def exposedParts (fixedHead : Bool) : List Tree → List Tree
  | [] => []
  | t :: ts => (if fixedHead then [] else t.exposed) ++ exposedParts false ts

end

/-- A declarator of just this name is exposed in the tree. -/
def Exposes (t : Tree) (name : String) : Prop := ∃ d ∈ t.exposed, d.declares name = true

instance (t : Tree) (name : String) : Decidable (t.Exposes name) :=
  inferInstanceAs (Decidable (∃ d ∈ t.exposed, d.declares name = true))

theorem mem_exposed {f : Form} {ps : List Tree} {u : Tree} :
    u ∈ (node f ps).exposed ↔ u = node f ps ∨ (f.opensScope || f.conceals) = false ∧ ∃ p ∈ f.inner ps, u ∈ p.exposed := by
  have hfalse : ∀ ts : List Tree, u ∈ exposedParts false ts ↔ ∃ t ∈ ts, u ∈ t.exposed := by
    intro ts
    induction ts with
    | nil => simp [exposedParts]
    | cons t ts ih => simp [exposedParts, ih]
  have hparts : u ∈ exposedParts (hasFixedHead f) ps ↔ ∃ p ∈ f.inner ps, u ∈ p.exposed := by
    cases ps with
    | nil => simp [exposedParts, Form.inner]
    | cons p ps =>
      rw [exposedParts, Form.inner]
      cases hasFixedHead f with
      | true => simp [hfalse]
      | false => simp [hfalse]
  rw [exposed, List.mem_cons]
  cases f.opensScope || f.conceals with
  | true => simp
  | false => simp [hparts]

theorem exposes_node {f : Form} {ps : List Tree} {name : String} : (node f ps).Exposes name ↔
    (node f ps).declares name = true ∨ (f.opensScope || f.conceals) = false ∧ ∃ p ∈ f.inner ps, p.Exposes name := by
  unfold Exposes
  simp only [mem_exposed]
  constructor
  · rintro ⟨d, rfl | ⟨hf, p, hp, hd⟩, hdeclares⟩
    · exact .inl hdeclares
    · exact .inr ⟨hf, p, hp, d, hd, hdeclares⟩
  · rintro (h | ⟨hf, p, hp, d, hd, hdeclares⟩)
    · exact ⟨_, .inl rfl, h⟩
    · exact ⟨d, .inr ⟨hf, p, hp, hd⟩, hdeclares⟩

theorem form_of_declares {t : Tree} {name : String} (h : t.declares name = true) : t.form = .declarator := by
  unfold declares at h
  split at h
  · rfl
  · exact absurd h (by simp)

theorem not_exposes_of_declaresNothing {t : Tree} (h : t.declaresNothing = true) (name : String) : ¬ t.Exposes name := by
  induction t with
  | node f ps ih =>
    obtain ⟨hd, hps⟩ := declaresNothing_node.1 h
    rw [exposes_node]
    rintro (hdeclares | ⟨hf, p, hp, hexposes⟩)
    · obtain rfl : f = .declarator := form_of_declares hdeclares
      exact absurd hd (by simp [Form.declares])
    · have hs : f.opensScope = false := (Bool.or_eq_false_iff.1 hf).1
      exact ih p (Form.mem_of_mem_inner hp) (hps hs p (Form.mem_of_mem_inner hp)) hexposes

/-- Where pruning finds nothing, no declarator of the name is exposed. -/
theorem not_exposes_of_prunable {t : Tree} {name : String} (ht : t.IsOrderly) (hform : t.form ≠ .declarator)
    (h : t.prunable name = 0) : ¬ t.Exposes name := by
  induction t with
  | node f ps ih =>
    have hparts := isOrderly_node.1 ht
    rw [exposes_node]
    rintro (hdeclares | ⟨hs, p, hp, hexposes⟩)
    · exact hform (form_of_declares hdeclares)
    have hmem := Form.mem_of_mem_inner hp
    obtain ⟨hdeclarator, hnothing, -⟩ := fits_iff.1 (hparts p hmem).1
    by_cases hdeclaration : ∃ kind, f = .declaration kind
    · obtain ⟨kind, rfl⟩ := hdeclaration
      rw [prunable, List.countP_eq_zero] at h
      obtain ⟨g, qs⟩ := p
      obtain rfl : g = .declarator := hdeclarator.2 rfl
      rcases exposes_node.1 hexposes with hdeclares | ⟨-, q, hq, hexposes⟩
      · exact h _ hmem hdeclares
      · have hfits := (isOrderly_node.1 (hparts _ hmem).2 q (Form.mem_of_mem_inner hq)).1
        exact not_exposes_of_declaresNothing ((fits_iff.1 hfits).2.1 rfl) name hexposes
    have hnot : f.isDeclaration = false := by
      cases f <;> first | rfl | exact absurd ⟨_, rfl⟩ hdeclaration
    have hpform : p.form ≠ .declarator := by
      rw [Ne, hdeclarator, hnot]
      simp
    by_cases hf : holdsStatements f = true
    · rw [(pruned_of_holdsStatements name hf ps).2, prunableParts_eq_zero] at h
      exact ih p hmem (hparts p hmem).2 hpform (h p hp) hexposes
    · refine not_exposes_of_declaresNothing (hnothing ?_) name hexposes
      have hfalse : holdsStatements f = false := by simpa using hf
      rw [Form.holdsDeclarations, hfalse, hnot, Bool.false_or, Bool.false_or, hs]

end Tree

/-- What a part has become comes from one of the parts. -/
theorem Tree.exists_of_forall₂ {R : Tree → Tree → Prop} {ps qs : List Tree} (h : List.Forall₂ R ps qs) {q : Tree} (hq : q ∈ qs) :
    ∃ p ∈ ps, R p q := by
  induction h with
  | nil => exact absurd hq (by simp)
  | cons h _ ih =>
    rcases List.mem_cons.1 hq with rfl | hq
    · exact ⟨_, List.mem_cons_self, h⟩
    · obtain ⟨p, hp, hpq⟩ := ih hq
      exact ⟨p, List.mem_cons_of_mem _ hp, hpq⟩

/-! ## The same declarations -/

/-- What stands in the place of a tree declares the same names, and exposes no more declarators. What could be skipped in the tree
can be skipped in it. -/
structure Tree.DeclaresAlike (t u : Tree) : Prop where
  orderly : u.IsOrderly
  form : u.form = t.form ∨ t.form.isPattern = false ∧ u.form.isPattern = false
  boundNames : u.boundNames = t.boundNames
  declaredVariables : u.declaredVariables = t.declaredVariables
  declaredFunctions : u.declaredFunctions = t.declaredFunctions
  nothing : t.declaresNothing = true → u.declaresNothing = true
  pure : t.isPure = true → u.isPure = true
  initial : ∀ name, t.initialPure name = true → u.initialPure name = true
  exposed : ∀ name, u.Exposes name → t.Exposes name

/-- The name of a function is told by the form of the first part. -/
theorem Tree.ownFunctions_cons (f g : Form) (rs rs' rest rest' : List Tree) :
    ownFunctions f (.node g rs' :: rest') = ownFunctions f (.node g rs :: rest) := by
  cases f with
  | function declared =>
    cases declared with
    | true => cases g <;> rfl
    | false => rfl
  | _ => rfl

namespace Tree.DeclaresAlike

theorem refl {t : Tree} (h : t.IsOrderly) : DeclaresAlike t t :=
  ⟨h, .inl rfl, rfl, rfl, rfl, id, id, fun _ => id, fun _ => id⟩

theorem trans {t u v : Tree} (h : DeclaresAlike t u) (h' : DeclaresAlike u v) : DeclaresAlike t v where
  orderly := h'.orderly
  form := by
    rcases h.form with hu | ⟨ht, hu⟩
    · rw [← hu]
      exact h'.form
    · refine .inr ⟨ht, ?_⟩
      rcases h'.form with hv | ⟨-, hv⟩
      · rw [hv, hu]
      · exact hv
  boundNames := h'.boundNames.trans h.boundNames
  declaredVariables := h'.declaredVariables.trans h.declaredVariables
  declaredFunctions := h'.declaredFunctions.trans h.declaredFunctions
  nothing := h'.nothing ∘ h.nothing
  pure := h'.pure ∘ h.pure
  initial name := h'.initial name ∘ h.initial name
  exposed name := h.exposed name ∘ h'.exposed name

/-- A pattern stays of its form, and nothing becomes one. -/
theorem form_iff {t u : Tree} (h : DeclaresAlike t u) {f : Form} (hf : f.isPattern = true) : u.form = f ↔ t.form = f := by
  rcases h.form with hu | ⟨ht, hu⟩
  · rw [hu]
  · constructor
    · rintro rfl
      exact absurd hu (by simp [hf])
    · rintro rfl
      exact absurd ht (by simp [hf])

/-! ### Parts -/

variable {f : Form} {ps qs : List Tree}

theorem boundNamesAll_eq (h : List.Forall₂ DeclaresAlike ps qs) : boundNamesAll qs = boundNamesAll ps := by
  induction h with
  | nil => rfl
  | cons h _ ih => rw [boundNamesAll, boundNamesAll, h.boundNames, ih]

theorem boundNamesWithin_cons (t : Tree) (ts : List Tree) :
    boundNamesWithin (t :: ts) = if t.form = .rest then boundNamesWithin ts else t.boundNames ++ boundNamesWithin ts := by
  obtain ⟨f, ps⟩ := t
  cases f <;> simp [boundNamesWithin, Tree.form]

theorem boundNamesWithin_eq (h : List.Forall₂ DeclaresAlike ps qs) : boundNamesWithin qs = boundNamesWithin ps := by
  induction h with
  | nil => rfl
  | cons h _ ih =>
    rw [boundNamesWithin_cons, boundNamesWithin_cons, h.boundNames, ih]
    exact if_congr (h.form_iff rfl) rfl rfl

theorem declaredAll_eq (h : List.Forall₂ DeclaresAlike ps qs) :
    declaredVariablesAll qs = declaredVariablesAll ps ∧ declaredFunctionsAll qs = declaredFunctionsAll ps := by
  induction h with
  | nil => exact ⟨rfl, rfl⟩
  | cons h _ ih =>
    rw [declaredVariablesAll, declaredVariablesAll, declaredFunctionsAll, declaredFunctionsAll, h.declaredVariables, h.declaredFunctions, ih.1, ih.2]
    exact ⟨rfl, rfl⟩

theorem allPure (h : List.Forall₂ DeclaresAlike ps qs) (hps : Tree.allPure ps = true) : Tree.allPure qs = true := by
  induction h with
  | nil => rfl
  | cons h _ ih =>
    rw [Tree.allPure, Bool.and_eq_true] at hps ⊢
    exact ⟨h.pure hps.1, ih hps.2⟩

theorem initialPureAll (h : List.Forall₂ DeclaresAlike ps qs) {name : String} (hps : Tree.initialPureAll name ps = true) :
    Tree.initialPureAll name qs = true := by
  induction h with
  | nil => rfl
  | cons h _ ih =>
    rw [Tree.initialPureAll, Bool.and_eq_true] at hps ⊢
    exact ⟨h.initial name hps.1, ih hps.2⟩

theorem inner (h : List.Forall₂ DeclaresAlike ps qs) : List.Forall₂ DeclaresAlike (f.inner ps) (f.inner qs) := by
  unfold Form.inner
  split
  · cases h with
    | nil => exact .nil
    | cons _ h => exact h
  · exact h

/-- A declarator of just one name is one in what stands for it. -/
theorem declares_iff (h : List.Forall₂ DeclaresAlike ps qs) {name : String} :
    (node f qs).declares name = true ↔ (node f ps).declares name = true := by
  have hiff : ∀ ts : List Tree, (node f ts).declares name = true ↔
      f = .declarator ∧ ∃ p rest, ts = p :: rest ∧ p.form = .binding name := by
    intro ts
    constructor
    · intro h
      unfold Tree.declares at h
      split at h
      · rename_i n qs rest heq
        obtain ⟨rfl, rfl⟩ := node.inj heq
        exact ⟨rfl, _, _, rfl, by rw [beq_iff_eq.1 h]; rfl⟩
      · exact absurd h (by simp)
    · rintro ⟨rfl, ⟨g, qs⟩, rest, rfl, rfl⟩
      exact beq_self_eq_true name
  rw [hiff, hiff]
  refine and_congr_right fun _ => ?_
  cases h with
  | nil => simp
  | cons h _ => simpa using h.form_iff rfl

theorem isPure_node (h : List.Forall₂ DeclaresAlike ps qs) (hp : (node f ps).isPure = true) : (node f qs).isPure = true := by
  unfold isPure at hp ⊢
  split at hp
  any_goals rfl
  · rw [Bool.and_eq_true] at hp
    simpa using ⟨by simpa using hp.1, allPure h hp.2⟩
  · exact allPure h hp
  · exact allPure h hp
  · exact absurd hp (by simp)

theorem ownFunctions_eq (h : List.Forall₂ DeclaresAlike ps qs) : ownFunctions f qs = ownFunctions f ps := by
  have hnone : ∀ {p : Tree} {rest : List Tree}, p.form.isPattern = false → ownFunctions f (p :: rest) = [] := by
    intro p rest hp
    unfold ownFunctions
    split
    · rename_i heq
      obtain ⟨rfl, -⟩ := List.cons.inj heq
      exact absurd hp (by simp [Tree.form, Form.isPattern])
    · rfl
  cases h with
  | nil => rfl
  | @cons p q _ _ h _ =>
    rcases h.form with heq | ⟨hp, hq⟩
    · obtain ⟨g, rs⟩ := p
      obtain ⟨g', rs'⟩ := q
      obtain rfl : g' = g := heq
      exact ownFunctions_cons ..
    · rw [hnone hp, hnone hq]

theorem ownVariables_eq (h : List.Forall₂ DeclaresAlike ps qs) : ownVariables f qs = ownVariables f ps := by
  cases h with
  | nil => cases f <;> rfl
  | cons h _ => cases f <;> first | rfl | exact h.boundNames

theorem boundNames_node (h : List.Forall₂ DeclaresAlike ps qs) : (node f qs).boundNames = (node f ps).boundNames := by
  have hfirst : ∀ {p q : Tree} {ps qs : List Tree}, List.Forall₂ DeclaresAlike (p :: ps) (q :: qs) → q.boundNames = p.boundNames := by
    intro p q ps qs h
    cases h with
    | cons h _ => exact h.boundNames
  cases f with
  | patternProperty short =>
    cases h with
    | nil => rfl
    | cons _ h =>
      cases h with
      | nil => rfl
      | cons h rest =>
        cases rest with
        | nil => exact h.boundNames
        | cons _ _ => rfl
  | withDefault | rest | parameter =>
    cases h with
    | nil => rfl
    | cons h _ => exact h.boundNames
  | arrayPattern | objectPattern => exact boundNamesWithin_eq h
  | parameters => exact boundNamesAll_eq h
  | _ => rfl

theorem initialPure_node (h : List.Forall₂ DeclaresAlike ps qs) {name : String} (hp : (node f ps).initialPure name = true) :
    (node f qs).initialPure name = true := by
  rw [initialPure] at hp ⊢
  split
  · rfl
  · rename_i hf
    rw [if_neg hf] at hp
    split
    · rename_i hdeclarator
      rw [if_pos hdeclarator] at hp
      unfold ownInitialPure
      split
      · rename_i n rs type value
        obtain _ | ⟨h₁, _ | ⟨h₂, _ | ⟨h₃, _ | _⟩⟩⟩ := h
        rename_i p _ v
        obtain ⟨g, rs'⟩ := p
        obtain rfl : g = .binding n := (h₁.form_iff rfl).1 rfl
        have hvalue : (n != name || v.isPure) = true := hp
        rw [Bool.or_eq_true] at hvalue ⊢
        exact hvalue.imp_right h₃.pure
      · rfl
    · rename_i hdeclarator
      rw [if_neg hdeclarator] at hp
      exact initialPureAll h hp

/-- A node whose parts declare the same declares the same. -/
theorem node (ht : (node f ps).IsOrderly) (h : List.Forall₂ DeclaresAlike ps qs) : DeclaresAlike (node f ps) (node f qs) where
  orderly := by
    refine isOrderly_node.2 fun q hq => ?_
    obtain ⟨p, hp, hpq⟩ := exists_of_forall₂ h hq
    obtain ⟨hdeclarator, hnothing, hpattern⟩ := fits_iff.1 (isOrderly_node.1 ht p hp).1
    refine ⟨fits_iff.2 ⟨(hpq.form_iff rfl).trans hdeclarator, hpq.nothing ∘ hnothing, fun hf => ?_⟩, hpq.orderly⟩
    rcases hpq.form with heq | ⟨-, hq⟩
    · rw [heq]
      exact hpattern hf
    · exact hq
  form := .inl rfl
  boundNames := boundNames_node h
  declaredVariables := by
    rw [Tree.declaredVariables, Tree.declaredVariables, ownVariables_eq h, (declaredAll_eq h).1]
  declaredFunctions := by
    rw [Tree.declaredFunctions, Tree.declaredFunctions, ownFunctions_eq h, (declaredAll_eq h).2]
  nothing hp := by
    obtain ⟨hd, hps⟩ := declaresNothing_node.1 hp
    refine declaresNothing_node.2 ⟨hd, fun hs q hq => ?_⟩
    obtain ⟨p, hp, hpq⟩ := exists_of_forall₂ h hq
    exact hpq.nothing (hps hs p hp)
  pure := isPure_node h
  initial name := initialPure_node h
  exposed name hq := by
    rcases exposes_node.1 hq with hd | ⟨hs, q, hq, hexposes⟩
    · exact exposes_node.2 (.inl ((declares_iff h).1 hd))
    · obtain ⟨p, hp, hpq⟩ := exists_of_forall₂ (inner h) hq
      exact exposes_node.2 (.inr ⟨hs, p, hp, hpq.exposed name hexposes⟩)

end Tree.DeclaresAlike

/-! ## Operands -/

/-- What can be a part of an operation. -/
structure Tree.IsOperand (t : Tree) : Prop where
  orderly : t.IsOrderly
  nothing : t.declaresNothing = true
  form : t.form.isPattern = false

namespace Tree.IsOperand

theorem node {f : Form} {ps : List Tree} (hf : f.isOperation = true) : (node f ps).IsOperand ↔ (node f ps).IsOrderly := by
  refine ⟨fun h => h.orderly, fun h => ⟨h, h.declaresNothing ?_ ?_, ?_⟩⟩
  all_goals cases f <;> first | rfl | exact absurd hf (by simp [Form.isOperation])

theorem forall_parts {f : Form} {ps : List Tree} (hf : f.isOperation = true) :
    (Tree.node f ps).IsOperand ↔ ∀ p ∈ ps, p.IsOperand := by
  have hdeclaration : f.isDeclaration = false := by cases f <;> first | rfl | exact absurd hf (by simp [Form.isOperation])
  have hholds : f.holdsDeclarations = false := by cases f <;> first | rfl | exact absurd hf (by simp [Form.isOperation])
  rw [node hf, isOrderly_node]
  refine forall₂_congr fun p _ => ?_
  rw [fits_iff]
  constructor
  · rintro ⟨⟨-, hnothing, hform⟩, hp⟩
    exact ⟨hp, hnothing hholds, hform hf⟩
  · rintro ⟨hp, hnothing, hform⟩
    refine ⟨⟨?_, fun _ => hnothing, fun _ => hform⟩, hp⟩
    simp only [hdeclaration, Bool.false_eq_true, iff_false]
    intro heq
    rw [heq] at hform
    exact absurd hform (by simp [Form.isPattern])

theorem partwise : Partwise IsOperand where
  operation hf _ := forall_parts hf
  assigned h := by simpa using (forall_parts rfl).1 h

end Tree.IsOperand

theorem Tree.initialPure_operation {f : Form} (hf : f.isOperation = true) {ps : List Tree} {name : String} :
    (node f ps).initialPure name = true ↔ ∀ p ∈ ps, p.initialPure name = true := by
  have hfunction : f.isFunction = false := by cases f <;> first | rfl | exact absurd hf (by simp [Form.isOperation])
  have hdeclarator : (f == .declarator) = false := by cases f <;> first | rfl | exact absurd hf (by simp [Form.isOperation])
  rw [initialPure, hfunction, hdeclarator, if_neg (by simp), if_neg (by simp), initialPureAll_iff]

theorem Tree.partwise_initialPure (name : String) : Partwise fun t => t.initialPure name = true where
  operation hf _ := initialPure_operation hf
  assigned h := by simpa using (initialPure_operation rfl).1 h

namespace Tree.DeclaresAlike

/-- One operand in the place of another. -/
theorem operand {t u : Tree} (ht : t.IsOperand) (hu : u.IsOperand) (hpure : t.isPure = true → u.isPure = true)
    (hinitial : ∀ name, t.initialPure name = true → u.initialPure name = true) : DeclaresAlike t u where
  orderly := hu.orderly
  form := .inr ⟨ht.form, hu.form⟩
  boundNames := by rw [boundNames_of_isPattern ht.form, boundNames_of_isPattern hu.form]
  declaredVariables := by
    rw [(declared_of_declaresNothing ht.nothing).1, (declared_of_declaresNothing hu.nothing).1]
  declaredFunctions := by
    rw [(declared_of_declaresNothing ht.nothing).2, (declared_of_declaresNothing hu.nothing).2]
  nothing _ := hu.nothing
  pure := hpure
  initial := hinitial
  exposed name h := absurd h (not_exposes_of_declaresNothing hu.nothing name)

/-! ### Folding -/

theorem foldCall {t : Tree} (ht : t.IsOrderly) (name : String) : DeclaresAlike t (t.foldCall name) := by
  by_cases hc : ∃ callee args link, t = .call callee args link
  · obtain ⟨callee, args, link, rfl⟩ := hc
    have hop := (IsOperand.node rfl).2 ht
    exact operand hop (IsOperand.partwise.foldCall hop name) (fun h => absurd h (by simp [isPure])) fun n h =>
      (partwise_initialPure n).foldCall h name
  · unfold Tree.foldCall
    split
    · exact absurd ⟨_, _, _, rfl⟩ hc
    · exact .refl ht

theorem unwrapOne {t : Tree} (ht : t.IsOrderly) (name : String) : DeclaresAlike t (t.unwrapOne name) := by
  cases ha : t.assignment? with
  | some a =>
    obtain rfl := eq_of_assignment? ha
    have hop := (IsOperand.node rfl).2 ht
    exact operand hop (IsOperand.partwise.unwrapOne hop name) (fun h => absurd h (by simp [isPure])) fun n h =>
      (partwise_initialPure n).unwrapOne h name
  | none =>
    rw [Tree.unwrapOne, ha]
    exact .refl ht

theorem map {g : Tree → Tree} {f : Form} {ps : List Tree} (ht : (Tree.node f ps).IsOrderly)
    (h : ∀ p ∈ ps, p.IsOrderly → DeclaresAlike p (g p)) : DeclaresAlike (.node f ps) (.node f (ps.map g)) :=
  .node ht (List.forall₂_map_right_iff.2 (List.forall₂_same.2 fun p hp => h p hp (isOrderly_node.1 ht p hp).2))

theorem foldCalls {t : Tree} (ht : t.IsOrderly) (name : String) : DeclaresAlike t (t.foldCalls name) := by
  refine foldCalls_induct (motive := fun t u => t.IsOrderly → DeclaresAlike t u) name ?_ ?_ t ht
  · exact fun _ _ _ ht => .refl ht
  · intro f ps _ ih ht
    have hparts := map ht ih
    exact hparts.trans (foldCall hparts.orderly name)

theorem unwrap {t : Tree} (ht : t.IsOrderly) (name : String) : DeclaresAlike t (t.unwrap name) := by
  refine unwrap_induct (motive := fun t u => t.IsOrderly → DeclaresAlike t u) name ?_ ?_ t ht
  · exact fun _ _ _ ht => .refl ht
  · intro f ps _ ih ht
    have hparts := map ht ih
    exact hparts.trans (unwrapOne hparts.orderly name)

theorem fold {t : Tree} (ht : t.IsOrderly) (name : String) : DeclaresAlike t (t.fold name) := by
  have hcalls := foldCalls ht name
  unfold Tree.fold
  simp only
  split
  · exact hcalls.trans (unwrap hcalls.orderly name)
  · exact hcalls

end Tree.DeclaresAlike

theorem Tree.IsOperand.fold {t : Tree} (h : t.IsOperand) (name : String) : (t.fold name).IsOperand := by
  have halike := DeclaresAlike.fold h.orderly name
  refine ⟨halike.orderly, halike.nothing h.nothing, ?_⟩
  rcases halike.form with heq | ⟨-, hform⟩
  · rw [heq]
    exact h.form
  · exact hform

theorem Tree.IsOperand.compositional : Compositional IsOperand where
  toPartwise := partwise
  assign _ htarget hvalue := (forall_parts rfl).2 (by simpa using ⟨htarget, hvalue⟩)
  fold name h := h.fold name

/-- An operand in which no declarator of the name has a value that could be missed. -/
theorem Tree.IsOperand.compositional_initialPure (name : String) :
    Compositional fun t => t.IsOperand ∧ t.initialPure name = true where
  operation hf _ := by rw [forall_parts hf, initialPure_operation hf, forall₂_and]
  assigned h := by
    obtain ⟨htarget, hvalue⟩ := partwise.assigned h.1
    obtain ⟨hinitial, hpure⟩ := (partwise_initialPure name).assigned h.2
    exact ⟨⟨htarget, hinitial⟩, hvalue, hpure⟩
  assign ht htarget hvalue :=
    ⟨compositional.assign ht htarget.1 hvalue.1, (initialPure_operation rfl).2 (by simpa using ⟨htarget.2, hvalue.2⟩)⟩
  fold n h := ⟨h.1.fold n, (DeclaresAlike.fold h.1.orderly n).initial name h.2⟩

/-! ## Sweeps -/

namespace Sweep

theorem declaresAlike_tryRewrite {o : Options} {t u : Tree} {s s' : Sweep} (h : tryRewrite o t s = some (u, s'))
    (ht : t.IsOrderly) : DeclaresAlike t u := by
  have hb := isBranching_of_tryRewrite h
  obtain ⟨f, ps⟩ := t
  have hf : f.isOperation = true := by cases f <;> first | rfl | exact absurd hb (by simp [isBranching, form])
  have hpure : (node f ps).isPure = false := by cases f <;> first | rfl | exact absurd hb (by simp [isBranching, form])
  have hop := (IsOperand.node hf).2 ht
  obtain ⟨r, kind, hr, haccept⟩ := accept_of_tryRewrite h
  obtain ⟨rfl, -⟩ := rewrites_accept haccept
  have hkeeps : ∀ {P : Tree → Prop}, Compositional P → P (node f ps) → P r.expr := by
    intro P hP hp
    rcases hr with hr | ⟨-, hr⟩
    · exact hP.coalesce hp hr
    · exact hP.reconstruct hp hr
  exact .operand hop (hkeeps IsOperand.compositional hop) (fun h => absurd h (by simp [hpure])) fun name hinitial =>
    (hkeeps (IsOperand.compositional_initialPure name) ⟨hop, hinitial⟩).2

end Sweep

end Chainlift
