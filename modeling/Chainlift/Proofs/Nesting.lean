import Chainlift.Proofs.Deletion

/-!
# Where declarators of a scope stand

Statements hold other statements, and a variable of the scope may be declared at any depth of that nesting. Pruning goes down the
same nesting, except into `with`: if no `with` holds a declarator of the name, a removal leaves none, and a name whose values
are not missed is removed (`Scope.removeUnused_complete`). A `with`, or a static block with a variable of the same name, makes
both fail (`Scope.removeUnused_complete_false`).
-/

namespace Chainlift

open Tree

/-- The forms whose statements belong to the scope around them. -/
def Form.nests (f : Form) : Bool := holdsStatements f || f == .withStmt

namespace Tree

mutual

/-- The statement and the statements of the same scope in it. What a loop over something declares in its head, what is exported,
and what stands in nested functions and static blocks is not among them. -/
def nestedStatements : Tree → List Tree
  | .node f ps => .node f ps :: if f.nests then nestedParts (hasFixedHead f) ps else []

def nestedParts (fixedHead : Bool) : List Tree → List Tree
  | [] => []
  | t :: ts => (if fixedHead then [] else t.nestedStatements) ++ nestedParts false ts

end

/-- The declarators of just this name in a declaration. -/
def ownDeclarators (name : String) : Tree → List Tree
  | .node (.declaration _) ds => ds.filter fun d => d.declares name
  | _ => []

/-- The declarators of just this name that stand somewhere in the statement. -/
def standing (name : String) (t : Tree) : List Tree := t.nestedStatements.flatMap (ownDeclarators name)

mutual

/-- The nodes of a tree that are in no nested function. -/
def surface : Tree → List Tree
  | .node f ps => .node f ps :: if f.isFunction then [] else surfaceAll ps

def surfaceAll : List Tree → List Tree
  | [] => []
  | t :: ts => t.surface ++ surfaceAll ts

end

variable {name : String}

/-! ## Nested statements -/

theorem mem_nestedParts_false {u : Tree} {ts : List Tree} : u ∈ nestedParts false ts ↔ ∃ t ∈ ts, u ∈ t.nestedStatements := by
  induction ts with
  | nil => simp [nestedParts]
  | cons t ts ih => simp [nestedParts, ih]

theorem mem_nestedStatements {f : Form} {ps : List Tree} {u : Tree} :
    u ∈ (node f ps).nestedStatements ↔ u = node f ps ∨ f.nests = true ∧ ∃ p ∈ f.inner ps, u ∈ p.nestedStatements := by
  have hparts : u ∈ nestedParts (hasFixedHead f) ps ↔ ∃ p ∈ f.inner ps, u ∈ p.nestedStatements := by
    cases ps with
    | nil => simp [nestedParts, Form.inner]
    | cons p ps =>
      rw [nestedParts, Form.inner]
      cases hasFixedHead f with
      | true => simp [mem_nestedParts_false]
      | false => simp [mem_nestedParts_false]
  rw [nestedStatements, List.mem_cons]
  cases f.nests with
  | true => simp [hparts]
  | false => simp

theorem nests_of_holdsStatements {f : Form} (h : holdsStatements f = true) : f.nests = true := by
  rw [Form.nests, h, Bool.true_or]

theorem nestedStatements_of_not_nests {f : Form} (h : f.nests = false) (ps : List Tree) :
    (node f ps).nestedStatements = [node f ps] := by
  rw [nestedStatements, if_neg (by simp [h])]

/-- Pruning puts no `with` anywhere. -/
theorem mem_nestedStatements_of_pruned {t w : Tree} (hw : w ∈ (t.pruned name).nestedStatements)
    (hform : w.form = .withStmt) : w ∈ t.nestedStatements := by
  induction t with
  | node f ps ih =>
    by_cases hdeclaration : ∃ kind, f = .declaration kind
    · obtain ⟨kind, rfl⟩ := hdeclaration
      rw [pruned, nestedStatements_of_not_nests rfl] at hw
      obtain rfl := List.mem_singleton.1 hw
      exact absurd hform (by simp [form])
    by_cases hf : holdsStatements f = true
    · have hparts := fun q => exists_of_mem_pruned name hf ps (q := q)
      rw [(pruned_of_holdsStatements name hf ps).1] at hparts hw
      rcases mem_nestedStatements.1 hw with rfl | ⟨-, q, hq, hwq⟩
      · obtain rfl : f = .withStmt := hform
        exact absurd hf (by simp [holdsStatements])
      · rcases hparts q hq with rfl | rfl | ⟨p, hp, rfl⟩
        · obtain rfl := List.mem_singleton.1 hwq
          exact absurd hform (by simp [form])
        · obtain rfl := List.mem_singleton.1 hwq
          exact absurd hform (by simp [form])
        · exact mem_nestedStatements.2 (.inr ⟨nests_of_holdsStatements hf, p, hp, ih p (Form.mem_of_mem_inner hp) hwq⟩)
    · rwa [(pruned_eq_self name (by simpa using hf) (fun kind h => hdeclaration ⟨kind, h⟩) ps).1] at hw

/-! ## Standing declarators -/

theorem standing_eq_nil {t : Tree} : t.standing name = [] ↔ ∀ u ∈ t.nestedStatements, u.ownDeclarators name = [] := by
  rw [standing, List.flatMap_eq_nil_iff]

theorem ownDeclarators_of_form (name : String) {f : Form} (hf : ∀ kind, f ≠ .declaration kind) (ps : List Tree) :
    (node f ps).ownDeclarators name = [] := by
  unfold ownDeclarators
  split
  · rename_i heq
    exact absurd (node.inj heq).1 (hf _)
  · rfl

/-- Where pruning finds nothing, no declarator of the name stands, unless in a `with`. -/
theorem standing_of_prunable {t : Tree} (hwith : ∀ w ∈ t.nestedStatements, w.form = .withStmt → w.standing name = [])
    (h : t.prunable name = 0) : t.standing name = [] := by
  induction t with
  | node f ps ih =>
    by_cases hdeclaration : ∃ kind, f = .declaration kind
    · obtain ⟨kind, rfl⟩ := hdeclaration
      rw [prunable, List.countP_eq_zero] at h
      rw [standing, nestedStatements_of_not_nests rfl, List.flatMap_singleton, ownDeclarators]
      simpa using h
    have hown := ownDeclarators_of_form name (fun kind h => hdeclaration ⟨kind, h⟩) ps
    by_cases hf : holdsStatements f = true
    · rw [(pruned_of_holdsStatements name hf ps).2, prunableParts_eq_zero] at h
      rw [standing_eq_nil]
      intro u hu
      rcases mem_nestedStatements.1 hu with rfl | ⟨hnests, p, hp, hup⟩
      · exact hown
      · have hwithin : ∀ w ∈ p.nestedStatements, w.form = .withStmt → w.standing name = [] := fun w hw =>
          hwith w (mem_nestedStatements.2 (.inr ⟨hnests, p, hp, hw⟩))
        exact standing_eq_nil.1 (ih p (Form.mem_of_mem_inner hp) hwithin (h p hp)) u hup
    · by_cases hform : f = .withStmt
      · exact hwith _ (mem_nestedStatements.2 (.inl rfl)) hform
      · rw [standing, nestedStatements_of_not_nests (by simp [Form.nests, hf, hform]), List.flatMap_singleton]
        exact hown

theorem mem_declaredVariablesAll {t : Tree} {ts : List Tree} (ht : t ∈ ts) (h : name ∈ t.declaredVariables) :
    name ∈ declaredVariablesAll ts := by
  induction ts with
  | nil => exact absurd ht (by simp)
  | cons u us ih =>
    rw [declaredVariablesAll]
    rcases List.mem_cons.1 ht with rfl | ht
    · exact List.mem_append_left _ h
    · exact List.mem_append_right _ (ih ht)

theorem mem_declaredVariables_of_declares {d : Tree} (h : d.declares name = true) : name ∈ d.declaredVariables := by
  unfold declares at h
  split at h
  · rw [declaredVariables, if_neg (by decide), ownVariables, boundNames]
    exact List.mem_append_left _ (by simpa using (beq_iff_eq.1 h).symm)
  · exact absurd h (by simp)

/-- What pruning finds declares a variable of the scope. -/
theorem mem_declaredVariables {t : Tree} (h : t.prunable name ≠ 0) : name ∈ t.declaredVariables := by
  induction t with
  | node f ps ih =>
    by_cases hdeclaration : ∃ kind, f = .declaration kind
    · obtain ⟨kind, rfl⟩ := hdeclaration
      rw [prunable, Ne, List.countP_eq_zero] at h
      simp only [not_forall, not_not] at h
      obtain ⟨d, hd, hdeclares⟩ := h
      rw [declaredVariables, if_neg (by simp [Form.opensScope, Form.isFunction])]
      exact List.mem_append_right _ (mem_declaredVariablesAll hd (mem_declaredVariables_of_declares hdeclares))
    by_cases hf : holdsStatements f = true
    · rw [(pruned_of_holdsStatements name hf ps).2, Ne, prunableParts_eq_zero] at h
      simp only [not_forall] at h
      obtain ⟨p, hp, hprunable⟩ := h
      have hscope : f.opensScope = false := by cases f <;> first | rfl | exact absurd hf (by simp [holdsStatements])
      rw [declaredVariables, if_neg (by simp [hscope])]
      have hmem := Form.mem_of_mem_inner hp
      exact List.mem_append_right _ (mem_declaredVariablesAll hmem (ih p hmem hprunable))
    · exact absurd (pruned_eq_self name (by simpa using hf) (fun kind h => hdeclaration ⟨kind, h⟩) ps).2 h

/-! ## Values -/

theorem mem_surfaceAll {t u : Tree} {ts : List Tree} (ht : t ∈ ts) (hu : u ∈ t.surface) : u ∈ surfaceAll ts := by
  induction ts with
  | nil => exact absurd ht (by simp)
  | cons t' ts ih =>
    rw [surfaceAll]
    rcases List.mem_cons.1 ht with rfl | ht
    · exact List.mem_append_left _ hu
    · exact List.mem_append_right _ (ih ht)

/-- No declarator of the name outside nested functions has a value that could be missed. -/
theorem initialPure_of_surface {t : Tree}
    (h : ∀ d ∈ t.surface, d.declares name = true → ∀ value ∈ d.initial?, value.isPure = true) :
    t.initialPure name = true := by
  induction t with
  | node f ps ih =>
    rw [initialPure]
    split
    · rfl
    · rename_i hf
      split
      · rename_i hdeclarator
        obtain rfl := beq_iff_eq.1 hdeclarator
        unfold ownInitialPure
        split
        · rename_i n qs type value _
          by_cases hn : n = name
          · have hself : Tree.node .declarator [.node (.binding n) qs, type, value] ∈
                (Tree.node .declarator [.node (.binding n) qs, type, value]).surface := List.mem_cons_self
            rw [h _ hself (beq_iff_eq.2 hn) value rfl, Bool.or_true]
          · simp [hn]
        · rfl
      · refine initialPureAll_iff.2 fun p hp => ih p hp fun d hd => h d ?_
        rw [surface, if_neg hf]
        exact List.mem_cons_of_mem _ (mem_surfaceAll hp hd)

end Tree

namespace Scope

/-- A removal leaves no declarator of the name, and a name that nothing uses is removed if all its values can be skipped. No `with`
of the scope holds a declarator of the name, and what static blocks give variables of that name can be skipped too. -/
theorem removeUnused_complete (s : Scope) (name : String)
    (hwith : ∀ t ∈ s.statements, ∀ w ∈ t.nestedStatements, w.form = .withStmt → w.standing name = []) :
    (∀ n, (s.removeUnused name).1 = .removed n → ∀ t ∈ (s.removeUnused name).2, t.standing name = []) ∧
      ((∃ t ∈ s.statements, t.standing name ≠ []) → name ∉ s.parameterNames → name ∉ s.functionNames →
        s.parameterUses name = 0 → s.statementUses name = 0 →
        (∀ t ∈ s.statements, ∀ d ∈ t.surface, d.declares name = true → ∀ value ∈ d.initial?, value.isPure = true) →
        ∃ n, (s.removeUnused name).1 = .removed n) := by
  constructor
  · intro n hn t ht
    rcases s.removeUnused_cases name with ⟨hnot, -⟩ | ⟨hremoved, -⟩
    · exact absurd hn (hnot n)
    · rw [hremoved, prunedAll, prunedParts_false] at ht
      obtain ⟨p, hp, rfl⟩ := List.mem_map.1 (List.mem_filter.1 ht).1
      exact standing_of_prunable (fun w hw hform => hwith p hp w (mem_nestedStatements_of_pruned hw hform) hform)
        (prunable_pruned (.inl rfl))
  · rintro ⟨t, ht, hstanding⟩ hparameter hfunction hparameterUses hstatementUses hpure
    have hprunable : t.prunable name ≠ 0 := fun h => hstanding (standing_of_prunable (hwith t ht) h)
    have hvariable : name ∈ s.variableNames := mem_declaredVariablesAll ht (mem_declaredVariables hprunable)
    have hsome : prunableAll name s.statements ≠ 0 := by
      rw [prunableAll, prunableParts_false, Ne, List.sum_eq_zero_iff]
      exact fun h => hprunable (h _ (List.mem_map_of_mem ht))
    have hneeds : s.needs name = false :=
      needs_eq_false.2 ⟨hstatementUses, fun t ht => initialPure_of_surface (hpure t ht), hsome⟩
    refine ⟨prunableAll name s.statements, ?_⟩
    unfold removeUnused
    simp [hparameter, hfunction, hparameterUses, hvariable, hneeds]

namespace NestingWitness

/-- `var name;` or, with a value, `var name = value;` -/
def declaration (name : String) (value : Tree) : Tree :=
  .node (.declaration .var) [.node .declarator [.binding name, .absent, value]]

/-- `if (x) { for (var k in o) var t = null; }` -/
def looped : Tree :=
  .node .ifStmt [.reference "x",
    .node .block [.node .forInStmt [declaration "k" .absent, .reference "o", declaration "t" .null]], .absent]

/-- `with (o) { var t; }` -/
def withBody : Tree := .node .withStmt [.reference "o", .node .block [declaration "t" .absent]]

/-- `class C { static { var t = f(); } }` -/
def classBody : Tree :=
  .node (.classDef true) [.binding "C", .absent, .node .staticBlock [declaration "t" (.call (.reference "f") [] false)]]

end NestingWitness

open NestingWitness in
/-- The body of a loop below `if` loses its declarator, although its head, which is not looked into, is a declaration too. -/
theorem removeUnused_complete_loop :
    (∀ t ∈ [looped], ∀ w ∈ t.nestedStatements, w.form = .withStmt → w.standing "t" = []) ∧
    (∃ t ∈ [looped], t.standing "t" ≠ []) ∧
    (∃ n, (removeUnused ⟨none, [looped]⟩ "t").1 = .removed n) ∧
    ∀ t ∈ (removeUnused ⟨none, [looped]⟩ "t").2, t.standing "t" = [] := by
  have hwith : ∀ t ∈ [looped], ∀ w ∈ t.nestedStatements, w.form = .withStmt → w.standing "t" = [] := by decide
  have hstanding : ∃ t ∈ [looped], t.standing "t" ≠ [] := by decide
  have hpure : ∀ t ∈ [looped], ∀ d ∈ t.surface, d.declares "t" = true → ∀ value ∈ d.initial?, value.isPure = true := by
    decide
  obtain ⟨hleft, hremoved⟩ := removeUnused_complete ⟨none, [looped]⟩ "t" hwith
  obtain ⟨n, hn⟩ := hremoved hstanding (by decide) (by decide) (by decide) (by decide) hpure
  exact ⟨hwith, hstanding, ⟨n, hn⟩, hleft n hn⟩

open NestingWitness in
/-- In `var t; with (o) { var t; }` one declarator is removed and one left. In `var t; class C { static { var t = f(); } }` the
variable of the scope has one declarator, whose value can be skipped, and yet it is kept. -/
theorem removeUnused_complete_false :
    (¬ ∀ (s : Scope) (name : String) (n : Nat), (s.removeUnused name).1 = .removed n →
      ∀ t ∈ (s.removeUnused name).2, t.standing name = []) ∧
    ¬ ∀ (s : Scope) (name : String), (∃ t ∈ s.statements, t.standing name ≠ []) →
      s.variableNames.count name = (s.statements.flatMap (standing name)).length →
      name ∉ s.parameterNames → name ∉ s.functionNames → s.parameterUses name = 0 → s.statementUses name = 0 →
      (∀ t ∈ s.statements, ∀ d ∈ t.standing name, ∀ value ∈ d.initial?, value.isPure = true) →
      ∃ n, (s.removeUnused name).1 = .removed n := by
  constructor
  · intro h
    have hleft := h ⟨none, [declaration "t" .absent, withBody]⟩ "t" 1 (by decide) withBody (by decide)
    exact absurd hleft (by decide)
  · intro h
    obtain ⟨n, hn⟩ := h ⟨none, [declaration "t" .absent, classBody]⟩ "t" (by decide) (by decide) (by decide) (by decide)
      (by decide)
      (by decide) (by decide)
    have hretained : (removeUnused ⟨none, [declaration "t" .absent, classBody]⟩ "t").1 = .retained := by decide
    exact absurd (hretained.symm.trans hn) (by simp)

end Scope

end Chainlift
