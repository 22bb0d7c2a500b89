import Chainlift.Proofs.Frames

/-!
# Bindings

A place in a tree has an address: the index of a part, the index of a part of that one, and so on. What a variable means at a
place is decided by the innermost node around it that binds the name there (`Tree.binder?`), with the rules of module code:

* `var` belongs to the body of the function, the static block or the program around it, however deep it stands in blocks;
* `let`, `const`, `using`, classes and functions belong to the statement list that they stand in, and in the head of a loop to the
  loop;
* the parameters of a function belong to the function, not to its body: their default values do not see what the body declares;
* the name of a function expression or of a class is known inside of it, and what `catch` binds in its clause;
* imports and the other declarations of a module belong to the program, and some of them are exported.

Two uses of a name mean the same variable when they have the same binder.
-/

namespace Chainlift

namespace Tree

/-! ## Addresses -/

/-- What stands at an address. -/
def at? (t : Tree) : (address : List Nat) → Option Tree
  | [] => some t
  | i :: q => t.parts[i]?.bind fun p => p.at? q

/-- The variable is a use at the address. -/
def Uses (t : Tree) (name : String) (q : List Nat) : Prop := t.at? q = some (.reference name)

/-- At the address `=` gives the variable a value. -/
def Assigns (t : Tree) (name : String) (q : List Nat) : Prop :=
  ∃ value, t.at? q = some (.node (.assign .plain) (.reference name :: value))

/-- Each use of the variable is the target of `=`. -/
def OnlyAssigns (t : Tree) (name : String) : Prop := ∀ q, t.Uses name q → ∃ q', q = q' ++ [0] ∧ t.Assigns name q'

theorem uses_cons {f : Form} {ps : List Tree} {name : String} {i : Nat} {q : List Nat} (h : (node f ps).Uses name (i :: q)) :
    ∃ p, ps[i]? = some p ∧ p.Uses name q :=
  Option.bind_eq_some_iff.1 h

/-- The variable is counted where it is used. -/
theorem Uses.pos {t : Tree} {name : String} {q : List Nat} (h : t.Uses name q) : 0 < t.uses name := by
  induction q generalizing t with
  | nil =>
    obtain rfl := Option.some.inj h
    simp [uses, references, referencesAll, ownReferences]
  | cons i q ih =>
    cases t with
    | node f ps =>
      obtain ⟨p, hp, hq⟩ := uses_cons h
      rw [uses_node]
      have := List.single_le_sum (l := ps.map (·.uses name)) (fun _ _ => Nat.zero_le _) _
        (List.mem_map_of_mem (List.mem_of_getElem? hp))
      have := ih hq
      omega

/-- A variable that is assigned as often as it is used is used as a target only. -/
theorem onlyAssigns_of_unread {name : String} {t : Tree} (h : t.Unread name) : t.OnlyAssigns name := by
  induction t with
  | node f ps ih =>
    intro q hq
    by_cases hf : f.isFunction = true
    · have hzero : (node f ps).assignmentCount name = 0 := by simp [assignmentCount, assignments, hf]
      have := hq.pos
      unfold Unread at h
      omega
    rw [Bool.not_eq_true] at hf
    by_cases ho : ∃ n rest, node f ps = .node (.assign .plain) (.reference n :: rest)
    · obtain ⟨n, rest, heq⟩ := ho
      obtain ⟨rfl, rfl⟩ := Tree.node.inj heq
      have hrest : (Tree.sequence rest).Unread name := by
        unfold Unread uses assignmentCount at h ⊢
        simp only [references, assignments, referencesAll, assignmentsAll, ownReferences, ownAssignments, Form.isFunction,
          List.count_append, Bool.false_eq_true, if_false, List.append_nil, List.nil_append] at h ⊢
        omega
      rcases q with _ | ⟨_ | i, q⟩
      · exact absurd hq (by simp [Uses, at?])
      · obtain ⟨p, hp, hq⟩ := uses_cons hq
        obtain rfl := Option.some.inj hp
        cases q with
        | nil =>
          obtain ⟨h, -⟩ := Tree.node.inj (Option.some.inj hq)
          obtain rfl := Form.reference.inj h
          exact ⟨[], rfl, rest, rfl⟩
        | cons i q => exact absurd hq (by simp [Uses, at?, parts])
      · obtain ⟨p, hp, hq⟩ := uses_cons hq
        have hmem : p ∈ rest := List.mem_of_getElem? hp
        obtain ⟨q', rfl, value, hq'⟩ := ih p (List.mem_cons_of_mem _ hmem) (unread_node rfl rfl hrest p hmem) q hq
        exact ⟨(i + 1) :: q', rfl, value, by rw [at?]; exact Option.bind_eq_some_iff.2 ⟨p, hp, hq'⟩⟩
    · have hown : ownAssignments f ps = [] := by
        refine List.eq_nil_iff_forall_not_mem.2 fun n hn => ho ?_
        obtain ⟨rfl, rest, rfl⟩ := mem_ownAssignments.1 hn
        exact ⟨n, rest, rfl⟩
      cases q with
      | nil =>
        obtain ⟨rfl, rfl⟩ := Tree.node.inj (Option.some.inj hq)
        exact absurd h (not_unread_reference name)
      | cons i q =>
        obtain ⟨p, hp, hq⟩ := uses_cons hq
        have hmem : p ∈ ps := List.mem_of_getElem? hp
        obtain ⟨q', rfl, value, hq'⟩ := ih p hmem (unread_node hf hown h p hmem) q hq
        exact ⟨i :: q', rfl, value, by rw [at?]; exact Option.bind_eq_some_iff.2 ⟨p, hp, hq'⟩⟩

/-! ## Declarations -/

mutual

/-- All the names that a pattern binds. -/
def patternNames : Tree → List String
  | .node (.binding name) _ => [name]
  | .node (.patternProperty _) [_, value] => value.patternNames
  | .node .withDefault (p :: _) => p.patternNames
  | .node .rest (p :: _) => p.patternNames
  | .node (.parameter _) (p :: _) => p.patternNames
  | .node .arrayPattern ps => patternNamesAll ps
  | .node .objectPattern ps => patternNamesAll ps
  | .node .parameters ps => patternNamesAll ps
  | _ => []

def patternNamesAll : List Tree → List String
  | [] => []
  | t :: ts => t.patternNames ++ patternNamesAll ts

end

mutual

/-- The names that stand behind `...` in an array or object pattern. -/
def leftoverNames : Tree → List String
  | .node (.patternProperty _) [_, value] => value.leftoverNames
  | .node .withDefault (p :: _) => p.leftoverNames
  | .node .rest (p :: _) => p.leftoverNames
  | .node (.parameter _) (p :: _) => p.leftoverNames
  | .node .arrayPattern ps => leftoverNamesWithin ps
  | .node .objectPattern ps => leftoverNamesWithin ps
  | .node .parameters ps => leftoverNamesAll ps
  | _ => []

/-- The same for the parts of an array or object pattern. -/
def leftoverNamesWithin : List Tree → List String
  | [] => []
  | .node .rest ps :: ts => (node .rest ps).patternNames ++ leftoverNamesWithin ts
  | t :: ts => t.leftoverNames ++ leftoverNamesWithin ts

def leftoverNamesAll : List Tree → List String
  | [] => []
  | t :: ts => t.leftoverNames ++ leftoverNamesAll ts

end

/-- What a pattern binds is given a value or a part of one, or it takes what is left over. -/
theorem mem_patternNames {name : String} {t : Tree} :
    name ∈ t.patternNames ↔ name ∈ t.boundNames ∨ name ∈ t.leftoverNames := by
  induction t with
  | node f ps ih =>
    have hall : name ∈ patternNamesAll ps ↔ name ∈ boundNamesAll ps ∨ name ∈ leftoverNamesAll ps := by
      induction ps with
      | nil => simp [patternNamesAll, boundNamesAll, leftoverNamesAll]
      | cons p ps ihps =>
        simp only [List.mem_cons, forall_eq_or_imp] at ih
        simp only [patternNamesAll, boundNamesAll, leftoverNamesAll, List.mem_append, ih.1, ihps ih.2, or_or_or_comm]
    have hwithin : name ∈ patternNamesAll ps ↔ name ∈ boundNamesWithin ps ∨ name ∈ leftoverNamesWithin ps := by
      clear hall
      induction ps with
      | nil => simp [patternNamesAll, boundNamesWithin, leftoverNamesWithin]
      | cons p ps ihps =>
        simp only [List.mem_cons, forall_eq_or_imp] at ih
        rw [patternNamesAll, List.mem_append, ihps ih.2]
        by_cases hrest : ∃ qs, p = node .rest qs
        · obtain ⟨qs, rfl⟩ := hrest
          rw [boundNamesWithin, leftoverNamesWithin, List.mem_append, or_left_comm]
        · have hne : ∀ qs, p ≠ node .rest qs := fun qs h => hrest ⟨qs, h⟩
          rw [boundNamesWithin.eq_3 _ _ hne, leftoverNamesWithin.eq_3 _ _ hne, List.mem_append, List.mem_append, ih.1,
            or_or_or_comm]
    rw [patternNames.eq_def]
    split
    case h_1 _ _ heq =>
      rw [heq]
      simp [boundNames, leftoverNames]
    case h_9 => simp_all [boundNames, leftoverNames]
    all_goals
      rename_i heq
      obtain ⟨rfl, rfl⟩ := Tree.node.inj heq
      rw [boundNames, leftoverNames]
    case h_6 | h_7 => exact hwithin
    case h_8 => exact hall
    all_goals exact ih _ (by simp)

/-- The names that a declarator binds. -/
def declaratorNames : Tree → List String
  | .node .declarator (p :: _) => p.patternNames
  | _ => []

/-- The names that a node of that form declares with `var`. -/
def ownHoisted : Form → List Tree → List String
  | .declaration .var, ds => ds.flatMap declaratorNames
  | _, _ => []

mutual

/-- The names declared with `var` in a tree, outside the functions and static blocks in it. -/
def hoistedNames : Tree → List String
  | .node f ps => if f.opensScope then [] else ownHoisted f ps ++ hoistedNamesAll ps

def hoistedNamesAll : List Tree → List String
  | [] => []
  | t :: ts => t.hoistedNames ++ hoistedNamesAll ts

end

/-- The names that a statement declares for the list that it stands in. -/
def blockNames : Tree → List String
  | .node (.declaration .var) _ => []
  | .node (.declaration _) ds => ds.flatMap declaratorNames
  | .node (.function true _ _ _) (p :: _) => p.patternNames
  | .node (.classDef true) (p :: _) => p.patternNames
  | .node (.importDecl ..) imports => imports.flatMap fun i => patternNamesAll i.parts
  | .node (.commented _) [t] => t.blockNames
  | .node (.labeled _) [t] => t.blockNames
  | .node .exportDecl [t] => t.blockNames
  | .node .exportDefault [t] => t.blockNames
  | _ => []

/-- The node binds the name for its part with that index. -/
def binds (name : String) : Form → List Tree → (i : Nat) → Bool
  | .function declared .., [own, parameters, _, _], i => (i == 1 || i == 3) &&
      (parameters.patternNames.contains name || name == "arguments" || (!declared && own.patternNames.contains name))
  | .arrow .., [parameters, _, _], i => i != 1 && parameters.patternNames.contains name
  | .body _, ss, _ | .staticBlock, ss, _ => (hoistedNamesAll ss).contains name || (ss.flatMap blockNames).contains name
  | .block, ss, _ => (ss.flatMap blockNames).contains name
  | .switchStmt, _ :: cases, i => i != 0 && (cases.flatMap fun c => c.parts.tail.flatMap blockNames).contains name
  | .forStmt, head :: _, _ | .forInStmt, head :: _, _ | .forOfStmt _, head :: _, _ => head.blockNames.contains name
  | .catchClause, p :: _, _ => p.patternNames.contains name
  | .classDef _, own :: _, i => i != 0 && own.patternNames.contains name
  | _, _, _ => false

/-! ## Binders -/

/-- The address of the innermost node that binds the name for the place with the given address. -/
def binder? (name : String) (t : Tree) : (address : List Nat) → Option (List Nat)
  | [] => none
  | i :: q =>
    match t.parts[i]?.bind fun p => p.binder? name q with
    | some b => some (i :: b)
    | none => if binds name t.form t.parts i then some [] else none

/-- The names that a statement exports. -/
def exportedNames : Tree → List String
  | .node (.commented _) [t] => t.exportedNames
  | .node .exportDecl [t] => t.hoistedNames ++ t.blockNames
  | .node .exportDefault [t] => t.blockNames
  | .node (.exportNames none) names => names.flatMap fun n => referencesAll n.parts
  | _ => []

/-- The variable of that name with that binder is exported by the program. -/
def Exports (program : Tree) (name : String) (binder : List Nat) : Prop :=
  binder = [] ∧ name ∈ program.parts.flatMap exportedNames

/-- What the name means at an address is a variable that the program declares and does not export, and whose uses all lie in a
region. -/
def Confined (program : Tree) (name : String) (q : List Nat) (region : List Nat → Prop) : Prop :=
  ∃ b, program.binder? name q = some b ∧ ¬ program.Exports name b ∧
    ∀ q', program.Uses name q' → program.binder? name q' = some b → region q'

/-- The binder stands above the place, on the way to it, and binds the name for the next step. -/
theorem binds_of_binder? {name : String} {t : Tree} {q b : List Nat} (h : t.binder? name q = some b) :
    ∃ i q' u, q = b ++ i :: q' ∧ t.at? b = some u ∧ binds name u.form u.parts i = true := by
  induction q generalizing t b with
  | nil => exact absurd h (by simp [binder?])
  | cons i q ih =>
    rw [binder?] at h
    split at h
    · rename_i b' hb
      obtain rfl := Option.some.inj h
      obtain ⟨p, hp, hb⟩ := Option.bind_eq_some_iff.1 hb
      obtain ⟨j, q', u, rfl, hu, hbinds⟩ := ih hb
      exact ⟨j, q', u, rfl, by rw [at?, hp]; exact hu, hbinds⟩
    · split at h
      · rename_i hbinds
        obtain rfl := Option.some.inj h
        exact ⟨i, q, t, rfl, rfl, hbinds⟩
      · exact absurd h (by simp)

/-- What a function binds is bound for what belongs to its scope. -/
theorem encloses_of_binds {name : String} {f : Form} {ps : List Tree} {i : Nat} (h : binds name f ps i = true) :
    f.encloses i = true := by
  unfold Form.encloses
  split
  · unfold binds at h
    split at h
    all_goals simp_all
  · unfold binds at h
    split at h
    all_goals simp_all
  · rfl

end Tree

end Chainlift
