import Chainlift.Proofs.Comparisons
import Chainlift.Proofs.Harmless
import Chainlift.Proofs.Rows

/-!
# Lowered chains

A compiler that lowers `base?.a.b?.c` gives the value in front of each link to a temporary, tests it and goes on with the temporary:

    (t = base) == null || (u = t.a.b) == null ? void 0 : u.c

Reconstruction takes this back, for any number of links, loose and strict guards, `||` nested in any way, and the negated form with
`&&` (`Tree.reconstruct_lowered`). The last guard is the innermost: it makes the link in `u.c`, the one before it finds its token
at the bottom of what has become of that, and so on to the base, whose own chain goes on if it is one.
-/

namespace Chainlift

open Tree

/-- The access is one of `call`, `apply` and `bind`. -/
def Layer.isMethod : Layer → Bool
  | .member name => (Method.ofName? name).isSome
  | _ => false

namespace Tree

/-- Without an access to `call`, `apply` or `bind` there is no call by them. -/
theorem isDirect_along_of_isMethod {t : Tree} (ht : t.isDirect = true) (hm : t.isMethodAccess = false) {ls : List (Layer × Bool)}
    (hls : ∀ l ∈ ls, l.1.isMethod = false) : (t.along ls).isDirect = true := by
  induction ls generalizing t with
  | nil => exact ht
  | cons l ls ih =>
    simp only [List.mem_cons, forall_eq_or_imp] at hls
    obtain ⟨l, link⟩ := l
    have honto : (l.onto link t).isMethodAccess = l.isMethod := by cases l <;> rfl
    refine ih ?_ (honto.trans hls.1) hls.2
    cases l with
    | call args => simp [Layer.onto, isDirect, ht, hm]
    | _ => exact ht

theorem isLayered_along {t : Tree} (h : t.isLayered = true) (ls : List (Layer × Bool)) : (t.along ls).isLayered = true := by
  induction ls generalizing t with
  | nil => exact h
  | cons l ls ih => exact ih (by rcases l with ⟨_ | _ | _ | _, link⟩ <;> rfl)

theorem isLayered_along_cons (t : Tree) (l : Layer × Bool) (ls : List (Layer × Bool)) : (t.along (l :: ls)).isLayered = true :=
  isLayered_along (by rcases l with ⟨_ | _ | _ | _, link⟩ <;> rfl) ls

theorem opened_of_isLayered {t : Tree} (h : t.isLayered = true) : t.opened = t := by
  unfold opened
  split
  · exact absurd h (by simp [isLayered])
  · exact absurd h (by simp [isLayered])
  · rfl

theorem decision_of_isLayered {t : Tree} (h : t.isLayered = true) : Decision.ofValue t = .leaf t none := by
  unfold Decision.ofValue
  split
  · exact absurd h (by simp [isLayered])
  · exact absurd h (by simp [isLayered])
  · exact absurd h (by simp [isLayered])
  · rfl

theorem decision_of_isUndefined {t : Tree} (h : t.isUndefined = true) : Decision.ofValue t = .leaf t none := by
  unfold Decision.ofValue
  split
  · exact absurd h (by simp [isUndefined])
  · exact absurd h (by simp [isUndefined])
  · exact absurd h (by simp [isUndefined])
  · rfl

theorem assignments_eq_nil {t : Tree} : t.assignments = [] ↔ ∀ name, t.assignmentCount name = 0 := by
  simp only [assignmentCount, List.count_eq_zero, List.eq_nil_iff_forall_not_mem]

/-- Without assignments there is nothing to be folded. -/
theorem foldAssigned_of_assignments {t : Tree} (h : t.assignments = []) : t.foldAssigned = (t, []) := by
  rw [foldAssigned, assigned, h]
  rfl

end Tree

/-! ## Segments -/

/-- What stands between two links: an access, and then further accesses and calls; none of them is to `call`, `apply` or `bind`. -/
structure Segment where
  access : Layer
  rest : List Layer
  isAccess : ∀ args, access ≠ .call args
  isDirect : ∀ l ∈ access :: rest, l.isMethod = false

namespace Segment

/-- The layers of a segment, the first of which may be a link. -/
def layers (s : Segment) (link : Bool) : List (Layer × Bool) := (s.access, link) :: s.rest.map (·, false)

/-- The expressions in a segment: keys and arguments. -/
def parts (s : Segment) : List Tree := (s.access :: s.rest).flatMap Layer.parts

theorem isMethod_layers (s : Segment) (link : Bool) : ∀ l ∈ s.layers link, l.1.isMethod = false := by
  intro l hl
  rcases List.mem_cons.1 hl with rfl | hl
  · exact s.isDirect _ (by simp)
  · obtain ⟨r, hr, rfl⟩ := List.mem_map.1 hl
    exact s.isDirect r (by simp [hr])

theorem mem_parts {s : Segment} {link : Bool} {l : Layer × Bool} (hl : l ∈ s.layers link) : ∀ p ∈ l.1.parts, p ∈ s.parts := by
  intro p hp
  rcases List.mem_cons.1 hl with rfl | hl
  · exact List.mem_flatMap.2 ⟨_, by simp, hp⟩
  · obtain ⟨r, hr, rfl⟩ := List.mem_map.1 hl
    exact List.mem_flatMap.2 ⟨r, by simp [hr], hp⟩

end Segment

/-! ## Lowering -/

/-- One link of a chain as it is lowered: the temporary, how it is tested, and what is done with it. -/
structure LoweredLink where
  temporary : String
  test : GuardTest
  segment : Segment

namespace LoweredLink

/-- What is done with the temporary. -/
def next (s : LoweredLink) : Tree := (Tree.reference s.temporary).along (s.segment.layers false)

/-- The comparisons of all guards, for a chain that goes on from an expression. -/
def conditions (negated : Bool) : (base : Tree) → List LoweredLink → List Tree
  | _, [] => []
  | t, s :: ss =>
    s.test.conditions negated (.assign .plain (.reference s.temporary) t) (.reference s.temporary) ++ conditions negated s.next ss

/-- What is evaluated behind all guards. -/
def guarded : Tree → List LoweredLink → Tree
  | t, [] => t
  | _, s :: ss => guarded s.next ss

/-- The layers of the chain. -/
def layers (ss : List LoweredLink) : List (Layer × Bool) := ss.flatMap fun s => s.segment.layers true

/-- The chain that was lowered. -/
def chained : Tree → List LoweredLink → Tree
  | t, [] => t
  | t, s :: ss => .chain (t.opened.along (layers (s :: ss)))

def temporaries (ss : List LoweredLink) : List String := ss.map (·.temporary)

/-- The temporaries are distinct and occur nowhere else, and nothing else is assigned by `=`. -/
structure Fresh (t : Tree) (ss : List LoweredLink) : Prop where
  nodup : (temporaries ss).Nodup
  unused : ∀ name ∈ temporaries ss, t.uses name = 0 ∧ ∀ s ∈ ss, ∀ p ∈ s.segment.parts, p.uses name = 0
  unassigned : t.assignments = [] ∧ ∀ s ∈ ss, ∀ p ∈ s.segment.parts, p.assignments = []

/-- The strict pairs test for `null` first, and their temporaries can be tested. -/
def IsTestable (s : LoweredLink) : Prop := s.test.isNullFirst = true ∧ (s.test.isStrict = true → s.temporary ≠ "undefined")

theorem mem_layers {ss : List LoweredLink} {l : Layer × Bool} (h : l ∈ layers ss) : ∃ s ∈ ss, l ∈ s.segment.layers true :=
  List.mem_flatMap.1 h

variable {t : Tree} {s : LoweredLink} {ss : List LoweredLink}

theorem isLayered_next (s : LoweredLink) : s.next.isLayered = true := isLayered_along_cons ..

theorem isLayered_guarded (t : Tree) (s : LoweredLink) (ss : List LoweredLink) : (guarded t (s :: ss)).isLayered = true := by
  induction ss generalizing t s with
  | nil => exact s.isLayered_next
  | cons s' ss ih => exact ih s.next s'

/-- What is put together above the temporary of a link. -/
theorem opened_chained_next (s : LoweredLink) (ss : List LoweredLink) : (chained s.next ss).opened =
    (Tree.reference s.temporary).along (s.segment.layers false ++ layers ss) := by
  have hopened := opened_of_isLayered s.isLayered_next
  cases ss with
  | nil =>
    rw [chained, hopened, layers, List.flatMap_nil, List.append_nil]
    rfl
  | cons s' ss =>
    rw [chained, opened_chain, hopened, along_append]
    · rfl
    · rw [hopened]
      exact along_ne_nonNull (along_ne_nonNull (by simp) _) _

/-- Nothing but the base and the segments counts in a chain. -/
theorem count_layers {count : Tree → Nat} {ss : List LoweredLink} (h : ∀ s ∈ ss, ∀ p ∈ s.segment.parts, count p = 0) :
    ((layers ss).map fun l => (l.1.parts.map count).sum).sum = 0 := by
  refine List.sum_eq_zero_iff.2 fun n hn => ?_
  obtain ⟨l, hl, rfl⟩ := List.mem_map.1 hn
  obtain ⟨s, hs, hl⟩ := mem_layers hl
  refine List.sum_eq_zero_iff.2 fun n hn => ?_
  obtain ⟨p, hp, rfl⟩ := List.mem_map.1 hn
  exact h s hs p (Segment.mem_parts hl p hp)

namespace Fresh

theorem next (h : Fresh t (s :: ss)) : Fresh s.next ss := by
  have hnodup := List.nodup_cons.1 h.nodup
  have hparts : ∀ {count : Tree → Nat}, (∀ p ∈ s.segment.parts, count p = 0) →
      ((s.segment.layers false).map fun l => (l.1.parts.map count).sum).sum = 0 := by
    intro count hcount
    refine List.sum_eq_zero_iff.2 fun n hn => ?_
    obtain ⟨l, hl, rfl⟩ := List.mem_map.1 hn
    refine List.sum_eq_zero_iff.2 fun n hn => ?_
    obtain ⟨p, hp, rfl⟩ := List.mem_map.1 hn
    exact hcount p (Segment.mem_parts hl p hp)
  refine ⟨hnodup.2, fun name hname => ?_, ?_⟩
  · obtain ⟨-, hunused⟩ := h.unused name (List.mem_cons_of_mem _ hname)
    refine ⟨?_, fun s' hs' => hunused s' (by simp [hs'])⟩
    have hne : s.temporary ≠ name := by
      rintro rfl
      exact hnodup.1 hname
    rw [LoweredLink.next, uses_along, hparts (hunused s (by simp)), Nat.add_zero]
    simp [uses, references, referencesAll, ownReferences, hne]
  · obtain ⟨-, hunassigned⟩ := h.unassigned
    refine ⟨assignments_eq_nil.2 fun name => ?_, fun s' hs' => hunassigned s' (by simp [hs'])⟩
    rw [LoweredLink.next, assignmentCount_along, hparts fun p hp => assignments_eq_nil.1 (hunassigned s (by simp) p hp) name]
    rfl

theorem uses_chained (h : Fresh t (s :: ss)) : (chained t (s :: ss)).uses s.temporary = 0 := by
  obtain ⟨ht, hparts⟩ := h.unused s.temporary (by simp [temporaries])
  rw [chained, uses_node, List.map_singleton, List.sum_singleton, uses_along, (count_opened t _).1, ht, count_layers hparts]
  rfl

theorem assignments_chained (h : Fresh t (s :: ss)) : (chained t (s :: ss)).assignments = [] := by
  obtain ⟨ht, hparts⟩ := h.unassigned
  refine assignments_eq_nil.2 fun name => ?_
  rw [chained, assignmentCount_node rfl, List.map_singleton, List.sum_singleton, assignmentCount_along, (count_opened t _).2,
    assignments_eq_nil.1 ht, count_layers fun s' hs' p hp => assignments_eq_nil.1 (hparts s' hs' p hp) name]
  rfl

end Fresh

/-! ## Reconstruction -/

/-- A guard on a temporary puts its value and a link at the bottom of the chain above the temporary. -/
theorem rewrite_chained (t : Tree) (s : LoweredLink) (ss : List LoweredLink) :
    (chained s.next ss).rewrite (.reference s.temporary) (some t) = ⟨chained t (s :: ss), true⟩ := by
  have hdirect : ((Tree.reference s.temporary).along (s.segment.layers false ++ layers ss)).isDirect = true := by
    refine isDirect_along_of_isMethod rfl rfl fun l hl => ?_
    rcases List.mem_append.1 hl with hl | hl
    · exact s.segment.isMethod_layers false l hl
    · obtain ⟨s', -, hl⟩ := mem_layers hl
      exact s'.segment.isMethod_layers true l hl
  have hunder : Substitution.under ⟨.reference s.temporary, some t⟩ s.segment.access = t.opened := by
    unfold Substitution.under
    split
    · rename_i args heq
      exact absurd heq (s.segment.isAccess args)
    · rfl
  have htoken : Substitution.isToken ⟨.reference s.temporary, some t⟩ (.reference s.temporary) = true := decide_eq_true rfl
  have hspine : Substitution.onSpine ⟨.reference s.temporary, some t⟩
      ((Tree.reference s.temporary).along (s.segment.layers false ++ layers ss)) = ⟨t.opened.along (layers (s :: ss)), true⟩ := by
    have := Substitution.onSpine_along_token (s := ⟨.reference s.temporary, some t⟩) rfl htoken (fun _ => rfl) hdirect
    rw [hunder] at this
    exact this
  rw [rewrite, opened_chained_next]
  simp only [hspine]
  rw [chained, layers, List.flatMap_cons, Segment.layers, List.cons_append, closed_along]

theorem addGuard_chained (h : Fresh t (s :: ss)) {c : NullCheck} (hc : c.operand = .assign .plain (.reference s.temporary) t)
    (matched : Bool) (names : List String) : Constructed.addGuard c ⟨chained s.next ss, matched, names⟩ =
      some ⟨chained t (s :: ss), true, names ++ [s.temporary]⟩ := by
  have htoken : c.token = .reference s.temporary := by simp only [NullCheck.token, hc, assignment?]
  have htarget : c.target = t := by simp only [NullCheck.target, hc, assignment?]
  have htemporary : c.temporary? = some s.temporary := by simp only [NullCheck.temporary?, hc, assignment?, Option.map_some]
  have hrelink : c.relink (chained s.next ss) = chained t (s :: ss) := by
    simp only [NullCheck.relink, htoken, htarget, htemporary, rewrite_chained, Option.any_some, h.uses_chained, Nat.lt_irrefl,
      decide_false, Bool.false_eq_true, if_false]
  refine Constructed.addGuard_eq_some.2 ⟨?_, ?_⟩
  · rw [htoken, htarget, rewrite_chained]
  · rw [hrelink, foldAssigned_of_assignments h.assignments_chained, htemporary, Option.toList_some, List.append_nil]

theorem isBranching_conditions (negated : Bool) (t : Tree) (ss : List LoweredLink) :
    ∀ c ∈ conditions negated t ss, c.isBranching = false := by
  induction ss generalizing t with
  | nil => simp [conditions]
  | cons s ss ih =>
    intro c hc
    rcases List.mem_append.1 hc with hc | hc
    · exact s.test.isBranching_conditions _ _ _ c hc
    · exact ih s.next c hc

theorem negated_conditions (t : Tree) (ss : List LoweredLink) :
    (conditions true t ss).map Tree.negated = conditions false t ss := by
  induction ss generalizing t with
  | nil => rfl
  | cons s ss ih => rw [conditions, List.map_append, s.test.negated_conditions, ih, conditions]

/-- The decision of a lowered chain is a row of comparisons, each of which leads to `nothing` where it holds. -/
def row (nothing : Tree) (conditions : List Tree) (value : Tree) : Decision :=
  conditions.foldr (fun c rest => .test c (.leaf nothing none) rest) (.leaf value none)

/-- The row is read guard by guard. -/
theorem construct_row {a : Acceptance} {nothing : Tree} (ha : a.accepts (.leaf nothing none) = true) (h : Fresh t ss)
    (hss : ∀ s ∈ ss, s.IsTestable) :
    (row nothing (conditions false t ss) (guarded t ss)).construct a none =
      some ⟨chained t ss, !ss.isEmpty, (temporaries ss).reverse⟩ := by
  induction ss generalizing t with
  | nil =>
    have hfolded := foldAssigned_of_assignments h.unassigned.1
    rw [row, conditions, List.foldr_nil, Decision.construct, Constructed.ofLeaf, guarded, hfolded]
    rfl
  | cons s ss ih =>
    simp only [List.mem_cons, forall_eq_or_imp] at hss
    obtain ⟨⟨hfirst, hname⟩, hss⟩ := hss
    have hrest := ih h.next hss
    have hguard : ∀ compared strict,
        (some ⟨chained s.next ss, !ss.isEmpty, (temporaries ss).reverse⟩).bind
          (Constructed.addGuard ⟨.assign .plain (.reference s.temporary) t, compared, strict, false⟩) =
        some ⟨chained t (s :: ss), true, (temporaries (s :: ss)).reverse⟩ := by
      intro compared strict
      have hreverse : (temporaries (s :: ss)).reverse = (temporaries ss).reverse ++ [s.temporary] := List.reverse_cons
      rw [Option.bind_some, addGuard_chained h rfl, hreverse]
    unfold row at hrest ⊢
    rw [conditions, List.foldr_append, guarded]
    cases htest : s.test with
    | @loose m c =>
      have hof := NullCheck.of?_against c (t := .assign .plain (.reference s.temporary) t) rfl false false
      refine (Decision.construct_begins ha hof rfl).trans ?_
      exact (congrArg (Option.bind · _) hrest).trans (hguard m false)
    | @strict m first second =>
      rw [htest] at hfirst hname
      cases m with
      | undefined => exact absurd hfirst (by simp [GuardTest.isNullFirst])
      | null =>
        have hof := NullCheck.of?_against first (t := .assign .plain (.reference s.temporary) t) rfl true false
        have hagain := NullCheck.of?_against second (t := .reference s.temporary) (bne_iff_ne.2 (hname rfl)) true false
        have hcompletes : NullCheck.completes ⟨.reference s.temporary, .undefined, true, false⟩ (.reference s.temporary) = true := by
          simp [NullCheck.completes, NullCheck.token, assignment?, Tree.same]
        refine (Decision.construct_begins ha hof rfl).trans ?_
        refine (congrArg (Option.bind · _) ?_).trans (hguard .null true)
        exact (Decision.construct_completes ha hagain hcompletes).trans hrest

end LoweredLink

/-! ## The theorem -/

open LoweredLink

/-- A chain from a base, lowered: with the comparisons joined by `||` in front of the value, or negated and joined by `&&` behind it. -/
inductive Tree.IsLowered (base : Tree) (links : List LoweredLink) : Tree → Prop where
  | or {test nothing : Tree} (h : nothing.isUndefined = true) (tests : Nests .or (conditions false base links) test) :
      IsLowered base links (.conditional test nothing (guarded base links))
  | and {test nothing : Tree} (h : nothing.isUndefined = true) (tests : Nests .and (conditions true base links) test) :
      IsLowered base links (.conditional test (guarded base links) nothing)

/-- Both forms are read as the same row. -/
theorem Tree.IsLowered.oriented {base t : Tree} {s : LoweredLink} {ss : List LoweredLink} (h : IsLowered base (s :: ss) t) :
    ∃ nothing, nothing.isUndefined = true ∧
      (Decision.ofValue t).oriented = row nothing (conditions false base (s :: ss)) (guarded base (s :: ss)) := by
  have hvalue := decision_of_isLayered (isLayered_guarded base s ss)
  have hbranching := fun negated => isBranching_conditions negated base (s :: ss)
  have hroot : ∀ negated (f : Tree → Decision → Decision), (∀ c d, (f c d).root = c) → ∀ d,
      ((conditions negated base (s :: ss)).foldr f d).root.isNotNullCheck = negated := by
    intro negated f hf d
    rw [conditions, List.foldr_append]
    cases s.test with
    | loose c =>
      rw [GuardTest.conditions, List.foldr_cons, hf, isNotNullCheck,
        NullCheck.of?_against c (t := .assign .plain (.reference s.temporary) base) rfl]
      rfl
    | strict first second =>
      rw [GuardTest.conditions, List.foldr_cons, hf, isNotNullCheck,
        NullCheck.of?_against first (t := .assign .plain (.reference s.temporary) base) rfl]
      rfl
  cases h with
  | @or test nothing h tests =>
    refine ⟨nothing, h, ?_⟩
    rw [Decision.ofValue, decision_of_isUndefined h, hvalue, Decision.choose_or tests (hbranching false), Decision.oriented,
      hroot false _ (fun _ _ => rfl)]
    rfl
  | @and test nothing h tests =>
    refine ⟨nothing, h, ?_⟩
    rw [Decision.ofValue, decision_of_isUndefined h, hvalue, Decision.choose_and tests (hbranching true), Decision.oriented,
      hroot true _ (fun _ _ => rfl), if_pos rfl, Decision.negated_row, negated_conditions]
    rfl

/-- Reconstruction takes back how chains are lowered: whatever the base, the number of links, the tests and the way they are
nested, it puts the links behind the base again, in its own chain if it ends in one, and reports the temporaries, the last one
first. -/
theorem Tree.reconstruct_lowered {base t : Tree} {links : List LoweredLink} (hlinks : links ≠ [])
    (h : IsLowered base links t) (hfresh : Fresh base links) (htestable : ∀ s ∈ links, s.IsTestable) (o : Options) :
    t.reconstruct o = some ⟨.chain (base.opened.along (LoweredLink.layers links)), (temporaries links).reverse⟩ := by
  cases links with
  | nil => exact absurd rfl hlinks
  | cons s ss =>
    obtain ⟨nothing, hnothing, hrow⟩ := h.oriented
    have hbranching : t.isBranching = true := by cases h <;> rfl
    have hlast : (row nothing (conditions false base (s :: ss)) (guarded base (s :: ss))).lastLeaf = (guarded base (s :: ss), none) := by
      generalize conditions false base (s :: ss) = cs
      induction cs with
      | nil => rfl
      | cons c cs ih => exact ih
    have haccepts : (Acceptance.ofDecision (row nothing (conditions false base (s :: ss)) (guarded base (s :: ss))) o).accepts
        (.leaf nothing none) = true := by
      have hlayered := isLayered_guarded base s ss
      unfold Acceptance.ofDecision
      rw [hlast]
      split
      · rename_i heq
        rw [(Prod.mk.inj heq).1] at hlayered
        exact absurd hlayered (by simp [isLayered])
      · simp [Acceptance.accepts, hnothing]
    have hconstruct := construct_row haccepts hfresh htestable
    have hsame : (chained base (s :: ss)).same t = false := by
      cases h <;> simp [chained, Tree.same, bare]
    simp only [reconstruct, Decision.of?, hbranching, if_true, Option.bind_eq_bind, Option.bind_some, hrow, Decision.build, hconstruct,
      hsame]
    rfl

namespace LoweringWitness

/-- `void 0` -/
def nothing : Tree := .unary .void (.number .zero)

/-- `.c` -/
def access (name : String) (h : (Layer.member name).isMethod = false) : Segment := ⟨.member name, [], by simp, by simpa using h⟩

/-- `.b[f](g)` -/
def called : Segment := ⟨.member "b", [.index (.reference "f"), .call [.reference "g"]], by simp, by decide⟩

/-- `a?.x` -/
def origin : Tree := .chain (.member (.reference "a") "x" true)

/-- `base?.b[f](g)?.c`, with a strict and a loose guard. -/
def links : List LoweredLink := [⟨"t", .strict (.ofNull false) (.ofVoid false), called⟩, ⟨"u", .loose (.ofNull true), access "c" rfl⟩]

/-- `t.b[f](g)` -/
def first : Tree := .call (.index (.member (.reference "t") "b" false) (.reference "f") false) [.reference "g"] false

/-- `(t = a?.x) === null || (t === void 0 || null == (u = t.b[f](g))) ? void 0 : u.c` -/
def lowered : Tree :=
  .conditional
    (.logical .or (.binary .strictEq (.assign .plain (.reference "t") origin) .null)
      (.logical .or (.binary .strictEq (.reference "t") nothing) (.binary .eq .null (.assign .plain (.reference "u") first))))
    nothing (.member (.reference "u") "c" false)

end LoweringWitness

open LoweringWitness in
/-- It becomes `a?.x?.b[f](g)?.c`. -/
theorem Tree.reconstruct_lowered_nested : IsLowered origin links lowered ∧ Fresh origin links ∧ (∀ s ∈ links, s.IsTestable) ∧
    ∀ o, lowered.reconstruct o = some ⟨.chain (.member (.call (.index (.member (.member (.reference "a") "x" true) "b" true)
      (.reference "f") false) [.reference "g"] false) "c" true), ["u", "t"]⟩ := by
  have htests : Nests .or ([.binary .strictEq (.assign .plain (.reference "t") origin) .null] ++
      ([.binary .strictEq (.reference "t") nothing] ++ [.binary .eq .null (.assign .plain (.reference "u") first)])) _ :=
    .node (.leaf _) (.node (.leaf _) (.leaf _))
  have hlowered : IsLowered origin links lowered := .or rfl htests
  have hfresh : Fresh origin links := ⟨by decide, by decide, by decide⟩
  have htestable : ∀ s ∈ links, s.IsTestable := by simp [links, IsTestable, GuardTest.isNullFirst, GuardTest.isStrict]
  exact ⟨hlowered, hfresh, htestable, reconstruct_lowered (by simp [links]) hlowered hfresh htestable⟩

open LoweringWitness in
/-- A temporary named `undefined` is no temporary where it is tested alone, and a chain that ends in `x!` stays closed where another
link follows: `(undefined = a) === null || undefined === void 0 ? void 0 : undefined.c` is left as it is, and
`(t = a?.x!) == null ? void 0 : t.c` becomes `(a?.x!)?.c`. -/
theorem Tree.reconstruct_lowered_false :
    (¬ ∀ (base t : Tree) (links : List LoweredLink) (o : Options), links ≠ [] → IsLowered base links t → Fresh base links →
      (∀ s ∈ links, s.test.isNullFirst = true) → (∀ u, base ≠ .chain u) →
      t.reconstruct o = some ⟨.chain (base.along (LoweredLink.layers links)), (temporaries links).reverse⟩) ∧
    (¬ ∀ (base t : Tree) (links : List LoweredLink) (o : Options), links ≠ [] → IsLowered (.chain base) links t →
      Fresh (.chain base) links → (∀ s ∈ links, s.IsTestable) →
      t.reconstruct o = some ⟨.chain (base.along (LoweredLink.layers links)), (temporaries links).reverse⟩) := by
  constructor
  · intro h
    have htests : Nests .or ([.binary .strictEq (.assign .plain (.reference "undefined") (.reference "a")) .null] ++
        [.binary .strictEq (.reference "undefined") nothing]) _ := .node (.leaf _) (.leaf _)
    have hlowered : IsLowered (.reference "a") [⟨"undefined", .strict (.ofNull false) (.ofVoid false), access "c" rfl⟩]
        (.conditional _ nothing (.member (.reference "undefined") "c" false)) := .or rfl htests
    have hnone := h _ _ _ {} (by simp) hlowered ⟨by decide, by decide, by decide⟩ (by simp [GuardTest.isNullFirst]) (by simp)
    exact absurd hnone (by decide)
  · intro h
    have hother := h (.nonNull (.member (.reference "a") "x" true))
      (.conditional (.binary .eq (.assign .plain (.reference "t") (.chain (.nonNull (.member (.reference "a") "x" true)))) .null)
        nothing (.member (.reference "t") "c" false))
      [⟨"t", .loose (.ofNull false), access "c" rfl⟩] {} (by simp) (.or rfl (.leaf _)) ⟨by decide, by decide, by decide⟩
      (by simp [IsTestable, GuardTest.isNullFirst, GuardTest.isStrict])
    exact absurd hother (by decide)

end Chainlift
