import Chainlift.Proofs.Comparisons
import Chainlift.Proofs.Survey

/-!
# Expanded `??`

`r?.a?.b ?? fallback` is expanded to

    null !== (t = null == r || null == (n = r.a) ? void 0 : n.b) && void 0 !== t ? t : fallback

with a guard on the root and one on each temporary, loose or strict, in a nest of `||`. The recognizer takes this back for any number
of links (`Tree.coalesce_expanded`): the survey of the guards learns the temporaries one after the other, each as a member of the
one before, and all of them are checked (`Survey.exists_foldlM_conditions`).
-/

namespace Chainlift

open Tree

namespace GuardTest

/-- The test that the value is not missing: one comparison, or a strict pair joined by `&&`. -/
def notMissing (checked again : Tree) : GuardTest → Tree
  | .loose c => c.against (.equality false true) checked
  | .strict first second =>
    .logical .and (first.against (.equality true true) checked) (second.against (.equality true true) again)

/-- The variable that is assigned and tested is found, with its value. -/
theorem assignedGuard_notMissing (g : GuardTest) {name : String} (hname : g.isStrict = true → name ≠ "undefined") (value : Tree) :
    assignedGuard (g.notMissing (.assign .plain (.reference name) value) (.reference name)) (.reference name) =
      some (name, value) := by
  cases g with
  | @loose m c =>
    have hof := NullCheck.of?_against c (t := .assign .plain (.reference name) value) rfl false true
    have hchecks : (c.against (.equality false true) (.assign .plain (.reference name) value)).notNullChecks =
        some (⟨.assign .plain (.reference name) value, m, false, true⟩, none) := by
      unfold notNullChecks
      split
      · rename_i heq
        have hbranching := c.isBranching_against (.equality false true) (.assign .plain (.reference name) value)
        rw [heq] at hbranching
        exact absurd hbranching (by simp [isBranching, form])
      · rw [hof]
        rfl
    simp only [assignedGuard, notMissing, asVariable?, hchecks, Option.bind_eq_bind, Option.bind_some, assignment?, NullCheck.agrees,
      Option.all_none, beq_self_eq_true, Bool.and_self, if_true]
  | @strict m first second =>
    have hfirst := NullCheck.of?_against first (t := .assign .plain (.reference name) value) rfl true true
    have hsecond := NullCheck.of?_against second (t := .reference name) (bne_iff_ne.2 (hname rfl)) true true
    have hpair : NullCheck.isStrictPair ⟨.assign .plain (.reference name) value, m, true, true⟩
        ⟨.reference name, m.other, true, true⟩ = true := by
      cases m <;> rfl
    simp only [assignedGuard, notMissing, notNullChecks, asVariable?, hfirst, hsecond, hpair, Option.bind_eq_bind, Option.bind_some,
      if_true, assignment?, NullCheck.agrees, Option.all_some, beq_self_eq_true, Bool.and_self]

end GuardTest

/-! ## Surveying guards -/

namespace Survey

variable {s : Survey} {g : Tree} {c : NullCheck} {name parent : String} {access : Tree}

theorem addGuard_variable (hc : NullCheck.of? g = some c) (hn : c.negated = false) (hop : c.operand = .reference name) :
    s.addGuard g = s.addVariable name := by
  simp only [addGuard, hc, Option.bind_eq_bind, Option.bind_some, hn, Bool.false_eq_true, if_false, hop, asVariable?]

theorem addGuard_binding (hc : NullCheck.of? g = some c) (hn : c.negated = false)
    (hop : c.operand = .assign .plain (.reference name) access) : s.addGuard g = s.addBinding c := by
  simp only [addGuard, hc, Option.bind_eq_bind, Option.bind_some, hn, Bool.false_eq_true, if_false, hop, asVariable?]

theorem addVariable_of_knows (hroot : s.root.isSome = true) (h : s.knows name = true) :
    s.addVariable name = some ⟨s.root, s.bindings, name :: s.checked⟩ := by
  unfold addVariable
  rw [if_neg, if_pos h]
  simp [Option.isSome_iff_ne_none.1 hroot]

theorem addBinding_of_knows (hop : c.operand = .assign .plain (.reference name) access)
    (ho : access.object? = some (.reference parent)) (hlink : access.isLink = false) (hparent : s.knows parent = true)
    (hname : s.knows name = false) : s.addBinding c = some ⟨s.root, s.bindings ++ [⟨name, parent, access⟩],
      if c.compared == .null || !c.strict then name :: s.checked else s.checked⟩ := by
  simp only [addBinding, hop, assignment?, Option.bind_eq_bind, Option.bind_some, ho, asVariable?, hlink, hparent, hname,
    Bool.not_true, Bool.or_self, Bool.false_eq_true, if_false]

theorem knows_bound (s : Survey) (b : TemporaryBinding) (checked : List String) (name : String) :
    knows ⟨s.root, s.bindings ++ [b], checked⟩ name = (s.knows name || b.name == name) := by
  simp only [knows, isBound, List.any_append, List.any_cons, List.any_nil, Bool.or_false, Bool.or_assoc]

/-- A guard on a temporary, loose or strict in either order, makes the temporary known and checked. -/
theorem exists_foldlM_guard (t : GuardTest) (hroot : s.root.isSome = true) (ho : access.object? = some (.reference parent))
    (hlink : access.isLink = false) (hparent : s.knows parent = true) (hname : s.knows name = false)
    (hstrict : t.isStrict = true → name ≠ "undefined") :
    ∃ checked, (t.conditions false (.assign .plain (.reference name) access) (.reference name)).foldlM addGuard s =
        some ⟨s.root, s.bindings ++ [⟨name, parent, access⟩], checked⟩ ∧
      (∀ n, s.checked.contains n = true → checked.contains n = true) ∧ checked.contains name = true := by
  have hbound : ∀ {m : Missing} (c : Comparand m) (strict : Bool),
      s.addGuard (c.against (.equality strict false) (.assign .plain (.reference name) access)) =
        some ⟨s.root, s.bindings ++ [⟨name, parent, access⟩], if m == .null || !strict then name :: s.checked else s.checked⟩ := by
    intro m c strict
    rw [addGuard_binding (NullCheck.of?_against c rfl strict false) rfl rfl]
    exact addBinding_of_knows rfl ho hlink hparent hname
  cases t with
  | loose c =>
    refine ⟨name :: s.checked, ?_, fun n hn => ?_, ?_⟩
    · rw [GuardTest.conditions, List.foldlM_cons, hbound]
      simp
    · rw [List.contains_cons, hn, Bool.or_true]
    · simp
  | @strict m first second =>
    have hcheckable : NullCheck.isCheckable (.reference name) = true := bne_iff_ne.2 (hstrict rfl)
    have hagain : ∀ checked, addGuard ⟨s.root, s.bindings ++ [⟨name, parent, access⟩], checked⟩
        (second.against (.equality true false) (.reference name)) =
          some ⟨s.root, s.bindings ++ [⟨name, parent, access⟩], name :: checked⟩ := by
      intro checked
      rw [addGuard_variable (NullCheck.of?_against second hcheckable true false) rfl rfl]
      exact addVariable_of_knows hroot (by rw [knows_bound, beq_self_eq_true, Bool.or_true])
    refine ⟨name :: (if m == .null || !true then name :: s.checked else s.checked), ?_, fun n hn => ?_, ?_⟩
    · rw [GuardTest.conditions, List.foldlM_cons, hbound, Option.bind_eq_bind, Option.bind_some, List.foldlM_cons, hagain]
      rfl
    · rw [List.contains_cons]
      split
      · rw [List.contains_cons, hn, Bool.or_true, Bool.or_true]
      · rw [hn, Bool.or_true]
    · rw [List.contains_cons, beq_self_eq_true, Bool.true_or]

/-- A guard on the root, the first of all. -/
theorem exists_foldlM_root (t : GuardTest) {root : String} (hroot : root ≠ "undefined") :
    ∃ checked, (t.conditions false (.reference root) (.reference root)).foldlM addGuard {} = some ⟨some root, [], checked⟩ ∧
      checked.contains root = true := by
  have hcheckable : NullCheck.isCheckable (.reference root) = true := bne_iff_ne.2 hroot
  have hfirst : ∀ {m : Missing} (c : Comparand m) (strict : Bool),
      addGuard {} (c.against (.equality strict false) (.reference root)) = some ⟨some root, [], [root]⟩ := by
    intro m c strict
    rw [addGuard_variable (NullCheck.of?_against c hcheckable strict false) rfl rfl]
    rfl
  cases t with
  | loose c =>
    refine ⟨[root], ?_, by simp⟩
    rw [GuardTest.conditions, List.foldlM_cons, hfirst]
    rfl
  | strict first second =>
    refine ⟨[root, root], ?_, by simp⟩
    rw [GuardTest.conditions, List.foldlM_cons, hfirst, Option.bind_eq_bind, Option.bind_some, List.foldlM_cons,
      addGuard_variable (NullCheck.of?_against second hcheckable true false) rfl rfl]
    simp [addVariable, knows]

end Survey

/-! ## Expansion -/

/-- An access by a static, private or computed key. -/
structure MemberKey where
  layer : Layer
  isAccess : ∀ args, layer ≠ .call args

namespace MemberKey

def static (name : String) : MemberKey := ⟨.member name, fun _ h => Layer.noConfusion h⟩

def computed (key : Tree) : MemberKey := ⟨.index key, fun _ h => Layer.noConfusion h⟩

def ofPrivate (name : String) : MemberKey := ⟨.privateMember name, fun _ h => Layer.noConfusion h⟩

/-- The access, made on a variable. -/
def on (k : MemberKey) (name : String) : Tree := k.layer.onto false (.reference name)

theorem object?_on (k : MemberKey) (name : String) : (k.on name).object? = some (.reference name) := by
  obtain ⟨l, hl⟩ := k
  cases l with
  | call args => exact absurd rfl (hl args)
  | _ => rfl

theorem isLink_on (k : MemberKey) (name : String) : (k.on name).isLink = false := by
  obtain ⟨l, -⟩ := k
  cases l <;> rfl

theorem layer?_on (k : MemberKey) (name : String) : (k.on name).layer? = some k.layer := by
  obtain ⟨l, hl⟩ := k
  cases l with
  | call args => exact absurd rfl (hl args)
  | _ => rfl

end MemberKey

/-- One link of a chain as it is expanded: the temporary for the member, how it is tested, and the key of the member. -/
structure ExpandedLink where
  temporary : String
  test : GuardTest
  key : MemberKey

namespace ExpandedLink

/-- The comparisons of all guards behind the one on a variable. -/
def conditions : (current : String) → List ExpandedLink → List Tree
  | _, [] => []
  | current, s :: ss =>
    s.test.conditions false (.assign .plain (.reference s.temporary) (s.key.on current)) (.reference s.temporary) ++
      conditions s.temporary ss

/-- The temporaries with what they are assigned. -/
def bindings : (current : String) → List ExpandedLink → List TemporaryBinding
  | _, [] => []
  | current, s :: ss => ⟨s.temporary, current, s.key.on current⟩ :: bindings s.temporary ss

/-- The variable that the last guard is on. -/
def last : (current : String) → List ExpandedLink → String
  | current, [] => current
  | _, s :: ss => last s.temporary ss

/-- The temporary can be tested. -/
def IsTestable (s : ExpandedLink) : Prop := s.test.isStrict = true → s.temporary ≠ "undefined"

theorem name_bindings (current : String) (ss : List ExpandedLink) : (bindings current ss).map (·.name) = ss.map (·.temporary) := by
  induction ss generalizing current with
  | nil => rfl
  | cons s ss ih => rw [bindings, List.map_cons, ih, List.map_cons]

theorem isBranching_conditions (current : String) (ss : List ExpandedLink) : ∀ t ∈ conditions current ss, t.isBranching = false := by
  induction ss generalizing current with
  | nil => exact fun t ht => absurd ht (by simp [conditions])
  | cons s ss ih =>
    intro t ht
    rcases List.mem_append.1 ht with ht | ht
    · exact s.test.isBranching_conditions _ _ false t ht
    · exact ih _ t ht

theorem isSome_object?_bindings (current : String) (ss : List ExpandedLink) :
    ∀ a ∈ (bindings current ss).map (·.access), a.object?.isSome = true := by
  induction ss generalizing current with
  | nil => exact fun a ha => absurd ha (by simp [bindings])
  | cons s ss ih =>
    simp only [bindings, List.map_cons, List.mem_cons, forall_eq_or_imp]
    exact ⟨by rw [s.key.object?_on]; rfl, ih _⟩

/-- Every access becomes a link, and the one behind the guards too. -/
theorem links_bindings (current : String) (ss : List ExpandedLink) (k : MemberKey) :
    links ((bindings current ss).map (·.access) ++ [k.on (last current ss)]) = (ss.map (·.key) ++ [k]).map (·.layer, true) := by
  induction ss generalizing current with
  | nil => exact links_cons (k.layer?_on current) []
  | cons s ss ih =>
    rw [bindings, last, List.map_cons, List.cons_append, links_cons (s.key.layer?_on current), ih]
    rfl

/-- The survey of the guards behind one variable leads on to the last of them. -/
theorem exists_foldlM_conditions {s : Survey} {root current : String} {ss : List ExpandedLink} (h : s.Follows root current)
    (hknown : s.knows current = true) (hnodup : (ss.map (·.temporary)).Nodup)
    (hnew : ∀ l ∈ ss, s.knows l.temporary = false) (htestable : ∀ l ∈ ss, l.IsTestable) :
    ∃ s', (conditions current ss).foldlM Survey.addGuard s = some s' ∧ s'.Follows root (last current ss) ∧
      s'.bindings = s.bindings ++ bindings current ss := by
  induction ss generalizing s current with
  | nil => exact ⟨s, rfl, h, (List.append_nil _).symm⟩
  | cons l ss ih =>
    simp only [List.mem_cons, forall_eq_or_imp] at hnew htestable
    obtain ⟨hfirst, hnodup⟩ := List.nodup_cons.1 hnodup
    have hrooted : s.root.isSome = true := by rw [h.rooted]; rfl
    have hroot : l.temporary ≠ root := by
      rintro heq
      have := hnew.1
      rw [Survey.knows, h.rooted, heq, beq_self_eq_true, Bool.true_or] at this
      exact absurd this (by simp)
    obtain ⟨checked, hguard, hmore, hchecked⟩ := Survey.exists_foldlM_guard l.test hrooted (l.key.object?_on current)
      (l.key.isLink_on current) hknown hnew.1 htestable.1
    -- The other temporaries are still unknown once this one is bound.
    have hothers : ∀ m ∈ ss, Survey.knows ⟨s.root, s.bindings ++ [⟨l.temporary, current, l.key.on current⟩], checked⟩
        m.temporary = false := by
      intro m hm
      rw [Survey.knows_bound, hnew.2 m hm, Bool.false_or, beq_eq_false_iff_ne]
      exact fun heq => hfirst (List.mem_map.2 ⟨m, hm, heq.symm⟩)
    obtain ⟨s', hs', hfollows, hbindings⟩ := ih (h.bound hroot hmore hchecked _)
      (by rw [Survey.knows_bound, beq_self_eq_true, Bool.or_true]) hnodup hothers htestable.2
    refine ⟨s', ?_, hfollows, ?_⟩
    · rw [conditions, List.foldlM_append, hguard]
      exact hs'
    · rw [hbindings, bindings, List.append_assoc, List.singleton_append]

end ExpandedLink

/-- The parts of an expanded `??`: the root and how it is tested, the links behind it, the last key, and the temporary for the whole
chain with its test and the fallback. -/
structure Expansion where
  root : String
  rootTest : GuardTest
  links : List ExpandedLink
  key : MemberKey
  temporary : String
  test : GuardTest
  fallback : Tree

namespace Expansion

/-- The comparisons of the inner test. -/
def conditions (e : Expansion) : List Tree :=
  e.rootTest.conditions false (.reference e.root) (.reference e.root) ++ ExpandedLink.conditions e.root e.links

/-- The inner conditional, for a way to join the comparisons and to write `undefined`. -/
def value (e : Expansion) (inner nothing : Tree) : Tree := .conditional inner nothing (e.key.on (ExpandedLink.last e.root e.links))

/-- The whole conditional. -/
def expanded (e : Expansion) (inner nothing : Tree) : Tree :=
  .conditional (e.test.notMissing (.assign .plain (.reference e.temporary) (e.value inner nothing)) (.reference e.temporary))
    (.reference e.temporary) e.fallback

/-- The chain that was expanded. -/
def chain (e : Expansion) : Tree :=
  .chain ((Tree.reference e.root).along ((e.links.map (·.key) ++ [e.key]).map (·.layer, true)))

/-- The temporaries, that for the whole chain first. -/
def temporaries (e : Expansion) : List String := e.temporary :: e.links.map (·.temporary)

/-- The temporaries are distinct and not the root, and the fallback mentions none of them. -/
structure IsFresh (e : Expansion) : Prop where
  nodup : (e.root :: e.temporaries).Nodup
  unused : ∀ name ∈ e.temporaries, e.fallback.uses name = 0

/-- What is tested can be told from `undefined`. -/
structure IsTestable (e : Expansion) : Prop where
  root : e.root ≠ "undefined"
  links : ∀ s ∈ e.links, s.IsTestable
  temporary : e.test.isStrict = true → e.temporary ≠ "undefined"

variable {e : Expansion} {inner nothing : Tree}

/-- The inner conditional is the chain. -/
theorem guardedChain_value (hinner : Nests .or e.conditions inner) (hnothing : nothing.isUndefined = true) (hfresh : e.IsFresh)
    (htestable : e.IsTestable) : (e.value inner nothing).guardedChain = some ⟨e.chain, e.links.map (·.temporary)⟩ := by
  have hleaves : inner.alternatives = e.conditions := by
    refine hinner.alternatives fun t ht => ?_
    rcases List.mem_append.1 ht with ht | ht
    · exact e.rootTest.isBranching_conditions _ _ false t ht
    · exact ExpandedLink.isBranching_conditions _ _ t ht
  obtain ⟨hroot, htemporaries⟩ := List.nodup_cons.1 hfresh.nodup
  obtain ⟨-, hnodup⟩ := List.nodup_cons.1 htemporaries
  obtain ⟨checked, hstart, hchecked⟩ := Survey.exists_foldlM_root e.rootTest htestable.root
  have hfollows : Survey.Follows ⟨some e.root, [], checked⟩ e.root e.root :=
    ⟨rfl, by simp [Survey.climb], by simp, hchecked⟩
  have hnew : ∀ l ∈ e.links, Survey.knows ⟨some e.root, [], checked⟩ l.temporary = false := by
    intro l hl
    have hne : e.root ≠ l.temporary := fun heq => hroot (List.mem_cons_of_mem _ (List.mem_map.2 ⟨l, hl, heq.symm⟩))
    simpa [Survey.knows, Survey.isBound] using hne
  obtain ⟨s, hs, hend, hbindings⟩ := ExpandedLink.exists_foldlM_conditions hfollows (by simp [Survey.knows]) hnodup hnew
    htestable.links
  have hsurvey : inner.alternatives.foldlM Survey.addGuard {} = some s := by
    rw [hleaves, conditions, List.foldlM_append, hstart]
    exact hs
  have hbindings : s.bindings = ExpandedLink.bindings e.root e.links := hbindings
  have hobject := e.key.object?_on (ExpandedLink.last e.root e.links)
  have haccesses : ∀ a ∈ s.bindings.map (·.access), a.object?.isSome = true := by
    rw [hbindings]
    exact ExpandedLink.isSome_object?_bindings _ _
  have hlinked : (e.key.on (ExpandedLink.last e.root e.links)).object?.isSome = true := by rw [hobject]; rfl
  have hchain := hend.foldl_climbed haccesses hlinked
  have hclosed : ((Tree.reference e.root).along ((e.links.map (·.key) ++ [e.key]).map (·.layer, true))).closed = e.chain := by
    unfold chain
    cases e.links with
    | nil => exact closed_along _ _ _
    | cons l ls => exact closed_along _ _ _
  refine guardedChain_eq_some.2 ⟨hnothing, s, e.root, _, _, hsurvey, hend.rooted, hobject, hend.climbs, ?_⟩
  rw [chainAlong, hchain, hbindings, ExpandedLink.links_bindings, ExpandedLink.name_bindings, hclosed]

end Expansion

open Expansion in
/-- An expanded `??` is put back, whatever the number of links, the keys, the tests and the way they are nested: all links are in the
chain in front of it, and the temporaries are reported, that for the whole chain first and the others in the order of the links. -/
theorem Tree.coalesce_expanded {e : Expansion} {inner nothing : Tree} (hinner : Nests .or e.conditions inner)
    (hnothing : nothing.isUndefined = true) (hfresh : e.IsFresh) (htestable : e.IsTestable) :
    (e.expanded inner nothing).coalesce = some ⟨.logical .coalesce e.chain e.fallback, e.temporaries⟩ := by
  have hguard := e.test.assignedGuard_notMissing htestable.temporary (e.value inner nothing)
  have hchain := guardedChain_value hinner hnothing hfresh htestable
  have hunused : (e.temporaries.any fun name => 0 < e.fallback.uses name) = false := by
    simp only [List.any_eq_false, decide_eq_true_eq, Nat.not_lt, Nat.le_zero]
    exact hfresh.unused
  unfold Expansion.expanded
  rw [coalesce, hguard]
  simp only [hchain, Option.getD_some]
  exact if_neg (Bool.eq_false_iff.1 hunused)

namespace ExpansionWitness

/-- `void 0` -/
def nothing : Tree := .unary .void (.number .zero)

/-- `r?.a?.[k]?.#b ?? x`, with strict and loose tests. -/
def expansion : Expansion where
  root := "r"
  rootTest := .loose (.ofNull true)
  links := [⟨"n", .strict (.ofNull true) (.ofVoid true), .static "a"⟩,
    ⟨"o", .loose (.ofVoid false), .computed (.reference "k")⟩]
  key := .ofPrivate "b"
  temporary := "t"
  test := .strict (.ofNull true) (.ofVoid true)
  fallback := .reference "x"

/-- `null == r || (null === (n = r.a) || (void 0 === n || (o = n[k]) == void 0))` -/
def tests : Tree :=
  .logical .or (.binary .eq .null (.reference "r"))
    (.logical .or (.binary .strictEq .null (.assign .plain (.reference "n") (.member (.reference "r") "a" false)))
      (.logical .or (.binary .strictEq nothing (.reference "n"))
        (.binary .eq (.assign .plain (.reference "o") (.index (.reference "n") (.reference "k") false)) nothing)))

/-- `r?.b ?? x`, with a temporary named `undefined`. -/
def unnamed : Expansion where
  root := "r"
  rootTest := .loose (.ofNull true)
  links := []
  key := .static "b"
  temporary := "undefined"
  test := .strict (.ofNull true) (.ofVoid true)
  fallback := .reference "x"

/-- `r?.a?.b ?? x`, with a temporary named `undefined` for the link. -/
def unnamedLink : Expansion where
  root := "r"
  rootTest := .loose (.ofNull true)
  links := [⟨"undefined", .strict (.ofNull true) (.ofVoid true), .static "a"⟩]
  key := .static "b"
  temporary := "t"
  test := .strict (.ofNull true) (.ofVoid true)
  fallback := .reference "x"

end ExpansionWitness

open ExpansionWitness in
/-- `null !== (t = null == r || … ? void 0 : o.#b) && void 0 !== t ? t : x` becomes `r?.a?.[k]?.#b ?? x`. -/
theorem Tree.coalesce_expanded_links : Nests .or expansion.conditions tests ∧ nothing.isUndefined = true ∧ expansion.IsFresh ∧
    expansion.IsTestable ∧ (expansion.expanded tests nothing).coalesce =
      some ⟨.logical .coalesce (.chain (.privateMember (.index (.member (.reference "r") "a" true) (.reference "k") true) "b" true))
        (.reference "x"), ["t", "n", "o"]⟩ := by
  have htests : Nests .or ([.binary .eq .null (.reference "r")] ++
      ([.binary .strictEq .null (.assign .plain (.reference "n") (.member (.reference "r") "a" false))] ++
        ([.binary .strictEq nothing (.reference "n")] ++
          [.binary .eq (.assign .plain (.reference "o") (.index (.reference "n") (.reference "k") false)) nothing]))) tests :=
    .node (.leaf _) (.node (.leaf _) (.node (.leaf _) (.leaf _)))
  have hfresh : expansion.IsFresh := ⟨by decide, by decide⟩
  have htestable : expansion.IsTestable :=
    ⟨by decide, by simp [expansion, ExpandedLink.IsTestable], by simp [expansion]⟩
  exact ⟨htests, rfl, hfresh, htestable, coalesce_expanded htests rfl hfresh htestable⟩

open ExpansionWitness in
/-- A temporary named `undefined` cannot be told from `undefined` where it is tested alone: with one for the whole value,
`null !== (undefined = null == r ? void 0 : r.b) && void 0 !== undefined ? undefined : x` is left as it is, and with one for a link
no chain is found in front of `??`. -/
theorem Tree.coalesce_expanded_false :
    (¬ ∀ (e : Expansion) (inner nothing : Tree), Nests .or e.conditions inner → nothing.isUndefined = true → e.IsFresh →
      e.root ≠ "undefined" → (∀ s ∈ e.links, s.IsTestable) →
      (e.expanded inner nothing).coalesce = some ⟨.logical .coalesce e.chain e.fallback, e.temporaries⟩) ∧
    (¬ ∀ (e : Expansion) (inner nothing : Tree), Nests .or e.conditions inner → nothing.isUndefined = true → e.IsFresh →
      e.root ≠ "undefined" → (e.test.isStrict = true → e.temporary ≠ "undefined") →
      (e.expanded inner nothing).coalesce = some ⟨.logical .coalesce e.chain e.fallback, e.temporaries⟩) := by
  constructor
  · intro h
    have htests : Nests .or [.binary .eq .null (.reference "r")] _ := .leaf _
    have hnone := h unnamed _ nothing htests rfl ⟨by decide, by decide⟩ (by decide) (by simp [unnamed])
    exact absurd hnone (by decide)
  · intro h
    have htests : Nests .or ([.binary .eq .null (.reference "r")] ++
        ([.binary .strictEq .null (.assign .plain (.reference "undefined") (.member (.reference "r") "a" false))] ++
          [.binary .strictEq nothing (.reference "undefined")])) _ := .node (.leaf _) (.node (.leaf _) (.leaf _))
    have hother := h unnamedLink _ nothing htests rfl ⟨by decide, by decide⟩ (by decide) (by simp [unnamedLink])
    exact absurd hother (by decide)

end Chainlift
