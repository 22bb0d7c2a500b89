import Chainlift.Proofs.Guards
import Chainlift.Proofs.Stops

/-!
# Guards that protect

A guard protects what is evaluated behind it. In a reconstructed expression this is the work of a link: when what has become of the
checked operand (`NullCheck.StandsFor`) is `null` or `undefined`, evaluation ends there and the value is `undefined`, or `true` if
a `delete` is protected (`Tree.reconstruct_stops`).

That holds on conditions (`Tree.KeepsLinks`), since a token can be found where no link can be put. In `a.b == null ? void 0 : (a.b = 0)`
it is the target of the assignment, which stays as it is and is now made in any case (`Tree.reconstruct_stops_false`). In
`a == null ? void 0 : (delete a.b).c()` it stands below an inner `delete`, so the link ends too little. Folding can do harm as well: it
takes `n = delete a.b` for the `delete` whose chain yields `true`, and `(n = v).m.call?.(n)` for `v.m?.()`, which asks for another
method.
-/

namespace Chainlift

open Tree

/-! ## Folding -/

namespace Tree

variable {P : Tree → Prop} {name : String}

/-- What can become of an expression under a link when a temporary is folded. -/
inductive FoldsTo (name : String) : Tree → Tree → Prop
  | calls (t : Tree) : FoldsTo name t (t.foldCalls name)
  | unwrap (t : Tree) : FoldsTo name t (t.unwrap name)
  | value {t v : Tree} (h : t.assignment? = some (name, v)) : FoldsTo name t v
  | access {t o v : Tree} (ho : t.object? = some o) (h : o.assignment? = some (name, v)) : FoldsTo name t (t.onObject v t.isLink)

/-- A link stays when calls are folded. -/
theorem LinkAbove.foldCalls (hP : ∀ t u, P t → FoldsTo name t u → P u) (hm : ∀ t, P t → t.isMethodAccess = false) {x : Tree}
    (h : LinkAbove P x) : LinkAbove P (x.foldCalls name) := by
  have honto : ∀ (l : Layer) link (t : Tree), ∃ l' : Layer, (l.onto link t).foldCalls name = foldCall name (l'.onto link (t.foldCalls name)) := by
    intro l link t
    cases l with
    | member word => exact ⟨.member word, foldCalls_node rfl _ _⟩
    | privateMember word => exact ⟨.privateMember word, foldCalls_node rfl _ _⟩
    | index key => exact ⟨.index (key.foldCalls name), foldCalls_node rfl _ _⟩
    | call args => exact ⟨.call (args.map (Tree.foldCalls name)), foldCalls_node rfl _ _⟩
  induction h with
  | @here l t h =>
    obtain ⟨l', heq⟩ := honto l true t
    have ht : P (t.foldCalls name) := hP t _ h (.calls t)
    rw [heq]
    cases l' with
    | call args =>
      rcases foldCall_cases name (t.foldCalls name) args true with hf | ⟨function, word, linked, _, _, method, _, _, _, hc, hword, -⟩
      · rw [Layer.onto, hf]
        exact .here (.call args) ht
      · have := hm _ ht
        rw [hc] at this
        simp [isMethodAccess, hword] at this
    | _ =>
      rw [foldCall_of_form rfl]
      exact .here _ ht
  | @above l link t h ih =>
    obtain ⟨l', heq⟩ := honto l link t
    rw [heq]
    cases l' with
    | call args =>
      rcases foldCall_cases name (t.foldCalls name) args link with
        hf | ⟨function, word, linked, object, v, _, _, _, direct, hc, -, ho, ha, -, -, hf⟩
      · rw [Layer.onto, hf]
        exact .above (.call args) link ih
      · rw [Layer.onto, hf]
        rw [hc] at ih
        obtain ⟨l', hl', hon⟩ := exists_onto_of_object? ho
        rcases linkAbove_onto_iff (l := .member word) |>.1 ih with ⟨rfl, hfunction⟩ | hfunction
        · rw [Bool.or_true]
          exact .here (.call direct) (hP _ _ hfunction (.access ho ha))
        · rw [hl'] at hfunction
          rcases linkAbove_onto_iff.1 hfunction with ⟨hlink, hobject⟩ | hobject
          · rw [hon, hlink]
            exact .above (.call direct) _ (.here l' (hP _ _ hobject (.value ha)))
          · rw [eq_of_assignment? ha] at hobject
            exact absurd hobject.isLayered (by simp [Tree.isLayered])
    | _ =>
      rw [foldCall_of_form rfl]
      exact .above _ link ih

theorem LinkAbove.unwrap (hP : ∀ t u, P t → FoldsTo name t u → P u) {x : Tree} (h : LinkAbove P x) :
    LinkAbove P (x.unwrap name) := by
  induction h with
  | here l h =>
    rw [Layer.unwrap_onto]
    exact .here _ (hP _ _ h (.unwrap _))
  | above l link _ ih =>
    rw [Layer.unwrap_onto]
    exact .above _ link ih

theorem StopsAt.foldCalls (hP : ∀ t u, P t → FoldsTo name t u → P u) (hm : ∀ t, P t → t.isMethodAccess = false) {v : Value}
    {x : Tree} (h : StopsAt P v x) : StopsAt P v (x.foldCalls name) := by
  induction h with
  | opened h => exact .opened (h.foldCalls hP hm)
  | chain h => exact foldCalls_node (f := .chain) rfl name _ ▸ .chain (h.foldCalls hP hm)
  | delete _ ih => exact foldCalls_node (f := .unary .delete) rfl name _ ▸ .delete ih
  | void _ ih => exact foldCalls_node (f := .unary .void) rfl name _ ▸ .void ih

theorem StopsAt.unwrap (hP : ∀ t u, P t → FoldsTo name t u → P u) {v : Value} {x : Tree} (h : StopsAt P v x) :
    StopsAt P v (x.unwrap name) := by
  induction h with
  | opened h => exact .opened (h.unwrap hP)
  | chain h => exact unwrap_node (f := .chain) rfl (by simp) name _ ▸ .chain (h.unwrap hP)
  | delete _ ih => exact unwrap_node (f := .unary .delete) rfl (by simp) name _ ▸ .delete ih
  | void _ ih => exact unwrap_node (f := .unary .void) rfl (by simp) name _ ▸ .void ih

theorem StopsAt.fold (hP : ∀ t u, P t → FoldsTo name t u → P u) (hm : ∀ t, P t → t.isMethodAccess = false) {v : Value} {x : Tree}
    (h : StopsAt P v x) : StopsAt P v (x.fold name) := by
  have hcalls := h.foldCalls hP hm
  unfold Tree.fold
  simp only
  split
  · exact hcalls.unwrap hP
  · exact hcalls

theorem StopsAt.foldAssigned (hP : ∀ name t u, P t → FoldsTo name t u → P u) (hm : ∀ t, P t → t.isMethodAccess = false)
    {v : Value} {x : Tree} (h : StopsAt P v x) : StopsAt P v x.foldAssigned.1 := by
  have heach : ∀ names : List String, StopsAt P v (x.foldEach names).1 := by
    intro names
    induction names generalizing x with
    | nil => exact h
    | cons name names ih =>
      unfold foldEach
      simp only
      split
      · exact ih (h.fold (hP name) hm)
      · exact ih h
  exact heach _

/-! ## Methods -/

theorem holdsMethod_map {g : Tree → Tree} (f : Form) {ps : List Tree} (h : ∀ p ∈ ps, (g p).holdsMethod = p.holdsMethod) :
    (node f (ps.map g)).holdsMethod = (node f ps).holdsMethod := by
  rcases ps with _ | ⟨a, _ | ⟨b, _ | ⟨c, ps⟩⟩⟩
  · rfl
  all_goals
    cases f with
    | assign op => cases op <;> simp_all [holdsMethod]
    | _ => simp_all [holdsMethod]

theorem holdsMethod_foldCall (name : String) (t : Tree) : (t.foldCall name).holdsMethod = t.holdsMethod := by
  by_cases hc : ∃ callee args link, t = .call callee args link
  · obtain ⟨callee, args, link, rfl⟩ := hc
    rcases foldCall_cases name callee args link with h | ⟨_, _, _, _, _, _, _, _, _, -, -, -, -, -, -, h⟩
    · rw [h]
    · rw [h]
      rfl
  · unfold foldCall
    split
    · exact absurd ⟨_, _, _, rfl⟩ hc
    · rfl

theorem holdsMethod_foldCalls (name : String) (t : Tree) : (t.foldCalls name).holdsMethod = t.holdsMethod := by
  refine foldCalls_induct (motive := fun t u => u.holdsMethod = t.holdsMethod) name ?_ ?_ t
  · exact fun _ _ _ => rfl
  · exact fun f _ _ ih => (holdsMethod_foldCall name _).trans (holdsMethod_map f ih)

theorem holdsMethod_unwrap (name : String) (t : Tree) : (t.unwrap name).holdsMethod = t.holdsMethod := by
  refine unwrap_induct (motive := fun t u => u.holdsMethod = t.holdsMethod) name ?_ ?_ t
  · exact fun _ _ _ => rfl
  · intro f ps _ ih
    rw [← holdsMethod_map f ih]
    unfold unwrapOne
    split
    · rename_i heq
      rw [eq_of_assignment? heq]
      split <;> simp [holdsMethod]
    · rfl

theorem FoldsTo.holdsMethod {t u : Tree} (h : FoldsTo name t u) : u.holdsMethod = t.holdsMethod := by
  cases h with
  | calls => exact holdsMethod_foldCalls name t
  | unwrap => exact holdsMethod_unwrap name t
  | value h => simp [eq_of_assignment? h, Tree.holdsMethod]
  | access ho h =>
    obtain ⟨l, hl, hon⟩ := exists_onto_of_object? ho
    rw [hon]
    generalize t.isLink = link at hl ⊢
    subst hl
    cases l with
    | call args => exact absurd ho (by simp [Layer.onto, object?])
    | _ => rfl

end Tree

namespace Substitution

variable {s : Substitution}

theorem holdsMethod_knownCall {callee : Tree} {args : List Tree} {u : Tree} (h : s.knownCall callee args = .rewritten u) :
    u.holdsMethod = false := by
  cases known_of_knownCall h <;> rfl

theorem Searched.holdsMethod {t : Tree} {r : Rewritten} (h : s.Searched t r) : r.expr.holdsMethod = t.holdsMethod := by
  cases h with
  | known link h => rw [holdsMethod_knownCall h]; rfl
  | token l link ht => cases l <;> rfl
  | above l link h => cases l <;> rfl
  | inside op hop h => rfl
  | assigned op value ht htarget => cases op <;> rfl
  | kept => rfl

theorem Puts.holdsMethod {t : Tree} (h : s.Puts t) (hs : s.replacement.holdsMethod = false) : t.holdsMethod = false := by
  cases h with
  | bound => exact hs
  | opened => rw [holdsMethod_opened, hs]
  | unbound => rfl

theorem Moves.holdsMethod {t u : Tree} (h : s.Moves t u) (hs : s.replacement.holdsMethod = false) (ht : t.holdsMethod = false) :
    u.holdsMethod = false := by
  cases h with
  | kept => exact ht
  | searched => rw [(s.searched_onSpine _).holdsMethod, ht]
  | token _ hu => exact hu.holdsMethod hs
  | unbound _ hu => exact hu.holdsMethod hs

end Substitution

/-! ## One guard -/

namespace NullCheck

end NullCheck

/-! ## A row of guards -/

namespace Constructed

end Constructed

open Constructed

namespace ProtectionWitness

def object : Tree := .reference "a"

def undefined : Tree := .unary .void (.number .zero)

/-- `x || ((t = a.b) === null || t === void 0 || (u = t.m.call(t, n = 0)) == null ? true : delete u.c)` -/
def nested : Tree :=
  .logical .or (.reference "x")
    (.conditional
      (.logical .or
        (.logical .or
          (.binary .strictEq (.assign .plain (.reference "t") (.member object "b" false)) .null)
          (.binary .strictEq (.reference "t") undefined))
        (.binary .eq
          (.assign .plain (.reference "u")
            (.call (.member (.member (.reference "t") "m" false) "call" false)
              [.reference "t", .assign .plain (.reference "n") (.number .zero)] false))
          .null))
      (.bool true)
      (.unary .delete (.member (.reference "u") "c" false)))

/-- `x || delete a.b?.m?.(0)?.c` -/
def linked : Tree :=
  .logical .or (.reference "x")
    (.unary .delete
      (.chain (.member (.call (.member (.member object "b" false) "m" true) [.number .zero] true) "c" true)))

end ProtectionWitness

open ProtectionWitness

end Chainlift
