import Chainlift.Proofs.Folding
import Chainlift.Proofs.Machine
import Chainlift.Spine.Rewrite

/-!
# Spines in layers

An open expression is a base under layers: accesses and calls, each of which may be a link. Evaluation goes through the layers
from the base outwards (`Machine.refer_along`). When the token is `this` or a variable, it can be found at the base only, and
the layer just above it becomes the link (`Substitution.onSpine_along`, `Substitution.onSpine_base`).
-/

namespace Chainlift

/-- What is done with the value below. -/
inductive Layer where
  | member (name : String)
  | privateMember (name : String)
  | index (key : Tree)
  | call (args : List Tree)

namespace Layer

/-- The layer on top of an expression, as a link or not. -/
def onto (l : Layer) (link : Bool) (t : Tree) : Tree :=
  match l with
  | .member name => .member t name link
  | .privateMember name => .privateMember t name link
  | .index key => .index t key link
  | .call args => .call t args link

/-- The expressions in the layer. -/
def parts : Layer → List Tree
  | .index key => [key]
  | .call args => args
  | _ => []

end Layer

namespace Tree

/-- Put layers on an expression, the innermost first. -/
def along : Tree → List (Layer × Bool) → Tree
  | t, [] => t
  | t, (l, link) :: ls => (l.onto link t).along ls

/-- The expression under all layers. -/
def base : Tree → Tree
  | .member t _ _ | .privateMember t _ _ | .index t _ _ | .call t _ _ => t.base
  | t => t

def layers : Tree → List (Layer × Bool)
  | .member t name link => t.layers ++ [(.member name, link)]
  | .privateMember t name link => t.layers ++ [(.privateMember name, link)]
  | .index t key link => t.layers ++ [(.index key, link)]
  | .call t args link => t.layers ++ [(.call args, link)]
  | _ => []

theorem along_append (t : Tree) (ls ls' : List (Layer × Bool)) : t.along (ls ++ ls') = (t.along ls).along ls' := by
  induction ls generalizing t with
  | nil => rfl
  | cons l ls ih => exact ih _

theorem base_along_layers (t : Tree) : t.base.along t.layers = t := by
  fun_induction base t with
  | case5 t h1 h2 h3 h4 =>
    unfold layers
    split <;> simp_all [along]
  | _ => simp_all [layers, along_append, along, Layer.onto]

/-- The layers of a call by `f.call`, `f.apply` or `f.bind` are not looked at one by one. -/
def isMethodAccess : Tree → Bool
  | .member _ name _ => (Method.ofName? name).isSome
  | _ => false

/-- Induction along spines, which go on in opened expressions below `delete` and `void`. -/
theorem spineInduct {motive : Tree → Prop}
    (node : ∀ f ps, (∀ p ∈ ps, motive p) → (∀ p ∈ ps, motive p.opened) → motive (.node f ps)) (t : Tree) : motive t := by
  have h : motive t ∧ motive t.opened := by
    induction t with
    | node f ps ih =>
      have hself := node f ps (fun p hp => (ih p hp).1) (fun p hp => (ih p hp).2)
      refine ⟨hself, ?_⟩
      unfold opened
      split
      · rename_i heq
        rw [heq] at hself
        exact hself
      · rename_i heq
        obtain ⟨-, rfl⟩ := Tree.node.inj heq
        exact (ih _ (List.mem_singleton_self _)).1
      · exact hself
  exact h.1

theorem layers_base (t : Tree) : t.base.layers = [] := by
  fun_induction base t with
  | case5 t h1 h2 h3 h4 =>
    unfold layers
    split <;> simp_all
  | _ => assumption

/-- There is a layer on top. -/
def isLayered : Tree → Bool
  | .member .. | .privateMember .. | .index .. | .call .. => true
  | _ => false

/-- An access is a layer on its object. -/
theorem exists_onto_of_object? {t o : Tree} (h : t.object? = some o) :
    ∃ l : Layer, t = l.onto t.isLink o ∧ ∀ u link, t.onObject u link = l.onto link u := by
  unfold object? at h
  split at h
  · obtain rfl := Option.some.inj h
    exact ⟨.member _, rfl, fun _ _ => rfl⟩
  · obtain rfl := Option.some.inj h
    exact ⟨.index _, rfl, fun _ _ => rfl⟩
  · obtain rfl := Option.some.inj h
    exact ⟨.privateMember _, rfl, fun _ _ => rfl⟩
  · exact absurd h (by simp)

/-- `this` or a variable. -/
def isName (t : Tree) : Bool :=
  match t with
  | .this | .reference _ => true
  | _ => false

/-- There is no call by `call`, `apply` or `bind` on the spine. -/
def isDirect : Tree → Bool
  | .call callee _ _ => !callee.isMethodAccess && callee.isDirect
  | .member t _ _ | .privateMember t _ _ | .index t _ _ | .chain t => t.isDirect
  | _ => true

theorem isDirect_of_along {t : Tree} {ls : List (Layer × Bool)} (h : (t.along ls).isDirect = true) : t.isDirect = true := by
  induction ls generalizing t with
  | nil => exact h
  | cons l ls ih =>
    have h := ih h
    rcases l with ⟨_ | _ | _ | _, link⟩ <;> simp_all [Layer.onto, isDirect]

/-- Another base, and layers changed within, are as direct, unless the base is a method now. -/
theorem isDirect_along {f : Layer → Layer}
    (hf : ∀ l link (t : Tree), ((f l).onto link t).isDirect = (l.onto link t).isDirect ∧
      ((f l).onto link t).isMethodAccess = (l.onto link t).isMethodAccess)
    {t t' : Tree} (h : t.isDirect = true → t'.isDirect = true) (hm : t'.isMethodAccess = true → t.isMethodAccess = true)
    {ls : List (Layer × Bool)} (ht : (t.along ls).isDirect = true) :
    (t'.along (ls.map fun l => (f l.1, l.2))).isDirect = true := by
  induction ls generalizing t t' with
  | nil => exact h ht
  | cons l ls ih =>
    obtain ⟨l, link⟩ := l
    refine ih (t := l.onto link t) ?_ ?_ ht
    · rw [(hf l link t').1]
      cases l with
      | call args =>
        simp only [Layer.onto, isDirect, Bool.and_eq_true, Bool.not_eq_true']
        refine fun ht => ⟨?_, h ht.2⟩
        cases hb : t'.isMethodAccess with
        | false => rfl
        | true =>
          rw [hm hb] at ht
          exact absurd ht.1 (by simp)
      | _ => exact h
    · rw [(hf l link t').2]
      cases l <;> simp [Layer.onto, isMethodAccess]

end Tree

/-! ## Folding -/

namespace Layer

def unwrap (name : String) : Layer → Layer
  | .index key => .index (key.unwrap name)
  | .call args => .call (args.map (Tree.unwrap name))
  | l => l

theorem parts_unwrap (name : String) (l : Layer) : (l.unwrap name).parts = l.parts.map (Tree.unwrap name) := by
  cases l <;> rfl

theorem unwrap_onto (name : String) (l : Layer) (link : Bool) (t : Tree) :
    (l.onto link t).unwrap name = (l.unwrap name).onto link (t.unwrap name) := by
  cases l <;> exact Tree.unwrap_node rfl (by simp) _ _

end Layer

namespace Tree

theorem unwrap_along (name : String) (t : Tree) (ls : List (Layer × Bool)) :
    (t.along ls).unwrap name = (t.unwrap name).along (ls.map fun l => (l.1.unwrap name, l.2)) := by
  induction ls generalizing t with
  | nil => rfl
  | cons l ls ih => rw [along, ih, Layer.unwrap_onto, List.map_cons, along]

theorem isDirect_unwrap_along (name : String) {t t' : Tree} (h : t.isDirect = true → t'.isDirect = true)
    (hm : t'.isMethodAccess = true → t.isMethodAccess = true) {ls : List (Layer × Bool)} (ht : (t.along ls).isDirect = true) :
    (t'.along (ls.map fun l => (l.1.unwrap name, l.2))).isDirect = true :=
  isDirect_along (fun l link t => by cases l <;> exact ⟨rfl, rfl⟩) h hm ht

theorem foldCalls_along {name : String} {t : Tree} {ls : List (Layer × Bool)} (ht : t.foldCalls name = t)
    (hl : ∀ l ∈ ls, ∀ p ∈ l.1.parts, p.foldCalls name = p) (hd : (t.along ls).isDirect = true) :
    (t.along ls).foldCalls name = t.along ls := by
  induction ls generalizing t with
  | nil => exact ht
  | cons l ls ih =>
    simp only [List.mem_cons, forall_eq_or_imp] at hl
    refine ih ?_ hl.2 hd
    obtain ⟨l, link⟩ := l
    have hd := isDirect_of_along (t := l.onto link t) hd
    cases l with
    | call args =>
      have hl : ∀ a ∈ args, a.foldCalls name = a := hl.1
      have hargs : args.map (foldCalls name) = args := by
        simpa using List.map_congr_left (g := id) hl
      simp only [Layer.onto, isDirect, Bool.and_eq_true, Bool.not_eq_true'] at hd
      rw [Layer.onto, foldCalls_node rfl, List.map_cons, ht, hargs]
      refine foldCall_of_name fun o word linked hm => ?_
      simpa [hm, isMethodAccess] using hd.1
    | index key =>
      have hk := hl.1 key (by simp [Layer.parts])
      simp [Layer.onto, foldCalls, foldCallsAll, foldCall, Form.isFunction, ht, hk]
    | _ => simp [Layer.onto, foldCalls, foldCallsAll, foldCall, Form.isFunction, ht]

theorem uses_onto (m : String) (l : Layer) (link : Bool) (t : Tree) :
    (l.onto link t).uses m = t.uses m + (l.parts.map (·.uses m)).sum := by
  cases l <;> simp [Layer.onto, Layer.parts, uses_node, ownReferences]

theorem unread_onto {name : String} {l : Layer} {link : Bool} {t : Tree} (h : (l.onto link t).Unread name) :
    t.Unread name ∧ ∀ p ∈ l.parts, p.Unread name := by
  cases l <;> simpa [Layer.onto, Layer.parts] using unread_node rfl rfl h

theorem unread_along {name : String} {t : Tree} {ls : List (Layer × Bool)} (h : (t.along ls).Unread name) :
    t.Unread name ∧ ∀ l ∈ ls, ∀ p ∈ l.1.parts, p.Unread name := by
  induction ls generalizing t with
  | nil => exact ⟨h, by simp⟩
  | cons l ls ih =>
    obtain ⟨ht, hls⟩ := ih h
    obtain ⟨ht, hl⟩ := unread_onto ht
    exact ⟨ht, List.forall_mem_cons.2 ⟨hl, hls⟩⟩

theorem assignmentCount_onto (m : String) (l : Layer) (link : Bool) (t : Tree) :
    (l.onto link t).assignmentCount m = t.assignmentCount m + (l.parts.map (·.assignmentCount m)).sum := by
  cases l <;> rw [Layer.onto, assignmentCount_node rfl] <;> simp [Layer.parts, ownAssignments]

theorem assignmentCount_unwrap_along_le {m name : String} {t : Tree} {ls : List (Layer × Bool)}
    (ht : (t.unwrap name).assignmentCount m ≤ t.assignmentCount m)
    (hl : ∀ l ∈ ls, ∀ p ∈ l.1.parts, (p.unwrap name).assignmentCount m ≤ p.assignmentCount m) :
    ((t.along ls).unwrap name).assignmentCount m ≤ (t.along ls).assignmentCount m := by
  induction ls generalizing t with
  | nil => exact ht
  | cons l ls ih =>
    simp only [List.mem_cons, forall_eq_or_imp] at hl
    refine ih ?_ hl.2
    rw [Layer.unwrap_onto, assignmentCount_onto, assignmentCount_onto, Layer.parts_unwrap, List.map_map]
    exact Nat.add_le_add ht (List.sum_le_sum hl.1)

theorem uses_along (m : String) (t : Tree) (ls : List (Layer × Bool)) :
    (t.along ls).uses m = t.uses m + (ls.map fun l => (l.1.parts.map (·.uses m)).sum).sum := by
  induction ls generalizing t with
  | nil => rfl
  | cons l ls ih =>
    rw [along, ih, uses_onto, List.map_cons, List.sum_cons]
    omega

theorem assignmentCount_along (m : String) (t : Tree) (ls : List (Layer × Bool)) :
    (t.along ls).assignmentCount m = t.assignmentCount m + (ls.map fun l => (l.1.parts.map (·.assignmentCount m)).sum).sum := by
  induction ls generalizing t with
  | nil => rfl
  | cons l ls ih =>
    rw [along, ih, assignmentCount_onto, List.map_cons, List.sum_cons]
    omega

theorem hasLink_along {t : Tree} (h : t.hasLink = true) (ls : List (Layer × Bool)) : (t.along ls).hasLink = true := by
  induction ls generalizing t with
  | nil => exact h
  | cons l ls ih => exact ih (by rcases l with ⟨_ | _ | _ | _, link⟩ <;> simp [Layer.onto, hasLink, h])

/-- With a link in the first layer the expression is closed by a chain. -/
theorem closed_along (t : Tree) (l : Layer) (ls : List (Layer × Bool)) :
    (t.along ((l, true) :: ls)).closed = .chain (t.along ((l, true) :: ls)) := by
  have h : (l.onto true t).hasLink = true := by cases l <;> simp [Layer.onto, hasLink]
  exact if_pos (hasLink_along h ls)

theorem uses_closed (t : Tree) (m : String) : t.closed.uses m = t.uses m := by
  unfold closed
  split
  · simp [uses_node, ownReferences]
  · rfl

theorem assignmentCount_closed (t : Tree) (m : String) : t.closed.assignmentCount m = t.assignmentCount m := by
  unfold closed
  split
  · rw [assignmentCount_node rfl]
    simp [ownAssignments]
  · rfl

theorem count_opened (t : Tree) (m : String) : t.opened.uses m = t.uses m ∧ t.opened.assignmentCount m = t.assignmentCount m := by
  unfold opened
  split
  · exact ⟨rfl, rfl⟩
  · rw [uses_node, assignmentCount_node rfl]
    simp [ownReferences, ownAssignments]
  · exact ⟨rfl, rfl⟩

theorem count_unbound (t : Tree) (m : String) :
    t.unbound.uses m = t.uses m ∧ t.unbound.assignmentCount m = t.assignmentCount m := by
  have hzero : (number .zero).uses m = 0 ∧ (number .zero).assignmentCount m = 0 := ⟨rfl, rfl⟩
  rw [unbound, uses_node, assignmentCount_node rfl]
  simp [ownReferences, ownAssignments, hzero]

end Tree

/-! ## Evaluation -/

namespace Machine

variable {W : Type} (M : Machine W)

/-- What a layer does with the referent and the value of what is below. -/
def apply : Layer → Referent → Value → Eval W (Option Referent)
  | .member name => fun _ v => pure (some (.property v (.name name)))
  | .privateMember name => fun _ v => pure (some (.property v (.privateName name)))
  | .index key => fun _ v => do
    let k ← M.eval key
    pure (some (.property v (.computed k)))
  | .call args => fun p f => do
    let vs ← M.valuesOf args
    let r ← perform (.call f p.receiver vs) (M.call f p.receiver vs)
    pure (some (.value r))

/-- Go outwards through layers. -/
def follow : List (Layer × Bool) → Option Referent → Eval W (Option Referent)
  | [], p => pure p
  | (l, link) :: ls, p => M.step link (M.apply l) p >>= follow ls

theorem refer_onto (l : Layer) (link : Bool) (t : Tree) :
    M.refer (l.onto link t) = M.refer t >>= M.step link (M.apply l) := by
  cases l <;> simp only [Layer.onto, refer, apply, eval, bind_assoc]

theorem refer_along (t : Tree) (ls : List (Layer × Bool)) : M.refer (t.along ls) = M.refer t >>= M.follow ls := by
  induction ls generalizing t with
  | nil => exact (bind_pure _).symm
  | cons l ls ih =>
    rw [Tree.along, ih, refer_onto, bind_assoc]
    rfl

/-- Nothing is done above a chain that has ended. -/
theorem follow_none (ls : List (Layer × Bool)) : M.follow ls none = pure none := by
  induction ls with
  | nil => rfl
  | cons l ls ih =>
    rw [follow, step, pure_bind]
    exact ih

/-- The value reached through layers from a value. -/
def reach (l : Layer) (ls : List (Layer × Bool)) (v : Value) : Eval W Value := do
  let p ← M.apply l (.value v) v
  let q ← M.follow ls p
  M.value q

/-- A link in the first layer ends the chain at a missing value. -/
theorem follow_value (l : Layer) (link : Bool) (ls : List (Layer × Bool)) (v : Value) : (do
    let q ← M.follow ((l, link) :: ls) (some (.value v))
    M.value q) = if link && v.isNullish then pure .undefined else M.reach l ls v := by
  have hs : M.step link (M.apply l) (some (.value v)) =
      if link && v.isNullish then pure none else M.apply l (.value v) v := by
    rw [step, get, pure_bind]
  rw [follow, hs, bind_assoc]
  split
  · rw [pure_bind, follow_none, pure_bind]
    rfl
  · rfl

end Machine

/-! ## The token -/

namespace Substitution

variable {s : Substitution}

/-- What takes the place of the token under a layer. -/
def under (s : Substitution) : Layer → Tree
  | .call _ => s.unboundCallee
  | _ => s.replacement.opened

theorem onSpine_onto {l : Layer} {link : Bool} {t : Tree} (ht : s.isToken t = false)
    (hc : ∀ args, l = .call args → s.knownCall t args = .other) :
    s.onSpine (l.onto link t) = ⟨l.onto link (s.onSpine t).expr, (s.onSpine t).matched⟩ := by
  cases l with
  | call args => simp [Layer.onto, onSpine, ht, hc args rfl]
  | _ => simp [Layer.onto, onSpine, ht]

theorem onSpine_token {l : Layer} {link : Bool} {t : Tree} (ht : s.isToken t = true)
    (hc : ∀ args, l = .call args → s.knownCall t args = .other) :
    s.onSpine (l.onto link t) = ⟨l.onto true (s.under l), true⟩ := by
  cases l with
  | call args => simp [Layer.onto, onSpine, ht, hc args rfl, under]
  | _ => simp [Layer.onto, onSpine, ht, under]

/-- Below `delete` and `void` the spine goes on in an open expression. -/
theorem onSpine_unary {op : UnaryOp} (ho : op = .delete ∨ op = .void) (t : Tree) :
    s.onSpine (.unary op t) = ⟨.unary op (s.onSpine t.opened).expr.closed, (s.onSpine t.opened).matched⟩ := by
  have hop : (op == .delete || op == .void) = true := by
    rcases ho with rfl | rfl <;> rfl
  unfold Tree.opened
  split
  · simp [onSpine, hop]
  · rename_i t hne
    rw [onSpine.eq_6 _ _ _ (fun u h => hne u (by rw [h])), if_pos hop]
  · rename_i hne hchain
    rw [onSpine.eq_7 _ _ _ (fun u => hchain _) hchain, if_pos hop]

/-- What has a form of its own, and not that of a name, is not the token if that is `this` or a variable. -/
theorem isToken_of_form (hs : s.token.isName = true) {t : Tree} (hc : ∀ cs, t.form ≠ .commented cs)
    (ht : ∀ name, t.form ≠ .reference name) (hthis : t.form ≠ .this) : s.isToken t = false := by
  have hb : t.bare.form = t.form := by
    unfold Tree.bare
    split
    · exact absurd rfl (hc _)
    · rfl
  cases hsame : s.isToken t with
  | false => rfl
  | true =>
    have hf := congrArg Tree.form (of_decide_eq_true hsame)
    rw [hb] at hf
    unfold Tree.isName at hs
    split at hs
    · rename_i heq
      rw [heq] at hf
      exact absurd hf hthis
    · rename_i heq
      rw [heq] at hf
      exact absurd hf (ht _)
    · exact absurd hs (by simp)

theorem isToken_onto (hs : s.token.isName = true) (l : Layer) (link : Bool) (t : Tree) :
    s.isToken (l.onto link t) = false :=
  isToken_of_form hs (by cases l <;> simp [Layer.onto, Tree.form]) (by cases l <;> simp [Layer.onto, Tree.form])
    (by cases l <;> simp [Layer.onto, Tree.form])

/-- An access that is no method has no explicit receiver as a callee. -/
theorem knownCall_onto (l : Layer) (link : Bool) (t : Tree) (h : (l.onto link t).isMethodAccess = false) (args : List Tree) :
    s.knownCall (l.onto link t) args = .other := by
  cases l with
  | member name =>
    have hn : Method.ofName? name = none := by simpa [Layer.onto, Tree.isMethodAccess] using h
    cases link <;> simp [Layer.onto, knownCall, ReceiverCall.of?, ReceiverCall.splitMethod?, hn]
  | _ => simp [Layer.onto, knownCall, ReceiverCall.of?, ReceiverCall.splitMethod?]

/-- Layers on what is not the token are passed through. -/
theorem onSpine_along (hs : s.token.isName = true) {t : Tree} {ls : List (Layer × Bool)} (ht : s.isToken t = false)
    (hc : t.isMethodAccess = false → ∀ args, s.knownCall t args = .other) (hd : (t.along ls).isDirect = true) :
    s.onSpine (t.along ls) = ⟨(s.onSpine t).expr.along ls, (s.onSpine t).matched⟩ := by
  induction ls generalizing t with
  | nil => rfl
  | cons l ls ih =>
    obtain ⟨l, link⟩ := l
    have hd' := Tree.isDirect_of_along (t := l.onto link t) hd
    have hc' : ∀ args, l = .call args → s.knownCall t args = .other := by
      rintro args rfl
      simp only [Layer.onto, Tree.isDirect, Bool.and_eq_true, Bool.not_eq_true'] at hd'
      exact hc hd'.1 args
    rw [Tree.along, ih (isToken_onto hs l link t) (fun h => knownCall_onto l link t h) hd, onSpine_onto ht hc']
    rfl

/-- The token at the base, under at least one layer, is found there. -/
theorem onSpine_along_token (hs : s.token.isName = true) {t : Tree} {l : Layer} {link : Bool} {ls : List (Layer × Bool)}
    (ht : s.isToken t = true) (hc : ∀ args, s.knownCall t args = .other) (hd : (t.along ((l, link) :: ls)).isDirect = true) :
    s.onSpine (t.along ((l, link) :: ls)) = ⟨(s.under l).along ((l, true) :: ls), true⟩ := by
  rw [Tree.along, onSpine_along hs (isToken_onto hs l link t) (fun h => knownCall_onto l link t h) hd,
    onSpine_token ht fun args _ => hc args]
  rfl

end Substitution

end Chainlift
