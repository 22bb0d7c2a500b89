import Chainlift.Proofs.Branches
import Chainlift.Proofs.Coalescing
import Chainlift.Proofs.Search
import Chainlift.Proofs.Weight

/-!
# Closed chains

A link belongs to a chain that is closed around it: between the link and the closing there is nothing but spine (member
objects, callees and `x!`), and no other closing. A closing without a link does not occur. An expression in which this is so
everywhere is closed (`Tree.IsClosed`).

Rewriting opens a chain, puts another one into its spine, moves a link from `f.call` onto the call, and closes again. The result
is closed whenever the expression, the token and the target are (`Tree.isClosed_rewrite`). Folding takes calls and assignments out
of the middle of a spine; it leaves as many links there as before (`Tree.Kept`).
-/

namespace Chainlift

open Tree

/-! ## Links in their chains -/

namespace Tree

mutual

/-- Every link in the tree stands on the spine of a chain around it, and every chain has a link on its spine. The tree itself may
stand `inside` a chain, on its spine. -/
def isClosedIn (inside : Bool) : Tree → Bool
  | .member t _ link => (inside || !link) && t.isClosedIn inside
  | .privateMember t _ link => (inside || !link) && t.isClosedIn inside
  | .index t key link => (inside || !link) && t.isClosedIn inside && key.isClosedIn false
  | .call callee args link => (inside || !link) && callee.isClosedIn inside && allClosed args
  | .nonNull t => t.isClosedIn inside
  | .chain t => t.hasLink && t.isClosedIn true
  | .node _ ps => allClosed ps

def allClosed : List Tree → Bool
  | [] => true
  | t :: ts => t.isClosedIn false && allClosed ts

end

/-- Every link in the tree belongs to a chain of the tree, and every chain has one. -/
def IsClosed (t : Tree) : Prop := t.isClosedIn false = true

instance (t : Tree) : Decidable t.IsClosed := inferInstanceAs (Decidable (_ = true))

theorem allClosed_iff {ts : List Tree} : allClosed ts = true ↔ ∀ t ∈ ts, t.IsClosed := by
  induction ts with
  | nil => simp [allClosed]
  | cons t ts ih => simp [allClosed, ih, IsClosed]

theorem isClosedIn_onto {inside link : Bool} {l : Layer} {t : Tree} : (l.onto link t).isClosedIn inside = true ↔
    (link = true → inside = true) ∧ t.isClosedIn inside = true ∧ ∀ p ∈ l.parts, p.IsClosed := by
  have hlink : (inside || !link) = true ↔ (link = true → inside = true) := by
    cases inside <;> cases link <;> simp
  cases l <;> simp [Layer.onto, Layer.parts, isClosedIn, allClosed_iff, IsClosed, ← hlink, and_assoc]

theorem hasLink_onto (l : Layer) (link : Bool) (t : Tree) : (l.onto link t).hasLink = (link || t.hasLink) := by
  cases l <;> rfl

end Tree

/-- A node of that form and with so many parts is a layer, `x!` or a chain. -/
def Form.isSpinal (f : Form) (parts : Nat) : Bool :=
  match f with
  | .member .. | .privateMember .. | .nonNull | .chain => parts == 1
  | .index _ => parts == 2
  | .call _ => 1 ≤ parts
  | _ => false

namespace Tree

/-- Elsewhere no chain goes on, and no spine. -/
theorem isClosedIn_of_form {f : Form} {ps : List Tree} (h : f.isSpinal ps.length = false) (inside : Bool) :
    ((node f ps).isClosedIn inside = true ↔ ∀ p ∈ ps, p.IsClosed) ∧ (node f ps).hasLink = false := by
  constructor
  · rw [isClosedIn.eq_def]
    split
    case h_7 heq =>
      obtain ⟨rfl, rfl⟩ := Tree.node.inj heq
      exact allClosed_iff
    all_goals
      rename_i heq
      obtain ⟨rfl, rfl⟩ := Tree.node.inj heq
      exact absurd h (by simp [Form.isSpinal])
  · unfold hasLink
    split
    case h_6 => rfl
    all_goals
      rename_i heq
      obtain ⟨rfl, rfl⟩ := Tree.node.inj heq
      exact absurd h (by simp [Form.isSpinal])

/-- Induction along a spine. -/
theorem spinalInduct {motive : Tree → Prop} (onto : ∀ (l : Layer) link t, motive t → motive (l.onto link t))
    (nonNull : ∀ t, motive t → motive (.nonNull t)) (chain : ∀ t, motive (.chain t))
    (other : ∀ f ps, f.isSpinal ps.length = false → motive (.node f ps)) (t : Tree) : motive t := by
  induction t with
  | node f ps ih =>
    cases hs : f.isSpinal ps.length with
    | false => exact other f ps hs
    | true =>
      unfold Form.isSpinal at hs
      split at hs
      · obtain ⟨t, rfl⟩ := List.length_eq_one_iff.1 (beq_iff_eq.1 hs)
        exact onto (.member _) _ t (ih t (by simp))
      · obtain ⟨t, rfl⟩ := List.length_eq_one_iff.1 (beq_iff_eq.1 hs)
        exact onto (.privateMember _) _ t (ih t (by simp))
      · obtain ⟨t, rfl⟩ := List.length_eq_one_iff.1 (beq_iff_eq.1 hs)
        exact nonNull t (ih t (by simp))
      · obtain ⟨t, rfl⟩ := List.length_eq_one_iff.1 (beq_iff_eq.1 hs)
        exact chain t
      · obtain ⟨t, key, rfl⟩ := List.length_eq_two.1 (beq_iff_eq.1 hs)
        exact onto (.index key) _ t (ih t (by simp))
      · cases ps with
        | nil => exact absurd hs (by simp)
        | cons t args => exact onto (.call args) _ t (ih t (by simp))
      · exact absurd hs (by simp)

/-- What is closed can stand inside a chain as well. -/
theorem IsClosed.isClosedIn {t : Tree} (h : t.IsClosed) (inside : Bool) : t.isClosedIn inside = true := by
  unfold IsClosed at h
  induction t using spinalInduct with
  | onto l link t ih =>
    rw [isClosedIn_onto] at h ⊢
    obtain ⟨hlink, ht, hl⟩ := h
    exact ⟨fun hon => absurd (hlink hon) (by simp), ih ht, hl⟩
  | nonNull t ih => exact ih h
  | chain t => exact h
  | other f ps hs => exact (isClosedIn_of_form hs inside).1.2 ((isClosedIn_of_form hs false).1.1 h)

/-- A closed expression has no link on its spine that a chain around it could claim. -/
theorem IsClosed.hasLink {t : Tree} (h : t.IsClosed) : t.hasLink = false := by
  unfold IsClosed at h
  induction t using spinalInduct with
  | onto l link t ih =>
    obtain ⟨hlink, ht, -⟩ := isClosedIn_onto.1 h
    cases link with
    | true => exact absurd (hlink rfl) (by simp)
    | false => rw [hasLink_onto, ih ht, Bool.or_false]
  | nonNull t ih => exact ih h
  | chain t => rfl
  | other f ps hs => exact (isClosedIn_of_form hs false).2

/-- What stands on the spine of a chain and has no link there can do without the chain. -/
theorem isClosed_of_hasLink {t : Tree} {inside : Bool} (h : t.isClosedIn inside = true) (hlink : t.hasLink = false) : t.IsClosed := by
  unfold IsClosed
  induction t using spinalInduct with
  | onto l link t ih =>
    rw [hasLink_onto, Bool.or_eq_false_iff] at hlink
    obtain ⟨-, ht, hl⟩ := isClosedIn_onto.1 h
    exact isClosedIn_onto.2 ⟨fun hon => absurd hon (by simp [hlink.1]), ih ht hlink.2, hl⟩
  | nonNull t ih => exact ih h hlink
  | chain t => exact h
  | other f ps hs => exact (isClosedIn_of_form hs false).1.2 ((isClosedIn_of_form hs inside).1.1 h)

theorem isClosed_node {f : Form} {ps : List Tree} (h : f.isSpinal ps.length = false) :
    (node f ps).IsClosed ↔ ∀ p ∈ ps, p.IsClosed := (isClosedIn_of_form h false).1

/-- The chain of a link is closed. -/
theorem isClosed_closed {t : Tree} (h : t.isClosedIn true = true) : t.closed.IsClosed := by
  unfold closed
  split
  · rename_i hlink
    show (t.hasLink && t.isClosedIn true) = true
    rw [hlink, h]
    rfl
  · rename_i hlink
    exact isClosed_of_hasLink h (by simpa using hlink)

theorem isClosedIn_opened {t : Tree} (h : t.IsClosed) : t.opened.isClosedIn true = true := by
  unfold opened
  split
  · exact h.isClosedIn true
  · unfold IsClosed isClosedIn at h
    exact (Bool.and_eq_true_iff.1 h).2
  · exact h.isClosedIn true

/-- The same access on another object. -/
theorem isClosedIn_onObject {t u : Tree} (ht : t.IsClosed) (hu : u.isClosedIn true = true) (link : Bool) :
    (t.onObject u link).isClosedIn true = true := by
  cases ho : t.object? with
  | some o =>
    obtain ⟨l, hl, hon⟩ := exists_onto_of_object? ho
    unfold IsClosed at ht
    rw [hl] at ht
    rw [hon]
    exact isClosedIn_onto.2 ⟨fun _ => rfl, hu, (isClosedIn_onto.1 ht).2.2⟩
  | none =>
    have hself : t.onObject u link = t := by
      unfold object? at ho
      unfold onObject
      split <;> simp_all
    rw [hself]
    exact ht.isClosedIn true

theorem isClosed_unbound {t : Tree} (h : t.IsClosed) : t.unbound.IsClosed := by
  refine (isClosed_node rfl).2 ?_
  simp only [List.mem_cons, List.not_mem_nil, or_false, forall_eq_or_imp, forall_eq]
  exact ⟨(isClosed_node rfl).2 (by simp), h⟩

theorem isClosed_assign {op : AssignOp} {target value : Tree} :
    (assign op target value).IsClosed ↔ target.IsClosed ∧ value.IsClosed := by
  rw [isClosed_node rfl]
  simp

theorem isClosed_unary {op : UnaryOp} {t : Tree} : (unary op t).IsClosed ↔ t.IsClosed := by
  rw [isClosed_node rfl]
  simp

theorem isClosed_binary {op : BinaryOp} {a b : Tree} : (binary op a b).IsClosed ↔ a.IsClosed ∧ b.IsClosed := by
  rw [isClosed_node rfl]
  simp

theorem isClosed_logical {op : LogicalOp} {a b : Tree} : (logical op a b).IsClosed ↔ a.IsClosed ∧ b.IsClosed := by
  rw [isClosed_node rfl]
  simp

theorem isClosed_conditional {c yes no : Tree} :
    (conditional c yes no).IsClosed ↔ c.IsClosed ∧ yes.IsClosed ∧ no.IsClosed := by
  rw [isClosed_node rfl]
  simp

end Tree

/-! ## Putting a link on the spine -/

theorem Method.isClosed_directArguments {m : Method} {rest direct : List Tree} (h : m.directArguments rest = some direct)
    (hrest : ∀ a ∈ rest, a.IsClosed) : ∀ a ∈ direct, a.IsClosed := by
  obtain ⟨-, rfl⟩ | ⟨-, ⟨rfl, rfl⟩ | ⟨rfl, -⟩ | ⟨list, rfl, -, rfl⟩⟩ := directArguments_eq_some h
  · exact hrest
  · exact hrest
  · exact (isClosed_node rfl).1 (hrest _ (List.mem_singleton_self _))
  · have hlist := hrest list (by simp)
    simpa [isClosed_node] using (isClosed_node (f := .spread) rfl).2 (by simpa using hlist)

theorem ReceiverCall.isClosed_of? {callee : Tree} {args : List Tree} {c : ReceiverCall} (h : of? callee args = some c)
    (hcallee : callee.isClosedIn true = true) (hargs : ∀ a ∈ args, a.IsClosed) :
    c.function.isClosedIn true = true ∧ c.receiver.IsClosed ∧ ∀ a ∈ c.rest, a.IsClosed := by
  obtain ⟨word, rfl, -, rfl⟩ := eq_of_of? h
  exact ⟨(isClosedIn_onto (l := .member word).1 hcallee).2.1, List.forall_mem_cons.1 hargs⟩

namespace Substitution

variable {s : Substitution}

theorem isClosed_unboundCallee (hs : s.replacement.IsClosed) : s.unboundCallee.IsClosed := by
  simp only [unboundCallee]
  split <;> split
  · exact isClosed_unbound hs
  · exact hs
  · exact isClosed_unbound hs
  · exact hs

theorem isClosedIn_under (hs : s.replacement.IsClosed) (l : Layer) : (s.under l).isClosedIn true = true := by
  cases l with
  | call args => exact (isClosed_unboundCallee hs).isClosedIn true
  | _ => exact isClosedIn_opened hs

/-- A method of the token, called directly: the link stands on the access. -/
theorem isClosedIn_onReplacement (hs : s.replacement.IsClosed) {t o : Tree} (ht : t.isClosedIn true = true)
    (ho : t.object? = some o) : (t.onObject s.replacement.opened true).isClosedIn true = true := by
  obtain ⟨l, hl, hon⟩ := exists_onto_of_object? ho
  rw [hl] at ht
  rw [hon]
  exact isClosedIn_onto.2 ⟨fun _ => rfl, isClosedIn_opened hs, (isClosedIn_onto.1 ht).2.2⟩

theorem Known.isClosedIn (hs : s.replacement.IsClosed) {callee : Tree} {args : List Tree} {u : Tree} (h : s.Known callee args u)
    (hcallee : callee.isClosedIn true = true) (hargs : ∀ a ∈ args, a.IsClosed) : u.isClosedIn true = true := by
  cases h with
  | unbound args hz ht =>
    exact (isClosedIn_onto (l := .call args)).2 ⟨fun _ => rfl, (isClosed_unbound hs).isClosedIn true, hargs⟩
  | bind hc ho ht =>
    obtain ⟨hfunction, hreceiver, hrest⟩ := ReceiverCall.isClosed_of? hc hcallee hargs
    have hbound := isClosedIn_onReplacement hs hfunction ho
    refine (isClosedIn_onto (l := .call _)).2 ⟨fun _ => rfl, (isClosedIn_onto (l := .member "bind")).2 ⟨fun _ => rfl, hbound, ?_⟩, ?_⟩
    · simp [Layer.parts]
    · simpa [Layer.parts] using ⟨hreceiver, hrest⟩
  | method hc ho ht hd =>
    obtain ⟨hfunction, -, hrest⟩ := ReceiverCall.isClosed_of? hc hcallee hargs
    exact (isClosedIn_onto (l := .call _)).2
      ⟨fun _ => rfl, isClosedIn_onReplacement hs hfunction ho, Method.isClosed_directArguments hd hrest⟩
  | @stored _ target _ _ _ hc htarget ho ht hd =>
    obtain ⟨-, -, hrest⟩ := ReceiverCall.isClosed_of? hc hcallee hargs
    have hr : s.replacement = target := by simp [replacement, htarget]
    rw [hr] at hs
    exact (isClosedIn_onto (l := .call _)).2 ⟨fun _ => rfl, hs.isClosedIn true, Method.isClosed_directArguments hd hrest⟩

/-- A search on the spine of an open chain leaves it a spine of one chain. -/
theorem Searched.isClosedIn (hs : s.replacement.IsClosed) {t : Tree} {r : Rewritten} (h : s.Searched t r)
    (ht : t.isClosedIn true = true) : r.expr.isClosedIn true = true := by
  induction h with
  | known link h =>
    obtain ⟨-, hcallee, hargs⟩ := (isClosedIn_onto (l := .call _)).1 ht
    exact (known_of_knownCall h).isClosedIn hs hcallee hargs
  | token l link htoken =>
    exact isClosedIn_onto.2 ⟨fun _ => rfl, isClosedIn_under hs l, (isClosedIn_onto.1 ht).2.2⟩
  | above l link _ ih =>
    obtain ⟨hlink, ht, hl⟩ := isClosedIn_onto.1 ht
    exact isClosedIn_onto.2 ⟨hlink, ih ht, hl⟩
  | inside op hop _ ih =>
    have hoperand := isClosed_unary.1 (isClosed_of_hasLink ht rfl)
    exact (isClosed_unary.2 (isClosed_closed (ih (isClosedIn_opened hoperand)))).isClosedIn true
  | assigned op value htoken htarget =>
    obtain ⟨-, hvalue⟩ := isClosed_assign.1 (isClosed_of_hasLink ht rfl)
    rw [eq_of_asTarget? htarget]
    exact (isClosed_assign.2 ⟨hs, hvalue⟩).isClosedIn true
  | kept t => exact ht

end Substitution

/-- Rewriting closes what it opens. -/
theorem Tree.isClosed_rewrite {t token : Tree} {target : Option Tree} (ht : t.IsClosed) (htoken : token.IsClosed)
    (htarget : ∀ u ∈ target, u.IsClosed) : (t.rewrite token target).expr.IsClosed := by
  have hs : (Substitution.mk token target).replacement.IsClosed := by
    cases target with
    | none => exact htoken
    | some u => exact htarget u rfl
  exact isClosed_closed ((Substitution.searched_onSpine ⟨token, target⟩ t.opened).isClosedIn hs (isClosedIn_opened ht))

/-! ## Folding -/

namespace Tree

/-- Wherever the one stands closed, the other can take its place: it is closed there too, and a chain around it keeps its links. -/
def Kept (t u : Tree) : Prop := ∀ inside, t.isClosedIn inside = true → u.isClosedIn inside = true ∧ u.hasLink = t.hasLink

namespace Kept

theorem refl (t : Tree) : Kept t t := fun _ h => ⟨h, rfl⟩

theorem trans {t u v : Tree} (h : Kept t u) (h' : Kept u v) : Kept t v := by
  intro inside ht
  obtain ⟨hu, hlink⟩ := h inside ht
  obtain ⟨hv, hlink'⟩ := h' inside hu
  exact ⟨hv, hlink'.trans hlink⟩

theorem isClosed {t u : Tree} (h : Kept t u) (ht : t.IsClosed) : u.IsClosed := (h false ht).1

/-- Closed expressions that carry no open link can take each other's place. -/
theorem of_isClosed {t u : Tree} (ht : ∀ inside, t.isClosedIn inside = true → t.IsClosed) (hu : t.IsClosed → u.IsClosed) :
    Kept t u := by
  intro inside h
  have hclosed := ht inside h
  exact ⟨(hu hclosed).isClosedIn inside, (hu hclosed).hasLink.trans hclosed.hasLink.symm⟩

/-- Off the spines the parts need only be closed. -/
theorem of_isSpinal {f g : Form} {ps qs : List Tree} (hf : f.isSpinal ps.length = false) (hg : g.isSpinal qs.length = false)
    (h : (∀ p ∈ ps, p.IsClosed) → ∀ q ∈ qs, q.IsClosed) : Kept (.node f ps) (.node g qs) := by
  refine of_isClosed (fun inside ht => ?_) fun ht => (isClosed_node hg).2 (h ((isClosed_node hf).1 ht))
  exact isClosed_of_hasLink ht (isClosedIn_of_form hf inside).2

theorem isClosed_all {ts us : List Tree} (h : List.Forall₂ Kept ts us) (hts : ∀ t ∈ ts, t.IsClosed) : ∀ u ∈ us, u.IsClosed := by
  induction h with
  | nil => exact hts
  | cons ht _ ih =>
    simp only [List.mem_cons, forall_eq_or_imp] at hts ⊢
    exact ⟨ht.isClosed hts.1, ih hts.2⟩

/-- The parts of a node can be exchanged. -/
theorem node {f : Form} {ps qs : List Tree} (h : List.Forall₂ Kept ps qs) : Kept (.node f ps) (.node f qs) := by
  have honto : ∀ (l l' : Layer) {link : Bool} {t u : Tree}, Kept t u → ((∀ p ∈ l.parts, p.IsClosed) → ∀ p ∈ l'.parts, p.IsClosed) →
      Kept (l.onto link t) (l'.onto link u) := by
    intro l l' link t u h hl inside ht
    obtain ⟨hlink, ht, hparts⟩ := isClosedIn_onto.1 ht
    obtain ⟨hu, hsame⟩ := h inside ht
    exact ⟨isClosedIn_onto.2 ⟨hlink, hu, hl hparts⟩, by rw [hasLink_onto, hasLink_onto, hsame]⟩
  cases hs : f.isSpinal ps.length with
  | false => exact of_isSpinal hs (by rw [← h.length_eq, hs]) (isClosed_all h)
  | true =>
    unfold Form.isSpinal at hs
    split at hs
    · obtain ⟨t, rfl⟩ := List.length_eq_one_iff.1 (beq_iff_eq.1 hs)
      cases h with
      | cons ht hnil =>
        cases hnil
        exact honto (.member _) (.member _) ht id
    · obtain ⟨t, rfl⟩ := List.length_eq_one_iff.1 (beq_iff_eq.1 hs)
      cases h with
      | cons ht hnil =>
        cases hnil
        exact honto (.privateMember _) (.privateMember _) ht id
    · obtain ⟨t, rfl⟩ := List.length_eq_one_iff.1 (beq_iff_eq.1 hs)
      cases h with
      | cons ht hnil =>
        cases hnil
        exact ht
    · obtain ⟨t, rfl⟩ := List.length_eq_one_iff.1 (beq_iff_eq.1 hs)
      cases h with
      | @cons _ u _ _ ht hnil =>
        cases hnil
        intro inside hchain
        obtain ⟨hlink, hinner⟩ := Bool.and_eq_true_iff.1 (show (t.hasLink && t.isClosedIn true) = true from hchain)
        obtain ⟨hu, hsame⟩ := ht true hinner
        refine ⟨?_, rfl⟩
        show (u.hasLink && u.isClosedIn true) = true
        rw [hsame, hlink, hu]
        rfl
    · obtain ⟨t, key, rfl⟩ := List.length_eq_two.1 (beq_iff_eq.1 hs)
      cases h with
      | cons ht hrest => cases hrest with
        | cons hkey hnil =>
          cases hnil
          refine honto (.index _) (.index _) ht ?_
          simpa [Layer.parts] using hkey.isClosed
    · cases h with
      | nil => exact absurd hs (by simp)
      | cons ht hargs => exact honto (.call _) (.call _) ht (isClosed_all hargs)
    · exact absurd hs (by simp)

theorem map {g : Tree → Tree} {f : Form} {ps : List Tree} (h : ∀ p ∈ ps, Kept p (g p)) : Kept (.node f ps) (.node f (ps.map g)) := by
  refine node ?_
  induction ps with
  | nil => exact .nil
  | cons p ps ih =>
    simp only [List.mem_cons, forall_eq_or_imp] at h
    exact .cons h.1 (ih h.2)

/-- A call on an assigned variable with that receiver becomes a call on the value: the links of both stay. -/
theorem foldCall (name : String) (t : Tree) : Kept t (t.foldCall name) := by
  by_cases hc : ∃ callee args link, t = .call callee args link
  · obtain ⟨callee, args, link, rfl⟩ := hc
    rcases foldCall_cases name callee args link with
      h | ⟨function, word, linked, object, value, method, receiver, rest, direct, rfl, -, ho, ha, hr, hd, h⟩
    · rw [h]
      exact refl _
    · obtain ⟨l, hl, hon⟩ := exists_onto_of_object? ho
      rw [h, hon]
      intro inside ht
      obtain ⟨hlink, hcallee, hargs⟩ := (isClosedIn_onto (l := .call args)).1 ht
      obtain ⟨hlinked, hfunction, -⟩ := (isClosedIn_onto (l := .member word)).1 hcallee
      rw [hl] at hfunction
      obtain ⟨hown, hobject, hparts⟩ := isClosedIn_onto.1 hfunction
      rw [eq_of_assignment? ha] at hobject
      have hvalue := (isClosed_assign.1 (isClosed_of_hasLink hobject rfl)).2
      constructor
      · refine (isClosedIn_onto (l := .call direct)).2 ⟨?_, isClosedIn_onto.2 ⟨hown, hvalue.isClosedIn inside, hparts⟩, ?_⟩
        · rw [Bool.or_eq_true]
          rintro (hon | hon)
          · exact hlink hon
          · exact hlinked hon
        · rw [eq_cons_of_splitReceiver? hr] at hargs
          exact Method.isClosed_directArguments hd (List.forall_mem_cons.1 hargs).2
      · have hnone : object.hasLink = false := by rw [eq_of_assignment? ha]; rfl
        have hbefore : function.hasLink = (function.isLink || object.hasLink) := by
          conv => lhs; rw [hl]
          exact hasLink_onto ..
        show ((link || linked) || (l.onto function.isLink value).hasLink) = (link || (linked || function.hasLink))
        rw [hasLink_onto, hbefore, hvalue.hasLink, hnone, Bool.or_assoc]
  · unfold Tree.foldCall
    split
    · exact absurd ⟨_, _, _, rfl⟩ hc
    · exact refl _

theorem foldCalls (name : String) (t : Tree) : Kept t (t.foldCalls name) :=
  foldCalls_induct name (fun _ _ _ => refl _) (fun _ _ _ ih => (map ih).trans (foldCall name _)) t

theorem unwrapOne (name : String) (t : Tree) : Kept t (t.unwrapOne name) := by
  unfold Tree.unwrapOne
  split
  · rename_i assigned value ha
    split
    · obtain rfl := eq_of_assignment? ha
      exact of_isClosed (fun _ h => isClosed_of_hasLink h rfl) fun h => (isClosed_assign.1 h).2
    · exact refl _
  · exact refl _

theorem unwrap (name : String) (t : Tree) : Kept t (t.unwrap name) :=
  unwrap_induct name (fun _ _ _ => refl _) (fun _ _ _ ih => (map ih).trans (unwrapOne name _)) t

/-- Folding a temporary keeps every chain. -/
theorem fold (name : String) (t : Tree) : Kept t (t.fold name) := by
  unfold Tree.fold
  simp only
  split
  · exact (foldCalls name t).trans (unwrap name _)
  · exact foldCalls name t

theorem foldEach (t : Tree) (names : List String) : Kept t (t.foldEach names).1 := by
  induction names generalizing t with
  | nil => exact refl t
  | cons name names ih =>
    unfold Tree.foldEach
    simp only
    split
    · exact (fold name t).trans (ih _)
    · exact ih t

end Kept

end Tree

/-! ## Guards -/

theorem NullCheck.isClosed_operand {t : Tree} {c : NullCheck} (h : of? t = some c) (ht : t.IsClosed) : c.operand.IsClosed := by
  obtain ⟨op, a, b, rfl, hab | hab, -⟩ := operand_mem h
  · rw [hab]
    exact (isClosed_binary.1 ht).1
  · rw [hab]
    exact (isClosed_binary.1 ht).2

theorem NullCheck.isClosed_relink {c : NullCheck} (hc : c.operand.IsClosed) {t : Tree} (ht : t.IsClosed) :
    (c.relink t).IsClosed := by
  have htarget : c.target.IsClosed := by
    unfold target
    split
    · rename_i ha
      rw [eq_of_assignment? ha] at hc
      exact (isClosed_assign.1 hc).2
    · exact hc
  have htoken : c.token.IsClosed := by
    unfold token
    split
    · exact (isClosed_node rfl).2 (by simp)
    · exact hc
  unfold relink
  simp only
  split
  · exact isClosed_rewrite ht htoken (by simpa using hc)
  · exact isClosed_rewrite ht htoken (by simpa using htarget)

open Constructed in
theorem Constructed.isClosed_ofGuards {cs : List NullCheck} {value : Tree} {x : Constructed} (h : ofGuards cs value = some x)
    (hcs : ∀ c ∈ cs, c.operand.IsClosed) (hvalue : value.IsClosed) : x.expr.IsClosed := by
  induction cs generalizing x with
  | nil =>
    obtain rfl := Option.some.inj h
    exact (Kept.foldEach value _).isClosed hvalue
  | cons c cs ih =>
    simp only [List.mem_cons, forall_eq_or_imp] at hcs
    obtain ⟨rest, hrest, hx⟩ := Option.bind_eq_some_iff.1 h
    obtain ⟨-, rfl⟩ := addGuard_eq_some.1 hx
    exact (Kept.foldEach _ _).isClosed (NullCheck.isClosed_relink hcs.1 (ih hrest hcs.2))

namespace Tree

theorem isClosed_negated {t : Tree} (h : t.IsClosed) : t.negated.IsClosed := by
  refine negated_induct (motive := fun t u => t.IsClosed → u.IsClosed) ?_ ?_ ?_ ?_ ?_ t h
  · intro op op' a b _ h
    exact isClosed_binary.2 (isClosed_binary.1 h)
  · intro t h
    exact isClosed_unary.2 h
  · intro t h
    exact isClosed_unary.1 h
  · intro a b iha ihb h
    obtain ⟨ha, hb⟩ := isClosed_logical.1 h
    exact isClosed_logical.2 ⟨iha ha, ihb hb⟩
  · intro a b iha ihb h
    obtain ⟨ha, hb⟩ := isClosed_logical.1 h
    exact isClosed_logical.2 ⟨iha ha, ihb hb⟩

theorem consists_isClosed {t : Tree} (h : t.IsClosed) : t.decision.Consists IsClosed IsClosed := by
  have hdown : Decision.HandsDown IsClosed := ⟨fun _ _ _ => isClosed_logical.1, fun _ _ _ => isClosed_conditional.1⟩
  have hd := Decision.consists_ofValue hdown h
  unfold decision Decision.oriented
  split
  · exact hd.negated fun _ => isClosed_negated
  · exact hd

/-- What is reconstructed from a closed expression is closed. -/
theorem isClosed_reconstruct {t : Tree} {o : Options} {r : Replacement} (ht : t.IsClosed) (h : t.reconstruct o = some r) :
    r.expr.IsClosed := by
  obtain ⟨-, c, x, -, -, hx, -, rfl⟩ := reconstruct_eq h
  have hd := consists_isClosed ht
  have hexpr : x.expr.IsClosed := by
    refine Constructed.isClosed_ofGuards hx (fun k hk => ?_) hd.guarded
    obtain ⟨condition, hcondition, hof⟩ := hd.of_mem_guardsFrom hk
    exact NullCheck.isClosed_operand hof hcondition
  have hconditions : ∀ c ∈ t.decision.alternatives, c.IsClosed := fun c hc => hd.of_mem_alternativesFrom hc
  show (t.decision.alternatives.foldr (.logical .or) x.expr).IsClosed
  generalize t.decision.alternatives = cs at hconditions ⊢
  induction cs with
  | nil => exact hexpr
  | cons c cs ih =>
    simp only [List.mem_cons, forall_eq_or_imp] at hconditions
    exact isClosed_logical.2 ⟨hconditions.1, ih hconditions.2⟩

/-! ## Restored `??` -/

theorem isClosed_alternatives {t : Tree} (h : t.IsClosed) : ∀ a ∈ t.alternatives, a.IsClosed :=
  of_mem_alternatives (fun h => isClosed_logical.1 h) h

end Tree

namespace Survey

/-- The members that temporaries hold come from the guards. -/
theorem isClosed_foldlM {guards : List Tree} {s : Survey} (h : guards.foldlM addGuard {} = some s)
    (hguards : ∀ g ∈ guards, g.IsClosed) : ∀ b ∈ s.bindings, b.access.IsClosed := by
  intro b hb
  obtain ⟨guard, hguard, c, hc, hop⟩ := (exists_of_mem_foldlM h b hb).resolve_left (by simp)
  have hoperand := NullCheck.isClosed_operand hc (hguards guard hguard)
  rw [hop] at hoperand
  exact (isClosed_assign.1 hoperand).2

/-- The accesses from the root to a variable are those of temporaries. -/
theorem mem_climb {root : String} {bs : List TemporaryBinding} {current : String} {accesses : List (String × Tree)}
    (h : climb root bs current = some accesses) : ∀ a ∈ accesses, ∃ b ∈ bs, b.access = a.2 := by
  induction bs generalizing current accesses with
  | nil =>
    unfold climb at h
    split at h
    · obtain rfl := Option.some.inj h
      simp
    · exact absurd h (by simp)
  | cons b bs ih =>
    unfold climb at h
    split at h
    · obtain rfl := Option.some.inj h
      simp
    · simp only at h
      split at h
      · obtain ⟨before, hb, h⟩ := Option.bind_eq_some_iff.1 h
        obtain rfl := Option.some.inj h
        intro a ha
        rcases List.mem_append.1 ha with ha | ha
        · obtain ⟨b', hb', heq⟩ := ih hb a ha
          exact ⟨b', by simp [hb'], heq⟩
        · exact ⟨b, by simp, by rw [List.mem_singleton.1 ha]⟩
      · intro a ha
        obtain ⟨b', hb', heq⟩ := ih h a ha
        exact ⟨b', by simp [hb'], heq⟩

end Survey

namespace Tree

theorem isClosed_notNullChecks {test : Tree} {first : NullCheck} {second : Option NullCheck} (htest : test.IsClosed)
    (h : test.notNullChecks = some (first, second)) : first.operand.IsClosed := by
  obtain ⟨p, q, b, rfl, hp, -⟩ | ⟨hc, -⟩ := notNullChecks_eq_some h
  · exact NullCheck.isClosed_operand hp (isClosed_logical.1 htest).1
  · exact NullCheck.isClosed_operand hc htest

theorem isClosedIn_foldl_onObject (optional : String → Bool) {path : List (String × Tree)} (h : ∀ step ∈ path, step.2.IsClosed)
    {t : Tree} (ht : t.isClosedIn true = true) :
    (path.foldl (fun chain step => step.2.onObject chain (optional step.1)) t).isClosedIn true = true := by
  induction path generalizing t with
  | nil => exact ht
  | cons step path ih =>
    simp only [List.mem_cons, forall_eq_or_imp] at h
    exact ih h.2 (isClosedIn_onObject h.1 ht _)

theorem isClosed_guardedChain {value : Tree} {r : Replacement} (hvalue : value.IsClosed) (h : value.guardedChain = some r) :
    r.expr.IsClosed := by
  obtain ⟨test, yes, no, rfl⟩ := exists_conditional_of_guardedChain h
  obtain ⟨-, s, root, last, path, hs, -, -, hclimb, rfl⟩ := guardedChain_eq_some.1 h
  obtain ⟨htest, -, hno⟩ := isClosed_conditional.1 hvalue
  have hbindings := Survey.isClosed_foldlM hs (isClosed_alternatives htest)
  have haccesses : ∀ a ∈ path ++ [(last, no)], a.2.IsClosed := by
    intro a ha
    rcases List.mem_append.1 ha with ha | ha
    · obtain ⟨b, hb, heq⟩ := Survey.mem_climb hclimb a ha
      rw [← heq]
      exact hbindings b (List.mem_reverse.1 hb)
    · rw [List.mem_singleton.1 ha]
      exact hno
  exact isClosed_closed (isClosedIn_foldl_onObject _ haccesses (((isClosed_node rfl).2 (by simp)).isClosedIn true))

/-- A restored `??` is closed where the expanded one was. -/
theorem isClosed_coalesce {t : Tree} {r : Replacement} (ht : t.IsClosed) (h : t.coalesce = some r) : r.expr.IsClosed := by
  obtain ⟨test, fallback, name, first, second, rfl, hchecks, -, hcases⟩ := coalesce_eq_some h
  obtain ⟨htest, hname, hfallback⟩ := isClosed_conditional.1 ht
  rcases hcases with ⟨value, left, -, hop, rfl, -, rfl⟩ | ⟨-, rfl⟩
  · have hoperand := isClosed_notNullChecks htest hchecks
    rw [hop] at hoperand
    have hvalue := (isClosed_assign.1 hoperand).2
    refine isClosed_logical.2 ⟨?_, hfallback⟩
    cases hc : value.guardedChain with
    | none => exact hvalue
    | some r => exact isClosed_guardedChain hvalue hc
  · exact isClosed_logical.2 ⟨hname, hfallback⟩

end Tree

end Chainlift
