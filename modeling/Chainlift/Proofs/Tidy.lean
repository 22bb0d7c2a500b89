import Chainlift.Proofs.Dropping
import Chainlift.Proofs.Relinking

/-!
# Tidy expressions stay tidy

Links are put and variables folded one after the other, so what allows one step has to outlast the others. An expression stays
tidy for a variable when another one is unwrapped (`Tree.isTidy_unwrap`), and both tidy and without calls by `call`, `apply` and
`bind` on the spine when a link is put (`Tree.tidy_rewrite`).

What a node requires of its first part is little: whether that is an assignment to the variable, the variable itself or a
method, and whether it uses the variable. Two expressions that agree on that stand for one another (`Tree.Stands`).
-/

namespace Chainlift

/-! ## Unwrapping another variable -/

namespace Tree

variable {m n : String}

/-- Unwrapping leaves a single value one. -/
theorem isMark_unwrap {t : Tree} (h : t.isTidy n = true) (hm : t.uncommented.form.isMark = false) :
    (t.unwrap n).uncommented.form.isMark = false := by
  induction t with
  | node f ps ih =>
    cases ha : (node f ps).isAssignmentTo n with
    | false => rw [form_unwrap_of_isTidy h ha, hm]
    | true =>
      obtain ⟨v, hv⟩ := isAssignmentTo_iff.1 ha
      obtain ⟨rfl, rfl⟩ := Tree.node.inj hv
      obtain ⟨hnode, hps⟩ := (isTidy_node rfl).1 h
      rw [unwrap_assign, if_pos rfl]
      exact ih v (by simp) (hps v (by simp)) (isTidyNode_assign hnode)

/-- No reference arises from what is no assignment to the variable. -/
theorem eq_reference_of_unwrap {t : Tree} (h : t.isTidy n = true) (ha : t.isAssignmentTo n = false) {k : String}
    (heq : t.unwrap n = .reference k) : t = .reference k := by
  rw [unwrap_of_isTidy h ha] at heq
  obtain ⟨hform, hparts⟩ := Tree.node.inj heq
  obtain ⟨f, ps⟩ := t
  obtain rfl : f = .reference k := hform
  obtain rfl : ps = [] := List.map_eq_nil_iff.1 hparts
  rfl

/-- No assignment arises from what is no assignment to the variable. -/
theorem isAssignmentTo_of_unwrap {t : Tree} (h : t.isTidy n = true) (ha : t.isAssignmentTo n = false)
    (hm : (t.unwrap n).isAssignmentTo m = true) : t.isAssignmentTo m = true := by
  obtain ⟨f, ps⟩ := t
  cases hw : (node f ps).isWhole with
  | true => rwa [unwrap_of_uses ((isTidy_of_isWhole hw).1 h)] at hm
  | false =>
    obtain ⟨hnode, hps⟩ := (isTidy_node hw).1 h
    obtain ⟨v, hv⟩ := isAssignmentTo_iff.1 hm
    rw [unwrap_of_isTidy h ha] at hv
    obtain ⟨hform, hparts⟩ := Tree.node.inj hv
    obtain rfl : f = .assign .plain := hform
    obtain ⟨q, qs, rfl, hq, hqs⟩ := List.map_eq_cons_iff.1 hparts
    obtain ⟨w, rfl, -⟩ := List.map_eq_singleton_iff.1 hqs
    rw [eq_reference_of_unwrap (hps q (by simp)) (isAssignmentTo_of_isTidyNode hnode rfl q rfl) hq]
    exact isAssignmentTo_iff.2 ⟨w, rfl⟩

/-- Without a use the variable is in nobody's way. -/
theorem isTidy_of_uses {t : Tree} (h : t.uses n = 0) : t.isTidy n = true := by
  induction t with
  | node f ps ih =>
    have hps : ∀ p ∈ ps, p.uses n = 0 := fun p hp => Nat.le_zero.1 (h ▸ uses_le_of_mem hp n)
    cases hw : (node f ps).isWhole with
    | true => exact (isTidy_of_isWhole hw).2 h
    | false =>
      refine (isTidy_node hw).2 ⟨?_, fun p hp => ih p hp (hps p hp)⟩
      have hassigns : ∀ p ∈ ps, p.isAssignmentTo n = false := by
        intro p hp
        rw [Bool.eq_false_iff]
        intro ha
        obtain ⟨v, rfl⟩ := isAssignmentTo_iff.1 ha
        have hp0 := hps _ hp
        rw [uses_assign, List.count_singleton_self] at hp0
        omega
      unfold isTidyNode
      split
      · rfl
      · rename_i p _
        have hvariable : p.asVariable? ≠ some n := by
          intro hp
          obtain rfl := eq_of_asVariable? hp
          exact absurd (hps _ List.mem_cons_self) (by simp [uses, references, ownReferences, referencesAll])
        simp [hassigns p List.mem_cons_self, hvariable]
      · rename_i p _
        simp [hassigns p List.mem_cons_self, hps p List.mem_cons_self]
      · simp [hassigns _ List.mem_cons_self]

/-- As a first part, the one may be put in the place of the other. -/
structure Stands (m : String) (p q : Tree) : Prop where
  isAssignmentTo : q.isAssignmentTo m = true → p.isAssignmentTo m = true
  isMethod : q.uncommented.form.isMethod = true → p.uncommented.form.isMethod = true
  asVariable : q.asVariable? = some m → p.asVariable? = some m
  uses : q.uses m = p.uses m

/-- A node stays tidy when its first part is replaced by one that stands for it. -/
theorem isTidyNode_congr {f : Form} {p q : Tree} {ps qs : List Tree} (h : f.takesPlace = true → Stands m p q)
    (hs : isOneValue ps = true → isOneValue qs = true) (hnode : isTidyNode m f (p :: ps) = true) :
    isTidyNode m f (q :: qs) = true := by
  have hassigns : f.takesPlace = true → p.isAssignmentTo m = false → q.isAssignmentTo m = false := by
    intro hf hp
    rw [Bool.eq_false_iff]
    exact fun hq => absurd ((h hf).isAssignmentTo hq) (by simp [hp])
  unfold isTidyNode at hnode ⊢
  split at hnode
  · rename_i heq
    exact absurd heq (by simp)
  · rename_i heq
    obtain ⟨rfl, rfl⟩ := List.cons.inj heq
    simp only [Bool.and_eq_true, Bool.not_eq_true', Bool.or_eq_true, bne_iff_ne] at hnode ⊢
    exact ⟨hassigns rfl hnode.1, hnode.2.imp (fun hp hq => hp ((h rfl).asVariable hq)) hs⟩
  · rename_i heq
    obtain ⟨rfl, rfl⟩ := List.cons.inj heq
    simp only [Bool.and_eq_true, Bool.not_eq_true', Bool.or_eq_true, beq_iff_eq] at hnode ⊢
    refine ⟨hassigns rfl hnode.1, hnode.2.imp (fun hp => ?_) fun hp => by rw [(h rfl).uses, hp]⟩
    rw [Bool.eq_false_iff]
    exact fun hq => absurd ((h rfl).isMethod hq) (by simp [hp])
  · rename_i heq
    obtain ⟨rfl, rfl⟩ := List.cons.inj heq
    simp only [Bool.not_eq_true', Bool.or_eq_true] at hnode ⊢
    exact hnode.elim .inl fun hp => (Bool.eq_false_or_eq_true _).elim (fun hf => .inr (hassigns hf hp)) .inl

/-- An expression stays tidy for a variable when another one is unwrapped. -/
theorem isTidy_unwrap {t : Tree} (hm : t.isTidy m = true) (hn : t.isTidy n = true) (hne : m ≠ n) :
    (t.unwrap n).isTidy m = true := by
  induction t with
  | node f ps ih =>
    cases hw : (node f ps).isWhole with
    | true => rwa [unwrap_of_uses ((isTidy_of_isWhole hw).1 hn)]
    | false =>
      obtain ⟨hnode, hps⟩ := (isTidy_node hw).1 hm
      obtain ⟨hnode', hps'⟩ := (isTidy_node hw).1 hn
      have hparts := fun p hp => ih p hp (hps p hp) (hps' p hp)
      cases ha : (node f ps).isAssignmentTo n with
      | true =>
        obtain ⟨v, hv⟩ := isAssignmentTo_iff.1 ha
        obtain ⟨rfl, rfl⟩ := Tree.node.inj hv
        rw [unwrap_assign, if_pos rfl]
        exact hparts v (by simp)
      | false =>
        have hplace : f.takesPlace = true → ∀ p ∈ ps.head?, p.isTidy n = true ∧ p.isAssignmentTo n = false :=
          fun hf p hp => ⟨hps' p (List.mem_of_mem_head? hp), isAssignmentTo_of_isTidyNode hnode' hf p hp⟩
        rw [unwrap_of_isTidy hn ha]
        refine (isTidy_node ?_).2 ⟨?_, by simpa [parts] using hparts⟩
        · rw [form, parts, isWhole_map fun hf p hp => form_unwrap_of_isTidy (hplace hf p hp).1 (hplace hf p hp).2, hw]
        · cases ps with
          | nil => exact hnode
          | cons p ps =>
            refine isTidyNode_congr (fun hf => ?_) ?_ hnode
            · obtain ⟨hp, hpa⟩ := hplace hf p rfl
              refine ⟨fun hq => ?_, fun hq => by rwa [← form_unwrap_of_isTidy hp hpa], fun hq => ?_, uses_unwrap hne p⟩
              · exact isAssignmentTo_of_unwrap hp hpa hq
              · rw [eq_reference_of_unwrap hp hpa (eq_of_asVariable? hq)]
                rfl
            · intro h
              obtain ⟨v, rfl, hv⟩ := isOneValue_iff.1 h
              exact isOneValue_iff.2 ⟨_, rfl, isMark_unwrap (hps' v (by simp)) hv⟩

/-! ## Spines of tidy expressions -/

/-- Unwrapping puts no call by `call`, `apply` or `bind` on the spine. -/
theorem callsDirectly_unwrap {t : Tree} (hd : t.callsDirectly = true) (hn : t.isTidy n = true) :
    (t.unwrap n).callsDirectly = true := by
  induction t with
  | node f ps ih =>
    cases hw : (node f ps).isWhole with
    | true => rwa [unwrap_of_uses ((isTidy_of_isWhole hw).1 hn)]
    | false =>
      obtain ⟨hnode, hps⟩ := (isTidy_node hw).1 hn
      cases ha : (node f ps).isAssignmentTo n with
      | true =>
        obtain ⟨v, hv⟩ := isAssignmentTo_iff.1 ha
        obtain ⟨rfl, rfl⟩ := Tree.node.inj hv
        rw [unwrap_assign, if_pos rfl]
        exact ih v (by simp) hd (hps v (by simp))
      | false =>
        rw [unwrap_of_isTidy hn ha]
        -- Below the new node the spine goes on as it did below the old one.
        unfold callsDirectly
        split
        case h_1 heq =>
          obtain ⟨rfl, hparts⟩ := Tree.node.inj heq
          obtain ⟨p, ps, rfl, rfl, -⟩ := List.map_eq_cons_iff.1 hparts
          simp only [callsDirectly, Bool.and_eq_true, Bool.not_eq_true'] at hd ⊢
          rw [form_unwrap_of_isTidy (hps p (by simp)) (isAssignmentTo_of_isTidyNode hnode rfl p rfl)]
          exact ⟨hd.1, ih p (by simp) hd.2 (hps p (by simp))⟩
        case h_2 heq | h_3 heq | h_5 heq | h_6 heq =>
          obtain ⟨rfl, hparts⟩ := Tree.node.inj heq
          obtain ⟨p, rfl, rfl⟩ := List.map_eq_singleton_iff.1 hparts
          exact ih p (by simp) hd (hps p (by simp))
        case h_4 heq =>
          obtain ⟨rfl, hparts⟩ := Tree.node.inj heq
          obtain ⟨p, ps, rfl, rfl, hps'⟩ := List.map_eq_cons_iff.1 hparts
          obtain ⟨q, rfl, rfl⟩ := List.map_eq_singleton_iff.1 hps'
          exact ih p (by simp) hd (hps p (by simp))
        case h_7 heq =>
          obtain ⟨rfl, hparts⟩ := Tree.node.inj heq
          obtain ⟨p, ps, rfl, hp, hps'⟩ := List.map_eq_cons_iff.1 hparts
          obtain ⟨q, rfl, rfl⟩ := List.map_eq_singleton_iff.1 hps'
          obtain rfl := eq_reference_of_unwrap (hps p (by simp)) (isAssignmentTo_of_isTidyNode hnode rfl p rfl) hp
          exact ih q (by simp) hd (hps q (by simp))
        case h_8 => rfl

/-! ## Relinked expressions -/

variable {k : Tree}

/-- Nothing is assigned in a harmless expression. -/
theorem isTidy_of_isHarmless {t : Tree} (h : t.isHarmless = true) : t.isTidy m = true ∧ t.isAssignmentTo m = false := by
  induction t with
  | node f ps ih =>
    obtain ⟨hf, hps⟩ := isHarmless_node.1 h
    have hassigns : (node f ps).isAssignmentTo m = false := by
      rw [Bool.eq_false_iff]
      intro ha
      obtain ⟨v, hv⟩ := isAssignmentTo_iff.1 ha
      obtain ⟨rfl, -⟩ := Tree.node.inj hv
      exact absurd hf (by simp [Form.isCalm])
    refine ⟨(isTidy_node (isWhole_of_isCalm hf ps)).2 ⟨?_, fun p hp => (ih p hp (hps p hp)).1⟩, hassigns⟩
    unfold isTidyNode
    split
    · rfl
    · exact absurd hf (by simp [Form.isCalm])
    · exact absurd hf (by simp [Form.isCalm])
    · simp [(ih _ List.mem_cons_self (hps _ List.mem_cons_self)).2]

theorem callsDirectly_of_isHarmless {t : Tree} (h : t.isHarmless = true) : t.callsDirectly = true := by
  induction t with
  | node f ps ih =>
    obtain ⟨hf, hps⟩ := isHarmless_node.1 h
    unfold callsDirectly
    split
    case h_8 => rfl
    all_goals
      rename_i heq
      obtain ⟨rfl, rfl⟩ := Tree.node.inj heq
      first
        | exact ih _ List.mem_cons_self (hps _ List.mem_cons_self)
        | simp [Form.isCalm] at hf

theorem isAssignmentTo_onto (l : Layer) (link : Bool) (t : Tree) : (l.onto link t).isAssignmentTo m = false := by
  cases l <;> rfl

namespace Relinked

theorem uses {t u : Tree} (h : Relinked k t u) (m : String) : u.uses m = t.uses m := by
  induction h with
  | kept => rfl
  | found l link ht => rw [uses_onto, uses_onto, uses_same ht]
  | @unbound args link zero t hz ht =>
    have hsequence : (Tree.sequence [zero, t]).uses m = k.unbound.uses m := by
      obtain ⟨z, rfl⟩ := eq_number_of_isZero hz
      rw [(count_unbound k m).1, ← uses_same ht, uses_node]
      simp [ownReferences, Tree.uses, references, referencesAll]
    show ((Layer.call args).onto true k.unbound).uses m = ((Layer.call args).onto link (.sequence [zero, t])).uses m
    rw [uses_onto, uses_onto, hsequence]
  | above l link _ ih => rw [uses_onto, uses_onto, ih]
  | @under op hop t u _ ih =>
    rw [uses_node, uses_node, List.map_singleton, List.map_singleton, uses_closed, ih, (count_opened t m).1]
  | target op value hk ht => simp [uses_node, uses_same ht]

/-- What is relinked is no assignment to a variable, no method and no variable unless it was. -/
theorem stands {t u : Tree} (h : Relinked k t u) : Stands m t u := by
  refine ⟨?_, ?_, ?_, h.uses m⟩
  · intro hu
    cases h with
    | kept => exact hu
    | found l link ht => exact absurd hu (by simp [isAssignmentTo_onto])
    | unbound args link hz ht => exact absurd hu (by simp [isAssignmentTo, assignment?])
    | above l link h => exact absurd hu (by simp [isAssignmentTo_onto])
    | under op hop h => exact absurd hu (by simp [isAssignmentTo, assignment?])
    | target op value hk ht =>
      obtain ⟨v, hv⟩ := isAssignmentTo_iff.1 hu
      obtain ⟨-, hparts⟩ := Tree.node.inj hv
      obtain ⟨rfl, -⟩ := List.cons.inj hparts
      exact absurd hk (by simp [isAccess, object?])
  · intro hu
    cases h with
    | kept => exact hu
    | found l link ht => cases l <;> exact hu
    | unbound args link hz ht => exact hu
    | above l link h => cases l <;> exact hu
    | under op hop h => exact hu
    | target op value hk ht => exact hu
  · intro hu
    cases h with
    | kept => exact hu
    | found l link ht => cases l <;> exact absurd hu (by simp [Layer.onto, asVariable?])
    | unbound args link hz ht => exact absurd hu (by simp [asVariable?])
    | above l link h => cases l <;> exact absurd hu (by simp [Layer.onto, asVariable?])
    | under op hop h => exact absurd hu (by simp [asVariable?])
    | target op value hk ht => exact absurd hu (by simp [asVariable?])

theorem callsDirectly (hk : k.isHarmless = true) {t u : Tree} (h : Relinked k t u) (hd : t.callsDirectly = true) :
    u.callsDirectly = true := by
  have hkd := callsDirectly_of_isHarmless hk
  induction h with
  | kept => exact hd
  | @found l link t ht =>
    cases l with
    | call args =>
      simp only [Layer.onto, Tree.callsDirectly, Bool.and_eq_true] at hd ⊢
      rw [← form_same ht]
      exact ⟨hd.1, hkd⟩
    | _ => exact hkd
  | unbound args link hz ht => rfl
  | @above l link t u h ih =>
    cases l with
    | call args =>
      simp only [Layer.onto, Tree.callsDirectly, Bool.and_eq_true, Bool.not_eq_true'] at hd ⊢
      refine ⟨?_, ih hd.2⟩
      rw [Bool.eq_false_iff]
      exact fun hu => absurd ((h.stands (m := "")).isMethod hu) (by simp [hd.1])
    | _ => exact ih hd
  | @under op hop t u h ih =>
    have hu := ih (by rw [callsDirectly_opened]; exact hd)
    rw [← callsDirectly_closed] at hu
    exact hu
  | target op value hk ht =>
    unfold Tree.callsDirectly
    split
    case h_7 heq =>
      obtain ⟨-, hparts⟩ := Tree.node.inj heq
      obtain ⟨rfl, -⟩ := List.cons.inj hparts
      exact absurd hk (by simp [isAccess, object?])
    case h_8 => rfl
    all_goals
      rename_i heq
      exact absurd (Tree.node.inj heq).1 (by simp)

end Relinked

/-! ## Links among tidy expressions -/

end Tree

/-- A call takes the place that its callee is, and a method that it calls is not reached through the variable. -/
def Layer.isTidyOn (m : String) (t : Tree) : Layer → Bool
  | .call _ => !t.isAssignmentTo m && (!t.uncommented.form.isMethod || t.uses m == 0)
  | _ => true

namespace Tree

variable {m : String} {k : Tree}

/-- A layer is tidy in its own parts and in what it stands on. -/
theorem isTidy_onto {l : Layer} {link : Bool} {t : Tree} : (l.onto link t).isTidy m = true ↔
    l.isTidyOn m t = true ∧ t.isTidy m = true ∧ ∀ p ∈ l.parts, p.isTidy m = true := by
  cases l with
  | call args =>
    rw [Layer.onto, isTidy_node rfl]
    simp [isTidyNode, Layer.isTidyOn, Layer.parts]
  | _ =>
    rw [Layer.onto, isTidy_node rfl]
    simp [isTidyNode, Layer.isTidyOn, Layer.parts, Form.takesPlace]

theorem Stands.isTidyOn {t u : Tree} (h : Stands m t u) {l : Layer} (hl : l.isTidyOn m t = true) : l.isTidyOn m u = true := by
  cases l with
  | call args =>
    simp only [Layer.isTidyOn, Bool.and_eq_true, Bool.or_eq_true, Bool.not_eq_true', beq_iff_eq, Bool.eq_false_iff] at hl ⊢
    exact ⟨fun hu => hl.1 (h.isAssignmentTo hu), hl.2.imp (fun ht hu => ht (h.isMethod hu)) fun ht => by rw [h.uses, ht]⟩
  | _ => rfl

theorem stands_same (hk : k.isHarmless = true) (ha : k.isAccess = true) {t : Tree} (h : t.same k = true) : Stands m t k where
  isAssignmentTo hu := absurd hu (by simp [(isTidy_of_isHarmless hk).2])
  isMethod hu := by rwa [form_same h]
  asVariable hu := by
    rw [eq_of_asVariable? hu] at ha
    exact absurd ha (by simp [isAccess, object?])
  uses := (uses_same h m).symm

theorem isTidy_closed {t : Tree} (h : t.isTidy m = true) : t.closed.isTidy m = true := by
  unfold closed
  split
  · rename_i hlink
    have hassigns : t.isAssignmentTo m = false := by
      rw [Bool.eq_false_iff]
      intro ha
      obtain ⟨v, rfl⟩ := isAssignmentTo_iff.1 ha
      exact absurd hlink (by simp [hasLink])
    rw [isTidy_node rfl]
    simp [isTidyNode, hassigns, h]
  · exact h

theorem isTidy_opened {t : Tree} (h : t.isTidy m = true) : t.opened.isTidy m = true := by
  unfold opened
  split
  · exact h
  · exact ((isTidy_node rfl).1 h).2 _ (by simp)
  · exact h

theorem isAssignmentTo_opened {t : Tree} (h : t.isTidy m = true) (ha : t.isAssignmentTo m = false) :
    t.opened.isAssignmentTo m = false := by
  unfold opened
  split
  · exact ha
  · exact isAssignmentTo_of_isTidyNode ((isTidy_node rfl).1 h).1 rfl _ rfl
  · exact ha

/-- A link leaves an expression tidy. -/
theorem Relinked.isTidy (hk : k.isHarmless = true) (ha : k.isAccess = true) {t u : Tree} (h : Relinked k t u)
    (ht : t.isTidy m = true) : u.isTidy m = true := by
  have hkt := (isTidy_of_isHarmless (m := m) hk).1
  induction h with
  | kept => exact ht
  | found l link hsame =>
    obtain ⟨hl, -, hparts⟩ := isTidy_onto.1 ht
    exact isTidy_onto.2 ⟨(stands_same hk ha hsame).isTidyOn hl, hkt, hparts⟩
  | unbound args link hz hsame =>
    obtain ⟨-, -, hparts⟩ := isTidy_onto (l := .call args).1 ht
    have hunbound : k.unbound.isTidy m = true := by
      have hzero := (isTidy_of_isHarmless (m := m) (t := .number .zero) rfl).1
      rw [Tree.unbound, isTidy_node rfl]
      simp [isTidyNode, Form.takesPlace, hkt, hzero]
    exact isTidy_onto (l := .call args).2 ⟨rfl, hunbound, hparts⟩
  | above l link h ih =>
    obtain ⟨hl, ht, hparts⟩ := isTidy_onto.1 ht
    exact isTidy_onto.2 ⟨h.stands.isTidyOn hl, ih ht, hparts⟩
  | @under op hop t u h ih =>
    obtain ⟨hnode, hps⟩ := (isTidy_node rfl).1 ht
    have ht' := hps t (by simp)
    refine (isTidy_node rfl).2 ⟨?_, by simpa using isTidy_closed (ih (isTidy_opened ht'))⟩
    simp only [isTidyNode, Bool.or_eq_true, Bool.not_eq_true'] at hnode ⊢
    refine hnode.imp_right fun hassigns => ?_
    unfold closed
    split
    · rfl
    · rw [Bool.eq_false_iff]
      exact fun hu => absurd (h.stands.isAssignmentTo hu) (by simp [isAssignmentTo_opened ht' hassigns])
  | @target op value t hk' hsame =>
    have hwhole := isWhole_assign ha op value
    have hwhole' : (assign op t value).isWhole = false := by
      rw [← hwhole]
      cases op <;> simp [isWhole, form_same hsame]
    obtain ⟨hnode, hps⟩ := (isTidy_node hwhole').1 ht
    exact (isTidy_node hwhole).2 ⟨isTidyNode_congr (fun _ => stands_same hk ha hsame) id hnode, by simp [hkt, hps value (by simp)]⟩

/-- An expression in which a link was put behind one that stays where it is. -/
theorem tidy_rewrite (hk : k.isHarmless = true) (ha : k.isAccess = true) {t : Tree} (hd : t.callsDirectly = true) :
    (t.rewrite k (some k)).expr.callsDirectly = true ∧ ∀ m, t.isTidy m = true → (t.rewrite k (some k)).expr.isTidy m = true := by
  have hd' : t.opened.callsDirectly = true := by rw [callsDirectly_opened, hd]
  have h := (Substitution.searched_onSpine ⟨k, some k⟩ t.opened).relinked ha hd'
  rw [rewrite, callsDirectly_closed]
  exact ⟨h.callsDirectly hk hd', fun m hm => isTidy_closed (h.isTidy hk ha (isTidy_opened hm))⟩

/-- In a tidy expression nothing is folded but assignments, and they go only if the variable is not read. -/
theorem fold_of_isTidy {t : Tree} {n : String} (h : t.isTidy n = true) (hu : (t.fold n).uses n = 0) :
    t.Unread n ∧ t.fold n = t.unwrap n := by
  have hfold : t.fold n = if t.uses n = t.assignmentCount n then t.unwrap n else t := by
    simp only [fold, foldCalls_of_isTidy h, beq_iff_eq]
  rw [hfold] at hu ⊢
  split at hu
  · rename_i heq
    exact ⟨heq, if_pos heq⟩
  · rename_i hne
    exact absurd (Unread.of_uses hu) hne

end Tree

end Chainlift
