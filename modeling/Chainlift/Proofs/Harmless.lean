import Chainlift.Proofs.Host

/-!
# Harmless expressions

An expression that only reads, compares and computes does nothing on a host whose operators do nothing by themselves
(`Host.IsQuiet.refer`): it leaves store and effects as they are, whether it has a value or throws. So it may be evaluated once or
many times. Comments in it make no difference (`Host.piece_bare`), which is why two such expressions with the same text are
evaluated alike.
-/

namespace Chainlift

open Tree

/-- An expression of the form has no effect but those of its parts. -/
def Form.isCalm : Form → Bool
  | .reference _ | .this | .superObject | .newTarget | .importMeta => true
  | .null | .bool _ | .number _ | .bigint _ | .string _ | .template _ => true
  | .member .. | .privateMember .. | .index _ | .chain | .nonNull | .commented _ | .privateIn _ => true
  | .unary op => op != .delete
  | .binary _ | .logical _ | .conditional | .sequence => true
  | _ => false

theorem Form.isWhole_of_isCalm {f : Form} (h : f.isCalm = true) : f.isWhole = false := by
  cases f <;> simp_all [isCalm, isWhole]

namespace Tree

mutual

/-- The expression is made of calm forms only. -/
def isHarmless : Tree → Bool
  | .node f ps => f.isCalm && allHarmless ps

def allHarmless : List Tree → Bool
  | [] => true
  | t :: ts => t.isHarmless && allHarmless ts

end

theorem allHarmless_iff {ts : List Tree} : allHarmless ts = true ↔ ∀ t ∈ ts, t.isHarmless = true := by
  induction ts with
  | nil => simp [allHarmless]
  | cons t ts ih => simp [allHarmless, ih]

theorem isHarmless_node {f : Form} {ps : List Tree} :
    (node f ps).isHarmless = true ↔ f.isCalm = true ∧ ∀ p ∈ ps, p.isHarmless = true := by
  rw [isHarmless, Bool.and_eq_true, allHarmless_iff]

theorem isWhole_of_isCalm {f : Form} (h : f.isCalm = true) (ps : List Tree) : (node f ps).isWhole = false := by
  unfold isWhole
  split
  · rename_i heq
    obtain ⟨rfl, -⟩ := Tree.node.inj heq
    exact absurd h (by simp [Form.isCalm])
  · rename_i heq
    obtain ⟨rfl, -⟩ := Tree.node.inj heq
    exact Form.isWhole_of_isCalm h

theorem bareAll_eq_map (ts : List Tree) : bareAll ts = ts.map bare := by
  induction ts with
  | nil => rfl
  | cons t ts ih => rw [bareAll, ih, List.map_cons]

/-- A tree is a comment around another one, or its comments are in its parts, whatever these are. -/
theorem bare_cases (f : Form) (ps : List Tree) :
    (∃ cs t, f = .commented cs ∧ ps = [t]) ∨ (node f ps).bare = .node f (ps.map bare) ∧
      ∀ qs : List Tree, qs.length = ps.length → (node f qs).uncommented = .node f qs := by
  by_cases h : ∃ cs t, f = .commented cs ∧ ps = [t]
  · exact .inl h
  · refine .inr ⟨?_, fun qs hlength => ?_⟩
    · unfold bare
      split
      · rename_i cs t heq
        obtain ⟨rfl, rfl⟩ := Tree.node.inj heq
        exact absurd ⟨cs, t, rfl, rfl⟩ h
      · rename_i heq
        obtain ⟨rfl, rfl⟩ := Tree.node.inj heq
        rw [bareAll_eq_map]
    · unfold uncommented
      split
      · rename_i cs t heq
        obtain ⟨rfl, rfl⟩ := Tree.node.inj heq
        obtain ⟨t', rfl⟩ := List.length_eq_one_iff.1 hlength.symm
        exact absurd ⟨cs, t', rfl, rfl⟩ h
      · rfl

theorem isHarmless_bare (t : Tree) : t.bare.isHarmless = t.isHarmless := by
  induction t with
  | node f ps ih =>
    rcases bare_cases f ps with ⟨cs, t, rfl, rfl⟩ | ⟨h, -⟩
    · rw [bare, ih t (by simp)]
      simp [isHarmless, allHarmless, Form.isCalm]
    · rw [h, Bool.eq_iff_iff, isHarmless_node, isHarmless_node, List.forall_mem_map]
      exact and_congr_right fun _ => forall₂_congr fun p hp => by rw [ih p hp]

/-- Comments use no variables. -/
theorem uses_bare (t : Tree) (m : String) : t.bare.uses m = t.uses m := by
  induction t with
  | node f ps ih =>
    rcases bare_cases f ps with ⟨cs, t, rfl, rfl⟩ | ⟨hb, -⟩
    · rw [bare, ih t (by simp), uses_node]
      simp [ownReferences]
    · rw [hb, uses_node, uses_node, List.map_map]
      congr 1
      exact congrArg List.sum (List.map_congr_left ih)

theorem uses_same {t u : Tree} (h : t.same u = true) (m : String) : t.uses m = u.uses m := by
  rw [← uses_bare t, ← uses_bare u, show t.bare = u.bare from of_decide_eq_true h]

theorem uncommented_form_bare (t : Tree) : t.bare.uncommented.form = t.uncommented.form := by
  induction t with
  | node f ps ih =>
    rcases bare_cases f ps with ⟨cs, t, rfl, rfl⟩ | ⟨hb, hu⟩
    · exact ih t (by simp)
    · rw [hb, hu _ (List.length_map _), hu ps rfl]
      rfl

theorem form_same {t u : Tree} (h : t.same u = true) : t.uncommented.form = u.uncommented.form := by
  rw [← uncommented_form_bare t, ← uncommented_form_bare u, show t.bare = u.bare from of_decide_eq_true h]

end Tree

namespace Host

variable {W : Type}

/-- Nothing is done. -/
def Quiet {α : Type} (x : Run W α) : Prop := ∀ s, (x s).2 = s

theorem quiet_pure {α : Type} (a : α) : Quiet (pure a : Run W α) := fun _ => rfl

theorem quiet_throw {α : Type} (e : Value) : Quiet (throw e : Run W α) := fun _ => rfl

theorem quiet_look {α : Type} (f : Store W → Except Value α) : Quiet (look f) := fun _ => rfl

theorem Quiet.bind {α β : Type} {x : Run W α} {f : α → Run W β} (hx : Quiet x) (hf : ∀ a, Quiet (f a)) : Quiet (x >>= f) := by
  intro s
  rcases h : x s with ⟨_ | a, s'⟩
  · rw [Eval.bind_error h, ← hx s, h]
  · rw [Eval.bind_ok h, hf a s', ← hx s, h]

theorem quiet_ite {α : Type} {x y : Run W α} (c : Bool) (hx : Quiet x) (hy : Quiet y) :
    Quiet (if c = true then x else y) := by
  cases c
  · exact hy
  · exact hx

variable (H : Host W)

/-- The operations of calm forms do nothing if their parts do nothing. -/
structure IsQuiet : Prop where
  operate : ∀ f ps, f.isCalm = true → (∀ p ∈ ps, Quiet p.run) → Quiet (H.operate f ps)

variable {H}

theorem quiet_get (p : Referent) : Quiet (H.get p) := by
  cases p with
  | value v => exact quiet_pure v
  | property object key => exact quiet_ite _ (quiet_throw _) (quiet_look _)

theorem quiet_fetch (p : Option Referent) : Quiet (H.fetch p) := by
  cases p with
  | none => exact quiet_pure _
  | some p => exact (quiet_get p).bind fun _ => quiet_pure _

theorem quiet_compare (strict : Bool) (a b : Value) : Quiet (H.compare strict a b) :=
  quiet_ite _ (quiet_pure _) (quiet_ite _ (quiet_pure _) (quiet_look _))

theorem Quiet.settle {x : Run W Value} (h : Quiet x) : Quiet (settle x) := h.bind fun _ => quiet_pure _

theorem quiet_onto (link : Bool) {go : Value → Run W (Option Referent)} (h : ∀ v, Quiet (go v)) (v : Option Value) :
    Quiet (onto link go v) := by
  cases v with
  | none => exact quiet_pure _
  | some v => exact quiet_ite _ (quiet_pure _) (h v)

theorem quiet_reach {p : Piece W} (h : Quiet p.run) : Quiet (H.reach p) := h.bind quiet_fetch

theorem quiet_valueOf {p : Piece W} (h : Quiet p.run) : Quiet (H.valueOf p) := (quiet_reach h).bind fun _ => quiet_pure _

theorem quiet_settled {p : Piece W} (h : Quiet p.run) : Quiet (H.settled p).run := (quiet_valueOf h).settle

theorem quiet_handed {ps : List (Piece W)} (h : ∀ p ∈ ps, Quiet p.run) (f : Form) : ∀ p ∈ H.handed f ps, Quiet p.run := by
  cases ps with
  | nil => exact fun p hp => absurd hp (by simp [handed])
  | cons q qs =>
    simp only [List.mem_cons, forall_eq_or_imp] at h
    simp only [handed, List.mem_cons, forall_eq_or_imp, List.mem_map, forall_exists_index, and_imp, forall_apply_eq_imp_iff₂]
    refine ⟨?_, fun p hp => quiet_settled (h.2 p hp)⟩
    split
    · exact h.1
    · exact quiet_settled h.1

theorem quiet_valuesOf {ps : List (Piece W)} (h : ∀ p ∈ ps, Quiet p.run ∧ p.form ≠ some .spread) : Quiet (H.valuesOf ps) := by
  induction ps with
  | nil => exact quiet_pure _
  | cons p ps ih =>
    simp only [List.mem_cons, forall_eq_or_imp] at h
    refine (quiet_valueOf h.1.1).bind fun v => ?_
    have hspread : (p.form == some .spread) = false := by simpa using h.1.2
    rw [hspread]
    exact (quiet_pure _).bind fun _ => (ih h.2).bind fun _ => quiet_pure _

theorem IsQuiet.operation (hH : H.IsQuiet) {f : Form} (hf : f.isCalm = true) {ps : List (Piece W)}
    (h : ∀ p ∈ ps, Quiet p.run) : Quiet (H.operation f ps) := (hH.operate f _ hf (quiet_handed h f)).settle

theorem IsQuiet.ofOne (hH : H.IsQuiet) {f : Form} (hf : f.isCalm = true) {ps : List (Piece W)} (h : ∀ p ∈ ps, Quiet p.run)
    {go : Piece W → Run W (Option Referent)} (hgo : ∀ p ∈ ps, Quiet (go p)) : Quiet (H.ofOne f ps go) := by
  unfold Host.ofOne
  split
  · exact hgo _ (by simp)
  · exact hH.operation hf h

theorem IsQuiet.ofTwo (hH : H.IsQuiet) {f : Form} (hf : f.isCalm = true) {ps : List (Piece W)} (h : ∀ p ∈ ps, Quiet p.run)
    {go : Piece W → Piece W → Run W (Option Referent)} (hgo : ∀ p ∈ ps, ∀ q ∈ ps, Quiet (go p q)) : Quiet (H.ofTwo f ps go) := by
  unfold Host.ofTwo
  split
  · exact hgo _ (by simp) _ (by simp)
  · exact hH.operation hf h

/-- A calm form does nothing if its parts do nothing. -/
theorem IsQuiet.perform (hH : H.IsQuiet) {f : Form} (hf : f.isCalm = true) {ps : List (Piece W)}
    (h : ∀ p ∈ ps, Quiet p.run ∧ p.form ≠ some .spread) : Quiet (H.perform f ps) := by
  have hrun : ∀ p ∈ ps, Quiet p.run := fun p hp => (h p hp).1
  have hvalue : ∀ p ∈ ps, Quiet (H.valueOf p) := fun p hp => quiet_valueOf (hrun p hp)
  have hreach : ∀ p ∈ ps, Quiet (H.reach p) := fun p hp => quiet_reach (hrun p hp)
  unfold Host.perform
  split
  case h_1 => exact (quiet_ite _ (quiet_pure _) (quiet_look _)).settle
  case h_8 => exact hH.ofOne hf hrun fun o ho => (hreach o ho).bind (quiet_onto _ fun _ => quiet_pure _)
  case h_9 => exact hH.ofOne hf hrun fun o ho => (hreach o ho).bind (quiet_onto _ fun _ => quiet_pure _)
  case h_10 =>
    refine hH.ofTwo hf hrun fun o ho k hk => (hreach o ho).bind (quiet_onto _ fun _ => ?_)
    exact (hvalue k hk).bind fun _ => quiet_pure _
  case h_12 => exact hH.ofOne hf hrun fun p hp => (hrun p hp).bind fun _ => quiet_pure _
  case h_13 => exact hH.ofOne hf hrun hrun
  case h_14 => exact hH.ofOne hf hrun hrun
  case h_17 => exact hH.ofOne hf hrun fun p hp => ((hvalue p hp).bind fun _ => quiet_pure _).settle
  case h_18 => exact hH.ofOne hf hrun fun p hp => ((hvalue p hp).bind fun _ => quiet_pure _).settle
  case h_19 =>
    split
    · refine hH.ofTwo hf hrun fun a ha b hb => Quiet.settle ?_
      refine (hvalue a ha).bind fun v => (hvalue b hb).bind fun w => ?_
      exact (quiet_compare _ v w).bind fun _ => quiet_pure _
    · exact hH.operation hf hrun
  case h_20 =>
    refine hH.ofTwo hf hrun fun a ha b hb => Quiet.settle ?_
    exact (hvalue a ha).bind fun _ => quiet_ite _ (hvalue b hb) (quiet_pure _)
  case h_21 =>
    split
    · refine Quiet.settle ?_
      exact (hvalue _ (by simp)).bind fun _ => quiet_ite _ (hvalue _ (by simp)) (hvalue _ (by simp))
    · exact hH.operation hf hrun
  case h_23 => exact ((quiet_valuesOf h).bind fun _ => quiet_pure _).settle
  case h_24 => exact hH.operation hf hrun
  -- The others are constants, or they are not calm.
  all_goals first | exact (quiet_pure _).settle | exact absurd hf (by simp [Form.isCalm])

theorem uncommented_form {t : Tree} (h : t.isHarmless = true) : t.uncommented.form ≠ .spread := by
  fun_induction Tree.uncommented t with
  | case1 cs t ih =>
    rw [Tree.isHarmless_node] at h
    exact ih (h.2 t (by simp))
  | case2 t ht =>
    obtain ⟨f, ps⟩ := t
    rw [Tree.isHarmless_node] at h
    rintro (rfl : f = .spread)
    exact absurd h.1 (by simp [Form.isCalm])

/-- A harmless expression does nothing. -/
theorem IsQuiet.refer (hH : H.IsQuiet) {t : Tree} (h : t.isHarmless = true) : Quiet (H.refer t) := by
  induction t with
  | node f ps ih =>
    rw [Tree.isHarmless_node] at h
    rw [H.refer_node (Tree.isWhole_of_isCalm h.1 ps)]
    refine hH.perform h.1 ?_
    simp only [List.forall_mem_map]
    exact fun p hp => ⟨ih p hp (h.2 p hp), by simpa [piece] using uncommented_form (h.2 p hp)⟩

theorem IsQuiet.eval (hH : H.IsQuiet) {t : Tree} (h : t.isHarmless = true) : Quiet (H.eval t) := quiet_valueOf (hH.refer h)

/-! ## Comments -/

/-- A harmless expression is evaluated without regard to comments. -/
theorem piece_bare {t : Tree} (h : t.isHarmless = true) : H.piece t.bare = H.piece t := by
  induction t with
  | node f ps ih =>
    rw [Tree.isHarmless_node] at h
    rcases Tree.bare_cases f ps with ⟨cs, t, rfl, rfl⟩ | ⟨hb, hu⟩
    · rw [Tree.bare, ih t (by simp) (h.2 t (by simp))]
      simp only [piece, Tree.uncommented, H.refer_node (Tree.isWhole_of_isCalm h.1 _), List.map_cons, List.map_nil, perform, ofOne]
    · have hps : (ps.map Tree.bare).map H.piece = ps.map H.piece := by
        rw [List.map_map]
        exact List.map_congr_left fun p hp => ih p hp (h.2 p hp)
      rw [hb, piece, piece, hu _ (List.length_map _), hu ps rfl, H.refer_node (Tree.isWhole_of_isCalm h.1 _),
        H.refer_node (Tree.isWhole_of_isCalm h.1 _), hps]
      rfl

/-- The same expression, but for comments. -/
theorem piece_same (hk : k.isHarmless = true) {t : Tree} (h : t.same k = true) : H.piece t = H.piece k := by
  have hb : t.bare = k.bare := of_decide_eq_true h
  have ht : t.isHarmless = true := by rw [← isHarmless_bare, hb, isHarmless_bare, hk]
  rw [← piece_bare ht, hb, piece_bare hk]

theorem refer_same (hk : k.isHarmless = true) {t : Tree} (h : t.same k = true) : H.refer t = H.refer k :=
  congrArg Piece.run (piece_same hk h)

end Host

end Chainlift
