import Chainlift.Proofs.Pruning

/-!
# What the tallies know

Around an expression that is visited stand the nodes of the program, each with the parts before and after it
(`Enclosure`). Some of them have opened a scope, and the sweep keeps a frame for each of these. The frames fit the program
(`Fits`): no tally holds less than the uses that its scope still has. Entering and leaving nodes and accepted rewrites keep
it so (`Fits.enter`, `Fits.leave`, `Fits.accept`), since rewriting and cleaning add no use.
-/

namespace Chainlift

open Tree

/-! ## Tallies -/

namespace Tally

theorem get_ofNames (names : List String) (name : String) : (ofNames names).get name = names.count name := by
  have hlookup : ∀ l : List String,
      (l.map fun n => (n, names.count n)).lookup name = if name ∈ l then some (names.count name) else none := by
    intro l
    induction l with
    | nil => rfl
    | cons n l ih =>
      rw [List.map_cons, List.lookup_cons, ih]
      by_cases h : name = n
      · subst h
        simp
      · have hb : (name == n) = false := by simpa using h
        simp [hb, h]
  rw [get, ofNames, hlookup]
  by_cases h : name ∈ names
  · rw [if_pos (List.mem_eraseDups.2 h)]
    rfl
  · rw [if_neg (mt List.mem_eraseDups.1 h), List.count_eq_zero.2 h]
    rfl

theorem get_ofTrees (ts : List Tree) (name : String) : (ofTrees ts).get name = (ts.map (·.uses name)).sum := by
  rw [ofTrees, get_ofNames, ← usesAll_eq_sum]

theorem get_subtract (t : Tally) (name other : String) (n : Nat) :
    (t.subtract name n).get other = if other = name then t.get other - n else t.get other := by
  unfold get subtract
  induction t.counts with
  | nil => simp
  | cons c counts ih =>
    obtain ⟨name', count⟩ := c
    simp only [List.map_cons, List.lookup_cons]
    by_cases h : other = name'
    · subst h
      by_cases hn : other = name
      · simp [hn]
      · simp [hn]
    · have hb : (other == name') = false := by simpa using h
      simp only [hb]
      exact ih

/-- From each of the names only its own part is taken. -/
theorem get_subtractAll (t : Tally) (k : String → Nat) {names : List String} (hn : names.Nodup) (other : String) :
    t.get other - k other ≤ (t.subtractAll (names.map fun n => (n, k n))).get other := by
  have hout : ∀ (names : List String) (t : Tally), other ∉ names →
      (t.subtractAll (names.map fun n => (n, k n))).get other = t.get other := by
    intro names
    induction names with
    | nil => exact fun _ _ => rfl
    | cons n names ih =>
      intro t h
      rw [List.mem_cons, not_or] at h
      rw [List.map_cons, subtractAll, List.foldl_cons]
      exact (ih _ h.2).trans (by rw [get_subtract, if_neg h.1])
  induction names generalizing t with
  | nil => exact Nat.sub_le ..
  | cons n names ih =>
    rw [List.nodup_cons] at hn
    rw [List.map_cons, subtractAll, List.foldl_cons]
    by_cases h : other = n
    · subst h
      refine Nat.le_of_eq ?_
      refine Eq.trans ?_ (hout names _ hn.1).symm
      rw [get_subtract, if_pos rfl]
    · refine Nat.le_trans ?_ (ih _ hn.2)
      rw [get_subtract, if_neg h]

end Tally

theorem nodup_eraseDups (names : List String) : names.eraseDups.Nodup := by
  induction h : names.length using Nat.strongRecOn generalizing names with
  | ind k ih =>
    cases names with
    | nil => exact List.nodup_nil
    | cons n names =>
      rw [List.eraseDups_cons, List.nodup_cons]
      refine ⟨?_, ih _ ?_ _ rfl⟩
      · simp [List.mem_eraseDups]
      · have := List.length_filter_le (fun b => !b == n) names
        rw [← h, List.length_cons]
        omega

/-- An accepted rewrite takes no more from a tally than the uses that go. -/
theorem Sweep.get_lostUses (t : Tally) (old : Tree) (r : Replacement) (name : String) :
    t.get name - (old.uses name - r.expr.uses name) ≤ (t.subtractAll (lostUses old r)).get name :=
  t.get_subtractAll (fun n => old.uses n - r.expr.uses n) (nodup_eraseDups _) name

/-! ## Rewrites that are made -/

namespace Sweep

@[simp] theorem frames_count (s : Sweep) (kind : RewriteKind) : (s.count kind).frames = s.frames := by
  cases kind <;> rfl

/-- With a rewrite the uses that go are taken from all tallies, and its temporaries are left behind. -/
theorem accept_eq_some {s s' : Sweep} {t u : Tree} {r : Replacement} {kind : RewriteKind} (h : s.accept t r kind = some (u, s')) :
    s.isLocal t r.expr = true ∧ u = r.expr ∧
      s' = (leaveBehind { s with frames := s.frames.map fun f => { f with tally := f.tally.subtractAll (lostUses t r) } }
        r.consumed).count kind := by
  unfold accept at h
  split at h
  · rename_i hlocal
    obtain ⟨rfl, rfl⟩ := Prod.mk.inj (Option.some.inj h)
    exact ⟨hlocal, rfl, rfl⟩
  · exact absurd h (by simp)

/-- A rewrite is accepted, as `??` or as a chain. -/
theorem accept_of_tryRewrite {o : Options} {t u : Tree} {s s' : Sweep} (h : tryRewrite o t s = some (u, s')) :
    ∃ r kind, (t.coalesce = some r ∨ t.isBranching = true ∧ t.reconstruct o = some r) ∧ s.accept t r kind = some (u, s') := by
  unfold tryRewrite at h
  rcases Option.or_eq_some_iff.1 h with h | ⟨-, h⟩
  · split at h
    · obtain ⟨r, hr, h⟩ := Option.bind_eq_some_iff.1 h
      exact ⟨r, _, .inl hr, h⟩
    · exact absurd h (by simp)
  · split at h
    · rename_i hb
      obtain ⟨r, hr, h⟩ := Option.bind_eq_some_iff.1 h
      exact ⟨r, _, .inr ⟨hb, hr⟩, h⟩
    · exact absurd h (by simp)

end Sweep

/-! ## Levels -/

/-- A node around an expression, and the names that belong to its scope if it opened one. -/
structure Enclosure where
  form : Form
  before : List Tree
  after : List Tree
  owned : Option (List String)

namespace Enclosure

/-- The parts of the node with the expression among them. -/
def parts (l : Enclosure) (t : Tree) : List Tree := l.before ++ t :: l.after

/-- The node with the expression among its parts. -/
def fill (l : Enclosure) (t : Tree) : Tree := .node l.form (l.parts t)

/-- The expression lies in the scope that the node opened. -/
def IsCovered (l : Enclosure) : Prop := l.owned.isSome = true → l.form.encloses l.before.length = true

end Enclosure

/-- The program around an expression, the innermost node first, with the expression in it. -/
def Enclosure.fillAll : List Enclosure → Tree → Tree
  | [], t => t
  | l :: ls, t => fillAll ls (l.fill t)

theorem Enclosure.fillAll_append (ls ls' : List Enclosure) (t : Tree) : fillAll (ls ++ ls') t = fillAll ls' (fillAll ls t) := by
  induction ls generalizing t with
  | nil => rfl
  | cons l ls ih => exact ih _

/-- The uses of a variable in those parts, counted from the index, that belong to the scope of the node. -/
def Tree.scopeUses (f : Form) (name : String) : (i : Nat) → List Tree → Nat
  | _, [] => 0
  | i, t :: ts => (if f.encloses i then t.uses name else 0) + scopeUses f name (i + 1) ts

theorem Tree.scopeUses_append (f : Form) (name : String) (i : Nat) (ts us : List Tree) :
    scopeUses f name i (ts ++ us) = scopeUses f name i ts + scopeUses f name (i + ts.length) us := by
  induction ts generalizing i with
  | nil => exact (Nat.zero_add _).symm
  | cons t ts ih =>
    rw [List.cons_append, scopeUses, scopeUses, ih, Nat.add_assoc (ite _ _ _), List.length_cons, Nat.add_assoc i, Nat.add_comm 1]

theorem Tree.scopeUses_eq_sum {f : Form} (hf : f.isFunction = false) (name : String) (i : Nat) (ts : List Tree) :
    scopeUses f name i ts = (ts.map (·.uses name)).sum := by
  induction ts generalizing i with
  | nil => rfl
  | cons t ts ih =>
    rw [scopeUses, encloses_of_isFunction hf, ih]
    rfl

theorem Tree.uses_bodyStatements (body : Tree) (name : String) :
    (body.bodyStatements.map (·.uses name)).sum = body.uses name := by
  unfold bodyStatements
  split
  · rw [uses_node]
    simp [ownReferences]
  · simp

/-- The tally of a scope is exact. -/
theorem Scope.tally_eq (s : Scope) (name : String) : s.tally.get name = s.parameterUses name + s.statementUses name := by
  rw [tally, Tally.get_ofTrees, List.map_append, List.sum_append, parameterUses, statementUses, usesAll, usesAll_eq_sum]
  cases s.parameters <;> simp

/-- A frame is made with the uses in its scope. -/
theorem Scope.get_tally {f : Form} {ps : List Tree} {s : Scope} (h : of? f ps = some s) (name : String) :
    s.tally.get name = scopeUses f name 0 ps := by
  rw [tally, Tally.get_ofTrees]
  unfold of? at h
  split at h
  · obtain rfl := Option.some.inj h
    simp [scopeUses, Form.encloses, uses_bodyStatements]
  · obtain rfl := Option.some.inj h
    simp [scopeUses, Form.encloses, uses_bodyStatements]
  · obtain rfl := Option.some.inj h
    rw [scopeUses_eq_sum rfl]
    rfl
  · exact absurd h (by simp)

/-! ## Frames that fit -/

/-- If the node opened a scope, the innermost frame is the one of that scope, and its tally holds no less than the uses in the
scope. The other frames fit the program around the node. -/
def FitsIn (around : Tree → List Frame → Prop) (f : Form) (ps : List Tree) : Option (List String) → List Frame → Prop
  | none, frames => around (.node f ps) frames
  | some names, frames => ∃ frame rest, frames = frame :: rest ∧ frame.owned = names ∧
      (∀ name, scopeUses f name 0 ps ≤ frame.tally.get name) ∧ around (.node f ps) rest

/-- The frames belong to the scopes that the program around an expression has opened, and their tallies hold no less than the
uses in these scopes. -/
def Fits : List Enclosure → Tree → List Frame → Prop
  | [], _, frames => frames = []
  | l :: ls, t, frames => FitsIn (Fits ls) l.form (l.parts t) l.owned frames

namespace Fits

/-- What frames fit does not depend on the temporaries left behind. -/
theorem leaveBehind {ls : List Enclosure} {t : Tree} {s : Sweep} (h : Fits ls t s.frames) (names : List String) :
    Fits ls t (s.leaveBehind names).frames := by
  unfold Sweep.leaveBehind
  split
  · exact h
  · rename_i frame frames hs
    rw [hs] at h
    simp only
    induction ls generalizing t with
    | nil => exact absurd h (by simp [Fits])
    | cons l ls ih =>
      unfold Fits at h ⊢
      cases ho : l.owned with
      | none =>
        rw [ho] at h
        exact ih h
      | some names =>
        rw [ho] at h
        obtain ⟨_, _, heq, hnames, huses, hrest⟩ := h
        obtain ⟨rfl, rfl⟩ := List.cons.inj heq
        exact ⟨_, _, rfl, hnames, huses, hrest⟩

end Fits

/-- Another expression with no more uses puts no more uses in the scope around it. -/
theorem Enclosure.scopeUses_mono (l : Enclosure) {t u : Tree} {name : String} (h : u.uses name ≤ t.uses name) :
    scopeUses l.form name 0 (l.parts u) ≤ scopeUses l.form name 0 (l.parts t) := by
  rw [parts, parts, scopeUses_append, scopeUses_append, scopeUses, scopeUses]
  refine Nat.add_le_add_left (Nat.add_le_add_right ?_ _) _
  split
  · exact h
  · exact Nat.le_refl _

/-- Where the expression lies in the scope, the uses that it loses are lost to the scope. -/
theorem Enclosure.scopeUses_change (l : Enclosure) (t u : Tree) (name : String) (hl : l.form.encloses l.before.length = true) :
    scopeUses l.form name 0 (l.parts u) + t.uses name = scopeUses l.form name 0 (l.parts t) + u.uses name := by
  rw [parts, parts, scopeUses_append, scopeUses_append, scopeUses, scopeUses, Nat.zero_add, if_pos hl, if_pos hl]
  omega

theorem Enclosure.uses_fill_le (l : Enclosure) {t u : Tree} {name : String} (h : u.uses name ≤ t.uses name) :
    (l.fill u).uses name ≤ (l.fill t).uses name := by
  rw [fill, fill, uses_node, uses_node, parts, parts, List.map_append, List.map_append, List.sum_append, List.sum_append,
    List.map_cons, List.map_cons, List.sum_cons, List.sum_cons]
  omega

namespace Fits

/-- An expression with no more uses in the place of another. -/
theorem mono {ls : List Enclosure} {t u : Tree} {frames : List Frame} (h : Fits ls t frames)
    (hu : ∀ name, u.uses name ≤ t.uses name) : Fits ls u frames := by
  induction ls generalizing t u frames with
  | nil => exact h
  | cons l ls ih =>
    unfold Fits at h ⊢
    cases ho : l.owned with
    | none =>
      rw [ho] at h
      exact ih h fun name => l.uses_fill_le (hu name)
    | some names =>
      rw [ho] at h
      obtain ⟨frame, rest, hframes, hnames, huses, hrest⟩ := h
      exact ⟨frame, rest, hframes, hnames, fun name => (l.scopeUses_mono (hu name)).trans (huses name),
        ih hrest fun name => l.uses_fill_le (hu name)⟩

/-- The uses that go are taken from every tally. -/
theorem subtract {ls : List Enclosure} (hls : ∀ l ∈ ls, l.IsCovered) {t u : Tree} {frames : List Frame} (h : Fits ls t frames)
    (hu : ∀ name, u.uses name ≤ t.uses name) {g : Frame → Frame} (howned : ∀ frame, (g frame).owned = frame.owned)
    (htally : ∀ frame name, frame.tally.get name - (t.uses name - u.uses name) ≤ (g frame).tally.get name) :
    Fits ls u (frames.map g) := by
  induction ls generalizing t u frames with
  | nil =>
    rw [Fits] at h ⊢
    rw [h, List.map_nil]
  | cons l ls ih =>
    simp only [List.mem_cons, forall_eq_or_imp] at hls
    have hfill : ∀ name, (l.fill t).uses name - (l.fill u).uses name = t.uses name - u.uses name := by
      intro name
      simp only [Enclosure.fill, Enclosure.parts, uses_node, List.map_append, List.sum_append, List.map_cons, List.sum_cons]
      omega
    have hrest : ∀ {rest}, Fits ls (l.fill t) rest → Fits ls (l.fill u) (rest.map g) := fun h =>
      ih hls.2 h (fun name => l.uses_fill_le (hu name)) fun frame name => by rw [hfill]; exact htally frame name
    unfold Fits at h ⊢
    cases ho : l.owned with
    | none =>
      rw [ho] at h
      exact hrest h
    | some names =>
      rw [ho] at h
      obtain ⟨frame, rest, rfl, hnames, huses, h⟩ := h
      refine ⟨g frame, rest.map g, rfl, (howned frame).trans hnames, fun name => ?_, hrest h⟩
      have hchange := l.scopeUses_change t u name (hls.1 (by rw [ho]; rfl))
      have := huses name
      have := htally frame name
      have := hu name
      omega

end Fits

/-- Accepting a rewrite that adds no use. -/
theorem Fits.accept {ls : List Enclosure} (hls : ∀ l ∈ ls, l.IsCovered) {t u : Tree} {s s' : Sweep} {r : Replacement}
    {kind : RewriteKind} (h : Fits ls t s.frames) (hr : ∀ name, r.expr.uses name ≤ t.uses name)
    (ha : s.accept t r kind = some (u, s')) : u = r.expr ∧ Fits ls u s'.frames := by
  obtain ⟨-, rfl, rfl⟩ := Sweep.accept_eq_some ha
  refine ⟨rfl, ?_⟩
  rw [Sweep.frames_count]
  have hsubtracted := h.subtract (g := fun frame => { frame with tally := frame.tally.subtractAll (Sweep.lostUses t r) }) hls hr
    (fun _ => rfl) fun frame name => Sweep.get_lostUses frame.tally t r name
  exact Fits.leaveBehind (s := { s with frames := s.frames.map _ }) hsubtracted r.consumed

/-- The names that belong to the scope that a node opens. -/
def Scope.ownedBy (f : Form) (ps : List Tree) : Option (List String) := (of? f ps).map owned

theorem Fits.enter {ls : List Enclosure} {f : Form} {ps : List Tree} {s : Sweep} (h : Fits ls (.node f ps) s.frames) :
    FitsIn (Fits ls) f ps (Scope.ownedBy f ps) (s.enter f ps).frames := by
  unfold Sweep.enter Scope.ownedBy
  cases hs : Scope.of? f ps with
  | none => exact h
  | some scope => exact ⟨_, _, rfl, rfl, fun name => Nat.le_of_eq (Scope.get_tally hs name).symm, h⟩

/-- Whether a node opens a scope can be told from its form and from how many parts it has. -/
theorem Scope.isSome_of?_congr (f : Form) {ps qs : List Tree} (h : ps.length = qs.length) :
    (of? f ps).isSome = (of? f qs).isSome := by
  cases f with
  | function declared isAsync generator parenthesized =>
    have hfour : ∀ ps, (of? (.function declared isAsync generator parenthesized) ps).isSome = (ps.length == 4) := by
      rintro (_ | ⟨_, _ | ⟨_, _ | ⟨_, _ | ⟨_, _ | _⟩⟩⟩⟩) <;> rfl
    rw [hfour, hfour, h]
  | arrow isAsync parenthesized =>
    have hthree : ∀ ps, (of? (.arrow isAsync parenthesized) ps).isSome = (ps.length == 3) := by
      rintro (_ | ⟨_, _ | ⟨_, _ | ⟨_, _ | _⟩⟩⟩) <;> rfl
    rw [hthree, hthree, h]
  | _ => rfl

theorem Fits.leave {ls : List Enclosure} {f : Form} {ps qs : List Tree} {s : Sweep} (hlength : ps.length = qs.length)
    (h : FitsIn (Fits ls) f ps (Scope.ownedBy f qs) s.frames) : Fits ls (s.leave f ps).1 (s.leave f ps).2.frames := by
  have hle : ∀ name, (s.leave f ps).1.uses name ≤ (Tree.node f ps).uses name := by
    intro name
    have h := (Measure.uses name).leave_le s f ps fun _ => Nat.le_refl _
    rwa [Measure.total_uses, Measure.total_uses] at h
  have hsome := Scope.isSome_of?_congr f hlength
  unfold Scope.ownedBy at h
  cases hq : Scope.of? f qs with
  | none =>
    have hp : Scope.of? f ps = none := by simpa [hq] using hsome
    rw [hq] at h
    simp only [Sweep.leave, hp]
    exact h
  | some _ =>
    obtain ⟨scope, hp⟩ := Option.isSome_iff_exists.1 (hsome.trans (by rw [hq]; rfl))
    rw [hq] at h
    obtain ⟨frame, rest, hframes, -, -, hrest⟩ := h
    have hleave := hrest.mono hle
    revert hleave
    simp only [Sweep.leave, hp, Sweep.leaveScope, hframes]
    exact fun hleave => Fits.leaveBehind (s := { s with frames := rest, removed := _ }) hleave _

end Chainlift
