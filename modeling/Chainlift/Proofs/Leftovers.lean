import Chainlift.Proofs.Levels

/-!
# Temporaries that are left behind

A scope keeps the names that are left behind in it until it is left (`Sweep.Grows`). Then each of them is offered to the scope, and
those that find nothing there are left to the scope around it. So a name that an accepted rewrite leaves behind is offered to one
scope after the other, as long as these let it pass (`Sweep.Attempts.hasLeft`).

When the last uses of a variable are rewritten, neither the scope that owns it nor any scope in it uses the name any more when it is
left (`Sweep.Attempts.exists_owner`).
-/

namespace Chainlift

open Tree

namespace Sweep

/-! ## Names that are left behind -/

/-- Each frame keeps the names that have been left behind in it. -/
def Grows (s s' : Sweep) : Prop := List.Forall₂ (fun a b : Frame => a.consumed ⊆ b.consumed) s.frames s'.frames

/-- The name has been left behind in the innermost scope. -/
def HasLeft (s : Sweep) (name : String) : Prop := ∃ frame rest, s.frames = frame :: rest ∧ name ∈ frame.consumed

namespace Grows

theorem refl (s : Sweep) : s.Grows s := List.forall₂_same.2 fun _ _ => List.Subset.refl _

theorem trans {s s' s'' : Sweep} (h : s.Grows s') (h' : s'.Grows s'') : s.Grows s'' := by
  unfold Grows at h h' ⊢
  generalize s.frames = frames at h ⊢
  generalize s'.frames = frames' at h h'
  generalize s''.frames = frames'' at h' ⊢
  induction h generalizing frames'' with
  | nil => exact h'
  | cons hab _ ih =>
    cases h' with
    | cons hbc h' => exact .cons (List.Subset.trans hab hbc) (ih _ h')

theorem of_frames {s s' : Sweep} (h : s'.frames = s.frames) : s.Grows s' := by
  unfold Grows
  rw [h]
  exact List.forall₂_same.2 fun _ _ => List.Subset.refl _

theorem map (s : Sweep) (g : Frame → Frame) (hg : ∀ frame, (g frame).consumed = frame.consumed) :
    s.Grows { s with frames := s.frames.map g } :=
  List.forall₂_map_right_iff.2 (List.forall₂_same.2 fun frame _ => by rw [hg]; exact List.Subset.refl _)

theorem hasLeft {s s' : Sweep} (h : s.Grows s') {name : String} (hname : s.HasLeft name) : s'.HasLeft name := by
  obtain ⟨frame, rest, hframes, hmem⟩ := hname
  unfold Grows at h
  rw [hframes] at h
  generalize hs : s'.frames = frames at h
  cases h with
  | cons hsub _ => exact ⟨_, _, hs, hsub hmem⟩

theorem ne_nil {s s' : Sweep} (h : s.Grows s') (hs : s.frames ≠ []) : s'.frames ≠ [] := fun h' => by
  unfold Grows at h
  rw [h', List.forall₂_nil_right_iff] at h
  exact hs h

theorem leaveBehind (s : Sweep) (names : List String) : s.Grows (s.leaveBehind names) := by
  unfold Grows Sweep.leaveBehind
  split
  · exact refl s
  · rename_i hs
    rw [hs]
    exact .cons (List.subset_append_left _ _) (List.forall₂_same.2 fun _ _ => List.Subset.refl _)

end Grows

theorem hasLeft_leaveBehind {s : Sweep} (hs : s.frames ≠ []) {names : List String} {name : String} (h : name ∈ names) :
    (s.leaveBehind names).HasLeft name := by
  unfold Sweep.leaveBehind
  split
  · contradiction
  · exact ⟨_, _, rfl, List.mem_append_right _ h⟩

/-- An accepted rewrite leaves its temporaries behind. -/
theorem grows_accept {s s' : Sweep} {t u : Tree} {r : Replacement} {kind : RewriteKind} (h : s.accept t r kind = some (u, s')) :
    s.Grows s' ∧ (s.frames ≠ [] → ∀ name ∈ r.consumed, s'.HasLeft name) := by
  obtain ⟨-, -, rfl⟩ := accept_eq_some h
  have hmap := Grows.map s (fun f => { f with tally := f.tally.subtractAll (lostUses t r) }) fun _ => rfl
  refine ⟨(hmap.trans (.leaveBehind _ _)).trans (.of_frames (frames_count _ _)), fun hs name hname => ?_⟩
  exact (Grows.of_frames (frames_count _ _)).hasLeft (hasLeft_leaveBehind (hmap.ne_nil hs) hname)

theorem grows_tryRewrite {o : Options} {s s' : Sweep} {t u : Tree} (h : tryRewrite o t s = some (u, s')) : s.Grows s' := by
  obtain ⟨r, kind, -, haccept⟩ := accept_of_tryRewrite h
  exact (grows_accept haccept).1

/-- The names that have been left behind in the innermost scope. -/
def leftBehind (s : Sweep) : List String := (s.frames.head?.map (·.consumed)).getD []

theorem mem_leftBehind {s : Sweep} {name : String} (h : s.HasLeft name) : name ∈ s.leftBehind := by
  obtain ⟨frame, rest, hframes, hmem⟩ := h
  rw [leftBehind, hframes]
  exact hmem

/-- A node that is left takes its own frame away, if it has one, and leaves behind what that scope does not declare. It takes nothing
from the other frames. -/
theorem leave_cases {s s₁ : Sweep} {f : Form} {ps ps' : List Tree} (hlength : ps'.length = ps.length)
    (h : (s.enter f ps).Grows s₁) : (Scope.of? f ps' = none ∧ (s₁.leave f ps').2 = s₁ ∧ s.Grows s₁) ∨
      ∃ scope s₂, Scope.of? f ps' = some scope ∧ s.Grows s₂ ∧
        (s₁.leave f ps').2 = s₂.leaveBehind (clean scope s₁.leftBehind).escaped := by
  have hsome := Scope.isSome_of?_congr f hlength
  unfold Sweep.leave
  unfold Sweep.enter at h
  cases hp : Scope.of? f ps with
  | none =>
    rw [hp] at h hsome
    rw [Option.isSome_none, Option.isSome_eq_false_iff, Option.isNone_iff_eq_none] at hsome
    rw [hsome]
    exact .inl ⟨rfl, rfl, h⟩
  | some scope =>
    rw [hp] at h hsome
    obtain ⟨scope', hp'⟩ := Option.isSome_iff_exists.1 hsome
    rw [hp']
    unfold Grows at h
    unfold Sweep.leaveScope leftBehind
    generalize s₁.frames = frames at h
    cases h with
    | @cons _ frame _ rest _ hrest =>
      exact .inr ⟨scope', { s₁ with frames := rest, removed := s₁.removed + (clean scope' frame.consumed).removed }, rfl, hrest, rfl⟩

theorem grows_leave {s s₁ : Sweep} {f : Form} {ps ps' : List Tree} (hlength : ps'.length = ps.length)
    (h : (s.enter f ps).Grows s₁) : s.Grows (s₁.leave f ps').2 := by
  rcases leave_cases hlength h with ⟨-, heq, hgrows⟩ | ⟨scope, s₂, -, hgrows, heq⟩
  · rw [heq]
    exact hgrows
  · rw [heq]
    exact hgrows.trans (.leaveBehind _ _)

theorem advances_grows (o : Options) : Advances o Grows where
  refl := .refl
  trans := .trans
  rewrite := grows_tryRewrite
  leave := grows_leave

/-! ## From scope to scope -/

theorem enter_ne_nil {s : Sweep} (hs : s.frames ≠ []) {f : Form} {ps : List Tree} : (s.enter f ps).frames ≠ [] := by
  unfold enter
  split
  · exact List.cons_ne_nil _ _
  · exact hs

/-- A name passes through a node that is left, unless the scope of the node keeps it. -/
theorem hasLeft_leave {s s₁ : Sweep} (hs : s.frames ≠ []) {f : Form} {ps ps' : List Tree} (hlength : ps'.length = ps.length)
    (h : (s.enter f ps).Grows s₁) {name : String} (hname : s₁.HasLeft name)
    (hescapes : ∀ scope, Scope.of? f ps' = some scope → name ∈ (clean scope s₁.leftBehind).escaped) :
    (s₁.leave f ps').2.HasLeft name := by
  rcases leave_cases hlength h with ⟨-, heq, -⟩ | ⟨scope, s₂, hscope, hgrows, heq⟩
  · rwa [heq]
  · rw [heq]
    exact hasLeft_leaveBehind (hgrows.ne_nil hs) (hescapes scope hscope)

theorem hasLeft_finish {o : Options} {before : Sweep} {f : Form} {visited : List Tree × Sweep} {name : String}
    (h : (visited.2.leave f visited.1).2.HasLeft name) : (finish o before f visited).2.HasLeft name := by
  unfold finish
  simp only
  split
  · cases ht : tryRewrite o (visited.2.leave f visited.1).1 (visited.2.leave f visited.1).2 with
    | none => exact h
    | some x => exact (grows_tryRewrite ht).hasLeft h
  · exact h

namespace Level

/-- The names that have been left behind in the scope when it is about to be left. -/
def offered (l : Level) : List String := l.state.leftBehind

/-- The scope when it has been left. -/
def after (l : Level) : Scope := ⟨l.last.parameters, (l.state.leaveScope l.last).1⟩

/-- The names that the scope leaves to the one around it. -/
def escaped (l : Level) : List String := (clean l.last l.offered).escaped

/-- The scope when it is the name's turn to be removed from it. -/
def turn (l : Level) (name : String) : Scope := Sweep.turn l.last l.offered name

/-- The level lets a name go on: it opens no scope, or its scope neither declares the name nor uses it in its parameters. -/
def Passes (l : Level) (name : String) : Prop := l.IsScope → ¬ l.last.Declares name ∧ l.last.parameterUses name = 0

theorem after_statements {l : Level} {name : String} (h : l.state.HasLeft name) :
    l.after.statements = (clean l.last l.offered).statements := by
  obtain ⟨frame, rest, hframes, -⟩ := h
  rw [after, leaveScope, offered, leftBehind, hframes]
  rfl

/-- A scope that a name goes on from finds nothing to remove. -/
theorem Passes.escapes {l : Level} {name : String} (h : l.Passes name) (hl : l.IsScope)
    (hstatements : ∀ t ∈ l.last.statements, t.IsStatement) (hname : l.state.HasLeft name) :
    (l.turn name).removeUnused name = (.unbound, (l.turn name).statements) ∧ name ∈ l.escaped :=
  Sweep.escapes hstatements (mem_leftBehind hname) (h hl).1 (h hl).2

end Level

section

variable {o : Options} {name : String} {u v : Tree} {s s' : Sweep}

/-- What an accepted rewrite has left behind is offered to each scope on the way out, as long as it goes on. -/
theorem Passes.hasLeft {d : Nat} {t : Tree} {s₀ : Sweep} {ls : List Level} (h : Sweep.Passes o d t s₀ ls u s)
    (hls : ∀ l ∈ ls, ∃ ps, l.Continues ps) (hs₀ : s₀.frames ≠ []) (hr : tryRewrite o u s = some (v, s')) (hname : s'.HasLeft name) :
    ((∀ l ∈ ls, l.Passes name) → (visitWith o (again o d) t s₀).2.HasLeft name) ∧
      ∀ {inner l outer}, ls = inner ++ l :: outer → (∀ k ∈ inner, k.Passes name) → l.state.HasLeft name := by
  induction h with
  | @first d t s =>
    refine ⟨fun _ => ?_, fun heq => absurd heq (by simp)⟩
    obtain ⟨g, qs⟩ := t
    obtain ⟨f, ps⟩ := v
    rw [visitWith, hr]
    obtain ⟨hgrows, hlength⟩ := (advances_grows o).again d ps (s'.enter f ps)
    exact ((advances_grows o).finish hlength hgrows).hasLeft hname
  | @part d d' t p u f before before' after ps' s₀ s₁ s₂ s₃ s ls turned visited whole passes ih =>
    have hs₁ : s₁.frames ≠ [] := ((advances_grows o).turns turned).ne_nil hs₀
    have hs₂ : s₂.frames ≠ [] := by
      have hgrows := ((advances_grows o).visitAll d' before (s₁.enter f (before ++ p :: after))).1
      rw [visited] at hgrows
      exact hgrows.ne_nil (enter_ne_nil hs₁)
    obtain ⟨hinside, hsplit⟩ := ih (fun l hl => hls l (by simp [hl])) hs₂ hr
    obtain ⟨hgrows, hlength⟩ := (advances_grows o).visitAll d' (before ++ p :: after) (s₁.enter f (before ++ p :: after))
    rw [whole] at hgrows hlength
    have hparts : (∀ l ∈ ls, l.Passes name) → s₃.HasLeft name := by
      intro hpasses
      rw [visitAll_append, visited] at whole
      obtain ⟨-, rfl⟩ := Prod.mk.inj whole
      exact ((advances_grows o).visitAll d' after _).1.hasLeft (hinside hpasses)
    constructor
    · intro hpasses
      rw [turned.visit, whole]
      have hlast := hpasses _ (List.mem_append_right _ List.mem_cons_self)
      obtain ⟨qs, hcontinues⟩ := hls _ (List.mem_append_right _ List.mem_cons_self)
      have hleft := hparts fun l hl => hpasses l (by simp [hl])
      refine hasLeft_finish (hasLeft_leave hs₁ hlength hgrows hleft fun scope hscope => ?_)
      have hl : (Scope.ownedBy f (before ++ p :: after)).isSome = true := by
        rw [Scope.ownedBy, Option.isSome_map, ← Scope.isSome_of?_congr f hlength, hscope]
        rfl
      have hescapes := (hlast.escapes hl (hcontinues.isStatement_last hl) hleft).2
      rw [Level.escaped, Level.last, Scope.ofNode, hscope] at hescapes
      exact hescapes
    · intro inner l outer heq hinner
      rcases eq_or_of_append_singleton heq with ⟨rfl, rfl, -⟩ | ⟨outer', -, hsame⟩
      · exact hparts hinner
      · exact hsplit hsame hinner
  | last turned visited rewritten =>
    refine ⟨fun _ => ?_, fun heq => absurd heq (by simp)⟩
    rw [turned.visit, visited, finish]
    simp only [rewritten, if_true, hr]
    exact hname

theorem Attempts.hasLeft {ss : List Tree} {ls : List Level} (h : Attempts o ss ls u s) (hls : ∀ l ∈ ls, ∃ ps, l.Continues ps)
    (hr : tryRewrite o u s = some (v, s')) (hname : s'.HasLeft name) {inner outer : List Level} {l : Level}
    (heq : ls = inner ++ l :: outer) (hinner : ∀ k ∈ inner, k.Passes name) : l.state.HasLeft name := by
  cases h with
  | @mk p _ before before' after _ s₂ _ _ _ visited whole passes =>
    have hs₂ : s₂.frames ≠ [] := by
      have hgrows := ((advances_grows o).visitAll (sizeAll (before ++ p :: after)) before (entered (before ++ p :: after))).1
      rw [visited] at hgrows
      exact hgrows.ne_nil (List.cons_ne_nil _ _)
    obtain ⟨hinside, hsplit⟩ := passes.hasLeft (fun l hl => hls l (by simp [hl])) hs₂ hr hname
    rcases eq_or_of_append_singleton heq with ⟨rfl, rfl, -⟩ | ⟨outer', -, hsame⟩
    · rw [visitAll_append, visited] at whole
      obtain ⟨-, rfl⟩ := Prod.mk.inj whole
      exact ((advances_grows o).visitAll _ after _).1.hasLeft (hinside hinner)
    · exact hsplit hsame hinner

end

end Sweep

/-! ## Uses that are gone -/

theorem Tree.scopeUses_le_sum (f : Form) (name : String) (i : Nat) (ts : List Tree) :
    scopeUses f name i ts ≤ (ts.map (·.uses name)).sum := by
  induction ts generalizing i with
  | nil => exact Nat.le_refl _
  | cons t ts ih =>
    rw [scopeUses, List.map_cons, List.sum_cons]
    refine Nat.add_le_add ?_ (ih _)
    split
    · exact Nat.le_refl _
    · exact Nat.zero_le _

theorem Tree.scopeUses_mono {name : String} {ps qs : List Tree} (h : List.Forall₂ (fun p q => q.uses name ≤ p.uses name) ps qs)
    (f : Form) (i : Nat) : scopeUses f name i qs ≤ scopeUses f name i ps := by
  induction h generalizing i with
  | nil => exact Nat.le_refl _
  | cons h _ ih =>
    rw [scopeUses, scopeUses]
    refine Nat.add_le_add ?_ (ih _)
    split
    · exact h
    · exact Nat.le_refl _

namespace Enclosure

/-- What an expression loses is lost to the tree around it. -/
theorem uses_fillAll_change (ls : List Enclosure) (t u : Tree) (name : String) :
    (fillAll ls u).uses name + t.uses name = (fillAll ls t).uses name + u.uses name := by
  induction ls generalizing t u with
  | nil => exact Nat.add_comm _ _
  | cons l ls ih =>
    have hfill : (l.fill u).uses name + t.uses name = (l.fill t).uses name + u.uses name := by
      simp only [fill, uses_node, parts, List.map_append, List.sum_append, List.map_cons, List.sum_cons]
      omega
    have hfilled := ih (l.fill t) (l.fill u)
    rw [fillAll, fillAll]
    omega

/-- The uses in the scope of a node are in all nodes around it. -/
theorem scopeUses_le_fillAll (name : String) (inner : List Enclosure) (l : Enclosure) (outer : List Enclosure) (t : Tree) :
    scopeUses l.form name 0 (l.parts (fillAll inner t)) ≤ (fillAll (inner ++ l :: outer) t).uses name := by
  rw [fillAll_append, fillAll]
  refine Nat.le_trans ?_ (uses_le_fillAll name outer _)
  rw [fill, uses_node]
  exact (scopeUses_le_sum ..).trans (Nat.le_add_left _ _)

/-- A scope whose uses of the name stand all in the expression has none when something without uses is in its place, and the nodes in
it have none either. -/
theorem scopeUses_eq_zero {name : String} {inner : List Enclosure} {l : Enclosure} {t u : Tree}
    (hl : l.form.encloses l.before.length = true) (huses : scopeUses l.form name 0 (l.parts (fillAll inner t)) ≤ t.uses name)
    (hu : u.uses name = 0) : scopeUses l.form name 0 (l.parts (fillAll inner u)) = 0 ∧ (fillAll inner u).uses name = 0 := by
  have hchange := l.scopeUses_change (fillAll inner t) (fillAll inner u) name hl
  have hfilled := uses_fillAll_change inner t u name
  have hinside : (fillAll inner u).uses name ≤ scopeUses l.form name 0 (l.parts (fillAll inner u)) :=
    uses_le_scopeUses name (i := l.before.length) (by simp [parts]) 0 (by rwa [Nat.zero_add])
  omega

end Enclosure

namespace Sweep

variable {o : Options} {ss : List Tree} {ls : List Level} {u v : Tree} {s s' : Sweep}

/-- When the last uses of a name in the scope that owns it are rewritten, that scope and those in it have no use of the name when they
are about to be left. -/
theorem Attempts.exists_owner (h : Attempts o ss ls u s) (hss : ∀ t ∈ ss, t.IsRegular) (hr : tryRewrite o u s = some (v, s'))
    {name : String} (hcount : v.assignmentCount name < u.assignmentCount name) (hv : v.uses name = 0) :
    ∃ inner k outer, ls = inner ++ k :: outer ∧ k.around.Owns name ∧
      ∀ l ∈ inner ++ [k], scopeUses l.around.form name 0 l.parts = 0 := by
  obtain ⟨hcovered, hfits⟩ := h.reaches.fits hss (isBranching_of_tryRewrite hr)
  obtain ⟨-, frame, hframe, htally⟩ := dropped_of_tryRewrite hr hcount
  obtain ⟨around, e, beyond, haround, howns, -, huses⟩ := hfits.owner hframe
  obtain ⟨inner, rest, rfl, rfl, hrest⟩ := List.map_eq_append_iff.1 haround
  obtain ⟨k, outer, rfl, rfl, rfl⟩ := List.map_eq_cons_iff.1 hrest
  have hencloses : k.around.form.encloses k.around.before.length = true := by
    obtain ⟨names, hnames, -⟩ := howns
    exact hcovered k.around (by simp) (by rw [hnames]; rfl)
  obtain ⟨hscope, hinside⟩ := Enclosure.scopeUses_eq_zero hencloses (htally ▸ huses) hv
  -- What becomes of the parts has no more uses than they have with the replacement in its place.
  have hleads := (preserves_uses o name).leads_rewritten hr
  refine ⟨inner, k, outer, rfl, howns, fun l hl => Nat.le_zero.1 ?_⟩
  rcases List.mem_append.1 hl with hl | hl
  · obtain ⟨inner', outer', rfl⟩ := List.append_of_mem hl
    have hparts := (preserves_uses o name).attempts h hleads (List.append_assoc inner' (l :: outer') (k :: outer))
    refine (scopeUses_mono hparts _ 0).trans (Nat.le_trans ?_ (Nat.le_of_eq hinside))
    rw [List.map_append, List.map_cons]
    exact Enclosure.scopeUses_le_fillAll ..
  · obtain rfl := List.mem_singleton.1 hl
    exact (scopeUses_mono ((preserves_uses o name).attempts h hleads rfl) _ 0).trans (Nat.le_of_eq hscope)

end Sweep

end Chainlift
