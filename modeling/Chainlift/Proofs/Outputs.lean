import Chainlift.Command.Run
import Chainlift.File.Tree
import Mathlib

/-!
# Outputs in a directory

Several inputs go to a directory, each under its own file name, and one after another. Where file names differ no output touches
another one (`FileTree.read_write_other`), and an output keeps nobody from writing the next ones (`FileTree.CanWrite.of_write`).
So a run over inputs that can be read succeeds when the directory can be made and written, and what it leaves under a file name is
the code of the last input of that name (`Request.unminify_into`). An earlier input of the same name has lost its output, and the
run succeeds nonetheless (`Request.unminify_into_false`).
-/

namespace Chainlift

namespace Path

/-! ## Names in a directory -/

/-- One component that leads from a directory to something in it. -/
structure IsName (name : String) : Prop where
  noSlash : '/' ∉ name.toList
  ne_empty : name ≠ ""
  ne_dot : name ≠ "."
  ne_up : name ≠ ".."

theorem not_mem_of_mem_splitOn {c : Char} {cs piece : List Char} (h : piece ∈ cs.splitOn c) : c ∉ piece := by
  induction cs generalizing piece with
  | nil =>
    rw [List.splitOn_nil, List.mem_singleton] at h
    simp [h]
  | cons d cs ih =>
    rw [List.splitOn_cons_eq_if_modifyHead] at h
    split at h
    · rcases List.mem_cons.1 h with rfl | h
      · exact List.not_mem_nil
      · exact ih h
    · rename_i hd
      obtain ⟨first, rest, heq⟩ := List.exists_cons_of_ne_nil (List.splitOn_ne_nil c cs)
      rw [heq, List.modifyHead_cons] at h
      rw [heq] at ih
      rcases List.mem_cons.1 h with rfl | h
      · have hne : c ≠ d := fun e => hd (by simp [e])
        simpa [hne] using ih (List.mem_cons_self ..)
      · exact ih (List.mem_cons_of_mem _ h)

theorem isName_of_fileName? {path name : String} (h : fileName? path = some name) : IsName name := by
  obtain ⟨hlast, hup⟩ := Option.filter_eq_some_iff.1 h
  obtain ⟨hmem, hkept⟩ := List.mem_filter.1 (List.mem_of_getLast? hlast)
  obtain ⟨piece, hpiece, rfl⟩ := List.mem_map.1 hmem
  simp only [Bool.and_eq_true, bne_iff_ne] at hkept
  refine ⟨?_, hkept.1, hkept.2, by simpa using hup⟩
  rw [String.toList_ofList]
  exact not_mem_of_mem_splitOn hpiece

theorem IsName.components {name : String} (h : IsName name) : components name = [name] := by
  rw [Path.components, List.splitOn_eq_singleton h.noSlash]
  simp [h.ne_empty, h.ne_dot]

/-- The path of a name in a directory leads through the directory. -/
theorem components_join (directory : String) {name : String} (h : IsName name) :
    components (join directory name) = components directory ++ [name] := by
  have hname : (name.toList.splitOn '/').map String.ofList = [name] := by
    rw [List.splitOn_eq_singleton h.noSlash]
    simp
  have hkept : ([name].filter fun c => c != "" && c != ".") = [name] := by simp [h.ne_empty, h.ne_dot]
  have hslash : ∀ cs : List Char, components (String.ofList (cs ++ '/' :: name.toList)) =
      components (String.ofList cs) ++ [name] := by
    intro cs
    rw [components, components, String.toList_ofList, String.toList_ofList, List.splitOn_append_cons_self, List.map_append,
      List.filter_append, hname, hkept]
  unfold join
  split
  · rename_i hd
    rw [h.components, eq_of_beq hd]
    rfl
  · split
    · rename_i hd
      rw [String.endsWith_char_eq_getLast?, beq_iff_eq] at hd
      obtain ⟨cs, hcs⟩ := List.getLast?_eq_some_iff.1 hd
      have hdirectory : components directory = components (String.ofList cs) := by
        rw [components, components, String.toList_ofList, hcs, List.splitOn_append_cons_self, List.map_append, List.filter_append]
        simp
      have hjoin : directory ++ name = String.ofList (cs ++ '/' :: name.toList) := by
        rw [← String.toList_inj, String.toList_append, hcs, String.toList_ofList]
        simp
      rw [hjoin, hslash, hdirectory]
    · have hjoin : directory ++ "/" ++ name = String.ofList (directory.toList ++ '/' :: name.toList) := by
        rw [← String.toList_inj, String.toList_append, String.toList_append, String.toList_ofList]
        simp
      rw [hjoin, hslash, String.ofList_toList]

end Path

namespace FileTree

/-! ## One write -/

theorem lookup_filter (entries : List (Location × Entry)) (l l' : Location) :
    (entries.filter fun p => p.1 != l).lookup l' = if l' = l then none else entries.lookup l' := by
  induction entries with
  | nil => simp
  | cons p entries ih =>
    obtain ⟨k, e⟩ := p
    by_cases hk : k = l
    · subst hk
      rw [List.filter_cons_of_neg (by simp), ih, List.lookup_cons]
      by_cases hl : l' = k
      · simp [hl]
      · simp [hl, beq_eq_false_iff_ne.2 hl]
    · rw [List.filter_cons_of_pos (by simpa using hk), List.lookup_cons, List.lookup_cons, ih]
      by_cases hl : l' = k
      · subst hl
        simp [hk]
      · simp [beq_eq_false_iff_ne.2 hl]

theorem find?_put {t : FileTree} {l : Location} (hl : l ≠ []) (e : Entry) (l' : Location) :
    (t.put l e).find? l' = if l' = l then some e else t.find? l' := by
  unfold find? put
  cases l' with
  | nil => simp [Ne.symm hl]
  | cons n l' =>
    simp only [List.isEmpty_cons, Bool.false_eq_true, if_false]
    rw [List.lookup_append, lookup_filter]
    by_cases h : n :: l' = l
    · simp [h]
    · simp [h, List.lookup_cons, beq_eq_false_iff_ne.2 h]

/-- The same locations are directories. -/
def SameDirectories (t t' : FileTree) : Prop := ∀ l, t.find? l = some .directory ↔ t'.find? l = some .directory

theorem SameDirectories.trans {t t' t'' : FileTree} (h : t.SameDirectories t') (h' : t'.SameDirectories t'') :
    t.SameDirectories t'' :=
  fun l => (h l).trans (h' l)

/-- A path that can be followed can be followed wherever the same locations are directories. -/
theorem SameDirectories.follow {t t' : FileTree} (h : t.SameDirectories t') {here : Location} {cs : List String} {spot : Spot}
    (hf : t.follow here cs = .ok spot) : t'.follow here cs = .ok spot := by
  fun_induction FileTree.follow t here cs with
  | case1 => exact hf
  | case2 here c cs hup hempty hlast =>
    rw [FileTree.follow, if_pos hup, if_pos hempty, if_pos hlast]
    exact hf
  | case3 => exact absurd hf (by simp)
  | case4 here c cs hup hempty ih =>
    rw [FileTree.follow, if_pos hup, if_neg hempty]
    exact ih hf
  | case5 here c cs hup hlast =>
    rw [FileTree.follow, if_neg hup, if_pos hlast]
    exact hf
  | case6 here c cs hup hlast hfound ih =>
    rw [FileTree.follow, if_neg hup, if_neg hlast, (h _).1 hfound]
    exact ih hf
  | case7 => exact absurd hf (by simp)
  | case8 => exact absurd hf (by simp)

theorem SameDirectories.locate {t t' : FileTree} (h : t.SameDirectories t') {path : String} {spot : Spot}
    (hl : t.locate path = .ok spot) : t'.locate path = .ok spot := by
  unfold FileTree.locate at hl ⊢
  split at hl
  · exact absurd hl (by simp)
  · rename_i hpath
    rw [if_neg hpath]
    exact h.follow hl

/-- What a name in a directory leads to has this name. -/
theorem follow_append_name {t : FileTree} {name : String} (hname : name ≠ "..") {cs : List String} {here : Location} {spot : Spot}
    (h : t.follow here (cs ++ [name]) = .ok spot) : ∃ l, spot = .inside (l ++ [name]) := by
  induction cs generalizing here with
  | nil =>
    rw [List.nil_append, follow, if_neg (by simpa using hname)] at h
    exact ⟨here, (Except.ok.inj h).symm⟩
  | cons c cs ih =>
    rw [List.cons_append, follow] at h
    split at h
    · split at h
      · simp at h
      · exact ih h
    · rw [if_neg (by simp)] at h
      split at h
      · exact ih h
      · exact absurd h (by simp)
      · exact absurd h (by simp)

theorem locate_join {t : FileTree} {directory name : String} (hname : Path.IsName name) {spot : Spot}
    (h : t.locate (Path.join directory name) = .ok spot) : ∃ l, spot = .inside (l ++ [name]) := by
  unfold locate at h
  split at h
  · exact absurd h (by simp)
  · rw [Path.components_join directory hname] at h
    exact follow_append_name hname.ne_up h

/-- A write puts a file where the path leads, unless a directory is there or the path is one of a directory. -/
theorem write_eq_ok {t t' : FileTree} {path text : String} : t.write path text = .ok t' ↔
    ∃ l, t.locate path = .ok (.inside l) ∧ t.find? l ≠ some .directory ∧ namesDirectory path = false ∧
      t' = t.put l (.file text.toUTF8) := by
  unfold write
  cases hlocate : t.locate path with
  | error e => simp [bind, Except.bind]
  | ok spot =>
    cases spot with
    | above => simp [bind, Except.bind]
    | inside l =>
      simp only [bind, Except.bind, Except.ok.injEq, Spot.inside.injEq, exists_eq_left']
      cases hfound : t.find? l with
      | none => cases namesDirectory path <;> simp [eq_comm]
      | some e =>
        cases e with
        | directory => simp
        | file => cases namesDirectory path <;> simp [eq_comm]

theorem ne_nil_of_not_directory {t : FileTree} {l : Location} (h : t.find? l ≠ some .directory) : l ≠ [] := by
  rintro rfl
  exact h rfl

theorem sameDirectories_of_write {t t' : FileTree} {path text : String} (h : t.write path text = .ok t') :
    t.SameDirectories t' := by
  obtain ⟨l, -, hfree, -, rfl⟩ := write_eq_ok.1 h
  intro l'
  rw [find?_put (ne_nil_of_not_directory hfree)]
  split
  · rename_i heq
    subst heq
    simp [hfree]
  · exact Iff.rfl

/-- A file that can be read is where its path leads. -/
theorem read_eq_ok {t : FileTree} {path text : String} : t.read path = .ok text ↔
    ∃ l content, t.locate path = .ok (.inside l) ∧ t.find? l = some (.file content) ∧ namesDirectory path = false ∧
      String.fromUTF8? content = some text := by
  unfold read
  cases hlocate : t.locate path with
  | error e => simp [bind, Except.bind]
  | ok spot =>
    cases spot with
    | above => simp [bind, Except.bind]
    | inside l =>
      simp only [bind, Except.bind, Except.ok.injEq, Spot.inside.injEq, exists_and_left, exists_eq_left']
      cases hfound : t.find? l with
      | none => simp
      | some e =>
        cases e with
        | directory => simp
        | file content =>
          cases namesDirectory path with
          | true => simp
          | false => cases htext : String.fromUTF8? content <;> simp [htext]

theorem fromUTF8?_toUTF8 (text : String) : String.fromUTF8? text.toUTF8 = some text := by
  simp only [String.fromUTF8?, String.toUTF8_eq_toByteArray, dif_pos text.isValidUTF8]
  rfl

/-- What has been written is read. -/
theorem read_write_self {t t' : FileTree} {path text : String} (h : t.write path text = .ok t') : t'.read path = .ok text := by
  obtain ⟨l, hlocate, hfree, hpath, ht⟩ := write_eq_ok.1 h
  refine read_eq_ok.2 ⟨l, text.toUTF8, (sameDirectories_of_write h).locate hlocate, ?_, hpath, fromUTF8?_toUTF8 text⟩
  rw [ht, find?_put (ne_nil_of_not_directory hfree), if_pos rfl]

/-- A write under another name of the directory leaves a file as it is. -/
theorem read_write_other {t t' : FileTree} {directory name name' text text' : String} (hname : Path.IsName name)
    (hname' : Path.IsName name') (hne : name ≠ name') (h : t.write (Path.join directory name) text = .ok t')
    (hread : t.read (Path.join directory name') = .ok text') : t'.read (Path.join directory name') = .ok text' := by
  obtain ⟨l, hlocate, hfree, -, ht⟩ := write_eq_ok.1 h
  obtain ⟨l', content, hlocate', hfound, hpath', htext⟩ := read_eq_ok.1 hread
  refine read_eq_ok.2 ⟨l', content, (sameDirectories_of_write h).locate hlocate', ?_, hpath', htext⟩
  obtain ⟨k, hk⟩ := locate_join hname hlocate
  obtain ⟨k', hk'⟩ := locate_join hname' hlocate'
  obtain rfl := Spot.inside.inj hk
  obtain rfl := Spot.inside.inj hk'
  rw [ht, find?_put (ne_nil_of_not_directory hfree), if_neg, hfound]
  intro heq
  exact hne (List.cons.inj (List.append_inj' heq rfl).2).1.symm

/-- A text can be made the content of a file. -/
def CanWrite (t : FileTree) (path : String) : Prop := ∀ text, ∃ t', t.write path text = .ok t'

/-- After a write the same files can be written. -/
theorem CanWrite.of_write {t t' : FileTree} {path path' text : String} (h : t.write path text = .ok t') (hp : t.CanWrite path') :
    t'.CanWrite path' := by
  intro text'
  obtain ⟨_, h'⟩ := hp text'
  obtain ⟨l, hlocate, hfree, hpath, -⟩ := write_eq_ok.1 h'
  have hsame := sameDirectories_of_write h
  exact ⟨_, write_eq_ok.2 ⟨l, hsame.locate hlocate, mt (hsame l).2 hfree, hpath, rfl⟩⟩

/-- What lifting a file of the tree gives. -/
def lift (t : FileTree) (o : Options) (path : String) : Except Error Document := do
  let text ← Request.atPath path (t.read path)
  let type ← SourceType.ofPath path
  Document.lift o type text

end FileTree

namespace Request

open FileTree

variable {o : Options} {directory : String} {t t' : FileTree}

/-! ## Steps -/

/-- A step that goes on in the tree that the first one has left. -/
theorem bind_apply {α β : Type} (x : ExceptT Error (StateM FileTree) α) (f : α → ExceptT Error (StateM FileTree) β) (t : FileTree) :
    (x >>= f) t = match x t with
      | (.ok a, t') => f a t'
      | (.error e, t') => (.error e, t') := by
  show StateT.bind x (ExceptT.bindCont f) t = _
  unfold StateT.bind
  cases x t with
  | mk result t' => cases result <;> rfl

theorem pure_apply {α : Type} (a : α) (t : FileTree) : (pure a : ExceptT Error (StateM FileTree) α) t = (.ok a, t) := rfl

/-- An operation on files alone. -/
theorem lift_apply {α : Type} (x : StateM FileTree α) (t : FileTree) :
    (liftM x : ExceptT Error (StateM FileTree) α) t = (.ok (x t).1, (x t).2) := rfl

/-- A result that needs no files. -/
theorem except_apply {α : Type} (x : Except Error α) (t : FileTree) :
    (liftM x : ExceptT Error (StateM FileTree) α) t = (x, t) := by
  cases x <;> rfl

/-! ## Reading -/

/-- A document and the path of its input. -/
def labelled (t : FileTree) (o : Options) (path : String) : Except Error (String × Document) :=
  (t.lift o path).map fun d => (path, d)

/-- Lifting a file changes nothing in the tree. -/
theorem liftFile_apply (o : Options) (path : String) (t : FileTree) :
    liftFile FileTree.system o path t = (labelled t o path, t) := by
  unfold liftFile labelled FileTree.lift
  simp only [bind_apply, lift_apply, except_apply, FileTree.system]
  cases atPath path (t.read path) with
  | error e => rfl
  | ok text =>
    cases SourceType.ofPath path with
    | error e => rfl
    | ok type => cases h : Document.lift o type text <;> simp [bind, Except.bind, h, pure_apply, Except.map]

theorem liftFiles_apply (r : Request) (t : FileTree) :
    r.liftFiles FileTree.system t = (r.inputs.mapM (labelled t r.options), t) := by
  unfold liftFiles
  induction r.inputs with
  | nil => rfl
  | cons input inputs ih =>
    rw [List.mapM_cons, List.mapM_cons, bind_apply, liftFile_apply]
    cases labelled t r.options input with
    | error e => rfl
    | ok p =>
      simp only [bind_apply, ih]
      cases inputs.mapM (labelled t r.options) <;> rfl

/-- The documents are those of the inputs, one for each and in their order. -/
theorem mapM_labelled_eq_ok {inputs : List String} {documents : List (String × Document)} :
    inputs.mapM (labelled t o) = .ok documents ↔
      List.Forall₂ (fun input p => p.1 = input ∧ t.lift o input = .ok p.2) inputs documents := by
  induction inputs generalizing documents with
  | nil =>
    rw [List.mapM_nil, List.forall₂_nil_left_iff]
    exact ⟨fun h => (Except.ok.inj h).symm, fun h => h ▸ rfl⟩
  | cons input inputs ih =>
    rw [List.mapM_cons, List.forall₂_cons_left_iff, labelled]
    cases t.lift o input with
    | error e => simp [bind, Except.bind, Except.map]
    | ok d =>
      cases h : inputs.mapM (labelled t o) with
      | error e =>
        simp only [bind, Except.bind, Except.map, reduceCtorEq, false_iff]
        rintro ⟨p, documents, -, hrest, -⟩
        exact absurd (h.symm.trans (ih.2 hrest)) (by simp)
      | ok rest =>
        simp only [bind, Except.bind, Except.map, pure, Except.pure, Except.ok.injEq]
        constructor
        · rintro rfl
          exact ⟨_, _, ⟨rfl, rfl⟩, ih.1 h, rfl⟩
        · rintro ⟨⟨_, _⟩, documents, ⟨rfl, rfl⟩, hrest, rfl⟩
          rw [Except.ok.inj (h.symm.trans (ih.2 hrest))]

theorem exists_documents {inputs : List String} (h : ∀ input ∈ inputs, ∃ d, t.lift o input = .ok d) :
    ∃ documents, inputs.mapM (labelled t o) = .ok documents := by
  induction inputs with
  | nil => exact ⟨[], rfl⟩
  | cons input inputs ih =>
    simp only [List.mem_cons, forall_eq_or_imp] at h
    obtain ⟨⟨d, hd⟩, hrest⟩ := h
    obtain ⟨documents, hdocuments⟩ := ih hrest
    exact ⟨(input, d) :: documents, mapM_labelled_eq_ok.2 (.cons ⟨rfl, hd⟩ (mapM_labelled_eq_ok.1 hdocuments))⟩

/-- Every document is that of an input, and every input has one. -/
theorem mem_documents {inputs : List String} {documents : List (String × Document)}
    (h : List.Forall₂ (fun input p => p.1 = input ∧ t.lift o input = .ok p.2) inputs documents) :
    (∀ p ∈ documents, p.1 ∈ inputs ∧ t.lift o p.1 = .ok p.2) ∧ ∀ input ∈ inputs, ∃ d, t.lift o input = .ok d := by
  induction h with
  | nil => simp
  | cons hp _ ih =>
    obtain ⟨rfl, hlift⟩ := hp
    rw [List.forall_mem_cons, List.forall_mem_cons]
    refine ⟨⟨⟨List.mem_cons_self .., hlift⟩, fun p hp => ?_⟩, ⟨_, hlift⟩, ih.2⟩
    exact ⟨List.mem_cons_of_mem _ (ih.1 p hp).1, (ih.1 p hp).2⟩

/-! ## Writing -/

/-- The last of the things whose path has that file name. -/
def lastNamed? {α : Type} (path : α → String) (name : String) : List α → Option α
  | [] => none
  | a :: as => (lastNamed? path name as).or (if Path.fileName? (path a) = some name then some a else none)

theorem exists_lastNamed {α : Type} {path : α → String} {name : String} {as : List α} {a : α} (ha : a ∈ as)
    (hname : Path.fileName? (path a) = some name) : ∃ last, lastNamed? path name as = some last := by
  induction as with
  | nil => exact absurd ha List.not_mem_nil
  | cons b as ih =>
    rw [lastNamed?]
    rcases List.mem_cons.1 ha with rfl | ha
    · rw [if_pos hname]
      cases lastNamed? path name as <;> simp
    · obtain ⟨last, hlast⟩ := ih ha
      exact ⟨last, by rw [hlast, Option.some_or]⟩

/-- In two lists whose members have the same paths the last ones of a name belong together. -/
theorem lastNamed?_rel {α β : Type} {R : α → β → Prop} {path : α → String} {path' : β → String}
    (hR : ∀ a b, R a b → path a = path' b) {as : List α} {bs : List β} (h : List.Forall₂ R as bs) (name : String) :
    Option.Rel R (lastNamed? path name as) (lastNamed? path' name bs) := by
  induction h with
  | nil => exact .none
  | @cons a b as bs hab _ ih =>
    rw [lastNamed?, lastNamed?, hR a b hab]
    generalize lastNamed? path name as = last, lastNamed? path' name bs = last' at ih
    cases ih with
    | some h => exact .some h
    | none =>
      split
      · exact .some hab
      · exact .none

/-- Write one document into a directory. -/
def writeOne (directory : String) (p : String × Document) : ExceptT Error (StateM FileTree) Unit :=
  match Path.fileName? p.1 with
  | some name => writeFile FileTree.system (Path.join directory name) p.2.code
  | none => throw (.noFileName p.1)

theorem writeInto_apply (directory : String) (documents : List (String × Document)) (t : FileTree) :
    writeInto FileTree.system directory documents t = match t.createDirectories directory with
      | .ok t' => documents.forM (writeOne directory) t'
      | .error e => (.error (.io e.message), t) := by
  unfold writeInto
  simp only [bind_apply, lift_apply, except_apply, FileTree.system, change]
  cases t.createDirectories directory <;> rfl

theorem writeOne_apply {p : String × Document} {name : String} (hp : Path.fileName? p.1 = some name) (t : FileTree) :
    writeOne directory p t = match t.write (Path.join directory name) p.2.code with
      | .ok t' => (.ok (), t')
      | .error e => (.error (.io (Path.join directory name ++ ": " ++ e.message)), t) := by
  unfold writeOne writeFile
  simp only [hp, bind_apply, lift_apply, except_apply, FileTree.system, change]
  cases t.write (Path.join directory name) p.2.code <;> rfl

/-- A document that has been written is in a file under its name. -/
theorem write_of_writeOne {p : String × Document} (h : writeOne directory p t = (.ok (), t')) :
    ∃ name, Path.fileName? p.1 = some name ∧ t.write (Path.join directory name) p.2.code = .ok t' := by
  cases hname : Path.fileName? p.1 with
  | none =>
    unfold writeOne at h
    rw [hname] at h
    exact absurd (congrArg Prod.fst h) (by simp [throw, throwThe, MonadExceptOf.throw, ExceptT.mk, pure, StateT.pure])
  | some name =>
    rw [writeOne_apply hname] at h
    cases hwrite : t.write (Path.join directory name) p.2.code with
    | error e =>
      rw [hwrite] at h
      exact absurd (congrArg Prod.fst h) (by simp)
    | ok _ =>
      rw [hwrite] at h
      exact ⟨name, rfl, hwrite.trans (congrArg Except.ok (Prod.mk.inj h).2)⟩

theorem forM_cons_apply (p : String × Document) (documents : List (String × Document)) (t : FileTree) :
    (p :: documents).forM (writeOne directory) t = match writeOne directory p t with
      | (.ok _, t') => documents.forM (writeOne directory) t'
      | (.error e, t') => (.error e, t') := by
  rw [List.forM, bind_apply]
  cases writeOne directory p t with
  | mk result t' => cases result <;> rfl

/-- The first of the documents is written, and the others after it. -/
theorem forM_cons_ok {p : String × Document} {documents : List (String × Document)}
    (h : (p :: documents).forM (writeOne directory) t = (.ok (), t')) :
    ∃ name t₁, Path.fileName? p.1 = some name ∧ t.write (Path.join directory name) p.2.code = .ok t₁ ∧
      documents.forM (writeOne directory) t₁ = (.ok (), t') := by
  rw [forM_cons_apply] at h
  cases hp : writeOne directory p t with
  | mk result t₁ =>
    rw [hp] at h
    cases result with
    | error e => exact absurd (congrArg Prod.fst h) (by simp)
    | ok =>
      obtain ⟨name, hname, hwrite⟩ := write_of_writeOne hp
      exact ⟨name, t₁, hname, hwrite, h⟩

/-- Documents that have other names leave a file of the directory as it is. -/
theorem read_of_unnamed {documents : List (String × Document)} (h : documents.forM (writeOne directory) t = (.ok (), t'))
    {name text : String} (hname : Path.IsName name) (hnone : lastNamed? Prod.fst name documents = none)
    (hread : t.read (Path.join directory name) = .ok text) : t'.read (Path.join directory name) = .ok text := by
  induction documents generalizing t with
  | nil => exact (Prod.mk.inj h).2 ▸ hread
  | cons p documents ih =>
    obtain ⟨name', t₁, hname', hwrite, hrest⟩ := forM_cons_ok h
    rw [lastNamed?, Option.or_eq_none_iff, hname'] at hnone
    have hne : name' ≠ name := by
      rintro rfl
      simp at hnone
    exact ih hrest hnone.1 (read_write_other (Path.isName_of_fileName? hname') hname hne hwrite hread)

/-- Under each name the last document of that name is read. -/
theorem read_of_lastNamed {documents : List (String × Document)} (h : documents.forM (writeOne directory) t = (.ok (), t'))
    {name : String} {p : String × Document} (hlast : lastNamed? Prod.fst name documents = some p) :
    t'.read (Path.join directory name) = .ok p.2.code := by
  induction documents generalizing t with
  | nil => exact absurd hlast (by simp [lastNamed?])
  | cons p documents ih =>
    obtain ⟨name', t₁, hname', hwrite, hrest⟩ := forM_cons_ok h
    rw [lastNamed?, Option.or_eq_some_iff] at hlast
    rcases hlast with hlast | ⟨hnone, hp⟩
    · exact ih hrest hlast
    · rw [hname'] at hp
      split at hp
      · rename_i heq
        obtain rfl := Option.some.inj heq
        obtain rfl := Option.some.inj hp
        exact read_of_unnamed hrest (Path.isName_of_fileName? hname') hnone (read_write_self hwrite)
      · exact absurd hp (by simp)

/-- Where every file can be written, all documents are. -/
theorem exists_of_canWrite {documents : List (String × Document)}
    (h : ∀ p ∈ documents, ∃ name, Path.fileName? p.1 = some name ∧ t.CanWrite (Path.join directory name)) :
    ∃ t', documents.forM (writeOne directory) t = (.ok (), t') := by
  induction documents generalizing t with
  | nil => exact ⟨t, rfl⟩
  | cons p documents ih =>
    simp only [List.mem_cons, forall_eq_or_imp] at h
    obtain ⟨⟨name, hname, hp⟩, hrest⟩ := h
    obtain ⟨t₁, hwrite⟩ := hp p.2.code
    have hone : writeOne directory p t = (.ok (), t₁) := by rw [writeOne_apply hname, hwrite]
    obtain ⟨t', ht'⟩ := ih fun q hq => by
      obtain ⟨name', hname', hq⟩ := hrest q hq
      exact ⟨name', hname', hq.of_write hwrite⟩
    exact ⟨t', by rw [forM_cons_apply, hone]; exact ht'⟩

/-! ## A whole run -/

/-- With several inputs and a directory a run lifts the inputs, makes the directory and writes the documents. -/
theorem unminify_apply {r : Request} (hdirectory : r.output = some directory) (hmany : 2 ≤ r.inputs.length) (t : FileTree) :
    r.unminify FileTree.system t = match r.inputs.mapM (labelled t r.options) with
      | .error e => ({ error := some e }, t)
      | .ok documents => match writeInto FileTree.system directory documents t with
        | (.error e, t') => ({ error := some e }, t')
        | (.ok _, t') => ({ stderr := if r.stats then report documents else "" }, t') := by
  unfold unminify toOutcome
  show StateT.bind _ _ t = _
  unfold StateT.bind
  simp only [ExceptT.run, bind_apply, liftFiles_apply, hdirectory]
  cases hdocuments : r.inputs.mapM (labelled t r.options) with
  | error e => rfl
  | ok documents =>
    have hlength := (mapM_labelled_eq_ok.1 hdocuments).length_eq
    obtain ⟨p, q, documents, rfl⟩ : ∃ p q rest, documents = p :: q :: rest := by
      match documents with
      | [] => exact absurd hmany (by rw [hlength]; simp)
      | [_] => exact absurd hmany (by rw [hlength]; simp)
      | p :: q :: rest => exact ⟨p, q, rest, rfl⟩
    simp only [writeDocuments, bind_apply]
    cases writeInto FileTree.system directory (p :: q :: documents) t with
    | mk result t' => cases result <;> rfl

theorem isSome_fileName?_of_ofPath {path : String} {type : SourceType} (h : SourceType.ofPath path = .ok type) :
    (Path.fileName? path).isSome = true := by
  unfold SourceType.ofPath SourceType.ofPath? at h
  cases hname : Path.fileName? path with
  | none => simp [hname] at h
  | some => rfl

/-- An input that can be lifted has a file name. -/
theorem exists_fileName {path : String} {d : Document} (h : t.lift o path = .ok d) : ∃ name, Path.fileName? path = some name := by
  unfold FileTree.lift at h
  cases htext : atPath path (t.read path) with
  | error e => simp [htext, bind, Except.bind] at h
  | ok text =>
    cases htype : SourceType.ofPath path with
    | error e => simp [htext, htype, bind, Except.bind] at h
    | ok type => exact Option.isSome_iff_exists.1 (isSome_fileName?_of_ofPath htype)

/-- The directory can be made, and under the name of each input a file can be written in it. -/
def CanWriteInto (directory : String) (inputs : List String) (t : FileTree) : Prop :=
  ∃ t₁, t.createDirectories directory = .ok t₁ ∧
    ∀ input ∈ inputs, ∀ name, Path.fileName? input = some name → t₁.CanWrite (Path.join directory name)

/-- A run over several inputs into a directory succeeds when every input can be lifted and every output written. -/
theorem error_eq_none {r : Request} (hdirectory : r.output = some directory) (hmany : 2 ≤ r.inputs.length)
    (hlift : ∀ input ∈ r.inputs, ∃ d, t.lift r.options input = .ok d) (hwrite : CanWriteInto directory r.inputs t) :
    (r.unminify FileTree.system t).1.error = none := by
  obtain ⟨t₁, hmade, hwrite⟩ := hwrite
  obtain ⟨documents, hdocuments⟩ := exists_documents hlift
  have hmem := (mem_documents (mapM_labelled_eq_ok.1 hdocuments)).1
  have hcan : ∀ p ∈ documents, ∃ name, Path.fileName? p.1 = some name ∧ t₁.CanWrite (Path.join directory name) := by
    intro p hp
    obtain ⟨hinput, hd⟩ := hmem p hp
    obtain ⟨name, hname⟩ := exists_fileName hd
    exact ⟨name, hname, hwrite p.1 hinput name hname⟩
  obtain ⟨t', ht'⟩ := exists_of_canWrite hcan
  have hinto : writeInto FileTree.system directory documents t = (.ok (), t') := by
    rw [writeInto_apply, hmade]
    exact ht'
  rw [unminify_apply hdirectory hmany, hdocuments]
  simp only [hinto]

/-- A run over several inputs into a directory succeeds when every input can be lifted, the directory can be made, and the files in
it can be written. After a run that succeeds, the file under the name of an input holds the code of the last input of that
name; so it holds the input's own code exactly if that is the same. -/
theorem unminify_into {r : Request} (hdirectory : r.output = some directory) (hmany : 2 ≤ r.inputs.length) (t : FileTree) :
    ((∀ input ∈ r.inputs, ∃ d, t.lift r.options input = .ok d) → CanWriteInto directory r.inputs t →
      (r.unminify FileTree.system t).1.error = none) ∧
    ((r.unminify FileTree.system t).1.error = none →
      ∀ input ∈ r.inputs, ∃ name last d d', Path.fileName? input = some name ∧ lastNamed? id name r.inputs = some last ∧
        t.lift r.options input = .ok d ∧ t.lift r.options last = .ok d' ∧
        (r.unminify FileTree.system t).2.read (Path.join directory name) = .ok d'.code ∧
        ((r.unminify FileTree.system t).2.read (Path.join directory name) = .ok d.code ↔ d.code = d'.code)) := by
  refine ⟨error_eq_none hdirectory hmany, fun hok input hinput => ?_⟩
  rw [unminify_apply hdirectory hmany] at hok ⊢
  cases hdocuments : r.inputs.mapM (labelled t r.options) with
  | error e => simp [hdocuments] at hok
  | ok documents =>
    simp only [hdocuments] at hok ⊢
    have hlifted := mapM_labelled_eq_ok.1 hdocuments
    obtain ⟨d, hd⟩ := (mem_documents hlifted).2 input hinput
    obtain ⟨name, hname⟩ := exists_fileName hd
    obtain ⟨last, hlast⟩ : ∃ last, lastNamed? id name r.inputs = some last := exists_lastNamed hinput hname
    have hrel : Option.Rel _ (lastNamed? id name r.inputs) (lastNamed? Prod.fst name documents) :=
      lastNamed?_rel (fun _ _ h => h.1.symm) hlifted name
    rw [hlast] at hrel
    generalize hp : lastNamed? Prod.fst name documents = p at hrel
    cases hrel with
    | @some _ p hlift =>
      cases hinto : writeInto FileTree.system directory documents t with
      | mk result t' =>
        rw [hinto] at hok
        cases result with
        | error e => simp at hok
        | ok =>
          rw [writeInto_apply] at hinto
          cases hmade : t.createDirectories directory with
          | error e => exact absurd (congrArg Prod.fst (hmade ▸ hinto)) (by simp)
          | ok t₁ =>
            rw [hmade] at hinto
            have hread := read_of_lastNamed hinto hp
            exact ⟨name, last, d, p.2, hname, hlast, hd, hlift.2, hread, by simp [hread, eq_comm]⟩

namespace OutputsWitness

/-- `a/x.js` holds `;`, and `b/x.js` and `b/y.js` are empty. -/
def tree : FileTree :=
  ⟨[(["a"], .directory), (["a", "x.js"], .file ";".toUTF8), (["b"], .directory), (["b", "x.js"], .file "".toUTF8),
    (["b", "y.js"], .file "".toUTF8)]⟩

def request (inputs : List String) : Request := { inputs, output := some "out" }

/-- A document in which nothing was found. -/
def document (code : String) : Document := ⟨code, { passes := 1, converged := true }⟩

theorem lift_ax : tree.lift {} "a/x.js" = .ok (document ";\n") := by cbv

theorem lift_bx : tree.lift {} "b/x.js" = .ok (document "") := by cbv

theorem lift_by : tree.lift {} "b/y.js" = .ok (document "") := by cbv

theorem fileName_ax : Path.fileName? "a/x.js" = some "x.js" := by cbv

theorem fileName_bx : Path.fileName? "b/x.js" = some "x.js" := by cbv

theorem fileName_by : Path.fileName? "b/y.js" = some "y.js" := by cbv

/-- In the new directory a file can be written. -/
theorem canWrite {name : String} (hlocate : (tree.put ["out"] .directory).locate (Path.join "out" name) = .ok (.inside ["out", name]))
    (hpath : namesDirectory (Path.join "out" name) = false) (hfree : (tree.put ["out"] .directory).find? ["out", name] = none) :
    (tree.put ["out"] .directory).CanWrite (Path.join "out" name) :=
  fun _ => ⟨_, write_eq_ok.2 ⟨_, hlocate, by simp [hfree], hpath, rfl⟩⟩

theorem canWriteInto {inputs : List String} (h : ∀ input ∈ inputs, input = "a/x.js" ∨ input = "b/x.js" ∨ input = "b/y.js") :
    CanWriteInto "out" inputs tree := by
  refine ⟨tree.put ["out"] .directory, by cbv, fun input hinput name hname => ?_⟩
  rcases h input hinput with rfl | rfl | rfl
  · obtain rfl := Option.some.inj (fileName_ax.symm.trans hname)
    exact canWrite (by cbv) (by cbv) rfl
  · obtain rfl := Option.some.inj (fileName_bx.symm.trans hname)
    exact canWrite (by cbv) (by cbv) rfl
  · obtain rfl := Option.some.inj (fileName_by.symm.trans hname)
    exact canWrite (by cbv) (by cbv) rfl

end OutputsWitness

open OutputsWitness in
/-- `a/x.js` and `b/y.js` go to `out/x.js` and `out/y.js`. -/
theorem unminify_into_names : ((request ["a/x.js", "b/y.js"]).unminify FileTree.system tree).1.error = none ∧
    ((request ["a/x.js", "b/y.js"]).unminify FileTree.system tree).2.read (Path.join "out" "x.js") = .ok ";\n" ∧
    ((request ["a/x.js", "b/y.js"]).unminify FileTree.system tree).2.read (Path.join "out" "y.js") = .ok "" := by
  obtain ⟨hsucceeds, hfiles⟩ := unminify_into (r := request ["a/x.js", "b/y.js"]) rfl (by decide) tree
  have hok := hsucceeds (by simpa [request] using ⟨⟨_, lift_ax⟩, ⟨_, lift_by⟩⟩) (canWriteInto (by simp [request]))
  obtain ⟨name, last, -, d, hname, hlast, -, hlift, hread, -⟩ := hfiles hok "a/x.js" (by simp [request])
  obtain ⟨name', last', -, d', hname', hlast', -, hlift', hread', -⟩ := hfiles hok "b/y.js" (by simp [request])
  obtain rfl := Option.some.inj (fileName_ax.symm.trans hname)
  obtain rfl := Option.some.inj (fileName_by.symm.trans hname')
  simp only [request, lastNamed?, id, fileName_ax, fileName_by] at hlast hlast'
  simp at hlast hlast'
  subst hlast hlast'
  obtain rfl := Except.ok.inj (lift_ax.symm.trans hlift)
  obtain rfl := Except.ok.inj (lift_by.symm.trans hlift')
  exact ⟨hok, hread, hread'⟩

open OutputsWitness in
/-- Of `a/x.js` and `b/x.js` only the last output is left, and the run succeeds. -/
theorem unminify_into_false : ¬ ∀ (r : Request) (directory : String) (t : FileTree), r.output = some directory →
    2 ≤ r.inputs.length → (∀ input ∈ r.inputs, ∃ d, t.lift r.options input = .ok d) → CanWriteInto directory r.inputs t →
    (r.unminify FileTree.system t).1.error = none → ∀ input ∈ r.inputs, ∃ name d, Path.fileName? input = some name ∧
      t.lift r.options input = .ok d ∧ (r.unminify FileTree.system t).2.read (Path.join directory name) = .ok d.code := by
  intro h
  have hlift : ∀ input ∈ ["a/x.js", "b/x.js"], ∃ d, tree.lift {} input = .ok d := by
    simpa using ⟨⟨_, lift_ax⟩, ⟨_, lift_bx⟩⟩
  have hwrite : CanWriteInto "out" ["a/x.js", "b/x.js"] tree := canWriteInto (by simp)
  have hfiles := h (request ["a/x.js", "b/x.js"]) "out" tree rfl (by decide) hlift hwrite (error_eq_none rfl (by decide) hlift hwrite)
  obtain ⟨name, d, hname, hd, hread⟩ := hfiles "a/x.js" (by simp [request])
  obtain ⟨name', d', hname', hd', hread'⟩ := hfiles "b/x.js" (by simp [request])
  obtain rfl := Option.some.inj (fileName_ax.symm.trans hname)
  obtain rfl := Option.some.inj (fileName_bx.symm.trans hname')
  obtain rfl := Except.ok.inj (lift_ax.symm.trans hd)
  obtain rfl := Except.ok.inj (lift_bx.symm.trans hd')
  exact absurd (Except.ok.inj (hread.symm.trans hread')) (by decide)

end Request

end Chainlift
