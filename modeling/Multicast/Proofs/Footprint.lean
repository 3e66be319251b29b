import Multicast.Proofs.Directories

/-!
# What a run leaves behind

A run that generates a file changes the file tree in its last step only. That step makes directories
and writes one file, so what it leaves behind is known place by place: `Files.Tree.AddsDirectories`
says that one tree is another one with new directories at certain places, and
`Files.Tree.Receives` that a file was written as well. The places of new directories are those that
the path of the destination passes through (`Files.Path.Passes`).

Directories are made before the file is written, and those that were made before a fault stay. So a
run that fails in its last step may leave directories behind, but nothing else.

## Where a run can fail

Before the last step a run only reads: it looks for module files and for the files of a package, and no
tree is changed by that. The formatter gets a text and returns one; what it does is left open, and so is
whether it can be started. In the last step a directory may not be made, or the file may not be written,
since something else is in its place or the system does not take its name. In each case what has been made
is known: the directories that the path passes through before the fault.

The statement is therefore on places, one by one: a place has what it had, or it is one of those that were
asked for.
-/

namespace Multicast

namespace Files

/-! ### Places on the way -/

/-- Some of the elements of a path, from the first on, lead to a place. -/
def Path.Passes (cwd : Place) (path : String) (place : Place) : Prop :=
  ∃ front, front <+: Path.elements path ∧
    place = front.foldl Path.follow (if Path.isAbsolute path then [] else cwd)

theorem Path.follow_dot (place : Place) : Path.follow place "." = place :=
  if_pos rfl

/-- To leave out a `.` does not change where the elements before a point lead. -/
theorem Path.exists_prefix_of_filter {front elements : List String}
    (h : front <+: elements.filter (· ≠ ".")) (place : Place) :
    ∃ front', front' <+: elements ∧
      front'.foldl Path.follow place = front.foldl Path.follow place := by
  induction elements generalizing front place with
  | nil =>
    obtain rfl := List.prefix_nil.1 h
    exact ⟨[], List.nil_prefix, rfl⟩
  | cons element elements ih =>
    by_cases hdot : element = "."
    · obtain ⟨front', hfront', hleads⟩ := ih (by simpa [hdot] using h) place
      refine ⟨"." :: front', hdot ▸ (List.cons_prefix_cons.2 ⟨rfl, hfront'⟩), ?_⟩
      rw [List.foldl_cons, Path.follow_dot, hleads]
    · rw [List.filter_cons_of_pos (by simpa using hdot)] at h
      rcases front with _ | ⟨first, front⟩
      · exact ⟨[], List.nil_prefix, rfl⟩
      · obtain ⟨rfl, hfront⟩ := List.cons_prefix_cons.1 h
        obtain ⟨front', hfront', hleads⟩ := ih hfront (Path.follow place first)
        exact ⟨first :: front', List.cons_prefix_cons.2 ⟨rfl, hfront'⟩, hleads⟩

/-- The elements that name something lead where the elements before a point lead. -/
theorem Path.exists_prefix_of_components {path : String} {front : List String}
    (h : front <+: Path.components path) (place : Place) :
    ∃ front', front' <+: Path.elements path ∧
      front'.foldl Path.follow place = front.foldl Path.follow place := by
  rw [Path.components] at h
  split at h
  next => exact ⟨[], List.nil_prefix, by rw [List.prefix_nil.1 h]⟩
  next first others helements =>
    rw [helements]
    dsimp only at h
    split at h
    next hfirst =>
      refine Path.exists_prefix_of_filter ?_ place
      rwa [hfirst.1, List.filter_cons_of_neg (by simp)]
    next =>
      rcases front with _ | ⟨head, front⟩
      · exact ⟨[], List.nil_prefix, rfl⟩
      · obtain ⟨rfl, hfront⟩ := List.cons_prefix_cons.1 h
        obtain ⟨front', hfront', hleads⟩ :=
          Path.exists_prefix_of_filter hfront (Path.follow place head)
        exact ⟨head :: front', List.cons_prefix_cons.2 ⟨rfl, hfront'⟩, hleads⟩

/-- The directories above a path are on the way. -/
theorem Path.exists_prefix_of_mem_parents {path : String} {above : List String}
    (h : above ∈ Path.parents path) (place : Place) :
    ∃ front, front <+: Path.elements path ∧
      front.foldl Path.follow place = above.foldl Path.follow place := by
  obtain ⟨n, -, rfl⟩ := List.mem_map.1 h
  exact Path.exists_prefix_of_components
    ((List.take_prefix _ _).trans (List.dropLast_prefix _)) place

namespace Tree

variable {tree tree' : Tree} {cwd place place' : Place} {path : String} {contents : ByteArray}

/-! ### Putting something at a place

A tree is changed at one place by going down to it. At all other places it has what it had, and this is
shown once. -/

theorem get?_put_self {node : Node} (h : place ≠ []) :
    (tree.put place node).get? place = some node := by
  simp [get?, put, h]

theorem get?_put_of_ne {node : Node} (h : place' ≠ place) :
    (tree.put place node).get? place' = tree.get? place' := by
  have hothers :
      (tree.entries.filter (·.1 ≠ place)).lookup place' = tree.entries.lookup place' := by
    induction tree.entries with
    | nil => rfl
    | cons entry entries ih =>
      rcases entry with ⟨other, found⟩
      by_cases hother : other = place
      · rw [List.filter_cons_of_neg (by simpa using hother), ih, List.lookup_cons, hother,
          beq_false_of_ne h]
      · rw [List.filter_cons_of_pos (by simpa using hother), List.lookup_cons, List.lookup_cons, ih]
  rw [get?, get?, put, List.lookup_cons, beq_false_of_ne h, hothers]

/-! ### New directories -/

/-- A place has what it had, or it had nothing and is one of certain places that have a directory.
-/
def KeepsOrAdds (before after : Tree) (new : Place → Prop) (place : Place) : Prop :=
  after.get? place = before.get? place ∨
    before.get? place = none ∧ after.get? place = some .directory ∧ new place

/-- **One tree is another one with new directories** at certain places, where nothing was before. -/
def AddsDirectories (before after : Tree) (new : Place → Prop) : Prop :=
  ∀ place, before.KeepsOrAdds after new place

section

variable {tree'' : Tree} {new new' : Place → Prop}

theorem KeepsOrAdds.trans (h : tree.KeepsOrAdds tree' new place)
    (h' : tree'.KeepsOrAdds tree'' new place) : tree.KeepsOrAdds tree'' new place := by
  rcases h with hsame | ⟨hnone, hdir, hnew⟩
  · rcases h' with hsame' | ⟨hnone', hdir', hnew'⟩
    · exact .inl (hsame'.trans hsame)
    · exact .inr ⟨hsame ▸ hnone', hdir', hnew'⟩
  · rcases h' with hsame' | ⟨hnone', -, -⟩
    · exact .inr ⟨hnone, hsame'.trans hdir, hnew⟩
    · rw [hdir] at hnone'
      cases hnone'

namespace AddsDirectories

theorem refl (tree : Tree) (new : Place → Prop) : tree.AddsDirectories tree new :=
  fun _ => .inl rfl

theorem trans (h : tree.AddsDirectories tree' new) (h' : tree'.AddsDirectories tree'' new) :
    tree.AddsDirectories tree'' new :=
  fun place => (h place).trans (h' place)

theorem mono (h : tree.AddsDirectories tree' new) (hnew : ∀ place, new place → new' place) :
    tree.AddsDirectories tree' new' :=
  fun place => (h place).imp_right fun ⟨hnone, hdir, hplace⟩ => ⟨hnone, hdir, hnew place hplace⟩

/-- The files stay as they are, and there are no new ones. -/
theorem get?_eq_file_iff (h : tree.AddsDirectories tree' new) :
    tree'.get? place = some (.file contents) ↔ tree.get? place = some (.file contents) := by
  rcases h place with hsame | ⟨hnone, hdir, -⟩
  · rw [hsame]
  · rw [hnone, hdir]
    constructor <;> rintro ⟨⟩

/-- A directory stays. -/
theorem isDirectory (h : tree.AddsDirectories tree' new) (hdir : tree.isDirectory place = true) :
    tree'.isDirectory place = true := by
  rw [Tree.isDirectory] at hdir ⊢
  rcases h place with hsame | ⟨hnone, -, -⟩
  · rwa [hsame]
  · rw [hnone] at hdir
    cases hdir

end AddsDirectories

end

/-! ### Walking

A path with dots in it means a place that is found by going up again. So the directories that are made are
told from the path, and not from the place that it means. -/

theorem step_eq_ok {element : String} :
    tree.step place element = .ok place' ↔
      tree.isDirectory place = true ∧ place' = Path.follow place element ∧
        (element = "." ∨ element = ".." ∨
          element.utf8ByteSize ≤ maxName ∧ (tree.get? (place ++ [element])).isSome = true) := by
  have hfollow (hdots : ¬(element = "." ∨ element = "..")) :
      Path.follow place element = place ++ [element] := by
    obtain ⟨hdot, hup⟩ := not_or.1 hdots
    rw [Path.follow, if_neg hdot, if_neg hup]
  rw [step]
  split_ifs with hdir hdots hlong hnone
  · simp_all
  · constructor
    · exact fun h => ⟨by simpa using hdir, (Except.ok.inj h).symm, hdots.imp_right .inl⟩
    · rintro ⟨-, rfl, -⟩
      rfl
  · constructor
    · rintro ⟨⟩
    · rintro ⟨-, -, hdot | hup | hthere⟩
      · exact (hdots (.inl hdot)).elim
      · exact (hdots (.inr hup)).elim
      · exact (Nat.not_lt.2 hthere.1 hlong).elim
  · constructor
    · rintro ⟨⟩
    · rintro ⟨-, -, hdot | hup | hthere⟩
      · exact (hdots (.inl hdot)).elim
      · exact (hdots (.inr hup)).elim
      · simp_all
  · rw [hfollow hdots]
    constructor
    · refine fun h => ⟨by simpa using hdir, (Except.ok.inj h).symm, .inr (.inr ⟨by omega, ?_⟩)⟩
      simpa [Option.isSome_iff_ne_none] using hnone
    · rintro ⟨-, rfl, -⟩
      rfl

theorem eq_of_start (h : start cwd path = .ok place) :
    place = if Path.isAbsolute path then [] else cwd := by
  rw [start] at h
  split_ifs at h ⊢ <;> cases h
  all_goals rfl

/-- **Whoever gets along a path comes to the place that it means.** -/
theorem eq_foldl_of_walk {elements : List String} (h : tree.walk place elements = .ok place') :
    place' = elements.foldl Path.follow place := by
  induction elements generalizing place with
  | nil => exact (Except.ok.inj h).symm
  | cons element elements ih =>
    rw [walk, List.foldlM_cons] at h
    obtain ⟨next, hstep, h⟩ := except_bind_eq_ok.1 h
    rw [ih h, (step_eq_ok.1 hstep).2.1, List.foldl_cons]

/-- A way that is open stays open if directories and everything else stay where they are. -/
theorem walk_mono (hdir : ∀ place, tree.isDirectory place = true → tree'.isDirectory place = true)
    (hsome : ∀ place, (tree.get? place).isSome = true → (tree'.get? place).isSome = true)
    {elements : List String} (h : tree.walk place elements = .ok place') :
    tree'.walk place elements = .ok place' := by
  induction elements generalizing place with
  | nil => exact h
  | cons element elements ih =>
    rw [walk, List.foldlM_cons] at h ⊢
    obtain ⟨next, hstep, h⟩ := except_bind_eq_ok.1 h
    obtain ⟨habove, hnext, hthere⟩ := step_eq_ok.1 hstep
    refine except_bind_eq_ok.2 ⟨next, step_eq_ok.2 ⟨hdir place habove, hnext, ?_⟩, ih h⟩
    exact hthere.imp_right (Or.imp_right (And.imp_right (hsome _)))

theorem walkToLast_eq_ok {elements : List String} {last : Option String} :
    tree.walkToLast place elements = .ok (place', last) ↔
      tree.walk place elements.dropLast = .ok place' ∧ tree.isDirectory place' = true ∧
        last = elements.getLast? := by
  rw [walkToLast]
  constructor
  · intro h
    obtain ⟨above, hwalk, h⟩ := except_bind_eq_ok.1 h
    split at h
    next => cases h
    next hdir =>
      cases h
      exact ⟨hwalk, by simpa using hdir, rfl⟩
  · rintro ⟨hwalk, hdir, rfl⟩
    refine except_bind_eq_ok.2 ⟨place', hwalk, ?_⟩
    simp only [hdir]
    rfl

/-- The way to the last of some elements, and on to it. -/
theorem foldl_of_walkToLast {elements : List String} {name : String}
    (h : tree.walkToLast place elements = .ok (place', some name)) (hdot : name ≠ ".")
    (hup : name ≠ "..") : place' ++ [name] = elements.foldl Path.follow place := by
  obtain ⟨hwalk, -, hlast⟩ := walkToLast_eq_ok.1 h
  have helements : elements = elements.dropLast ++ [name] :=
    (List.dropLast_append_getLast? name hlast.symm).symm
  rw [helements, List.foldl_append, ← eq_foldl_of_walk hwalk]
  simp [Path.follow, hdot, hup]

/-! ### Making directories -/

theorem addsDirectories_put (h : tree.get? place = none) :
    tree.AddsDirectories (tree.put place .directory) (· = place) := by
  intro other
  by_cases hother : other = place
  · subst hother
    have hne : other ≠ [] := by
      rintro rfl
      cases h
    exact .inr ⟨h, get?_put_self hne, rfl⟩
  · exact .inl (get?_put_of_ne hother)

theorem makeDirectory_adds {elements : List String}
    (h : tree.makeDirectory place elements = .ok tree') :
    tree.AddsDirectories tree' (· = elements.foldl Path.follow place) := by
  obtain ⟨⟨above, last⟩, hlast, h⟩ := except_bind_eq_ok.1 h
  rcases last with _ | name
  · cases h
  · dsimp only at h
    split_ifs at h with hdots <;> cases h
    next hthere =>
      obtain ⟨hdot, hup⟩ := not_or.1 hdots
      rw [← foldl_of_walkToLast hlast hdot hup]
      exact addsDirectories_put (by simpa using hthere)

/-- Of several directories, each of which lies in the next, only the ones that are named are made.
-/
theorem makeDirectories_adds (tree : Tree) (place : Place) (nested : List (List String)) :
    tree.AddsDirectories (tree.makeDirectories place nested).1
      fun new => ∃ elements ∈ nested, new = elements.foldl Path.follow place := by
  induction nested generalizing tree with
  | nil => exact .refl _ _
  | cons elements above ih =>
    have hhead {tree tree' : Tree} (h : tree.makeDirectory place elements = .ok tree') :
        tree.AddsDirectories tree' fun new =>
          ∃ names ∈ elements :: above, new = names.foldl Path.follow place :=
      (makeDirectory_adds h).mono fun _ hnew => ⟨elements, List.mem_cons_self, hnew⟩
    have habove : tree.AddsDirectories (tree.makeDirectories place above).1 fun new =>
        ∃ names ∈ elements :: above, new = names.foldl Path.follow place :=
      (ih tree).mono fun _ ⟨names, hnames, hnew⟩ =>
        ⟨names, List.mem_cons_of_mem elements hnames, hnew⟩
    rw [makeDirectories]
    split
    next made hmade => exact hhead hmade
    next =>
      -- what was made above stays, whether or not the directory itself can be made then
      rcases hmore : tree.makeDirectories place above with ⟨more, fault | _⟩
      · rw [hmore] at habove
        exact habove
      · rw [hmore] at habove
        dsimp only
        split
        next made hmade => exact habove.trans (hhead hmade)
        next => exact habove
    next => exact .refl _ _

/-- **To make a directory** makes only directories that its path passes through. -/
theorem makePath_adds (tree : Tree) (cwd : Place) (path : String) :
    tree.AddsDirectories (tree.makePath cwd path).1 (Path.Passes cwd path) := by
  rw [makePath]
  split
  next => exact .refl _ _
  next =>
    split
    next => exact .refl _ _
    next place hstart =>
      obtain rfl := eq_of_start hstart
      refine (makeDirectories_adds tree _ _).mono fun new ⟨elements, helements, hnew⟩ => ?_
      rcases List.mem_cons.1 helements with rfl | helements
      · exact ⟨_, List.prefix_rfl, hnew⟩
      · obtain ⟨front, hfront, hleads⟩ := Path.exists_prefix_of_mem_parents helements _
        exact ⟨front, hfront, hnew.trans hleads.symm⟩

/-! ### Writing files -/

/-- **A file was written**, and directories were made before. -/
structure Receives (before after : Tree) (cwd : Place) (path : String) (contents : ByteArray)
    (new : Place → Prop) : Prop where
  /-- The file can be read where it was written. -/
  read : after.read cwd path = .ok contents
  /-- No directory was there before. -/
  vacant : before.isDirectory (Path.absolute cwd path) = false
  elsewhere : ∀ place ≠ Path.absolute cwd path, before.KeepsOrAdds after new place

theorem Receives.of_adds {tree'' : Tree} {new : Place → Prop}
    (h : tree'.Receives tree'' cwd path contents new) (hmade : tree.AddsDirectories tree' new) :
    tree.Receives tree'' cwd path contents new where
  read := h.read
  vacant := Bool.eq_false_iff.2 fun hdir => Bool.eq_false_iff.1 h.vacant (hmade.isDirectory hdir)
  elsewhere place hne := (hmade place).trans (h.elsewhere place hne)

/-- What is checked before a file is written. -/
theorem exists_of_write (h : tree.write cwd path contents = .ok tree') :
    ∃ first above name, start cwd path = .ok first ∧
      tree.walkToLast first (Path.elements path) = .ok (above, some name) ∧
      (name ≠ "." ∧ name ≠ ".." ∧ Path.endsWithSlash path = false) ∧
      name.utf8ByteSize ≤ maxName ∧ tree.isDirectory (above ++ [name]) = false ∧
      tree' = tree.put (above ++ [name]) (.file contents) := by
  obtain ⟨first, hfirst, h⟩ := except_bind_eq_ok.1 h
  obtain ⟨⟨above, last⟩, hlast, h⟩ := except_bind_eq_ok.1 h
  rcases last with _ | name
  · cases h
  · dsimp only at h
    split_ifs at h with hnot <;> cases h
    next hlong hdir _ =>
      simp only [not_or, Bool.not_eq_true] at hnot hdir
      exact ⟨first, above, name, hfirst, hlast, hnot, Nat.not_lt.1 hlong, hdir, rfl⟩

/-- **To write a file** changes one place, and what was written can be read. -/
theorem receives_write (h : tree.write cwd path contents = .ok tree') (new : Place → Prop) :
    tree.Receives tree' cwd path contents new := by
  obtain ⟨first, above, name, hfirst, hlast, ⟨hdot, hup, hslash⟩, hlong, hvacant, rfl⟩ :=
    exists_of_write h
  obtain ⟨hwalk, habove, hname⟩ := walkToLast_eq_ok.1 hlast
  have hplace : above ++ [name] = Path.absolute cwd path := by
    rw [foldl_of_walkToLast hlast hdot hup, eq_of_start hfirst]
    rfl
  have hself : (tree.put (above ++ [name]) (.file contents)).get? (above ++ [name]) =
      some (.file contents) := get?_put_self (by simp)
  -- the way to the file does not lead through its own place, where no directory was
  have hdir (place : Place) (hplace : tree.isDirectory place = true) :
      (tree.put (above ++ [name]) (.file contents)).isDirectory place = true := by
    rwa [isDirectory, get?_put_of_ne]
    rintro rfl
    rw [hvacant] at hplace
    cases hplace
  have hsome (place : Place) (hplace : (tree.get? place).isSome = true) :
      ((tree.put (above ++ [name]) (.file contents)).get? place).isSome = true := by
    by_cases heq : place = above ++ [name]
    · rw [heq, hself]
      rfl
    · rwa [get?_put_of_ne heq]
  have hway : (tree.put (above ++ [name]) (.file contents)).walk first (Path.elements path) =
      .ok (above ++ [name]) := by
    rw [← List.dropLast_append_getLast? name hname.symm, walk, List.foldlM_append]
    refine except_bind_eq_ok.2 ⟨above, walk_mono hdir hsome hwalk, ?_⟩
    rw [List.foldlM_cons]
    refine except_bind_eq_ok.2
      ⟨_, step_eq_ok.2 ⟨hdir above habove, ?_, .inr (.inr ⟨hlong, ?_⟩)⟩, rfl⟩
    · rw [Path.follow, if_neg hdot, if_neg hup]
    · rw [hself]
      rfl
  refine ⟨?_, hplace ▸ hvacant, fun place hne => .inl (get?_put_of_ne (hplace ▸ hne))⟩
  have hfind : (tree.put (above ++ [name]) (.file contents)).find cwd path =
      .ok (above ++ [name], .file contents) := by
    refine except_bind_eq_ok.2 ⟨first, hfirst, except_bind_eq_ok.2 ⟨_, hway, ?_⟩⟩
    simp only [hself, hslash]
    rfl
  rw [read, hfind]
  rfl

end Tree

end Files

open Files

namespace Workspace

variable {w w' : Workspace} {config : Config}

/-! ### The last step -/

/-- What is written is written to the directory, which is made before. -/
theorem receives_of_write {dir file path : String} {contents : ByteArray}
    (h : w.write dir file contents = (w', .ok path)) :
    path = Path.join dir file ∧ w' = { w with tree := w'.tree } ∧
      w.tree.Receives w'.tree w.cwd path contents (Path.Passes w.cwd dir) := by
  rw [write] at h
  have hmade := Tree.makePath_adds w.tree w.cwd dir
  rcases hpath : w.tree.makePath w.cwd dir with ⟨tree, fault | _⟩
  · rw [hpath] at h
    cases h
  · rw [hpath] at h hmade
    dsimp only at h
    split at h
    next => cases h
    next written hwritten =>
      cases h
      exact ⟨rfl, rfl, (Tree.receives_write hwritten _).of_adds hmade⟩

/-- A fault while writing leaves directories behind at most. -/
theorem addsDirectories_of_write {dir file : String} {contents : ByteArray} {e : GenerateError}
    (h : w.write dir file contents = (w', .error e)) :
    ((∃ fault, e = .creating dir fault) ∨ ∃ fault, e = .writing (Path.join dir file) fault) ∧
      w' = { w with tree := w'.tree } ∧
      w.tree.AddsDirectories w'.tree (Path.Passes w.cwd dir) := by
  rw [write] at h
  have hmade := Tree.makePath_adds w.tree w.cwd dir
  rcases hpath : w.tree.makePath w.cwd dir with ⟨tree, fault | _⟩
  · rw [hpath] at h hmade
    cases h
    exact ⟨.inl ⟨fault, rfl⟩, rfl, hmade⟩
  · rw [hpath] at h hmade
    dsimp only at h
    split at h
    next fault _ =>
      cases h
      exact ⟨.inr ⟨fault, rfl⟩, rfl, hmade⟩
    next => cases h

/-! ### Planning and rendering -/

/-- The examined method with its target is planned for, whatever the purpose. -/
theorem render_of_plan {file : HookFile} (h : w.plan config = .ok file) :
    w.render config = (w.format config.formatter file.render.toUTF8).mapError .format := by
  obtain ⟨⟨method, target⟩, hrun, h⟩ := except_bind_eq_ok.1 h
  rw [render, hrun]
  dsimp only [bind, Except.bind]
  rw [mapError_eq_ok.1 h]
  rfl

/-- Only formatting fails as formatting. -/
theorem examine_ne_format (e : FormatError) : w.examine config ≠ .error (.format e) := by
  have hmap {ε α : Type} {x : Except ε α} {f : ε → GenerateError} (hf : ∀ e', f e' ≠ .format e) :
      x.mapError f ≠ .error (.format e) := by
    rcases x with e' | a
    · exact fun h => hf e' (Except.error.inj h)
    · rintro ⟨⟩
  have hbind {α β : Type} {x : Except GenerateError α} {f : α → Except GenerateError β}
      (hx : x ≠ .error (.format e)) (hf : ∀ a, f a ≠ .error (.format e)) :
      x >>= f ≠ .error (.format e) := by
    rcases x with e' | a
    · exact fun h => hx (congrArg _ (Except.error.inj h))
    · exact hf a
  refine hbind (hmap (by rintro _ ⟨⟩)) fun _ => ?_
  refine hbind (hmap (by rintro _ ⟨⟩)) fun _ => ?_
  refine hbind (hmap (by rintro _ ⟨⟩)) fun _ => ?_
  refine hbind (hmap (by rintro _ ⟨⟩)) fun _ => ?_
  rintro ⟨⟩

/-- **Planning succeeds just if rendering gets as far as formatting.** -/
theorem exists_plan_iff :
    (∃ file, w.plan config = .ok file) ↔
      (∃ contents, w.render config = .ok contents) ∨
        ∃ e, w.render config = .error (.format e) := by
  constructor
  · rintro ⟨file, hplan⟩
    rw [render_of_plan hplan]
    rcases w.format config.formatter file.render.toUTF8 with e | contents
    · exact .inr ⟨e, rfl⟩
    · exact .inl ⟨contents, rfl⟩
  · -- the two have the same steps up to the plan, and none of these fails as formatting
    intro h
    rw [render] at h
    rw [plan]
    rcases hrun : w.examine config with e | ⟨method, target⟩
    · rw [hrun] at h
      rcases h with ⟨_, h⟩ | ⟨e', h⟩
      · cases h
      · obtain rfl := Except.error.inj h
        exact (examine_ne_format e' hrun).elim
    · rw [hrun] at h
      dsimp only [bind, Except.bind] at h ⊢
      rcases hplan : HookFile.ofMethod config method target with name | file
      · rw [hplan] at h
        rcases h with ⟨_, h⟩ | ⟨_, h⟩ <;> cases h
      · exact ⟨file, rfl⟩

/-- **What a run leaves behind.** Planning and rendering have no tree to change. Planning succeeds
just if rendering gets as far as formatting, and then rendering is what the formatter makes of the
planned file. A run succeeds only if rendering does; then the rendered bytes can be read under the
name of the file in the destination directory, and elsewhere there is what there was, but for new
directories that the path of the destination passes through. A run that fails before it writes
leaves the workspace as it is, and one that fails to write leaves such directories at most. -/
theorem generate_footprint (w : Workspace) (config : Config) :
    (∀ file, w.plan config = .ok file →
      w.render config = (w.format config.formatter file.render.toUTF8).mapError .format) ∧
    ((∃ file, w.plan config = .ok file) ↔
      (∃ contents, w.render config = .ok contents) ∨
        ∃ e, w.render config = .error (.format e)) ∧
    (∀ w' path, w.generate config = (w', .ok path) →
      path = Path.join config.destination.dir config.fileName ∧ w' = { w with tree := w'.tree } ∧
      ∃ contents, w.render config = .ok contents ∧
        w.tree.Receives w'.tree w.cwd path contents (Path.Passes w.cwd config.destination.dir)) ∧
    (∀ e, w.render config = .error e → w.generate config = (w, .error e)) ∧
    ∀ w' e contents, w.render config = .ok contents → w.generate config = (w', .error e) →
      ((∃ fault, e = .creating config.destination.dir fault) ∨
        ∃ fault, e = .writing (Path.join config.destination.dir config.fileName) fault) ∧
      w' = { w with tree := w'.tree } ∧
      w.tree.AddsDirectories w'.tree (Path.Passes w.cwd config.destination.dir) ∧
      ∀ place contents, w'.tree.get? place = some (.file contents) ↔
        w.tree.get? place = some (.file contents) := by
  refine ⟨fun _ => render_of_plan, exists_plan_iff, fun w' path h => ?_, fun e h => ?_,
    fun w' e contents hrender h => ?_⟩
  · rw [generate] at h
    rcases hrender : w.render config with e | contents
    · rw [hrender] at h
      cases h
    · rw [hrender] at h
      obtain ⟨hpath, hw, hreceives⟩ := receives_of_write h
      exact ⟨hpath, hw, contents, rfl, hreceives⟩
  · rw [generate, h]
  · rw [generate, hrender] at h
    obtain ⟨hfault, hw, hadds⟩ := addsDirectories_of_write h
    exact ⟨hfault, hw, hadds, fun _ _ => hadds.get?_eq_file_iff⟩

theorem generate_ears :
    ∃ w' file, ears.plan earConfig = .ok file ∧
      ears.generate earConfig = (w', .ok "./ears//generated.go") ∧
      ears.tree.Receives w'.tree ears.cwd "./ears//generated.go" file.render.toUTF8
        (Path.Passes ears.cwd "./ears//") := by
  obtain ⟨hrender, -, hgenerate, -, -⟩ := generate_footprint ears earConfig
  obtain ⟨method, target, file, hrun, hfile⟩ := exists_plan_ears
  have hplan : ears.plan earConfig = .ok file :=
    except_bind_eq_ok.2 ⟨_, hrun, mapError_eq_ok.2 hfile⟩
  have hwrite (contents : ByteArray) :
      (ears.write "./ears//" "generated.go" contents).2 = .ok "./ears//generated.go" := by
    rfl
  have hrendered : ears.render earConfig = .ok file.render.toUTF8 := hrender file hplan
  obtain ⟨w', hrun⟩ : ∃ w', ears.generate earConfig = (w', .ok "./ears//generated.go") := by
    rw [generate, hrendered]
    exact ⟨_, Prod.ext rfl (hwrite _)⟩
  obtain ⟨-, -, contents, hcontents, hreceives⟩ := hgenerate _ _ hrun
  obtain rfl := Except.ok.inj (hrendered.symm.trans hcontents)
  exact ⟨w', file, hplan, hrun, hreceives⟩

end Workspace

end Multicast
