import Multicast.Project.Generate
import Multicast.Proofs.Hooked

/-!
# Import paths tell directories apart

An import path is read off a place, so how a directory is spelled has no say in it. Conversely, the
place can be told from the import path once it is known which module file is in charge, if any: what
stands behind the module path are the names that lead on from there, and a name has no slash in it
(`slashed_inj`).

In charge is the nearest module file that gives a module path. A module file on the way to it that
gives none is passed over, provided that it is text; one that is not text is an error, and so are
the import paths of all directories below it. `Workspace.GovernedAlike` says of two places that the
same module file is in charge of both, or none.

## From places to texts and back

Two things have to be known to tell a place from its import path. The names between the slashes can be
told from the text (`slashed_inj`), which needs that no name has a slash in it. And one path must not be a
directory below the module for one place and the text of a place without a module for another one; this is
excluded by asking that the same module file is in charge of both places, or none.

Without this condition two directories can have the same import path: a module may call itself by the path
of a directory in another module.
-/

namespace Multicast

namespace Files

/-! ### Names between slashes -/

/-- A name that can stand between the slashes of a path. -/
def IsName (name : String) : Prop :=
  name ≠ "" ∧ '/' ∉ name.toList

/-- The characters that a text is cut at are dropped. -/
theorem not_cut_of_mem_cutAt {cut : Char → Bool} {text stretch : List Char}
    (h : stretch ∈ Text.cutAt cut text) : ∀ c ∈ stretch, cut c = false := by
  induction text generalizing stretch with
  | nil =>
    obtain rfl := List.mem_singleton.1 h
    simp
  | cons d text ih =>
    rw [Text.cutAt] at h
    split at h
    next hd =>
      rcases List.mem_cons.1 h with rfl | h
      · simp
      · exact ih h
    next hd =>
      rcases hcut : Text.cutAt cut text with _ | ⟨first, others⟩
      · exact absurd hcut (Text.cutAt_ne_nil cut text)
      · rw [hcut] at h ih
        rcases List.mem_cons.1 h with rfl | h
        · intro c hc
          rcases List.mem_cons.1 hc with rfl | hc
          · exact Bool.eq_false_iff.2 hd
          · exact ih List.mem_cons_self c hc
        · exact ih (List.mem_cons_of_mem first h)

theorem isName_of_mem_elements {path name : String} (h : name ∈ Path.elements path) :
    IsName name := by
  obtain ⟨stretch, hstretch, rfl⟩ := List.mem_map.1 h
  obtain ⟨hcut, hne⟩ := List.mem_filter.1 hstretch
  constructor
  · intro hempty
    have : stretch = [] := by simpa using congrArg String.toList hempty
    simp [this] at hne
  · intro hslash
    have := not_cut_of_mem_cutAt hcut '/' (by simpa using hslash)
    simp at this

/-- An element leads on to a place with a name more, or to one with fewer. -/
theorem isName_follow {place : Place} {element : String} (hplace : ∀ name ∈ place, IsName name)
    (helement : IsName element) : ∀ name ∈ Path.follow place element, IsName name := by
  intro name hname
  rw [Path.follow] at hname
  split at hname
  · exact hplace name hname
  · split at hname
    · exact hplace name (List.dropLast_subset place hname)
    · rcases List.mem_append.1 hname with hname | hname
      · exact hplace name hname
      · exact List.mem_singleton.1 hname ▸ helement

/-- **A place is reached by names**, whatever the path that means it looks like. -/
theorem isName_absolute {cwd : Place} (hcwd : ∀ name ∈ cwd, IsName name) (path : String) :
    ∀ name ∈ Path.absolute cwd path, IsName name := by
  have hstart : ∀ name ∈ (if Path.isAbsolute path then [] else cwd), IsName name := by
    split
    · simp
    · exact hcwd
  have hall : ∀ name ∈ Path.elements path, IsName name := fun _ => isName_of_mem_elements
  rw [Path.absolute]
  generalize (if Path.isAbsolute path then [] else cwd) = place at hstart
  generalize Path.elements path = elements at hall
  induction elements generalizing place with
  | nil => exact hstart
  | cons element elements ih =>
    exact ih _ (isName_follow hstart (hall element List.mem_cons_self)) fun name hname =>
      hall name (List.mem_cons_of_mem element hname)

/-! ### Texts of places -/

/-- Names with a slash in front of each. -/
def slashed (names : List String) : List Char :=
  names.flatMap fun name => '/' :: name.toList

theorem toList_join (first : String) (names : List String) :
    ("/".intercalate (first :: names)).toList = first.toList ++ slashed names := by
  induction names generalizing first with
  | nil => simp [slashed]
  | cons name names ih =>
    rw [String.intercalate_cons_cons, String.toList_append, ih]
    simp [slashed]

/-- **Names can be told from their text**, since it can be cut at the slashes. -/
theorem slashed_inj {names names' : List String} (hnames : ∀ name ∈ names, IsName name)
    (hnames' : ∀ name ∈ names', IsName name) (h : slashed names = slashed names') :
    names = names' := by
  have hcut {names : List String} (hnames : ∀ name ∈ names, IsName name) :
      (slashed names).splitOn '/' = [] :: names.map String.toList := by
    have hjoin : slashed names = ['/'].intercalate ([] :: names.map String.toList) := by
      simpa using (toList_join "" names).symm
    rw [hjoin]
    refine List.splitOn_intercalate _ ?_ (List.cons_ne_nil _ _)
    rintro stretch (_ | ⟨_, hstretch⟩)
    · simp
    · obtain ⟨name, hname, rfl⟩ := List.mem_map.1 hstretch
      exact (hnames name hname).2
  have hmap := congrArg (List.splitOn '/') h
  rw [hcut hnames, hcut hnames'] at hmap
  exact List.map_injective_iff.2 (fun _ _ => String.toList_inj.1) (List.cons.inj hmap).2

/-- The text of a place, unless it is the root. -/
theorem Place.toList_text (name : String) (place : Place) :
    (Place.text (name :: place)).toList = slashed (name :: place) := by
  rw [Place.text, String.toList_append, toList_join]
  rfl

/-- **Places can be told from their texts.** -/
theorem Place.text_inj {place place' : Place} (hplace : ∀ name ∈ place, IsName name)
    (hplace' : ∀ name ∈ place', IsName name) : place.text = place'.text ↔ place = place' := by
  refine ⟨fun h => ?_, fun h => h ▸ rfl⟩
  have htext := congrArg String.toList h
  -- no name is empty, so the text of the root is no other place's
  have hroot {name : String} {place : Place} (hname : IsName name)
      (h : (Place.text []).toList = (Place.text (name :: place)).toList) : False := by
    rw [toList_text] at h
    have hempty : name.toList = [] := by simp_all [Place.text, slashed]
    exact hname.1 (String.toList_inj.1 (by simpa using hempty))
  rcases place with _ | ⟨name, place⟩ <;> rcases place' with _ | ⟨name', place'⟩
  · rfl
  · exact (hroot (hplace' name' List.mem_cons_self) htext).elim
  · exact (hroot (hplace name List.mem_cons_self) htext.symm).elim
  · rw [toList_text, toList_text] at htext
    exact slashed_inj hplace hplace' htext

end Files

open Files

namespace Workspace

/-! ### Module files in charge

A module file is looked for in the directory itself, then in the one above it, and so on. What is found on
the way and gives no module path is passed over, so the one in charge need not be the nearest file of its
name. -/

variable {w : Workspace} {dir place place' : Place} {path : String}

/-- The module file in a directory gives a module path. -/
def NamesModule (w : Workspace) (dir : Place) (path : String) : Prop :=
  ∃ contents text, w.tree.get? (dir ++ [moduleFile]) = some (.file contents) ∧
    String.fromUTF8? contents = some text ∧ modulePath? text = some path

/-- There is no module file in a directory, or it can be read and gives no module path. -/
def NamesNone (w : Workspace) (dir : Place) : Prop :=
  ∀ contents, w.tree.get? (dir ++ [moduleFile]) = some (.file contents) →
    ∃ text, String.fromUTF8? contents = some text ∧ modulePath? text = none

/-- **A module file is in charge of a place**: it lies in a directory above the place, or at it, it
gives a module path, and between the two no module file does. -/
structure GovernedBy (w : Workspace) (place dir : Place) : Prop where
  above : dir <+: place
  names : ∃ path, w.NamesModule dir path
  nearest : ∀ between, dir <+: between → between <+: place → between ≠ dir → w.NamesNone between

/-- No module file is in charge of a place. -/
def Ungoverned (w : Workspace) (place : Place) : Prop :=
  ∀ above, above <+: place → w.NamesNone above

/-- **The same module file is in charge of two places**, or none is in charge of either. -/
def GovernedAlike (w : Workspace) (place place' : Place) : Prop :=
  (∃ dir, w.GovernedBy place dir ∧ w.GovernedBy place' dir) ∨
    (w.Ungoverned place ∧ w.Ungoverned place')

/-! ### The search for a module file

The search is a recursion on the names of the place, the last one first. At each directory there are three
cases: no file, a file that can be read, and a file that cannot. -/

theorem importPathFrom_of_names {above below : List String} (h : w.NamesModule above.reverse path) :
    w.importPathFrom above below = .ok ("/".intercalate (path :: below)) := by
  obtain ⟨contents, text, hfile, htext, hpath⟩ := h
  rw [importPathFrom.eq_def]
  simp only [hfile, htext, hpath]

/-- A directory whose module file gives no module path is passed over. -/
theorem importPathFrom_of_none {above below : List String} {name : String}
    (h : w.NamesNone (above.reverse ++ [name])) :
    w.importPathFrom (name :: above) below = w.importPathFrom above (name :: below) := by
  rw [importPathFrom.eq_def]
  dsimp only
  rw [List.reverse_cons]
  split
  next contents hfile =>
    obtain ⟨text, htext, hpath⟩ := h contents hfile
    simp only [htext, hpath]
  next => rfl

theorem importPathFrom_root {below : List String} (h : w.NamesNone []) :
    w.importPathFrom [] below = .ok (Place.text below) := by
  rw [importPathFrom.eq_def]
  dsimp only
  split
  next contents hfile =>
    obtain ⟨text, htext, hpath⟩ := h contents hfile
    simp only [htext, hpath]
  next => rfl

/-- From below, the search comes to a directory above if it is passed over on the way. -/
theorem importPathFrom_append {between below : List String}
    (h : ∀ front, front <+: between → front ≠ [] → w.NamesNone (dir ++ front)) :
    w.importPathFrom (dir ++ between).reverse below =
      w.importPathFrom dir.reverse (between ++ below) := by
  induction between using List.reverseRecOn generalizing below with
  | nil => rw [List.append_nil, List.nil_append]
  | append_singleton between name ih =>
    have hlast : w.NamesNone ((dir ++ between).reverse.reverse ++ [name]) := by
      rw [List.reverse_reverse, List.append_assoc]
      exact h _ List.prefix_rfl (by simp)
    rw [← List.append_assoc, List.reverse_append, List.reverse_singleton, List.singleton_append,
      importPathFrom_of_none hlast, ih fun front hfront =>
        h front (hfront.trans (List.prefix_append between [name])),
      List.append_assoc, List.singleton_append]

/-- **The import path of a place that a module file is in charge of** is the module path with the
names behind it that lead from the directory of that file to the place. -/
theorem GovernedBy.importPathFrom (h : w.GovernedBy place dir) (hpath : w.NamesModule dir path) :
    ∃ below, place = dir ++ below ∧
      w.importPathFrom place.reverse [] = .ok ("/".intercalate (path :: below)) := by
  obtain ⟨below, rfl⟩ := h.above
  refine ⟨below, rfl, ?_⟩
  rw [importPathFrom_append fun front hfront hne => ?_, List.append_nil,
    importPathFrom_of_names (by rwa [List.reverse_reverse])]
  exact h.nearest _ (List.prefix_append dir front) ((List.prefix_append_right_inj dir).2 hfront)
    (by simpa using hne)

/-- **The import path of a place that no module file is in charge of** is its own text. -/
theorem Ungoverned.importPathFrom (h : w.Ungoverned place) :
    w.importPathFrom place.reverse [] = .ok place.text := by
  have happend : w.importPathFrom ([] ++ place).reverse [] = _ :=
    importPathFrom_append fun front hfront _ => h front hfront
  rw [List.nil_append] at happend
  rw [happend, List.append_nil, List.reverse_nil, importPathFrom_root (h [] List.nil_prefix)]

/-- Places of which the same module file is in charge have import paths, and different ones if they
differ. -/
theorem GovernedAlike.exists_importPathFrom (h : w.GovernedAlike place place')
    (hplace : ∀ name ∈ place, IsName name) (hplace' : ∀ name ∈ place', IsName name) :
    ∃ path path', w.importPathFrom place.reverse [] = .ok path ∧
      w.importPathFrom place'.reverse [] = .ok path' ∧ (path = path' ↔ place = place') := by
  rcases h with ⟨dir, hdir, hdir'⟩ | ⟨hnone, hnone'⟩
  · obtain ⟨module, hmodule⟩ := hdir.names
    obtain ⟨below, rfl, hpath⟩ := hdir.importPathFrom hmodule
    obtain ⟨below', rfl, hpath'⟩ := hdir'.importPathFrom hmodule
    -- the module path may have any slashes, but it is the same one in both
    refine ⟨_, _, hpath, hpath', fun heq => ?_, fun heq => ?_⟩
    · have htext := congrArg String.toList heq
      rw [toList_join, toList_join, List.append_cancel_left_eq] at htext
      rw [slashed_inj (fun name hname => hplace name (List.mem_append_right dir hname))
        (fun name hname => hplace' name (List.mem_append_right dir hname)) htext]
    · rw [List.append_cancel_left_eq] at heq
      rw [heq]
  · exact ⟨_, _, hnone.importPathFrom, hnone'.importPathFrom, Place.text_inj hplace hplace'⟩

/-! ### The packages of a run -/

theorem id_of_ofSourcesIn {found path : String} {sources : List SourceText} {pkg : Package}
    (h : Package.ofSourcesIn found path sources = .ok pkg) : pkg.id.path = path := by
  rw [Package.ofSourcesIn] at h
  dsimp only at h
  split at h
  · cases h
  · split at h
    · cases h
    · split at h
      · cases h
        rw [id_linkFiles]
      · cases h
    · cases h

/-- A package that was loaded from a directory goes by the import path of that directory. -/
theorem importPath_of_load {d : String} {pkg : Package} (h : w.load d = .ok pkg) :
    w.importPath d = .ok pkg.id.path := by
  obtain ⟨path, hpath, h⟩ := except_bind_eq_ok.1 h
  obtain ⟨entries, -, h⟩ := except_bind_eq_ok.1 h
  obtain ⟨sources, -, h⟩ := except_bind_eq_ok.1 h
  rw [hpath, id_of_ofSourcesIn h]

/-- What the examination of a configuration finds, step by step. -/
theorem examine_eq_ok {config : Config} {method : HookedMethod} {target : Target} :
    w.examine config = .ok (method, target) ↔
      config.validate = .ok () ∧ ∃ pkg path, w.load config.source.dir = .ok pkg ∧
        w.importPath config.destination.dir = .ok path ∧
        pkg.extract config.source.object = .ok method ∧ target = ⟨pkg.id, .ofPath path⟩ := by
  constructor
  · intro h
    obtain ⟨_, hvalid, h⟩ := except_bind_eq_ok.1 h
    obtain ⟨pkg, hpkg, h⟩ := except_bind_eq_ok.1 h
    obtain ⟨path, hpath, h⟩ := except_bind_eq_ok.1 h
    obtain ⟨_, hmethod, h⟩ := except_bind_eq_ok.1 h
    cases h
    exact ⟨mapError_eq_ok.1 hvalid, pkg, path, mapError_eq_ok.1 hpkg, mapError_eq_ok.1 hpath,
      mapError_eq_ok.1 hmethod, rfl⟩
  · rintro ⟨hvalid, pkg, path, hpkg, hpath, hmethod, rfl⟩
    refine except_bind_eq_ok.2 ⟨(), mapError_eq_ok.2 hvalid, ?_⟩
    refine except_bind_eq_ok.2 ⟨pkg, mapError_eq_ok.2 hpkg, ?_⟩
    refine except_bind_eq_ok.2 ⟨path, mapError_eq_ok.2 hpath, ?_⟩
    exact except_bind_eq_ok.2 ⟨method, mapError_eq_ok.2 hmethod, rfl⟩

/-- The target of a run is known by the import paths of its two directories. -/
theorem importPath_of_examine {config : Config} {method : HookedMethod} {target : Target}
    (h : w.examine config = .ok (method, target)) :
    w.importPath config.source.dir = .ok target.source.path ∧
      w.importPath config.destination.dir = .ok target.destination.path := by
  obtain ⟨-, pkg, path, hpkg, hpath, -, rfl⟩ := examine_eq_ok.1 h
  exact ⟨importPath_of_load hpkg, hpath⟩

/-- How a directory is spelled has no say in its import path. -/
theorem importPath_congr {d e : String} (h : Path.absolute w.cwd d = Path.absolute w.cwd e) :
    w.importPath d = w.importPath e := by
  rw [importPath, importPath, h]

/-- **Import paths identify directories.** Two directories of which the same module file is in
charge, or none, have import paths, and these are equal just if the directories are one place,
however they are spelled and whether or not they exist. So whether a run stays in one package does
not depend on how its two directories are spelled, and it does just if they are one place. -/
theorem importPath_eq_iff (w : Workspace) (hcwd : ∀ name ∈ w.cwd, IsName name) :
    (∀ d e, w.GovernedAlike (Path.absolute w.cwd d) (Path.absolute w.cwd e) →
      ∃ path path', w.importPath d = .ok path ∧ w.importPath e = .ok path' ∧
        (path = path' ↔ Path.absolute w.cwd d = Path.absolute w.cwd e)) ∧
    ∀ config method target, w.examine config = .ok (method, target) →
      (w.GovernedAlike (Path.absolute w.cwd config.source.dir)
          (Path.absolute w.cwd config.destination.dir) →
        (target.samePackage = true ↔ Path.absolute w.cwd config.source.dir =
          Path.absolute w.cwd config.destination.dir)) ∧
      ∀ config' method' target', w.examine config' = .ok (method', target') →
        Path.absolute w.cwd config.source.dir = Path.absolute w.cwd config'.source.dir →
        Path.absolute w.cwd config.destination.dir = Path.absolute w.cwd config'.destination.dir →
        target.samePackage = target'.samePackage := by
  have hpaths (d e : String)
      (h : w.GovernedAlike (Path.absolute w.cwd d) (Path.absolute w.cwd e)) :=
    h.exists_importPathFrom (isName_absolute hcwd d) (isName_absolute hcwd e)
  refine ⟨hpaths, fun config method target hrun => ?_⟩
  obtain ⟨hsource, hdestination⟩ := importPath_of_examine hrun
  refine ⟨fun halike => ?_, fun config' method' target' hrun' hsame hsame' => ?_⟩
  · obtain ⟨path, path', hpath, hpath', hiff⟩ := hpaths _ _ halike
    obtain rfl : path = target.source.path := Except.ok.inj (hpath.symm.trans hsource)
    obtain rfl : path' = target.destination.path := Except.ok.inj (hpath'.symm.trans hdestination)
    rw [Target.samePackage, decide_eq_true_iff]
    exact hiff
  · obtain ⟨hsource', hdestination'⟩ := importPath_of_examine hrun'
    have hsources : target.source.path = target'.source.path :=
      Except.ok.inj (hsource.symm.trans ((importPath_congr hsame).trans hsource'))
    have hdestinations : target.destination.path = target'.destination.path :=
      Except.ok.inj (hdestination.symm.trans ((importPath_congr hsame').trans hdestination'))
    rw [Target.samePackage, Target.samePackage, hsources, hdestinations]

/-- The text of a source file. -/
def earText : String := "package ears\n\ntype Ear interface\x7b Hear() \x7d\n"

/-- The text of a module file. -/
def earModule : String := "module example.com/m\n"

/-- A run that starts in the directory of a module with one package, where no tool starts. -/
def ears : Workspace where
  tree := ⟨[(["m", "ears", "ear.go"], .file earText.toUTF8), (["m", "ears"], .directory),
    (["m", moduleFile], .file earModule.toUTF8), (["m"], .directory)]⟩
  cwd := ["m"]
  tool _ := .error .notFound

/-- A hook next to its interface, although the two directories do not look the same. -/
def earConfig : Config where
  source := ⟨"ears/../ears", "Ear"⟩
  destination := ⟨"./ears//", "Hook"⟩
  formatter := .noop

theorem namesModule_ears : ears.NamesModule ["m"] "example.com/m" :=
  ⟨earModule.toUTF8, earModule, rfl, Text.Utf8.fromUTF8?_toUTF8 earModule, by decide⟩

theorem governedBy_ears : ears.GovernedBy ["m", "ears"] ["m"] where
  above := ⟨["ears"], rfl⟩
  names := ⟨_, namesModule_ears⟩
  nearest := by
    rintro between ⟨front, rfl⟩ ⟨back, hback⟩ hne contents hfile
    obtain ⟨rfl, rfl⟩ : front = ["ears"] ∧ back = [] := by
      rcases front with _ | ⟨name, front⟩ <;> simp_all
    simp [ears, Tree.get?, moduleFile, List.lookup_cons] at hfile

/-- The one package of `ears`, by its import path. -/
theorem importPath_ears_package {dir : String} (hdir : Path.absolute ears.cwd dir = ["m", "ears"]) :
    ears.importPath dir = .ok "example.com/m/ears" := by
  obtain ⟨below, hbelow, hpath⟩ := governedBy_ears.importPathFrom namesModule_ears
  obtain rfl : ["ears"] = below := (List.cons.inj hbelow).2
  rw [importPath, hdir, hpath]
  decide

/-- The package in a directory, if its path, its entries and their texts are known. -/
theorem load_eq_ofSourcesIn {w : Workspace} {dir path : String} {entries : List (String × Node)}
    {sources : List SourceText} (hpath : w.importPath dir = .ok path)
    (hlist : w.tree.list w.cwd dir = .ok entries) (hsources : sourceTexts dir entries = .ok sources) :
    w.load dir = Package.ofSourcesIn dir path sources := by
  rw [load, hpath, hlist]
  simp only [Except.mapError, hsources, bind, Except.bind]

theorem load_ears : ears.load "ears/../ears" =
    Package.ofSourcesIn "ears/../ears" "example.com/m/ears" [⟨"ear.go", earText⟩] := by
  have hlist : ears.tree.list ears.cwd "ears/../ears" = .ok [("ear.go", .file earText.toUTF8)] := by
    rfl
  have hsources : sourceTexts "ears/../ears" [("ear.go", .file earText.toUTF8)] =
      .ok [⟨"ear.go", earText⟩] := by
    have hname : isSourceName "ear.go" = true := by decide
    rw [sourceTexts, if_pos hname, Text.Utf8.fromUTF8?_toUTF8]
    rfl
  exact load_eq_ofSourcesIn (importPath_ears_package (by decide)) hlist hsources

theorem exists_plan_ears : ∃ method target file, ears.examine earConfig = .ok (method, target) ∧
    HookFile.ofMethod earConfig method target = .ok file := by
  obtain ⟨pkg, hpkg, hcheck⟩ : ∃ pkg,
      Package.ofSources "example.com/m/ears" [⟨"ear.go", earText⟩] = .ok pkg ∧
        (((pkg.lookup? "Ear").bind Object.loneMethod?).any fun m =>
          m.signature.results.isEmpty && (HookFile.ofMethod earConfig
            ⟨m.name, hookedParams m.signature.variadic m.signature.params⟩
            ⟨pkg.id, .ofPath "example.com/m/ears"⟩).toOption.any fun _ => true) = true :=
    Package.exists_ofSources_singleton String.toList_ofList (by decide +kernel)
  obtain ⟨m, hlone, hcheck⟩ := (Option.any_eq_true _ _).1 hcheck
  obtain ⟨hresults, hplan⟩ := Bool.and_eq_true_iff.1 hcheck
  obtain ⟨file, hplan, -⟩ := exists_ok_of_any hplan
  have hload : ears.load "ears/../ears" = .ok pkg := load_ears.trans (Package.ofSourcesIn_place hpkg)
  have hextract := Package.extract_eq_ok.2 ⟨by decide, m, Package.onlyMethod_of_loneMethod? hlone,
    List.isEmpty_iff.1 hresults, rfl⟩
  have hpath : ears.importPath earConfig.destination.dir = .ok "example.com/m/ears" :=
    importPath_ears_package (by decide)
  exact ⟨_, _, file, examine_eq_ok.2 ⟨by decide, pkg, _, hload, hpath, hextract, rfl⟩, hplan⟩

theorem importPath_ears :
    (∃ path, ears.importPath earConfig.source.dir = .ok path ∧
      ears.importPath earConfig.destination.dir = .ok path) ∧
    ∃ method target, ears.examine earConfig = .ok (method, target) ∧ target.samePackage = true := by
  obtain ⟨hpaths, hruns⟩ := importPath_eq_iff ears (by simp [ears, IsName])
  have hsource : Path.absolute ears.cwd earConfig.source.dir = ["m", "ears"] := by decide
  have hdestination : Path.absolute ears.cwd earConfig.destination.dir = ["m", "ears"] := by
    decide
  have halike : ears.GovernedAlike (Path.absolute ears.cwd earConfig.source.dir)
      (Path.absolute ears.cwd earConfig.destination.dir) :=
    .inl ⟨["m"], hsource ▸ governedBy_ears, hdestination ▸ governedBy_ears⟩
  have hsame := hsource.trans hdestination.symm
  obtain ⟨method, target, -, hrun, -⟩ := exists_plan_ears
  obtain ⟨path, path', hpath, hpath', hiff⟩ := hpaths _ _ halike
  exact ⟨⟨path, hpath, hiff.2 hsame ▸ hpath'⟩, method, target, hrun,
    ((hruns _ _ _ hrun).1 halike).2 hsame⟩

end Workspace

end Multicast
