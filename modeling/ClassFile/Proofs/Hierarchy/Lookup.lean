import Mathlib.Data.List.Perm.Subperm
import ClassFile.Hierarchy.Ancestor
import ClassFile.Proofs.Spelling

namespace ClassFile
namespace Hierarchy

/-!
# What a hierarchy knows of a class

A question may load classes on the way, but what a hierarchy answers about a
class is the same before and after.  `lookup` is that answer.  A question only
ever takes a hierarchy to one that `Extends` it, with at least as many classes in
the graph.  The classes that can be found are no more than `classCount`, since
every file holds one class at most.
-/

/-! ## Running questions -/

namespace Query

variable {α β : Type} (hierarchy : Hierarchy)

@[simp] theorem run_pure (answer : α) :
    (pure answer : Query α).run hierarchy = (.ok answer, hierarchy) :=
  rfl

@[simp] theorem run_throw (fault : Fault) :
    (throw fault : Query α).run hierarchy = (.error fault, hierarchy) :=
  rfl

@[simp] theorem run_get : (get : Query Hierarchy).run hierarchy = (.ok hierarchy, hierarchy) :=
  rfl

@[simp] theorem run_modify (change : Hierarchy → Hierarchy) :
    (modify change : Query Unit).run hierarchy = (.ok (), change hierarchy) :=
  rfl

@[simp] theorem run_lift (result : Except Fault α) :
    (liftM result : Query α).run hierarchy = (result, hierarchy) := by
  cases result <;> rfl

/-- The second of two questions is asked if the first one has an answer. -/
theorem run_bind_ok {query : Query α} {next : α → Query β} {hierarchy after : Hierarchy}
    {answer : α} (run : query.run hierarchy = (.ok answer, after)) :
    (query >>= next).run hierarchy = (next answer).run after := by
  have unfolded : (query >>= next).run hierarchy =
      (ExceptT.bindCont next (query.run hierarchy).1) (query.run hierarchy).2 := rfl
  rw [unfolded, run]
  rfl

theorem run_bind_error {query : Query α} {next : α → Query β} {hierarchy after : Hierarchy}
    {fault : Fault} (run : query.run hierarchy = (.error fault, after)) :
    (query >>= next).run hierarchy = (.error fault, after) := by
  have unfolded : (query >>= next).run hierarchy =
      (ExceptT.bindCont next (query.run hierarchy).1) (query.run hierarchy).2 := rfl
  rw [unfolded, run]
  rfl

end Query

/-! ## Lookup -/

/-- What a hierarchy knows of a class, in the graph or not. -/
def lookup (hierarchy : Hierarchy) (name : String) : Except Fault ClassInfo :=
  match hierarchy.graph.find? name with
  | some info => .ok info
  | none => (hierarchy.load? name).getD (.error (.typeNotPresent name))

/-- A class that a hierarchy can find. -/
def known (hierarchy : Hierarchy) (name : String) : Option ClassInfo :=
  (hierarchy.lookup name).toOption

theorem known_eq_some {hierarchy : Hierarchy} {name : String} {info : ClassInfo} :
    hierarchy.known name = some info ↔ hierarchy.lookup name = .ok info := by
  rw [known]
  cases hierarchy.lookup name with
  | ok found => simp [Except.toOption]
  | error fault => simp [Except.toOption]

theorem known_of_find? {hierarchy : Hierarchy} {name : String} {info : ClassInfo}
    (found : hierarchy.graph.find? name = some info) : hierarchy.known name = some info := by
  rw [known_eq_some, lookup, found]

/-- Without directories, what is known of a class is what the graph has. -/
theorem lookup_of_no_directories {hierarchy : Hierarchy} (alone : hierarchy.directories = [])
    (name : String) : hierarchy.lookup name = match hierarchy.graph.find? name with
      | some info => .ok info
      | none => .error (.typeNotPresent name) := by
  have nowhere : hierarchy.load? name = none := by rw [load?, alone, List.findSome?_nil]
  rw [lookup, nowhere]
  rfl

theorem known_of_no_directories {hierarchy : Hierarchy} (alone : hierarchy.directories = []) :
    hierarchy.known = hierarchy.graph.find? := by
  funext name
  rw [known, lookup_of_no_directories alone]
  cases hierarchy.graph.find? name with
  | some info => rfl
  | none => rfl

theorem known_ofGraph (graph : ClassGraph) : (ofGraph graph []).known = graph.find? :=
  known_of_no_directories rfl

/-- Adding a class changes nothing but for a name that has none. -/
theorem find?_add (graph : ClassGraph) (info : ClassInfo) (name : String) :
    (graph.add info).find? name =
      if info.name.text = name ∧ graph.find? name = none then some info
      else graph.find? name := by
  rw [ClassGraph.find?, ClassGraph.add, Std.HashMap.getElem?_insertIfNew, ClassGraph.find?]
  by_cases same : info.name.text = name
  · subst same
    simp
  · simp [same]

theorem find?_add_of_some {graph : ClassGraph} {info old : ClassInfo} {name : String}
    (found : graph.find? name = some old) : (graph.add info).find? name = some old := by
  rw [find?_add, found, if_neg fun fresh => Option.some_ne_none old fresh.2]

/-! ## Classes in files -/

/-- What a directory says of a class bears the name it was asked for. -/
theorem describe_name {path name : String} {image : ClassImage} {info : ClassInfo}
    (described : Directory.describe path name image = .ok info) :
    image.name = .ok name ∧ info.name.text = name := by
  rw [Directory.describe] at described
  obtain ⟨found, isFound, described⟩ := bind_eq_ok.1 described
  split at described
  · cases described
  · next same =>
    rw [not_not] at same
    subst same
    obtain ⟨name, parsed, described⟩ := bind_eq_ok.1 described
    obtain ⟨_, -, described⟩ := bind_eq_ok.1 described
    obtain ⟨_, -, described⟩ := bind_eq_ok.1 described
    obtain ⟨_, -, described⟩ := bind_eq_ok.1 described
    obtain ⟨_, -, described⟩ := bind_eq_ok.1 described
    obtain rfl := pure_eq_ok.1 described
    exact ⟨isFound, ClassName.text_of_parse parsed⟩

/-- A path leads to files of the tree only. -/
theorem mem_of_follow {tree : FileTree} {place : Place} {path : List String} {bytes : Bytes}
    (found : tree.follow place path = .ok (some (.file bytes))) :
    ∃ there, (there, FileEntry.file bytes) ∈ tree.entries := by
  induction path generalizing place with
  | nil => cases found
  | cons name rest ih =>
    rw [FileTree.follow.eq_def] at found
    dsimp only at found
    split at found
    · split at found
      · cases found
      · exact ih found
    · split at found
      · cases found
      · split at found
        · cases found
        · exact ih found
        · next there =>
          split at found
          · obtain rfl := FileEntry.file.inj (Option.some.inj (Except.ok.inj found))
            refine ⟨name :: place, ?_⟩
            rw [ FileTree.entry?, List.lookup_eq_some_iff] at there
            obtain ⟨front, back, split, -⟩ := there
            rw [split]
            exact List.mem_append_right _ List.mem_cons_self
          · cases found

/-- What is read from a directory is a file of its tree. -/
theorem mem_of_read {directory : Directory} {file : String} {bytes : Bytes}
    (found : directory.read file = .ok (some bytes)) :
    ∃ there, (there, FileEntry.file bytes) ∈ directory.tree.entries := by
  rw [Directory.read] at found
  split at found
  · cases found
  split at found
  · cases found
  split at found
  · cases found
  rw [FileTree.read] at found
  obtain ⟨there, followed, found⟩ := bind_eq_ok.1 found
  match there, found with
  | some (.file held), found =>
    obtain rfl := Option.some.inj (pure_eq_ok.1 found)
    exact mem_of_follow followed
  | some .directory, found => cases found
  | none, found => cases found

/-- The name of the class that a file holds. -/
def heldName? : FileEntry → Option String
  | .file bytes => (ClassImage.parse bytes >>= ClassImage.name).toOption
  | .directory => none

/-- The names of the classes that the files of a directory hold. -/
def heldNames (directory : Directory) : List String :=
  directory.tree.entries.filterMap fun entry => heldName? entry.2

theorem load?_ok {directory : Directory} {name : String} {info : ClassInfo}
    (loaded : directory.load? name = some (.ok info)) :
    name ∈ heldNames directory ∧ info.name.text = name := by
  rw [Directory.load?] at loaded
  split at loaded
  · cases loaded
  · next bytes found =>
    obtain ⟨image, parsed, described⟩ := bind_eq_ok.1 (Option.some.inj loaded)
    obtain ⟨held, named⟩ := describe_name described
    obtain ⟨there, member⟩ := mem_of_read found
    refine ⟨List.mem_filterMap.2 ⟨_, member, ?_⟩, named⟩
    rw [heldName?, bind_eq_ok.2 ⟨image, parsed, held⟩, Except.toOption]
  · cases Option.some.inj loaded

/-- A class that was not in the graph is loaded under its name, from a file of
one of the directories. -/
theorem load?_hierarchy_ok {hierarchy : Hierarchy} {name : String} {info : ClassInfo}
    (loaded : hierarchy.load? name = some (.ok info)) :
    name ∈ hierarchy.directories.flatMap heldNames ∧ info.name.text = name := by
  obtain ⟨directory, member, loaded⟩ := List.exists_of_findSome?_eq_some loaded
  obtain ⟨held, named⟩ := load?_ok loaded
  exact ⟨List.mem_flatMap.2 ⟨directory, member, held⟩, named⟩

theorem mem_of_known {hierarchy : Hierarchy} {name : String} {info : ClassInfo}
    (found : hierarchy.known name = some info) :
    name ∈ hierarchy.graph.classes.keys ++ hierarchy.directories.flatMap heldNames := by
  rw [known_eq_some, lookup] at found
  split at found
  · next there =>
    refine List.mem_append_left _ (Std.HashMap.mem_keys.2 ?_)
    exact Std.HashMap.mem_iff_isSome_getElem?.2 (by rw [ClassGraph.find?] at there; rw [there]; rfl)
  · cases loaded : hierarchy.load? name with
    | none =>
      rw [loaded] at found
      cases found
    | some result =>
      rw [loaded, Option.getD_some] at found
      subst found
      exact List.mem_append_right _ (load?_hierarchy_ok loaded).1

/-- No more classes can be found than there are classes in the graph and files in
the directories. -/
theorem length_le_classCount {hierarchy : Hierarchy} {names : List String}
    (distinct : names.Nodup) (found : ∀ name ∈ names, ∃ info, hierarchy.known name = some info) :
    names.length ≤ hierarchy.classCount := by
  have contained : names ⊆
      hierarchy.graph.classes.keys ++ hierarchy.directories.flatMap heldNames := by
    intro name member
    obtain ⟨info, isKnown⟩ := found name member
    exact mem_of_known isKnown
  have files : ∀ directories : List Directory, (directories.flatMap heldNames).length ≤
      (directories.flatMap fun directory => directory.tree.entries).length := by
    intro directories
    induction directories with
    | nil => exact Nat.le_refl _
    | cons directory rest ih =>
      rw [List.flatMap_cons, List.flatMap_cons, List.length_append, List.length_append]
      exact Nat.add_le_add (List.length_filterMap_le _ _) ih
  calc names.length
      ≤ (hierarchy.graph.classes.keys ++ hierarchy.directories.flatMap heldNames).length :=
        (distinct.subperm contained).length_le
    _ = hierarchy.graph.size + (hierarchy.directories.flatMap heldNames).length := by
        rw [List.length_append, Std.HashMap.length_keys, ClassGraph.size]
    _ ≤ hierarchy.classCount := Nat.add_le_add_left (files _) _

/-! ## Questions only extend a hierarchy -/

/-- A hierarchy after questions about single classes.  It knows the same, and has
at least as many classes at hand. -/
structure Extends (before after : Hierarchy) : Prop where
  lookup : after.lookup = before.lookup
  directories : after.directories = before.directories
  answers : after.answers = before.answers
  grows : ∀ name info, before.graph.find? name = some info → after.graph.find? name = some info

theorem Extends.refl (hierarchy : Hierarchy) : Extends hierarchy hierarchy :=
  ⟨rfl, rfl, rfl, fun _ _ found => found⟩

theorem Extends.trans {first second third : Hierarchy} (earlier : Extends first second)
    (later : Extends second third) : Extends first third :=
  ⟨later.lookup.trans earlier.lookup, later.directories.trans earlier.directories,
    later.answers.trans earlier.answers,
    fun name info found => later.grows name info (earlier.grows name info found)⟩

theorem Extends.known {before after : Hierarchy} (extends_ : Extends before after) :
    after.known = before.known := by
  funext name
  rw [Hierarchy.known, extends_.lookup, Hierarchy.known]

/-- Finding a class gives what `lookup` says, and keeps the class if there is
one. -/
theorem find_run (hierarchy : Hierarchy) (name : String) :
    ∃ after, (find name).run hierarchy = (hierarchy.lookup name, after) ∧
      Extends hierarchy after ∧
      ∀ info, hierarchy.lookup name = .ok info → after.graph.find? name = some info := by
  rw [find, Query.run_bind_ok (Query.run_get hierarchy)]
  cases here : hierarchy.graph.find? name with
  | some info =>
    have same : hierarchy.lookup name = .ok info := by rw [lookup, here]
    refine ⟨hierarchy, by rw [same]; rfl, .refl hierarchy, fun other found => ?_⟩
    rw [same] at found
    exact here.trans (congrArg some (Except.ok.inj found))
  | none =>
    have same : hierarchy.lookup name =
        (hierarchy.load? name).getD (.error (.typeNotPresent name)) := by rw [lookup, here]
    dsimp only
    cases loaded : hierarchy.load? name with
    | none =>
      rw [loaded, Option.getD_none] at same
      rw [same]
      exact ⟨hierarchy, rfl, .refl hierarchy, fun _ found => by cases found⟩
    | some result =>
      rw [loaded, Option.getD_some] at same
      rw [same]
      cases result with
      | error fault => exact ⟨hierarchy, rfl, .refl hierarchy, fun _ found => by cases found⟩
      | ok info =>
        obtain ⟨-, named⟩ := load?_hierarchy_ok loaded
        refine ⟨{ hierarchy with graph := hierarchy.graph.add info }, rfl, ⟨?_, rfl, rfl, ?_⟩, ?_⟩
        · funext other
          by_cases asked : name = other
          · subst asked
            rw [same, lookup]
            dsimp only
            rw [find?_add, if_pos ⟨named, here⟩]
          · rw [lookup, lookup]
            dsimp only
            rw [find?_add, if_neg fun fresh => asked (named.symm.trans fresh.1)]
            rfl
        · exact fun _ _ found => find?_add_of_some found
        · intro other found
          obtain rfl := Except.ok.inj found
          dsimp only
          rw [find?_add, if_pos ⟨named, here⟩]

end Hierarchy
end ClassFile
